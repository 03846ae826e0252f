import Mathlib

/-!
Reasoning about computations in `EStateM ε σ`, which either return a value or throw, and in
both cases leave a state: one step of `>>=` at a time, and a postcondition on the result
that says what a returned value and a thrown error each leave behind. When the state is a
log that grows at its front, `Extends` says what the computation has added to it.
-/

namespace ErrorState

variable {ε σ α β : Type}

-- `Q` of what a computation returns and `E` of what it throws, each with the state it leaves.
def Holds (Q : α → σ → Prop) (E : ε → σ → Prop) : EStateM.Result ε σ α → Prop
  | .ok a s => Q a s
  | .error e s => E e s

@[simp] theorem holds_ok {Q : α → σ → Prop} {E : ε → σ → Prop} {a : α} {s : σ} :
    Holds Q E (.ok a s) ↔ Q a s := Iff.rfl

@[simp] theorem holds_error {Q : α → σ → Prop} {E : ε → σ → Prop} {e : ε} {s : σ} :
    Holds Q E (.error e s) ↔ E e s := Iff.rfl

theorem Holds.mono {Q Q' : α → σ → Prop} {E E' : ε → σ → Prop} {r : EStateM.Result ε σ α}
    (h : Holds Q E r) (hQ : ∀ a s, Q a s → Q' a s) (hE : ∀ e s, E e s → E' e s) :
    Holds Q' E' r := by
  cases r with
  | ok a s => exact hQ a s h
  | error e s => exact hE e s h

theorem bind_apply (x : EStateM ε σ α) (f : α → EStateM ε σ β) (s : σ) :
    (x >>= f) s = match x s with
      | .ok a s' => f a s'
      | .error e s' => .error e s' := rfl

theorem bind_ok {x : EStateM ε σ α} {f : α → EStateM ε σ β} {s s' : σ} {a : α}
    (h : x s = .ok a s') : (x >>= f) s = f a s' := by
  rw [bind_apply, h]

theorem bind_error {x : EStateM ε σ α} {f : α → EStateM ε σ β} {s s' : σ} {e : ε}
    (h : x s = .error e s') : (x >>= f) s = .error e s' := by
  rw [bind_apply, h]

-- A bind keeps what holds of every way its second part can end, and of the first part's errors.
theorem holds_bind {x : EStateM ε σ α} {f : α → EStateM ε σ β} {s : σ}
    {Q : β → σ → Prop} {E : ε → σ → Prop}
    (h : Holds (fun a s' => Holds Q E (f a s')) E (x s)) : Holds Q E ((x >>= f) s) := by
  rw [bind_apply]
  cases hx : x s with
  | ok a s' => rw [hx] at h; exact h
  | error e s' => rw [hx] at h; exact h

@[simp] theorem pure_apply (a : α) (s : σ) : (pure a : EStateM ε σ α) s = .ok a s := rfl

@[simp] theorem throw_apply (e : ε) (s : σ) : (throw e : EStateM ε σ α) s = .error e s := rfl

@[simp] theorem modify_apply (f : σ → σ) (s : σ) :
    (modify f : EStateM ε σ PUnit) s = .ok ⟨⟩ (f s) := rfl

-- The log `s` is `log` with entries in front that all satisfy `P`.
def Extends {γ : Type} (P : γ → Prop) (log s : List γ) : Prop :=
  ∃ new, s = new ++ log ∧ ∀ r ∈ new, P r

theorem Extends.refl {γ : Type} (P : γ → Prop) (log : List γ) : Extends P log log :=
  ⟨[], rfl, by simp⟩

theorem Extends.cons {γ : Type} {P : γ → Prop} {log s : List γ} (h : Extends P log s) {r : γ}
    (hr : P r) : Extends P log (r :: s) := by
  obtain ⟨new, rfl, hnew⟩ := h
  exact ⟨r :: new, rfl, by simpa [hr] using hnew⟩

theorem Extends.trans {γ : Type} {P : γ → Prop} {a b c : List γ} (hab : Extends P a b)
    (hbc : Extends P b c) : Extends P a c := by
  obtain ⟨n1, rfl, h1⟩ := hab
  obtain ⟨n2, rfl, h2⟩ := hbc
  refine ⟨n2 ++ n1, by simp, fun r hr => ?_⟩
  rcases List.mem_append.mp hr with hr | hr
  · exact h2 r hr
  · exact h1 r hr

end ErrorState
