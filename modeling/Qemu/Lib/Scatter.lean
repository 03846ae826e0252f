import Mathlib.Logic.Function.Basic
import Mathlib.Data.List.Nodup
import Qemu.Lib.ByteMem

/-!
Stores through a list of addresses. A memory `Nat → α` read at a list of addresses gives a
list of values (`as.map m`); `scatter m as vs` stores `vs[k]` at `as[k]` one store after
another. When the addresses are distinct, reading them back gives the values stored, and a
store through a window of a longer distinct list leaves the rest of that list as it was.
-/

namespace Scatter

variable {α β : Type*}

-- Stores `vs[k]` at `as[k]` in order; the shorter list ends it.
def scatter (m : Nat → α) : List Nat → List α → Nat → α
  | a :: as, v :: vs => scatter (Function.update m a v) as vs
  | _, _ => m

@[simp] theorem scatter_nil_left (m : Nat → α) (vs : List α) : scatter m [] vs = m := rfl

@[simp] theorem scatter_nil_right (m : Nat → α) (as : List Nat) : scatter m as [] = m := by
  cases as <;> rfl

@[simp] theorem scatter_cons (m : Nat → α) (a : Nat) (as : List Nat) (v : α) (vs : List α) :
    scatter m (a :: as) (v :: vs) = scatter (Function.update m a v) as vs := rfl

-- An address outside the list keeps its value.
theorem scatter_of_not_mem (m : Nat → α) {as : List Nat} (vs : List α) {a : Nat} (ha : a ∉ as) :
    scatter m as vs a = m a := by
  induction as generalizing m vs with
  | nil => rfl
  | cons b as ih =>
      cases vs with
      | nil => rfl
      | cons v vs =>
          simp only [List.mem_cons, not_or] at ha
          rw [scatter_cons, ih _ _ ha.2, Function.update_of_ne ha.1]

theorem scatter_append (m : Nat → α) {as : List Nat} (bs : List Nat) {vs : List α} (ws : List α)
    (h : as.length = vs.length) :
    scatter m (as ++ bs) (vs ++ ws) = scatter (scatter m as vs) bs ws := by
  induction as generalizing m vs with
  | nil =>
      rw [List.length_nil, eq_comm, List.length_eq_zero_iff] at h
      subst h
      rfl
  | cons a as ih =>
      cases vs with
      | nil => simp at h
      | cons v vs =>
          simp only [List.length_cons, Nat.add_right_cancel_iff] at h
          simp only [List.cons_append, scatter_cons, ih _ h]

-- Reading distinct addresses back gives the values stored there.
theorem map_scatter {as : List Nat} (m : Nat → α) {vs : List α} (hnd : as.Nodup)
    (hlen : vs.length = as.length) : as.map (scatter m as vs) = vs := by
  induction as generalizing m vs with
  | nil =>
      rw [List.length_nil, List.length_eq_zero_iff] at hlen
      exact hlen.symm
  | cons a as ih =>
      cases vs with
      | nil => simp at hlen
      | cons v vs =>
          rw [List.nodup_cons] at hnd
          simp only [List.length_cons, Nat.add_right_cancel_iff] at hlen
          rw [scatter_cons, List.map_cons, ih _ hnd.2 hlen,
            scatter_of_not_mem _ _ hnd.1, Function.update_self]

theorem map_scatter_of_disjoint {as bs : List Nat} (m : Nat → α) (vs : List α)
    (h : ∀ b ∈ bs, b ∉ as) : bs.map (scatter m as vs) = bs.map m :=
  List.map_congr_left fun b hb => scatter_of_not_mem m vs (h b hb)

-- A store through a window of a list of distinct addresses: the list reads as the old
-- prefix, the values stored and the old suffix.
theorem map_scatter_window {pre w post : List Nat} (m : Nat → α) {vs : List α}
    (hnd : (pre ++ w ++ post).Nodup) (hlen : vs.length = w.length) :
    (pre ++ w ++ post).map (scatter m w vs) = pre.map m ++ vs ++ post.map m := by
  have hnd' := hnd
  rw [List.nodup_append, List.nodup_append] at hnd'
  obtain ⟨⟨-, hw, hpre⟩, -, hpost⟩ := hnd'
  have hpre' : ∀ b ∈ pre, b ∉ w := fun b hb hbw => hpre b hb b hbw rfl
  have hpost' : ∀ b ∈ post, b ∉ w := fun b hb hbw =>
    hpost b (List.mem_append_right _ hbw) b hb rfl
  rw [List.map_append, List.map_append, map_scatter_of_disjoint m vs hpre',
    map_scatter m hw hlen, map_scatter_of_disjoint m vs hpost']

-- Stores along a list of pairs are one scatter: to the second components of the values that
-- the first ones name, or the other way round.
theorem foldl_update_zip_snd (f : Nat → α) (m : Nat → α) (js as : List Nat) :
    (js.zip as).foldl (fun m q => Function.update m q.2 (f q.1)) m = scatter m as (js.map f) := by
  induction js generalizing as m with
  | nil => simp
  | cons j js ih =>
      cases as with
      | nil => rfl
      | cons a as => rw [List.zip_cons_cons, List.foldl_cons, ih, List.map_cons, scatter_cons]

theorem foldl_update_zip_fst (g : Nat → α) (m : Nat → α) (js as : List Nat) :
    (js.zip as).foldl (fun m q => Function.update m q.1 (g q.2)) m = scatter m js (as.map g) := by
  induction js generalizing as m with
  | nil => rfl
  | cons j js ih =>
      cases as with
      | nil => simp
      | cons a as => rw [List.zip_cons_cons, List.foldl_cons, ih, List.map_cons, scatter_cons]

-- Consecutive byte stores are a scatter through the consecutive addresses.
theorem write_eq_scatter (m : ByteMem.Mem) (pos : Nat) (bs : List UInt8) :
    ByteMem.write m pos bs = scatter m (List.range' pos bs.length) bs := by
  induction bs generalizing m pos with
  | nil => rfl
  | cons b bs ih => rw [ByteMem.write, ih, List.length_cons, List.range'_succ, scatter_cons]

theorem read_eq_map (m : ByteMem.Mem) (pos n : Nat) :
    ByteMem.read m pos n = (List.range' pos n).map m := by
  rw [ByteMem.read, List.range'_eq_map_range, List.map_map]
  rfl

end Scatter
