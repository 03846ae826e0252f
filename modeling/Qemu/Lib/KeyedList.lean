import Mathlib.Data.List.Nodup

/-!
Lists of entries searched from the head by a key, as the chains of a hash table with separate
chaining are. While the keys are distinct (`NodupKeys`) the entry a search finds is the only
one with its key, so replacing the found entry, or removing it, acts on that key alone: a
replacement is a `map` over the entries with that key and a removal a `filter`.
-/

namespace KeyedList

variable {E K : Type} [DecidableEq K] (key : E → K)

def NodupKeys (l : List E) : Prop := (l.map key).Nodup

-- The first entry with key `k`, as a search from the head finds it.
def lookup (l : List E) (k : K) : Option E := l.find? fun e => key e = k

variable {key}

theorem lookup_cons (e : E) (l : List E) (k : K) :
    lookup key (e :: l) k = if key e = k then some e else lookup key l k := by
  unfold lookup
  rw [List.find?_cons]
  by_cases h : key e = k <;> simp [h]

theorem key_of_lookup_eq_some {l : List E} {k : K} {e : E} (h : lookup key l k = some e) :
    key e = k := by
  simpa using List.find?_some h

theorem lookup_eq_none_iff {l : List E} {k : K} : lookup key l k = none ↔ k ∉ l.map key := by
  unfold lookup
  rw [List.find?_eq_none]
  simp

theorem lookup_eq_some_iff {l : List E} {k : K} (h : NodupKeys key l) {e : E} :
    lookup key l k = some e ↔ e ∈ l ∧ key e = k := by
  constructor
  · intro he
    exact ⟨List.mem_of_find?_eq_some he, key_of_lookup_eq_some he⟩
  · rintro ⟨hmem, hk⟩
    -- the search finds some entry with key `k`, and only `e` has that key
    have hne : lookup key l k ≠ none := by
      rw [Ne, lookup_eq_none_iff, not_not]
      exact List.mem_map.mpr ⟨e, hmem, hk⟩
    obtain ⟨e', he'⟩ := Option.ne_none_iff_exists'.mp hne
    have hk' : key e' = k := key_of_lookup_eq_some he'
    rw [he', List.inj_on_of_nodup_map h (List.mem_of_find?_eq_some he') hmem (hk'.trans hk.symm)]

-- A search that returns the index of the entry finds the entry `lookup` finds.
theorem findIdx?_bind_getElem? (p : E → Bool) (l : List E) :
    (l.findIdx? p).bind (fun i => l[i]?) = l.find? p := by
  induction l with
  | nil => rfl
  | cons e l ih =>
    rw [List.findIdx?_cons, List.find?_cons]
    cases hp : p e
    · simp only [Bool.false_eq_true, if_false, Option.bind_map]
      exact ih
    · rfl

/-! ### Replacing and removing the found entry -/

section Found

variable {l : List E} {k : K}

-- Changing the entry at the index a search found is changing every entry with its key.
theorem modify_findIdx? (h : NodupKeys key l) {i : Nat}
    (hi : l.findIdx? (fun e => key e = k) = some i) (f : E → E) :
    l.modify i f = l.map fun e => if key e = k then f e else e := by
  obtain ⟨hil, hki, -⟩ := List.findIdx?_eq_some_iff_getElem.mp hi
  have hki' : key l[i] = k := by simpa using hki
  apply List.ext_getElem (by simp)
  intro j hj _
  have hjl : j < l.length := by simpa using hj
  rw [List.getElem_modify, List.getElem_map]
  -- the keys are distinct, so `l[j]` has key `k` exactly when `j` is the found index
  have hiff : key l[j] = k ↔ i = j := by
    constructor
    · intro hkj
      have hil' : i < (l.map key).length := by simpa using hil
      have hjl' : j < (l.map key).length := by simpa using hjl
      have hinj : (l.map key)[i] = (l.map key)[j] → i = j := (List.Nodup.getElem_inj_iff h).mp
      simp only [List.getElem_map] at hinj
      exact hinj (hki'.trans hkj.symm)
    · rintro rfl
      exact hki'
  by_cases hij : i = j
  · rw [if_pos hij, if_pos (hiff.mpr hij)]
  · rw [if_neg hij, if_neg (fun hk => hij (hiff.mp hk))]

-- Removing the first entry with key `k` removes every entry with it.
theorem eraseP_eq_filter (h : NodupKeys key l) :
    l.eraseP (fun e => key e = k) = l.filter fun e => key e ≠ k := by
  induction l with
  | nil => rfl
  | cons e l ih =>
    have hnd : (l.map key).Nodup := (List.nodup_cons.mp h).2
    by_cases he : key e = k
    · -- `e` is the only entry with key `k`
      have hl : ∀ e' ∈ l, key e' ≠ k := by
        intro e' he' hk
        exact (List.nodup_cons.mp h).1 (List.mem_map.mpr ⟨e', he', hk.trans he.symm⟩)
      rw [List.eraseP_cons_of_pos (by simpa using he), List.filter_cons_of_neg (by simpa using he),
        List.filter_eq_self.mpr (by simpa using hl)]
    · rw [List.eraseP_cons_of_neg (by simpa using he), List.filter_cons_of_pos (by simpa using he),
        ih hnd]

theorem keys_map_ite (f : E → E) (hf : ∀ e, key (f e) = key e) :
    (l.map fun e => if key e = k then f e else e).map key = l.map key := by
  rw [List.map_map]
  congr 1
  funext e
  by_cases he : key e = k <;> simp [he, hf]

theorem lookup_map_ite (f : E → E) (hf : ∀ e, key (f e) = key e) (k' : K) :
    lookup key (l.map fun e => if key e = k then f e else e) k' =
      (lookup key l k').map fun e => if key e = k then f e else e := by
  unfold lookup
  rw [List.find?_map]
  congr 2
  funext e
  by_cases he : key e = k <;> simp [he, hf]

theorem lookup_filter (k' : K) :
    lookup key (l.filter fun e => key e ≠ k) k' = if k' = k then none else lookup key l k' := by
  unfold lookup
  rw [List.find?_filter]
  by_cases hk : k' = k
  · subst hk
    rw [if_pos rfl, List.find?_eq_none]
    intro e _
    simp only [decide_eq_true_eq, not_and]
    exact fun hne hk => absurd hk hne
  · rw [if_neg hk]
    congr 1
    funext e
    by_cases he : key e = k' <;> simp [he, hk]

end Found

/-! ### Distinct keys are kept -/

namespace NodupKeys

variable {l : List E}

omit [DecidableEq K] in
theorem cons {e : E} (hk : key e ∉ l.map key) (h : NodupKeys key l) : NodupKeys key (e :: l) :=
  List.nodup_cons.mpr ⟨hk, h⟩

theorem map_ite {k : K} (f : E → E) (hf : ∀ e, key (f e) = key e) (h : NodupKeys key l) :
    NodupKeys key (l.map fun e => if key e = k then f e else e) := by
  unfold NodupKeys
  rw [keys_map_ite f hf]
  exact h

omit [DecidableEq K] in
theorem filter (p : E → Bool) (h : NodupKeys key l) : NodupKeys key (l.filter p) :=
  (List.filter_sublist.map key).nodup h

end NodupKeys

/-! ### Stepping through a list -/

section Walk

variable {α : Type} (next : α → Option α)

-- `next` steps through `L`: from each element to the one after it, and from the last one to
-- nothing.
def Enumerates (L : List α) : Prop := ∀ n (h : n < L.length), next L[n] = L[n + 1]?

variable {next}

-- A walk that starts at the head of `L` and steps with `next` is at `L[n]` after `n` steps,
-- and nowhere once past the end.
theorem iterate_eq_getElem? {L : List α} (hL : Enumerates next L) {f : Nat → Option α}
    (h0 : f 0 = L[0]?) (hs : ∀ n, f (n + 1) = (f n).bind next) (n : Nat) : f n = L[n]? := by
  induction n with
  | zero => exact h0
  | succ n ih =>
    rw [hs, ih]
    by_cases hn : n < L.length
    · rw [List.getElem?_eq_getElem hn, Option.bind_some, hL n hn]
    · rw [List.getElem?_eq_none (by omega), List.getElem?_eq_none (by omega)]
      rfl

theorem Enumerates.append {l₁ l₂ : List α}
    (h₁ : ∀ n (h : n < l₁.length), next l₁[n] = (l₁ ++ l₂)[n + 1]?) (h₂ : Enumerates next l₂) :
    Enumerates next (l₁ ++ l₂) := by
  intro n hn
  by_cases hn₁ : n < l₁.length
  · rw [List.getElem_append_left hn₁]
    exact h₁ n hn₁
  · have hn₂ : n - l₁.length < l₂.length := by
      rw [List.length_append] at hn
      omega
    rw [List.getElem_append_right (by omega), h₂ _ hn₂, List.getElem?_append_right (by omega)]
    congr 1
    omega

end Walk

end KeyedList
