import Mathlib.Data.List.Basic

/-!
Binary search in the shape of the C library's `bsearch`: the window `[l, u)` starts as the whole
array, the probe is `(l + u) / 2`, a negative comparison of the key with the probe keeps the left
half and a positive one the right, and zero ends the search at the probe. The comparison is given
as a function of the entry, the key fixed. When it does not increase along the array (entries the
key lies after, then entries it meets, then entries it lies before), the search finds an entry
that compares equal whenever there is one.
-/

namespace Bsearch

variable {α : Type*}

def bsearchLoop (compar : α → Int) (base : List α) (l u : Nat) : Option Nat :=
  if l < u then
    let idx := (l + u) / 2
    match base[idx]? with
    | none => none
    | some p =>
        if compar p < 0 then bsearchLoop compar base l idx
        else if compar p > 0 then bsearchLoop compar base (idx + 1) u
        else some idx
  else none
termination_by u - l

def bsearch (compar : α → Int) (base : List α) : Option Nat :=
  bsearchLoop compar base 0 base.length

-- A found index holds an entry that compares equal; this needs no order on the array.
theorem bsearchLoop_sound {compar : α → Int} {base : List α} {l u i : Nat}
    (h : bsearchLoop compar base l u = some i) :
    l ≤ i ∧ i < u ∧ ∃ p, base[i]? = some p ∧ compar p = 0 := by
  fun_induction bsearchLoop compar base l u with
  | case1 l u hlu idx hnone => simp at h
  | case2 l u hlu idx p hp hneg ih =>
      obtain ⟨h1, h2, h3⟩ := ih h
      exact ⟨h1, by omega, h3⟩
  | case3 l u hlu idx p hp hneg hpos ih =>
      obtain ⟨h1, h2, h3⟩ := ih h
      exact ⟨by omega, h2, h3⟩
  | case4 l u hlu idx p hp hneg hpos =>
      have hi : idx = i := Option.some.inj h
      subst hi
      exact ⟨by omega, by omega, p, hp, by omega⟩
  | case5 => simp at h

-- The array is partitioned by the key: comparisons do not increase along it.
def Partitioned (compar : α → Int) (base : List α) : Prop :=
  base.Pairwise fun a b => compar b ≤ compar a

theorem Partitioned.le {compar : α → Int} {base : List α} (h : Partitioned compar base) {i j : Nat}
    (hij : i ≤ j) {p q : α} (hp : base[i]? = some p) (hq : base[j]? = some q) :
    compar q ≤ compar p := by
  rcases Nat.lt_or_eq_of_le hij with hlt | rfl
  · obtain ⟨hi, rfl⟩ := List.getElem?_eq_some_iff.mp hp
    obtain ⟨hj, rfl⟩ := List.getElem?_eq_some_iff.mp hq
    exact List.pairwise_iff_getElem.mp h i j hi hj hlt
  · rw [hp] at hq
    cases hq
    exact Int.le_refl _

-- On such an array an entry of `[l, u)` that compares equal is found.
theorem bsearchLoop_complete {compar : α → Int} {base : List α} (hmono : Partitioned compar base)
    {l u k : Nat} (hu : u ≤ base.length) (hlk : l ≤ k) (hku : k < u) {q : α}
    (hq : base[k]? = some q) (hk : compar q = 0) : (bsearchLoop compar base l u).isSome := by
  fun_induction bsearchLoop compar base l u with
  | case1 l u hlu idx hnone =>
      -- the probe lies inside the array
      have : idx < base.length := by omega
      simp_all
  | case2 l u hlu idx p hp hneg ih =>
      -- the key lies before the probe, so the entry it meets is left of it
      have hkidx : k < idx := Nat.lt_of_not_le fun hle => by
        have := hmono.le hle hp hq
        omega
      exact ih (by omega) hlk hkidx
  | case3 l u hlu idx p hp hneg hpos ih =>
      -- the key lies after the probe, so the entry it meets is right of it
      have hkidx : idx < k := Nat.lt_of_not_le fun hle => by
        have := hmono.le hle hq hp
        omega
      exact ih hu hkidx hku
  | case4 => rfl
  | case5 => omega

theorem bsearch_eq_none_iff {compar : α → Int} {base : List α} (hmono : Partitioned compar base) :
    bsearch compar base = none ↔ ∀ p ∈ base, compar p ≠ 0 := by
  constructor
  · intro h p hp hzero
    obtain ⟨k, hk, rfl⟩ := List.getElem_of_mem hp
    have := bsearchLoop_complete hmono (Nat.le_refl _) (Nat.zero_le k) hk
      (List.getElem?_eq_getElem hk) hzero
    simp_all [bsearch]
  · intro hall
    cases h : bsearch compar base with
    | none => rfl
    | some i =>
        obtain ⟨-, -, p, hp, hzero⟩ := bsearchLoop_sound h
        exact absurd hzero (hall p (List.mem_of_getElem? hp))

end Bsearch
