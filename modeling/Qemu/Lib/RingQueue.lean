import Mathlib.Data.Nat.ModEq
import Mathlib.Data.List.Basic

/-!
A queue of bounded length that drops its oldest elements to make room, and the arithmetic of
a ring that stores it: free-running counters taken modulo `2 ^ w`, read through a power-of-two
array at `counter % size`.
-/

namespace RingQueue

variable {α : Type*}

-- Appends one element, dropping the oldest one when `cap` are already held.
def push (cap : Nat) (q : List α) (a : α) : List α := (q ++ [a]).drop (q.length + 1 - cap)

def pushAll (cap : Nat) (q : List α) (as : List α) : List α := as.foldl (push cap) q

theorem push_of_lt {cap : Nat} {q : List α} (a : α) (h : q.length < cap) :
    push cap q a = q ++ [a] := by
  rw [push, Nat.sub_eq_zero_of_le (by omega), List.drop_zero]

theorem push_of_eq {cap : Nat} {q : List α} (a : α) (h : q.length = cap) (hcap : 0 < cap) :
    push cap q a = q.tail ++ [a] := by
  rw [push, show q.length + 1 - cap = 1 by omega, List.drop_one, List.tail_append_of_ne_nil]
  intro hq
  rw [hq, List.length_nil] at h
  omega

theorem length_push {cap : Nat} {q : List α} (a : α) (h : q.length ≤ cap) :
    (push cap q a).length = min (q.length + 1) cap := by
  rw [push, List.length_drop, List.length_append, List.length_singleton]
  omega

-- Pushing a list keeps the last `cap` elements of the concatenation.
theorem pushAll_eq {cap : Nat} (as : List α) {q : List α} (h : q.length ≤ cap) :
    pushAll cap q as = (q ++ as).drop ((q ++ as).length - cap) := by
  induction as generalizing q with
  | nil => simp [pushAll, h]
  | cons a as ih =>
      have hlen := length_push a h
      rw [pushAll, List.foldl_cons, ← pushAll, ih (by omega), push,
        ← List.drop_append_of_le_length (by simp), List.drop_drop, List.append_assoc,
        List.singleton_append]
      congr 1
      simp only [List.length_append, List.length_cons, List.length_drop]
      omega

theorem length_pushAll_le {cap : Nat} (as : List α) {q : List α} (h : q.length ≤ cap) :
    (pushAll cap q as).length ≤ cap := by
  rw [pushAll_eq as h, List.length_drop]
  omega

/-! ### Slots of a ring -/

-- Two positions less than `n` apart from one start fall in different slots.
theorem add_mod_inj {n c k j : Nat} (hk : k < n) (hj : j < n) (h : (c + k) % n = (c + j) % n) :
    k = j := by
  have hmod : k ≡ j [MOD n] := Nat.ModEq.add_left_cancel' c h
  rwa [Nat.ModEq, Nat.mod_eq_of_lt hk, Nat.mod_eq_of_lt hj] at hmod

-- A counter kept modulo `M` names the same slot of an array whose size divides `M`.
theorem mod_add_mod_of_dvd {n M : Nat} (x k : Nat) (hdvd : n ∣ M) :
    (x % M + k) % n = (x + k) % n := by
  rw [Nat.add_mod, Nat.mod_mod_of_dvd x hdvd, ← Nat.add_mod]

end RingQueue
