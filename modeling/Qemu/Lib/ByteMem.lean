import Mathlib

namespace ByteMem

-- Byte-addressed memory: a buffer the code writes through a pointer.
abbrev Mem := Nat → UInt8

-- Consecutive byte stores starting at `pos`.
def write (m : Mem) (pos : Nat) : List UInt8 → Mem
  | [] => m
  | b :: bs => write (Function.update m pos b) (pos + 1) bs

-- The `n` bytes starting at `pos`.
def read (m : Mem) (pos n : Nat) : List UInt8 :=
  (List.range n).map fun k => m (pos + k)

@[simp] theorem write_nil (m : Mem) (pos : Nat) : write m pos [] = m := rfl

@[simp] theorem read_length (m : Mem) (pos n : Nat) : (read m pos n).length = n := by
  simp [read]

theorem read_getElem (m : Mem) (pos n k : Nat) (hk : k < n) :
    (read m pos n)[k]! = m (pos + k) := by
  simp [read, hk]

theorem write_append (m : Mem) (pos : Nat) (bs cs : List UInt8) :
    write m pos (bs ++ cs) = write (write m pos bs) (pos + bs.length) cs := by
  induction bs generalizing m pos with
  | nil => simp
  | cons b bs ih =>
      simp only [List.cons_append, write, ih, List.length_cons]
      congr 1
      omega

-- Stores outside `[pos, pos + bs.length)` leave a byte alone.
theorem write_frame (m : Mem) (pos : Nat) (bs : List UInt8) {i : Nat}
    (hi : i < pos ∨ pos + bs.length ≤ i) : write m pos bs i = m i := by
  induction bs generalizing m pos with
  | nil => rfl
  | cons b bs ih =>
      simp only [List.length_cons] at hi
      rw [write, ih _ _ (by omega), Function.update_of_ne (by omega)]

theorem write_lane (m : Mem) (pos : Nat) (bs : List UInt8) {k : Nat}
    (hk : k < bs.length) : write m pos bs (pos + k) = bs[k]! := by
  induction bs generalizing m pos k with
  | nil => simp at hk
  | cons b bs ih =>
      cases k with
      | zero =>
          rw [write, write_frame _ _ _ (by omega)]
          simp
      | succ k =>
          simp only [List.length_cons, Nat.add_lt_add_iff_right] at hk
          rw [write, show pos + (k + 1) = pos + 1 + k by omega, ih _ _ hk]
          simp

theorem write_eq_iff (m : Mem) (pos : Nat) (bs : List UInt8) (i : Nat) :
    write m pos bs i = if pos ≤ i ∧ i < pos + bs.length then bs[i - pos]! else m i := by
  split
  · rename_i h
    have := write_lane m pos bs (k := i - pos) (by omega)
    rwa [show pos + (i - pos) = i by omega] at this
  · exact write_frame m pos bs (by omega)

-- Reading bytes that agree on the window gives the same bytes.
theorem read_congr {m m' : Mem} {pos n : Nat}
    (h : ∀ i, pos ≤ i → i < pos + n → m i = m' i) : read m pos n = read m' pos n := by
  simp only [read]
  apply List.map_congr_left
  intro k hk
  exact h _ (by omega) (by simp at hk; omega)

theorem get_append_left (xs ys : List UInt8) {k : Nat} (hk : k < xs.length) :
    (xs ++ ys)[k]! = xs[k]! := by
  simp [List.getElem!_eq_getElem?_getD, List.getElem?_append_left hk]

theorem get_append_right (xs ys : List UInt8) {k : Nat} (hk : xs.length ≤ k) :
    (xs ++ ys)[k]! = ys[k - xs.length]! := by
  simp [List.getElem!_eq_getElem?_getD, List.getElem?_append_right hk]

theorem get_take_drop (xs : List UInt8) {i n k : Nat} (hk : k < n) (hi : i + n ≤ xs.length) :
    ((xs.drop i).take n)[k]! = xs[i + k]! := by
  rw [getElem!_pos _ k (by simp; omega), getElem!_pos xs (i + k) (by omega)]
  simp

-- The memory as seen through a pointer to `base`.
def view (m : Mem) (base : Nat) : Mem := fun k => m (base + k)

-- Puts back what a callee left behind the pointer to `base`.
def place (m : Mem) (base : Nat) (v : Mem) : Mem := fun a => if base ≤ a then v (a - base) else m a

theorem place_write_view (m : Mem) (base pos : Nat) (bs : List UInt8) :
    place m base (write (view m base) pos bs) = write m (base + pos) bs := by
  funext a
  simp only [place, write_eq_iff, view]
  by_cases h : base ≤ a
  · simp only [if_pos h]
    split
    · rw [if_pos (by omega)]
      congr 1
      omega
    · rw [if_neg (by omega)]
      congr 1
      omega
  · rw [if_neg h, if_neg (by omega)]

-- The memory holds the bytes `xs` from `pos` on.
def Holds (m : Mem) (pos : Nat) (xs : List UInt8) : Prop :=
  ∀ k < xs.length, m (pos + k) = xs[k]!

theorem holds_write (m : Mem) (pos : Nat) (xs : List UInt8) : Holds (write m pos xs) pos xs :=
  fun _ hk => write_lane m pos xs hk

theorem Holds.append_left {m : Mem} {pos : Nat} {xs ys : List UInt8}
    (h : Holds m pos (xs ++ ys)) : Holds m pos xs := by
  intro k hk
  rw [h k (by simp; omega), get_append_left _ _ hk]

theorem Holds.append_right {m : Mem} {pos : Nat} {xs ys : List UInt8}
    (h : Holds m pos (xs ++ ys)) : Holds m (pos + xs.length) ys := by
  intro k hk
  have := h (xs.length + k) (by simp; omega)
  rwa [get_append_right _ _ (by omega), Nat.add_sub_cancel_left, ← Nat.add_assoc] at this

theorem Holds.read_eq {m : Mem} {pos : Nat} {xs : List UInt8} (h : Holds m pos xs) :
    read m pos xs.length = xs := by
  apply List.ext_getElem (by simp)
  intro k hk _
  have hk' : k < xs.length := by simpa using hk
  rw [← getElem!_pos (read _ _ _) k hk, read_getElem _ _ _ _ hk', h k hk', getElem!_pos xs k hk']

-- A window of the bytes held.
theorem Holds.read_slice {m : Mem} {pos : Nat} {xs : List UInt8} (h : Holds m pos xs) {i n : Nat}
    (hi : i + n ≤ xs.length) : read m (pos + i) n = (xs.drop i).take n := by
  apply List.ext_getElem (by simp; omega)
  intro k hk _
  have hk' : k < n := by simpa using hk
  rw [← getElem!_pos (read _ _ _) k hk, read_getElem _ _ _ _ hk', Nat.add_assoc, h _ (by omega),
    ← getElem!_pos _ k (by simp; omega), get_take_drop xs hk' hi]

-- Storing `ys` right after the bytes held extends them.
theorem Holds.write_append {m : Mem} {pos : Nat} {xs : List UInt8} (h : Holds m pos xs)
    (ys : List UInt8) : Holds (write m (pos + xs.length) ys) pos (xs ++ ys) := by
  intro k hk
  by_cases hkx : k < xs.length
  · rw [write_frame _ _ _ (.inl (by omega)), h k hkx, get_append_left _ _ hkx]
  · have hky : k - xs.length < ys.length := by
      simp only [List.length_append] at hk
      omega
    rw [show pos + k = pos + xs.length + (k - xs.length) by omega, write_lane _ _ _ hky,
      get_append_right _ _ (by omega)]

theorem holds_read (m : Mem) (pos n : Nat) : Holds m pos (read m pos n) := by
  intro k hk
  rw [read_length] at hk
  rw [read_getElem _ _ _ _ hk]

-- Storing `ys` right after the first `n` bytes appends them to what is read back.
theorem read_write_append (m : Mem) (n : Nat) (ys : List UInt8) :
    read (write m n ys) 0 (n + ys.length) = read m 0 n ++ ys := by
  have h := (holds_read m 0 n).write_append ys
  rw [read_length, Nat.zero_add] at h
  have := h.read_eq
  rwa [List.length_append, read_length] at this

-- Bytes held by one memory are held by any memory that agrees with it there.
theorem Holds.congr {m m' : Mem} {pos : Nat} {xs : List UInt8} (h : Holds m pos xs)
    (hm : ∀ i, pos ≤ i → i < pos + xs.length → m' i = m i) : Holds m' pos xs := by
  intro k hk
  rw [hm _ (by omega) (by omega), h k hk]

end ByteMem
