import Qemu.Xbzrle

/-!
`xbzrle_decode_buffer` on any input: the stream comes from the network, so nothing is
assumed of `src`, `slen` or `dlen`. Each pass checks its two lengths and its data against
`slen` and `dlen` before the `memcpy`; from one inversion lemma for a pass follow what the
loop reads, what it writes, that it stops, and what it returns.
-/

namespace Qemu.Xbzrle

open ByteMem Qemu.Util

/-! ### One pass -/

-- The numbers one pass of the loop checks: the zero run's length `c1` read in `r1` bytes,
-- the data run's length `c2` read in `r2` bytes, all passing.
structure Pass (slen dlen i d r1 c1 r2 c2 : Nat) : Prop where
  zrun_room : i + 2 ≤ slen
  zrun_count : i = 0 ∨ c1 ≠ 0
  zrun_fits : d + c1 ≤ dlen
  nzrun_room : i + r1 + 2 ≤ slen
  nzrun_count : c2 ≠ 0
  nzrun_fits : d + c1 + c2 ≤ dlen
  nzrun_src : i + r1 + r2 + c2 ≤ slen

section Pass

variable {src : Mem} {slen dlen i d : Nat} {dst : Mem}

theorem decodeIter_eq_next {r1 r2 : Int} {c1 c2 : Nat}
    (h1 : uleb128_decode_small src i = (r1, c1)) (hr1 : 0 ≤ r1)
    (h2 : uleb128_decode_small src (i + r1.toNat) = (r2, c2)) (hr2 : 0 ≤ r2)
    (hp : Pass slen dlen i d r1.toNat c1 r2.toNat c2) :
    decodeIter src slen dst dlen i d =
      .next (i + r1.toNat + r2.toNat + c2) (d + c1 + c2)
        (write dst (d + c1) (read src (i + r1.toNat + r2.toNat) c2)) := by
  obtain ⟨hz, hzc, hzf, hn, hnc, hnf, hns⟩ := hp
  unfold decodeIter
  rw [if_neg (by omega), h1]
  simp only [show ¬(r1 < 0 ∨ i ≠ 0 ∧ c1 = 0) by omega, if_false, show ¬d + c1 > dlen by omega]
  rw [if_neg (by omega), h2]
  simp only [show ¬(r2 < 0 ∨ c2 = 0) by omega, if_false,
    show ¬(d + c1 + c2 > dlen ∨ i + r1.toNat + r2.toNat + c2 > slen) by omega]

-- A pass that goes on is one whose checks all passed.
theorem decodeIter_next_inv {i' d' : Nat} {dst' : Mem}
    (h : decodeIter src slen dst dlen i d = .next i' d' dst') :
    ∃ r1 c1 r2 c2, uleb128_decode_small src i = (r1, c1) ∧ 0 ≤ r1 ∧
      uleb128_decode_small src (i + r1.toNat) = (r2, c2) ∧ 0 ≤ r2 ∧
      Pass slen dlen i d r1.toNat c1 r2.toNat c2 ∧
      i' = i + r1.toNat + r2.toNat + c2 ∧ d' = d + c1 + c2 ∧
      dst' = write dst (d + c1) (read src (i + r1.toNat + r2.toNat) c2) := by
  unfold decodeIter at h
  rcases h1 : uleb128_decode_small src i with ⟨r1, c1⟩
  rcases h2 : uleb128_decode_small src (i + r1.toNat) with ⟨r2, c2⟩
  rw [h1] at h
  simp only [h2] at h
  split_ifs at h
  simp only [DecStep.next.injEq] at h
  obtain ⟨rfl, rfl, rfl⟩ := h
  exact ⟨r1, c1, r2, c2, rfl, by omega, h2, by omega,
    ⟨by omega, by omega, by omega, by omega, by omega, by omega, by omega⟩, rfl, rfl, rfl⟩

-- Every early return is `-1` before any store.
theorem decodeIter_ret_inv {v : Int} {dst' : Mem}
    (h : decodeIter src slen dst dlen i d = .ret v dst') : v = -1 ∧ dst' = dst := by
  unfold decodeIter at h
  rcases h1 : uleb128_decode_small src i with ⟨r1, c1⟩
  rcases h2 : uleb128_decode_small src (i + r1.toNat) with ⟨r2, c2⟩
  rw [h1] at h
  simp only [h2] at h
  split_ifs at h <;> simp_all

-- A pass moves forward in `src` and `dst` and stays inside both; its `memcpy` lands in
-- `[d, d')`.
theorem decodeIter_next_bounds {i' d' : Nat} {dst' : Mem}
    (h : decodeIter src slen dst dlen i d = .next i' d' dst') :
    i < i' ∧ d ≤ d' ∧ d' ≤ dlen ∧ ∀ k, d' ≤ k → dst' k = dst k := by
  obtain ⟨r1, c1, r2, c2, -, -, -, -, hp, rfl, rfl, rfl⟩ := decodeIter_next_inv h
  refine ⟨by have := hp.nzrun_count; omega, by omega, hp.nzrun_fits, fun k hk => ?_⟩
  exact write_frame _ _ _ (by rw [read_length]; omega)

end Pass

/-! ### What the decoder reads -/

section Source

variable {src src' : Mem} {slen : Nat} (hsrc : ∀ k < slen, src' k = src k)
include hsrc

-- A pass that goes on read its lengths and its data inside `src[0, slen)`, so a source
-- that agrees there makes the same pass.
theorem decodeIter_next_congr {dlen i d i' d' : Nat} {dst dst' : Mem}
    (h : decodeIter src slen dst dlen i d = .next i' d' dst') :
    decodeIter src' slen dst dlen i d = .next i' d' dst' := by
  obtain ⟨r1, c1, r2, c2, h1, hr1, h2, hr2, hp, rfl, rfl, rfl⟩ := decodeIter_next_inv h
  have hz := hp.zrun_room
  have hn := hp.nzrun_room
  have hs := hp.nzrun_src
  have h1' : uleb128_decode_small src' i = (r1, c1) := by
    rw [uleb128_decode_small_congr (hsrc _ (by omega)) (hsrc _ (by omega)), h1]
  have h2' : uleb128_decode_small src' (i + r1.toNat) = (r2, c2) := by
    rw [uleb128_decode_small_congr (hsrc _ (by omega)) (hsrc _ (by omega)), h2]
  have hread : read src' (i + r1.toNat + r2.toNat) c2 = read src (i + r1.toNat + r2.toNat) c2 :=
    read_congr fun k _ hk => hsrc k (by omega)
  rw [decodeIter_eq_next h1' hr1 h2' hr2 hp, hread]

theorem decodeIter_congr {dlen i d : Nat} {dst : Mem} :
    decodeIter src' slen dst dlen i d = decodeIter src slen dst dlen i d := by
  rcases h : decodeIter src slen dst dlen i d with ⟨v, dst'⟩ | ⟨i', d', dst'⟩
  · -- `src` stops the loop; `src'` cannot go on, or `src` would too
    obtain ⟨hv, hd⟩ := decodeIter_ret_inv h
    rcases h' : decodeIter src' slen dst dlen i d with ⟨v', dst''⟩ | ⟨i', d', dst''⟩
    · obtain ⟨hv', hd'⟩ := decodeIter_ret_inv h'
      rw [hv, hd, hv', hd']
    · have hback := decodeIter_next_congr (fun k hk => (hsrc k hk).symm) h'
      rw [h] at hback
      cases hback
  · exact decodeIter_next_congr hsrc h

theorem decodeLoop_congr {dlen : Nat} (fuel i d : Nat) (dst : Mem) :
    decodeLoop src' slen dlen fuel i d dst = decodeLoop src slen dlen fuel i d dst := by
  induction fuel generalizing i d dst with
  | zero => rfl
  | succ fuel ih =>
    rw [decodeLoop, decodeLoop, decodeIter_congr hsrc]
    split_ifs
    · cases decodeIter src slen dst dlen i d with
      | ret v dst' => rfl
      | next i' d' dst' => exact ih i' d' dst'
    · rfl

end Source

/-! ### The loop -/

section Loop

variable {src : Mem} {slen dlen : Nat}

-- Each pass moves `i` forward, so a loop given more passes than `slen - i` returns.
theorem decodeLoop_terminates (fuel i d : Nat) (dst : Mem) (hf : slen - i < fuel) :
    ∃ v dst', decodeLoop src slen dlen fuel i d dst = some (v, dst') := by
  induction fuel generalizing i d dst with
  | zero => omega
  | succ fuel ih =>
    rw [decodeLoop]
    split_ifs
    · rcases h : decodeIter src slen dst dlen i d with ⟨v, dst'⟩ | ⟨i', d', dst'⟩
      · exact ⟨v, dst', rfl⟩
      · have hi := (decodeIter_next_bounds h).1
        exact ih i' d' dst' (by omega)
    · exact ⟨d, dst, rfl⟩

-- From `d ≤ dlen`, the loop leaves `dst` alone from `dlen` on, and returns `-1` or an
-- offset in `[d, dlen]` past which nothing was stored.
theorem decodeLoop_bounds (fuel i d : Nat) (dst : Mem) {v : Int} {dst' : Mem} (hd : d ≤ dlen)
    (h : decodeLoop src slen dlen fuel i d dst = some (v, dst')) :
    (∀ k, dlen ≤ k → dst' k = dst k) ∧
      (v = -1 ∨ d ≤ v ∧ v ≤ dlen ∧ ∀ k : Nat, v ≤ k → dst' k = dst k) := by
  induction fuel generalizing i d dst with
  | zero => simp [decodeLoop] at h
  | succ fuel ih =>
    rw [decodeLoop] at h
    split_ifs at h
    · rcases hstep : decodeIter src slen dst dlen i d with ⟨v', dst''⟩ | ⟨i', d', dst''⟩
      · rw [hstep] at h
        simp only [Option.some.injEq, Prod.mk.injEq] at h
        obtain ⟨rfl, rfl⟩ := h
        obtain ⟨rfl, rfl⟩ := decodeIter_ret_inv hstep
        exact ⟨fun _ _ => rfl, .inl rfl⟩
      · rw [hstep] at h
        obtain ⟨-, hdd, hd', hframe⟩ := decodeIter_next_bounds hstep
        obtain ⟨hout, hret⟩ := ih i' d' dst'' hd' h
        refine ⟨fun k hk => (hout k hk).trans (hframe k (by omega)), ?_⟩
        rcases hret with rfl | ⟨hv1, hv2, hv3⟩
        · exact .inl rfl
        · exact .inr ⟨by omega, hv2, fun k hk => (hv3 k hk).trans (hframe k (by omega))⟩
    · simp only [Option.some.injEq, Prod.mk.injEq] at h
      obtain ⟨rfl, rfl⟩ := h
      exact ⟨fun _ _ => rfl, .inr ⟨le_rfl, by omega, fun _ _ => rfl⟩⟩

end Loop

-- The decoder returns within its `slen + 1` passes, stores nothing from `dlen` on, and returns
-- `-1` or an offset in `[0, dlen]` past which nothing was stored.
theorem xbzrle_decode_buffer_returns (src : Mem) (slen : Nat) (dst : Mem) (dlen : Nat) :
    ∃ v dst', xbzrle_decode_buffer src slen dst dlen = some (v, dst') ∧
      (∀ k, dlen ≤ k → dst' k = dst k) ∧
      (v = -1 ∨ 0 ≤ v ∧ v ≤ dlen ∧ ∀ k : Nat, v ≤ k → dst' k = dst k) := by
  obtain ⟨v, dst', hdec⟩ := @decodeLoop_terminates src slen dlen (slen + 1) 0 0 dst (by omega)
  obtain ⟨hout, hret⟩ := decodeLoop_bounds (slen + 1) 0 0 dst (Nat.zero_le dlen) hdec
  refine ⟨v, dst', hdec, hout, ?_⟩
  rcases hret with h | ⟨h0, h1, h2⟩
  · exact .inl h
  · exact .inr ⟨by exact_mod_cast h0, h1, h2⟩

-- On any source, the decoder returns; what it returns depends on `src[0, slen)` only; it
-- stores nothing from `dlen` on; and it returns `-1` or an offset in `[0, dlen]` past which
-- nothing was stored.
theorem xbzrle_decode_buffer_safe (src : Mem) (slen : Nat) (dst : Mem) (dlen : Nat) :
    ∃ v dst', xbzrle_decode_buffer src slen dst dlen = some (v, dst') ∧
      (∀ src' : Mem, (∀ k < slen, src' k = src k) →
        xbzrle_decode_buffer src' slen dst dlen = some (v, dst')) ∧
      (∀ k, dlen ≤ k → dst' k = dst k) ∧
      (v = -1 ∨ 0 ≤ v ∧ v ≤ dlen ∧ ∀ k : Nat, v ≤ k → dst' k = dst k) := by
  obtain ⟨v, dst', hdec, hout, hret⟩ := xbzrle_decode_buffer_returns src slen dst dlen
  -- the loop reads the source below `slen` only
  exact ⟨v, dst', hdec, fun src' hsrc => (decodeLoop_congr hsrc _ _ _ _).trans hdec, hout, hret⟩

end Qemu.Xbzrle
