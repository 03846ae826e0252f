import Qemu.Hw.Virtio

/-!
What the walks of `hw/virtio.c` do on any guest memory: both end without running out of rounds,
`virtqueue_get_avail_bytes` reads only descriptors inside their table, and `virtqueue_pop`
returns an element that fits its arrays and its table. `virtqueue_pop` reads one descriptor
outside its table: descriptor 0 of an indirect table of length 0, which it reads before it
counts the descriptor against the table's size.
-/

namespace Qemu.Virtio

open ErrorState

-- A read inside its table, or the read of descriptor 0 of an empty indirect table that
-- `virtqueue_pop` makes before it counts the descriptor.
def PopRead (r : DescRead) : Prop := r.index < r.max ∨ r = ⟨0, 0⟩

theorem popRead_of {i max : Nat} (h : i < max ∨ (i = 0 ∧ max = 0)) : PopRead ⟨i, max⟩ := by
  rcases h with h | ⟨rfl, rfl⟩
  · exact .inl h
  · exact .inr rfl

theorem popLoop_spec (mem : GuestMem) (desc_pa : UInt64) (max : Nat) :
    ∀ (fuel i : Nat) (elem : VirtQueueElement) (log : List DescRead),
      (i < max ∨ (i = 0 ∧ max = 0)) → Fits max elem → max + 1 ≤ fuel + count elem →
      Holds (fun elem' s => Extends PopRead log s ∧ Fits max elem' ∧ elem'.index = elem.index)
        (fun e s => Extends PopRead log s ∧ e ≠ .outOfFuel)
        (popLoop mem desc_pa max fuel i elem log) := by
  intro fuel
  induction fuel with
  | zero =>
    intro i elem log _ hfit hf
    have := hfit.2.2
    omega
  | succ fuel ih =>
    intro i elem log hi hfit hf
    have hread : Extends PopRead log (⟨i, max⟩ :: log) :=
      (Extends.refl _ _).cons (popRead_of hi)
    rw [popLoop]
    apply holds_bind
    rw [vring_desc_apply, holds_ok]
    apply holds_bind
    refine (addDesc_spec elem _ _ hfit.1 hfit.2.1).mono ?_ ?_
    · rintro elem' s ⟨rfl, hin, hout, hc, hidx⟩
      split
      · simpa using hread
      · rename_i hloop
        have hcnt : count elem' ≤ max := by
          unfold count
          omega
        apply holds_bind
        refine (virtqueue_next_desc_spec mem desc_pa i max _).mono ?_ ?_
        · rintro n s ⟨rfl, hn⟩
          have hread' := hread.cons (popRead_of hi)
          split
          · exact ⟨hread', ⟨hin, hout, hcnt⟩, hidx⟩
          · rename_i hne
            refine (ih n elem' _ (.inl (by omega)) ⟨hin, hout, hcnt⟩ (by omega)).mono ?_ ?_
            · rintro elem'' s ⟨hs, hfit', hidx'⟩
              exact ⟨hread'.trans hs, hfit', hidx'.trans hidx⟩
            · rintro e s ⟨hs, he⟩
              exact ⟨hread'.trans hs, he⟩
        · rintro e s ⟨rfl, he⟩
          exact ⟨hread.cons (popRead_of hi), he⟩
    · rintro e s ⟨rfl, he⟩
      exact ⟨hread, he⟩

-- The size of the table that the chain of `head` is walked in.
def chainMax (mem : GuestMem) (vq : VirtQueue) (head : Nat) : Nat :=
  let d := mem.desc (vq.desc + UInt64.ofNat (VRING_DESC_SIZE * head))
  if d.flags &&& VRING_DESC_F_INDIRECT ≠ 0 then d.len.toNat / VRING_DESC_SIZE else vq.num

theorem virtqueue_pop_spec (mem : GuestMem) (vq : VirtQueue) (log : List DescRead) :
    Holds (fun r s => Extends PopRead log s ∧
        ∀ vq' elem, r = some (vq', elem) → elem.index < vq.num ∧ Fits (chainMax mem vq elem.index) elem)
      (fun e s => Extends PopRead log s ∧ e ≠ .outOfFuel) (virtqueue_pop mem vq log) := by
  unfold virtqueue_pop
  apply holds_bind
  refine (virtqueue_num_heads_spec mem vq _ log).mono ?_ ?_
  · rintro n s ⟨rfl, -, -⟩
    split
    · simpa using Extends.refl _ _
    apply holds_bind
    refine (virtqueue_get_head_spec mem vq _ _).mono ?_ ?_
    · rintro head s ⟨rfl, hhead⟩
      have hread : Extends PopRead s (⟨head, vq.num⟩ :: s) := (Extends.refl _ _).cons (.inl hhead)
      apply holds_bind
      rw [vring_desc_apply, holds_ok]
      have hfit0 : ∀ max, Fits max ⟨head, [], []⟩ := fun max => by simp [Fits, count]
      -- the loop from the table the chain is walked in, whose size is `chainMax`
      have hloop : ∀ desc_pa max i, (i < max ∨ (i = 0 ∧ max = 0)) → max = chainMax mem vq head →
          Holds (fun r s' => Extends PopRead s s' ∧ ∀ vq' elem, r = some (vq', elem) →
              elem.index < vq.num ∧ Fits (chainMax mem vq elem.index) elem)
            (fun e s' => Extends PopRead s s' ∧ e ≠ .outOfFuel)
            ((popLoop mem desc_pa max (max + 1) i ⟨head, [], []⟩ >>= fun elem =>
              pure (some ({ vq with last_avail_idx := vq.last_avail_idx + 1 }, elem)))
              (⟨head, vq.num⟩ :: s)) := by
        intro desc_pa max i hi hmax
        apply holds_bind
        refine (popLoop_spec mem desc_pa max _ i _ _ hi (hfit0 max) (by simp [count])).mono ?_ ?_
        · rintro elem s' ⟨hs', hfit, hidx⟩
          refine ⟨hread.trans hs', ?_⟩
          rintro vq' elem' ⟨⟩
          rw [hidx, ← hmax]
          exact ⟨hhead, hfit⟩
        · rintro e s' ⟨hs', he⟩
          exact ⟨hread.trans hs', he⟩
      split
      · rename_i hind
        split
        · apply holds_bind
          exact ⟨hread, by simp⟩
        · apply holds_bind
          rw [pure_apply, holds_ok]
          apply hloop _ _ 0 ((Nat.eq_zero_or_pos _).elim (fun h => .inr ⟨rfl, h⟩) .inl)
          simp only [chainMax, if_pos hind]
      · rename_i hind
        apply holds_bind
        rw [pure_apply, holds_ok]
        apply hloop _ _ head (.inl hhead)
        simp only [chainMax, if_neg hind]
    · rintro e s ⟨rfl, he⟩
      exact ⟨Extends.refl _ _, he⟩
  · rintro e s ⟨rfl, he⟩
    exact ⟨Extends.refl _ _, he⟩

-- When the head the guest offers is an indirect descriptor of length 0, `virtqueue_pop` reads
-- descriptor 0 of that empty table before its count check exits.
theorem virtqueue_pop_empty_indirect (mem : GuestMem) (vq : VirtQueue)
    (hn : 0 < (mem.availIdx - UInt16.ofNat vq.last_avail_idx.toNat).toNat)
    (hn' : (mem.availIdx - UInt16.ofNat vq.last_avail_idx.toNat).toNat ≤ vq.num)
    (hhead : (mem.availRing (vq.last_avail_idx.toNat % vq.num)).toNat < vq.num)
    (hind : (mem.desc (vq.desc + UInt64.ofNat (VRING_DESC_SIZE *
      (mem.availRing (vq.last_avail_idx.toNat % vq.num)).toNat))).flags &&& VRING_DESC_F_INDIRECT ≠ 0)
    (hlen : (mem.desc (vq.desc + UInt64.ofNat (VRING_DESC_SIZE *
      (mem.availRing (vq.last_avail_idx.toNat % vq.num)).toNat))).len = 0) :
    virtqueue_pop mem vq [] =
      .error .looped [⟨0, 0⟩, ⟨(mem.availRing (vq.last_avail_idx.toNat % vq.num)).toNat, vq.num⟩] := by
  generalize hhd : (mem.availRing (vq.last_avail_idx.toNat % vq.num)).toNat = head at hhead hind hlen
  unfold virtqueue_pop
  rw [bind_ok (show virtqueue_num_heads mem vq _ [] = .ok _ [] by
    unfold virtqueue_num_heads
    rw [if_neg (by omega)]
    rfl)]
  rw [if_neg (by omega)]
  rw [bind_ok (show virtqueue_get_head mem vq _ [] = .ok head [] by
    unfold virtqueue_get_head
    rw [hhd, if_neg (by omega)]
    rfl)]
  rw [bind_ok (vring_desc_apply _ _ _ _ _)]
  split
  · split
    · simp_all
    · rw [bind_ok (pure_apply _ _), hlen]
      show (popLoop mem _ 0 1 0 _ >>= _) _ = _
      rw [popLoop, bind_apply, bind_ok (vring_desc_apply _ _ _ _ _)]
      by_cases hw : (mem.desc ((mem.desc (vq.desc + UInt64.ofNat (VRING_DESC_SIZE * head))).addr +
        UInt64.ofNat (VRING_DESC_SIZE * 0))).flags &&& VRING_DESC_F_WRITE ≠ 0
      · rw [bind_ok (by unfold addDesc; rw [if_pos hw]; rfl)]
        rfl
      · rw [bind_ok (by unfold addDesc; rw [if_neg hw]; rfl)]
        rfl
  · contradiction

-- A ring of one entry whose only head is an indirect descriptor with an empty table.
def emptyIndirect : GuestMem where
  desc a := if a = 0x100 then ⟨0x1000, 0, VRING_DESC_F_INDIRECT, 0⟩ else ⟨0, 0, 0, 0⟩
  availIdx := 1
  availRing _ := 0

theorem pop_reads_empty_table :
    virtqueue_pop emptyIndirect ⟨1, 0x100, 0⟩ [] = .error .looped [⟨0, 0⟩, ⟨0, 1⟩] := rfl

-- A read inside the table it reads.
def InTable (r : DescRead) : Prop := r.index < r.max

theorem availLoop_spec (mem : GuestMem) (desc_pa : UInt64) (max : Nat) (max_in_bytes max_out_bytes : UInt32) :
    ∀ (fuel num_bufs i : Nat) (in_total out_total : UInt32) (log : List DescRead),
      (i < max ∨ max ≤ num_bufs) → 0 < fuel → max + 1 ≤ fuel + num_bufs →
      Holds (fun _ s => Extends InTable log s) (fun e s => Extends InTable log s ∧ e ≠ .outOfFuel)
        (availLoop mem desc_pa max max_in_bytes max_out_bytes fuel num_bufs i in_total out_total log) := by
  intro fuel
  induction fuel with
  | zero =>
    intro num_bufs i _ _ log _ hf
    omega
  | succ fuel ih =>
    intro num_bufs i in_total out_total log hi _ hf
    rw [availLoop]
    split
    · simpa using Extends.refl _ _
    rename_i hmax
    have hread : Extends InTable log (⟨i, max⟩ :: log) :=
      (Extends.refl _ _).cons (show i < max by omega)
    apply holds_bind
    rw [vring_desc_apply, holds_ok]
    -- which total the descriptor adds to does not matter to the reads
    generalize mem.desc (desc_pa + UInt64.ofNat (VRING_DESC_SIZE * i)) = d
    generalize (if d.flags &&& VRING_DESC_F_WRITE ≠ 0 then (in_total + d.len, out_total)
      else (in_total, out_total + d.len)) = t
    obtain ⟨in_total, out_total⟩ := t
    dsimp only
    split
    · simpa using hread
    apply holds_bind
    refine (virtqueue_next_desc_spec mem desc_pa i max _).mono ?_ ?_
    · rintro n s ⟨rfl, hn⟩
      have hread' := hread.cons (show InTable ⟨i, max⟩ from show i < max by omega)
      split
      · simpa using hread'
      · refine (ih (num_bufs + 1) n _ _ _ (.inl (by omega)) (by omega) (by omega)).mono ?_ ?_
        · intro _ s hs
          exact hread'.trans hs
        · rintro e s ⟨hs, he⟩
          exact ⟨hread'.trans hs, he⟩
    · rintro e s ⟨rfl, he⟩
      exact ⟨hread.cons (show i < max by omega), he⟩

theorem availHeads_spec (mem : GuestMem) (vq : VirtQueue) (max_in_bytes max_out_bytes : UInt32) :
    ∀ (fuel idx total_bufs : Nat) (in_total out_total : UInt32) (log : List DescRead),
      (mem.availIdx - UInt16.ofNat idx).toNat < fuel →
      Holds (fun _ s => Extends InTable log s) (fun e s => Extends InTable log s ∧ e ≠ .outOfFuel)
        (availHeads mem vq max_in_bytes max_out_bytes fuel idx total_bufs in_total out_total log) := by
  intro fuel
  induction fuel with
  | zero =>
    intro idx _ _ _ log hf
    omega
  | succ fuel ih =>
    intro idx total_bufs in_total out_total log hf
    rw [availHeads]
    apply holds_bind
    refine (virtqueue_num_heads_spec mem vq idx log).mono ?_ ?_
    · rintro n s ⟨rfl, -, hn⟩
      split
      · simpa using Extends.refl _ _
      rename_i hn0
      apply holds_bind
      refine (virtqueue_get_head_spec mem vq idx _).mono ?_ ?_
      · rintro head s ⟨rfl, hhead⟩
        have hread : Extends InTable s (⟨head, vq.num⟩ :: s) :=
          (Extends.refl _ _).cons (show head < vq.num from hhead)
        apply holds_bind
        rw [vring_desc_apply, holds_ok]
        -- the rest of the round, from the table the chain is walked in
        have hrest : ∀ (indirect : Bool) (desc_pa : UInt64) (max num_bufs i : Nat) (s' : List DescRead),
            (i < max ∨ max ≤ num_bufs) → Extends InTable s s' →
            Holds (fun _ s'' => Extends InTable s s'') (fun e s'' => Extends InTable s s'' ∧ e ≠ .outOfFuel)
              ((availLoop mem desc_pa max max_in_bytes max_out_bytes (max + 1) num_bufs i in_total
                  out_total >>= fun r =>
                if r.2.2.2 = true then pure (r.2.1, r.2.2.1)
                else
                  availHeads mem vq max_in_bytes max_out_bytes fuel (idx + 1)
                    (if indirect = true then total_bufs + 1 else r.1) r.2.1 r.2.2.1) s') := by
          intro indirect desc_pa max num_bufs i s' hi hs'
          apply holds_bind
          refine (availLoop_spec mem desc_pa max max_in_bytes max_out_bytes (max + 1) num_bufs i _ _ s'
            hi (by omega) (by omega)).mono ?_ ?_
          · rintro ⟨num_bufs', in', out', done⟩ s'' hs''
            dsimp only
            split
            · simpa using hs'.trans hs''
            · refine (ih (idx + 1) _ in' out' s'' ?_).mono ?_ ?_
              · rw [num_heads_succ _ _ (by omega)]
                omega
              · intro _ t ht
                exact hs'.trans (hs''.trans ht)
              · rintro e t ⟨ht, he⟩
                exact ⟨hs'.trans (hs''.trans ht), he⟩
          · rintro e s'' ⟨hs'', he⟩
            exact ⟨hs'.trans hs'', he⟩
        split
        · split
          · apply holds_bind
            simpa using hread
          · split
            · apply holds_bind
              simpa using hread
            · apply holds_bind
              rw [vring_desc_apply, holds_ok]
              apply holds_bind
              rw [pure_apply, holds_ok]
              exact hrest true _ _ 0 0 _ (by omega)
                (hread.cons (show InTable ⟨0, vq.num⟩ from show 0 < vq.num by omega))
        · apply holds_bind
          rw [pure_apply, holds_ok]
          exact hrest false _ _ _ head _ (.inl hhead) hread
      · rintro e s ⟨rfl, he⟩
        exact ⟨Extends.refl _ _, he⟩
    · rintro e s ⟨rfl, he⟩
      exact ⟨Extends.refl _ _, he⟩

theorem virtqueue_get_avail_bytes_spec (mem : GuestMem) (vq : VirtQueue)
    (max_in_bytes max_out_bytes : UInt32) (log : List DescRead) :
    Holds (fun _ s => Extends InTable log s) (fun e s => Extends InTable log s ∧ e ≠ .outOfFuel)
      (virtqueue_get_avail_bytes mem vq max_in_bytes max_out_bytes log) :=
  availHeads_spec mem vq max_in_bytes max_out_bytes _ _ 0 0 0 log (UInt16.toNat_lt _)

end Qemu.Virtio
