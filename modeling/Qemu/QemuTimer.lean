import Mathlib.Data.List.Basic
import Mathlib.Logic.Function.Basic

/-!
The timer lists of `qemu-timer.c`. A clock keeps its armed timers in the singly linked list
`active_timers`, sorted by `expire_time`: `qemu_mod_timer_ns` unlinks the timer and links it in
again after every timer that expires no later, `qemu_del_timer` unlinks it, and
`qemu_run_timers` pops the head and runs its callback for as long as the head has expired.
Callbacks may arm and delete timers, their own included.

The list stays sorted, holds each timer once, and keeps timers that expire together in the order
they were armed (a count of the arming calls, which the source does not keep, is carried beside the
clock to say so). A run fires timers from the head, each removed before its callback runs, and
leaves no expired timer behind; but it need not fire every timer that had expired when it began
(an earlier callback may delete it), and it never returns if a callback keeps arming a timer that
has expired.
-/

namespace Qemu.QemuTimer

-- A clock and its timers. Timers are told apart by their address, an `α`; the list is the chain
-- `active_timers`, `next`, ..., and `expire_time` is the field of each timer.
structure QEMUClock (α : Type) where
  active_timers : List α
  enabled : Bool
  expire_time : α → Int

variable {α : Type} [DecidableEq α]

def qemu_timer_expired_ns (expire_time : α → Int) (timer_head : Option α) (current_time : Int) :
    Bool :=
  match timer_head with
  | none => false
  | some t => decide (expire_time t ≤ current_time)

-- The walk of `qemu_del_timer`: the first link that points to `ts` is made to skip it.
def delLoop (ts : α) : List α → List α
  | [] => []
  | t :: next => if t = ts then next else t :: delLoop ts next

def qemu_del_timer (clock : QEMUClock α) (ts : α) : QEMUClock α :=
  { clock with active_timers := delLoop ts clock.active_timers }

-- The walk of `qemu_mod_timer_ns`: past every timer that has expired by `expire_time`, then
-- `ts` is linked in.
def insertLoop (expire_time_of : α → Int) (ts : α) (expire_time : Int) : List α → List α
  | [] => [ts]
  | t :: next =>
      if qemu_timer_expired_ns expire_time_of (some t) expire_time then
        t :: insertLoop expire_time_of ts expire_time next
      else ts :: t :: next

def qemu_mod_timer_ns (clock : QEMUClock α) (ts : α) (expire_time : Int) : QEMUClock α :=
  let clock := qemu_del_timer clock ts
  { clock with
    active_timers := insertLoop clock.expire_time ts expire_time clock.active_timers
    expire_time := Function.update clock.expire_time ts expire_time }

def pendingLoop (ts : α) : List α → Bool
  | [] => false
  | t :: next => if t = ts then true else pendingLoop ts next

def qemu_timer_pending (clock : QEMUClock α) (ts : α) : Bool :=
  pendingLoop ts clock.active_timers

def qemu_clock_enable (clock : QEMUClock α) (enabled : Bool) : QEMUClock α :=
  { clock with enabled := enabled }

-- The calls a callback makes on the timers of its clock.
inductive TimerCall (α : Type)
  | mod (ts : α) (expire_time : Int)
  | del (ts : α)

def TimerCall.apply (clock : QEMUClock α) : TimerCall α → QEMUClock α
  | .mod ts expire_time => qemu_mod_timer_ns clock ts expire_time
  | .del ts => qemu_del_timer clock ts

-- `ts->cb(ts->opaque)`: the calls the callback of `ts` makes, chosen from what it finds.
abbrev Callbacks (α : Type) := α → QEMUClock α → List (TimerCall α)

def runCallback (cb : Callbacks α) (ts : α) (clock : QEMUClock α) : QEMUClock α :=
  (cb ts clock).foldl TimerCall.apply clock

-- The `for (;;)` loop of `qemu_run_timers`, given `fuel` rounds: `none` if it has not returned by
-- then. It returns the clock and the timers it fired, in order.
def runTimersLoop (cb : Callbacks α) (current_time : Int) :
    Nat → QEMUClock α → Option (QEMUClock α × List α)
  | 0, _ => none
  | fuel + 1, clock =>
      match clock.active_timers with
      | [] => some (clock, [])
      | ts :: next =>
          if qemu_timer_expired_ns clock.expire_time (some ts) current_time then
            -- remove timer from the list before calling the callback
            let clock := { clock with active_timers := next }
            (runTimersLoop cb current_time fuel (runCallback cb ts clock)).map
              fun (clock, fired) => (clock, ts :: fired)
          else some (clock, [])

-- `current_time` is `qemu_get_clock_ns(clock)`, read once the clock is known to be enabled.
def qemu_run_timers (cb : Callbacks α) (clock : QEMUClock α) (current_time : Int) (fuel : Nat) :
    Option (QEMUClock α × List α) :=
  if !clock.enabled then some (clock, []) else runTimersLoop cb current_time fuel clock

/-! ### The walks -/

section Walks

variable {e : α → Int} {ts : α} {x : Int}

omit [DecidableEq α] in
@[simp] theorem qemu_timer_expired_ns_some (t : α) :
    qemu_timer_expired_ns e (some t) x = decide (e t ≤ x) := rfl

theorem delLoop_eq_erase (ts : α) (l : List α) : delLoop ts l = l.erase ts := by
  induction l with
  | nil => rfl
  | cons t next ih =>
      by_cases h : t = ts
      · simp [delLoop, h]
      · simp [delLoop, h, ih]

theorem pendingLoop_iff (ts : α) (l : List α) : pendingLoop ts l = true ↔ ts ∈ l := by
  induction l with
  | nil => simp [pendingLoop]
  | cons t next ih =>
      by_cases h : t = ts
      · simp [pendingLoop, h]
      · simp [pendingLoop, h, ih, Ne.symm h]

omit [DecidableEq α] in
-- The walk links `ts` in somewhere: the list is the old one with `ts` added.
theorem insertLoop_perm (l : List α) : (insertLoop e ts x l).Perm (ts :: l) := by
  induction l with
  | nil => rfl
  | cons t next ih =>
      unfold insertLoop
      split_ifs
      · exact ((ih.cons t).trans (List.Perm.swap ts t next))
      · rfl

omit [DecidableEq α] in
theorem mem_insertLoop {t : α} (l : List α) : t ∈ insertLoop e ts x l ↔ t = ts ∨ t ∈ l := by
  rw [(insertLoop_perm l).mem_iff, List.mem_cons]

omit [DecidableEq α] in
-- In front of timers that have not expired by `x`, the walk stops at once.
theorem insertLoop_of_lt {l : List α} (h : ∀ t ∈ l, x < e t) : insertLoop e ts x l = ts :: l := by
  cases l with
  | nil => rfl
  | cons t next =>
      have ht := h t List.mem_cons_self
      simp [insertLoop, Int.not_le.mpr ht]

omit [DecidableEq α] in
-- Linking `ts` in after the timers that have expired by `x` keeps a relation that orders the
-- list by expiry, when `ts` belongs after those timers and before the others.
theorem insertLoop_pairwise {R : α → α → Prop} {l : List α}
    (hR : ∀ a ∈ l, ∀ b ∈ l, R a b → e a ≤ e b) (hl : l.Pairwise R)
    (hbefore : ∀ t ∈ l, e t ≤ x → R t ts) (hafter : ∀ t ∈ l, x < e t → R ts t) :
    (insertLoop e ts x l).Pairwise R := by
  induction l with
  | nil => exact List.pairwise_singleton R ts
  | cons t next ih =>
      rw [List.pairwise_cons] at hl
      unfold insertLoop
      split_ifs with hexp
      · -- `t` has expired by `x`: it stays ahead of `ts`
        have hle : e t ≤ x := by simpa using hexp
        refine List.pairwise_cons.mpr ⟨fun y hy => ?_, ih ?_ hl.2 ?_ ?_⟩
        · rcases (mem_insertLoop next).mp hy with rfl | hy
          · exact hbefore t (by simp) hle
          · exact hl.1 y hy
        · exact fun a ha b hb => hR a (by simp [ha]) b (by simp [hb])
        · exact fun y hy => hbefore y (by simp [hy])
        · exact fun y hy => hafter y (by simp [hy])
      · -- the walk stops at `t`, and every timer after it expires no earlier
        have hlt : x < e t := by simpa using hexp
        refine List.Pairwise.cons (fun y hy => ?_) (List.Pairwise.cons hl.1 hl.2)
        rcases List.mem_cons.mp hy with rfl | hy
        · exact hafter y (by simp) hlt
        · exact hafter y (by simp [hy])
            (Int.lt_of_lt_of_le hlt (hR t (by simp) y (by simp [hy]) (hl.1 y hy)))

@[simp] theorem qemu_del_timer_active_timers (clock : QEMUClock α) (ts : α) :
    (qemu_del_timer clock ts).active_timers = clock.active_timers.erase ts := by
  rw [qemu_del_timer, delLoop_eq_erase]

@[simp] theorem qemu_del_timer_expire_time (clock : QEMUClock α) (ts : α) :
    (qemu_del_timer clock ts).expire_time = clock.expire_time := rfl

@[simp] theorem qemu_mod_timer_ns_active_timers (clock : QEMUClock α) (ts : α) (x : Int) :
    (qemu_mod_timer_ns clock ts x).active_timers =
      insertLoop clock.expire_time ts x (clock.active_timers.erase ts) := by
  simp [qemu_mod_timer_ns]

@[simp] theorem qemu_mod_timer_ns_expire_time (clock : QEMUClock α) (ts : α) (x : Int) :
    (qemu_mod_timer_ns clock ts x).expire_time = Function.update clock.expire_time ts x := rfl

theorem qemu_timer_pending_iff (clock : QEMUClock α) (ts : α) :
    qemu_timer_pending clock ts = true ↔ ts ∈ clock.active_timers :=
  pendingLoop_iff ts clock.active_timers

end Walks

/-! ### The order in which timers were armed -/

-- The clock with, for each timer, the number of its last `qemu_mod_timer_ns` among all those made
-- so far, and their count `calls`. The source keeps neither: they say in what order the timers
-- were armed.
structure Armed (α : Type) where
  clock : QEMUClock α
  armed : α → Nat
  calls : Nat

def Armed.apply (s : Armed α) : TimerCall α → Armed α
  | .mod ts expire_time =>
      ⟨TimerCall.apply s.clock (.mod ts expire_time), Function.update s.armed ts s.calls, s.calls + 1⟩
  | .del ts => { s with clock := TimerCall.apply s.clock (.del ts) }

def Armed.runCallback (cb : Callbacks α) (ts : α) (s : Armed α) : Armed α :=
  (cb ts s.clock).foldl Armed.apply s

-- The loop of `qemu_run_timers` on the clock with its arming order: each timer fired comes with
-- the `expire_time` and the arming number it had when it fired.
def Armed.runTimersLoop (cb : Callbacks α) (current_time : Int) :
    Nat → Armed α → Option (Armed α × List (α × Int × Nat))
  | 0, _ => none
  | fuel + 1, s =>
      match s.clock.active_timers with
      | [] => some (s, [])
      | ts :: next =>
          if qemu_timer_expired_ns s.clock.expire_time (some ts) current_time then
            let s' := { s with clock := { s.clock with active_timers := next } }
            (Armed.runTimersLoop cb current_time fuel (s'.runCallback cb ts)).map
              fun (s', fired) => (s', (ts, s.clock.expire_time ts, s.armed ts) :: fired)
          else some (s, [])

@[simp] theorem Armed.apply_clock (s : Armed α) (c : TimerCall α) :
    (s.apply c).clock = TimerCall.apply s.clock c := by
  cases c <;> rfl

theorem Armed.foldl_apply_clock (calls : List (TimerCall α)) (s : Armed α) :
    (calls.foldl Armed.apply s).clock = calls.foldl TimerCall.apply s.clock := by
  induction calls generalizing s with
  | nil => rfl
  | cons c calls ih => rw [List.foldl_cons, List.foldl_cons, ih, Armed.apply_clock]

@[simp] theorem Armed.runCallback_clock (cb : Callbacks α) (ts : α) (s : Armed α) :
    (s.runCallback cb ts).clock = QemuTimer.runCallback cb ts s.clock :=
  Armed.foldl_apply_clock _ s

-- Forgetting the arming order, the loop is the loop of the source.
theorem Armed.runTimersLoop_clock (cb : Callbacks α) (current_time : Int) (fuel : Nat) :
    ∀ s : Armed α, (Armed.runTimersLoop cb current_time fuel s).map
        (fun r => (r.1.clock, r.2.map Prod.fst)) =
      QemuTimer.runTimersLoop cb current_time fuel s.clock := by
  induction fuel with
  | zero => intro s; rfl
  | succ fuel ih =>
      intro s
      unfold Armed.runTimersLoop QemuTimer.runTimersLoop
      cases hl : s.clock.active_timers with
      | nil => rfl
      | cons ts next =>
          dsimp only
          split_ifs
          · have h := ih (Armed.runCallback cb ts
              { s with clock := { s.clock with active_timers := next } })
            rw [Armed.runCallback_clock] at h
            dsimp only at h
            rw [← h, Option.map_map, Option.map_map]
            rfl
          · rfl

section Order

variable {s : Armed α} {ts : α} {x : Int}

@[simp] theorem Armed.apply_mod_armed :
    (s.apply (.mod ts x)).armed = Function.update s.armed ts s.calls := rfl

@[simp] theorem Armed.apply_mod_calls : (s.apply (.mod ts x)).calls = s.calls + 1 := rfl

@[simp] theorem Armed.apply_del_armed : (s.apply (.del ts)).armed = s.armed := rfl

@[simp] theorem Armed.apply_del_calls : (s.apply (.del ts)).calls = s.calls := rfl

-- What holds of a clock after any calls of a callback, if each call keeps it.
theorem Armed.foldl_apply_induction {P : Armed α → Prop} (hP : ∀ s c, P s → P (s.apply c))
    (calls : List (TimerCall α)) : ∀ s, P s → P (calls.foldl Armed.apply s) := by
  induction calls with
  | nil => exact fun _ h => h
  | cons c calls ih => exact fun s h => ih _ (hP s c h)

-- `a` is ahead of `b`: it expires earlier, or at the same time and was armed before.
def Ahead (s : Armed α) (a b : α) : Prop :=
  s.clock.expire_time a < s.clock.expire_time b ∨
    s.clock.expire_time a = s.clock.expire_time b ∧ s.armed a < s.armed b

-- The list of a clock: each timer ahead of the ones after it, and armed by a call already made.
structure Inv (s : Armed α) : Prop where
  ahead : s.clock.active_timers.Pairwise (Ahead s)
  armed_lt : ∀ t ∈ s.clock.active_timers, s.armed t < s.calls

omit [DecidableEq α] in
theorem Ahead.expire_le {a b : α} (h : Ahead s a b) :
    s.clock.expire_time a ≤ s.clock.expire_time b := by
  rcases h with h | ⟨h, -⟩ <;> omega

omit [DecidableEq α] in
theorem Ahead.ne {a b : α} (h : Ahead s a b) : a ≠ b := by
  rintro rfl
  rcases h with h | ⟨-, h⟩ <;> omega

omit [DecidableEq α] in
theorem Inv.sorted (h : Inv s) :
    s.clock.active_timers.Pairwise (fun a b => s.clock.expire_time a ≤ s.clock.expire_time b) :=
  h.ahead.imp Ahead.expire_le

omit [DecidableEq α] in
theorem Inv.nodup (h : Inv s) : s.clock.active_timers.Nodup :=
  h.ahead.imp Ahead.ne

theorem Inv.del (h : Inv s) (ts : α) : Inv (s.apply (.del ts)) := by
  have hsub : (s.apply (.del ts)).clock.active_timers.Sublist s.clock.active_timers := by
    simp only [Armed.apply_clock, TimerCall.apply, qemu_del_timer_active_timers]
    exact List.erase_sublist
  exact ⟨h.ahead.sublist hsub, fun t ht => h.armed_lt t (hsub.subset ht)⟩

-- `qemu_mod_timer_ns` links `ts` in behind every timer that expires no later, and so behind
-- every timer that expires at the same time, all armed before it.
theorem Inv.mod (h : Inv s) (ts : α) (x : Int) : Inv (s.apply (.mod ts x)) := by
  have hexp : ∀ t, t ≠ ts →
      (s.apply (.mod ts x)).clock.expire_time t = s.clock.expire_time t := fun t ht => by
    simp [TimerCall.apply, ht]
  have harm : ∀ t, t ≠ ts → (s.apply (.mod ts x)).armed t = s.armed t := fun t ht => by
    simp [ht]
  have hexp_ts : (s.apply (.mod ts x)).clock.expire_time ts = x := by simp [TimerCall.apply]
  have harm_ts : (s.apply (.mod ts x)).armed ts = s.calls := by simp
  -- the timers left once `ts` is unlinked keep their order
  have hne : ∀ t ∈ s.clock.active_timers.erase ts, t ≠ ts := by
    rintro t ht rfl
    exact h.nodup.not_mem_erase ht
  have hkeep : (s.clock.active_timers.erase ts).Pairwise (Ahead (s.apply (.mod ts x))) := by
    refine (h.ahead.sublist List.erase_sublist).imp_of_mem fun ha hb hab => ?_
    unfold Ahead
    rw [hexp _ (hne _ ha), hexp _ (hne _ hb), harm _ (hne _ ha), harm _ (hne _ hb)]
    exact hab
  have hold : ∀ t ∈ s.clock.active_timers.erase ts, s.armed t < s.calls :=
    fun t ht => h.armed_lt t (List.erase_subset ht)
  constructor
  · simp only [Armed.apply_clock, TimerCall.apply, qemu_mod_timer_ns_active_timers]
    refine insertLoop_pairwise (fun a ha b hb hab => ?_) hkeep (fun t ht hle => ?_)
      (fun t ht hlt => ?_)
    · have := Ahead.expire_le hab
      rwa [hexp _ (hne _ ha), hexp _ (hne _ hb)] at this
    · -- a timer that expires no later stays ahead: it was armed before
      unfold Ahead
      rw [hexp _ (hne _ ht), harm _ (hne _ ht), hexp_ts, harm_ts]
      have := hold t ht
      omega
    · exact Or.inl (by rw [hexp _ (hne _ ht), hexp_ts]; exact hlt)
  · intro t ht
    simp only [Armed.apply_clock, TimerCall.apply, qemu_mod_timer_ns_active_timers,
      mem_insertLoop] at ht
    rcases ht with rfl | ht
    · rw [harm_ts, Armed.apply_mod_calls]
      omega
    · rw [harm _ (hne _ ht), Armed.apply_mod_calls]
      have := hold t ht
      omega

theorem Inv.apply (h : Inv s) (c : TimerCall α) : Inv (s.apply c) := by
  cases c with
  | mod ts x => exact h.mod ts x
  | del ts => exact h.del ts

theorem Inv.runCallback (h : Inv s) (cb : Callbacks α) (ts : α) : Inv (s.runCallback cb ts) :=
  Armed.foldl_apply_induction (P := Inv) (fun _ c hs => hs.apply c) _ s h

omit [DecidableEq α] in
theorem Inv.pop {next : List α} (h : Inv s) (hl : s.clock.active_timers = ts :: next) :
    Inv { s with clock := { s.clock with active_timers := next } } := by
  have hahead := h.ahead
  rw [hl, List.pairwise_cons] at hahead
  exact ⟨hahead.2, fun t ht => h.armed_lt t (by rw [hl]; exact List.mem_cons_of_mem ts ht)⟩

/-! ### Timers that expire together fire in the order they were armed -/

-- A timer fired with expiry `e` and arming number `n` was armed before every timer on the list
-- that expires at `e`, and before any arming still to come.
def FiredBefore (s : Armed α) (e : Int) (n : Nat) : Prop :=
  n < s.calls ∧ ∀ t ∈ s.clock.active_timers, s.clock.expire_time t = e → n < s.armed t

theorem FiredBefore.apply {e : Int} {n : Nat} (h : FiredBefore s e n) (c : TimerCall α) :
    FiredBefore (s.apply c) e n := by
  cases c with
  | del ts =>
      refine ⟨h.1, fun t ht hte => h.2 t ?_ hte⟩
      simp only [Armed.apply_clock, TimerCall.apply, qemu_del_timer_active_timers] at ht
      exact List.erase_subset ht
  | mod ts x =>
      refine ⟨Nat.lt_succ_of_lt h.1, fun t ht hte => ?_⟩
      simp only [Armed.apply_clock, TimerCall.apply, qemu_mod_timer_ns_active_timers,
        mem_insertLoop] at ht
      by_cases hts : t = ts
      · -- armed by this very call
        subst hts
        simp only [Armed.apply_mod_armed, Function.update_self]
        exact h.1
      · simp only [Armed.apply_clock, TimerCall.apply, qemu_mod_timer_ns_expire_time,
          Function.update_of_ne hts] at hte
        simp only [Armed.apply_mod_armed, Function.update_of_ne hts]
        exact h.2 t (List.erase_subset (ht.resolve_left hts)) hte

theorem FiredBefore.runCallback {e : Int} {n : Nat} (h : FiredBefore s e n) (cb : Callbacks α)
    (ts : α) : FiredBefore (s.runCallback cb ts) e n :=
  Armed.foldl_apply_induction (P := fun s => FiredBefore s e n) (fun _ c hs => hs.apply c) _ s h

omit [DecidableEq α] in
theorem FiredBefore.pop {e : Int} {n : Nat} {next : List α} (h : FiredBefore s e n)
    (hl : s.clock.active_timers = ts :: next) :
    FiredBefore { s with clock := { s.clock with active_timers := next } } e n :=
  ⟨h.1, fun t ht hte => h.2 t (by rw [hl]; exact List.mem_cons_of_mem ts ht) hte⟩

-- The head, once popped, was armed before every timer left that expires at the same time.
omit [DecidableEq α] in
theorem Inv.firedBefore_pop {next : List α} (h : Inv s) (hl : s.clock.active_timers = ts :: next) :
    FiredBefore { s with clock := { s.clock with active_timers := next } }
      (s.clock.expire_time ts) (s.armed ts) := by
  have hahead := h.ahead
  rw [hl, List.pairwise_cons] at hahead
  refine ⟨h.armed_lt ts (by rw [hl]; exact List.mem_cons_self), fun t ht hte => ?_⟩
  rcases hahead.1 t ht with hlt | ⟨-, hlt⟩
  · exact absurd hte (by dsimp only at hlt ⊢; omega)
  · exact hlt

/-! ### A run of `qemu_run_timers` -/

-- A run that returns fired expired timers, each armed before every later one of the same expiry
-- and after those fired before the run, and left no expired timer on the list.
theorem Armed.runTimersLoop_spec (cb : Callbacks α) (now : Int) (fuel : Nat) :
    ∀ (s s' : Armed α) (fired : List (α × Int × Nat)), Inv s →
      Armed.runTimersLoop cb now fuel s = some (s', fired) →
      Inv s' ∧ (∀ t ∈ s'.clock.active_timers, now < s'.clock.expire_time t) ∧
        (∀ r ∈ fired, r.2.1 ≤ now) ∧ fired.Pairwise (fun a b => a.2.1 = b.2.1 → a.2.2 < b.2.2) ∧
        ∀ e n, FiredBefore s e n → FiredBefore s' e n ∧ ∀ r ∈ fired, r.2.1 = e → n < r.2.2 := by
  induction fuel with
  | zero => intro s s' fired _ hrun; cases hrun
  | succ fuel ih =>
      intro s s' fired hinv hrun
      unfold Armed.runTimersLoop at hrun
      split at hrun
      · -- no timer left
        rename_i hl
        obtain ⟨rfl, rfl⟩ := Prod.mk.inj (Option.some.inj hrun)
        exact ⟨hinv, by simp [hl], by simp, List.Pairwise.nil, fun e n h => ⟨h, by simp⟩⟩
      · rename_i ts next hl
        split_ifs at hrun with hexp
        · -- the head has expired: it is popped and its callback runs
          obtain ⟨⟨s2, fired2⟩, hrun2, heq⟩ := Option.map_eq_some_iff.mp hrun
          obtain ⟨rfl, rfl⟩ := Prod.mk.inj heq
          obtain ⟨hinv2, hleft, hnow, hpair, hfired⟩ :=
            ih _ s2 fired2 ((hinv.pop hl).runCallback cb ts) hrun2
          have hhead := hfired _ _ ((hinv.firedBefore_pop hl).runCallback cb ts)
          refine ⟨hinv2, hleft, ?_, List.Pairwise.cons (fun r hr he => hhead.2 r hr he.symm) hpair,
            fun e n h => ?_⟩
          · intro r hr
            rcases List.mem_cons.mp hr with rfl | hr
            · simpa using hexp
            · exact hnow r hr
          · have hafter := hfired e n ((h.pop hl).runCallback cb ts)
            refine ⟨hafter.1, ?_⟩
            intro r hr he
            rcases List.mem_cons.mp hr with rfl | hr
            · exact h.2 ts (by rw [hl]; exact List.mem_cons_self) he
            · exact hafter.2 r hr he
        · -- the head has not expired, nor has any timer after it
          obtain ⟨rfl, rfl⟩ := Prod.mk.inj (Option.some.inj hrun)
          have hsorted := hinv.sorted
          rw [hl, List.pairwise_cons] at hsorted
          have hlt : now < s.clock.expire_time ts := by simpa using hexp
          refine ⟨hinv, fun t ht => ?_, by simp, List.Pairwise.nil, fun e n h => ⟨h, by simp⟩⟩
          rw [hl] at ht
          rcases List.mem_cons.mp ht with rfl | ht
          · exact hlt
          · exact Int.lt_of_lt_of_le hlt (hsorted.1 t ht)

-- The clocks a program reaches from a new one: calls of `qemu_mod_timer_ns` and
-- `qemu_del_timer`, `qemu_clock_enable`, and runs of `qemu_run_timers` that return.
inductive Reachable (cb : Callbacks α) : Armed α → Prop
  | init (enabled : Bool) (expire_time : α → Int) :
      Reachable cb ⟨⟨[], enabled, expire_time⟩, fun _ => 0, 0⟩
  | call {s : Armed α} (c : TimerCall α) : Reachable cb s → Reachable cb (s.apply c)
  | enable {s : Armed α} (enabled : Bool) :
      Reachable cb s → Reachable cb { s with clock := qemu_clock_enable s.clock enabled }
  | run {s s' : Armed α} {fired : List (α × Int × Nat)} (now : Int) (fuel : Nat) :
      Reachable cb s → s.clock.enabled = true →
      Armed.runTimersLoop cb now fuel s = some (s', fired) → Reachable cb s'

theorem Reachable.inv {cb : Callbacks α} {s : Armed α} (hs : Reachable cb s) : Inv s := by
  induction hs with
  | init enabled expire_time => exact ⟨List.Pairwise.nil, by simp⟩
  | call c _ ih => exact ih.apply c
  | enable enabled _ ih => exact ⟨ih.ahead, ih.armed_lt⟩
  | run now fuel _ _ hrun ih => exact (Armed.runTimersLoop_spec cb now fuel _ _ _ ih hrun).1

end Order

/-! ### When a run returns -/

section Returns

variable {cb : Callbacks α} {now : Int} {fuel : Nat} {clock : QEMUClock α}

-- One round: the expired head is popped, and then its callback runs.
theorem runTimersLoop_succ_pop {ts : α} {next : List α} (hl : clock.active_timers = ts :: next)
    (hexp : clock.expire_time ts ≤ now) :
    runTimersLoop cb now (fuel + 1) clock =
      (runTimersLoop cb now fuel (runCallback cb ts { clock with active_timers := next })).map
        fun (clock, fired) => (clock, ts :: fired) := by
  rw [runTimersLoop, hl]
  simp only [qemu_timer_expired_ns_some, decide_eq_true hexp, if_true]

-- The loop stops when the list is empty or its head has not expired.
theorem runTimersLoop_succ_stop
    (h : ∀ ts next, clock.active_timers = ts :: next → now < clock.expire_time ts) :
    runTimersLoop cb now (fuel + 1) clock = some (clock, []) := by
  unfold runTimersLoop
  split
  · rfl
  · rename_i ts next hl
    rw [if_neg (by simpa using h ts next hl)]

-- The timers on the list that have expired by `now`.
def expiredCount (now : Int) (clock : QEMUClock α) : Nat :=
  clock.active_timers.countP fun t => decide (clock.expire_time t ≤ now)

omit [DecidableEq α] in
theorem expiredCount_pop {ts : α} {next : List α} (hl : clock.active_timers = ts :: next)
    (hexp : clock.expire_time ts ≤ now) :
    expiredCount now { clock with active_timers := next } + 1 = expiredCount now clock := by
  simp [expiredCount, hl, hexp]

-- A call that arms no timer by `now` adds no expired timer.
theorem expiredCount_apply (c : TimerCall α) (hc : ∀ t x, c = .mod t x → now < x)
    (clock : QEMUClock α) : expiredCount now (TimerCall.apply clock c) ≤ expiredCount now clock := by
  cases c with
  | del ts =>
      simp only [expiredCount, TimerCall.apply, qemu_del_timer_active_timers,
        qemu_del_timer_expire_time]
      exact List.erase_sublist.countP_le
  | mod ts x =>
      have hx := hc ts x rfl
      simp only [expiredCount, TimerCall.apply, qemu_mod_timer_ns_active_timers,
        qemu_mod_timer_ns_expire_time]
      rw [(insertLoop_perm _).countP_eq, List.countP_cons]
      -- `ts` itself now expires after `now`; the others keep their expiry
      have hts : ¬ Function.update clock.expire_time ts x ts ≤ now := by
        rw [Function.update_self]
        omega
      calc _ = (clock.active_timers.erase ts).countP
            (fun t => decide (Function.update clock.expire_time ts x t ≤ now)) := by
            simp only [hts, decide_false, Bool.false_eq_true, if_false, Nat.add_zero]
            rfl
        _ ≤ (clock.active_timers.erase ts).countP (fun t => decide (clock.expire_time t ≤ now)) := by
            apply List.countP_mono_left
            intro t _ ht
            by_cases h : t = ts
            · subst h
              simp only [decide_eq_true_eq] at ht
              exact absurd ht hts
            · simpa [Function.update_of_ne h] using ht
        _ ≤ _ := List.erase_sublist.countP_le

theorem expiredCount_foldl (calls : List (TimerCall α))
    (hcalls : ∀ t x, TimerCall.mod t x ∈ calls → now < x) :
    ∀ clock : QEMUClock α, expiredCount now (calls.foldl TimerCall.apply clock) ≤
      expiredCount now clock := by
  induction calls with
  | nil => exact fun _ => Nat.le_refl _
  | cons c calls ih =>
      intro clock
      rw [List.foldl_cons]
      have hc := @expiredCount_apply α _ now c
        (fun t x hcx => hcalls t x (by rw [← hcx]; exact List.mem_cons_self)) clock
      have hrest := ih (fun t x hm => hcalls t x (List.mem_cons_of_mem c hm)) (TimerCall.apply clock c)
      omega

-- When no callback arms a timer by `now`, a run returns: each round fires one expired timer and
-- adds none.
theorem runTimersLoop_returns (hcb : ∀ ts c t x, TimerCall.mod t x ∈ cb ts c → now < x)
    (n : Nat) : ∀ clock : QEMUClock α, expiredCount now clock ≤ n →
      ∃ r, runTimersLoop cb now (n + 1) clock = some r := by
  induction n with
  | zero =>
      intro clock hcount
      refine ⟨_, runTimersLoop_succ_stop fun ts next hl => ?_⟩
      -- an expired head would be counted
      by_contra hle
      have := expiredCount_pop hl (Int.not_lt.mp hle)
      omega
  | succ n ih =>
      intro clock hcount
      cases hl : clock.active_timers with
      | nil => exact ⟨_, runTimersLoop_succ_stop fun ts next h => by rw [hl] at h; cases h⟩
      | cons ts next =>
          by_cases hexp : clock.expire_time ts ≤ now
          · have hpop := expiredCount_pop hl hexp
            have hcall := expiredCount_foldl (cb ts { clock with active_timers := next })
              (hcb ts _) { clock with active_timers := next }
            obtain ⟨r, hr⟩ := ih (runCallback cb ts { clock with active_timers := next })
              (by unfold runCallback; omega)
            exact ⟨_, by rw [runTimersLoop_succ_pop hl hexp, hr]; rfl⟩
          · exact ⟨_, runTimersLoop_succ_stop fun ts' next' h => by
              rw [hl] at h
              obtain ⟨rfl, -⟩ := List.cons.inj h
              omega⟩

-- With callbacks that make no calls, a run fires exactly the timers that have expired, in the
-- order of the list.
theorem runTimersLoop_quiet (l : List α) :
    ∀ clock : QEMUClock α, clock.active_timers = l →
      l.Pairwise (fun a b => clock.expire_time a ≤ clock.expire_time b) →
      runTimersLoop (fun _ _ => []) now (l.length + 1) clock =
        some ({ clock with active_timers := l.filter fun t => now < clock.expire_time t },
          l.filter fun t => clock.expire_time t ≤ now) := by
  induction l with
  | nil =>
      intro clock hl _
      rw [runTimersLoop_succ_stop fun ts next h => by rw [hl] at h; cases h]
      obtain ⟨active, enabled, expire_time⟩ := clock
      dsimp only at hl
      subst hl
      rfl
  | cons ts next ih =>
      intro clock hl hsorted
      rw [List.pairwise_cons] at hsorted
      by_cases hexp : clock.expire_time ts ≤ now
      · -- the head fires, and the rest is run the same way
        rw [List.length_cons, runTimersLoop_succ_pop hl hexp]
        have hrest := ih { clock with active_timers := next } rfl hsorted.2
        simp only [runCallback, List.foldl_nil] at hrest ⊢
        rw [hrest]
        simp [hexp]
      · -- the head has not expired, nor has any timer after it
        have hlt : ∀ t ∈ ts :: next, now < clock.expire_time t := by
          intro t ht
          rcases List.mem_cons.mp ht with rfl | ht
          · omega
          · have := hsorted.1 t ht
            omega
        rw [runTimersLoop_succ_stop fun ts' next' h => by rw [hl] at h; rw [← (List.cons.inj h).1]; omega]
        rw [List.filter_eq_self.mpr (fun t ht => by simpa using hlt t ht),
          List.filter_eq_nil_iff.mpr (fun t ht => by simpa using hlt t ht), ← hl]

theorem qemu_run_timers_enabled (h : clock.enabled = true) :
    qemu_run_timers cb clock now fuel = runTimersLoop cb now fuel clock := by
  simp [qemu_run_timers, h]

-- A head that its callback arms again by the reading, in front of timers that have not expired,
-- is fired again at every round: the loop never returns.
theorem runTimersLoop_rearm_forever {ts : α} {next : List α}
    (hcb : ∀ c, ∃ x ≤ now, cb ts c = [.mod ts x]) (fuel : Nat) :
    ∀ clock : QEMUClock α, clock.active_timers = ts :: next → clock.expire_time ts ≤ now →
      (∀ t ∈ next, now < clock.expire_time t) → runTimersLoop cb now fuel clock = none := by
  induction fuel with
  | zero => intro _ _ _ _; rfl
  | succ fuel ih =>
      intro clock hl hexp hnext
      have hts : ts ∉ next := fun hm => by have := hnext ts hm; omega
      obtain ⟨x, hx, hc⟩ := hcb { clock with active_timers := next }
      -- the callback links `ts` in again at the head, with its new expiry
      have hrun : runCallback cb ts { clock with active_timers := next } =
          { clock with active_timers := ts :: next,
                       expire_time := Function.update clock.expire_time ts x } := by
        rw [runCallback, hc, List.foldl_cons, List.foldl_nil, TimerCall.apply, qemu_mod_timer_ns]
        simp only [qemu_del_timer_active_timers, qemu_del_timer_expire_time,
          List.erase_of_not_mem hts]
        rw [insertLoop_of_lt fun t ht => Int.lt_of_le_of_lt hx (hnext t ht)]
        rfl
      have hnext' : ∀ t ∈ next, now < Function.update clock.expire_time ts x t := by
        intro t ht
        have hne : t ≠ ts := fun h => hts (h ▸ ht)
        rw [Function.update_of_ne hne]
        exact hnext t ht
      rw [runTimersLoop_succ_pop hl hexp, hrun, ih _ rfl (by simpa using hx) hnext']
      rfl

-- On an enabled clock whose only expired timer is its head, a callback that arms that timer
-- again by the reading keeps `qemu_run_timers` from returning.
theorem qemu_run_timers_rearm_forever (clock : QEMUClock α) (ts : α) (next : List α)
    (hen : clock.enabled = true) (hl : clock.active_timers = ts :: next)
    (hexp : clock.expire_time ts ≤ now) (hnext : ∀ t ∈ next, now < clock.expire_time t)
    (hcb : ∀ c, ∃ x ≤ now, cb ts c = [.mod ts x]) (fuel : Nat) :
    qemu_run_timers cb clock now fuel = none := by
  rw [qemu_run_timers_enabled hen]
  exact runTimersLoop_rearm_forever hcb fuel clock hl hexp hnext

-- Timer 0 expired at 0, timer 1 due at 10, and timer 0's callback arms it at 0 again.
theorem qemu_run_timers_rearm_forever_two_timers :
    (⟨[0, 1], true, fun t => if t = 0 then 0 else 10⟩ : QEMUClock Nat).enabled = true ∧
      (⟨[0, 1], true, fun t => if t = 0 then 0 else 10⟩ : QEMUClock Nat).active_timers = 0 :: [1] ∧
      (⟨[0, 1], true, fun t => if t = 0 then 0 else 10⟩ : QEMUClock Nat).expire_time 0 ≤ 0 ∧
      (∀ t ∈ [1], 0 < (⟨[0, 1], true, fun t => if t = 0 then 0 else 10⟩ : QEMUClock Nat).expire_time t) ∧
      (∀ c, ∃ x ≤ (0 : Int), (fun t _ => [TimerCall.mod t 0] : Callbacks Nat) 0 c = [.mod 0 x]) ∧
      qemu_run_timers (fun t _ => [.mod t 0]) ⟨[0, 1], true, fun t => if t = 0 then 0 else 10⟩ 0 7 =
        none := by
  have hnext : ∀ t ∈ [1], (0 : Int) < (if t = 0 then 0 else 10) := by decide
  have hcb : ∀ c, ∃ x ≤ (0 : Int), (fun t _ => [TimerCall.mod t 0] : Callbacks Nat) 0 c = [.mod 0 x] :=
    fun _ => ⟨0, Int.le_refl 0, rfl⟩
  exact ⟨rfl, rfl, by decide, hnext, hcb,
    qemu_run_timers_rearm_forever _ 0 [1] rfl rfl (by decide) hnext hcb 7⟩

end Returns

/-! ### The timer lists of a clock -/

-- Two timers that expire at 0, the callback of the first deleting the second. At the reading 0,
-- `qemu_run_timers` fires the first only, though the second had expired and was pending.
theorem qemu_run_timers_skips_deleted :
    let clock : QEMUClock Nat :=
      qemu_mod_timer_ns (qemu_mod_timer_ns ⟨[], true, fun _ => 0⟩ 0 0) 1 0
    qemu_timer_pending clock 1 = true ∧ clock.expire_time 1 ≤ 0 ∧
      (qemu_run_timers (fun ts _ => if ts = 0 then [.del 1] else []) clock 0 3).map
        (fun r => (r.1.active_timers, r.2)) = some ([], [0]) := by
  decide

-- Every clock a program reaches keeps its list sorted, each timer on it once and timers that
-- expire together in the order they were armed. A run fires expired timers from the head, each
-- off the list when its callback runs, and leaves no expired timer; it returns when no callback
-- arms a timer by the reading, and then, if the callbacks make no calls, it has fired exactly
-- the expired timers.
theorem qemu_timer_lists_sorted (cb : Callbacks α) {s : Armed α} (hs : Reachable cb s) :
    s.clock.active_timers.Pairwise (fun a b => s.clock.expire_time a ≤ s.clock.expire_time b) ∧
      s.clock.active_timers.Nodup ∧
      (∀ ts, qemu_timer_pending s.clock ts = true ↔ ts ∈ s.clock.active_timers) ∧
      s.clock.active_timers.Pairwise
        (fun a b => s.clock.expire_time a = s.clock.expire_time b → s.armed a < s.armed b) ∧
      ∀ now : Int, s.clock.enabled = true →
        (∀ ts next fuel, s.clock.active_timers = ts :: next → s.clock.expire_time ts ≤ now →
          qemu_run_timers cb s.clock now (fuel + 1) =
            (runTimersLoop cb now fuel (runCallback cb ts { s.clock with active_timers := next })).map
              (fun (clock, fired) => (clock, ts :: fired)) ∧
          qemu_timer_pending { s.clock with active_timers := next } ts = false) ∧
        (∀ fuel clock fired, qemu_run_timers cb s.clock now fuel = some (clock, fired) →
          (∀ t ∈ clock.active_timers, now < clock.expire_time t) ∧
          ∃ s' recs, Armed.runTimersLoop cb now fuel s = some (s', recs) ∧ s'.clock = clock ∧
            recs.map Prod.fst = fired ∧ (∀ r ∈ recs, r.2.1 ≤ now) ∧
            recs.Pairwise (fun a b => a.2.1 = b.2.1 → a.2.2 < b.2.2)) ∧
        ((∀ ts c t x, TimerCall.mod t x ∈ cb ts c → now < x) →
          ∃ fuel r, qemu_run_timers cb s.clock now fuel = some r) ∧
        ((∀ ts c, cb ts c = []) →
          qemu_run_timers cb s.clock now (s.clock.active_timers.length + 1) =
            some ({ s.clock with
                active_timers := s.clock.active_timers.filter fun t => now < s.clock.expire_time t },
              s.clock.active_timers.filter fun t => s.clock.expire_time t ≤ now)) := by
  have hinv := hs.inv
  refine ⟨hinv.sorted, hinv.nodup, qemu_timer_pending_iff s.clock, hinv.ahead.imp ?_,
    fun now hen => ⟨?_, ?_, ?_, ?_⟩⟩
  · -- ahead at the same expiry means armed before
    intro a b hab he
    rcases hab with hlt | ⟨-, hlt⟩
    · omega
    · exact hlt
  · -- the popped timer is on the list once, so no longer on it
    intro ts next fuel hl hexp
    refine ⟨by rw [qemu_run_timers_enabled hen]; exact runTimersLoop_succ_pop hl hexp, ?_⟩
    have hnodup := hinv.nodup
    rw [hl, List.nodup_cons] at hnodup
    rw [Bool.eq_false_iff, ne_eq, qemu_timer_pending_iff]
    exact hnodup.1
  · -- the run on the clock with its arming order
    intro fuel clock fired hrun
    rw [qemu_run_timers_enabled hen] at hrun
    have hproj := Armed.runTimersLoop_clock cb now fuel s
    rw [hrun] at hproj
    obtain ⟨⟨s', recs⟩, harm, heq⟩ := Option.map_eq_some_iff.mp hproj
    obtain ⟨hclock, hfired⟩ := Prod.mk.inj heq
    obtain ⟨-, hleft, hnow, hpair, -⟩ := Armed.runTimersLoop_spec cb now fuel s s' recs hinv harm
    refine ⟨fun t ht => ?_, s', recs, harm, hclock, hfired, hnow, hpair⟩
    rw [← hclock] at ht ⊢
    exact hleft t ht
  · intro hcb
    obtain ⟨r, hr⟩ := runTimersLoop_returns hcb _ s.clock (Nat.le_refl _)
    exact ⟨_, r, by rw [qemu_run_timers_enabled hen]; exact hr⟩
  · intro hquiet
    have hcb : cb = fun _ _ => [] := funext fun ts => funext fun c => hquiet ts c
    subst hcb
    rw [qemu_run_timers_enabled hen]
    exact runTimersLoop_quiet _ s.clock rfl hinv.sorted

-- Two timers armed on a new clock, with callbacks that make no calls.
theorem qemu_timer_lists_sorted_two_timers :
    let cb : Callbacks Nat := fun _ _ => []
    let s : Armed Nat :=
      (Armed.apply ⟨⟨[], true, fun _ => 0⟩, fun _ => 0, 0⟩ (.mod 0 5)).apply (.mod 1 3)
    Reachable cb s ∧
    s.clock.active_timers.Pairwise (fun a b => s.clock.expire_time a ≤ s.clock.expire_time b) ∧
      s.clock.active_timers.Nodup ∧
      (∀ ts, qemu_timer_pending s.clock ts = true ↔ ts ∈ s.clock.active_timers) ∧
      s.clock.active_timers.Pairwise
        (fun a b => s.clock.expire_time a = s.clock.expire_time b → s.armed a < s.armed b) ∧
      ∀ now : Int, s.clock.enabled = true →
        (∀ ts next fuel, s.clock.active_timers = ts :: next → s.clock.expire_time ts ≤ now →
          qemu_run_timers cb s.clock now (fuel + 1) =
            (runTimersLoop cb now fuel (runCallback cb ts { s.clock with active_timers := next })).map
              (fun (clock, fired) => (clock, ts :: fired)) ∧
          qemu_timer_pending { s.clock with active_timers := next } ts = false) ∧
        (∀ fuel clock fired, qemu_run_timers cb s.clock now fuel = some (clock, fired) →
          (∀ t ∈ clock.active_timers, now < clock.expire_time t) ∧
          ∃ s' recs, Armed.runTimersLoop cb now fuel s = some (s', recs) ∧ s'.clock = clock ∧
            recs.map Prod.fst = fired ∧ (∀ r ∈ recs, r.2.1 ≤ now) ∧
            recs.Pairwise (fun a b => a.2.1 = b.2.1 → a.2.2 < b.2.2)) ∧
        ((∀ ts c t x, TimerCall.mod t x ∈ cb ts c → now < x) →
          ∃ fuel r, qemu_run_timers cb s.clock now fuel = some r) ∧
        ((∀ ts c, cb ts c = []) →
          qemu_run_timers cb s.clock now (s.clock.active_timers.length + 1) =
            some ({ s.clock with
                active_timers := s.clock.active_timers.filter fun t => now < s.clock.expire_time t },
              s.clock.active_timers.filter fun t => s.clock.expire_time t ≤ now)) :=
  have h : Reachable (fun (_ : Nat) _ => []) _ :=
    Reachable.call (.mod 1 3) (Reachable.call (.mod 0 5) (Reachable.init true fun _ => 0))
  ⟨h, qemu_timer_lists_sorted _ h⟩

end Qemu.QemuTimer
