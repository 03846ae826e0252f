import Qemu.ThreadPool.Pool
import Mathlib.Data.List.Count

/-!
What holds in every state a run of the thread pool reaches, under every interleaving of the
workers and the main loop: the counters of `thread-pool.c` count the threads they are meant
to count and `cur_threads` stays at most `max_threads`; the semaphore never promises more
requests than `request_list` holds, so no worker dequeues from an empty list; and the
events of each request follow its `Life`, so `func` runs at most once and never after a
cancellation, the completion callback gets the value `func` returned, once, and
`thread_pool_cancel` returns only when `func` is not running.
-/

namespace Qemu.ThreadPool

open ThreadState

namespace WorkerPc

def isStart : WorkerPc → Bool
  | .start => true
  | _ => false

-- counted in `idle_threads`: between `idle_threads++` and `idle_threads--`
def isIdle : WorkerPc → Bool
  | .waiting | .woken _ => true
  | _ => false

def isAlive : WorkerPc → Bool
  | .exited => false
  | _ => true

-- has taken the semaphore and not yet the request it stands for
def isWokenOk : WorkerPc → Bool
  | .woken ok => ok
  | _ => false

def isCrashed : WorkerPc → Bool
  | .crashed => true
  | _ => false

-- between the dequeue of `req` and the write of `THREAD_DONE`
def busyOn (req : Nat) : WorkerPc → Bool
  | .running r | .returned r => r == req
  | _ => false

end WorkerPc

-- the `qemu_sem_post` a submission still owes
def MainPc.owed : MainPc → Nat
  | .posting _ => 1
  | _ => 0

def MainPc.isCancelWait : MainPc → Bool
  | .cancelWait _ _ => true
  | _ => false

def Pool.stateOf (s : Pool) (req : Nat) : Option ThreadState := (s.elems req).map (·.state)

variable {s s' : Pool} {i req : Nat}

attribute [simp] Pool.setWorker Pool.setState Pool.setRet Pool.emit

/-! ### What each step does -/

theorem step_worker (h : step s (.worker i) = some s') :
    (s.workers[i]? = some .start ∧ s' = worker_start s i) ∨
    (∃ ok, s.workers[i]? = some (.woken ok) ∧ s' = worker_wake s i ok) ∨
    (∃ req, s.workers[i]? = some (.returned req) ∧ s' = worker_done s i req) ∨
    (s.workers[i]? = some .finished ∧ s' = worker_notify s i) := by
  simp only [step, Option.bind_eq_some_iff] at h
  obtain ⟨pc, hpc, h⟩ := h
  cases pc <;> simp only [worker_thread, Option.some.injEq, reduceCtorEq] at h
  case start => exact .inl ⟨hpc, h.symm⟩
  case woken ok => exact .inr (.inl ⟨ok, hpc, h.symm⟩)
  case returned req => exact .inr (.inr (.inl ⟨req, hpc, h.symm⟩))
  case finished => exact .inr (.inr (.inr ⟨hpc, h.symm⟩))

theorem sem_wait_eq (h : sem_wait s i = some s') :
    s.workers[i]? = some .waiting ∧ 0 < s.sem ∧
      s' = { s with sem := s.sem - 1 }.setWorker i (.woken true) := by
  unfold sem_wait at h
  split at h
  · rename_i hpc
    split at h
    · exact ⟨hpc, ‹_›, (Option.some.inj h).symm⟩
    · cases h
  · cases h

theorem sem_timeout_eq (h : sem_timeout s i = some s') :
    s.workers[i]? = some .waiting ∧ s' = s.setWorker i (.woken false) := by
  unfold sem_timeout at h
  split at h
  · exact ⟨‹_›, (Option.some.inj h).symm⟩
  · cases h

theorem func_return_eq {ret : Int} (h : func_return s i ret = some s') :
    ∃ req, s.workers[i]? = some (.running req) ∧
      s' = ((s.setRet req ret).emit (.funcRet req ret)).setWorker i (.returned req) := by
  unfold func_return at h
  split at h
  · exact ⟨_, ‹_›, (Option.some.inj h).symm⟩
  · cases h

-- `thread_pool_submit_aio` with its element at `next_addr`, from the main thread's `ctx`.
def submitted (s : Pool) (cb : Bool) (ctx : Ctx) : Pool :=
  let req := s.next_addr
  let s := ({ s with elems := Function.update s.elems req (some ⟨THREAD_QUEUED, 0, cb⟩),
                     next_addr := req + 1, head := req :: s.head }).emit (.submit req cb)
  let s := if s.idle_threads = 0 ∧ s.cur_threads < max_threads then spawn_thread s else s
  { s with request_list := s.request_list ++ [req], main := .posting ctx }

theorem submit_eq {cb : Bool} (h : thread_pool_submit_aio s cb = some s') :
    ∃ ctx, s.main = .ready ctx ∧ s' = submitted s cb ctx := by
  unfold thread_pool_submit_aio at h
  split at h
  · exact ⟨_, ‹_›, (Option.some.inj h).symm⟩
  · cases h

theorem sem_post_eq (h : sem_post s = some s') :
    ∃ ctx, s.main = .posting ctx ∧ s' = { s with sem := s.sem + 1, main := .ready ctx } := by
  unfold sem_post at h
  split at h
  · exact ⟨_, ‹_›, (Option.some.inj h).symm⟩
  · cases h

-- `thread_pool_cancel` takes `req` off the queue with the semaphore.
def stolen (s : Pool) (req : Nat) : Pool :=
  ((({ s with sem := s.sem - 1, request_list := s.request_list.erase req,
              notifier := true }.setState req THREAD_CANCELED).emit (.canceled req)).emit
    (.cancelReturn req))

-- The three ways `thread_pool_cancel` goes: the request is taken off the queue, it was
-- already finished, or the main thread starts to wait.
theorem cancel_cases (h : thread_pool_cancel s req = some s') :
    ∃ ctx e, s.main = .ready ctx ∧ s.elems req = some e ∧ req ∈ s.head ∧
      ((e.state = THREAD_QUEUED ∧ 0 < s.sem ∧
          s' = stolen s req) ∨
        ((e.state = THREAD_CANCELED ∨ e.state = THREAD_DONE) ∧ s' = s.emit (.cancelReturn req)) ∨
        (e.state ≠ THREAD_CANCELED ∧ e.state ≠ THREAD_DONE ∧ ¬(e.state = THREAD_QUEUED ∧ 0 < s.sem) ∧
          s' = { s with pending_cancellations := s.pending_cancellations + 1,
                        main := .cancelWait req ctx })) := by
  unfold thread_pool_cancel at h
  split at h
  · rename_i ctx e hmain helem
    refine ⟨ctx, e, hmain, helem, ?_⟩
    by_cases hhead : req ∈ s.head
    · simp only [hhead, not_true_eq_false, if_false] at h
      refine ⟨hhead, ?_⟩
      by_cases hq : e.state = THREAD_QUEUED ∧ 0 < s.sem
      · rw [if_pos hq] at h
        exact .inl ⟨hq.1, hq.2, (Option.some.inj h).symm⟩
      · rw [if_neg hq] at h
        by_cases hd : e.state = THREAD_CANCELED ∨ e.state = THREAD_DONE
        · rw [if_pos hd] at h
          exact .inr (.inl ⟨hd, (Option.some.inj h).symm⟩)
        · rw [if_neg hd] at h
          rw [not_or] at hd
          exact .inr (.inr ⟨hd.1, hd.2, hq, (Option.some.inj h).symm⟩)
    · simp [hhead] at h
  · cases h

theorem cancel_wake_eq (h : cancel_wake s = some s') :
    ∃ req ctx e, s.main = .cancelWait req ctx ∧ s.elems req = some e ∧
      (e.state = THREAD_CANCELED ∨ e.state = THREAD_DONE) ∧
      s' = { s with pending_cancellations := s.pending_cancellations - 1,
                    main := .ready ctx }.emit (.cancelReturn req) := by
  unfold cancel_wake at h
  split at h
  · rename_i req ctx hmain
    split at h
    · rename_i e helem
      split at h
      · exact ⟨req, ctx, e, hmain, helem, ‹_›, (Option.some.inj h).symm⟩
      · cases h
    · cases h
  · cases h

theorem notify_eq (h : event_notifier_ready s = some s') :
    s.main = .ready .top ∧ s' = { s with notifier := false, main := .scanning s.head } := by
  unfold event_notifier_ready at h
  split at h
  · exact ⟨‹_›, (Option.some.inj h).symm⟩
  · cases h

-- The four ways an iteration of the scan goes: the end of the list, an element that is not
-- finished, a finished element with a callback, and one without or a cancelled one.
theorem scan_cases (h : scan_step s = some s') :
    (s.main = .scanning [] ∧ s' = { s with main := .ready .top }) ∨
    ∃ req next e, s.main = .scanning (req :: next) ∧ s.elems req = some e ∧
      ((e.state ≠ THREAD_CANCELED ∧ e.state ≠ THREAD_DONE ∧ s' = { s with main := .scanning next }) ∨
       (e.state = THREAD_DONE ∧ e.cb = true ∧
          s' = { s with head := s.head.erase req, main := .ready (.callback req) }.emit
            (.callback req e.ret)) ∨
       ((e.state = THREAD_CANCELED ∨ e.state = THREAD_DONE) ∧ ¬(e.state = THREAD_DONE ∧ e.cb = true) ∧
          s' = { s with head := s.head.erase req, elems := Function.update s.elems req none,
                        main := .scanning next }.emit (.release req))) := by
  unfold scan_step at h
  split at h
  · exact .inl ⟨‹_›, (Option.some.inj h).symm⟩
  · rename_i req next hmain
    split at h
    · rename_i e helem
      refine .inr ⟨req, next, e, hmain, helem, ?_⟩
      by_cases hr : e.state ≠ THREAD_CANCELED ∧ e.state ≠ THREAD_DONE
      · rw [if_pos hr] at h
        exact .inl ⟨hr.1, hr.2, (Option.some.inj h).symm⟩
      · rw [if_neg hr] at h
        have hfin : e.state = THREAD_CANCELED ∨ e.state = THREAD_DONE := by tauto
        by_cases hc : e.state = THREAD_DONE ∧ e.cb = true
        · rw [if_pos hc] at h
          exact .inr (.inl ⟨hc.1, hc.2, (Option.some.inj h).symm⟩)
        · rw [if_neg hc] at h
          exact .inr (.inr ⟨hfin, hc, (Option.some.inj h).symm⟩)
    · cases h
  · cases h

theorem callback_return_eq (h : callback_return s = some s') :
    ∃ req, s.main = .ready (.callback req) ∧
      s' = { s with elems := Function.update s.elems req none, main := .scanning s.head }.emit
        (.release req) := by
  unfold callback_return at h
  split at h
  · exact ⟨_, ‹_›, (Option.some.inj h).symm⟩
  · cases h

theorem bh_eq (h : spawn_thread_bh_fn s = some s') :
    s.main = .ready .top ∧ s.new_thread_bh = true ∧
      s' = do_spawn_thread { s with new_thread_bh := false } := by
  unfold spawn_thread_bh_fn at h
  split at h
  · rename_i hc
    exact ⟨hc.1, hc.2, (Option.some.inj h).symm⟩
  · cases h

theorem do_spawn_thread_eq (t : Pool) :
    do_spawn_thread t =
      { t with new_threads := if t.new_threads = 0 then t.new_threads else t.new_threads - 1,
               pending_threads := if t.new_threads = 0 then t.pending_threads else t.pending_threads + 1,
               workers := if t.new_threads = 0 then t.workers else t.workers ++ [.start] } := by
  unfold do_spawn_thread
  by_cases h : t.new_threads = 0
  · simp only [if_pos h]
  · simp only [if_neg h]

theorem spawn_thread_eq (t : Pool) :
    spawn_thread t =
      { t with cur_threads := t.cur_threads + 1, new_threads := t.new_threads + 1,
               new_thread_bh := if t.pending_threads = 0 then true else t.new_thread_bh } := by
  unfold spawn_thread
  by_cases h : t.pending_threads = 0
  · simp only [if_pos h]
  · simp only [if_neg h]

theorem do_spawn_thread_cases (t : Pool) :
    do_spawn_thread t = t ∨
      (t.new_threads ≠ 0 ∧
        do_spawn_thread t = { t with new_threads := t.new_threads - 1,
                                     pending_threads := t.pending_threads + 1,
                                     workers := t.workers ++ [.start] }) := by
  unfold do_spawn_thread
  split
  · exact .inl rfl
  · exact .inr ⟨‹_›, rfl⟩

/-! ### Two states a run reaches -/

theorem Reachable.of_run (as : List Action) (h : Reachable s) (hr : run s as = some s') :
    Reachable s' := by
  induction as generalizing s with
  | nil => cases hr; exact h
  | cons a as ih =>
    obtain ⟨t, ht, hr⟩ := Option.bind_eq_some_iff.mp hr
    exact ih (Reachable.step a h ht) hr

-- A request submitted with a callback and posted, the thread `new_thread_bh` creates
-- started, and the semaphore taken: the worker is about to dequeue the request.
def woken_pool : Pool :=
  (run thread_pool_init [.submit true, .semPost, .bh, .worker 0, .semWait 0]).getD thread_pool_init

-- One step on: the worker has dequeued the request and runs `func` on it.
def running_pool : Pool := (run woken_pool [.worker 0]).getD woken_pool

theorem woken_pool_reachable : Reachable woken_pool :=
  Reachable.init.of_run [.submit true, .semPost, .bh, .worker 0, .semWait 0] rfl

theorem running_pool_reachable : Reachable running_pool := woken_pool_reachable.of_run [.worker 0] rfl

/-! ### Counting workers -/

-- A worker that moves from `a` to `b` changes each count by what it leaves and joins.
theorem countP_set_add {l : List WorkerPc} {a : WorkerPc} (h : l[i]? = some a) (b : WorkerPc)
    (p : WorkerPc → Bool) :
    (l.set i b).countP p + (if p a then 1 else 0) = l.countP p + (if p b then 1 else 0) := by
  obtain ⟨hi, ha⟩ := List.getElem?_eq_some_iff.mp h
  have hle := List.boole_getElem_le_countP (p := p) hi
  rw [List.countP_set hi, ha] at *
  omega

theorem countP_append_start (l : List WorkerPc) (p : WorkerPc → Bool) :
    (l ++ [WorkerPc.start]).countP p = l.countP p + (if p WorkerPc.start then 1 else 0) := by
  simp [List.countP_append]

/-! ### The thread counters -/

-- `pending_threads` counts the workers not yet started, `idle_threads` those between
-- `idle_threads++` and `idle_threads--`, and `cur_threads` the workers that have not exited
-- and those asked for but not yet created.
structure Threads (s : Pool) : Prop where
  pending : s.pending_threads = s.workers.countP WorkerPc.isStart
  idle : s.idle_threads = s.workers.countP WorkerPc.isIdle
  cur : s.cur_threads = s.new_threads + s.workers.countP WorkerPc.isAlive
  cur_le : s.cur_threads ≤ max_threads

theorem Threads.init : Threads thread_pool_init := ⟨rfl, rfl, rfl, by decide⟩

-- Worker `i` moves from `a` to `b` and each counter moves with it.
theorem Threads.move (ht : Threads s) {a : WorkerPc} (ha : s.workers[i]? = some a) (b : WorkerPc)
    {t : Pool} (hw : t.workers = s.workers.set i b) (hn : t.new_threads = s.new_threads)
    (hp : t.pending_threads + (if a.isStart then 1 else 0) =
      s.pending_threads + (if b.isStart then 1 else 0))
    (hi : t.idle_threads + (if a.isIdle then 1 else 0) = s.idle_threads + (if b.isIdle then 1 else 0))
    (hc : t.cur_threads + (if a.isAlive then 1 else 0) = s.cur_threads + (if b.isAlive then 1 else 0))
    (hle : t.cur_threads ≤ max_threads) : Threads t := by
  have h1 := countP_set_add ha b WorkerPc.isStart
  have h2 := countP_set_add ha b WorkerPc.isIdle
  have h3 := countP_set_add ha b WorkerPc.isAlive
  have := ht.pending
  have := ht.idle
  have := ht.cur
  refine ⟨?_, ?_, ?_, hle⟩ <;> rw [hw] <;> omega

-- Creating the thread asked for keeps the counts: `new_threads` moves to a started worker.
theorem Threads.do_spawn_thread (ht : Threads s) : Threads (do_spawn_thread s) := by
  rcases do_spawn_thread_cases s with hd | ⟨hn, hd⟩
  · rw [hd]; exact ht
  · rw [hd]
    have h1 := countP_append_start s.workers WorkerPc.isStart
    have h2 := countP_append_start s.workers WorkerPc.isIdle
    have h3 := countP_append_start s.workers WorkerPc.isAlive
    simp only [WorkerPc.isStart, WorkerPc.isIdle, WorkerPc.isAlive, if_true, Bool.false_eq_true,
      if_false] at h1 h2 h3
    have hp := ht.pending
    have hi := ht.idle
    have hc := ht.cur
    refine ⟨?_, ?_, ?_, ht.cur_le⟩ <;> dsimp only <;> omega

theorem Threads.worker_start (ht : Threads s) (hpc : s.workers[i]? = some .start) :
    Threads (worker_start s i) := by
  -- `pending_threads--` is undone by the worker leaving `start`, and `idle_threads++` by it
  -- joining `waiting`; a thread created on the way is counted as in `do_spawn_thread`
  have hpos : 0 < s.pending_threads := by
    rw [ht.pending]
    exact List.countP_pos_iff.mpr ⟨_, List.mem_of_getElem? hpc, rfl⟩
  have hp := ht.pending
  have hi := ht.idle
  have hc := ht.cur
  unfold ThreadPool.worker_start
  rcases do_spawn_thread_cases { s with pending_threads := s.pending_threads - 1 } with hd | ⟨hn, hd⟩
  · rw [hd]
    have h1 := countP_set_add hpc .waiting WorkerPc.isStart
    have h2 := countP_set_add hpc .waiting WorkerPc.isIdle
    have h3 := countP_set_add hpc .waiting WorkerPc.isAlive
    simp only [WorkerPc.isStart, WorkerPc.isIdle, WorkerPc.isAlive, if_true, Bool.false_eq_true,
      if_false] at h1 h2 h3
    exact ⟨by simp only [Pool.setWorker]; omega, by simp only [Pool.setWorker]; omega,
      by simp only [Pool.setWorker]; omega, ht.cur_le⟩
  · rw [hd]
    have hpc' : (s.workers ++ [WorkerPc.start])[i]? = some .start := by
      rw [List.getElem?_append_left (List.getElem?_eq_some_iff.mp hpc).1]
      exact hpc
    have h1 := countP_set_add hpc' .waiting WorkerPc.isStart
    have h2 := countP_set_add hpc' .waiting WorkerPc.isIdle
    have h3 := countP_set_add hpc' .waiting WorkerPc.isAlive
    rw [countP_append_start] at h1 h2 h3
    simp only [WorkerPc.isStart, WorkerPc.isIdle, WorkerPc.isAlive, if_true, Bool.false_eq_true,
      if_false] at h1 h2 h3 hn
    exact ⟨by simp only [Pool.setWorker]; omega, by simp only [Pool.setWorker]; omega,
      by simp only [Pool.setWorker]; omega, ht.cur_le⟩

-- Steps that leave the workers and the counters alone.
theorem Threads.frame (ht : Threads s) {t : Pool} (hw : t.workers = s.workers)
    (hp : t.pending_threads = s.pending_threads) (hi : t.idle_threads = s.idle_threads)
    (hn : t.new_threads = s.new_threads) (hc : t.cur_threads = s.cur_threads) : Threads t := by
  refine ⟨?_, ?_, ?_, ?_⟩
  · rw [hw, hp]; exact ht.pending
  · rw [hw, hi]; exact ht.idle
  · rw [hw, hn, hc]; exact ht.cur
  · rw [hc]; exact ht.cur_le

theorem Threads.worker_wake {ok : Bool} (ht : Threads s) (hpc : s.workers[i]? = some (.woken ok)) :
    Threads (worker_wake s i ok) := by
  have hmem := List.mem_of_getElem? hpc
  -- the woken worker is idle and alive, so `idle_threads--` and `cur_threads--` do not wrap
  have hidle : 0 < s.idle_threads := by
    rw [ht.idle]; exact List.countP_pos_iff.mpr ⟨_, hmem, rfl⟩
  have hcur : 0 < s.cur_threads := by
    have : 0 < s.workers.countP WorkerPc.isAlive := List.countP_pos_iff.mpr ⟨_, hmem, rfl⟩
    have := ht.cur; omega
  unfold ThreadPool.worker_wake
  cases ok with
  | false =>
    simp only [Bool.false_eq_true, if_false]
    split
    · exact ht.move hpc .waiting rfl rfl rfl (by simp [WorkerPc.isIdle]; omega) rfl ht.cur_le
    · exact ht.move hpc .exited rfl rfl rfl (by simp [WorkerPc.isIdle]; omega)
        (by simp [WorkerPc.isAlive]; omega) (by have := ht.cur_le; simp; omega)
  | true =>
    simp only [if_true]
    split
    · exact ht.move hpc .crashed rfl rfl rfl (by simp [WorkerPc.isIdle]; omega) rfl ht.cur_le
    · exact ht.move hpc (.running _) rfl rfl rfl (by simp [WorkerPc.isIdle]; omega) rfl ht.cur_le

theorem Threads.worker_done (ht : Threads s) (hpc : s.workers[i]? = some (.returned req)) :
    Threads (worker_done s i req) :=
  ht.move hpc .finished rfl rfl rfl rfl rfl ht.cur_le

theorem Threads.worker_notify (ht : Threads s) (hpc : s.workers[i]? = some .finished) :
    Threads (worker_notify s i) :=
  ht.move hpc .waiting rfl rfl rfl (by simp [ThreadPool.worker_notify, WorkerPc.isIdle]) rfl
    ht.cur_le

-- `spawn_thread` is called only while `cur_threads < max_threads`.
theorem Threads.submitted {cb : Bool} {ctx : Ctx} (ht : Threads s) :
    Threads (submitted s cb ctx) := by
  unfold ThreadPool.submitted
  dsimp only
  split
  · rename_i hlt
    simp only [Pool.emit] at hlt
    unfold spawn_thread
    dsimp only
    have := ht.cur
    split <;> exact ⟨ht.pending, ht.idle, by simp only [Pool.emit]; omega,
      by simp only [Pool.emit]; omega⟩
  · exact ht.frame rfl rfl rfl rfl rfl

theorem Threads.step {a : Action} (ht : Threads s) (h : step s a = some s') : Threads s' := by
  cases a with
  | worker i =>
    rcases step_worker h with ⟨hpc, rfl⟩ | ⟨ok, hpc, rfl⟩ | ⟨req, hpc, rfl⟩ | ⟨hpc, rfl⟩
    · exact ht.worker_start hpc
    · exact ht.worker_wake hpc
    · exact ht.worker_done hpc
    · exact ht.worker_notify hpc
  | semWait i =>
    obtain ⟨hpc, -, rfl⟩ := sem_wait_eq h
    exact ht.move hpc (.woken true) rfl rfl rfl rfl rfl ht.cur_le
  | semTimeout i =>
    obtain ⟨hpc, rfl⟩ := sem_timeout_eq h
    exact ht.move hpc (.woken false) rfl rfl rfl rfl rfl ht.cur_le
  | funcReturn i ret =>
    obtain ⟨req, hpc, rfl⟩ := func_return_eq h
    exact ht.move hpc (.returned req) rfl rfl rfl rfl rfl ht.cur_le
  | submit cb =>
    obtain ⟨ctx, -, rfl⟩ := submit_eq h
    exact ht.submitted
  | semPost =>
    obtain ⟨ctx, -, rfl⟩ := sem_post_eq h
    exact ht.frame rfl rfl rfl rfl rfl
  | cancel req =>
    obtain ⟨ctx, e, -, -, -, ⟨-, -, rfl⟩ | ⟨-, rfl⟩ | ⟨-, -, -, rfl⟩⟩ := cancel_cases h <;>
      exact ht.frame rfl rfl rfl rfl rfl
  | cancelWake =>
    obtain ⟨req, ctx, e, -, -, -, rfl⟩ := cancel_wake_eq h
    exact ht.frame rfl rfl rfl rfl rfl
  | notify =>
    obtain ⟨-, rfl⟩ := notify_eq h
    exact ht.frame rfl rfl rfl rfl rfl
  | scan =>
    rcases scan_cases h with ⟨-, rfl⟩ | ⟨req, next, e, -, -, ⟨-, -, rfl⟩ | ⟨-, -, rfl⟩ | ⟨-, -, rfl⟩⟩ <;>
      exact ht.frame rfl rfl rfl rfl rfl
  | callbackReturn =>
    obtain ⟨req, -, rfl⟩ := callback_return_eq h
    exact ht.frame rfl rfl rfl rfl rfl
  | bh =>
    obtain ⟨-, -, rfl⟩ := bh_eq h
    exact @Threads.do_spawn_thread { s with new_thread_bh := false } (ht.frame rfl rfl rfl rfl rfl)

theorem Threads.reachable (h : Reachable s) : Threads s := by
  induction h with
  | init => exact Threads.init
  | step _ _ hstep ih => exact ih.step hstep

-- Under every interleaving, the counters of `thread-pool.c` count the threads they stand for
-- and the pool never has more than `max_threads` threads.
theorem thread_counters_reachable (h : Reachable s) :
    s.cur_threads ≤ max_threads ∧
      s.cur_threads = s.new_threads + s.workers.countP WorkerPc.isAlive ∧
      s.idle_threads = s.workers.countP WorkerPc.isIdle ∧
      s.pending_threads = s.workers.countP WorkerPc.isStart :=
  have ht := Threads.reachable h
  ⟨ht.cur_le, ht.cur, ht.idle, ht.pending⟩

theorem thread_counters_running :
    running_pool.workers = [WorkerPc.running 0] ∧
      (running_pool.cur_threads ≤ max_threads ∧
        running_pool.cur_threads =
          running_pool.new_threads + running_pool.workers.countP WorkerPc.isAlive ∧
        running_pool.idle_threads = running_pool.workers.countP WorkerPc.isIdle ∧
        running_pool.pending_threads = running_pool.workers.countP WorkerPc.isStart) :=
  ⟨rfl, thread_counters_reachable running_pool_reachable⟩

/-! ### The requests -/

-- Where each request is: `request_list` holds exactly the queued ones, once each; `head`
-- holds live requests, once each; no address at or past `next_addr` is in use; a request
-- in `THREAD_ACTIVE` has exactly one worker on it and no other request has one; and the
-- request whose callback runs is done, has a callback, and has left `head`.
structure Requests (s : Pool) : Prop where
  queue_nodup : s.request_list.Nodup
  queued : ∀ r, r ∈ s.request_list ↔ s.stateOf r = some THREAD_QUEUED
  head_nodup : s.head.Nodup
  head_live : ∀ r ∈ s.head, s.elems r ≠ none
  fresh : ∀ r, s.next_addr ≤ r → s.elems r = none
  busy : ∀ r, s.workers.countP (WorkerPc.busyOn r) = if s.stateOf r = some THREAD_ACTIVE then 1 else 0
  callback : ∀ r, s.main.callback = some r →
    r ∉ s.head ∧ ∃ e, s.elems r = some e ∧ e.state = THREAD_DONE ∧ e.cb = true

theorem Requests.init : Requests thread_pool_init where
  queue_nodup := List.nodup_nil
  queued r := by simp [thread_pool_init, Pool.stateOf]
  head_nodup := List.nodup_nil
  head_live r h := by simp [thread_pool_init] at h
  fresh r _ := rfl
  busy r := by simp [thread_pool_init, Pool.stateOf]
  callback r h := by simp [thread_pool_init, MainPc.callback] at h

-- Steps that change no request and move workers only between places where they hold none.
theorem Requests.frame (hr : Requests s) {t : Pool} (he : t.elems = s.elems)
    (hn : t.next_addr = s.next_addr) (hh : t.head = s.head) (hl : t.request_list = s.request_list)
    (hm : t.main.callback = s.main.callback)
    (hw : ∀ r, t.workers.countP (WorkerPc.busyOn r) = s.workers.countP (WorkerPc.busyOn r)) :
    Requests t where
  queue_nodup := hl ▸ hr.queue_nodup
  queued r := by rw [hl, Pool.stateOf, he]; exact hr.queued r
  head_nodup := hh ▸ hr.head_nodup
  head_live r := by rw [hh, he]; exact hr.head_live r
  fresh r := by rw [hn, he]; exact hr.fresh r
  busy r := by rw [hw, Pool.stateOf, he]; exact hr.busy r
  callback r := by rw [hm, hh, he]; exact hr.callback r

-- A worker moving between places where it holds no request.
theorem busy_set_idle {l : List WorkerPc} {a b : WorkerPc} (ha : l[i]? = some a)
    (hab : ∀ r, a.busyOn r = false ∧ b.busyOn r = false) (r : Nat) :
    (l.set i b).countP (WorkerPc.busyOn r) = l.countP (WorkerPc.busyOn r) := by
  have h := countP_set_add ha b (WorkerPc.busyOn r)
  simp only [(hab r).1, (hab r).2, Bool.false_eq_true, if_false] at h
  omega

theorem stateOf_setState (s : Pool) (req : Nat) (st : ThreadState) (r : Nat) :
    (s.setState req st).stateOf r = if r = req then (s.stateOf req).map (fun _ => st) else s.stateOf r := by
  by_cases h : r = req
  · subst h
    simp only [Pool.stateOf, Pool.setState, Function.update_self, Option.map_map, if_true]
    cases s.elems r <;> rfl
  · simp [Pool.stateOf, h]

theorem setState_elems_eq_none (s : Pool) (req : Nat) (st : ThreadState) (r : Nat) :
    (s.setState req st).elems r = none ↔ s.elems r = none := by
  by_cases h : r = req
  · subst h; simp
  · simp [h]

theorem Requests.worker_start (hr : Requests s) (hpc : s.workers[i]? = some .start) :
    Requests (worker_start s i) := by
  unfold ThreadPool.worker_start
  rw [do_spawn_thread_eq]
  refine hr.frame rfl rfl rfl rfl rfl fun r => ?_
  have hab : ∀ r, WorkerPc.start.busyOn r = false ∧ WorkerPc.waiting.busyOn r = false :=
    fun _ => ⟨rfl, rfl⟩
  dsimp only [Pool.setWorker]
  split
  · exact busy_set_idle hpc hab r
  · have hpc' : (s.workers ++ [WorkerPc.start])[i]? = some .start := by
      rw [List.getElem?_append_left (List.getElem?_eq_some_iff.mp hpc).1]
      exact hpc
    rw [busy_set_idle hpc' hab r, List.countP_append]
    simp [WorkerPc.busyOn]

-- The request a step changes the state of, and nothing else of the requests.
theorem Requests.setState (hr : Requests s) {t : Pool} (st : ThreadState)
    (he : t.elems = (s.setState req st).elems) (hn : t.next_addr = s.next_addr) (hh : t.head = s.head)
    (hm : t.main.callback = s.main.callback)
    (hl : ∀ r, r ∈ t.request_list ↔ (s.setState req st).stateOf r = some THREAD_QUEUED)
    (hnd : t.request_list.Nodup)
    (hb : ∀ r, t.workers.countP (WorkerPc.busyOn r) =
      if (s.setState req st).stateOf r = some THREAD_ACTIVE then 1 else 0)
    (hdone : st = THREAD_DONE ∨ s.stateOf req ≠ some THREAD_DONE) : Requests t where
  queue_nodup := hnd
  queued r := by rw [hl, Pool.stateOf, Pool.stateOf, he]
  head_nodup := hh ▸ hr.head_nodup
  head_live r hm' := by rw [he, ne_eq, setState_elems_eq_none]; exact hr.head_live r (hh ▸ hm')
  fresh r hr' := by rw [he, setState_elems_eq_none]; exact hr.fresh r (hn ▸ hr')
  busy r := by rw [hb, Pool.stateOf, Pool.stateOf, he]
  callback r hc := by
    rw [hm] at hc
    obtain ⟨hnot, e, he', hd, hcb⟩ := hr.callback r hc
    refine ⟨hh ▸ hnot, ?_⟩
    by_cases h : r = req
    · -- the request whose callback runs is done, so only a write of `THREAD_DONE` may change it
      subst h
      have hst : st = THREAD_DONE := by
        rcases hdone with hst | hst
        · exact hst
        · simp [Pool.stateOf, he', hd] at hst
      subst hst
      exact ⟨{ e with state := THREAD_DONE }, by rw [he]; simp [he'], rfl, hcb⟩
    · exact ⟨e, by rw [he]; simpa [h] using he', hd, hcb⟩

-- The dequeue: the first request of `request_list` leaves it for `THREAD_ACTIVE`.
theorem Requests.dequeue (hr : Requests s) (hpc : s.workers[i]? = some (.woken true))
    {rest : List Nat} (hl : s.request_list = req :: rest) : Requests (worker_wake s i true) := by
  have hq : s.stateOf req = some THREAD_QUEUED :=
    (hr.queued req).mp (by rw [hl]; exact List.mem_cons_self)
  have hnd := hr.queue_nodup
  rw [hl, List.nodup_cons] at hnd
  unfold ThreadPool.worker_wake
  simp only [if_true, hl]
  refine hr.setState THREAD_ACTIVE rfl rfl rfl rfl (fun r => ?_) hnd.2 (fun r => ?_)
    (.inr (by rw [hq]; simp))
  · rw [stateOf_setState]
    by_cases h : r = req
    · subst h; simp [hq, hnd.1]
    · have := hr.queued r
      simp only [hl, List.mem_cons, h, false_or] at this
      simpa [h] using this
  · -- the woken worker now holds `req`, which was queued and so held by none
    have h1 := countP_set_add hpc (.running req) (WorkerPc.busyOn r)
    have h0 := hr.busy r
    simp only [WorkerPc.busyOn, Bool.false_eq_true, if_false, Nat.add_zero] at h1
    simp only [Pool.setWorker, Pool.emit, stateOf_setState]
    by_cases h : r = req
    · subst h
      have h0' : s.workers.countP (WorkerPc.busyOn r) = 0 := by rw [h0, hq]; simp
      simp only [beq_self_eq_true, if_true] at h1
      simp only [hq, Option.map_some, if_pos, Pool.setState]
      omega
    · have : (req == r) = false := by simpa using Ne.symm h
      simp only [this, Bool.false_eq_true, if_false, Nat.add_zero] at h1
      simpa [h, h1] using h0

theorem Requests.worker_wake {ok : Bool} (hr : Requests s)
    (hpc : s.workers[i]? = some (.woken ok)) : Requests (worker_wake s i ok) := by
  have hmove : ∀ b : WorkerPc, (∀ r, b.busyOn r = false) → ∀ r,
      (s.workers.set i b).countP (WorkerPc.busyOn r) = s.workers.countP (WorkerPc.busyOn r) :=
    fun b hb r => busy_set_idle hpc (fun r => ⟨rfl, hb r⟩) r
  cases ok with
  | false =>
    unfold ThreadPool.worker_wake
    simp only [Bool.false_eq_true, if_false]
    split
    · exact hr.frame rfl rfl rfl rfl rfl (hmove .waiting fun _ => rfl)
    · exact hr.frame rfl rfl rfl rfl rfl (hmove .exited fun _ => rfl)
  | true =>
    cases hl : s.request_list with
    | nil =>
      unfold ThreadPool.worker_wake
      simp only [if_true, hl]
      exact hr.frame rfl rfl rfl (by simp [hl]) rfl (hmove .crashed fun _ => rfl)
    | cons req rest => exact hr.dequeue hpc hl

theorem Requests.worker_done (hr : Requests s) (hpc : s.workers[i]? = some (.returned req)) :
    Requests (worker_done s i req) := by
  -- worker `i` holds `req`, so `req` is active and leaves no queue when it is done
  have h1 := fun r => countP_set_add hpc .finished (WorkerPc.busyOn r)
  have hact : s.stateOf req = some THREAD_ACTIVE := by
    have hpos : 0 < s.workers.countP (WorkerPc.busyOn req) :=
      List.countP_pos_iff.mpr ⟨_, List.mem_of_getElem? hpc, by simp [WorkerPc.busyOn]⟩
    have := hr.busy req
    split at this
    · assumption
    · omega
  refine hr.setState THREAD_DONE rfl rfl rfl rfl (fun r => ?_) hr.queue_nodup (fun r => ?_) (.inl rfl)
  · show r ∈ s.request_list ↔ _
    rw [stateOf_setState, hr.queued r]
    by_cases h : r = req
    · subst h; simp [hact]
    · simp [h]
  · have h0 := hr.busy r
    have h1 := h1 r
    simp only [WorkerPc.busyOn, Bool.false_eq_true, if_false, Nat.add_zero] at h1
    show (s.workers.set i .finished).countP (WorkerPc.busyOn r) = _
    rw [stateOf_setState]
    by_cases h : r = req
    · subst h
      simp only [beq_self_eq_true, if_true, hact] at h0 h1
      simp only [if_true, hact, Option.map_some, Option.some.injEq, reduceCtorEq, if_false]
      omega
    · have : (req == r) = false := by simpa using Ne.symm h
      simp only [this, Bool.false_eq_true, if_false, Nat.add_zero] at h1
      simpa [h, h1] using h0

theorem stateOf_setRet (s : Pool) (req : Nat) (ret : Int) (r : Nat) :
    (s.setRet req ret).stateOf r = s.stateOf r := by
  by_cases h : r = req
  · subst h
    simp only [Pool.stateOf, Pool.setRet, Function.update_self, Option.map_map]
    cases s.elems r <;> rfl
  · simp [Pool.stateOf, h]

-- Storing `func`'s value changes no request's state.
theorem Requests.func_return {ret : Int} (hr : Requests s) (hpc : s.workers[i]? = some (.running req)) :
    Requests (((s.setRet req ret).emit (.funcRet req ret)).setWorker i (.returned req)) where
  queue_nodup := hr.queue_nodup
  queued r := by
    show r ∈ s.request_list ↔ (s.setRet req ret).stateOf r = some THREAD_QUEUED
    rw [stateOf_setRet]
    exact hr.queued r
  head_nodup := hr.head_nodup
  head_live r hm := by
    by_cases h : r = req
    · subst h; have := hr.head_live r hm; simpa using this
    · simpa [h] using hr.head_live r hm
  fresh r hn := by
    by_cases h : r = req
    · subst h; simp [hr.fresh r hn]
    · simpa [h] using hr.fresh r hn
  busy r := by
    have h1 := countP_set_add hpc (.returned req) (WorkerPc.busyOn r)
    simp only [WorkerPc.busyOn] at h1
    show (s.workers.set i (.returned req)).countP (WorkerPc.busyOn r) =
      if (s.setRet req ret).stateOf r = some THREAD_ACTIVE then 1 else 0
    rw [stateOf_setRet, ← hr.busy r]
    exact Nat.add_right_cancel h1
  callback r hc := by
    obtain ⟨hnot, e, he, hd, hcb⟩ := hr.callback r hc
    refine ⟨hnot, ?_⟩
    by_cases h : r = req
    · subst h; exact ⟨{ e with ret := ret }, by simp [he], hd, hcb⟩
    · exact ⟨e, by simpa [h] using he, hd, hcb⟩

-- A submission puts a fresh address at the front of `head` and at the end of the queue.
theorem Requests.of_submit {cb : Bool} {ctx : Ctx} (hr : Requests s) (hmain : s.main = .ready ctx)
    {t : Pool} (he : t.elems = Function.update s.elems s.next_addr (some ⟨THREAD_QUEUED, 0, cb⟩))
    (hn : t.next_addr = s.next_addr + 1) (hh : t.head = s.next_addr :: s.head)
    (hl : t.request_list = s.request_list ++ [s.next_addr]) (hm : t.main = .posting ctx)
    (hw : t.workers = s.workers) : Requests t := by
  have hfresh := hr.fresh s.next_addr (Nat.le_refl _)
  have hnotl : s.next_addr ∉ s.request_list := fun h => by
    have := (hr.queued _).mp h
    simp [Pool.stateOf, hfresh] at this
  have hnoth : s.next_addr ∉ s.head := fun h => hr.head_live _ h hfresh
  refine ⟨?_, fun r => ?_, ?_, fun r hm' => ?_, fun r hr' => ?_, fun r => ?_, fun r hc => ?_⟩
  · rw [hl, List.nodup_append]
    refine ⟨hr.queue_nodup, by simp, fun a ha b hb => ?_⟩
    rw [List.mem_singleton] at hb
    rintro rfl
    exact hnotl (hb ▸ ha)
  · rw [hl, Pool.stateOf, he]
    by_cases h : r = s.next_addr
    · subst h; simp
    · simpa [h, Pool.stateOf] using hr.queued r
  · rw [hh]; exact List.nodup_cons.mpr ⟨hnoth, hr.head_nodup⟩
  · rw [hh] at hm'
    rw [he]
    by_cases h : r = s.next_addr
    · subst h; simp
    · simpa [h] using hr.head_live r (List.mem_of_ne_of_mem h hm')
  · rw [hn] at hr'
    have h : r ≠ s.next_addr := by omega
    rw [he]
    simpa [h] using hr.fresh r (by omega)
  · rw [hw, Pool.stateOf, he]
    by_cases h : r = s.next_addr
    · subst h
      simpa [Pool.stateOf, hfresh] using hr.busy s.next_addr
    · simpa [h, Pool.stateOf] using hr.busy r
  · -- the main thread is in the same callback as before, of a request already allocated
    have hc' : s.main.callback = some r := by
      rw [hm] at hc; rw [hmain]; cases ctx <;> simp [MainPc.callback] at hc ⊢; exact hc
    obtain ⟨hnot, e, he', hd, hcb⟩ := hr.callback r hc'
    have h : r ≠ s.next_addr := by rintro rfl; rw [hfresh] at he'; cases he'
    exact ⟨by rw [hh]; simp [h, hnot], e, by rw [he]; simp [h, he'], hd, hcb⟩

theorem Requests.submitted {cb : Bool} {ctx : Ctx} (hr : Requests s) (hmain : s.main = .ready ctx) :
    Requests (submitted s cb ctx) := by
  unfold ThreadPool.submitted
  dsimp only
  split
  · rw [spawn_thread_eq]; exact hr.of_submit hmain rfl rfl rfl rfl rfl rfl
  · exact hr.of_submit hmain rfl rfl rfl rfl rfl rfl

-- `thread_pool_cancel` takes a queued request off the queue.
theorem Requests.stolen (hr : Requests s) (hq : s.stateOf req = some THREAD_QUEUED) :
    Requests (stolen s req) := by
  refine hr.setState THREAD_CANCELED rfl rfl rfl rfl (fun r => ?_) (hr.queue_nodup.erase req)
    (fun r => ?_) (.inr (by rw [hq]; simp))
  · show r ∈ s.request_list.erase req ↔ _
    rw [stateOf_setState]
    by_cases h : r = req
    · subst h; simp [hq, List.Nodup.mem_erase_iff hr.queue_nodup]
    · simpa [h, List.Nodup.mem_erase_iff hr.queue_nodup] using hr.queued r
  · show s.workers.countP (WorkerPc.busyOn r) = _
    rw [stateOf_setState, hr.busy r]
    by_cases h : r = req
    · subst h; simp [hq]
    · simp [h]

-- The scan meets a done request with a callback: it leaves `head` and its callback runs.
theorem Requests.scan_callback (hr : Requests s) {e : ThreadPoolElement}
    (he : s.elems req = some e)
    (hd : e.state = THREAD_DONE) (hcb : e.cb = true) :
    Requests ({ s with head := s.head.erase req, main := .ready (.callback req) }.emit
      (.callback req e.ret)) where
  queue_nodup := hr.queue_nodup
  queued := hr.queued
  head_nodup := hr.head_nodup.erase req
  head_live r hm := hr.head_live r (List.mem_of_mem_erase hm)
  fresh := hr.fresh
  busy := hr.busy
  callback r hc := by
    simp only [Pool.emit, MainPc.callback, Option.some.injEq] at hc
    subst hc
    exact ⟨List.Nodup.not_mem_erase hr.head_nodup, e, he, hd, hcb⟩

-- The scan meets a cancelled request, or a done one without a callback, and releases it.
theorem Requests.scan_release (hr : Requests s) {next : List Nat} {e : ThreadPoolElement}
    (he : s.elems req = some e) (hfin : e.state = THREAD_CANCELED ∨ e.state = THREAD_DONE) :
    Requests ({ s with head := s.head.erase req, elems := Function.update s.elems req none,
                       main := .scanning next }.emit (.release req)) := by
  have hnq : s.stateOf req ≠ some THREAD_QUEUED := by rcases hfin with h | h <;> simp [Pool.stateOf, he, h]
  have hna : s.stateOf req ≠ some THREAD_ACTIVE := by rcases hfin with h | h <;> simp [Pool.stateOf, he, h]
  refine ⟨hr.queue_nodup, fun r => ?_, hr.head_nodup.erase req, fun r hm => ?_, fun r hn => ?_,
    fun r => ?_, fun r hc => ?_⟩
  · show r ∈ s.request_list ↔ _
    rw [hr.queued r]
    by_cases h : r = req
    · subst h; simpa [Pool.stateOf] using hnq
    · simp [Pool.stateOf, h]
  · have h : r ≠ req := by
      rintro rfl; exact List.Nodup.not_mem_erase hr.head_nodup hm
    simpa [h] using hr.head_live r (List.mem_of_mem_erase hm)
  · by_cases h : r = req
    · subst h; simp
    · simpa [h] using hr.fresh r hn
  · show s.workers.countP (WorkerPc.busyOn r) = _
    rw [hr.busy r]
    by_cases h : r = req
    · subst h; simpa [Pool.stateOf] using hna
    · simp [Pool.stateOf, h]
  · simp [MainPc.callback] at hc

-- The callback returns and its request is released; the scan starts again.
theorem Requests.callback_return (hr : Requests s) (hmain : s.main = .ready (.callback req)) :
    Requests ({ s with elems := Function.update s.elems req none, main := .scanning s.head }.emit
      (.release req)) := by
  obtain ⟨hnot, e, he, hd, -⟩ := hr.callback req (by rw [hmain]; rfl)
  refine ⟨hr.queue_nodup, fun r => ?_, hr.head_nodup, fun r hm => ?_, fun r hn => ?_,
    fun r => ?_, fun r hc => ?_⟩
  · show r ∈ s.request_list ↔ _
    rw [hr.queued r]
    by_cases h : r = req
    · subst h; simp [Pool.stateOf, he, hd]
    · simp [Pool.stateOf, h]
  · have h : r ≠ req := by rintro rfl; exact hnot hm
    simpa [h] using hr.head_live r hm
  · by_cases h : r = req
    · subst h; simp
    · simpa [h] using hr.fresh r hn
  · show s.workers.countP (WorkerPc.busyOn r) = _
    rw [hr.busy r]
    by_cases h : r = req
    · subst h; simp [Pool.stateOf, he, hd]
    · simp [Pool.stateOf, h]
  · simp [MainPc.callback] at hc

theorem MainPc.callback_posting (ctx : Ctx) :
    (MainPc.posting ctx).callback = (MainPc.ready ctx).callback := by
  cases ctx <;> rfl

theorem MainPc.callback_cancelWait (r : Nat) (ctx : Ctx) :
    (MainPc.cancelWait r ctx).callback = (MainPc.ready ctx).callback := by
  cases ctx <;> rfl

theorem Requests.step {a : Action} (hr : Requests s) (h : step s a = some s') : Requests s' := by
  cases a with
  | worker i =>
    rcases step_worker h with ⟨hpc, rfl⟩ | ⟨ok, hpc, rfl⟩ | ⟨req, hpc, rfl⟩ | ⟨hpc, rfl⟩
    · exact hr.worker_start hpc
    · exact hr.worker_wake hpc
    · exact hr.worker_done hpc
    · exact hr.frame rfl rfl rfl rfl rfl (busy_set_idle hpc fun _ => ⟨rfl, rfl⟩)
  | semWait i =>
    obtain ⟨hpc, -, rfl⟩ := sem_wait_eq h
    exact hr.frame rfl rfl rfl rfl rfl (busy_set_idle hpc fun _ => ⟨rfl, rfl⟩)
  | semTimeout i =>
    obtain ⟨hpc, rfl⟩ := sem_timeout_eq h
    exact hr.frame rfl rfl rfl rfl rfl (busy_set_idle hpc fun _ => ⟨rfl, rfl⟩)
  | funcReturn i ret =>
    obtain ⟨req, hpc, rfl⟩ := func_return_eq h
    exact hr.func_return hpc
  | submit cb =>
    obtain ⟨ctx, hmain, rfl⟩ := submit_eq h
    exact hr.submitted hmain
  | semPost =>
    obtain ⟨ctx, hmain, rfl⟩ := sem_post_eq h
    exact hr.frame rfl rfl rfl rfl (by rw [hmain, MainPc.callback_posting]) fun _ => rfl
  | cancel req =>
    obtain ⟨ctx, e, hmain, he, -, ⟨hq, -, rfl⟩ | ⟨-, rfl⟩ | ⟨-, -, -, rfl⟩⟩ := cancel_cases h
    · exact hr.stolen (by simp [Pool.stateOf, he, hq])
    · exact hr.frame rfl rfl rfl rfl rfl fun _ => rfl
    · exact hr.frame rfl rfl rfl rfl (by rw [hmain, MainPc.callback_cancelWait]) fun _ => rfl
  | cancelWake =>
    obtain ⟨req, ctx, e, hmain, -, -, rfl⟩ := cancel_wake_eq h
    exact hr.frame rfl rfl rfl rfl (by rw [hmain, MainPc.callback_cancelWait]; rfl) fun _ => rfl
  | notify =>
    obtain ⟨hmain, rfl⟩ := notify_eq h
    exact hr.frame rfl rfl rfl rfl (by rw [hmain]; rfl) fun _ => rfl
  | scan =>
    rcases scan_cases h with ⟨hmain, rfl⟩ |
      ⟨req, next, e, hmain, he, ⟨-, -, rfl⟩ | ⟨hd, hcb, rfl⟩ | ⟨hfin, -, rfl⟩⟩
    · exact hr.frame rfl rfl rfl rfl (by rw [hmain]; rfl) fun _ => rfl
    · exact hr.frame rfl rfl rfl rfl (by rw [hmain]; rfl) fun _ => rfl
    · exact hr.scan_callback he hd hcb
    · exact hr.scan_release he hfin
  | callbackReturn =>
    obtain ⟨req, hmain, rfl⟩ := callback_return_eq h
    exact hr.callback_return hmain
  | bh =>
    obtain ⟨-, -, rfl⟩ := bh_eq h
    rw [do_spawn_thread_eq]
    refine hr.frame rfl rfl rfl rfl rfl fun r => ?_
    dsimp only
    split
    · rfl
    · rw [List.countP_append]; simp [WorkerPc.busyOn]

theorem Requests.reachable (h : Reachable s) : Requests s := by
  induction h with
  | init => exact Requests.init
  | step _ _ hstep ih => exact ih.step hstep

/-! ### The semaphore -/

-- Every unit of `sem`, every worker that took one and has not dequeued yet, and the post a
-- submission still owes, stands for its own request in `request_list`; and no worker has
-- crashed.
structure Sem (s : Pool) : Prop where
  bound : s.sem + s.workers.countP WorkerPc.isWokenOk + s.main.owed ≤
    s.request_list.length
  no_crash : s.workers.countP WorkerPc.isCrashed = 0

theorem Sem.init : Sem thread_pool_init := ⟨Nat.le_refl _, rfl⟩

-- Worker `i` moves from `a` to `b`, and the semaphore, the queue and the main thread move
-- so that the bound is kept.
theorem Sem.move (hs : Sem s) {a : WorkerPc} (ha : s.workers[i]? = some a) (b : WorkerPc)
    {t : Pool} (hw : t.workers = s.workers.set i b) (hc : b.isCrashed = false)
    (hk : t.sem + (if b.isWokenOk then 1 else 0) + t.main.owed +
        s.request_list.length ≤
      s.sem + (if a.isWokenOk then 1 else 0) + s.main.owed +
        t.request_list.length) : Sem t := by
  have h1 := countP_set_add ha b WorkerPc.isWokenOk
  have h2 := countP_set_add ha b WorkerPc.isCrashed
  have := hs.bound
  have := hs.no_crash
  rw [hc] at h2
  constructor
  · rw [hw]; omega
  · rw [hw]; simp only [Bool.false_eq_true, if_false] at h2; omega

theorem Sem.frame (hs : Sem s) {t : Pool} (hw : t.workers = s.workers)
    (hk : t.sem + t.main.owed + s.request_list.length ≤
      s.sem + s.main.owed + t.request_list.length) : Sem t := by
  have := hs.bound
  exact ⟨by rw [hw]; omega, hw ▸ hs.no_crash⟩

-- A thread created by `do_spawn_thread` starts neither woken nor crashed.
theorem Sem.append_start (hs : Sem s) {t : Pool} (hw : t.workers = s.workers ++ [.start])
    (hk : t.sem + t.main.owed + s.request_list.length ≤
      s.sem + s.main.owed + t.request_list.length) : Sem t := by
  have := hs.bound
  constructor
  · rw [hw, List.countP_append]; simp [WorkerPc.isWokenOk]; omega
  · rw [hw, List.countP_append]; simpa [WorkerPc.isCrashed] using hs.no_crash

-- A worker that took the semaphore finds a request: the bound counts it.
theorem Sem.queue_ne_nil (hs : Sem s) (hpc : s.workers[i]? = some (.woken true)) :
    s.request_list ≠ [] := by
  have hpos : 0 < s.workers.countP WorkerPc.isWokenOk :=
    List.countP_pos_iff.mpr ⟨_, List.mem_of_getElem? hpc, rfl⟩
  have := hs.bound
  intro h
  rw [h, List.length_nil] at this
  omega

theorem Sem.worker_wake {ok : Bool} (hs : Sem s) (hpc : s.workers[i]? = some (.woken ok)) :
    Sem (worker_wake s i ok) := by
  cases ok with
  | false =>
    unfold ThreadPool.worker_wake
    simp only [Bool.false_eq_true, if_false]
    split
    · exact hs.move hpc .waiting rfl rfl (by simp [WorkerPc.isWokenOk])
    · exact hs.move hpc .exited rfl rfl (by simp [WorkerPc.isWokenOk])
  | true =>
    obtain ⟨req, rest, hl⟩ := List.exists_cons_of_ne_nil (hs.queue_ne_nil hpc)
    unfold ThreadPool.worker_wake
    simp only [if_true, hl]
    -- the worker gives back its unit as the queue loses its first request
    exact hs.move hpc (.running req) rfl rfl (by simp [WorkerPc.isWokenOk, hl]; omega)

theorem Sem.step {a : Action} (hr : Requests s) (hs : Sem s) (h : step s a = some s') : Sem s' := by
  cases a with
  | worker i =>
    rcases step_worker h with ⟨hpc, rfl⟩ | ⟨ok, hpc, rfl⟩ | ⟨req, hpc, rfl⟩ | ⟨hpc, rfl⟩
    · unfold ThreadPool.worker_start
      rw [do_spawn_thread_eq]
      dsimp only
      split
      · exact hs.move hpc .waiting rfl rfl (by simp [WorkerPc.isWokenOk])
      · have hpc' : (s.workers ++ [WorkerPc.start])[i]? = some .start := by
          rw [List.getElem?_append_left (List.getElem?_eq_some_iff.mp hpc).1]
          exact hpc
        have hs' : Sem { s with workers := s.workers ++ [.start] } := hs.append_start rfl (by simp)
        exact hs'.move hpc' .waiting rfl rfl (by simp [WorkerPc.isWokenOk])
    · exact hs.worker_wake hpc
    · exact hs.move hpc .finished rfl rfl (by simp [ThreadPool.worker_done, WorkerPc.isWokenOk])
    · exact hs.move hpc .waiting rfl rfl (by simp [ThreadPool.worker_notify, WorkerPc.isWokenOk])
  | semWait i =>
    obtain ⟨hpc, hsem, rfl⟩ := sem_wait_eq h
    exact hs.move hpc (.woken true) rfl rfl (by simp [WorkerPc.isWokenOk]; omega)
  | semTimeout i =>
    obtain ⟨hpc, rfl⟩ := sem_timeout_eq h
    exact hs.move hpc (.woken false) rfl rfl (by simp [WorkerPc.isWokenOk])
  | funcReturn i ret =>
    obtain ⟨req, hpc, rfl⟩ := func_return_eq h
    exact hs.move hpc (.returned req) rfl rfl (by simp [WorkerPc.isWokenOk])
  | submit cb =>
    -- the queue grows by the request whose post is now owed
    obtain ⟨ctx, hmain, rfl⟩ := submit_eq h
    unfold ThreadPool.submitted
    dsimp only
    split
    · rw [spawn_thread_eq]
      exact hs.frame rfl (by simp [MainPc.owed, hmain]; omega)
    · exact hs.frame rfl (by simp [MainPc.owed, hmain]; omega)
  | semPost =>
    obtain ⟨ctx, hmain, rfl⟩ := sem_post_eq h
    exact hs.frame rfl (by simp [MainPc.owed, hmain])
  | cancel req =>
    obtain ⟨ctx, e, hmain, he, -, ⟨hq, hsem, rfl⟩ | ⟨-, rfl⟩ | ⟨-, -, -, rfl⟩⟩ := cancel_cases h
    · -- the unit taken from `sem` and the request taken off the queue go together
      have hmem : req ∈ s.request_list := (hr.queued req).mpr (by simp [Pool.stateOf, he, hq])
      have hlen := List.length_erase_of_mem hmem
      have hpos := List.length_pos_of_mem hmem
      exact hs.frame rfl (by simp [stolen, hmain, MainPc.owed, hlen]; omega)
    · exact hs.frame rfl (by simp)
    · exact hs.frame rfl (by simp [MainPc.owed, hmain])
  | cancelWake =>
    obtain ⟨req, ctx, e, hmain, -, -, rfl⟩ := cancel_wake_eq h
    exact hs.frame rfl (by simp [MainPc.owed, hmain])
  | notify =>
    obtain ⟨hmain, rfl⟩ := notify_eq h
    exact hs.frame rfl (by simp [MainPc.owed, hmain])
  | scan =>
    rcases scan_cases h with ⟨hmain, rfl⟩ |
      ⟨req, next, e, hmain, he, ⟨-, -, rfl⟩ | ⟨-, -, rfl⟩ | ⟨-, -, rfl⟩⟩ <;>
      exact hs.frame rfl (by simp [MainPc.owed, hmain])
  | callbackReturn =>
    obtain ⟨req, hmain, rfl⟩ := callback_return_eq h
    exact hs.frame rfl (by simp [MainPc.owed, hmain])
  | bh =>
    obtain ⟨-, -, rfl⟩ := bh_eq h
    rw [do_spawn_thread_eq]
    dsimp only
    split
    · exact hs.frame rfl (by simp)
    · exact hs.append_start rfl (by simp)

theorem Sem.reachable (h : Reachable s) : Sem s := by
  induction h with
  | init => exact Sem.init
  | step _ hreach hstep ih => exact ih.step (Requests.reachable hreach) hstep

/-! ### Under every interleaving -/

-- No worker ever dequeues from an empty `request_list`: the units of `sem`, the workers
-- that took one, and a post still owed never outnumber the queued requests, so a worker
-- woken with `0` finds a request and none crashes.
theorem sem_bound_reachable (h : Reachable s) :
    s.sem + s.workers.countP WorkerPc.isWokenOk + s.main.owed ≤ s.request_list.length ∧
      (∀ i : Nat, s.workers[i]? = some (WorkerPc.woken true) → s.request_list ≠ []) ∧
      WorkerPc.crashed ∉ s.workers := by
  have hs := Sem.reachable h
  refine ⟨hs.bound, fun i hpc => hs.queue_ne_nil hpc, fun hm => ?_⟩
  have : 0 < s.workers.countP WorkerPc.isCrashed := List.countP_pos_iff.mpr ⟨_, hm, rfl⟩
  rw [hs.no_crash] at this
  exact Nat.lt_irrefl 0 this

theorem sem_bound_woken :
    woken_pool.workers = [WorkerPc.woken true] ∧ woken_pool.request_list = [0] ∧
      (woken_pool.sem + woken_pool.workers.countP WorkerPc.isWokenOk + woken_pool.main.owed ≤
          woken_pool.request_list.length ∧
        (∀ i : Nat, woken_pool.workers[i]? = some (WorkerPc.woken true) →
          woken_pool.request_list ≠ []) ∧
        WorkerPc.crashed ∉ woken_pool.workers) :=
  ⟨rfl, rfl, sem_bound_reachable woken_pool_reachable⟩

-- Under every interleaving `request_list` holds exactly the queued requests, once each,
-- and a request has a worker on it exactly when it is active, and then only one: `func`
-- never runs on a queued, cancelled, done or released request, nor twice at once.
theorem requests_reachable (h : Reachable s) :
    s.request_list.Nodup ∧ (∀ r, r ∈ s.request_list ↔ s.stateOf r = some THREAD_QUEUED) ∧
      ∀ r, s.workers.countP (WorkerPc.busyOn r) = if s.stateOf r = some THREAD_ACTIVE then 1 else 0 :=
  have hr := Requests.reachable h
  ⟨hr.queue_nodup, hr.queued, hr.busy⟩

theorem requests_running :
    running_pool.stateOf 0 = some THREAD_ACTIVE ∧
      (running_pool.request_list.Nodup ∧
        (∀ r, r ∈ running_pool.request_list ↔ running_pool.stateOf r = some THREAD_QUEUED) ∧
        ∀ r, running_pool.workers.countP (WorkerPc.busyOn r) =
          if running_pool.stateOf r = some THREAD_ACTIVE then 1 else 0) :=
  ⟨rfl, requests_reachable running_pool_reachable⟩

end Qemu.ThreadPool
