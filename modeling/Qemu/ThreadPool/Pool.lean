import Mathlib.Logic.Function.Basic
import Mathlib.Data.List.Basic

/-!
The block layer thread pool of `thread-pool.c`: worker threads and the main loop sharing
`request_list`, the semaphore `sem` and the counters under `lock`, and the main loop's list
`head` of every request not yet released.

A run interleaves the steps of the threads. Each region between `qemu_mutex_lock(&lock)`
and `qemu_mutex_unlock(&lock)` is one step, since the lock orders those regions; what the
code does outside the lock is a step of its own: a worker's `qemu_sem_timedwait`, the call
of `func`, the writes of `ret` and then `state` (ordered by `smp_wmb`), the main loop's
`qemu_sem_post` and each iteration of its scan of `head`. Accesses are sequentially
consistent, which the barriers give the pairs of accesses the code orders.

The semantics of the calls the code makes:
* `qemu_sem_timedwait(&sem, 0)` is `sem_trywait`: it takes the semaphore when its count is
  positive and fails otherwise. The worker's wait of ten seconds may time out at any time,
  which allows every run the timeout allows.
* `qemu_cond_wait` may return at any time; a return that finds the request still running
  changes nothing, and is not a step.
* `qemu_thread_create` adds a worker at the start of `worker_thread`; `qemu_bh_schedule`
  marks `new_thread_bh`, which the main loop then runs.
* A completion callback runs on the main thread; it may submit and cancel requests before
  it returns. It does not run the main loop itself.
-/

namespace Qemu.ThreadPool

inductive ThreadState
  | THREAD_QUEUED
  | THREAD_ACTIVE
  | THREAD_DONE
  | THREAD_CANCELED
  deriving DecidableEq, Repr

open ThreadState

-- A request. `func` and `arg` are left out: the value `func` returns is chosen by the step
-- that runs it. `cb` says whether `common.cb` is set.
structure ThreadPoolElement where
  state : ThreadState
  ret : Int
  cb : Bool
  deriving DecidableEq, Repr

def max_threads : Nat := 64

-- Where a worker thread is in `worker_thread`.
inductive WorkerPc
  -- created by `qemu_thread_create`, before its first `qemu_mutex_lock`
  | start
  -- in `qemu_sem_timedwait`, counted in `idle_threads`
  | waiting
  -- `qemu_sem_timedwait` returned `0` (`ok`) or `-1`; the lock is not yet taken again
  | woken (ok : Bool)
  -- in `req->func(req->arg)`
  | running (req : Nat)
  -- `req->ret` written, `req->state` not yet `THREAD_DONE`
  | returned (req : Nat)
  -- `req->state = THREAD_DONE` written; the lock is not yet taken again
  | finished
  | exited
  -- `QTAILQ_REMOVE` of the NULL `QTAILQ_FIRST` of an empty `request_list`
  | crashed
  deriving DecidableEq, Repr

-- Whose code the main thread runs when it is outside the pool: the main loop, or the
-- completion callback of a request.
inductive Ctx
  | top
  | callback (req : Nat)
  deriving DecidableEq, Repr

-- Where the main thread is.
inductive MainPc
  | ready (ctx : Ctx)
  -- `thread_pool_submit_aio` after `qemu_mutex_unlock`, before `qemu_sem_post`
  | posting (ctx : Ctx)
  -- `thread_pool_cancel` in `qemu_cond_wait`
  | cancelWait (req : Nat) (ctx : Ctx)
  -- `event_notifier_ready`'s `QLIST_FOREACH_SAFE`, with the elements left to visit
  | scanning (next : List Nat)
  deriving DecidableEq, Repr

-- What the rest of QEMU sees of a request: its submission, the call of `func` and the
-- value it returns, a cancellation that took it off the queue, the completion callback
-- with the value it is passed, `qemu_aio_release`, and the return of `thread_pool_cancel`.
inductive Event
  | submit (req : Nat) (cb : Bool)
  | funcStart (req : Nat)
  | funcRet (req : Nat) (ret : Int)
  | canceled (req : Nat)
  | callback (req : Nat) (ret : Int)
  | release (req : Nat)
  | cancelReturn (req : Nat)
  deriving DecidableEq, Repr

def Event.req : Event → Nat
  | .submit req _ | .funcStart req | .funcRet req _ | .canceled req | .callback req _
  | .release req | .cancelReturn req => req

-- The globals of `thread-pool.c`, the threads, and the events so far. A request is named by
-- its address; `elems` holds the element at each address `qemu_aio_get` handed out and
-- `qemu_aio_release` did not take back, and `next_addr` is the next fresh address. The
-- counters are `int` in the code and never negative.
structure Pool where
  elems : Nat → Option ThreadPoolElement
  next_addr : Nat
  head : List Nat
  request_list : List Nat
  cur_threads : Nat
  idle_threads : Nat
  new_threads : Nat
  pending_threads : Nat
  pending_cancellations : Nat
  sem : Nat
  notifier : Bool
  new_thread_bh : Bool
  workers : List WorkerPc
  main : MainPc
  trace : List Event

namespace Pool

def setState (s : Pool) (req : Nat) (st : ThreadState) : Pool :=
  { s with elems := Function.update s.elems req ((s.elems req).map fun e => { e with state := st }) }

def setRet (s : Pool) (req : Nat) (ret : Int) : Pool :=
  { s with elems := Function.update s.elems req ((s.elems req).map fun e => { e with ret := ret }) }

def setWorker (s : Pool) (i : Nat) (pc : WorkerPc) : Pool :=
  { s with workers := s.workers.set i pc }

def emit (s : Pool) (e : Event) : Pool :=
  { s with trace := s.trace ++ [e] }

end Pool

-- `thread_pool_init`.
def thread_pool_init : Pool where
  elems := fun _ => none
  next_addr := 0
  head := []
  request_list := []
  cur_threads := 0
  idle_threads := 0
  new_threads := 0
  pending_threads := 0
  pending_cancellations := 0
  sem := 0
  notifier := false
  new_thread_bh := false
  workers := []
  main := .ready .top
  trace := []

/-! ### Worker threads -/

-- Runs with `lock` taken.
def do_spawn_thread (s : Pool) : Pool :=
  if s.new_threads = 0 then s
  else { s with new_threads := s.new_threads - 1, pending_threads := s.pending_threads + 1,
                workers := s.workers ++ [.start] }

-- The first locked region of worker `i` in `worker_thread`: `pending_threads--;
-- do_spawn_thread();`, then the loop's `idle_threads++` before the unlock.
def worker_start (s : Pool) (i : Nat) : Pool :=
  let s := do_spawn_thread { s with pending_threads := s.pending_threads - 1 }
  { s with idle_threads := s.idle_threads + 1 }.setWorker i .waiting

-- The locked region after `qemu_sem_timedwait` returned `0` (`ok`) or `-1`: the end of the
-- `do ... while` loop, then the dequeue of the first request or the exit.
def worker_wake (s : Pool) (i : Nat) (ok : Bool) : Pool :=
  let s := { s with idle_threads := s.idle_threads - 1 }
  if ok then
    match s.request_list with
    | [] => s.setWorker i .crashed
    | req :: rest =>
      (({ s with request_list := rest }.setState req THREAD_ACTIVE).emit (.funcStart req)).setWorker
        i (.running req)
  else if s.request_list ≠ [] then
    -- `while (ret == -1 && !QTAILQ_EMPTY(&request_list))`: wait again
    { s with idle_threads := s.idle_threads + 1 }.setWorker i .waiting
  else
    { s with cur_threads := s.cur_threads - 1 }.setWorker i .exited

-- `smp_wmb(); req->state = THREAD_DONE;`
def worker_done (s : Pool) (i req : Nat) : Pool :=
  (s.setState req THREAD_DONE).setWorker i .finished

-- The locked region after `func`: `event_notifier_set(&notifier)`, then the loop's
-- `idle_threads++`. The broadcast of `check_cancel` changes no state, since `qemu_cond_wait`
-- may return anyway.
def worker_notify (s : Pool) (i : Nat) : Pool :=
  { s with notifier := true, idle_threads := s.idle_threads + 1 }.setWorker i .waiting

-- The step of worker `i` of `worker_thread` from where it is, but for the semaphore wait
-- and `func`.
def worker_thread (s : Pool) (i : Nat) : WorkerPc → Option Pool
  | .start => some (worker_start s i)
  | .woken ok => some (worker_wake s i ok)
  | .returned req => some (worker_done s i req)
  | .finished => some (worker_notify s i)
  | _ => none

-- `qemu_sem_timedwait(&sem, 10000)` returns `0`.
def sem_wait (s : Pool) (i : Nat) : Option Pool :=
  match s.workers[i]? with
  | some .waiting =>
    if 0 < s.sem then some ({ s with sem := s.sem - 1 }.setWorker i (.woken true)) else none
  | _ => none

-- `qemu_sem_timedwait(&sem, 10000)` returns `-1`.
def sem_timeout (s : Pool) (i : Nat) : Option Pool :=
  match s.workers[i]? with
  | some .waiting => some (s.setWorker i (.woken false))
  | _ => none

-- `ret = req->func(req->arg); req->ret = ret;`
def func_return (s : Pool) (i : Nat) (ret : Int) : Option Pool :=
  match s.workers[i]? with
  | some (.running req) => some (((s.setRet req ret).emit (.funcRet req ret)).setWorker i (.returned req))
  | _ => none

/-! ### The main thread -/

def spawn_thread (s : Pool) : Pool :=
  let s := { s with cur_threads := s.cur_threads + 1, new_threads := s.new_threads + 1 }
  if s.pending_threads = 0 then { s with new_thread_bh := true } else s

-- `thread_pool_submit_aio` up to `qemu_mutex_unlock`. `ret` is not read before `func`'s
-- value is stored, so the fresh element's is 0.
def thread_pool_submit_aio (s : Pool) (cb : Bool) : Option Pool :=
  match s.main with
  | .ready ctx =>
    let req := s.next_addr
    let s := ({ s with elems := Function.update s.elems req (some ⟨THREAD_QUEUED, 0, cb⟩),
                       next_addr := req + 1, head := req :: s.head }).emit (.submit req cb)
    let s := if s.idle_threads = 0 ∧ s.cur_threads < max_threads then spawn_thread s else s
    some { s with request_list := s.request_list ++ [req], main := .posting ctx }
  | _ => none

-- `qemu_sem_post(&sem)` at the end of `thread_pool_submit_aio`.
def sem_post (s : Pool) : Option Pool :=
  match s.main with
  | .posting ctx => some { s with sem := s.sem + 1, main := .ready ctx }
  | _ => none

-- `thread_pool_cancel` on a request still in `head`, up to its return or its first
-- `qemu_cond_wait`.
def thread_pool_cancel (s : Pool) (req : Nat) : Option Pool :=
  match s.main, s.elems req with
  | .ready ctx, some e =>
    if req ∉ s.head then none
    else if e.state = THREAD_QUEUED ∧ 0 < s.sem then
      -- the semaphore is taken with the lock held, so no worker can dequeue `req`
      some (((({ s with sem := s.sem - 1, request_list := s.request_list.erase req,
                         notifier := true }.setState req THREAD_CANCELED).emit
        (.canceled req)).emit (.cancelReturn req)))
    else if e.state = THREAD_CANCELED ∨ e.state = THREAD_DONE then
      -- `pending_cancellations++` and `--` around a loop that does not run
      some (s.emit (.cancelReturn req))
    else
      some { s with pending_cancellations := s.pending_cancellations + 1,
                    main := .cancelWait req ctx }
  | _, _ => none

-- `qemu_cond_wait` returns in `thread_pool_cancel` and the request is finished.
def cancel_wake (s : Pool) : Option Pool :=
  match s.main with
  | .cancelWait req ctx =>
    match s.elems req with
    | some e =>
      if e.state = THREAD_CANCELED ∨ e.state = THREAD_DONE then
        some ({ s with pending_cancellations := s.pending_cancellations - 1,
                       main := .ready ctx }.emit (.cancelReturn req))
      else none
    | none => none
  | _ => none

-- `event_notifier_ready` called by the main loop: `event_notifier_test_and_clear`, then
-- the scan of `head`.
def event_notifier_ready (s : Pool) : Option Pool :=
  match s.main with
  | .ready .top => some { s with notifier := false, main := .scanning s.head }
  | _ => none

-- One iteration of `QLIST_FOREACH_SAFE(elem, &head, all, next)` in `event_notifier_ready`.
def scan_step (s : Pool) : Option Pool :=
  match s.main with
  | .scanning [] => some { s with main := .ready .top }
  | .scanning (req :: next) =>
    match s.elems req with
    | some e =>
      if e.state ≠ THREAD_CANCELED ∧ e.state ≠ THREAD_DONE then
        some { s with main := .scanning next }
      else if e.state = THREAD_DONE ∧ e.cb then
        -- `QLIST_REMOVE`, then `elem->common.cb(elem->common.opaque, elem->ret)`
        some ({ s with head := s.head.erase req, main := .ready (.callback req) }.emit
          (.callback req e.ret))
      else
        -- `QLIST_REMOVE` and `qemu_aio_release`
        some ({ s with head := s.head.erase req, elems := Function.update s.elems req none,
                       main := .scanning next }.emit (.release req))
    | none => none
  | _ => none

-- The completion callback returns: `qemu_aio_release(elem)` and `goto restart`.
def callback_return (s : Pool) : Option Pool :=
  match s.main with
  | .ready (.callback req) =>
    some ({ s with elems := Function.update s.elems req none, main := .scanning s.head }.emit
      (.release req))
  | _ => none

-- The main loop runs the scheduled `new_thread_bh`.
def spawn_thread_bh_fn (s : Pool) : Option Pool :=
  if s.main = .ready .top ∧ s.new_thread_bh then
    some (do_spawn_thread { s with new_thread_bh := false })
  else none

/-! ### Runs -/

inductive Action
  | worker (i : Nat)
  | semWait (i : Nat)
  | semTimeout (i : Nat)
  | funcReturn (i : Nat) (ret : Int)
  | submit (cb : Bool)
  | semPost
  | cancel (req : Nat)
  | cancelWake
  | notify
  | scan
  | callbackReturn
  | bh
  deriving DecidableEq, Repr

-- The step a thread takes, `none` when that thread cannot take it.
def step (s : Pool) : Action → Option Pool
  | .worker i => s.workers[i]?.bind (worker_thread s i)
  | .semWait i => sem_wait s i
  | .semTimeout i => sem_timeout s i
  | .funcReturn i ret => func_return s i ret
  | .submit cb => thread_pool_submit_aio s cb
  | .semPost => sem_post s
  | .cancel req => thread_pool_cancel s req
  | .cancelWake => cancel_wake s
  | .notify => event_notifier_ready s
  | .scan => scan_step s
  | .callbackReturn => callback_return s
  | .bh => spawn_thread_bh_fn s

inductive Reachable : Pool → Prop
  | init : Reachable thread_pool_init
  | step {s s' : Pool} (a : Action) : Reachable s → step s a = some s' → Reachable s'

-- The actions `as` taken one after another from `s`, `none` when one of them cannot be taken.
def run (s : Pool) : List Action → Option Pool
  | [] => some s
  | a :: as => (step s a).bind fun s' => run s' as

/-! ### What a request's life should be -/

-- The life of one request as the pool's users may see it: submitted; then either taken
-- off the queue by `thread_pool_cancel`, or run by `func` once, which returns a value;
-- after that the completion callback, if there is one, is called once with that value;
-- last, the request is released once. `thread_pool_cancel` returns only once the request
-- was taken off the queue or `func` has returned.
inductive Life
  | fresh
  | queued (cb : Bool)
  | running (cb : Bool)
  | returned (cb : Bool) (ret : Int)
  | canceled
  | called
  | released
  deriving DecidableEq, Repr

def Life.next : Life → Event → Option Life
  | .fresh, .submit _ cb => some (.queued cb)
  | .queued cb, .funcStart _ => some (.running cb)
  | .queued _, .canceled _ => some .canceled
  | .running cb, .funcRet _ ret => some (.returned cb ret)
  | .returned true ret, .callback _ ret' => if ret = ret' then some .called else none
  | .returned false _, .release _ => some .released
  | .canceled, .release _ => some .released
  | .called, .release _ => some .released
  | .canceled, .cancelReturn _ => some .canceled
  | .returned cb ret, .cancelReturn _ => some (.returned cb ret)
  | _, _ => none

-- The life of `req` that the events of a run show, `none` when they are not a life.
def lifeOf (req : Nat) (trace : List Event) : Option Life :=
  (trace.filter (·.req == req)).foldlM Life.next .fresh

-- Whose completion callback the main thread is in.
def MainPc.callback : MainPc → Option Nat
  | .ready (.callback req) | .posting (.callback req) | .cancelWait _ (.callback req) => some req
  | _ => none

-- Where each request is in its life, read off the pool.
def Pool.life (s : Pool) (req : Nat) : Life :=
  match s.elems req with
  | none => if req < s.next_addr then .released else .fresh
  | some e =>
    match e.state with
    | THREAD_QUEUED => .queued e.cb
    | THREAD_CANCELED => .canceled
    | THREAD_ACTIVE => if WorkerPc.returned req ∈ s.workers then .returned e.cb e.ret else .running e.cb
    | THREAD_DONE => if s.main.callback = some req then .called else .returned e.cb e.ret

end Qemu.ThreadPool
