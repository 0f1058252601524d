import ZeroServ.Ticks

/-!
# The scheduler over its trees

All of `task.c` and `task.h`, over the functions of the two trees that it calls (`Ops`): over the trees in memory
this is the program (`Tasks/Memory`), over sorted lists it is what the program means (`Tasks/Queues`). A task's
function is what it calls of `task.h`, and whether it returns its task or NULL.
-/

namespace ZeroServ.Tasks

/-- `TIMER_LOOK_BACK` -/
def timerLookBack : Tick := 2147483648

/-- What `task.c` does with a tree of tasks. An insertion sets the key of the node first. -/
structure Ops (σ : Type) where
  /-- `leaf_p` is not NULL -/
  linked : σ → Nat → Bool
  key : σ → Nat → Tick
  insert : σ → Nat → Tick → Option σ
  delete : σ → Nat → Option σ
  first : σ → Option (Option Nat)
  next : σ → Nat → Option (Option Nat)
  lookupGe : σ → Tick → Option (Option Nat)

/-- `timers` and `rqueue`, the fields of the tasks, the counters of `task.c`, and `next` of `proc_center`. -/
structure Sched (σ ρ : Type) where
  timers : σ
  rqueue : ρ
  expire : Nat → Tick
  nice : Nat → Int
  calls : Nat → Tick
  runQueue : Tick
  nicedTasks : Tick
  rqueueTicks : Tick
  next : Tick

variable {σ ρ : Type} (W : Ops σ) (Q : Ops ρ)

/-- The key that `__task_wakeup` gives a task. -/
def runKey (ticks runQueue : Tick) (nice : Int) : Tick :=
  if nice = 0 then ticks
  else if 0 < nice then ticks + runQueue * .ofInt 32 nice / 32
  else ticks - runQueue * .ofInt 32 (-nice) / 32

/-! ## `task.h`

`Raw` has the functions whose names begin with two underscores: their callers have tested whether the task is in the
tree. -/

namespace Raw

/-- `__task_wakeup` -/
def taskWakeup (s : Sched σ ρ) (t : Nat) : Option (Sched σ ρ) := do
  let runQueue := s.runQueue + 1
  let rqueueTicks := s.rqueueTicks + 1
  let rqueue ← Q.insert s.rqueue t (runKey rqueueTicks runQueue (s.nice t))
  pure { s with rqueue, runQueue, rqueueTicks, nicedTasks := if s.nice t ≠ 0 then s.nicedTasks + 1 else s.nicedTasks }

/-- `__task_unlink_wq` -/
def taskUnlinkWq (s : Sched σ ρ) (t : Nat) : Option (Sched σ ρ) := do
  let timers ← W.delete s.timers t
  pure { s with timers }

/-- `__task_unlink_rq` -/
def taskUnlinkRq (s : Sched σ ρ) (t : Nat) : Option (Sched σ ρ) := do
  let rqueue ← Q.delete s.rqueue t
  pure
    { s with
      rqueue, runQueue := s.runQueue - 1
      nicedTasks := if s.nice t ≠ 0 then s.nicedTasks - 1 else s.nicedTasks }

end Raw

/-- `task_unlink_wq` -/
def taskUnlinkWq (s : Sched σ ρ) (t : Nat) : Option (Sched σ ρ) :=
  if W.linked s.timers t then Raw.taskUnlinkWq W s t else some s

/-- `task_unlink_rq` -/
def taskUnlinkRq (s : Sched σ ρ) (t : Nat) : Option (Sched σ ρ) :=
  if Q.linked s.rqueue t then Raw.taskUnlinkRq Q s t else some s

/-- `__task_queue` -/
def Raw.taskQueue (s : Sched σ ρ) (t : Nat) : Option (Sched σ ρ) := do
  let s ← Tasks.taskUnlinkWq W s t
  let timers ← W.insert s.timers t (s.expire t)
  pure { s with timers }

/-- `task_wakeup` -/
def taskWakeup (s : Sched σ ρ) (t : Nat) : Option (Sched σ ρ) :=
  if Q.linked s.rqueue t then some s else Raw.taskWakeup Q s t

/-- `task_delete` -/
def taskDelete (s : Sched σ ρ) (t : Nat) : Option (Sched σ ρ) := do
  let s ← taskUnlinkWq W s t
  taskUnlinkRq Q s t

/-- `task_queue` -/
def taskQueue (s : Sched σ ρ) (t : Nat) : Option (Sched σ ρ) :=
  if !(s.expire t).isSet then some s
  else if !W.linked s.timers t || (s.expire t).isLt (W.key s.timers t) then Raw.taskQueue W s t
  else some s

def Sched.setExpire (s : Sched σ ρ) (t : Nat) (date : Tick) : Sched σ ρ :=
  { s with expire := Function.update s.expire t date }

/-- `task_schedule` -/
def taskSchedule (s : Sched σ ρ) (t : Nat) (when : Tick) : Option (Sched σ ρ) :=
  if Q.linked s.rqueue t then some s
  else
    let s := s.setExpire t (if W.linked s.timers t then Tick.first when (s.expire t) else when)
    if !W.linked s.timers t || (s.expire t).isLt (W.key s.timers t) then Raw.taskQueue W s t else some s

/-- What may be done with a task; `expire` is what its function does before it returns. -/
inductive Call where
  | expire (t : Nat) (date : Tick)
  | queue (t : Nat)
  | schedule (t : Nat) (when : Tick)
  | wakeup (t : Nat)
  | delete (t : Nat)
  deriving DecidableEq, Repr

def call (s : Sched σ ρ) : Call → Option (Sched σ ρ)
  | .expire t date => some (s.setExpire t date)
  | .queue t => taskQueue W s t
  | .schedule t when => taskSchedule W Q s t when
  | .wakeup t => taskWakeup Q s t
  | .delete t => taskDelete W Q s t

/-- What a function calls, one after the other. -/
def calls : Sched σ ρ → List Call → Option (Sched σ ρ)
  | s, [] => some s
  | s, c :: cs => (call W Q s c).bind fun s => calls s cs

/-! ## `task.c` -/

/-- Where `eb` has come to the end of a tree it goes on at the first node. -/
def orFirst {σ : Type} (T : Ops σ) (tree : σ) : Option Nat → Option (Option Nat)
  | some eb => some (some eb)
  | none => T.first tree

/-- The loop of `wake_expired_tasks`; `none` also where the fuel runs out. -/
def wakeLoop (now : Tick) : Nat → Sched σ ρ → Option Nat → Option (Sched σ ρ)
  | 0, _, _ => none
  | n + 1, s, eb => do
    let eb ← orFirst W s.timers eb
    match eb with
    | none => pure { s with next := 0 }
    | some t =>
      if now.isLt (W.key s.timers t) then pure { s with next := W.key s.timers t }
      else
        let eb ← W.next s.timers t
        let s ← Raw.taskUnlinkWq W s t
        if !(s.expire t).isExpired now then
          if !(s.expire t).isSet then wakeLoop now n s eb
          else
            let s ← Raw.taskQueue W s t
            -- a task that was put back before `eb` would be missed
            wakeLoop now n s (if eb.all fun eb => W.key s.timers t < W.key s.timers eb then some t else eb)
        else
          let s ← taskWakeup Q s t
          wakeLoop now n s eb

/-- `wake_expired_tasks` -/
def wakeExpiredTasks (fuel : Nat) (now : Tick) (s : Sched σ ρ) : Option (Sched σ ρ) := do
  let eb ← W.lookupGe s.timers (now - timerLookBack)
  wakeLoop W Q now fuel s eb

/-- `t->calls++` -/
def Sched.called (s : Sched σ ρ) (t : Nat) : Sched σ ρ := { s with calls := Function.update s.calls t (s.calls t + 1) }

/-- What is done with a task whose function has returned it; the state, and `expire`. -/
def requeue (s : Sched σ ρ) (t : Nat) (expire : Tick) : Option (Sched σ ρ × Tick) :=
  if s.expire t ≠ 0 then do
    let s ← taskQueue W s t
    pure (s, expire.firstTwoNz (s.expire t))
  else some (s, expire)

/-- Where a task has put itself back into the run queue `eb` may be too far. -/
def lookAgain (s : Sched σ ρ) (t : Nat) (eb : Option Nat) : Option (Option Nat) :=
  if Q.linked s.rqueue t && eb.all fun eb => (Q.key s.rqueue t).isLt (Q.key s.rqueue eb) then
    Q.lookupGe s.rqueue (s.rqueueTicks - timerLookBack)
  else some eb

/-- The loop of `process_runnable_tasks`, from its `i`-th step on: `process i t` is what the function of `t` calls
then, and whether it returns the task. -/
def processLoop (process : Nat → Nat → List Call × Bool) :
    Nat → Nat → Sched σ ρ → Option Nat → Tick → Option (Sched σ ρ)
  | 0, _, s, _, expire => some { s with next := expire }
  | n + 1, i, s, eb, expire => do
    let eb ← orFirst Q s.rqueue eb
    match eb with
    | none => pure { s with next := expire }
    | some t =>
      let eb ← Q.next s.rqueue t
      let s ← Raw.taskUnlinkRq Q s t
      let s ← calls W Q (s.called t) (process i t).1
      if (process i t).2 then
        let (s, expire) ← requeue W s t expire
        let eb ← lookAgain Q s t eb
        processLoop process n (i + 1) s eb expire
      else processLoop process n (i + 1) s eb expire

/-- `max_processed` -/
def maxProcessed (s : Sched σ ρ) : Nat :=
  let n := min s.runQueue.toNat 200
  if s.nicedTasks ≠ 0 then (n + 3) / 4 else n

/-- `process_runnable_tasks` -/
def processRunnableTasks (process : Nat → Nat → List Call × Bool) (s : Sched σ ρ) : Option (Sched σ ρ) :=
  if s.runQueue = 0 then some s
  else do
    let eb ← Q.lookupGe s.rqueue (s.rqueueTicks - timerLookBack)
    processLoop W Q process (maxProcessed s) 0 s eb s.next

/-- A turn of `proc_center` up to where it polls, or a call from elsewhere. -/
inductive Event where
  | turn (now : Tick) (process : Nat → Nat → List Call × Bool)
  | call (c : Call)

def step (fuel : Nat) (s : Sched σ ρ) : Event → Option (Sched σ ρ)
  | .turn now process => do
    let s ← wakeExpiredTasks W Q fuel now s
    processRunnableTasks W Q process s
  | .call c => call W Q s c

end ZeroServ.Tasks
