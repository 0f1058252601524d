import ZeroServ.Tasks.Sched
import ZeroServ.Lib.Simulate
import ZeroServ.Lib.Run

/-!
# The scheduler follows itself over other trees

Where the functions of two kinds of trees keep a relation of the trees, the scheduler keeps it too: over the first
trees it does whatever it does over the second ones (`exec_follows`).
-/

namespace ZeroServ.Tasks

open Simulate

variable {σ τ ρ υ : Type}

/-- The trees of the first kind do what those of the second kind do. -/
structure Ops.Follow (A : Ops σ) (B : Ops τ) (R : σ → τ → Prop) : Prop where
  linked : ∀ s a t, R s a → A.linked s t = B.linked a t
  key : ∀ s a t, R s a → A.key s t = B.key a t
  insert : ∀ s a t x, R s a → Follows R (A.insert s t x) (B.insert a t x)
  delete : ∀ s a t, R s a → Follows R (A.delete s t) (B.delete a t)
  first : ∀ s a, R s a → Follows (· = ·) (A.first s) (B.first a)
  next : ∀ s a t, R s a → Follows (· = ·) (A.next s t) (B.next a t)
  lookupGe : ∀ s a x, R s a → Follows (· = ·) (A.lookupGe s x) (B.lookupGe a x)

/-- Two schedulers are alike but for their trees, which are related. -/
structure Alike (R : σ → τ → Prop) (R' : ρ → υ → Prop) (s : Sched σ ρ) (a : Sched τ υ) : Prop where
  timers : R s.timers a.timers
  rqueue : R' s.rqueue a.rqueue
  expire : s.expire = a.expire
  nice : s.nice = a.nice
  calls : s.calls = a.calls
  runQueue : s.runQueue = a.runQueue
  nicedTasks : s.nicedTasks = a.nicedTasks
  rqueueTicks : s.rqueueTicks = a.rqueueTicks
  next : s.next = a.next

section

variable {W : Ops σ} {W' : Ops τ} {Q : Ops ρ} {Q' : Ops υ} {R : σ → τ → Prop} {R' : ρ → υ → Prop} (hW : W.Follow W' R)
    (hQ : Q.Follow Q' R')
  {s : Sched σ ρ} {a : Sched τ υ} (h : Alike R R' s a)

include h

theorem alike_setExpire (t : Nat) (date : Tick) : Alike R R' (s.setExpire t date) (a.setExpire t date) :=
  { h with expire := by rw [Sched.setExpire, Sched.setExpire, h.expire] }

theorem alike_called (t : Nat) : Alike R R' (s.called t) (a.called t) :=
  { h with calls := by rw [Sched.called, Sched.called, h.calls] }

theorem alike_next (next : Tick) : Alike R R' { s with next } { a with next } := { h with next := rfl }

include hQ

theorem rawTaskWakeup_follows (t : Nat) : Follows (Alike R R') (Raw.taskWakeup Q s t) (Raw.taskWakeup Q' a t) := by
  rw [Raw.taskWakeup, Raw.taskWakeup, h.runQueue, h.rqueueTicks, h.nice, h.nicedTasks]
  exact (hQ.insert _ _ t _ h.rqueue).bind fun _ _ hr =>
    .pure { h with rqueue := hr, nice := rfl, runQueue := rfl, nicedTasks := rfl, rqueueTicks := rfl }

theorem rawTaskUnlinkRq_follows (t : Nat) :
    Follows (Alike R R') (Raw.taskUnlinkRq Q s t) (Raw.taskUnlinkRq Q' a t) := by
  rw [Raw.taskUnlinkRq, Raw.taskUnlinkRq, h.runQueue, h.nice, h.nicedTasks]
  exact (hQ.delete _ _ t h.rqueue).bind fun _ _ hr =>
    .pure { h with rqueue := hr, nice := rfl, runQueue := rfl, nicedTasks := rfl }

theorem taskWakeup_follows (t : Nat) : Follows (Alike R R') (taskWakeup Q s t) (taskWakeup Q' a t) := by
  rw [taskWakeup, taskWakeup, hQ.linked _ _ t h.rqueue]
  exact .ite Iff.rfl (fun _ => .pure h) fun _ => rawTaskWakeup_follows hQ h t

theorem taskUnlinkRq_follows (t : Nat) : Follows (Alike R R') (taskUnlinkRq Q s t) (taskUnlinkRq Q' a t) := by
  rw [taskUnlinkRq, taskUnlinkRq, hQ.linked _ _ t h.rqueue]
  exact .ite Iff.rfl (fun _ => rawTaskUnlinkRq_follows hQ h t) fun _ => .pure h

omit hQ
include hW

theorem rawTaskUnlinkWq_follows (t : Nat) : Follows (Alike R R') (Raw.taskUnlinkWq W s t) (Raw.taskUnlinkWq W' a t) :=
  (hW.delete _ _ t h.timers).bind fun _ _ hr => .pure { h with timers := hr }

theorem taskUnlinkWq_follows (t : Nat) : Follows (Alike R R') (taskUnlinkWq W s t) (taskUnlinkWq W' a t) := by
  rw [taskUnlinkWq, taskUnlinkWq, hW.linked _ _ t h.timers]
  exact .ite Iff.rfl (fun _ => rawTaskUnlinkWq_follows hW h t) fun _ => .pure h

theorem rawTaskQueue_follows (t : Nat) : Follows (Alike R R') (Raw.taskQueue W s t) (Raw.taskQueue W' a t) := by
  refine (taskUnlinkWq_follows hW h t).bind fun s a h => ?_
  rw [h.expire]
  exact (hW.insert _ _ t _ h.timers).bind fun _ _ hr => .pure { h with timers := hr, expire := rfl }

theorem taskQueue_follows (t : Nat) : Follows (Alike R R') (taskQueue W s t) (taskQueue W' a t) := by
  rw [taskQueue, taskQueue, h.expire, hW.linked _ _ t h.timers, hW.key _ _ t h.timers]
  exact .ite Iff.rfl (fun _ => .pure h) fun _ => .ite Iff.rfl (fun _ => rawTaskQueue_follows hW h t) fun _ => .pure h

theorem requeue_follows (t : Nat) (expire : Tick) :
    Follows (fun p q => Alike R R' p.1 q.1 ∧ p.2 = q.2) (requeue W s t expire) (requeue W' a t expire) := by
  rw [requeue, requeue, h.expire]
  refine .ite Iff.rfl (fun _ => ?_) fun _ => .pure ⟨h, rfl⟩
  refine (taskQueue_follows hW h t).bind fun s a h => ?_
  rw [h.expire]
  exact .pure ⟨h, rfl⟩

include hQ

theorem taskDelete_follows (t : Nat) : Follows (Alike R R') (taskDelete W Q s t) (taskDelete W' Q' a t) :=
  (taskUnlinkWq_follows hW h t).bind fun _ _ h => taskUnlinkRq_follows hQ h t

theorem taskSchedule_follows (t : Nat) (when : Tick) :
    Follows (Alike R R') (taskSchedule W Q s t when) (taskSchedule W' Q' a t when) := by
  rw [taskSchedule, taskSchedule, hQ.linked _ _ t h.rqueue, hW.linked _ _ t h.timers, h.expire]
  refine .ite Iff.rfl (fun _ => .pure h) fun _ => ?_
  have h' := alike_setExpire h t (if W'.linked a.timers t then Tick.first when (a.expire t) else when)
  dsimp only
  rw [hW.linked _ _ t h'.timers, hW.key _ _ t h'.timers, h'.expire]
  exact .ite Iff.rfl (fun _ => rawTaskQueue_follows hW h' t) fun _ => .pure h'

theorem call_follows (c : Call) : Follows (Alike R R') (call W Q s c) (call W' Q' a c) := by
  cases c with
  | expire t date => exact .pure (alike_setExpire h t date)
  | queue t => exact taskQueue_follows hW h t
  | schedule t when => exact taskSchedule_follows hW hQ h t when
  | wakeup t => exact taskWakeup_follows hQ h t
  | delete t => exact taskDelete_follows hW hQ h t

theorem calls_follows (cs : List Call) : Follows (Alike R R') (calls W Q s cs) (calls W' Q' a cs) := by
  induction cs generalizing s a with
  | nil => exact .pure h
  | cons c cs ih => exact (call_follows hW hQ h c).bind fun _ _ h => ih h

end

theorem orFirst_follows {T : Ops σ} {T' : Ops τ} {R : σ → τ → Prop} (hT : T.Follow T' R) {s : σ} {a : τ} (h : R s a)
    (eb : Option Nat) :
    Follows (· = ·) (orFirst T s eb) (orFirst T' a eb) := by
  cases eb with
  | none => exact hT.first s a h
  | some eb => exact .pure rfl

section

variable {W : Ops σ} {W' : Ops τ} {Q : Ops ρ} {Q' : Ops υ} {R : σ → τ → Prop} {R' : ρ → υ → Prop} (hW : W.Follow W' R)
    (hQ : Q.Follow Q' R')

include hW hQ

theorem wakeLoop_follows (now : Tick) (n : Nat) {s : Sched σ ρ} {a : Sched τ υ} (h : Alike R R' s a) (eb : Option Nat) :
    Follows (Alike R R') (wakeLoop W Q now n s eb) (wakeLoop W' Q' now n a eb) := by
  induction n generalizing s a eb with
  | zero => exact .of_none
  | succ n ih =>
    rw [wakeLoop, wakeLoop]
    refine (orFirst_follows hW h.timers eb).bind_eq fun eb => ?_
    cases eb with
    | none => exact .pure (alike_next h 0)
    | some t =>
      dsimp only
      rw [hW.key _ _ t h.timers]
      refine .ite Iff.rfl (fun _ => .pure (alike_next h _)) fun _ => ?_
      refine (hW.next _ _ t h.timers).bind_eq fun eb => (rawTaskUnlinkWq_follows hW h t).bind fun s a h => ?_
      rw [h.expire]
      refine .ite Iff.rfl (fun _ => ?_) fun _ => (taskWakeup_follows hQ h t).bind fun _ _ h => ih h eb
      refine .ite Iff.rfl (fun _ => ih h eb) fun _ => (rawTaskQueue_follows hW h t).bind fun s a h => ?_
      have hkey : ∀ i, W.key s.timers i = W'.key a.timers i := fun i => hW.key _ _ i h.timers
      simp only [hkey]
      exact ih h _

theorem wakeExpiredTasks_follows (fuel : Nat) (now : Tick) {s : Sched σ ρ} {a : Sched τ υ} (h : Alike R R' s a) :
    Follows (Alike R R') (wakeExpiredTasks W Q fuel now s) (wakeExpiredTasks W' Q' fuel now a) :=
  (hW.lookupGe _ _ _ h.timers).bind_eq fun eb => wakeLoop_follows hW hQ now fuel h eb

omit hW in
theorem lookAgain_follows {s : Sched σ ρ} {a : Sched τ υ} (h : Alike R R' s a) (t : Nat) (eb : Option Nat) :
    Follows (· = ·) (lookAgain Q s t eb) (lookAgain Q' a t eb) := by
  have hkey : ∀ i, Q.key s.rqueue i = Q'.key a.rqueue i := fun i => hQ.key _ _ i h.rqueue
  rw [lookAgain, lookAgain, hQ.linked _ _ t h.rqueue, h.rqueueTicks]
  simp only [hkey]
  exact .ite Iff.rfl (fun _ => hQ.lookupGe _ _ _ h.rqueue) fun _ => .pure rfl

theorem processLoop_follows (process : Nat → Nat → List Call × Bool) (n i : Nat) {s : Sched σ ρ} {a : Sched τ υ}
    (h : Alike R R' s a) (eb : Option Nat) (expire : Tick) :
    Follows (Alike R R') (processLoop W Q process n i s eb expire) (processLoop W' Q' process n i a eb expire) := by
  induction n generalizing i s a eb expire with
  | zero => exact .pure (alike_next h expire)
  | succ n ih =>
    rw [processLoop, processLoop]
    refine (orFirst_follows hQ h.rqueue eb).bind_eq fun eb => ?_
    cases eb with
    | none => exact .pure (alike_next h expire)
    | some t =>
      refine (hQ.next _ _ t h.rqueue).bind_eq fun eb => (rawTaskUnlinkRq_follows hQ h t).bind fun s a h => ?_
      refine (calls_follows hW hQ (alike_called h t) _).bind fun s a h => ?_
      refine .ite Iff.rfl (fun _ => ?_) fun _ => ih (i + 1) h eb expire
      refine (requeue_follows hW h t expire).bind fun p q hpq => ?_
      obtain ⟨s, expire⟩ := p
      obtain ⟨a, expire'⟩ := q
      obtain ⟨h, rfl⟩ := hpq
      exact (lookAgain_follows hQ h t eb).bind_eq fun eb => ih (i + 1) h eb expire

theorem processRunnableTasks_follows (process : Nat → Nat → List Call × Bool) {s : Sched σ ρ} {a : Sched τ υ}
    (h : Alike R R' s a) :
    Follows (Alike R R') (processRunnableTasks W Q process s) (processRunnableTasks W' Q' process a) := by
  have hmax : maxProcessed s = maxProcessed a := by rw [maxProcessed, maxProcessed, h.runQueue, h.nicedTasks]
  rw [processRunnableTasks, processRunnableTasks, h.runQueue, hmax, h.rqueueTicks, h.next]
  exact .ite Iff.rfl (fun _ => .pure h) fun _ =>
    (hQ.lookupGe _ _ _ h.rqueue).bind_eq fun eb => processLoop_follows hW hQ process _ 0 h eb _

theorem step_follows (fuel : Nat) {s : Sched σ ρ} {a : Sched τ υ} (h : Alike R R' s a) (e : Event) :
    Follows (Alike R R') (step W Q fuel s e) (step W' Q' fuel a e) := by
  cases e with
  | turn now process => exact (wakeExpiredTasks_follows hW hQ fuel now h).bind fun _ _ h =>
      processRunnableTasks_follows hW hQ process h
  | call c => exact call_follows hW hQ h c

/-- A run over the trees of the second kind is one over those of the first kind. -/
theorem exec_follows (fuel : Nat) {s : Sched σ ρ} {a : Sched τ υ} (h : Alike R R' s a) (es : List Event) :
    Follows (Alike R R') (Run.exec (step W Q fuel) s es) (Run.exec (step W' Q' fuel) a es) := by
  induction es generalizing s a with
  | nil => exact .pure h
  | cons e es ih => exact (step_follows hW hQ fuel h e).bind fun _ _ h => ih h

end

end ZeroServ.Tasks
