import Mathlib.Data.List.Count
import ZeroServ.Lib.EbTree
import ZeroServ.Lib.Run
import ZeroServ.Tasks.Sched

/-!
# The scheduler over sorted lists

What `task.c` means: the waiting tasks and those to run are lists in the order of their keys, and of their insertion
where the keys are equal. Over lists every call is carried out (`call_list`), and `process_runnable_tasks` comes to
its end as long as no function deletes the task of another one (`processRunnableTasks_list`); both keep the counters
right (`Good`).
-/

namespace ZeroServ.Tasks

open Run

/-- The tasks in a tree, in their order, and the keys. -/
structure Listed where
  list : List Nat
  key : Nat → Tick

namespace Listed

variable (a : Listed) (t : Nat) (x : Tick)

def insert : Listed := ⟨EbTree.insert (Function.update a.key t x) t a.list, Function.update a.key t x⟩

def delete : Listed := ⟨a.list.erase t, a.key⟩

/-- The task after another one. -/
def next : Option Nat := (a.list.dropWhile (· ≠ t)).tail.head?

end Listed

/-- The functions of a tree of the tasks below `n`. -/
def listOps (n : Nat) : Ops Listed where
  linked a t := t ∈ a.list
  key a := a.key
  insert a t x := if t < n ∧ t ∉ a.list then some (a.insert t x) else none
  delete a t := some (a.delete t)
  first a := some a.list.head?
  next a t := if t ∈ a.list then some (a.next t) else none
  lookupGe a x := some (EbTree.lookupGe a.key x a.list).rest.head?

/-- The scheduler over lists. -/
abbrev Queues := Sched Listed Listed

/-- No task is in a tree, and `task.c` is as it starts. -/
def Queues.init (key₁ key₂ expire : Nat → Tick) (nice : Nat → Int) : Queues :=
  { timers := ⟨[], key₁⟩, rqueue := ⟨[], key₂⟩, expire, nice, calls := fun _ => 0, runQueue := 0, nicedTasks := 0,
    rqueueTicks := 0, next := 0 }

variable {n : Nat} {a : Listed} {s s' : Queues} {t u : Nat} {x date now : Tick}

/-! ## Lists -/

theorem mem_insert : u ∈ (a.insert t x).list ↔ u = t ∨ u ∈ a.list := EbTree.mem_insert

theorem insert_perm (a : Listed) (t : Nat) (x : Tick) : (a.insert t x).list.Perm (t :: a.list) :=
  EbTree.insert_perm _ _ _

theorem nodup_insert (h : a.list.Nodup) (ht : t ∉ a.list) : (a.insert t x).list.Nodup :=
  (insert_perm a t x).nodup_iff.mpr (List.nodup_cons.mpr ⟨ht, h⟩)

theorem sorted_update {key : Nat → Tick} {l : List Nat} (h : EbTree.Sorted key l) (ht : t ∉ l) (x : Tick) :
    EbTree.Sorted (Function.update key t x) l := by
  refine h.imp_of_mem fun {u v} hu hv huv => ?_
  rwa [Function.update_of_ne (ne_of_mem_of_not_mem hu ht), Function.update_of_ne (ne_of_mem_of_not_mem hv ht)]

theorem next_split {p q : List Nat} (h : a.list = p ++ t :: q) (ht : t ∉ p) : a.next t = q.head? := by
  have hp : ∀ u ∈ p, decide (u ≠ t) = true := fun u hu => decide_eq_true (ne_of_mem_of_not_mem hu ht)
  rw [Listed.next, h, List.dropWhile_append_of_pos hp, List.dropWhile_cons_of_neg (by simp)]
  rfl

/-- The task after another one is in the list without it. -/
theorem mem_of_next (h : a.list.Nodup) (ht : t ∈ a.list) (hu : a.next t = some u) : u ∈ (a.delete t).list := by
  obtain ⟨p, q, hlist⟩ := List.append_of_mem ht
  have hp : t ∉ p := by
    intro hin
    rw [hlist] at h
    exact (List.nodup_append.mp h).2.2 t hin t List.mem_cons_self rfl
  rw [next_split hlist hp] at hu
  rw [Listed.delete, hlist, List.erase_append_right _ hp, List.erase_cons_head]
  exact List.mem_append_right _ (List.mem_of_head? hu)

/-! ## Every run goes on -/

/-- A list of tasks below `n`, in the order of their keys. -/
structure Bounded (n : Nat) (a : Listed) : Prop where
  sorted : EbTree.Sorted a.key a.list
  nodup : a.list.Nodup
  lt : ∀ t ∈ a.list, t < n

theorem Bounded.insert (h : Bounded n a) (ht : t < n) (hno : t ∉ a.list) (x : Tick) : Bounded n (a.insert t x) where
  sorted := (sorted_update h.sorted hno x).insert t
  nodup := nodup_insert h.nodup hno
  lt u hu := (mem_insert.mp hu).elim (fun heq => heq ▸ ht) (h.lt u)

theorem Bounded.delete (h : Bounded n a) (t : Nat) : Bounded n (a.delete t) where
  sorted := h.sorted.sublist List.erase_sublist
  nodup := h.nodup.erase t
  lt u hu := h.lt u (List.mem_of_mem_erase hu)

/-- What the functions leave: the tasks are below `n`, and the counters are right. -/
structure Good (n : Nat) (s : Queues) : Prop where
  timers : Bounded n s.timers
  rqueue : Bounded n s.rqueue
  runQueue : s.runQueue = .ofNat 32 s.rqueue.list.length
  nicedTasks : s.nicedTasks = .ofNat 32 (s.rqueue.list.countP fun t => s.nice t ≠ 0)

theorem good_init (n : Nat) (key₁ key₂ expire : Nat → Tick) (nice : Nat → Int) :
    Good n (Queues.init key₁ key₂ expire nice) :=
  ⟨⟨List.Pairwise.nil, List.nodup_nil, fun _ h => absurd h List.not_mem_nil⟩,
    ⟨List.Pairwise.nil, List.nodup_nil, fun _ h => absurd h List.not_mem_nil⟩, rfl, rfl⟩

theorem Good.of_rqueue (h : Good n s) (ht : Bounded n s'.timers) (hq : s'.rqueue = s.rqueue)
    (hr : s'.runQueue = s.runQueue) (hn : s'.nicedTasks = s.nicedTasks) (hnice : s'.nice = s.nice) : Good n s' where
  timers := ht
  rqueue := hq ▸ h.rqueue
  runQueue := by rw [hr, hq, h.runQueue]
  nicedTasks := by rw [hn, hq, hnice, h.nicedTasks]

namespace Queues

variable (s : Queues) (t : Nat)

/-- `__task_wakeup` -/
def woken : Queues :=
  { s with
    rqueue := s.rqueue.insert t (runKey (s.rqueueTicks + 1) (s.runQueue + 1) (s.nice t)), runQueue := s.runQueue + 1,
    rqueueTicks := s.rqueueTicks + 1, nicedTasks := if s.nice t ≠ 0 then s.nicedTasks + 1 else s.nicedTasks }

/-- `__task_unlink_rq` -/
def taken : Queues :=
  { s with
    rqueue := s.rqueue.delete t, runQueue := s.runQueue - 1,
    nicedTasks := if s.nice t ≠ 0 then s.nicedTasks - 1 else s.nicedTasks }

/-- `__task_unlink_wq` -/
def unqueued : Queues := { s with timers := s.timers.delete t }

/-- `__task_queue` -/
def queued : Queues := { s with timers := (s.timers.delete t).insert t (s.expire t) }

end Queues

theorem ofNat_succ (k : Nat) : BitVec.ofNat 32 (k + 1) = BitVec.ofNat 32 k + 1 := BitVec.ofNat_add ..

theorem delete_perm (ht : t ∈ a.list) : a.list.Perm (t :: (a.delete t).list) := List.perm_cons_erase ht

theorem rawTaskWakeup_list (ht : t < n) (hno : t ∉ s.rqueue.list) :
    Raw.taskWakeup (listOps n) s t = some (s.woken t) := by
  simp [Raw.taskWakeup, listOps, ht, hno, Queues.woken]

theorem rawTaskQueue_list (h : Good n s) (ht : t < n) : Raw.taskQueue (listOps n) s t = some (s.queued t) := by
  have hno : t ∉ (s.timers.delete t).list := h.timers.nodup.not_mem_erase
  by_cases hin : t ∈ s.timers.list
  · simp [Raw.taskQueue, taskUnlinkWq, Raw.taskUnlinkWq, listOps, hin, ht, hno, Queues.queued]
  · have hsame : s.timers.delete t = s.timers := by rw [Listed.delete, List.erase_of_not_mem hin]
    simp [Raw.taskQueue, taskUnlinkWq, listOps, hin, ht, Queues.queued, hsame]

theorem Good.woken (h : Good n s) (ht : t < n) (hno : t ∉ s.rqueue.list) : Good n (s.woken t) where
  timers := h.timers
  rqueue := h.rqueue.insert ht hno _
  runQueue := by
    rw [Queues.woken, (insert_perm _ t _).length_eq, List.length_cons, ofNat_succ, h.runQueue]
  nicedTasks := by
    rw [Queues.woken, (insert_perm _ t _).countP_eq, List.countP_cons, h.nicedTasks]
    by_cases hnice : s.nice t = 0
    · simp [hnice]
    · rw [if_pos hnice, if_pos (by simpa using hnice), ofNat_succ]

theorem Good.taken (h : Good n s) (hin : t ∈ s.rqueue.list) : Good n (s.taken t) where
  timers := h.timers
  rqueue := h.rqueue.delete t
  runQueue := by
    rw [Queues.taken, h.runQueue, (delete_perm hin).length_eq, List.length_cons, ofNat_succ]
    exact add_sub_cancel_right _ _
  nicedTasks := by
    rw [Queues.taken, h.nicedTasks, (delete_perm hin).countP_eq, List.countP_cons]
    by_cases hnice : s.nice t = 0
    · simp [hnice]
    · rw [if_pos hnice, if_pos (by simpa using hnice), ofNat_succ]
      exact add_sub_cancel_right _ _

theorem Good.unqueued (h : Good n s) (t : Nat) : Good n (s.unqueued t) :=
  h.of_rqueue (h.timers.delete t) rfl rfl rfl rfl

theorem Good.queued (h : Good n s) (ht : t < n) : Good n (s.queued t) :=
  h.of_rqueue ((h.timers.delete t).insert ht h.timers.nodup.not_mem_erase _) rfl rfl rfl rfl

theorem Good.setExpire (h : Good n s) (t : Nat) (date : Tick) : Good n (s.setExpire t date) :=
  h.of_rqueue h.timers rfl rfl rfl rfl

/-- The task of a call. -/
def Call.task : Call → Nat
  | .expire t _ | .queue t | .schedule t _ | .wakeup t | .delete t => t

/-- What `task_queue` does. -/
theorem taskQueue_list (h : Good n s) (ht : t < n) :
    ∃ s', taskQueue (listOps n) s t = some s' ∧ Good n s' ∧ (s' = s ∨ s' = s.queued t) := by
  rw [taskQueue]
  split
  · exact ⟨s, rfl, h, .inl rfl⟩
  · split
    · exact ⟨_, rawTaskQueue_list h ht, h.queued ht, .inr rfl⟩
    · exact ⟨s, rfl, h, .inl rfl⟩

theorem taskDelete_list (h : Good n s) (t : Nat) : ∃ s', taskDelete (listOps n) (listOps n) s t = some s' ∧ Good n s' ∧
    s'.rqueue = s.rqueue.delete t ∧ s'.timers = s.timers.delete t ∧ s'.rqueueTicks = s.rqueueTicks ∧ s'.nice = s.nice ∧
    s'.calls = s.calls ∧
      s'.expire = s.expire := by
  have hwq : taskUnlinkWq (listOps n) s t = some (s.unqueued t) := by
    by_cases hin : t ∈ s.timers.list
    · simp [taskUnlinkWq, Raw.taskUnlinkWq, listOps, hin, Queues.unqueued]
    · simp [taskUnlinkWq, listOps, hin, Queues.unqueued, Listed.delete, List.erase_of_not_mem hin]
  by_cases hin : t ∈ s.rqueue.list
  · have hrq : taskUnlinkRq (listOps n) (s.unqueued t) t = some ((s.unqueued t).taken t) := by
      simp [taskUnlinkRq, Raw.taskUnlinkRq, listOps, hin, Queues.unqueued, Queues.taken]
    refine ⟨(s.unqueued t).taken t, ?_, (h.unqueued t).taken hin, rfl, rfl, rfl, rfl, rfl, rfl⟩
    rw [taskDelete, hwq]
    exact hrq
  · have hrq : taskUnlinkRq (listOps n) (s.unqueued t) t = some (s.unqueued t) := by
      simp [taskUnlinkRq, listOps, hin, Queues.unqueued]
    refine ⟨s.unqueued t, ?_, h.unqueued t, ?_, rfl, rfl, rfl, rfl, rfl⟩
    · rw [taskDelete, hwq]
      exact hrq
    · rw [Listed.delete, List.erase_of_not_mem hin]
      rfl

/-- What a call does with the run queue. -/
inductive RunCase (s s' : Queues) : Call → Prop where
  | stay (c : Call) : s'.rqueue = s.rqueue → s'.rqueueTicks = s.rqueueTicks → RunCase s s' c
  | wakeup (t : Nat) : t ∉ s.rqueue.list → s'.rqueue = (s.woken t).rqueue → s'.rqueueTicks = s.rqueueTicks + 1 →
    RunCase s s' (.wakeup t)
  | delete (t : Nat) : s'.rqueue = s.rqueue.delete t → s'.rqueueTicks = s.rqueueTicks → RunCase s s' (.delete t)

/-- Every call for a task below `n` is carried out. -/
theorem call_list (h : Good n s) (c : Call) (hc : c.task < n) :
    ∃ s', call (listOps n) (listOps n) s c = some s' ∧ Good n s' ∧ s'.nice = s.nice ∧ s'.calls = s.calls ∧
      RunCase s s' c := by
  cases c with
  | expire t date => exact ⟨_, rfl, h.setExpire t date, rfl, rfl, .stay _ rfl rfl⟩
  | queue t =>
    obtain ⟨s', hrun, hgood, rfl | rfl⟩ := taskQueue_list h hc
    · exact ⟨_, hrun, hgood, rfl, rfl, .stay _ rfl rfl⟩
    · exact ⟨_, hrun, hgood, rfl, rfl, .stay _ rfl rfl⟩
  | schedule t when =>
    rw [call, taskSchedule]
    split
    · exact ⟨s, rfl, h, rfl, rfl, .stay _ rfl rfl⟩
    · generalize (if (listOps n).linked s.timers t then Tick.first when (s.expire t) else when) = when'
      have hset := h.setExpire t when'
      dsimp only
      split
      · exact ⟨_, rawTaskQueue_list hset hc, hset.queued hc, rfl, rfl, .stay _ rfl rfl⟩
      · exact ⟨_, rfl, hset, rfl, rfl, .stay _ rfl rfl⟩
  | wakeup t =>
    by_cases hin : t ∈ s.rqueue.list
    · refine ⟨s, ?_, h, rfl, rfl, .stay _ rfl rfl⟩
      simp [call, taskWakeup, listOps, hin]
    · refine ⟨s.woken t, ?_, h.woken hc hin, rfl, rfl, .wakeup t hin rfl rfl⟩
      rw [call, taskWakeup, if_neg (by simpa [listOps] using hin)]
      exact rawTaskWakeup_list hc hin
  | delete t =>
    obtain ⟨s', hrun, hgood, hq, -, hticks, hnice, hcalls, -⟩ := taskDelete_list h t
    exact ⟨s', hrun, hgood, hnice, hcalls, .delete t hq hticks⟩

/-- A task stays in the run queue until it is deleted. -/
theorem RunCase.mem {c : Call} (h : RunCase s s' c) (hu : u ∈ s.rqueue.list) (hc : c ≠ .delete u) :
    u ∈ s'.rqueue.list := by
  cases h with
  | stay c hq => rwa [hq]
  | wakeup t hno hq =>
    rw [hq]
    exact mem_insert.mpr (.inr hu)
  | delete t hq =>
    rw [hq]
    refine (List.mem_erase_of_ne ?_).mpr hu
    rintro rfl
    exact hc rfl

theorem calls_list (h : Good n s) (cs : List Call) (hcs : ∀ c ∈ cs, c.task < n) :
    ∃ s', calls (listOps n) (listOps n) s cs = some s' ∧ Good n s' ∧ ∀ u ∈ s.rqueue.list, (∀ c ∈ cs, c ≠ .delete u) →
      u ∈ s'.rqueue.list := by
  induction cs generalizing s with
  | nil => exact ⟨s, rfl, h, fun _ hu _ => hu⟩
  | cons c cs ih =>
    obtain ⟨hc, hcs⟩ := List.forall_mem_cons.mp hcs
    obtain ⟨s₁, hrun₁, hgood₁, -, -, hcase⟩ := call_list h c hc
    obtain ⟨s', hrun, hgood, hmem⟩ := ih hgood₁ hcs
    refine ⟨s', ?_, hgood, fun u hu hno => ?_⟩
    · rw [calls, hrun₁]
      exact hrun
    · obtain ⟨hno₁, hno⟩ := List.forall_mem_cons.mp hno
      exact hmem u (hcase.mem hu hno₁) hno

/-! ## `process_runnable_tasks` -/

/-- A function is given tasks below `n`, and deletes no task but its own. -/
def WellBehaved (n : Nat) (process : Nat → Nat → List Call × Bool) : Prop :=
  ∀ i t, ∀ c ∈ (process i t).1, c.task < n ∧ ∀ u, c = .delete u → u = t

theorem orFirst_list {eb : Option Nat} (heb : ∀ e, eb = some e → e ∈ a.list) :
    ∃ eb', orFirst (listOps n) a eb = some eb' ∧ ∀ e, eb' = some e → e ∈ a.list := by
  cases eb with
  | some e => exact ⟨some e, rfl, heb⟩
  | none => exact ⟨a.list.head?, rfl, fun e he => List.mem_of_head? he⟩

theorem lookAgain_list {eb : Option Nat} (heb : ∀ e, eb = some e → e ∈ s.rqueue.list) (t : Nat) :
    ∃ eb', lookAgain (listOps n) s t eb = some eb' ∧ ∀ e, eb' = some e → e ∈ s.rqueue.list := by
  rw [lookAgain]
  split
  · exact ⟨_, rfl, fun e he => (List.dropWhile_sublist _).subset (List.mem_of_head? he)⟩
  · exact ⟨eb, rfl, heb⟩

theorem requeue_list (h : Good n s) (ht : t < n) (expire : Tick) :
    ∃ s' expire', requeue (listOps n) s t expire = some (s', expire') ∧
    Good n s' ∧ s'.rqueue = s.rqueue ∧ s'.rqueueTicks = s.rqueueTicks ∧ s'.nice = s.nice ∧ s'.calls = s.calls := by
  rw [requeue]
  split
  · obtain ⟨s', hrun, hgood, hcases⟩ := taskQueue_list h ht
    refine ⟨s', expire.firstTwoNz (s'.expire t), ?_, hgood, ?_⟩
    · rw [hrun]
      rfl
    · rcases hcases with rfl | rfl
      · exact ⟨rfl, rfl, rfl, rfl⟩
      · exact ⟨rfl, rfl, rfl, rfl⟩
  · exact ⟨s, expire, rfl, h, rfl, rfl, rfl, rfl⟩

/-- A turn of the loop of `process_runnable_tasks`, at the task `t`: `s₂` is the state when its function has returned,
and the loop goes on with `s₃`, at `eb₃`. -/
structure RunStep (n : Nat) (process : Nat → Nat → List Call × Bool) (i : Nat) (s : Queues) (t : Nat) (expire : Tick)
    (s₂ s₃ : Queues) (eb₃ : Option Nat) (expire₃ : Tick) : Prop where
  calls : Tasks.calls (listOps n) (listOps n) ((s.taken t).called t) (process i t).1 = some s₂
  returned : Good n s₂
  goesOn : (process i t).2 = true ∧ requeue (listOps n) s₂ t expire = some (s₃, expire₃) ∧
      lookAgain (listOps n) s₃ t (s.rqueue.next t) = some eb₃ ∨
    (process i t).2 = false ∧ s₃ = s₂ ∧ eb₃ = s.rqueue.next t ∧ expire₃ = expire
  good : Good n s₃
  kept : s₃.rqueue = s₂.rqueue ∧ s₃.rqueueTicks = s₂.rqueueTicks ∧ s₃.nice = s₂.nice ∧ s₃.calls = s₂.calls
  mem : ∀ e, eb₃ = some e → e ∈ s₃.rqueue.list

section

variable {process : Nat → Nat → List Call × Bool} {i : Nat} {s₂ s₃ : Queues} {eb₃ : Option Nat} {expire expire₃ : Tick}

theorem runStep (hp : WellBehaved n process) (h : Good n s) (ht : t ∈ s.rqueue.list) (i : Nat) (expire : Tick) :
    ∃ s₂ s₃ eb₃ expire₃, RunStep n process i s t expire s₂ s₃ eb₃ expire₃ := by
  have hgood₁ : Good n ((s.taken t).called t) := (h.taken ht).of_rqueue (h.taken ht).timers rfl rfl rfl rfl
  obtain ⟨s₂, hcalls, hgood₂, hmem₂⟩ := calls_list hgood₁ (process i t).1 fun c hc => (hp i t c hc).1
  have heb₂ : ∀ e, s.rqueue.next t = some e → e ∈ s₂.rqueue.list := by
    intro e he
    have hin : e ∈ (s.rqueue.delete t).list := mem_of_next h.rqueue.nodup ht he
    refine hmem₂ e hin fun c hc hdel => ?_
    have heq := (hp i t c hc).2 e hdel
    rw [heq] at hin
    exact h.rqueue.nodup.not_mem_erase hin
  cases hret : (process i t).2 with
  | true =>
    obtain ⟨s₃, expire₃, hrequeue, hgood₃, hq₃, hkept⟩ := requeue_list hgood₂ (h.rqueue.lt t ht) expire
    rw [← hq₃] at heb₂
    obtain ⟨eb₃, hlook, heb₃⟩ := lookAgain_list (n := n) heb₂ t
    exact ⟨s₂, s₃, eb₃, expire₃, hcalls, hgood₂, .inl ⟨hret, hrequeue, hlook⟩, hgood₃, ⟨hq₃, hkept⟩, heb₃⟩
  | false =>
    exact ⟨s₂, s₂, _, expire, hcalls, hgood₂, .inr ⟨hret, rfl, rfl, rfl⟩, hgood₂, ⟨rfl, rfl, rfl, rfl⟩, heb₂⟩

theorem RunStep.loop (hs : RunStep n process i s t expire s₂ s₃ eb₃ expire₃) (ht : t ∈ s.rqueue.list)
    {eb : Option Nat} (hfirst : orFirst (listOps n) s.rqueue eb = some (some t)) (k : Nat) :
    processLoop (listOps n) (listOps n) process (k + 1) i s eb expire =
      processLoop (listOps n) (listOps n) process k (i + 1) s₃ eb₃ expire₃ := by
  have hnext : (listOps n).next s.rqueue t = some (s.rqueue.next t) := if_pos ht
  have htaken : Raw.taskUnlinkRq (listOps n) s t = some (s.taken t) := rfl
  rw [processLoop, hfirst]
  simp only [Option.bind_eq_bind, Option.bind_some, hnext, htaken, hs.calls]
  rcases hs.goesOn with ⟨hret, hrequeue, hlook⟩ | ⟨hret, rfl, rfl, rfl⟩
  · rw [if_pos hret]
    simp only [hrequeue, Option.bind_some, hlook]
  · rw [if_neg (by simp [hret])]

/-- The loop of `process_runnable_tasks` comes to its end. -/
theorem processLoop_list (hp : WellBehaved n process) (k i : Nat) (h : Good n s) {eb : Option Nat}
    (heb : ∀ e, eb = some e → e ∈ s.rqueue.list) (expire : Tick) :
    ∃ s', processLoop (listOps n) (listOps n) process k i s eb expire = some s' ∧ Good n s' := by
  induction k generalizing i s eb expire with
  | zero => exact ⟨_, rfl, h.of_rqueue h.timers rfl rfl rfl rfl⟩
  | succ k ih =>
    obtain ⟨eb₁, horfirst, heb₁⟩ := orFirst_list (n := n) heb
    cases eb₁ with
    | none =>
      rw [processLoop, horfirst]
      exact ⟨_, rfl, h.of_rqueue h.timers rfl rfl rfl rfl⟩
    | some t =>
      obtain ⟨s₂, s₃, eb₃, expire₃, hstep⟩ := runStep hp h (heb₁ t rfl) i expire
      rw [hstep.loop (heb₁ t rfl) horfirst]
      exact ih (i + 1) hstep.good hstep.mem expire₃

end

theorem processRunnableTasks_list {process : Nat → Nat → List Call × Bool} (hp : WellBehaved n process) (h : Good n s) :
    ∃ s', processRunnableTasks (listOps n) (listOps n) process s = some s' ∧ Good n s' := by
  rw [processRunnableTasks]
  split
  · exact ⟨s, rfl, h⟩
  · exact processLoop_list hp _ 0 h (fun e he => (List.dropWhile_sublist _).subset (List.mem_of_head? he)) s.next

end ZeroServ.Tasks
