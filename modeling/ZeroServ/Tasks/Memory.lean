import ZeroServ.Ebtree.Duplicates
import ZeroServ.Ebtree.Runs
import ZeroServ.Tasks.Simulation
import ZeroServ.Tasks.Wake

/-!
# The scheduler in memory

`task.c` over the trees of `ebtree` in memory, with `last_timer`. A run over memory does what the run over sorted
lists does (`run_lists`): the short cut through `last_timer` puts a task where `eb32_insert` would, and `last_timer`
never leads to a task that is not in the wait queue (`last_timer_waits`).
-/

namespace ZeroServ.Tasks

open Ebtree Simulate Run

/-- `timers` and `last_timer`. -/
structure WaitQueue where
  tree : Mem
  lastTimer : Option Nat

/-- The duplicates of the date of a task can be put below the task queued last. -/
def takesDup (m : Mem) (t last : Nat) : Bool := m.bit last < 0 ∧ m.key last = m.key t ∧ m.nodeP last ≠ null

/-- `__task_queue`, for a task that is not in the queue now. -/
def WaitQueue.insert (fuel : Nat) (q : WaitQueue) (t : Nat) (expire : Tick) : Option WaitQueue :=
  let m := q.tree.setKey t expire
  match q.lastTimer.filter (takesDup m t) with
  | some last => do
    let m ← ebInsertDup m fuel last t
    pure { tree := m, lastTimer := if m.bit t < m.bit last then some t else q.lastTimer }
  | none => do
    let (m, _) ← eb32Insert m fuel t
    -- not a task without a node
    pure
      { tree := m
        lastTimer := if m.nodeP t ≠ null ∧ q.lastTimer.all (fun last => m.bit t < m.bit last) then some t
          else q.lastTimer }

/-- `__task_unlink_wq` -/
def WaitQueue.delete (q : WaitQueue) (t : Nat) : Option WaitQueue := do
  let tree ← ebDelete q.tree t
  pure { tree, lastTimer := if q.lastTimer = some t then none else q.lastTimer }

/-- The wait queue of `n` tasks. -/
def waitOps (n : Nat) : Ops WaitQueue where
  linked q t := q.tree.leafP t ≠ null
  key q := q.tree.key
  insert q t x := q.insert n t x
  delete q t := q.delete t
  first q := ebFirst q.tree (n + 1)
  next q t := ebNext q.tree (n + 1) t
  lookupGe q x := eb32LookupGe q.tree n x

/-- The run queue of `n` tasks. -/
def runOps (n : Nat) : Ops Mem where
  linked m t := m.leafP t ≠ null
  key m := m.key
  insert m t x := (eb32Insert (m.setKey t x) n t).map Prod.fst
  delete m t := ebDelete m t
  first m := ebFirst m (n + 1)
  next m t := ebNext m (n + 1) t
  lookupGe m x := eb32LookupGe m n x

/-- The scheduler in memory. -/
abbrev Memory := Sched WaitQueue Mem

/-- The memory when `task.c` starts: no task is in a tree, their other fields are what they are. -/
def Memory.init (key₁ key₂ expire : Nat → Tick) (nice : Nat → Int) : Memory :=
  { timers := ⟨.init key₁, none⟩, rqueue := .init key₂, expire, nice, calls := fun _ => 0, runQueue := 0,
    nicedTasks := 0, rqueueTicks := 0,
    next := 0 }

variable {n : Nat} {q : WaitQueue} {m m' : Mem} {a : Listed} {t u : Nat} {x : Tick}

/-! ## The trees do what lists do -/

/-- The memory holds a tree of the tasks of the list. -/
structure HoldsList (n : Nat) (m : Mem) (a : Listed) : Prop where
  holds : Holds m a.list
  key : m.key = a.key
  lt : ∀ t ∈ a.list, t < n

/-- So does the wait queue, and `last_timer` can be used. -/
structure HoldsTimers (n : Nat) (q : WaitQueue) (a : Listed) : Prop extends HoldsList n q.tree a where
  last : LastOk q.tree a.list q.lastTimer

theorem HoldsList.length_le (h : HoldsList n m a) : a.list.length ≤ n := EbTree.length_le_of_lt h.holds.lists.nodup h.lt

theorem HoldsList.linked (h : HoldsList n m a) (t : Nat) : decide (m.leafP t ≠ null) = decide (t ∈ a.list) := by
  rw [decide_eq_decide, ne_eq, h.holds.leafP_eq_null, not_not]

theorem HoldsList.insert (h : HoldsList n m a) (hm : Holds m' (EbTree.insert (m.setKey t x).key t a.list))
    (hkey : m'.key = (m.setKey t x).key) (ht : t < n) : HoldsList n m' (a.insert t x) := by
  have hkeys : (m.setKey t x).key = Function.update a.key t x := by
    rw [← h.key]
    rfl
  rw [hkeys] at hm hkey
  exact ⟨hm, hkey, fun u hu => (mem_insert.mp hu).elim (fun heq => heq ▸ ht) (h.lt u)⟩

theorem HoldsList.delete (h : HoldsList n m a) (hm : Holds m' (a.list.erase t)) (hkey : m'.key = m.key) :
    HoldsList n m' (a.delete t) :=
  ⟨hm, hkey.trans h.key, fun u hu => h.lt u (List.mem_of_mem_erase hu)⟩

theorem HoldsList.first (h : HoldsList n m a) : ebFirst m (n + 1) = some a.list.head? :=
  ebFirst_spec h.holds.lists (Nat.lt_succ_of_le h.length_le)

theorem HoldsList.next (h : HoldsList n m a) (ht : t ∈ a.list) : ebNext m (n + 1) t = some (a.next t) := by
  obtain ⟨p, s, hlist⟩ := List.append_of_mem ht
  have hlists := h.holds.lists
  have hlen := h.length_le
  have hp : t ∉ p := by
    have hnodup := hlists.nodup
    rw [hlist] at hnodup
    exact fun hin => (List.nodup_append.mp hnodup).2.2 t hin t List.mem_cons_self rfl
  rw [next_split hlist hp]
  rw [hlist] at hlists hlen
  exact ebNext_spec hlists (Nat.lt_succ_of_le hlen)

theorem HoldsList.lookupGe (h : HoldsList n m a) (x : Tick) :
    eb32LookupGe m n x = some (EbTree.lookupGe a.key x a.list).rest.head? := by
  rw [eb32LookupGe_spec h.holds.lists x h.length_le, h.key]

/-- The run queue is a list. -/
theorem runOps_follow (n : Nat) : (runOps n).Follow (listOps n) (HoldsList n) where
  linked _ _ t h := h.linked t
  key _ _ t h := congrFun h.key t
  insert m a t x h := by
    intro a' ha
    obtain ⟨⟨ht, hno⟩, rfl⟩ : (t < n ∧ t ∉ a.list) ∧ a.insert t x = a' := by simpa [listOps] using ha
    obtain ⟨m', hrun, hholds, hkey⟩ := eb32Insert_spec (h.holds.setKey hno x) hno h.length_le
    exact ⟨m', by simp [runOps, hrun], h.insert hholds hkey ht⟩
  delete m a t h := by
    intro a' ha
    obtain rfl := Option.some.inj ha
    obtain ⟨m', hrun, hholds, hkey⟩ := ebDelete_spec h.holds t
    exact ⟨m', hrun, h.delete hholds hkey⟩
  first m a h := .of_eq fun r hr => h.first.trans hr
  next m a t h := by
    refine .of_eq fun r hr => ?_
    obtain ⟨ht, hr⟩ : t ∈ a.list ∧ a.next t = r := by simpa [listOps] using hr
    exact (h.next ht).trans (congrArg some hr)
  lookupGe m a x h := .of_eq fun r hr => (h.lookupGe x).trans hr

/-- `__task_queue` puts a task behind those whose date is not after its own, through `last_timer` or not. -/
theorem insert_follows (h : HoldsTimers n q a) (ht : t < n) (hno : t ∉ a.list) (x : Tick) :
    ∃ q', q.insert n t x = some q' ∧ HoldsTimers n q' (a.insert t x) := by
  have hholds := h.holds.setKey hno x
  have hlast := h.last.eqOff hno (eqOff_setKey q.tree t x)
  have hlen := h.length_le
  have hkeys : (q.tree.setKey t x).key = Function.update a.key t x := by
    rw [← h.key]
    rfl
  rw [WaitQueue.insert]
  dsimp only
  cases hfilter : q.lastTimer.filter (takesDup (q.tree.setKey t x) t) with
  | some last =>
    -- below the task queued last
    obtain ⟨hq, htakes⟩ := Option.filter_eq_some_iff.mp hfilter
    obtain ⟨hbit, hkey, hp⟩ := of_decide_eq_true htakes
    obtain ⟨m', hrun, hholds', hkey', hlast'⟩ := insertDup_last hholds (hq ▸ hlast) hno hbit hkey hp hlen
    refine ⟨⟨m', if m'.bit t < m'.bit last then some t else q.lastTimer⟩, by dsimp only; rw [hrun]; rfl,
      h.toHoldsList.insert hholds' hkey' ht, ?_⟩
    rw [hkeys] at hlast'
    rw [hq]
    exact hlast'
  | none =>
    have hnot : ∀ i, q.lastTimer = some i → ¬((q.tree.setKey t x).bit i < 0 ∧
        (q.tree.setKey t x).key i = (q.tree.setKey t x).key t ∧
        (q.tree.setKey t x).nodeP i ≠ null) := by
      intro i hi htakes
      have hpos : takesDup (q.tree.setKey t x) t i = true := decide_eq_true htakes
      rw [hi, Option.filter_some_pos hpos] at hfilter
      exact Option.some_ne_none i hfilter
    obtain ⟨m', hrun, hholds', hkey', hold, hnew⟩ := insert_last hholds hlast hno hnot hlen
    refine ⟨⟨m', if m'.nodeP t ≠ null ∧ q.lastTimer.all (fun last => m'.bit t < m'.bit last) then some t
      else q.lastTimer⟩, by dsimp only; rw [hrun]; rfl, h.toHoldsList.insert hholds' hkey' ht, ?_⟩
    rw [hkeys] at hold hnew
    dsimp only
    split
    · exact hnew
    · exact hold

/-- The wait queue is a list. -/
theorem waitOps_follow (n : Nat) : (waitOps n).Follow (listOps n) (HoldsTimers n) where
  linked _ _ t h := h.toHoldsList.linked t
  key _ _ t h := congrFun h.key t
  insert q a t x h := by
    intro a' ha
    obtain ⟨⟨ht, hno⟩, rfl⟩ : (t < n ∧ t ∉ a.list) ∧ a.insert t x = a' := by simpa [listOps] using ha
    exact insert_follows h ht hno x
  delete q a t h := by
    intro a' ha
    obtain rfl := Option.some.inj ha
    obtain ⟨m', hrun, hholds, hkey, hlast⟩ := delete_last h.holds h.last t
    refine ⟨⟨m', if q.lastTimer = some t then none else q.lastTimer⟩, ?_, h.toHoldsList.delete hholds hkey, hlast⟩
    simp [waitOps, WaitQueue.delete, hrun]
  first m a h := .of_eq fun r hr => h.toHoldsList.first.trans hr
  next m a t h := by
    refine .of_eq fun r hr => ?_
    obtain ⟨ht, hr⟩ : t ∈ a.list ∧ a.next t = r := by simpa [listOps] using hr
    exact (h.toHoldsList.next ht).trans (congrArg some hr)
  lookupGe m a x h := .of_eq fun r hr => (h.toHoldsList.lookupGe x).trans hr

/-! ## Runs -/

/-- An event in memory; as many steps as there are tasks are enough for the loops over them. -/
abbrev memStep (n : Nat) : Memory → Event → Option Memory := step (waitOps n) (runOps n) (n + 1)

/-- An event over lists. -/
abbrev listStep (n : Nat) : Queues → Event → Option Queues := step (listOps n) (listOps n) (n + 1)

/-- The memory holds what the lists say. -/
abbrev Means (n : Nat) : Memory → Queues → Prop := Alike (HoldsTimers n) (HoldsList n)

variable {key₁ key₂ expire : Nat → Tick} {nice : Nat → Int} {es : List Event} {s s' : Memory} {r r' : Queues}
    {now : Tick}

theorem holdsList_init (n : Nat) (key : Nat → Tick) : HoldsList n (.init key) ⟨[], key⟩ :=
  ⟨holds_init key, rfl, fun _ h => absurd h List.not_mem_nil⟩

theorem means_init (n : Nat) (key₁ key₂ expire : Nat → Tick) (nice : Nat → Int) :
    Means n (.init key₁ key₂ expire nice) (.init key₁ key₂ expire nice) :=
  ⟨⟨holdsList_init n key₁, lastOk_none _ _⟩, holdsList_init n key₂, rfl, rfl, rfl, rfl, rfl, rfl, rfl⟩

/-- Every run comes to its end, in memory and over lists alike. -/
theorem reached (key₁ key₂ expire : Nat → Tick) (nice : Nat → Int) (hes : ∀ e ∈ es, e.Allowed n) : ∃ s r,
    exec (memStep n) (.init key₁ key₂ expire nice) es = some s ∧
    exec (listStep n) (.init key₁ key₂ expire nice) es = some r ∧
      Means n s r ∧ Good n r := by
  obtain ⟨r, hlist, hgood⟩ := exec_list (good_init n key₁ key₂ expire nice) es hes
  obtain ⟨s, hmem, hmeans⟩ :=
    exec_follows (waitOps_follow n) (runOps_follow n) (n + 1) (means_init n key₁ key₂ expire nice) es r hlist
  exact ⟨s, r, hmem, hlist, hmeans, hgood⟩

/-- Three tasks at one date, and one that is to run. -/
def oneDate : List Event := [.call (.schedule 2 5), .call (.schedule 0 5), .call (.schedule 1 5), .call (.wakeup 3)]

theorem oneDate_allowed : ∀ e ∈ oneDate, e.Allowed 4 := by simp [oneDate, Event.Allowed, Call.task]

/-- Over the trees in memory, with the short cut through `last_timer`, the scheduler does what it does over sorted
lists: it comes to the end of every run, and the walks through its trees meet the tasks of the lists. -/
theorem run_lists (n : Nat) (key₁ key₂ expire : Nat → Tick) (nice : Nat → Int) (es : List Event)
    (hes : ∀ e ∈ es, e.Allowed n) : ∃ s r,
    exec (memStep n) (.init key₁ key₂ expire nice) es = some s ∧
    exec (listStep n) (.init key₁ key₂ expire nice) es = some r ∧
      entries s.timers.tree (n + 1) = some r.timers.list ∧ entries s.rqueue (n + 1) = some r.rqueue.list ∧
      s.timers.tree.key = r.timers.key ∧ s.rqueue.key = r.rqueue.key ∧ s.expire = r.expire ∧ s.calls = r.calls ∧
      s.next = r.next := by
  obtain ⟨s, r, hmem, hlist, hmeans, -⟩ := reached key₁ key₂ expire nice hes
  exact ⟨s, r, hmem, hlist, entries_spec hmeans.timers.holds.lists (Nat.lt_succ_of_le hmeans.timers.length_le),
    entries_spec hmeans.rqueue.holds.lists (Nat.lt_succ_of_le hmeans.rqueue.length_le), hmeans.timers.key,
    hmeans.rqueue.key, hmeans.expire, hmeans.calls, hmeans.next⟩

theorem run_lists_four : ∃ s, exec (memStep 4)
    (.init (fun _ => 0) (fun _ => 0) (fun _ => 0) fun _ => 0) oneDate = some s ∧
    entries s.timers.tree 5 = some [2, 0, 1] ∧ entries s.rqueue 5 = some [3] := by
  obtain ⟨s, r, hs, hr, hw, hq, -⟩ :=
    run_lists 4 (fun _ => 0) (fun _ => 0) (fun _ => 0) (fun _ => 0) oneDate oneDate_allowed
  have hlists : (exec (listStep 4) (.init (fun _ => 0) (fun _ => 0) (fun _ => 0) fun _ => 0) oneDate).map
      (fun r => (r.timers.list, r.rqueue.list)) = some ([2, 0, 1], [3]) := by decide
  rw [hr] at hlists
  obtain ⟨hw', hq'⟩ := Prod.mk.inj (Option.some.inj hlists)
  exact ⟨s, hs, hw.trans (congrArg some hw'), hq.trans (congrArg some hq')⟩

/-- `last_timer` is NULL or a task that is in the wait queue. -/
theorem last_timer_waits (n : Nat) (key₁ key₂ expire : Nat → Tick) (nice : Nat → Int) (es : List Event)
    (hes : ∀ e ∈ es, e.Allowed n) :
    ∃ s, exec (memStep n) (.init key₁ key₂ expire nice) es = some s ∧ ∀ last, s.timers.lastTimer = some last →
      s.timers.tree.leafP last ≠ null := by
  obtain ⟨s, r, hmem, -, hmeans, -⟩ := reached key₁ key₂ expire nice hes
  refine ⟨s, hmem, fun last hlast => ?_⟩
  rw [ne_eq, hmeans.timers.holds.leafP_eq_null, not_not]
  exact (hmeans.timers.last last hlast).1

theorem last_timer_waits_four : ∃ s, exec (memStep 4)
    (.init (fun _ => 0) (fun _ => 0) (fun _ => 0) fun _ => 0) oneDate = some s ∧
    ∀ last, s.timers.lastTimer = some last → s.timers.tree.leafP last ≠ null :=
  last_timer_waits 4 _ _ _ _ oneDate oneDate_allowed

/-- `run_queue` and `niced_tasks` count the tasks that are in the run queue. -/
theorem counters_right (n : Nat) (key₁ key₂ expire : Nat → Tick) (nice : Nat → Int) (es : List Event)
    (hes : ∀ e ∈ es, e.Allowed n) :
    ∃ s l, exec (memStep n) (.init key₁ key₂ expire nice) es = some s ∧ entries s.rqueue (n + 1) = some l ∧
      s.runQueue = .ofNat 32 l.length ∧ s.nicedTasks = .ofNat 32 (l.countP fun t => s.nice t ≠ 0) := by
  obtain ⟨s, r, hmem, -, hmeans, hgood⟩ := reached key₁ key₂ expire nice hes
  refine ⟨s, r.rqueue.list, hmem, entries_spec hmeans.rqueue.holds.lists
    (Nat.lt_succ_of_le hmeans.rqueue.length_le), ?_, ?_⟩
  · rw [hmeans.runQueue, hgood.runQueue]
  · rw [hmeans.nicedTasks, hgood.nicedTasks, hmeans.nice]

theorem counters_right_four : ∃ s l, exec (memStep 4)
    (.init (fun _ => 0) (fun _ => 0) (fun _ => 0) fun _ => 0) oneDate = some s ∧
    entries s.rqueue 5 = some l ∧ s.runQueue = .ofNat 32 l.length ∧
    s.nicedTasks = .ofNat 32 (l.countP fun t => s.nice t ≠ 0) :=
  counters_right 4 _ _ _ _ oneDate oneDate_allowed

/-! ## `wake_expired_tasks` in memory -/

section

variable {σ τ ρ υ : Type} {W : Ops σ} {W' : Ops τ} {Q : Ops ρ} {Q' : Ops υ} {R : σ → τ → Prop} {R' : ρ → υ → Prop}
    {s s' : Sched σ ρ}
  {r r' : Sched τ υ}

theorem Woke.of_alike (hW : W.Follow W' R) (hQ : Q.Follow Q' R') (h : Alike R R' s r) (h' : Alike R R' s' r')
    (hw : Woke W' Q' now r r') :
    Woke W Q now s s' where
  expire := by rw [h'.expire, hw.expire, h.expire]
  nice := by rw [h'.nice, hw.nice, h.nice]
  calls := by rw [h'.calls, hw.calls, h.calls]
  waiting := by
    intro t ht
    have hl := hW.linked _ _ t h'.timers
    have hk := hW.key _ _ t h'.timers
    have hq := hQ.linked _ _ t h'.rqueue
    rw [hW.linked _ _ t h.timers] at ht
    cases hw.waiting t ht with
    | stays hl' hk' hq' =>
      exact .stays (hl.trans hl') (by rw [hk, hk', hW.key _ _ t h.timers]) (by rw [hq, hq', hQ.linked _ _ t h.rqueue])
    | moved hl' hk' hto hne hq' =>
      rw [← h.expire] at hk' hto hne
      exact .moved (hl.trans hl') (hk.trans hk') hto hne (by rw [hq, hq', hQ.linked _ _ t h.rqueue])
    | woken hl' hover hq' =>
      rw [← h.expire] at hover
      exact .woken (hl.trans hl') hover (hq.trans hq')
    | dropped hl' hno hq' =>
      rw [← h.expire] at hno
      exact .dropped (hl.trans hl') hno (by rw [hq, hq', hQ.linked _ _ t h.rqueue])
  others := by
    intro t ht
    rw [hW.linked _ _ t h.timers] at ht
    obtain ⟨hl', hq'⟩ := hw.others t ht
    exact ⟨(hW.linked _ _ t h'.timers).trans hl', by rw [hQ.linked _ _ t h'.rqueue, hq', hQ.linked _ _ t h.rqueue]⟩

theorem straight_alike (hW : W.Follow W' R) (h : Alike R R' s r) : Straight W now s ↔ Straight W' now r := by
  unfold Straight
  simp only [fun t => hW.linked _ _ t h.timers, fun t => hW.key _ _ t h.timers, h.expire]

theorem AllAhead.of_alike (hW : W.Follow W' R) (h : Alike R R' s r) (ha : AllAhead W' now r) : AllAhead W now s := by
  unfold AllAhead
  simp only [fun t => hW.linked _ _ t h.timers, fun t => hW.key _ _ t h.timers, h.next]
  exact ha

end

/-- In every state that is reached `wake_expired_tasks` comes to its end, and each waiting task is woken as its date
is over, moved to its date, which is not, left out as it has none, or left where it is; the others are not
touched. -/
theorem wake_fates (n : Nat) (key₁ key₂ expire : Nat → Tick) (nice : Nat → Int) (es : List Event)
    (hes : ∀ e ∈ es, e.Allowed n) (now : Tick) :
    ∃ s s', exec (memStep n) (.init key₁ key₂ expire nice) es = some s ∧
      wakeExpiredTasks (waitOps n) (runOps n) (n + 1) now s = some s' ∧
      Woke (waitOps n) (runOps n) now s s' := by
  obtain ⟨s, r, hmem, -, hmeans, hgood⟩ := reached key₁ key₂ expire nice hes
  obtain ⟨r', hlist, -, hwoke, -⟩ := wakeExpiredTasks_list (wakeKeeps_true n now) hgood trivial
  obtain ⟨s', hrun, hmeans'⟩ :=
    wakeExpiredTasks_follows (waitOps_follow n) (runOps_follow n) (n + 1) now hmeans r' hlist
  exact ⟨s, s', hmem, hrun, hwoke.of_alike (waitOps_follow n) (runOps_follow n) hmeans hmeans'⟩

theorem wake_fates_four : ∃ s s', exec (memStep 4)
    (.init (fun _ => 0) (fun _ => 0) (fun _ => 0) fun _ => 0) oneDate = some s ∧
    wakeExpiredTasks (waitOps 4) (runOps 4) 5 10 s = some s' ∧ Woke (waitOps 4) (runOps 4) 10 s s' :=
  wake_fates 4 _ _ _ _ oneDate oneDate_allowed 10

/-- Unless the dates wrap around, it wakes all tasks that are due, and `next` is the first of the dates of the
others. -/
theorem wake_exact (n : Nat) (key₁ key₂ expire : Nat → Tick) (nice : Nat → Int) (es : List Event)
    (hes : ∀ e ∈ es, e.Allowed n) (now : Tick)
    (s : Memory) (hs : exec (memStep n) (.init key₁ key₂ expire nice) es = some s)
    (hstraight : Straight (waitOps n) now s) :
    ∃ s', wakeExpiredTasks (waitOps n) (runOps n) (n + 1) now s = some s' ∧ AllAhead (waitOps n) now s' ∧
      ∀ t, s.timers.tree.leafP t ≠ null → ¬now.isLt (s.timers.tree.key t) → (s.expire t).isExpired now →
        s'.timers.tree.leafP t = null ∧ s'.rqueue.leafP t ≠ null := by
  obtain ⟨s₀, r, hmem, -, hmeans, hgood⟩ := reached key₁ key₂ expire nice hes
  obtain rfl := Option.some.inj (hmem.symm.trans hs)
  obtain ⟨r', hlist, -, hwoke, -, hahead⟩ := wakeExpiredTasks_list (wakeKeeps_true n now) hgood trivial
  obtain ⟨s', hrun, hmeans'⟩ :=
    wakeExpiredTasks_follows (waitOps_follow n) (runOps_follow n) (n + 1) now hmeans r' hlist
  have hahead' := (hahead ((straight_alike (waitOps_follow n) hmeans).mp hstraight)).of_alike (waitOps_follow n) hmeans'
  refine ⟨s', hrun, hahead', fun t ht hdue hover => ?_⟩
  have hw := hwoke.of_alike (waitOps_follow n) (runOps_follow n) hmeans hmeans'
  obtain ⟨hl, hq⟩ := hw.all_due hahead' (decide_eq_true ht) hdue hover
  exact ⟨not_not.mp (of_decide_eq_false hl), of_decide_eq_true hq⟩

/-- The three tasks of the run `oneDate` wait at one date, which is over at 10. -/
theorem oneDate_waits {s : Memory} (hs : exec (memStep 4)
      (.init (fun _ => 0) (fun _ => 0) (fun _ => 0) fun _ => 0) oneDate = some s) :
    Straight (waitOps 4) 10 s ∧
      ∀ t ∈ [2, 0, 1], s.timers.tree.leafP t ≠ null ∧ ¬Tick.isLt 10 (s.timers.tree.key t) ∧
      (s.expire t).isExpired 10 := by
  obtain ⟨s₀, r, hs₀, hr, hmeans, -⟩ := reached (fun _ => 0) (fun _ => 0) (fun _ => 0) (fun _ => 0) oneDate_allowed
  obtain rfl := Option.some.inj (hs₀.symm.trans hs)
  have hlists : (exec (listStep 4) (.init (fun _ => 0) (fun _ => 0) (fun _ => 0) fun _ => 0) oneDate).map
      (fun r => (r.timers.list, r.timers.list.map r.timers.key, r.timers.list.map r.expire)) =
      some ([2, 0, 1], [5, 5, 5], [5, 5, 5]) := by decide
  rw [hr] at hlists
  obtain ⟨hlist, hdates⟩ := Prod.mk.inj (Option.some.inj hlists)
  rw [hlist] at hdates
  simp only [List.map_cons, List.map_nil, Prod.mk.injEq, List.cons.injEq] at hdates
  have hat : ∀ t ∈ r.timers.list, r.timers.key t = 5 ∧ r.expire t = 5 := by
    simp [hlist, hdates]
  refine ⟨(straight_alike (waitOps_follow 4) hmeans).mpr (.inr fun t ht => ?_), fun t ht => ?_⟩
  · have hkey : (listOps 4).key r.timers t = r.timers.key t := rfl
    rw [hkey, (hat t (of_decide_eq_true ht)).1, (hat t (of_decide_eq_true ht)).2]
    decide
  · rw [← hlist] at ht
    refine ⟨of_decide_eq_true (((waitOps_follow 4).linked _ _ t hmeans.timers).trans (decide_eq_true ht)), ?_, ?_⟩
    · rw [hmeans.timers.key, (hat t ht).1]
      decide
    · rw [hmeans.expire, (hat t ht).2]
      decide

theorem wake_exact_four : ∃ s s', exec (memStep 4)
    (.init (fun _ => 0) (fun _ => 0) (fun _ => 0) fun _ => 0) oneDate = some s ∧
    wakeExpiredTasks (waitOps 4) (runOps 4) 5 10 s = some s' ∧ s'.timers.tree.leafP 0 = null ∧
    s'.rqueue.leafP 0 ≠ null := by
  obtain ⟨s, r, hs, -⟩ := reached (fun _ => 0) (fun _ => 0) (fun _ => 0) (fun _ => 0) oneDate_allowed
  obtain ⟨hstraight, hwaits⟩ := oneDate_waits hs
  obtain ⟨s', hrun, -, hwoken⟩ := wake_exact 4 _ _ _ _ oneDate oneDate_allowed 10 s hs hstraight
  obtain ⟨hlinked, hdue, hover⟩ := hwaits 0 (by simp)
  exact ⟨s, s', hs, hrun, hwoken 0 hlinked hdue hover⟩

end ZeroServ.Tasks
