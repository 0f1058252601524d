import ZeroServ.Tasks.Memory

/-!
# The time the poller sleeps

At the end of a turn `proc_center` gives `poll_do` the date of what comes next, and `poll_do` sleeps as many
milliseconds as the date, if they are no more than 100, as if it were an interval. `punctual_iff`: in every run the
poller sleeps neither for ever nor past the date of a waiting task exactly where the date at which the first task
waits happens to be such a number.

Nothing but `wake_expired_tasks` takes a task from one queue to the other, and a task's function does what it does
with its own task only. A date may be set at any time, also behind the place of a task that waits: then
`wake_expired_tasks` puts the task back at its date. Where no call does so, every task waits at its date
(`orderly_of_unchanged`).
-/

namespace ZeroServ.Tasks

open Ebtree Run

/-- `MAX_DELAY_MS` -/
def maxDelayMs : Int := 100

/-- `wait_time` of `poll_do`, what `epoll_wait` is given. -/
def waitTime (exp : Tick) : Int := if exp = 0 ∨ maxDelayMs < exp.toInt then maxDelayMs else exp.toInt

section

variable {σ ρ : Type} (W : Ops σ) (Q : Ops ρ)

/-- The poller sleeps between 0 and 100 milliseconds, and no longer than up to the date of any waiting task. -/
def InTime (now : Tick) (s : Sched σ ρ) : Prop :=
  0 ≤ waitTime s.next ∧ waitTime s.next ≤ maxDelayMs ∧
    ∀ t, W.linked s.timers t → s.expire t ≠ 0 → waitTime s.next ≤ (Tick.remain now (s.expire t)).toInt

/-- No task waits, or the date at which the first one waits is a positive `int`, and all dates are at least as many
milliseconds away as it says, or 100 where it says more. -/
def DateFits (now : Tick) (s : Sched σ ρ) : Prop :=
  (∀ t, W.linked s.timers t = false) ∨ ∃ t, W.linked s.timers t ∧
    (∀ u, W.linked s.timers u →
      (Tick.remain now (W.key s.timers t)).toInt ≤ (Tick.remain now (W.key s.timers u)).toInt) ∧
      0 < (W.key s.timers t).toInt ∧ ∀ u, W.linked s.timers u → s.expire u ≠ 0 →
        min (W.key s.timers t).toInt maxDelayMs ≤ (Tick.remain now (s.expire u)).toInt

/-- In a turn a function sets the date of its task or deletes it. -/
def OwnOnly (n : Nat) (process : Nat → Nat → List Call × Bool) : Prop :=
  ∀ i t, ∀ c ∈ (process i t).1, t < n ∧ ((∃ date, c = .expire t date) ∨ c = .delete t)

/-- What may happen: a turn in which the dates do not wrap around, or every task waits at its date; a task that is to
run is not queued, nor is one that waits woken. -/
def Orderly (n : Nat) (s : Sched σ ρ) : Event → Prop
  | .turn now process => OwnOnly n process ∧ (Straight W now s ∨ Placed W s)
  | .call (.expire t _) | .call (.delete t) => t < n
  | .call (.queue t) => t < n ∧ Q.linked s.rqueue t = false
  | .call (.schedule t when) => t < n ∧ when ≠ 0
  | .call (.wakeup t) => t < n ∧ W.linked s.timers t = false

/-- What may happen where nothing changes the date of a task that waits. -/
def Unchanged (n : Nat) (s : Sched σ ρ) : Event → Prop
  | .turn _ process => OwnOnly n process
  | .call (.expire t _) => t < n ∧ W.linked s.timers t = false
  | .call (.schedule t when) => t < n ∧ when ≠ 0 ∧ W.linked s.timers t = false
  | .call (.queue t) => t < n ∧ Q.linked s.rqueue t = false
  | .call (.wakeup t) => t < n ∧ W.linked s.timers t = false
  | .call (.delete t) => t < n

variable {W Q} in
theorem Unchanged.orderly {n : Nat} {s : Sched σ ρ} {e : Event} (h : Unchanged W Q n s e) (hp : Placed W s) :
    Orderly W Q n s e := by
  cases e with
  | turn now process => exact ⟨h, .inr hp⟩
  | call c =>
    cases c with
    | expire t _ => exact h.1
    | schedule t _ => exact ⟨h.1, h.2.1⟩
    | queue t | wakeup t | delete t => exact h

end

variable {n : Nat} {a : Listed} {s s' : Queues} {t u : Nat} {x next now : Tick}

/-! ## The first date -/

/-- All tasks of the wait queue stand at dates to come, and `next` is the first of these. -/
structure Earliest (now next : Tick) (a : Listed) : Prop where
  ahead : ∀ t ∈ a.list, 0 < (a.key t - now).toInt
  first : a.list = [] ∧ next = 0 ∨ ∃ t ∈ a.list, next = a.key t ∧
    ∀ u ∈ a.list, (a.key t - now).toInt ≤ (a.key u - now).toInt

/-- The dates of the waiting tasks are to come. -/
def DatesAhead (now : Tick) (s : Queues) : Prop := ∀ t ∈ s.timers.list, s.expire t ≠ 0 → 0 < (s.expire t - now).toInt

/-- No task is in both queues, and none waits at a date that is not set. -/
structure Waits (s : Queues) : Prop where
  apart : ∀ t ∈ s.timers.list, t ∉ s.rqueue.list
  keyed : ∀ t ∈ s.timers.list, s.timers.key t ≠ 0

/-- Tasks leave the queues, and those that wait stay at their dates. -/
theorem Waits.mono (hw : Waits s) (hrq : s'.rqueue.list ⊆ s.rqueue.list) (hwq : s'.timers.list ⊆ s.timers.list)
    (hkey : s'.timers.key = s.timers.key) : Waits s' where
  apart t ht hin := hw.apart t (hwq ht) (hrq hin)
  keyed t ht := hkey ▸ hw.keyed t (hwq ht)

/-- The earlier one of `next` and the date of a task that is queued. -/
theorem Earliest.insert (h : Earliest now next a) (hkeyed : ∀ t ∈ a.list, a.key t ≠ 0) (ht : t ∉ a.list)
    (hx : 0 < (x - now).toInt) : Earliest now (next.firstTwoNz x) (a.insert t x) := by
  have hself : (a.insert t x).key t = x := Function.update_self ..
  have hold : ∀ u ∈ a.list, (a.insert t x).key u = a.key u := fun u hu =>
    Function.update_of_ne (ne_of_mem_of_not_mem hu ht) _ _
  have hmem : t ∈ (a.insert t x).list := mem_insert.mpr (.inl rfl)
  refine ⟨fun u hu => ?_, .inr ?_⟩
  · rcases mem_insert.mp hu with rfl | hu
    · rwa [hself]
    · rw [hold u hu]
      exact h.ahead u hu
  · rcases h.first with ⟨hnil, rfl⟩ | ⟨v, hv, rfl, hmin⟩
    · refine ⟨t, hmem, hself.symm, fun u hu => ?_⟩
      rcases mem_insert.mp hu with rfl | hu
      · exact Int.le_refl _
      · rw [hnil] at hu
        exact absurd hu List.not_mem_nil
    · have hdist := Tick.toInt_sub_of_future (h.ahead v hv) hx
      unfold Tick.firstTwoNz Tick.isLe
      rw [if_pos (Tick.isSet_iff.mpr (hkeyed v hv)), hdist]
      by_cases hle : (a.key v - now).toInt - (x - now).toInt ≤ 0
      · rw [if_pos (decide_eq_true hle)]
        refine ⟨v, mem_insert.mpr (.inr hv), (hold v hv).symm, fun u hu => ?_⟩
        rw [hold v hv]
        rcases mem_insert.mp hu with rfl | hu
        · rw [hself]
          omega
        · rw [hold u hu]
          exact hmin u hu
      · rw [if_neg (by rwa [decide_eq_true_eq])]
        refine ⟨t, hmem, hself.symm, fun u hu => ?_⟩
        rw [hself]
        rcases mem_insert.mp hu with rfl | hu
        · rw [hself]
        · have hu' := hmin u hu
          rw [hold u hu]
          omega

/-! ## `wake_expired_tasks` -/

/-- A task that still waits did so before, and it stands where it did or at its date. -/
theorem Woke.waited (h : Woke (listOps n) (listOps n) now s s') (ht : t ∈ s'.timers.list) : t ∈ s.timers.list ∧
    (s'.timers.key t = s.timers.key t ∨ s'.timers.key t = s.expire t ∧ s.expire t ≠ 0) ∧
    (t ∈ s'.rqueue.list ↔ t ∈ s.rqueue.list) := by
  by_cases hl : t ∈ s.timers.list
  · refine ⟨hl, ?_⟩
    cases h.waiting t (decide_eq_true hl) with
    | stays _ hk hq => exact ⟨.inl hk, decide_eq_decide.mp hq⟩
    | moved _ hk _ hne hq => exact ⟨.inr ⟨hk, hne⟩, decide_eq_decide.mp hq⟩
    | woken hno _ _ => exact absurd ht (of_decide_eq_false hno)
    | dropped hno _ _ => exact absurd ht (of_decide_eq_false hno)
  · exact absurd ht (of_decide_eq_false (h.others t (decide_eq_false hl)).1)

theorem Woke.waits (h : Woke (listOps n) (listOps n) now s s') (hw : Waits s) : Waits s' where
  apart t ht := by
    obtain ⟨hl, -, hq⟩ := h.waited ht
    exact fun hin => hw.apart t hl (hq.mp hin)
  keyed t ht := by
    obtain ⟨hl, hk | ⟨hk, hne⟩, -⟩ := h.waited ht
    · rw [hk]
      exact hw.keyed t hl
    · rwa [hk]

theorem Woke.placed (h : Woke (listOps n) (listOps n) now s s') (hp : Placed (listOps n) s) :
    Placed (listOps n) s' := by
  intro t ht
  obtain ⟨hl, hk, -⟩ := h.waited (of_decide_eq_true ht)
  rw [h.expire]
  exact hk.elim (fun hk => hk.trans (hp t (decide_eq_true hl))) fun hk => hk.1

/-- A task is put at its date. -/
theorem placed_insert (hp : Placed (listOps n) s) :
    Placed (listOps n) { s with timers := s.timers.insert t (s.expire t) } := by
  intro u hu
  by_cases hut : u = t
  · subst hut
    exact Function.update_self ..
  · have hu : u ∈ s.timers.list := (mem_insert.mp (of_decide_eq_true hu)).resolve_left hut
    exact (Function.update_of_ne hut _ _).trans (hp u (decide_eq_true hu))

/-- The date of a task that does not wait changes. -/
theorem placed_setExpire (hp : Placed (listOps n) s) (ht : t ∉ s.timers.list) (date : Tick) :
    Placed (listOps n) (s.setExpire t date) := by
  intro u hu
  have hut : u ≠ t := ne_of_mem_of_not_mem (of_decide_eq_true hu) ht
  exact (hp u hu).trans (Function.update_of_ne hut _ _).symm

/-- A task no longer waits. -/
theorem placed_delete (hp : Placed (listOps n) s) (t : Nat) :
    Placed (listOps n) { s with timers := s.timers.delete t } := fun u hu =>
  hp u (decide_eq_true (List.mem_of_mem_erase (of_decide_eq_true hu)))

theorem placed_queued (hp : Placed (listOps n) s) (t : Nat) : Placed (listOps n) (s.queued t) :=
  placed_insert (s := s.unqueued t) (placed_delete hp t)

/-- At its end the walk goes on with the first task. -/
theorem orFirst_wrap {c : EbTree.Cursor Nat} (hc : a.list = c.tree) :
    orFirst (listOps n) a c.rest.head? = some c.wrap.rest.head? := by
  cases hrest : c.rest with
  | nil =>
    have hlist : a.list = c.before := by rw [hc, EbTree.Cursor.tree, hrest, List.append_nil]
    rw [EbTree.Cursor.wrap, if_pos hrest, ← hlist]
    rfl
  | cons e rest =>
    rw [EbTree.Cursor.wrap, if_neg (by simp [hrest]), hrest]
    rfl

/-- Where every task waits at its date, the loop ends at the first date of those that are left. -/
theorem wakeLoop_placed (k : Nat) {c : EbTree.Cursor Nat} (h : Good n s) (hp : Placed (listOps n) s) (hw : Waits s)
    (hc : s.timers.list = c.tree) (hring : EbTree.Ring s.timers.key (now - timerLookBack) c.ahead)
    (hrun : wakeLoop (listOps n) (listOps n) now k s c.rest.head? = some s') :
    s'.timers.list = [] ∧ s'.next = 0 ∨ ∃ t ∈ s'.timers.list, s'.next = s'.timers.key t ∧
      ∀ u ∈ s'.timers.list, (s'.timers.key t - now).toInt ≤ (s'.timers.key u - now).toInt := by
  induction k generalizing s c with
  | zero => cases hrun
  | succ k ih =>
    have hfirst := orFirst_wrap (n := n) hc
    cases hrest : c.wrap.rest with
    | nil =>
      have hnil := EbTree.Cursor.tree_of_wrap_rest hrest
      rw [wakeLoop, hfirst, hrest] at hrun
      obtain rfl := Option.some.inj hrun
      exact .inl ⟨hc.trans hnil, rfl⟩
    | cons t rest =>
      have hlist : s.timers.list = c.wrap.before ++ t :: rest := by rw [hc, ← c.wrap_tree, EbTree.Cursor.tree, hrest]
      have ht : t ∈ s.timers.list := hlist ▸ List.mem_append_right _ List.mem_cons_self
      rw [hrest, List.head?_cons] at hfirst
      rw [EbTree.Cursor.ahead_past hrest] at hring
      obtain ⟨hle, htail⟩ := List.pairwise_cons.mp hring
      by_cases hlt : now.isLt (s.timers.key t)
      · -- the first date that is not over
        have hkey : (listOps n).key s.timers t = s.timers.key t := rfl
        rw [wakeLoop, hfirst] at hrun
        simp only [Option.bind_eq_bind, Option.bind_some, hkey, if_pos hlt] at hrun
        obtain rfl := Option.some.inj hrun
        refine .inr ⟨t, ht, rfl, fun u hu => ?_⟩
        change (s.timers.key t - now).toInt ≤ (s.timers.key u - now).toInt
        rw [toInt_sub_now, toInt_sub_now]
        have hahead : u ∈ t :: EbTree.Cursor.ahead ⟨c.wrap.before, rest⟩ := by
          rw [← EbTree.Cursor.ahead_past hrest, EbTree.Cursor.mem_ahead, ← hc]
          exact hu
        rcases List.mem_cons.mp hahead with rfl | hahead
        · exact Int.le_refl _
        · have hle := hle u hahead
          omega
      · -- a date that is over: the task stands at it, so that it is woken
        have hplace : s.timers.key t = s.expire t := hp t (decide_eq_true ht)
        have hover : (s.expire t).isExpired now := by
          rw [Tick.isExpired, ← hplace, Tick.isSet_iff.mpr (hw.keyed t ht), Bool.true_and]
          exact Tick.isLe_of_not_isLt (Bool.eq_false_iff.mpr hlt)
        obtain ⟨s₁, eb₁, hstep, hgood, hwoke, -, -, -, hwoken, -⟩ := wakeLoop_step h ht hlt
        obtain ⟨rfl, htimers⟩ := hwoken hover
        rw [wakeLoop_first hfirst, hstep] at hrun
        have hno : t ∉ c.wrap.before := by
          have hnodup := h.timers.nodup
          rw [hlist] at hnodup
          exact fun hin => (List.nodup_append.mp hnodup).2.2 t hin t List.mem_cons_self rfl
        rw [next_split hlist hno] at hrun
        refine ih (c := ⟨c.wrap.before, rest⟩) hgood (hwoke.placed hp) (hwoke.waits hw) ?_ ?_ hrun
        · rw [htimers, Listed.delete, hlist, List.erase_append_right _ hno, List.erase_cons_head]
          rfl
        · rw [htimers]
          exact htail

/-- After `wake_expired_tasks` `next` is the first date, if none is over that a task has. -/
theorem wakeExpiredTasks_earliest (h : Good n s) (hw : Waits s)
    (hs : Straight (listOps n) now s ∨ Placed (listOps n) s) :
    ∃ s', wakeExpiredTasks (listOps n) (listOps n) (n + 1) now s = some s' ∧ Good n s' ∧ Waits s' ∧
      (Placed (listOps n) s → Placed (listOps n) s') ∧ (DatesAhead now s' → Earliest now s'.next s'.timers) := by
  obtain ⟨s', hrun, hgood, hwoke, -, hahead⟩ := wakeExpiredTasks_list (wakeKeeps_true n now) h trivial
  refine ⟨s', hrun, hgood, hwoke.waits hw, hwoke.placed, fun hdates => ?_⟩
  rcases hs with hs | hs
  · obtain ⟨hall, hfirst⟩ := hahead hs
    refine ⟨fun t ht => ?_, hfirst.imp (fun hnil => ⟨?_, hnil.2⟩) fun ⟨t, ht, hnext⟩ =>
      ⟨t, of_decide_eq_true ht, hnext, fun u hu => ?_⟩⟩
    · refine ((isLt_iff now (s'.timers.key t)).mp (hall t (decide_eq_true ht)).1).resolve_right fun hfar => ?_
      have hkey : s'.timers.key t = now - timerLookBack := by
        rw [toInt_sub_now] at hfar
        have hzero : (s'.timers.key t - (now - timerLookBack)).toNat = 0 := by omega
        exact sub_eq_zero.mp (BitVec.eq_of_toNat_eq hzero)
      rcases hwoke.straight hs with hs | hs
      · have hlt : now - timerLookBack < s'.timers.key t := (hs t (decide_eq_true ht)).1
        rw [hkey] at hlt
        exact BitVec.lt_irrefl _ hlt
      · have hlt : s'.timers.key t < now - timerLookBack := (hs t (decide_eq_true ht)).1
        rw [hkey] at hlt
        exact BitVec.lt_irrefl _ hlt
    · exact List.eq_nil_iff_forall_not_mem.mpr fun t => of_decide_eq_false (hnil.1 t)
    · have hle := (hall u (decide_eq_true hu)).2
      rwa [hnext] at hle
  · have hplaced := hwoke.placed hs
    refine ⟨fun t ht => ?_, wakeLoop_placed (n + 1)
      (c := EbTree.lookupGe s.timers.key (now - timerLookBack) s.timers.list) h hs hw
      (EbTree.lookupGe_tree ..).symm (EbTree.lookupGe_ring h.timers.sorted _) hrun⟩
    have hkey : s'.timers.key t = s'.expire t := hplaced t (decide_eq_true ht)
    have hne := (hwoke.waits hw).keyed t ht
    rw [hkey] at hne ⊢
    exact hdates t ht hne

/-! ## `process_runnable_tasks` -/

/-- What the function of a task that is in no queue does is to set its date. -/
theorem calls_own {cs : List Call} (hcs : ∀ c ∈ cs, (∃ date, c = .expire t date) ∨ c = .delete t)
    (hwq : t ∉ s.timers.list)
    (hrq : t ∉ s.rqueue.list) : ∃ date, calls (listOps n) (listOps n) s cs = some (s.setExpire t date) := by
  induction cs generalizing s with
  | nil =>
    refine ⟨s.expire t, ?_⟩
    rw [calls, Sched.setExpire, Function.update_eq_self]
  | cons c cs ih =>
    obtain ⟨hc, hrest⟩ := List.forall_mem_cons.mp hcs
    rcases hc with ⟨date, rfl⟩ | rfl
    · obtain ⟨date', hrun⟩ := ih (s := s.setExpire t date) hrest hwq hrq
      refine ⟨date', ?_⟩
      rw [calls, call, Option.bind_some, hrun, Sched.setExpire, Sched.setExpire, Sched.setExpire, Function.update_idem]
    · obtain ⟨date, hrun⟩ := ih hrest hwq hrq
      refine ⟨date, ?_⟩
      have hdel : call (listOps n) (listOps n) s (.delete t) = some s := by
        simp [call, taskDelete, taskUnlinkWq, taskUnlinkRq, listOps, hwq, hrq]
      rw [calls, hdel, Option.bind_some, hrun]

/-- A task that does not wait is put at its date, if it has one. -/
theorem requeue_own (h : Good n s) (ht : t < n) (hwq : t ∉ s.timers.list) (expire : Tick) :
    requeue (listOps n) s t expire = some
      (if s.expire t ≠ 0 then ({ s with timers := s.timers.insert t (s.expire t) }, expire.firstTwoNz (s.expire t)) else
        (s, expire)) := by
  rw [requeue]
  split
  · next hne =>
    have hqueued : s.queued t = { s with timers := s.timers.insert t (s.expire t) } := by
      rw [Queues.queued, Listed.delete, List.erase_of_not_mem hwq]
    have hrun : taskQueue (listOps n) s t = some { s with timers := s.timers.insert t (s.expire t) } := by
      rw [taskQueue, if_neg (by simp [Tick.isSet_iff.mpr hne]), if_pos (by simp [listOps, hwq]),
        rawTaskQueue_list h ht, hqueued]
    rw [hrun]
    rfl
  · rfl

theorem Waits.insert (hw : Waits s) (hrq : t ∉ s.rqueue.list) (hne : x ≠ 0) :
    Waits { s with timers := s.timers.insert t x } where
  apart u hu := by
    rcases mem_insert.mp hu with rfl | hu
    · exact hrq
    · exact hw.apart u hu
  keyed u hu := by
    by_cases hut : u = t
    · subst hut
      have hkey : (s.timers.insert u x).key u = x := Function.update_self ..
      exact fun hzero => hne (hkey.symm.trans hzero)
    · have hkey : (s.timers.insert t x).key u = s.timers.key u := Function.update_of_ne hut _ _
      exact fun hzero => hw.keyed u ((mem_insert.mp hu).resolve_left hut) (hkey.symm.trans hzero)

theorem OwnOnly.wellBehaved {process : Nat → Nat → List Call × Bool} (hp : OwnOnly n process) :
    WellBehaved n process := by
  intro i t c hc
  obtain ⟨hlt, ⟨date, rfl⟩ | rfl⟩ := hp i t c hc
  · exact ⟨hlt, fun u hu => by cases hu⟩
  · refine ⟨hlt, fun u hu => ?_⟩
    cases hu
    rfl

/-- A turn of the loop of `process_runnable_tasks` keeps `expire` the first date, and puts its task at its date. -/
theorem RunStep.earliest {process : Nat → Nat → List Call × Bool} {i : Nat} {s₂ s₃ : Queues} {eb₃ : Option Nat}
    {expire expire₃ : Tick} (hs : RunStep n process i s t expire s₂ s₃ eb₃ expire₃) (hp : OwnOnly n process)
    (h : Good n s) (hw : Waits s) (ht : t ∈ s.rqueue.list) (hnext : DatesAhead now s → Earliest now expire s.timers) :
    Waits s₃ ∧ (Placed (listOps n) s → Placed (listOps n) s₃) ∧
      (DatesAhead now s₃ → Earliest now expire₃ s₃.timers) := by
  have hwq : t ∉ s.timers.list := fun hin => hw.apart t hin ht
  have hrq : t ∉ (s.rqueue.delete t).list := h.rqueue.nodup.not_mem_erase
  obtain ⟨date, hcalls⟩ := calls_own (n := n) (s := (s.taken t).called t) (fun c hc => (hp i t c hc).2) hwq hrq
  have hs₂ : s₂ = ((s.taken t).called t).setExpire t date := Option.some.inj (hs.calls.symm.trans hcalls)
  have htimers : s₂.timers = s.timers := by rw [hs₂]; rfl
  have hqueue : s₂.rqueue = s.rqueue.delete t := by rw [hs₂]; rfl
  have hwaits₂ : Waits s₂ :=
    hw.mono (by rw [hqueue]; exact List.erase_subset) (by rw [htimers]; exact List.Subset.refl _) (by rw [htimers])
  have hnext₂ : DatesAhead now s₂ → Earliest now expire s₂.timers := by
    intro hdates
    rw [htimers]
    refine hnext fun u hu => ?_
    have hexp : s₂.expire u = s.expire u := by
      rw [hs₂]
      exact Function.update_of_ne (ne_of_mem_of_not_mem hu hwq) _ _
    rw [← hexp]
    exact hdates u (htimers ▸ hu)
  have hplaced₂ : Placed (listOps n) s → Placed (listOps n) s₂ := fun hpl =>
    hs₂ ▸ placed_setExpire (s := (s.taken t).called t) hpl hwq date
  rw [← htimers] at hwq
  rw [← hqueue] at hrq
  rcases hs.goesOn with ⟨-, hrequeue, -⟩ | ⟨-, rfl, -, rfl⟩
  · rw [requeue_own hs.returned (h.rqueue.lt t ht) hwq] at hrequeue
    by_cases hne : s₂.expire t ≠ 0
    · -- the task waits for its next date
      rw [if_pos hne] at hrequeue
      obtain ⟨rfl, rfl⟩ := Prod.mk.inj (Option.some.inj hrequeue)
      refine ⟨hwaits₂.insert hrq hne, fun hpl => placed_insert (hplaced₂ hpl), fun hdates => ?_⟩
      have hx : 0 < (s₂.expire t - now).toInt := hdates t (mem_insert.mpr (.inl rfl)) hne
      exact (hnext₂ fun u hu => hdates u (mem_insert.mpr (.inr hu))).insert hwaits₂.keyed hwq hx
    · rw [if_neg hne] at hrequeue
      obtain ⟨rfl, rfl⟩ := Prod.mk.inj (Option.some.inj hrequeue)
      exact ⟨hwaits₂, hplaced₂, hnext₂⟩
  · exact ⟨hwaits₂, hplaced₂, hnext₂⟩

/-- The loop of `process_runnable_tasks` keeps `next` the first date, and puts tasks at their dates. -/
theorem processLoop_earliest {process : Nat → Nat → List Call × Bool} (hp : OwnOnly n process) (k i : Nat)
    (h : Good n s) (hw : Waits s) {eb : Option Nat} (heb : ∀ e, eb = some e → e ∈ s.rqueue.list) (expire : Tick)
    (hnext : DatesAhead now s → Earliest now expire s.timers) :
    ∃ s', processLoop (listOps n) (listOps n) process k i s eb expire = some s' ∧ Good n s' ∧ Waits s' ∧
      (Placed (listOps n) s → Placed (listOps n) s') ∧ (DatesAhead now s' → Earliest now s'.next s'.timers) := by
  induction k generalizing i s eb expire with
  | zero => exact ⟨_, rfl, h.of_rqueue h.timers rfl rfl rfl rfl, ⟨hw.apart, hw.keyed⟩, id, hnext⟩
  | succ k ih =>
    obtain ⟨eb₁, horfirst, heb₁⟩ := orFirst_list (n := n) heb
    cases eb₁ with
    | none =>
      rw [processLoop, horfirst]
      exact ⟨_, rfl, h.of_rqueue h.timers rfl rfl rfl rfl, ⟨hw.apart, hw.keyed⟩, id, hnext⟩
    | some t =>
      have ht : t ∈ s.rqueue.list := heb₁ t rfl
      obtain ⟨s₂, s₃, eb₃, expire₃, hstep⟩ := runStep hp.wellBehaved h ht i expire
      obtain ⟨hwaits₃, hplaced₃, hnext₃⟩ := hstep.earliest hp h hw ht hnext
      obtain ⟨s', hrun, hgood', hwaits', hplaced', hnext'⟩ :=
        ih (i + 1) hstep.good hwaits₃ hstep.mem expire₃ hnext₃
      rw [hstep.loop ht horfirst]
      exact ⟨s', hrun, hgood', hwaits', fun hpl => hplaced' (hplaced₃ hpl), hnext'⟩

/-! ## Steps -/

/-- After a turn `next` is the first date, if none is over that a waiting task has. -/
theorem turn_earliest {process : Nat → Nat → List Call × Bool} (hp : OwnOnly n process) (h : Good n s) (hw : Waits s)
    (hs : Straight (listOps n) now s ∨ Placed (listOps n) s) :
    ∃ s', listStep n s (.turn now process) = some s' ∧ Good n s' ∧ Waits s' ∧
      (Placed (listOps n) s → Placed (listOps n) s') ∧ (DatesAhead now s' → Earliest now s'.next s'.timers) := by
  obtain ⟨s₁, hrun₁, hgood₁, hwaits₁, hplaced₁, hnext₁⟩ := wakeExpiredTasks_earliest h hw hs
  rw [listStep, step, hrun₁]
  simp only [Option.bind_eq_bind, Option.bind_some]
  rw [processRunnableTasks]
  split
  · exact ⟨s₁, rfl, hgood₁, hwaits₁, hplaced₁, hnext₁⟩
  · obtain ⟨s', hrun, hgood', hwaits', hplaced', hnext'⟩ := processLoop_earliest hp _ 0 hgood₁ hwaits₁
      (fun e he => (List.dropWhile_sublist _).subset (List.mem_of_head? he)) _ hnext₁
    exact ⟨s', hrun, hgood', hwaits', fun hpl => hplaced' (hplaced₁ hpl), hnext'⟩

theorem Waits.queued (hw : Waits s) (hrq : t ∉ s.rqueue.list) (hne : s.expire t ≠ 0) : Waits (s.queued t) :=
  Waits.insert (s := s.unqueued t) (hw.mono (List.Subset.refl _) List.erase_subset rfl) hrq hne

theorem first_ne_zero {when date : Tick} (h : when ≠ 0) : Tick.first when date ≠ 0 := by
  rw [Tick.first, Tick.isSet_iff.mpr h]
  split
  · contradiction
  · split
    · exact h
    · next hset =>
      split
      · exact h
      · exact Tick.isSet_iff.mp (by simpa using hset)

/-- A call between two turns. -/
theorem call_waits (h : Good n s) (hw : Waits s) {c : Call} (hc : Orderly (listOps n) (listOps n) n s (.call c)) :
    ∃ s', call (listOps n) (listOps n) s c = some s' ∧ Good n s' ∧ Waits s' := by
  have htask : c.task < n := by
    cases c with
    | expire t _ | delete t => exact hc
    | queue t | schedule t _ | wakeup t => exact hc.1
  obtain ⟨s', hrun, hgood, -⟩ := call_list h c htask
  refine ⟨s', hrun, hgood, ?_⟩
  cases c with
  | expire t date =>
    obtain rfl := Option.some.inj hrun
    exact ⟨hw.apart, hw.keyed⟩
  | queue t =>
    have hrq : t ∉ s.rqueue.list := of_decide_eq_false hc.2
    rw [call, taskQueue] at hrun
    split at hrun
    · obtain rfl := Option.some.inj hrun
      exact hw
    · next hset =>
      split at hrun
      · rw [rawTaskQueue_list h hc.1] at hrun
        obtain rfl := Option.some.inj hrun
        exact hw.queued hrq (Tick.isSet_iff.mp (by simpa using hset))
      · obtain rfl := Option.some.inj hrun
        exact hw
  | schedule t when =>
    rw [call, taskSchedule] at hrun
    split at hrun
    · obtain rfl := Option.some.inj hrun
      exact hw
    · next hrq =>
      have hrq : t ∉ s.rqueue.list := fun hin => hrq (decide_eq_true hin)
      have hne : (if (listOps n).linked s.timers t then Tick.first when (s.expire t) else when) ≠ 0 := by
        split
        · exact first_ne_zero hc.2
        · exact hc.2
      generalize (if (listOps n).linked s.timers t then Tick.first when (s.expire t) else when) = date at hne hrun
      have hset : Waits (s.setExpire t date) := ⟨hw.apart, hw.keyed⟩
      dsimp only at hrun
      split at hrun
      · rw [rawTaskQueue_list (h.setExpire t _) hc.1] at hrun
        obtain rfl := Option.some.inj hrun
        have hdate : (s.setExpire t date).expire t = date := Function.update_self ..
        exact hset.queued hrq (by rwa [hdate])
      · obtain rfl := Option.some.inj hrun
        exact hset
  | wakeup t =>
    have hwq : t ∉ s.timers.list := of_decide_eq_false hc.2
    rw [call, taskWakeup] at hrun
    split at hrun
    · obtain rfl := Option.some.inj hrun
      exact hw
    · next hrq =>
      rw [rawTaskWakeup_list hc.1 (fun hin => hrq (decide_eq_true hin))] at hrun
      obtain rfl := Option.some.inj hrun
      refine ⟨fun u hu hin => ?_, hw.keyed⟩
      rcases mem_insert.mp hin with rfl | hin
      · exact hwq hu
      · exact hw.apart u hu hin
  | delete t =>
    obtain ⟨s₁, hrun₁, -, hq, ht, -⟩ := taskDelete_list h t
    obtain rfl := Option.some.inj (hrun₁.symm.trans hrun)
    exact hw.mono (by rw [hq]; exact List.erase_subset) (by rw [ht]; exact List.erase_subset) (by rw [ht]; rfl)

/-- A call between two turns that does not change the date of a waiting task. -/
theorem call_placed (h : Good n s) (hp : Placed (listOps n) s) {c : Call}
    (hc : Unchanged (listOps n) (listOps n) n s (.call c)) (hrun : call (listOps n) (listOps n) s c = some s') :
    Placed (listOps n) s' := by
  cases c with
  | expire t date =>
    obtain rfl := Option.some.inj hrun
    exact placed_setExpire hp (of_decide_eq_false hc.2) date
  | queue t =>
    rw [call, taskQueue] at hrun
    split at hrun
    · obtain rfl := Option.some.inj hrun
      exact hp
    · split at hrun
      · rw [rawTaskQueue_list h hc.1] at hrun
        obtain rfl := Option.some.inj hrun
        exact placed_queued hp t
      · obtain rfl := Option.some.inj hrun
        exact hp
  | schedule t when =>
    rw [call, taskSchedule] at hrun
    split at hrun
    · obtain rfl := Option.some.inj hrun
      exact hp
    · generalize (if (listOps n).linked s.timers t then Tick.first when (s.expire t) else when) = date at hrun
      have hset := placed_setExpire hp (of_decide_eq_false hc.2.2) date
      dsimp only at hrun
      split at hrun
      · rw [rawTaskQueue_list (h.setExpire t _) hc.1] at hrun
        obtain rfl := Option.some.inj hrun
        exact placed_queued hset t
      · obtain rfl := Option.some.inj hrun
        exact hset
  | wakeup t =>
    rw [call, taskWakeup] at hrun
    split at hrun
    · obtain rfl := Option.some.inj hrun
      exact hp
    · next hrq =>
      rw [rawTaskWakeup_list hc.1 (fun hin => hrq (decide_eq_true hin))] at hrun
      obtain rfl := Option.some.inj hrun
      exact hp
  | delete t =>
    obtain ⟨s₁, hrun₁, -, -, ht, -, -, -, hexpire⟩ := taskDelete_list h t
    obtain rfl := Option.some.inj (hrun₁.symm.trans hrun)
    unfold Placed
    rw [ht, hexpire]
    exact placed_delete hp t

/-! ## What `epoll_wait` is given -/

/-- What `epoll_wait` is given for a date that is set. -/
theorem waitTime_of_set (h : next ≠ 0) : waitTime next = min next.toInt maxDelayMs := by
  unfold waitTime
  split
  · next hlong => exact (min_eq_right (Int.le_of_lt (hlong.resolve_left h))).symm
  · next hlong => exact (min_eq_left (Int.not_lt.mp fun hlt => hlong (.inr hlt))).symm

/-- `epoll_wait` is never asked to return at once. -/
theorem waitTime_ne_zero (next : Tick) : waitTime next ≠ 0 := by
  by_cases h : next = 0
  · rw [waitTime, if_pos (.inl h)]
    decide
  · have hint : next.toInt ≠ 0 := fun h0 => h (BitVec.toInt_inj.mp h0)
    have hdelay : maxDelayMs = 100 := rfl
    rw [waitTime_of_set h]
    omega

/-- Where a date is over already there is no time left, and the poller sleeps too long. -/
theorem not_inTime_of_over (ht : t ∈ s.timers.list) (hne : s.expire t ≠ 0) (hover : (s.expire t - now).toInt ≤ 0) :
    ¬InTime (listOps n) now s ∧ ¬DateFits (listOps n) now s := by
  have hnone : (Tick.remain now (s.expire t)).toInt = 0 := by
    rw [Tick.toInt_remain hne, max_eq_left hover]
  have hdelay : maxDelayMs = 100 := rfl
  constructor
  · rintro ⟨hpos, -, hle⟩
    have hwait := hle t (decide_eq_true ht) hne
    have hzero := waitTime_ne_zero s.next
    omega
  · rintro (hnil | ⟨u, -, -, hpos, hfits⟩)
    · exact of_decide_eq_false (hnil t) ht
    · have hmin := hfits t (decide_eq_true ht) hne
      omega

/-- With the first date for `next`, the poller sleeps no longer than it may exactly if the dates fit. -/
theorem inTime_iff_dateFits (hw : Waits s) (hnext : DatesAhead now s → Earliest now s.next s.timers) :
    InTime (listOps n) now s ↔ DateFits (listOps n) now s := by
  by_cases hall : DatesAhead now s
  · obtain ⟨hahead, hfirst⟩ := hnext hall
    have hremain : ∀ t ∈ s.timers.list, (Tick.remain now (s.timers.key t)).toInt =
        (s.timers.key t - now).toInt := fun t ht => by
      rw [Tick.toInt_remain (hw.keyed t ht), max_eq_right (Int.le_of_lt (hahead t ht))]
    rcases hfirst with ⟨hnil, hzero⟩ | ⟨t, ht, hkey, hmin⟩
    · -- nothing waits
      have hno : ∀ t, (listOps n).linked s.timers t = false := fun t => by simp [listOps, hnil]
      refine iff_of_true ⟨?_, ?_, fun t ht => absurd ht (by simp [hno t])⟩ (.inl hno)
      · rw [hzero]
        decide
      · rw [hzero]
        decide
    · have hwait : waitTime s.next = min (s.timers.key t).toInt maxDelayMs := by
        rw [hkey, waitTime_of_set (hw.keyed t ht)]
      have hdelay : maxDelayMs = 100 := rfl
      constructor
      · rintro ⟨hpos, -, hle⟩
        have hne := waitTime_ne_zero s.next
        refine .inr ⟨t, decide_eq_true ht, fun u hu => ?_, ?_, fun u hu hset => hwait ▸ hle u hu hset⟩
        · have hu : u ∈ s.timers.list := of_decide_eq_true hu
          exact (hremain t ht).trans_le ((hmin u hu).trans_eq (hremain u hu).symm)
        · change 0 < (s.timers.key t).toInt
          omega
      · rintro (hnil | ⟨u, hu, humin, hpos, hfits⟩)
        · exact absurd ht (of_decide_eq_false (hnil t))
        · -- the first date is the one `next` has
          have hu : u ∈ s.timers.list := of_decide_eq_true hu
          have heq : s.timers.key u = s.timers.key t := by
            have hut : (Tick.remain now (s.timers.key u)).toInt ≤ (Tick.remain now (s.timers.key t)).toInt :=
              humin t (decide_eq_true ht)
            rw [hremain t ht, hremain u hu] at hut
            exact sub_left_inj.mp (BitVec.toInt_inj.mp (Int.le_antisymm hut (hmin u hu)))
          have hkeys : (listOps n).key s.timers u = s.timers.key t := heq
          rw [hkeys] at hpos hfits
          refine ⟨by omega, by omega, fun v hv hset => ?_⟩
          rw [hwait]
          exact hfits v hv hset
  · unfold DatesAhead at hall
    push Not at hall
    obtain ⟨t, ht, hne, hover⟩ := hall
    obtain ⟨hlate, hmisfit⟩ := not_inTime_of_over (n := n) ht hne hover
    exact iff_of_false hlate hmisfit

/-! ## Runs -/

section

variable {σ τ ρ υ : Type} {W : Ops σ} {W' : Ops τ} {Q : Ops ρ} {Q' : Ops υ} {R : σ → τ → Prop} {R' : ρ → υ → Prop}
    {m : Sched σ ρ} {r : Sched τ υ}

theorem inTime_alike (hW : W.Follow W' R) (h : Alike R R' m r) : InTime W now m ↔ InTime W' now r := by
  unfold InTime
  simp only [fun t => hW.linked _ _ t h.timers, h.expire, h.next]

theorem dateFits_alike (hW : W.Follow W' R) (h : Alike R R' m r) : DateFits W now m ↔ DateFits W' now r := by
  unfold DateFits
  simp only [fun t => hW.linked _ _ t h.timers, fun t => hW.key _ _ t h.timers, h.expire]

theorem placed_alike (hW : W.Follow W' R) (h : Alike R R' m r) : Placed W m ↔ Placed W' r := by
  unfold Placed
  simp only [fun t => hW.linked _ _ t h.timers, fun t => hW.key _ _ t h.timers, h.expire]

theorem orderly_alike (hW : W.Follow W' R) (hQ : Q.Follow Q' R') (h : Alike R R' m r) (e : Event) :
    Orderly W Q n m e ↔ Orderly W' Q' n r e := by
  cases e with
  | turn now process => exact and_congr_right fun _ => or_congr (straight_alike hW h) (placed_alike hW h)
  | call c =>
    cases c with
    | expire t _ | delete t | schedule t _ => exact Iff.rfl
    | queue t => simp only [Orderly, hQ.linked _ _ t h.rqueue]
    | wakeup t => simp only [Orderly, hW.linked _ _ t h.timers]

theorem unchanged_alike (hW : W.Follow W' R) (hQ : Q.Follow Q' R') (h : Alike R R' m r) (e : Event) :
    Unchanged W Q n m e ↔ Unchanged W' Q' n r e := by
  cases e with
  | turn now process => exact Iff.rfl
  | call c =>
    cases c with
    | delete t => exact Iff.rfl
    | queue t => simp only [Unchanged, hQ.linked _ _ t h.rqueue]
    | expire t _ | schedule t _ | wakeup t => simp only [Unchanged, hW.linked _ _ t h.timers]

end

/-- In a turn the poller sleeps no longer than it may. -/
def Punctual (n : Nat) (_ : Memory) (e : Event) (s' : Memory) : Prop :=
  ∀ now process, e = .turn now process → InTime (waitOps n) now s'

/-- In a turn the dates fit when `poll_do` is called. -/
def Fits (n : Nat) (_ : Memory) (e : Event) (s' : Memory) : Prop :=
  ∀ now process, e = .turn now process → DateFits (waitOps n) now s'

variable {m m' : Memory} {e : Event}

/-- The memory holds queues that are in order. -/
def InOrder (n : Nat) (m : Memory) : Prop := ∃ r, Means n m r ∧ Good n r ∧ Waits r

theorem inOrder_init (n : Nat) (key₁ key₂ expire : Nat → Tick) (nice : Nat → Int) :
    InOrder n (.init key₁ key₂ expire nice) :=
  ⟨_, means_init n key₁ key₂ expire nice, good_init n key₁ key₂ expire nice,
    fun _ ht => absurd ht List.not_mem_nil, fun _ ht => absurd ht List.not_mem_nil⟩

/-- Every event is carried out, and after a turn the poller is punctual exactly if the dates fit. Where the dates of
waiting tasks do not change, these stay at them. -/
theorem InOrder.step (h : InOrder n m) (he : Orderly (waitOps n) (runOps n) n m e) :
    ∃ m', memStep n m e = some m' ∧ InOrder n m' ∧ (Punctual n m e m' ↔ Fits n m e m') ∧
      (Unchanged (waitOps n) (runOps n) n m e → Placed (waitOps n) m → Placed (waitOps n) m') := by
  obtain ⟨r, hmeans, hgood, hwaits⟩ := h
  rw [orderly_alike (waitOps_follow n) (runOps_follow n) hmeans] at he
  obtain ⟨r', hlist, hgood', hwaits', hplaced, hnext⟩ : ∃ r', listStep n r e = some r' ∧ Good n r' ∧ Waits r' ∧
      (Unchanged (listOps n) (listOps n) n r e → Placed (listOps n) r → Placed (listOps n) r') ∧
      ∀ now process, e = .turn now process → DatesAhead now r' → Earliest now r'.next r'.timers := by
    cases e with
    | turn now process =>
      obtain ⟨r', hlist, hgood', hwaits', hplaced, hnext⟩ := turn_earliest he.1 hgood hwaits he.2
      refine ⟨r', hlist, hgood', hwaits', fun _ => hplaced, fun now' process' heq => ?_⟩
      cases heq
      exact hnext
    | call c =>
      obtain ⟨r', hlist, hgood', hwaits'⟩ := call_waits hgood hwaits he
      exact ⟨r', hlist, hgood', hwaits', fun hun hp => call_placed hgood hp hun hlist, fun _ _ heq => by cases heq⟩
  obtain ⟨m', hrun, hmeans'⟩ := step_follows (waitOps_follow n) (runOps_follow n) (n + 1) hmeans e r' hlist
  refine ⟨m', hrun, ⟨r', hmeans', hgood', hwaits'⟩, forall₃_congr fun now process heq => ?_, fun hun hp => ?_⟩
  swap
  · rw [unchanged_alike (waitOps_follow n) (runOps_follow n) hmeans] at hun
    rw [placed_alike (waitOps_follow n) hmeans] at hp
    exact (placed_alike (waitOps_follow n) hmeans').mpr (hplaced hun hp)
  rw [inTime_alike (waitOps_follow n) hmeans', dateFits_alike (waitOps_follow n) hmeans']
  exact inTime_iff_dateFits hwaits' (hnext now process heq)

/-- The loop takes every turn, and the poller is punctual throughout a run exactly where the dates fit in every turn. -/
theorem punctual_iff (n : Nat) (key₁ key₂ expire : Nat → Tick) (nice : Nat → Int) (es : List Event)
    (hes : AllEvents (memStep n) (Orderly (waitOps n) (runOps n) n) (.init key₁ key₂ expire nice) es) :
    (exec (memStep n) (.init key₁ key₂ expire nice) es).isSome ∧
      (AllSteps (memStep n) (Punctual n) (.init key₁ key₂ expire nice) es ↔
        AllSteps (memStep n) (Fits n) (.init key₁ key₂ expire nice) es) := by
  have hinit := inOrder_init n key₁ key₂ expire nice
  have hsteps := hes.allSteps
  have hkeep : ∀ (m : Memory) e m', InOrder n m → memStep n m e = some m' → Orderly (waitOps n) (runOps n) n m e →
      InOrder n m' ∧ (Punctual n m e m' ↔ Fits n m e m') := by
    intro m e m' h hrun he
    obtain ⟨m₁, hrun₁, h', hiff, -⟩ := h.step he
    obtain rfl := Option.some.inj (hrun₁.symm.trans hrun)
    exact ⟨h', hiff⟩
  refine ⟨?_, fun h => ?_, fun h => ?_⟩
  · obtain ⟨m, hrun, -⟩ := exec_of_events hinit (fun m e h he => (h.step he).imp fun m' h' => ⟨h'.1, h'.2.1⟩) hes
    exact Option.isSome_of_eq_some hrun
  · exact AllSteps.of_invariant hinit (fun m e m' hi hrun hc => (hkeep m e m' hi hrun hc.1).1)
      (fun m e m' hi hrun hc => (hkeep m e m' hi hrun hc.1).2.mp hc.2) (hsteps.and h)
  · exact AllSteps.of_invariant hinit (fun m e m' hi hrun hc => (hkeep m e m' hi hrun hc.1).1)
      (fun m e m' hi hrun hc => (hkeep m e m' hi hrun hc.1).2.mpr hc.2) (hsteps.and h)

/-- Where nothing changes the date of a waiting task, every task waits at its date, and a run is orderly. -/
theorem orderly_of_unchanged (n : Nat) (key₁ key₂ expire : Nat → Tick) (nice : Nat → Int) (es : List Event)
    (hes : AllEvents (memStep n) (Unchanged (waitOps n) (runOps n) n) (.init key₁ key₂ expire nice) es) :
    AllEvents (memStep n) (Orderly (waitOps n) (runOps n) n) (.init key₁ key₂ expire nice) es := by
  have hkeep : ∀ (fs : List Event) (m : Memory), InOrder n m → Placed (waitOps n) m →
      AllEvents (memStep n) (Unchanged (waitOps n) (runOps n) n) m fs →
      AllEvents (memStep n) (Orderly (waitOps n) (runOps n) n) m fs := by
    intro fs
    induction fs with
    | nil => exact fun _ _ _ _ => trivial
    | cons e fs ih =>
      intro m h hp hfs
      have he := hfs.1.orderly hp
      refine ⟨he, fun m' hrun => ?_⟩
      obtain ⟨m₁, hrun₁, h', -, hplaced⟩ := h.step he
      obtain rfl := Option.some.inj (hrun₁.symm.trans hrun)
      exact ih m₁ h' (hplaced hfs.1 hp) (hfs.2 m₁ hrun)
  have hempty : Placed (listOps n) (Queues.init key₁ key₂ expire nice) := fun t ht => by
    have hin : t ∈ (Queues.init key₁ key₂ expire nice).timers.list := of_decide_eq_true ht
    exact absurd hin List.not_mem_nil
  exact hkeep es _ (inOrder_init n key₁ key₂ expire nice)
    ((placed_alike (waitOps_follow n) (means_init n key₁ key₂ expire nice)).mpr hempty) hes

/-- A task that waits at 15 gets a later date. -/
def laterDate : List Event := [.call (.schedule 0 15), .call (.expire 0 1000)]

/-- The one task waits at a date of its own. -/
theorem one_waits (es : List Event) (key date : Tick) (hes : ∀ e ∈ es, e.Allowed 1)
    (hlists : (exec (listStep 1) (.init (fun _ => 0) (fun _ => 0) (fun _ => 0) fun _ => 0) es).map
      (fun r => (r.timers.list, r.timers.key 0, r.expire 0)) = some ([0], key, date)) {m : Memory}
    (hm : exec (memStep 1) (.init (fun _ => 0) (fun _ => 0) (fun _ => 0) fun _ => 0) es = some m) :
    ∃ r, Means 1 m r ∧ (∀ t, t ∈ r.timers.list ↔ t = 0) ∧ r.timers.key 0 = key ∧ r.expire 0 = date := by
  obtain ⟨m₁, r, hm₁, hr, hmeans, -⟩ := reached (fun _ => 0) (fun _ => 0) (fun _ => 0) (fun _ => 0) hes
  obtain rfl := Option.some.inj (hm₁.symm.trans hm)
  rw [hr] at hlists
  obtain ⟨hlist, hdates⟩ := Prod.mk.inj (Option.some.inj hlists)
  obtain ⟨hkey, hdate⟩ := Prod.mk.inj hdates
  exact ⟨r, hmeans, fun t => by rw [hlist, List.mem_singleton], hkey, hdate⟩

/-- The task is put back at its new date, of which the poller knows. -/
theorem punctual_iff_later : AllSteps (memStep 1) (Punctual 1) (.init (fun _ => 0) (fun _ => 0) (fun _ => 0) fun _ => 0)
    (laterDate ++ [.turn 20 fun _ _ => ([], true)]) := by
  have horderly : AllEvents (memStep 1) (Orderly (waitOps 1) (runOps 1) 1)
      (.init (fun _ => 0) (fun _ => 0) (fun _ => 0) fun _ => 0)
      (laterDate ++ [.turn 20 fun _ _ => ([], true)]) := by
    refine ⟨⟨Nat.zero_lt_one, by decide⟩, fun m₁ h₁ => ⟨Nat.zero_lt_one, fun m₂ h₂ =>
      ⟨⟨fun _ _ _ hc => absurd hc List.not_mem_nil, ?_⟩, fun _ _ => trivial⟩⟩⟩
    obtain ⟨r, hmeans, hlist, hkey, hdate⟩ := one_waits laterDate 15 1000
      (by simp [laterDate, Event.Allowed, Call.task]) (by decide)
      (by rw [laterDate, exec_cons, h₁, Option.bind_some, exec_cons, h₂]; rfl)
    refine .inl ((straight_alike (waitOps_follow 1) hmeans).mpr (.inr fun t ht => ?_))
    obtain rfl := (hlist t).mp (of_decide_eq_true ht)
    have hplace : (listOps 1).key r.timers 0 = 15 := hkey
    rw [hplace, hdate]
    decide
  refine (punctual_iff 1 _ _ _ _ _ horderly).2.mpr ?_
  intro m₁ h₁
  refine ⟨fun _ _ he => (by cases he), ?_⟩
  intro m₂ h₂
  refine ⟨fun _ _ he => (by cases he), ?_⟩
  intro m₃ h₃
  refine ⟨fun now process he => ?_, trivial⟩
  cases he
  obtain ⟨r, hmeans, hlist, hkey, hdate⟩ := one_waits (laterDate ++ [.turn 20 fun _ _ => ([], true)]) 1000 1000
    (by simp [laterDate, Event.Allowed, Call.task, WellBehaved]) (by decide)
    (by rw [laterDate, List.cons_append, exec_cons, h₁, Option.bind_some, List.cons_append, exec_cons, h₂,
      Option.bind_some, List.nil_append, exec_cons, h₃]; rfl)
  have hplace : (listOps 1).key r.timers 0 = 1000 := hkey
  refine (dateFits_alike (waitOps_follow 1) hmeans).mpr
    (.inr ⟨0, decide_eq_true ((hlist 0).mpr rfl), fun u hu => ?_, ?_, fun u hu _ => ?_⟩)
  · obtain rfl := (hlist u).mp (of_decide_eq_true hu)
    exact Int.le_refl _
  · rw [hplace]
    decide
  · obtain rfl := (hlist u).mp (of_decide_eq_true hu)
    rw [hplace, hdate]
    decide

/-- Ten milliseconds before the date of a task the poller sleeps for a hundred; and where dates are negative it
sleeps for ever. -/
theorem poller_oversleeps :
    ¬AllSteps (memStep 1) (Punctual 1) (.init (fun _ => 0) (fun _ => 0) (fun _ => 0) fun _ => 0)
        [.call (.schedule 0 1010), .turn 1000 fun _ _ => ([], true)] ∧
      ¬AllSteps (memStep 1) (Punctual 1) (.init (fun _ => 0) (fun _ => 0) (fun _ => 0) fun _ => 0)
        [.call (.schedule 0 4000000010), .turn 4000000000 fun _ _ => ([], true)] := by
  constructor
  · intro h
    obtain ⟨-, h⟩ := h _ rfl
    obtain ⟨h, -⟩ := h _ rfl
    exact absurd ((h _ _ rfl).2.2 0 (by decide) (by decide)) (by decide)
  · intro h
    obtain ⟨-, h⟩ := h _ rfl
    obtain ⟨h, -⟩ := h _ rfl
    exact absurd (h _ _ rfl).1 (by decide)

end ZeroServ.Tasks
