import ZeroServ.Ebtree.Bits
import ZeroServ.Tasks.Memory

/-!
# The bits in the trees of the scheduler

`struct eb_node` has 16 bits for `bit`. Over trees that count their insertions (`Ops.counted`) the scheduler does
what it does without (`counted_follow`), and the bits of the nodes in its trees are bounded by these numbers
(`bits_fit`).
-/

namespace ZeroServ.Tasks

open Ebtree Simulate Run

variable {σ τ ρ υ : Type}

/-- The functions of a tree, with the number of its insertions. -/
def Ops.counted (A : Ops σ) : Ops (σ × Nat) where
  linked s := A.linked s.1
  key s := A.key s.1
  insert s t x := (A.insert s.1 t x).map (·, s.2 + 1)
  delete s t := (A.delete s.1 t).map (·, s.2)
  first s := A.first s.1
  next s := A.next s.1
  lookupGe s := A.lookupGe s.1

/-- The scheduler before its first insertion. -/
def Sched.counted (s : Sched σ ρ) : Sched (σ × Nat) (ρ × Nat) :=
  { timers := (s.timers, 0), rqueue := (s.rqueue, 0), expire := s.expire, nice := s.nice, calls := s.calls,
    runQueue := s.runQueue,
    nicedTasks := s.nicedTasks, rqueueTicks := s.rqueueTicks, next := s.next }

/-- The counting does not matter. -/
theorem counted_follow (A : Ops σ) : A.counted.Follow A fun s a => s.1 = a where
  linked s a t h := by rw [← h]; rfl
  key s a t h := by rw [← h]; rfl
  insert s a t x h := by
    rw [← h]
    intro a' ha
    exact ⟨(a', s.2 + 1), congrArg (Option.map (·, s.2 + 1)) ha, rfl⟩
  delete s a t h := by
    rw [← h]
    intro a' ha
    exact ⟨(a', s.2), congrArg (Option.map (·, s.2)) ha, rfl⟩
  first s a h := by
    rw [← h]
    exact .of_eq fun _ hr => hr
  next s a t h := by
    rw [← h]
    exact .of_eq fun _ hr => hr
  lookupGe s a x h := by
    rw [← h]
    exact .of_eq fun _ hr => hr

/-- What each insertion adds to and each deletion keeps can be said of the number of insertions. -/
theorem Ops.Follow.counted {A : Ops σ} {B : Ops τ} {R : σ → τ → Prop} {I : Nat → σ → Prop} (h : A.Follow B R)
    (hinsert : ∀ s a t x k a' s', R s a → I k s → B.insert a t x = some a' → A.insert s t x = some s' → I (k + 1) s')
    (hdelete : ∀ s a t k s', R s a → I k s → A.delete s t = some s' → I k s') :
    A.counted.Follow B fun s a => R s.1 a ∧ I s.2 s.1 where
  linked s a t hs := h.linked s.1 a t hs.1
  key s a t hs := h.key s.1 a t hs.1
  insert s a t x hs := by
    intro a' ha
    obtain ⟨s', hrun, hr⟩ := h.insert s.1 a t x hs.1 a' ha
    exact ⟨(s', s.2 + 1), congrArg (Option.map (·, s.2 + 1)) hrun, hr, hinsert s.1 a t x s.2 a' s' hs.1 hs.2 ha hrun⟩
  delete s a t hs := by
    intro a' ha
    obtain ⟨s', hrun, hr⟩ := h.delete s.1 a t hs.1 a' ha
    exact ⟨(s', s.2), congrArg (Option.map (·, s.2)) hrun, hr, hdelete s.1 a t s.2 s' hs.1 hs.2 hrun⟩
  first s a hs := h.first s.1 a hs.1
  next s a t hs := h.next s.1 a t hs.1
  lookupGe s a x hs := h.lookupGe s.1 a x hs.1

variable {n : Nat} {q q' : WaitQueue} {m m' : Mem} {a a' : Listed} {t : Nat} {x : Tick} {k : Nat}

theorem listOps_insert (h : (listOps n).insert a t x = some a') : t ∉ a.list := by
  by_contra hin
  rw [listOps] at h
  dsimp only at h
  rw [if_neg fun hc => hc.2 hin] at h
  exact Option.some_ne_none _ h.symm

theorem runOps_insert_loaded (h : HoldsList n m a) (hk : Loaded k m) (hno : t ∉ a.list)
    (hrun : (runOps n).insert m t x = some m') :
    Loaded (k + 1) m' := by
  obtain ⟨⟨m₁, i⟩, hins, rfl⟩ := Option.map_eq_some_iff.mp hrun
  obtain ⟨m₂, hins₂, -⟩ := eb32Insert_spec (h.holds.setKey hno x) hno h.length_le
  obtain ⟨rfl, rfl⟩ := Prod.mk.inj (Option.some.inj (hins₂.symm.trans hins))
  exact eb32Insert_loaded (h.holds.setKey hno x) hno h.length_le (hk.setKey t x) hins

theorem waitOps_insert_loaded (h : HoldsTimers n q a) (hk : Loaded k q.tree) (hno : t ∉ a.list)
    (hrun : q.insert n t x = some q') :
    Loaded (k + 1) q'.tree := by
  have hholds := h.holds.setKey hno x
  rw [WaitQueue.insert] at hrun
  dsimp only at hrun
  cases hfilter : q.lastTimer.filter (takesDup (q.tree.setKey t x) t) with
  | some last =>
    obtain ⟨hq, htakes⟩ := Option.filter_eq_some_iff.mp hfilter
    obtain ⟨hbit, -, hp⟩ := of_decide_eq_true htakes
    rw [hfilter] at hrun
    obtain ⟨m', hins, hrun⟩ := Option.bind_eq_some_iff.mp hrun
    obtain rfl := Option.some.inj hrun
    exact ebInsertDup_loaded (hq ▸ h.last.eqOff hno (eqOff_setKey q.tree t x)) hno hbit hp h.length_le
      (hk.setKey t x) hins
  | none =>
    rw [hfilter] at hrun
    obtain ⟨⟨m', i⟩, hins, hrun⟩ := Option.bind_eq_some_iff.mp hrun
    obtain rfl := Option.some.inj hrun
    obtain ⟨m₂, hins₂, -⟩ := eb32Insert_spec hholds hno h.length_le
    obtain ⟨rfl, rfl⟩ := Prod.mk.inj (Option.some.inj (hins₂.symm.trans hins))
    exact eb32Insert_loaded hholds hno h.length_le (hk.setKey t x) hins

theorem runOps_counted (n : Nat) : (runOps n).counted.Follow (listOps n) fun s a =>
    HoldsList n s.1 a ∧ Loaded s.2 s.1 :=
  (runOps_follow n).counted (fun _ _ _ _ _ _ _ h hk ha hrun => runOps_insert_loaded h hk (listOps_insert ha) hrun)
    fun _ _ _ _ _ h hk hrun => ebDelete_loaded h.holds hk hrun

theorem waitOps_counted (n : Nat) : (waitOps n).counted.Follow (listOps n) fun s a =>
    HoldsTimers n s.1 a ∧ Loaded s.2 s.1.tree := by
  refine (waitOps_follow n).counted (I := fun k q => Loaded k q.tree)
    (fun _ _ _ _ _ _ _ h hk ha hrun => waitOps_insert_loaded h hk (listOps_insert ha) hrun)
    fun q a t k q' h hk hrun => ?_
  obtain ⟨m', hdel, rfl⟩ := Option.map_eq_some_iff.mp ((Option.map_eq_bind ..).trans hrun)
  exact ebDelete_loaded h.holds hk hdel

/-- The bits of the nodes that are in use. -/
def BitsFrom (k : Nat) (m : Mem) : Prop := ∀ t, m.leafP t ≠ null → m.nodeP t ≠ null → -k ≤ m.bit t ∧ m.bit t < 32

/-- After fewer than `2 ^ k` insertions no bit is below `-k`: a `short` holds them in every run that ends. -/
theorem bits_fit (n : Nat) (key₁ key₂ expire : Nat → Tick) (nice : Nat → Int) (es : List Event)
    (hes : ∀ e ∈ es, e.Allowed n) : ∃ s s', exec (memStep n) (.init key₁ key₂ expire nice) es = some s ∧
      exec (step (waitOps n).counted (runOps n).counted (n + 1))
      (Memory.init key₁ key₂ expire nice).counted es = some s' ∧
      s'.timers.1 = s.timers ∧ s'.rqueue.1 = s.rqueue ∧
      ∀ k, (s'.timers.2 < 2 ^ k → BitsFrom k s.timers.tree) ∧ (s'.rqueue.2 < 2 ^ k → BitsFrom k s.rqueue) := by
  obtain ⟨s, r, hmem, hlist, hmeans, -⟩ := reached key₁ key₂ expire nice hes
  have hinit := means_init n key₁ key₂ expire nice
  have hempty (key : Nat → Tick) : Loaded 0 (.init key) := loaded_empty (holds_init key).lists 0
  obtain ⟨s', hcount, halike⟩ := exec_follows (counted_follow (waitOps n)) (counted_follow (runOps n)) (n + 1)
    (⟨rfl, rfl, rfl, rfl, rfl, rfl, rfl, rfl, rfl⟩ : Alike _ _ (Memory.init key₁ key₂ expire nice).counted
    (Memory.init key₁ key₂ expire nice)) es s hmem
  obtain ⟨s₁, hcount₁, hloaded⟩ := exec_follows (waitOps_counted n) (runOps_counted n) (n + 1)
    (⟨⟨hinit.timers, hempty key₁⟩, ⟨hinit.rqueue, hempty key₂⟩, rfl, rfl, rfl, rfl, rfl, rfl, rfl⟩ :
      Alike _ _ (Memory.init key₁ key₂ expire nice).counted (Queues.init key₁ key₂ expire nice)) es r hlist
  obtain rfl := Option.some.inj (hcount₁.symm.trans hcount)
  refine ⟨s, s₁, hmem, hcount, halike.timers, halike.rqueue, fun k => ⟨fun hk t ht hp => ?_, fun hk t ht hp => ?_⟩⟩
  · rw [← halike.timers] at ht hp ⊢
    exact hloaded.timers.2.bit_bounds hloaded.timers.1.holds hk ht hp
  · rw [← halike.rqueue] at ht hp ⊢
    exact hloaded.rqueue.2.bit_bounds hloaded.rqueue.1.holds hk ht hp

theorem bits_fit_four : ∃ s, exec (memStep 4)
    (.init (fun _ => 0) (fun _ => 0) (fun _ => 0) fun _ => 0) oneDate = some s ∧
    BitsFrom 2 s.timers.tree := by
  obtain ⟨s, s', hmem, hcount, -, -, hbits⟩ :=
    bits_fit 4 (fun _ => 0) (fun _ => 0) (fun _ => 0) (fun _ => 0) oneDate oneDate_allowed
  have hthree : (exec (step (waitOps 4).counted (runOps 4).counted 5)
      (Memory.init (fun _ => 0) (fun _ => 0) (fun _ => 0) fun _ => 0).counted oneDate).map (·.timers.2) =
      some 3 := by decide
  rw [hcount] at hthree
  have hcounted : s'.timers.2 = 3 := Option.some.inj hthree
  refine ⟨s, hmem, (hbits 2).1 ?_⟩
  rw [hcounted]
  decide

end ZeroServ.Tasks
