import ZeroServ.Tasks.Memory

/-!
# First come, first served

Without nice values, and as long as the insertion counter does not come near its middle, the run queue is in the
order of the wakeups: a turn calls exactly the functions of the first 200 tasks, each once, and what is woken
meanwhile comes behind those that are left (`turn_serves`).
-/

namespace ZeroServ.Tasks

open Ebtree Simulate Run

/-- The tasks in the run queue were woken before the counter wrapped around, and no task is niced. -/
structure Young {σ ρ : Type} (Q : Ops ρ) (s : Sched σ ρ) : Prop where
  nice : ∀ t, s.nice t = 0
  key : ∀ t, Q.linked s.rqueue t → Q.key s.rqueue t ≤ s.rqueueTicks

variable {n b : Nat} {a : Listed} {s s' : Queues} {t u : Nat} {x : Tick} {q new : List Nat}
    {process : Nat → Nat → List Call × Bool}

/-- A task whose key is not below any other goes to the end. -/
theorem insert_last_place (hno : t ∉ a.list) (hx : ∀ u ∈ a.list, a.key u ≤ x) :
    (a.insert t x).list = a.list ++ [t] := by
  have hle : ∀ u ∈ a.list, Function.update a.key t x u ≤ Function.update a.key t x t := by
    intro u hu
    rw [Function.update_self, Function.update_of_ne (ne_of_mem_of_not_mem hu hno)]
    exact hx u hu
  have hplace : EbTree.insert (Function.update a.key t x) t (a.list ++ []) = a.list ++ t :: [] :=
    EbTree.insert_eq hle fun _ hu => absurd hu List.not_mem_nil
  rwa [List.append_nil] at hplace

/-- The next value of the counter is not below the keys so far, before it comes to its middle. -/
theorem le_succ_ticks {k ticks : Tick} (hk : k ≤ ticks) (ht : ticks.toNat + 1 < 2147483648) :
    k ≤ ticks + 1 ∧ (ticks + 1).toNat = ticks.toNat + 1 := by
  have h : (ticks + 1).toNat = ticks.toNat + 1 := by
    rw [BitVec.toNat_add]
    exact Nat.mod_eq_of_lt (by simp; omega)
  rw [BitVec.le_def] at hk ⊢
  exact ⟨by omega, h⟩

theorem Young.setRqueue (h : Young (listOps n) s) (hnice : s'.nice = s.nice) (hq : s'.rqueue = s.rqueue)
    (hticks : s'.rqueueTicks = s.rqueueTicks) : Young (listOps n) s' where
  nice := by rw [hnice]; exact h.nice
  key := by rw [hq, hticks]; exact h.key

/-- A task that is woken goes to the end. -/
theorem Young.woken (hy : Young (listOps n) s) (hno : t ∉ s.rqueue.list) (hq : s'.rqueue = (s.woken t).rqueue)
    (ht : s'.rqueueTicks = s.rqueueTicks + 1) (hnice : s'.nice = s.nice)
    (hticks : s.rqueueTicks.toNat + 1 < 2147483648) :
    Young (listOps n) s' ∧ s'.rqueue.list = s.rqueue.list ++ [t] ∧ s'.rqueueTicks.toNat = s.rqueueTicks.toNat + 1 := by
  have hkey : ∀ u ∈ s.rqueue.list, s.rqueue.key u ≤ s.rqueueTicks + 1 :=
    fun u hu => (le_succ_ticks (hy.key u (decide_eq_true hu)) hticks).1
  have hsucc := (le_succ_ticks (BitVec.le_refl s.rqueueTicks) hticks).2
  have hrq : s'.rqueue = s.rqueue.insert t (s.rqueueTicks + 1) := by
    rw [hq, Queues.woken, runKey, if_pos (hy.nice t)]
  refine ⟨⟨by rw [hnice]; exact hy.nice, fun u hu => ?_⟩, by rw [hrq, insert_last_place hno hkey], by rw [ht, hsucc]⟩
  rw [ht]
  rw [hrq] at hu ⊢
  have hkeyeq : (listOps n).key (s.rqueue.insert t (s.rqueueTicks + 1)) u =
    Function.update s.rqueue.key t (s.rqueueTicks + 1) u := rfl
  rcases mem_insert.mp (of_decide_eq_true hu) with rfl | hu
  · rw [hkeyeq, Function.update_self]
    exact BitVec.le_refl _
  · rw [hkeyeq, Function.update_of_ne (ne_of_mem_of_not_mem hu hno)]
    exact hkey u hu

/-- A call for one task leaves those that are in the run queue in front, but for the one it deletes. -/
theorem call_front (h : Good n s) (hy : Young (listOps n) s) (hlist : s.rqueue.list = q ++ new) {c : Call}
    (hc : c.task < n) (hdel : ∀ u, c = .delete u → u ∉ q) (hticks : s.rqueueTicks.toNat + 1 < 2147483648) :
    ∃ s', call (listOps n) (listOps n) s c = some s' ∧ Good n s' ∧ Young (listOps n) s' ∧ s'.calls = s.calls ∧
      s'.rqueueTicks.toNat ≤ s.rqueueTicks.toNat + 1 ∧ ∃ new', s'.rqueue.list = q ++ new' := by
  obtain ⟨s', hrun, hgood, hnice, hcalls, hcase⟩ := call_list h c hc
  refine ⟨s', hrun, hgood, ?_⟩
  cases hcase with
  | stay c hq ht =>
    refine ⟨hy.setRqueue hnice hq ht, hcalls, by rw [ht]; exact Nat.le_succ _, new, ?_⟩
    rw [hq, hlist]
  | wakeup t hno hq ht =>
    obtain ⟨hy', hlist', hticks'⟩ := hy.woken hno hq ht hnice hticks
    refine ⟨hy', hcalls, Nat.le_of_eq hticks', new ++ [t], ?_⟩
    rw [hlist', hlist, List.append_assoc]
  | delete t hq ht =>
    refine ⟨⟨by rw [hnice]; exact hy.nice, fun u hu => ?_⟩, hcalls, by rw [ht]; exact Nat.le_succ _, new.erase t, ?_⟩
    · rw [ht]
      rw [hq] at hu ⊢
      exact hy.key u (decide_eq_true (List.mem_of_mem_erase (of_decide_eq_true hu)))
    · rw [hq, Listed.delete, hlist, List.erase_append_right _ (hdel t rfl)]

theorem calls_front (cs : List Call) (h : Good n s) (hy : Young (listOps n) s) (hlist : s.rqueue.list = q ++ new)
    (hcs : ∀ c ∈ cs, c.task < n)
    (hdel : ∀ c ∈ cs, ∀ u, c = .delete u → u ∉ q) (hticks : s.rqueueTicks.toNat + cs.length < 2147483648) :
    ∃ s', calls (listOps n) (listOps n) s cs = some s' ∧ Good n s' ∧ Young (listOps n) s' ∧ s'.calls = s.calls ∧
      s'.rqueueTicks.toNat ≤ s.rqueueTicks.toNat + cs.length ∧ ∃ new', s'.rqueue.list = q ++ new' := by
  induction cs generalizing s new with
  | nil => exact ⟨s, rfl, h, hy, rfl, Nat.le_refl _, new, hlist⟩
  | cons c cs ih =>
    obtain ⟨hc, hcs⟩ := List.forall_mem_cons.mp hcs
    obtain ⟨hdelc, hdel⟩ := List.forall_mem_cons.mp hdel
    rw [List.length_cons] at hticks
    obtain ⟨s₁, hrun₁, hgood₁, hy₁, hcalls₁, hticks₁, new₁, hlist₁⟩ := call_front h hy hlist hc hdelc (by omega)
    obtain ⟨s', hrun, hgood, hy', hcalls, hticks', hnew⟩ := ih hgood₁ hy₁ hlist₁ hcs hdel (by omega)
    refine ⟨s', ?_, hgood, hy', hcalls.trans hcalls₁, ?_, hnew⟩
    · rw [calls, hrun₁]
      exact hrun
    · rw [List.length_cons]
      omega

/-- A task that has woken itself again is not before the next one. -/
theorem lookAgain_front {e : Nat} (h : Good n s) (hy : Young (listOps n) s) (hticks : s.rqueueTicks.toNat < 2147483648)
    (hhead : s.rqueue.list.head? = some e) (t : Nat) : lookAgain (listOps n) s t (some e) = some (some e) := by
  refine if_neg ?_
  rw [Bool.and_eq_true, not_and]
  intro ht
  have ht : t ∈ s.rqueue.list := of_decide_eq_true ht
  have hle : s.rqueue.key e ≤ s.rqueue.key t := by
    obtain ⟨q, hlist⟩ := List.head?_eq_some_iff.mp hhead
    have hsorted := h.rqueue.sorted
    rw [hlist] at ht hsorted
    rcases List.mem_cons.mp ht with rfl | ht
    · exact BitVec.le_refl _
    · exact (List.pairwise_cons.mp hsorted).1 t ht
  have hkey : s.rqueue.key t ≤ s.rqueueTicks := hy.key t (decide_eq_true ht)
  have hlt : ¬(s.rqueue.key t - s.rqueue.key e).toInt < 0 := by
    have hsub := BitVec.toNat_sub_of_le hle
    rw [BitVec.le_def] at hkey hle
    rcases Tick.toInt_cases (s.rqueue.key t - s.rqueue.key e) with ⟨h, h'⟩ | ⟨h, h'⟩ <;> omega
  exact fun hall => hlt (of_decide_eq_true hall)

/-- The loop of `process_runnable_tasks` calls the functions of the first tasks, one after the other. -/
theorem processLoop_front (hp : WellBehaved n process) (hb : ∀ i t, (process i t).1.length ≤ b) (k i : Nat)
    {l : List Nat} (h : Good n s)
    (hy : Young (listOps n) s) (hlist : s.rqueue.list = l ++ new) (hk : k ≤ l.length) {eb : Option Nat}
    (heb : k ≠ 0 → eb = none ∨ eb = s.rqueue.list.head?) (expire : Tick)
    (hticks : s.rqueueTicks.toNat + b * k < 2147483648) :
    ∃ s', processLoop (listOps n) (listOps n) process k i s eb expire = some s' ∧ Young (listOps n) s' ∧
      (∃ new', s'.rqueue.list = l.drop k ++ new') ∧
      ∀ u, s'.calls u = if u ∈ l.take k then s.calls u + 1 else s.calls u := by
  induction k generalizing i s eb expire l new with
  | zero => exact ⟨_, rfl, hy.setRqueue rfl rfl rfl, ⟨new, hlist⟩, fun u => by simp⟩
  | succ k ih =>
    obtain ⟨t, q, rfl⟩ : ∃ t q, l = t :: q := List.exists_cons_of_length_pos (by omega)
    have hhead : s.rqueue.list.head? = some t := by rw [hlist]; rfl
    have hfirst : orFirst (listOps n) s.rqueue eb = some (some t) := by
      rcases heb (Nat.succ_ne_zero k) with rfl | rfl
      · exact congrArg some hhead
      · rw [hhead]
        rfl
    have ht : t ∈ s.rqueue.list := List.mem_of_head? hhead
    have hnodup : (t :: q ++ new).Nodup := hlist ▸ h.rqueue.nodup
    have htq : t ∉ q ++ new := (List.nodup_cons.mp hnodup).1
    have hnext : s.rqueue.next t = (q ++ new).head? := next_split (p := []) hlist List.not_mem_nil
    have hgood₁ : Good n ((s.taken t).called t) := (h.taken ht).of_rqueue (h.taken ht).timers rfl rfl rfl rfl
    have hlist₁ : ((s.taken t).called t).rqueue.list = q ++ new := by
      show (s.rqueue.list.erase t) = q ++ new
      rw [hlist]
      exact List.erase_cons_head ..
    have hy₁ : Young (listOps n) ((s.taken t).called t) :=
      ⟨hy.nice, fun u hu => hy.key u (decide_eq_true (List.mem_of_mem_erase (of_decide_eq_true hu)))⟩
    have hbk : b * (k + 1) = b * k + b := Nat.mul_succ b k
    have hlen := hb i t
    have hdel : ∀ c ∈ (process i t).1, ∀ u, c = .delete u → u ∉ q := by
      intro c hc u hu hin
      rw [(hp i t c hc).2 u hu] at hin
      exact htq (List.mem_append_left _ hin)
    have hticks₁ : ((s.taken t).called t).rqueueTicks = s.rqueueTicks := rfl
    obtain ⟨s₂, hcalls, hgood₂, hy₂, hcalled₂, hticks₂, new₂, hlist₂⟩ :=
      calls_front (process i t).1 hgood₁ hy₁ hlist₁ (fun c hc => (hp i t c hc).1) hdel (by rw [hticks₁]; omega)
    rw [hticks₁] at hticks₂
    have hcalled : ∀ u, s₂.calls u = if u = t then s.calls u + 1 else s.calls u := by
      intro u
      rw [hcalled₂]
      show Function.update s.calls t (s.calls t + 1) u = _
      rw [Function.update_apply]
      split
      · next hut => rw [hut]
      · rfl
    obtain ⟨s₂', s₃, eb₃, expire₃, hstep⟩ := runStep hp h ht i expire
    obtain rfl := Option.some.inj (hstep.calls.symm.trans hcalls)
    obtain ⟨hq₃, ht₃, hnice₃, hc₃⟩ := hstep.kept
    have hy₃ := hy₂.setRqueue hnice₃ hq₃ ht₃
    -- the loop goes on at the next of the first tasks
    have heb₃ : k ≠ 0 → eb₃ = none ∨ eb₃ = s₃.rqueue.list.head? := by
      intro hk0
      obtain ⟨e, q', rfl⟩ : ∃ e q', q = e :: q' :=
        List.exists_cons_of_length_pos (by rw [List.length_cons] at hk; omega)
      have hnext₃ : s.rqueue.next t = some e := hnext
      have hhead₃ : s₃.rqueue.list.head? = some e := by rw [hq₃, hlist₂]; rfl
      rw [hhead₃]
      rcases hstep.goesOn with ⟨-, -, hlook⟩ | ⟨-, -, rfl, -⟩
      · rw [hnext₃, lookAgain_front hstep.good hy₃ (by rw [ht₃]; omega) hhead₃] at hlook
        exact .inr (Option.some.inj hlook).symm
      · exact .inr hnext₃
    obtain ⟨s', hrun, hy', hnew, hcall⟩ := ih (i + 1) (l := q) hstep.good hy₃ (hq₃ ▸ hlist₂)
      (by simpa using hk) heb₃ expire₃ (by rw [ht₃]; omega)
    rw [hstep.loop ht hfirst]
    refine ⟨s', hrun, hy', hnew, fun u => ?_⟩
    rw [hcall, hc₃, hcalled, List.take_succ_cons]
    by_cases hut : u = t
    · subst hut
      have hno : u ∉ q.take k := fun hin => htq (List.mem_append_left _ (List.mem_of_mem_take hin))
      simp [hno]
    · simp [hut]

/-- `process_runnable_tasks` calls the functions of the first 200 tasks. -/
theorem processRunnableTasks_front (hn : n < 4294967296) (hp : WellBehaved n process)
    (hb : ∀ i t, (process i t).1.length ≤ b) (h : Good n s)
    (hy : Young (listOps n) s) (hticks : s.rqueueTicks.toNat + b * 200 < 2147483648) :
    ∃ s', processRunnableTasks (listOps n) (listOps n) process s = some s' ∧ Young (listOps n) s' ∧
      (∃ new, s'.rqueue.list = s.rqueue.list.drop 200 ++ new) ∧
        ∀ t, s'.calls t = if t ∈ s.rqueue.list.take 200 then s.calls t + 1 else s.calls t := by
  have hlen := h.rqueue.length_le
  have hcount : s.runQueue.toNat = s.rqueue.list.length := by
    rw [h.runQueue, BitVec.toNat_ofNat]
    exact Nat.mod_eq_of_lt (by omega)
  have hniced : s.nicedTasks = 0 := by
    rw [h.nicedTasks, List.countP_eq_zero.mpr fun t _ => by simp [hy.nice t]]
    rfl
  rw [processRunnableTasks]
  split
  · next hzero =>
    rw [hzero] at hcount
    have hnil : s.rqueue.list = [] := List.eq_nil_of_length_eq_zero hcount.symm
    exact ⟨s, rfl, hy, ⟨[], by simp [hnil]⟩, fun t => by simp [hnil]⟩
  · have hmax : maxProcessed s = min s.rqueue.list.length 200 := by
      rw [maxProcessed, hniced, hcount]
      rfl
    have hstart : (EbTree.lookupGe s.rqueue.key (s.rqueueTicks - timerLookBack) s.rqueue.list).rest.head? = none := by
      have hall : ∀ t ∈ s.rqueue.list, decide (s.rqueue.key t < s.rqueueTicks - timerLookBack) = true := by
        intro t ht
        have hkey : s.rqueue.key t ≤ s.rqueueTicks := hy.key t (decide_eq_true ht)
        have hsub := BitVec.toNat_sub s.rqueueTicks timerLookBack
        have hback : timerLookBack.toNat = 2147483648 := rfl
        rw [BitVec.le_def] at hkey
        refine decide_eq_true ?_
        rw [BitVec.lt_def]
        omega
      rw [EbTree.lookupGe]
      dsimp only
      rw [List.dropWhile_eq_nil_iff.mpr hall]
      rfl
    have hbk : b * min s.rqueue.list.length 200 ≤ b * 200 := Nat.mul_le_mul_left b (Nat.min_le_right _ _)
    obtain ⟨s', hrun, hy', ⟨new, hnew⟩, hcalls⟩ := processLoop_front hp hb (maxProcessed s) 0 (l := s.rqueue.list) h hy
      (List.append_nil _).symm (by rw [hmax]; exact Nat.min_le_left _ _) (fun _ => .inl hstart) s.next
      (by rw [hmax]; omega)
    have htake : s.rqueue.list.take (maxProcessed s) = s.rqueue.list.take 200 := by
      rw [hmax, Nat.min_comm, ← List.take_take, List.take_length]
    have hdrop : s.rqueue.list.drop (maxProcessed s) = s.rqueue.list.drop 200 := by
      rw [hmax]
      rcases Nat.le_total s.rqueue.list.length 200 with hle | hle
      · rw [Nat.min_eq_left hle, List.drop_length, List.drop_eq_nil_of_le hle]
      · rw [Nat.min_eq_right hle]
    refine ⟨s', hrun, hy', ⟨new, by rw [hnew, hdrop]⟩, fun t => ?_⟩
    rw [hcalls, htake]

/-! ## Whole turns -/

/-- The tasks that `wake_expired_tasks` wakes go to the end. -/
theorem wakeKeeps_young (l : List Nat) {k : Nat} (hk : k < 2147483648) (now : Tick) : WakeKeeps n now fun s =>
    Young (listOps n) s ∧ s.rqueueTicks.toNat + due now s.timers ≤ k ∧ ∃ w, s.rqueue.list = l ++ w where
  next s _ h := ⟨h.1.setRqueue rfl rfl rfl, h.2⟩
  step s s₁ t _ h hnice hdue hcase := by
    obtain ⟨hy, hle, w, hlist⟩ := h
    cases hcase with
    | stay _ hq ht =>
      refine ⟨hy.setRqueue hnice hq ht, ?_, w, by rw [hq, hlist]⟩
      rw [ht]
      omega
    | wakeup _ hno hq ht =>
      obtain ⟨hy', hlist', hticks'⟩ := hy.woken hno hq ht hnice (by omega)
      refine ⟨hy', by omega, w ++ [t], ?_⟩
      rw [hlist', hlist, List.append_assoc]

/-- A turn over lists. -/
theorem turn_front (hn : n < 4294967296) (hp : WellBehaved n process) (hb : ∀ i t, (process i t).1.length ≤ b)
    (h : Good n s)
    (hy : Young (listOps n) s) (now : Tick) (hticks : s.rqueueTicks.toNat + n + b * 200 < 2147483648) :
    ∃ s', listStep n s (.turn now process) = some s' ∧ Young (listOps n) s' ∧
      ∃ woken new, (s.rqueue.list ++ woken).Nodup ∧ (s.rqueue.list ++ woken).length ≤ n ∧
        s'.rqueue.list = (s.rqueue.list ++ woken).drop 200 ++ new ∧
        (∀ t ∈ woken, t ∈ s.timers.list ∧ (s.expire t).isExpired now) ∧
          (Straight (listOps n) now s → ∀ t ∈ s.timers.list, ¬now.isLt (s.timers.key t) → (s.expire t).isExpired now →
            t ∈ s.rqueue.list ++ woken) ∧
            ∀ t, s'.calls t = if t ∈ (s.rqueue.list ++ woken).take 200 then s.calls t + 1 else s.calls t := by
  have hdue : due now s.timers ≤ n := due_le h.timers
  obtain ⟨s₁, hrun₁, hgood₁, hwoke, ⟨hy₁, hticks₁, woken, hlist₁⟩, hahead⟩ := wakeExpiredTasks_list
    (wakeKeeps_young s.rqueue.list (k := s.rqueueTicks.toNat + n) (by omega) now) h
    ⟨hy, by omega, [], (List.append_nil _).symm⟩
  obtain ⟨s', hrun, hy', ⟨new, hnew⟩, hcalls⟩ := processRunnableTasks_front hn hp hb hgood₁ hy₁ (by omega)
  refine ⟨s', ?_, hy', woken, new, hlist₁ ▸ hgood₁.rqueue.nodup, hlist₁ ▸ hgood₁.rqueue.length_le, ?_, fun t ht => ?_,
    fun hs t ht hdue hover => ?_, fun t => ?_⟩
  · rw [listStep, step, hrun₁]
    exact hrun
  · rw [hnew, hlist₁]
  · have hin : (listOps n).linked s₁.rqueue t = true := decide_eq_true (hlist₁ ▸ List.mem_append_right _ ht)
    have hnodup := hgood₁.rqueue.nodup
    rw [hlist₁] at hnodup
    have hout : (listOps n).linked s.rqueue t = false :=
      decide_eq_false fun hl => (List.nodup_append.mp hnodup).2.2 t hl t ht rfl
    have hnew : (listOps n).linked s₁.rqueue t ≠ (listOps n).linked s.rqueue t := by simp [hin, hout]
    by_cases hw : t ∈ s.timers.list
    · refine ⟨hw, ?_⟩
      cases hwoke.waiting t (decide_eq_true hw) with
      | stays _ _ hq | moved _ _ _ _ hq | dropped _ _ hq => exact absurd hq hnew
      | woken _ hover _ => exact hover
    · exact absurd (hwoke.others t (decide_eq_false hw)).2 hnew
  · have hin : t ∈ s₁.rqueue.list := of_decide_eq_true (hwoke.all_due (hahead hs) (decide_eq_true ht) hdue hover).2
    rwa [hlist₁] at hin
  · rw [hcalls, hlist₁, hwoke.calls]

/-! ## Runs -/

/-- An event that is allowed, whose functions make at most `b` calls each. -/
def Event.Within (n b : Nat) : Event → Prop
  | .turn _ process => WellBehaved n process ∧ ∀ i t, (process i t).1.length ≤ b
  | .call c => c.task < n

/-- The insertion counter is far from its middle. -/
def FarFromWrap (n b : Nat) (s : Memory) : Prop := s.rqueueTicks.toNat + n + b * 200 < 2147483648

instance : DecidablePred (FarFromWrap n b) := fun _ => Nat.decLt _ _

/-- What is kept throughout such a run. -/
structure Served (n : Nat) (s : Memory) (r : Queues) : Prop where
  means : Means n s r
  good : Good n r
  young : Young (listOps n) r

variable {m m' : Memory} {r r' : Queues} {es : List Event} {e : Event}

theorem Event.Within.allowed (he : e.Within n b) : e.Allowed n := by
  cases e with
  | turn now process => exact he.1
  | call c => exact he

theorem served_init (n : Nat) (key₁ key₂ expire : Nat → Tick) :
    Served n (.init key₁ key₂ expire fun _ => 0) (.init key₁ key₂ expire fun _ => 0) where
  means := means_init n key₁ key₂ expire _
  good := good_init n key₁ key₂ expire _
  young := ⟨fun _ => rfl, fun t ht => absurd (of_decide_eq_true (p := t ∈ []) ht) List.not_mem_nil⟩

/-- Fewer than `k` tasks are in front of a task. -/
def Ahead (k t : Nat) (l : List Nat) : Prop := ∃ p q, l = p ++ t :: q ∧ p.length < k

theorem Ahead.append {k : Nat} {l : List Nat} (h : Ahead k t l) (q : List Nat) : Ahead k t (l ++ q) := by
  obtain ⟨p, p', rfl, hp⟩ := h
  exact ⟨p, p' ++ q, by simp, hp⟩

theorem Ahead.erase {k : Nat} {l : List Nat} (h : Ahead k t l) (hut : u ≠ t) : Ahead k t (l.erase u) := by
  obtain ⟨p, q, rfl, hp⟩ := h
  by_cases hu : u ∈ p
  · refine ⟨p.erase u, q, List.erase_append_left _ hu, ?_⟩
    exact lt_of_le_of_lt List.length_erase_le hp
  · refine ⟨p, q.erase u, ?_, hp⟩
    rw [List.erase_append_right _ hu, List.erase_cons_tail (by simpa using hut.symm)]

/-- A task is among the first ones, or that many fewer are in front of it without them. -/
theorem Ahead.take_or_drop {k : Nat} {l : List Nat} (h : Ahead (k + 200) t l) :
    t ∈ l.take 200 ∨ Ahead k t (l.drop 200) := by
  obtain ⟨p, q, rfl, hp⟩ := h
  rcases Nat.lt_or_ge p.length 200 with hlt | hge
  · left
    rw [List.take_append, List.take_of_length_le (Nat.le_of_lt hlt)]
    refine List.mem_append_right _ ?_
    obtain ⟨j, hj⟩ := Nat.exists_eq_add_of_lt hlt
    rw [show 200 - p.length = j + 1 by omega]
    exact List.mem_cons_self
  · right
    refine ⟨p.drop 200, q, List.drop_append_of_le_length hge, ?_⟩
    rw [List.length_drop]
    omega

/-- How an event serves a run queue. -/
inductive Serves (n : Nat) (r r' : Queues) : Event → Prop where
  | turn (now : Tick) (process : Nat → Nat → List Call × Bool) (woken new : List Nat) :
      (r.rqueue.list ++ woken).Nodup → (r.rqueue.list ++ woken).length ≤ n →
      r'.rqueue.list = (r.rqueue.list ++ woken).drop 200 ++ new →
      (∀ t ∈ woken, t ∈ r.timers.list ∧ (r.expire t).isExpired now) →
      (Straight (listOps n) now r → ∀ t ∈ r.timers.list, ¬now.isLt (r.timers.key t) →
        (r.expire t).isExpired now → t ∈ r.rqueue.list ++ woken) →
      (∀ t, r'.calls t = if t ∈ (r.rqueue.list ++ woken).take 200 then r.calls t + 1 else r.calls t) →
      Serves n r r' (.turn now process)
  | call (c : Call) : (∀ k t, c ≠ .delete t → Ahead k t r.rqueue.list → Ahead k t r'.rqueue.list) → r'.calls = r.calls →
      Serves n r r' (.call c)

theorem Served.step (h : Served n m r) (hn : n < 4294967296) (he : e.Within n b) (hfar : FarFromWrap n b m) :
    ∃ m' r', memStep n m e = some m' ∧ Served n m' r' ∧ Serves n r r' e := by
  have hticks : r.rqueueTicks.toNat + n + b * 200 < 2147483648 := by
    rw [← h.means.rqueueTicks]
    exact hfar
  obtain ⟨r', hlist, hy, hserves⟩ : ∃ r', listStep n r e = some r' ∧ Young (listOps n) r' ∧ Serves n r r' e := by
    cases e with
    | turn now process =>
      obtain ⟨r', hlist, hy, woken, new, hnodup, hlen, hq, hwoken, hall, hcalls⟩ :=
        turn_front hn he.1 he.2 h.good h.young now hticks
      exact ⟨r', hlist, hy, .turn now process woken new hnodup hlen hq hwoken hall hcalls⟩
    | call c =>
      have hc : c.task < n := he
      obtain ⟨r', hrun, -, hy, hcalls, -, -⟩ :=
        call_front (q := []) h.good h.young rfl hc (fun _ _ => List.not_mem_nil) (by omega)
      refine ⟨r', hrun, hy, .call c (fun k t hdel hahead => ?_) hcalls⟩
      obtain ⟨r₁, hrun₁, -, -, -, hcase⟩ := call_list h.good c hc
      obtain rfl := Option.some.inj (hrun₁.symm.trans hrun)
      cases hcase with
      | stay _ hq => rwa [hq]
      | wakeup u hno hq ht =>
        have hnice : r₁.nice = r.nice := funext fun v => (hy.nice v).trans (h.young.nice v).symm
        rw [(h.young.woken hno hq ht hnice (by omega)).2.1]
        exact hahead.append _
      | delete u hq =>
        rw [hq]
        exact hahead.erase fun hut => hdel (congrArg Call.delete hut)
  obtain ⟨r₁, hlist₁, hgood⟩ := step_list h.good e he.allowed
  obtain rfl := Option.some.inj (hlist₁.symm.trans hlist)
  obtain ⟨m', hmem, hmeans⟩ := step_follows (waitOps_follow n) (runOps_follow n) (n + 1) h.means e r₁ hlist
  exact ⟨m', r₁, hmem, ⟨hmeans, hgood, hy⟩, hserves⟩

theorem Served.exec (h : Served n m r) (hn : n < 4294967296) (hes : ∀ e ∈ es, e.Within n b)
    (hfar : AllStates (memStep n) (FarFromWrap n b) m es) :
    ∃ m' r', Run.exec (memStep n) m es = some m' ∧ Served n m' r' := by
  induction es generalizing m r with
  | nil => exact ⟨m, r, rfl, h⟩
  | cons e es ih =>
    obtain ⟨he, hes⟩ := List.forall_mem_cons.mp hes
    obtain ⟨m₁, r₁, hmem, h₁, -⟩ := h.step hn he hfar.1
    obtain ⟨m', r', hrun, h'⟩ := ih h₁ hes (hfar.2 m₁ hmem)
    refine ⟨m', r', ?_, h'⟩
    rw [exec_cons, hmem]
    exact hrun

theorem Served.entries (h : Served n m r) : Ebtree.entries m.rqueue (n + 1) = some r.rqueue.list :=
  entries_spec h.means.rqueue.holds.lists (Nat.lt_succ_of_le h.means.rqueue.length_le)

/-- A turn calls the functions of the first 200 of those that are in the run queue and of those it wakes, each once;
the others keep their places, in front of those that are woken meanwhile. It wakes only tasks whose date is over, and
all of them unless the dates wrap around. -/
theorem turn_serves (n b : Nat) (hn : n < 4294967296) (key₁ key₂ expire : Nat → Tick) (es : List Event)
    (hes : ∀ e ∈ es, e.Within n b)
    (hfar : AllStates (memStep n) (FarFromWrap n b) (.init key₁ key₂ expire fun _ => 0) es) (now : Tick)
    (process : Nat → Nat → List Call × Bool) (hp : (Event.turn now process).Within n b) :
    ∃ s s' l woken new, exec (memStep n) (.init key₁ key₂ expire fun _ => 0) es = some s ∧
      memStep n s (.turn now process) = some s' ∧
      entries s.rqueue (n + 1) = some l ∧ (l ++ woken).Nodup ∧ (l ++ woken).length ≤ n ∧
        (∀ t ∈ woken, s.timers.tree.leafP t ≠ null ∧ (s.expire t).isExpired now) ∧
        (Straight (waitOps n) now s → ∀ t, s.timers.tree.leafP t ≠ null → ¬now.isLt (s.timers.tree.key t) →
          (s.expire t).isExpired now → t ∈ l ++ woken) ∧
        entries s'.rqueue (n + 1) = some ((l ++ woken).drop 200 ++ new) ∧
          ∀ t, s'.calls t = if t ∈ (l ++ woken).take 200 then s.calls t + 1 else s.calls t := by
  obtain ⟨s, r, hrun, h⟩ := (served_init n key₁ key₂ expire).exec hn hes hfar
  obtain ⟨s', r', hstep, h', hserves⟩ := h.step hn hp (hfar.last hrun)
  cases hserves with
  | turn now process woken new hnodup hlen hq hwoken hall hcalls =>
    refine ⟨s, s', r.rqueue.list, woken, new, hrun, hstep, h.entries, hnodup, hlen, fun t ht => ?_,
      fun hs t ht hdue hover => ?_, by rw [h'.entries, hq], ?_⟩
    · rw [ne_eq, h.means.timers.holds.leafP_eq_null, not_not, h.means.expire]
      exact hwoken t ht
    · rw [ne_eq, h.means.timers.holds.leafP_eq_null, not_not] at ht
      rw [h.means.timers.key] at hdue
      rw [h.means.expire] at hover
      exact hall ((straight_alike (waitOps_follow n) h.means).mp hs) t ht hdue hover
    · rw [h'.means.calls, h.means.calls]
      exact hcalls

theorem oneDate_within : ∀ e ∈ oneDate, e.Within 4 0 := by simp [oneDate, Event.Within, Call.task]

theorem turn_serves_four : ∃ s s', exec (memStep 4)
    (.init (fun _ => 0) (fun _ => 0) (fun _ => 0) fun _ => 0) oneDate = some s ∧
    memStep 4 s (.turn 10 fun _ _ => ([], true)) = some s' ∧ s'.calls 3 = s.calls 3 + 1 ∧
    s'.calls 0 = s.calls 0 + 1 := by
  obtain ⟨s, s', l, woken, new, hs, hrun, hl, -, hlen, -, hall, -, hcalls⟩ := turn_serves 4 0 (by decide) (fun _ => 0)
    (fun _ => 0) (fun _ => 0)
    oneDate oneDate_within (by decide) 10 (fun _ _ => ([], true))
    ⟨fun _ _ _ h => absurd h List.not_mem_nil, fun _ _ => Nat.le_refl 0⟩
  have hqueue : ((exec (memStep 4) (.init (fun _ => 0) (fun _ => 0) (fun _ => 0) fun _ => 0) oneDate).bind fun s =>
      entries s.rqueue 5) = some [3] := by decide
  rw [hs] at hqueue
  obtain rfl := Option.some.inj (hl.symm.trans hqueue)
  obtain ⟨hstraight, hwaits⟩ := oneDate_waits hs
  obtain ⟨hlinked, hdue, hover⟩ := hwaits 0 (by simp)
  have htake : ([3] ++ woken).take 200 = [3] ++ woken := List.take_of_length_le (hlen.trans (by decide))
  rw [htake] at hcalls
  have hfirst : 3 ∈ [3] ++ woken := List.mem_cons_self
  have hsecond : 0 ∈ [3] ++ woken := hall hstraight 0 hlinked hdue hover
  exact ⟨s, s', hs, hrun, by rw [hcalls 3, if_pos hfirst], by rw [hcalls 0, if_pos hsecond]⟩

/-- The number of turns in a run. -/
def turns (es : List Event) : Nat := es.countP fun
  | .turn _ _ => true
  | .call _ => false

theorem Served.within (h : Served n m r) (hn : n < 4294967296) (hes : ∀ e ∈ es, e.Within n b)
    (hfar : AllStates (memStep n) (FarFromWrap n b) m es) (hdel : ∀ e ∈ es, e ≠ .call (.delete t))
    (hahead : Ahead (200 * turns es) t r.rqueue.list) :
    ∃ es₁ es₂ m', es = es₁ ++ es₂ ∧ Run.exec (memStep n) m es₁ = some m' ∧
      m'.calls t = m.calls t + 1 := by
  induction es generalizing m r with
  | nil =>
    obtain ⟨p, q, -, hp⟩ := hahead
    exact absurd hp (Nat.not_lt_zero _)
  | cons e es ih =>
    obtain ⟨he, hes⟩ := List.forall_mem_cons.mp hes
    obtain ⟨hdele, hdel⟩ := List.forall_mem_cons.mp hdel
    obtain ⟨m₁, r₁, hmem, h₁, hserves⟩ := h.step hn he hfar.1
    have hmore (hahead₁ : Ahead (200 * turns es) t r₁.rqueue.list) (hcalls : m₁.calls t = m.calls t) :
        ∃ es₁ es₂ m', e :: es = es₁ ++ es₂ ∧
        Run.exec (memStep n) m es₁ = some m' ∧ m'.calls t = m.calls t + 1 := by
      obtain ⟨es₁, es₂, m', hsplit, hrun, hcalls'⟩ := ih h₁ hes (hfar.2 m₁ hmem) hdel hahead₁
      refine ⟨e :: es₁, es₂, m', by rw [hsplit, List.cons_append], ?_, by rw [hcalls', hcalls]⟩
      rw [exec_cons, hmem]
      exact hrun
    cases hserves with
    | turn now process woken new _ _ hq hwoken hall hcalls =>
      rw [← h.means.calls, ← h₁.means.calls] at hcalls
      have hturns : turns (Event.turn now process :: es) = turns es + 1 := List.countP_cons_of_pos rfl
      rw [hturns, Nat.mul_succ] at hahead
      by_cases hin : t ∈ (r.rqueue.list ++ woken).take 200
      · refine ⟨[.turn now process], es, m₁, rfl, ?_, by rw [hcalls, if_pos hin]⟩
        rw [exec_cons, hmem]
        rfl
      · refine hmore ?_ (by rw [hcalls, if_neg hin])
        rw [hq]
        exact ((hahead.append woken).take_or_drop.resolve_left hin).append new
    | call c hkeep hcalls =>
      have hturns : turns (Event.call c :: es) = turns es := List.countP_cons_of_neg (by simp)
      rw [hturns] at hahead
      refine hmore (hkeep _ t (fun hc => hdele (congrArg Event.call hc)) hahead) ?_
      rw [h.means.calls, h₁.means.calls, hcalls]

/-- Starvation does not happen: a task with fewer than 200 times as many tasks before it as there are turns to come
is called within them, unless it is deleted. -/
theorem served_in_turn (n b : Nat) (hn : n < 4294967296) (key₁ key₂ expire : Nat → Tick) (es fs : List Event)
    (hes : ∀ e ∈ es ++ fs, e.Within n b) (hfar : AllStates (memStep n) (FarFromWrap n b)
      (.init key₁ key₂ expire fun _ => 0) (es ++ fs))
    (t : Nat) (hdel : ∀ e ∈ fs, e ≠ .call (.delete t)) :
    ∃ s l, exec (memStep n) (.init key₁ key₂ expire fun _ => 0) es = some s ∧
      entries s.rqueue (n + 1) = some l ∧ (Ahead (200 * turns fs) t l →
        ∃ fs₁ fs₂ s', fs = fs₁ ++ fs₂ ∧ exec (memStep n) s fs₁ = some s' ∧ s'.calls t = s.calls t + 1) := by
  obtain ⟨hes, hfs⟩ := List.forall_mem_append.mp hes
  obtain ⟨hfar, hfar'⟩ := hfar.of_append
  obtain ⟨s, r, hrun, h⟩ := (served_init n key₁ key₂ expire).exec hn hes hfar
  exact ⟨s, r.rqueue.list, hrun, h.entries, h.within hn hfs (hfar' s hrun) hdel⟩

theorem served_in_turn_four : ∃ s fs s', exec (memStep 4)
    (.init (fun _ => 0) (fun _ => 0) (fun _ => 0) fun _ => 0) oneDate = some s ∧
    exec (memStep 4) s fs = some s' ∧ s'.calls 3 = s.calls 3 + 1 := by
  have hturn : (Event.turn 10 fun _ _ => ([], true)).Within 4 0 :=
    ⟨fun _ _ _ h => absurd h List.not_mem_nil, fun _ _ => Nat.le_refl 0⟩
  obtain ⟨s, l, hs, hl, hserved⟩ := served_in_turn 4 0 (by decide) (fun _ => 0) (fun _ => 0) (fun _ => 0) oneDate
    [.turn 10 fun _ _ => ([], true)]
    (List.forall_mem_append.mpr ⟨oneDate_within, List.forall_mem_singleton.mpr hturn⟩) (by decide) 3 (by simp)
  have hqueue : ((exec (memStep 4) (.init (fun _ => 0) (fun _ => 0) (fun _ => 0) fun _ => 0) oneDate).bind fun s =>
      entries s.rqueue 5) = some [3] := by decide
  rw [hs] at hqueue
  obtain rfl := Option.some.inj (hl.symm.trans hqueue)
  obtain ⟨fs, -, s', -, hrun, hcalls⟩ := hserved ⟨[], [], rfl, by decide⟩
  exact ⟨s, fs, s', hs, hrun, hcalls⟩

end ZeroServ.Tasks
