import ZeroServ.Tasks.Queues

/-!
# What `wake_expired_tasks` does with the waiting tasks

Each waiting task is woken because its date is over, moved to its date, which is still to come, left out because it
has no date, or left where it is (`Fate`); the others are not touched. Unless the dates wrap around between the
oldest and the newest one (`Straight`), none that is due is left, and `next` is the first of the dates at which the
others stand.
-/

namespace ZeroServ.Tasks

section

variable {σ ρ : Type} (W : Ops σ) (Q : Ops ρ)

/-- What becomes of a waiting task. -/
inductive Fate (now : Tick) (s s' : Sched σ ρ) (t : Nat) : Prop where
  | stays : W.linked s'.timers t → W.key s'.timers t = W.key s.timers t → Q.linked s'.rqueue t = Q.linked s.rqueue t →
    Fate now s s' t
  | moved : W.linked s'.timers t → W.key s'.timers t = s.expire t → (s.expire t).isExpired now = false →
      s.expire t ≠ 0 →
      Q.linked s'.rqueue t = Q.linked s.rqueue t → Fate now s s' t
  | woken : W.linked s'.timers t = false → (s.expire t).isExpired now → Q.linked s'.rqueue t → Fate now s s' t
  | dropped : W.linked s'.timers t = false → s.expire t = 0 → Q.linked s'.rqueue t = Q.linked s.rqueue t →
    Fate now s s' t

/-- What `wake_expired_tasks` leaves. -/
structure Woke (now : Tick) (s s' : Sched σ ρ) : Prop where
  expire : s'.expire = s.expire
  nice : s'.nice = s.nice
  calls : s'.calls = s.calls
  waiting : ∀ t, W.linked s.timers t → Fate W Q now s s' t
  others : ∀ t, W.linked s.timers t = false → W.linked s'.timers t = false ∧ Q.linked s'.rqueue t = Q.linked s.rqueue t

/-- The dates do not wrap around: all of them are after the one from which `wake_expired_tasks` looks, or all are
before it. -/
def Straight (now : Tick) (s : Sched σ ρ) : Prop :=
  (∀ t, W.linked s.timers t → now - timerLookBack < W.key s.timers t ∧
    (s.expire t ≠ 0 → now - timerLookBack < s.expire t)) ∨
    ∀ t, W.linked s.timers t → W.key s.timers t < now - timerLookBack ∧
    (s.expire t ≠ 0 → s.expire t < now - timerLookBack)

/-- Every waiting task stands at its date. -/
def Placed (s : Sched σ ρ) : Prop := ∀ t, W.linked s.timers t → W.key s.timers t = s.expire t

/-- All waiting tasks stand at dates that are to come, and `next` is the first of them. -/
def AllAhead (now : Tick) (s : Sched σ ρ) : Prop :=
  (∀ t, W.linked s.timers t → now.isLt (W.key s.timers t) ∧ (s.next - now).toInt ≤ (W.key s.timers t - now).toInt) ∧
    ((∀ t, W.linked s.timers t = false) ∧ s.next = 0 ∨ ∃ t, W.linked s.timers t ∧ s.next = W.key s.timers t)

variable {W Q} {now : Tick} {s s₁ s' : Sched σ ρ} {t : Nat}

theorem Woke.refl (s : Sched σ ρ) : Woke W Q now s s :=
  ⟨rfl, rfl, rfl, fun _ ht => .stays ht rfl rfl, fun _ ht => ⟨ht, rfl⟩⟩

theorem Woke.trans (h : Woke W Q now s s₁) (h' : Woke W Q now s₁ s') : Woke W Q now s s' where
  expire := h'.expire.trans h.expire
  nice := h'.nice.trans h.nice
  calls := h'.calls.trans h.calls
  waiting := by
    intro t ht
    have hexp := congrFun h.expire t
    cases h.waiting t ht with
    | stays hl hk hq =>
      cases h'.waiting t hl with
      | stays hl' hk' hq' => exact .stays hl' (hk'.trans hk) (hq'.trans hq)
      | moved hl' hk' hto hne hq' => exact .moved hl' (hk'.trans hexp) (hexp ▸ hto) (hexp ▸ hne) (hq'.trans hq)
      | woken hl' hover hq' => exact .woken hl' (hexp ▸ hover) hq'
      | dropped hl' hno hq' => exact .dropped hl' (hexp.symm.trans hno) (hq'.trans hq)
    | moved hl hk hto hne hq =>
      cases h'.waiting t hl with
      | stays hl' hk' hq' => exact .moved hl' (hk'.trans hk) hto hne (hq'.trans hq)
      | moved hl' hk' _ _ hq' => exact .moved hl' (hk'.trans hexp) hto hne (hq'.trans hq)
      | woken hl' hover hq' => exact .woken hl' (hexp ▸ hover) hq'
      | dropped hl' hno hq' => exact .dropped hl' (hexp.symm.trans hno) (hq'.trans hq)
    | woken hl hover hq =>
      obtain ⟨hl', hq'⟩ := h'.others t hl
      exact .woken hl' hover (hq'.trans hq)
    | dropped hl hno hq =>
      obtain ⟨hl', hq'⟩ := h'.others t hl
      exact .dropped hl' hno (hq'.trans hq)
  others := by
    intro t ht
    obtain ⟨hl, hq⟩ := h.others t ht
    obtain ⟨hl', hq'⟩ := h'.others t hl
    exact ⟨hl', hq'.trans hq⟩

/-- Where only one task is touched. -/
theorem woke_one (ht : W.linked s.timers t) (hf : Fate W Q now s s' t) (hexp : s'.expire = s.expire)
    (hnice : s'.nice = s.nice)
    (hcalls : s'.calls = s.calls) (hl : ∀ u ≠ t, W.linked s'.timers u = W.linked s.timers u)
    (hk : ∀ u ≠ t, W.key s'.timers u = W.key s.timers u) (hq : ∀ u ≠ t, Q.linked s'.rqueue u = Q.linked s.rqueue u) :
    Woke W Q now s s' where
  expire := hexp
  nice := hnice
  calls := hcalls
  waiting := by
    intro u hu
    by_cases hut : u = t
    · rw [hut]
      exact hf
    · exact .stays ((hl u hut).trans hu) (hk u hut) (hq u hut)
  others := by
    intro u hu
    have hut : u ≠ t := by
      rintro rfl
      exact absurd ht (by simp [hu])
    exact ⟨(hl u hut).trans hu, hq u hut⟩

/-- The tasks that wait still stand at dates they had. -/
theorem Woke.straight (h : Woke W Q now s s') (hs : Straight W now s) : Straight W now s' := by
  have hold : ∀ t, W.linked s'.timers t → W.linked s.timers t ∧
      (W.key s'.timers t = W.key s.timers t ∨ W.key s'.timers t = s.expire t ∧ s.expire t ≠ 0) := by
    intro t ht
    by_cases hl : W.linked s.timers t = true
    · refine ⟨hl, ?_⟩
      cases h.waiting t hl with
      | stays _ hk _ => exact .inl hk
      | moved _ hk _ hne _ => exact .inr ⟨hk, hne⟩
      | woken hno _ _ => exact absurd ht (by simp [hno])
      | dropped hno _ _ => exact absurd ht (by simp [hno])
    · exact absurd ht (by simp [(h.others t (Bool.eq_false_iff.mpr hl)).1])
  have hexp := h.expire
  refine hs.imp (fun hs t ht => ?_) fun hs t ht => ?_
  · obtain ⟨hl, hkey⟩ := hold t ht
    obtain ⟨hk, he⟩ := hs t hl
    rw [hexp]
    refine ⟨?_, he⟩
    rcases hkey with hkey | ⟨hkey, hne⟩
    · rwa [hkey]
    · rw [hkey]
      exact he hne
  · obtain ⟨hl, hkey⟩ := hold t ht
    obtain ⟨hk, he⟩ := hs t hl
    rw [hexp]
    refine ⟨?_, he⟩
    rcases hkey with hkey | ⟨hkey, hne⟩
    · rwa [hkey]
    · rw [hkey]
      exact he hne

/-- A task whose date is over and which stands at a date that is over is woken. -/
theorem Woke.all_due (h : Woke W Q now s s') (ha : AllAhead W now s') (ht : W.linked s.timers t)
    (hdue : ¬now.isLt (W.key s.timers t))
    (hover : (s.expire t).isExpired now) : W.linked s'.timers t = false ∧ Q.linked s'.rqueue t := by
  cases h.waiting t ht with
  | stays hl hk _ => exact absurd (hk ▸ (ha.1 t hl).1) hdue
  | moved _ _ hto _ _ => exact absurd hover (by simp [hto])
  | woken hl _ hq => exact ⟨hl, hq⟩
  | dropped _ hno _ =>
    rw [Tick.isExpired, hno] at hover
    exact absurd hover (by simp [Tick.isSet])

end

variable {n : Nat} {a : Listed} {s s' : Queues} {t u : Nat} {x date now : Tick}

/-! ## One task after the other -/

/-- How many tasks stand at dates that are over. -/
def due (now : Tick) (a : Listed) : Nat := a.list.countP fun t => !now.isLt (a.key t)

theorem due_delete (ht : t ∈ a.list) (hdue : ¬now.isLt (a.key t)) : due now (a.delete t) + 1 = due now a := by
  rw [due, due, (delete_perm ht).countP_eq, List.countP_cons, if_pos (by simpa using hdue)]
  rfl

theorem due_insert (ht : t ∉ a.list) (hx : now.isLt x) : due now (a.insert t x) = due now a := by
  have hkey : ∀ u ∈ a.list, Function.update a.key t x u = a.key u :=
    fun u hu => Function.update_of_ne (ne_of_mem_of_not_mem hu ht) _ _
  rw [due, due, (insert_perm a t x).countP_eq, List.countP_cons, if_neg (by simp [Listed.insert, hx])]
  exact List.countP_congr fun u hu => by simp only [Listed.insert, hkey u hu]

theorem queued_unqueued (h : Good n s) (t : Nat) : (s.unqueued t).queued t = s.queued t := by
  have hno : t ∉ (s.timers.delete t).list := h.timers.nodup.not_mem_erase
  have hsame : (s.timers.delete t).delete t = s.timers.delete t := by
    rw [Listed.delete, List.erase_of_not_mem hno]
  rw [Queues.queued, Queues.queued, Queues.unqueued]
  dsimp only
  rw [hsame]

/-- The first task after a new one was put before or behind the one that was the first. -/
theorem head?_insert (ht : t ∉ a.list) (x : Tick) :
    (a.insert t x).list.head? = if a.list.head?.all fun e => x < a.key e then some t else a.list.head? := by
  rw [Listed.insert, EbTree.insert]
  cases hlist : a.list with
  | nil => rfl
  | cons e q =>
    have he : Function.update a.key t x e = a.key e := by
      refine Function.update_of_ne ?_ _ _
      rintro rfl
      exact ht (hlist ▸ List.mem_cons_self)
    by_cases hlt : x < a.key e
    · rw [List.takeWhile_cons_of_neg (by simpa [he] using hlt)]
      simp [hlt]
    · rw [List.takeWhile_cons_of_pos (by simpa [he] using hlt)]
      simp [hlt]

theorem linked_delete {u : Nat} (hu : u ≠ t) : decide (u ∈ (a.delete t).list) = decide (u ∈ a.list) :=
  decide_eq_decide.mpr (List.mem_erase_of_ne hu)

theorem next_of_head (hhead : a.list.head? = some t) : a.next t = (a.delete t).list.head? := by
  obtain ⟨q, hlist⟩ := List.head?_eq_some_iff.mp hhead
  rw [next_split (p := []) hlist List.not_mem_nil, Listed.delete, hlist, List.erase_cons_head]

/-- Where the loop goes on at a task, whether `eb` led to it or stood at the end. -/
theorem wakeLoop_first {eb : Option Nat} (hfirst : orFirst (listOps n) s.timers eb = some (some t)) (k : Nat) :
    wakeLoop (listOps n) (listOps n) now (k + 1) s eb =
      wakeLoop (listOps n) (listOps n) now (k + 1) s (some t) := by
  rw [wakeLoop, wakeLoop, hfirst]
  rfl

/-- The loop at a task whose place is over. -/
theorem wakeLoop_over (ht : t ∈ s.timers.list) (hdue : ¬now.isLt (s.timers.key t)) (k : Nat) :
    wakeLoop (listOps n) (listOps n) now (k + 1) s (some t) =
      if !(s.expire t).isExpired now then
        if !(s.expire t).isSet then wakeLoop (listOps n) (listOps n) now k (s.unqueued t) (s.timers.next t)
        else (Raw.taskQueue (listOps n) (s.unqueued t) t).bind fun s₁ => wakeLoop (listOps n) (listOps n) now k s₁
          (if (s.timers.next t).all fun eb => s₁.timers.key t < s₁.timers.key eb then some t else s.timers.next t)
      else (taskWakeup (listOps n) (s.unqueued t) t).bind fun s₁ =>
          wakeLoop (listOps n) (listOps n) now k s₁ (s.timers.next t) := by
  have hnext : (listOps n).next s.timers t = some (s.timers.next t) := if_pos ht
  have hkey : (listOps n).key s.timers t = s.timers.key t := rfl
  rw [wakeLoop]
  simp only [orFirst, Option.bind_eq_bind, Option.bind_some, hkey, if_neg hdue, hnext]
  rfl

/-- One step of the loop, at a task whose place is over: the state after it, and where it goes on. -/
structure WakeStep (n : Nat) (now : Tick) (s : Queues) (t : Nat) (s₁ : Queues) (eb₁ : Option Nat) : Prop where
  run : ∀ k, wakeLoop (listOps n) (listOps n) now (k + 1) s (some t) = wakeLoop (listOps n) (listOps n) now k s₁ eb₁
  good : Good n s₁
  woke : Woke (listOps n) (listOps n) now s s₁
  fewer : due now s₁.timers + 1 = due now s.timers
  mem : ∀ e, eb₁ = some e → e ∈ s₁.timers.list
  head : s.timers.list.head? = some t → eb₁ = s₁.timers.list.head?
  left : (s.expire t).isExpired now → eb₁ = s.timers.next t ∧ s₁.timers = s.timers.delete t
  runCase : RunCase s s₁ (.wakeup t)

section step

variable (h : Good n s) (ht : t ∈ s.timers.list) (hdue : ¬now.isLt (s.timers.key t))
include h ht hdue

/-- The task leaves the wait queue. -/
theorem WakeStep.of_left {s₁ : Queues} (htimers : s₁.timers = s.timers.delete t)
    (hrun : ∀ k, wakeLoop (listOps n) (listOps n) now (k + 1) s (some t) =
      wakeLoop (listOps n) (listOps n) now k s₁ (s.timers.next t))
    (hgood : Good n s₁) (hwoke : Woke (listOps n) (listOps n) now s s₁) (hcase : RunCase s s₁ (.wakeup t)) :
    WakeStep n now s t s₁ (s.timers.next t) where
  run := hrun
  good := hgood
  woke := hwoke
  fewer := by
    rw [htimers]
    exact due_delete ht hdue
  mem e he := by
    rw [htimers]
    exact mem_of_next h.timers.nodup ht he
  head hhead := by
    rw [htimers]
    exact next_of_head hhead
  left _ := ⟨rfl, htimers⟩
  runCase := hcase

/-- Its date is over: the task is woken, if it is not to run already. -/
theorem wakeStep_woken (hover : (s.expire t).isExpired now) : ∃ s₁, WakeStep n now s t s₁ (s.timers.next t) := by
  have hno : t ∉ (s.timers.delete t).list := h.timers.nodup.not_mem_erase
  by_cases hin : t ∈ s.rqueue.list
  · refine ⟨s.unqueued t, .of_left h ht hdue rfl (fun k => ?_) (h.unqueued t) ?_ (.stay _ rfl rfl)⟩
    · rw [wakeLoop_over ht hdue, if_neg (by simp [hover])]
      simp [taskWakeup, listOps, Queues.unqueued, hin]
    · exact woke_one (t := t) (decide_eq_true ht) (.woken (decide_eq_false hno) hover (decide_eq_true hin))
        rfl rfl rfl (fun _ => linked_delete) (fun _ _ => rfl) fun _ _ => rfl
  · have hwake : taskWakeup (listOps n) (s.unqueued t) t = some ((s.unqueued t).woken t) := by
      rw [taskWakeup, if_neg (by simpa [listOps, Queues.unqueued] using hin)]
      exact rawTaskWakeup_list (h.timers.lt t ht) hin
    refine ⟨(s.unqueued t).woken t, .of_left h ht hdue rfl (fun k => ?_)
      ((h.unqueued t).woken (h.timers.lt t ht) hin) ?_ (.wakeup t hin rfl rfl)⟩
    · rw [wakeLoop_over ht hdue, if_neg (by simp [hover]), hwake]
      rfl
    · refine woke_one (t := t) (decide_eq_true ht) (.woken (decide_eq_false hno) hover ?_) rfl rfl rfl
        (fun _ => linked_delete) (fun _ _ => rfl) fun u hu => ?_
      · exact decide_eq_true (mem_insert.mpr (.inl rfl))
      · refine decide_eq_decide.mpr (mem_insert.trans ?_)
        exact ⟨fun hor => hor.resolve_left hu, .inr⟩

/-- Its date is to come: the task is put back at it. -/
theorem wakeStep_moved (hto : (s.expire t).isExpired now = false) (hset : (s.expire t).isSet) :
    ∃ eb₁, WakeStep n now s t (s.queued t) eb₁ := by
  have hno : t ∉ (s.timers.delete t).list := h.timers.nodup.not_mem_erase
  have hmem : ∀ e, s.timers.next t = some e → e ∈ (s.timers.delete t).list :=
    fun e he => mem_of_next h.timers.nodup ht he
  have hrun : Raw.taskQueue (listOps n) (s.unqueued t) t = some (s.queued t) := by
    rw [rawTaskQueue_list (h.unqueued t) (h.timers.lt t ht), queued_unqueued h]
  have hahead : now.isLt (s.expire t) := by
    by_contra hlt
    rw [Tick.isExpired, hset, Bool.true_and] at hto
    rw [Tick.isLe_of_not_isLt (Bool.eq_false_iff.mpr hlt)] at hto
    exact Bool.noConfusion hto
  have hkeys : ∀ e, s.timers.next t = some e → (s.queued t).timers.key e = s.timers.key e := by
    intro e he
    exact Function.update_of_ne (ne_of_mem_of_not_mem (hmem e he) hno) _ _
  refine ⟨_, fun k => by rw [wakeLoop_over ht hdue, if_pos (by simp [hto]), if_neg (by simp [hset]), hrun]; rfl,
    h.queued (h.timers.lt t ht), ?_, ?_, fun e he => ?_, fun hfirst => ?_,
    fun hover => absurd hover (Bool.eq_false_iff.mp hto), .stay _ rfl rfl⟩
  · refine woke_one (t := t) (decide_eq_true ht) (.moved ?_ ?_ hto (Tick.isSet_iff.mp hset) rfl) rfl rfl rfl
      (fun u hu => ?_) (fun u hu => ?_) fun _ _ => rfl
    · exact decide_eq_true (mem_insert.mpr (.inl rfl))
    · exact Function.update_self ..
    · refine decide_eq_decide.mpr (mem_insert.trans ?_)
      exact ⟨fun hor => List.mem_of_mem_erase (hor.resolve_left hu),
        fun hu' => .inr ((List.mem_erase_of_ne hu).mpr hu')⟩
    · exact Function.update_of_ne hu _ _
  · exact (congrArg (· + 1) (due_insert hno hahead)).trans (due_delete ht hdue)
  · refine mem_insert.mpr ?_
    split at he
    · exact .inl (Option.some.inj he).symm
    · exact .inr (hmem e he)
  · have hins : (s.queued t).timers.list.head? = _ := head?_insert hno (s.expire t)
    rw [hins, ← next_of_head hfirst]
    have hself : (s.queued t).timers.key t = s.expire t := Function.update_self ..
    have hkey : (s.timers.delete t).key = s.timers.key := rfl
    cases hn : s.timers.next t with
    | none => rfl
    | some e => simp only [Option.all_some, hself, hkeys e hn, hkey]

/-- It has no date, and is not put back. -/
theorem wakeStep_dropped (hto : (s.expire t).isExpired now = false) (hset : ¬(s.expire t).isSet) :
    WakeStep n now s t (s.unqueued t) (s.timers.next t) := by
  have hno : t ∉ (s.timers.delete t).list := h.timers.nodup.not_mem_erase
  have hzero : s.expire t = 0 := by
    by_contra hne
    exact hset (Tick.isSet_iff.mpr hne)
  refine .of_left h ht hdue rfl (fun k => ?_) (h.unqueued t) ?_ (.stay _ rfl rfl)
  · rw [wakeLoop_over ht hdue, if_pos (by simp [hto]), if_pos (by simp [hset])]
  · exact woke_one (t := t) (decide_eq_true ht) (.dropped (decide_eq_false hno) hzero rfl) rfl rfl rfl
      (fun _ => linked_delete) (fun _ _ => rfl) fun _ _ => rfl

theorem wakeLoop_step : ∃ s₁ eb₁, WakeStep n now s t s₁ eb₁ := by
  by_cases hover : (s.expire t).isExpired now
  · obtain ⟨s₁, hstep⟩ := wakeStep_woken h ht hdue hover
    exact ⟨s₁, _, hstep⟩
  · have hto : (s.expire t).isExpired now = false := Bool.eq_false_iff.mpr hover
    by_cases hset : (s.expire t).isSet
    · exact ⟨_, wakeStep_moved h ht hdue hto hset⟩
    · exact ⟨_, _, wakeStep_dropped h ht hdue hto hset⟩

end step

/-! ## The whole loop -/

/-- How far a date is from now, counted from where the walk starts. -/
theorem toInt_sub_now (now c : Tick) : (c - now).toInt = ((c - (now - timerLookBack)).toNat : Int) - 2147483648 := by
  have e₁ := BitVec.toNat_sub c now
  have e₂ := BitVec.toNat_sub c (now - timerLookBack)
  have e₃ := BitVec.toNat_sub now timerLookBack
  have hback : timerLookBack.toNat = 2147483648 := rfl
  have hnow := now.isLt
  have hc := c.isLt
  rcases Tick.toInt_cases (c - now) with ⟨h, h'⟩ | ⟨h, h'⟩ <;> omega

/-- A date is to come, or as far as can be. -/
theorem isLt_iff (now c : Tick) : now.isLt c ↔ 0 < (c - now).toInt ∨ (c - now).toInt = -2147483648 := by
  have hiff : now.isLt c ↔ (now - c).toInt < 0 := decide_eq_true_iff
  rw [hiff]
  have e₁ := BitVec.toNat_sub now c
  have e₂ := BitVec.toNat_sub c now
  have hnow := now.isLt
  have hc := c.isLt
  rcases Tick.toInt_cases (now - c) with ⟨h, h'⟩ | ⟨h, h'⟩
    <;> rcases Tick.toInt_cases (c - now) with ⟨h₂, h₂'⟩ | ⟨h₂, h₂'⟩ <;> omega

/-- Of dates on one side of where the walk starts, those after one that is to come are to come too. -/
theorem ahead_of_le {b c : Tick} (hb : now.isLt b) (hle : b ≤ c)
    (hside : now - timerLookBack < b ∨ c < now - timerLookBack) : now.isLt c ∧ (b - now).toInt ≤ (c - now).toInt := by
  rw [isLt_iff, toInt_sub_now] at hb ⊢
  rw [toInt_sub_now now b]
  generalize now - timerLookBack = x at hb hside ⊢
  rw [BitVec.le_def] at hle
  rw [BitVec.lt_def, BitVec.lt_def] at hside
  have e₁ := BitVec.toNat_sub b x
  have e₂ := BitVec.toNat_sub c x
  have hx := x.isLt
  have hbl := b.isLt
  have hcl := c.isLt
  omega

/-- Where the first of the tasks stands at a date that is to come, they all do. -/
theorem allAhead_of_head (h : Good n s) (hs : Straight (listOps n) now s) (ht : s.timers.list.head? = some t)
    (hahead : now.isLt (s.timers.key t)) :
    AllAhead (listOps n) now { s with next := s.timers.key t } := by
  obtain ⟨q, hlist⟩ := List.head?_eq_some_iff.mp ht
  have hmem : t ∈ s.timers.list := hlist ▸ List.mem_cons_self
  refine ⟨fun u hu => ?_, .inr ⟨t, decide_eq_true hmem, rfl⟩⟩
  have hu : u ∈ s.timers.list := of_decide_eq_true hu
  have hle : s.timers.key t ≤ s.timers.key u := by
    have hsorted := h.timers.sorted
    rw [hlist] at hu hsorted
    rcases List.mem_cons.mp hu with rfl | hu
    · exact BitVec.le_refl _
    · exact (List.pairwise_cons.mp hsorted).1 u hu
  refine ahead_of_le hahead hle (hs.imp (fun hs => ?_) fun hs => ?_)
  · exact (hs t (decide_eq_true hmem)).1
  · exact (hs u (decide_eq_true hu)).1

/-- What each task that is taken out of the wait queue keeps. -/
structure WakeKeeps (n : Nat) (now : Tick) (P : Queues → Prop) : Prop where
  next : ∀ s next, P s → P { s with next }
  step : ∀ s s₁ t, Good n s → P s → s₁.nice = s.nice → due now s₁.timers + 1 = due now s.timers →
    RunCase s s₁ (.wakeup t) → P s₁

theorem wakeLoop_list {P : Queues → Prop} (hP : WakeKeeps n now P) (k : Nat) (h : Good n s) (hPs : P s)
    {eb : Option Nat} (heb : ∀ e, eb = some e → e ∈ s.timers.list) (hk : due now s.timers < k) :
    ∃ s', wakeLoop (listOps n) (listOps n) now k s eb = some s' ∧ Good n s' ∧
      Woke (listOps n) (listOps n) now s s' ∧ P s' ∧
      (Straight (listOps n) now s → eb = none ∨ eb = s.timers.list.head? → AllAhead (listOps n) now s') := by
  induction k generalizing s eb with
  | zero => exact absurd hk (Nat.not_lt_zero _)
  | succ k ih =>
    have hstop (next : Tick) : Good n { s with next } ∧ Woke (listOps n) (listOps n) now s { s with next } :=
      ⟨h.of_rqueue h.timers rfl rfl rfl rfl, ⟨rfl, rfl, rfl, fun _ ht => .stays ht rfl rfl, fun _ ht => ⟨ht, rfl⟩⟩⟩
    -- where the loop goes on at the first task
    have hfirst : ∃ eb₁, orFirst (listOps n) s.timers eb = some eb₁ ∧ (∀ e, eb₁ = some e → e ∈ s.timers.list) ∧
        (eb = none ∨ eb = s.timers.list.head? → eb₁ = s.timers.list.head?) ∧ (eb₁ = none → s.timers.list = []) := by
      cases eb with
      | none => exact ⟨_, rfl, fun e he => List.mem_of_head? he, fun _ => rfl, List.head?_eq_none_iff.mp⟩
      | some e => exact ⟨_, rfl, heb, fun hor => hor.resolve_left (Option.some_ne_none e),
        fun hno => absurd hno (Option.some_ne_none e)⟩
    obtain ⟨eb₁, horfirst, hmem, hhead, hnil⟩ := hfirst
    cases eb₁ with
    | none =>
      refine ⟨{ s with next := 0 }, by rw [wakeLoop, horfirst]; rfl, (hstop 0).1, (hstop 0).2, hP.next s 0 hPs,
        fun _ _ => ?_⟩
      have hempty := hnil rfl
      exact ⟨fun u hu => absurd (of_decide_eq_true hu) (by simp [hempty]),
        .inl ⟨fun u => by simp [listOps, hempty], rfl⟩⟩
    | some t =>
      have ht : t ∈ s.timers.list := hmem t rfl
      by_cases hlt : now.isLt (s.timers.key t)
      · refine ⟨{ s with next := s.timers.key t }, ?_, (hstop _).1, (hstop _).2, hP.next s _ hPs, fun hs hor =>
           allAhead_of_head h hs (hhead hor).symm hlt⟩
        have hkey : (listOps n).key s.timers t = s.timers.key t := rfl
        rw [wakeLoop, horfirst]
        simp only [Option.bind_eq_bind, Option.bind_some, hkey, if_pos hlt]
        rfl
      · obtain ⟨s₁, eb₁, hstep, hgood, hwoke, hdue, heb₁, hhead₁, -, hcase⟩ := wakeLoop_step h ht hlt
        obtain ⟨s', hrun, hgood', hwoke', hP', hahead⟩ :=
          ih hgood (hP.step s s₁ t h hPs hwoke.nice hdue hcase) heb₁ (by omega)
        refine ⟨s', ?_, hgood', hwoke.trans hwoke', hP',
          fun hs hor => hahead (hwoke.straight hs) (.inr (hhead₁ (hhead hor).symm))⟩
        rw [wakeLoop_first horfirst, hstep, hrun]

theorem Bounded.length_le (h : Bounded n a) : a.list.length ≤ n := EbTree.length_le_of_lt h.nodup h.lt

theorem due_le (h : Bounded n a) : due now a ≤ n := List.countP_le_length.trans h.length_le

/-- The walk starts at the first task, or where the first one would be met next. -/
theorem lookupGe_head (hs : Straight (listOps n) now s) (next : Option Nat)
    (hnext : next = (EbTree.lookupGe s.timers.key (now - timerLookBack) s.timers.list).rest.head?) :
    next = none ∨ next = s.timers.list.head? := by
  rw [hnext, EbTree.lookupGe]
  rcases hs with hs | hs
  · right
    cases hlist : s.timers.list with
    | nil => rfl
    | cons t q =>
      have hlt : now - timerLookBack < s.timers.key t := (hs t (decide_eq_true (hlist ▸ List.mem_cons_self))).1
      rw [List.dropWhile_cons_of_neg]
      simpa using BitVec.le_of_lt hlt
  · left
    have hall : ∀ t ∈ s.timers.list, decide (s.timers.key t < now - timerLookBack) = true := fun t ht =>
      decide_eq_true (hs t (decide_eq_true ht)).1
    rw [List.dropWhile_eq_nil_iff.mpr hall]
    rfl

theorem wakeExpiredTasks_list {P : Queues → Prop} (hP : WakeKeeps n now P) (h : Good n s) (hPs : P s) :
    ∃ s', wakeExpiredTasks (listOps n) (listOps n) (n + 1) now s = some s' ∧ Good n s' ∧
      Woke (listOps n) (listOps n) now s s' ∧ P s' ∧
      (Straight (listOps n) now s → AllAhead (listOps n) now s') := by
  obtain ⟨s', hrun, hgood, hwoke, hP', hahead⟩ := wakeLoop_list hP (n + 1) h hPs
    (fun e he => (List.dropWhile_sublist _).subset (List.mem_of_head? he) : ∀ e,
      (EbTree.lookupGe s.timers.key (now - timerLookBack) s.timers.list).rest.head? = some e → e ∈ s.timers.list)
    (Nat.lt_succ_of_le (due_le h.timers))
  exact ⟨s', hrun, hgood, hwoke, hP', fun hs => hahead hs (lookupGe_head hs _ rfl)⟩

theorem wakeKeeps_true (n : Nat) (now : Tick) : WakeKeeps n now fun _ => True :=
  ⟨fun _ _ _ => trivial, fun _ _ _ _ _ _ _ _ => trivial⟩

/-- What the environment may do: calls for tasks below `n`, and functions that delete no task but their own. -/
def Event.Allowed (n : Nat) : Event → Prop
  | .turn _ process => WellBehaved n process
  | .call c => c.task < n

/-- No event stops the scheduler. -/
theorem step_list (h : Good n s) (e : Event) (he : e.Allowed n) :
    ∃ s', step (listOps n) (listOps n) (n + 1) s e = some s' ∧ Good n s' := by
  cases e with
  | turn now process =>
    obtain ⟨s₁, hrun₁, hgood₁, -⟩ := wakeExpiredTasks_list (wakeKeeps_true n now) h trivial
    obtain ⟨s', hrun, hgood⟩ := processRunnableTasks_list he hgood₁
    refine ⟨s', ?_, hgood⟩
    rw [step, hrun₁]
    exact hrun
  | call c =>
    obtain ⟨s', hrun, hgood, -⟩ := call_list h c he
    exact ⟨s', hrun, hgood⟩

theorem exec_list (h : Good n s) (es : List Event) (hes : ∀ e ∈ es, e.Allowed n) :
    ∃ s', Run.exec (step (listOps n) (listOps n) (n + 1)) s es = some s' ∧ Good n s' := by
  induction es generalizing s with
  | nil => exact ⟨s, rfl, h⟩
  | cons e es ih =>
    obtain ⟨he, hes⟩ := List.forall_mem_cons.mp hes
    obtain ⟨s₁, hstep, hgood₁⟩ := step_list h e he
    obtain ⟨s', hrun, hgood⟩ := ih hgood₁ hes
    refine ⟨s', ?_, hgood⟩
    rw [Run.exec_cons, hstep]
    exact hrun

end ZeroServ.Tasks
