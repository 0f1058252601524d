import ZeroServ.Lib.Mirror
import ZeroServ.PubSub.Delivery
import ZeroServ.PubSub.Logins

/-!
# Members and their topics

A topic keeps its members and an account its topics; `topic_join`, `topic_left` and `topic_delete` write to both. The
loop of `topic_delete` counts up over a vector that `topic_left` shrinks, so every second member keeps a pointer to
the topic that is freed. `symmetric_iff_small`: membership is the same relation on both sides throughout a run
exactly when every topic that is deleted has at most one member.
-/

namespace ZeroServ

open CString Run Mirror

namespace Model

/-- What the accounts keep of their topics. -/
def lists (m : Model) : List (Nat × List Nat) := m.accounts.map fun acc => (acc.id, acc.subLists)

/-- What the topics keep of their members. -/
def rolls (m : Model) : List (Nat × List Nat) := m.topics.map fun top => (top.addr, top.members)

/-- Every topic of an account is in the list of topics, an account is a member of a topic where the topic is one of
the account's, and no vector of theirs holds an entry twice. -/
structure Symmetric (m : Model) : Prop where
  live : ∀ acc ∈ m.accounts, ∀ t ∈ acc.subLists, ∃ top ∈ m.topics, top.addr = t
  both : ∀ acc ∈ m.accounts, ∀ top ∈ m.topics, top.addr ∈ acc.subLists ↔ acc.id ∈ top.members
  subLists : ∀ acc ∈ m.accounts, acc.subLists.Nodup
  members : ∀ top ∈ m.topics, top.members.Nodup
  fds : ∀ top ∈ m.topics, top.fds.Nodup

/-- A `delete` is of a topic with at most one member. -/
def DeletesSmall (m : Model) (content : Mem) : Prop :=
  command content = some .delete → ∀ top ∈ m.topicGet (content.drop 7), top.members.length ≤ 1

instance (m : Model) (content : Mem) : Decidable (m.DeletesSmall content) := by
  unfold DeletesSmall
  infer_instance

/-! ## What an operation writes -/

section writes

variable (m : Model)

theorem lists_setAccount (g : List Nat → List Nat) (id : Nat) :
    (m.setAccount id fun a => { a with subLists := g a.subLists }).lists = setAt id g m.lists := by
  simp only [lists, setAccount, setAt, List.map_map]
  refine List.map_congr_left fun acc _ => ?_
  dsimp only [Function.comp_apply]
  split <;> rfl

theorem lists_setAccount_fds (g : List Fd → List Fd) (id : Nat) :
    (m.setAccount id fun a => { a with fds := g a.fds }).lists = m.lists := by
  simp only [lists, setAccount, List.map_map]
  refine List.map_congr_left fun acc _ => ?_
  dsimp only [Function.comp_apply]
  split <;> rfl

theorem rolls_setTopic (g : List Nat → List Nat) (addr : Nat) :
    (m.setTopic addr fun t => { t with members := g t.members }).rolls = setAt addr g m.rolls := by
  simp only [rolls, setTopic, setAt, List.map_map]
  refine List.map_congr_left fun top _ => ?_
  dsimp only [Function.comp_apply]
  split <;> rfl

theorem rolls_setTopic_fds (g : List Fd → List Fd) (addr : Nat) :
    (m.setTopic addr fun t => { t with fds := g t.fds }).rolls = m.rolls := by
  simp only [rolls, setTopic, List.map_map]
  refine List.map_congr_left fun top _ => ?_
  dsimp only [Function.comp_apply]
  split <;> rfl

/-- The tables after `topic_left`. -/
theorem topicLeft_tables (topAddr accId : Nat) :
    (m.topicLeft topAddr accId).lists = setAt accId (·.erase topAddr) m.lists ∧
      (m.topicLeft topAddr accId).rolls = setAt topAddr (·.erase accId) m.rolls :=
  ⟨lists_setAccount _ (vectorRemove · topAddr) accId, rolls_setTopic m (vectorRemove · accId) topAddr⟩

/-- The tables after `topic_join` of an account that is no member. -/
theorem topicJoin_tables {top : Topic} {acc : Account} (hno : acc.id ∉ top.members) (hacc : acc.id ≠ 0)
    (htop : top.addr ≠ 0) :
    (m.topicJoin top acc).lists = setAt acc.id (· ++ [top.addr]) m.lists ∧
      (m.topicJoin top acc).rolls = setAt top.addr (· ++ [acc.id]) m.rolls := by
  have hmembers : (fun v => vectorInsert v acc.id 0) = (· ++ [acc.id]) := funext fun v => vectorInsert_of_ne hacc v 0
  have hsubs : (fun v => vectorInsert v top.addr 0) = (· ++ [top.addr]) := funext fun v => vectorInsert_of_ne htop v 0
  rw [topicJoin, if_neg (mt (vectorIsExist_iff _ _).mp hno), ← hmembers, ← hsubs]
  exact ⟨lists_setAccount _ (vectorInsert · top.addr 0) acc.id, rolls_setTopic m (vectorInsert · acc.id 0) top.addr⟩

theorem topicSub_tables (top : Topic) (fd : Fd) (slot : Nat) :
    (m.topicSub top fd slot).lists = m.lists ∧ (m.topicSub top fd slot).rolls = m.rolls := by
  unfold topicSub
  split
  · exact ⟨rfl, rfl⟩
  · exact ⟨rfl, rolls_setTopic_fds m (vectorInsert · fd slot) top.addr⟩

end writes

/-! ## The invariant -/

/-- Accounts and topics keep one relation, under pointers that are not `NULL`; the ids that are in use have been
counted. -/
structure MemberInv (m : Model) : Prop where
  mirror : Mirror m.lists m.rolls
  ids : ∀ i ∈ m.lists.map Prod.fst, i ≠ 0 ∧ i ≤ m.accountIds
  addrs : ∀ t ∈ m.rolls.map Prod.fst, t ≠ 0
  listed : TopicsInv (fun _ _ => True) m

variable {m m' : Model} {fd : Fd} {sup : Supply}

theorem MemberInv.symmetric (hi : m.MemberInv) : m.Symmetric := by
  refine ⟨?_, ?_, ?_, ?_, ?_⟩
  · intro acc hacc t ht
    obtain ⟨r, hr, rfl⟩ := List.mem_map.mp (hi.mirror.onLeft.live _ (List.mem_map_of_mem hacc) t ht)
    obtain ⟨top, htop, rfl⟩ := List.mem_map.mp hr
    exact ⟨top, htop, rfl⟩
  · exact fun acc hacc top htop => hi.mirror.agree _ (List.mem_map_of_mem hacc) _ (List.mem_map_of_mem htop)
  · exact fun acc hacc => hi.mirror.onLeft.nodup _ (List.mem_map_of_mem hacc)
  · exact fun top htop => hi.mirror.onRight.nodup _ (List.mem_map_of_mem htop)
  · exact fun top htop => hi.listed.nodup _ (List.mem_map_of_mem htop)

/-- A write that leaves the keys of the tables. -/
theorem MemberInv.write (hi : m.MemberInv) (hmirror : Mirror m'.lists m'.rolls)
    (hlists : m'.lists.map Prod.fst = m.lists.map Prod.fst) (hrolls : m'.rolls.map Prod.fst = m.rolls.map Prod.fst)
    (hids : m'.accountIds = m.accountIds) (hlisted : TopicsInv (fun _ _ => True) m') : m'.MemberInv :=
  ⟨hmirror, by rw [hlists, hids]; exact hi.ids, by rw [hrolls]; exact hi.addrs, hlisted⟩

/-- A write that leaves the tables. -/
theorem MemberInv.congr (hi : m.MemberInv) (hlists : m'.lists = m.lists) (hrolls : m'.rolls = m.rolls)
    (hids : m'.accountIds = m.accountIds) (hlisted : TopicsInv (fun _ _ => True) m') : m'.MemberInv :=
  hi.write (by rw [hlists, hrolls]; exact hi.mirror) (by rw [hlists]) (by rw [hrolls]) hids hlisted

theorem MemberInv.modelSub (hi : m.MemberInv) (fd : Fd) (topic : Mem) (hst : Stores fd sup) :
    (m.modelSub fd topic sup.slot).2.MemberInv := by
  have hlisted : TopicsInv (fun _ _ => True) (m.modelSub fd topic sup.slot).2 := by
    rcases hi.listed.modelSub fd hst topic with ⟨-, h⟩ | ⟨-, h⟩
    · exact h.mono fun _ _ _ => trivial
    · exact h
  unfold Model.modelSub at hlisted ⊢
  split at hlisted
  · next top acc htop hacc =>
    obtain ⟨hmem, -⟩ := topicGet_some htop
    have hmem' : acc ∈ m.accounts := List.mem_of_find?_eq_some hacc
    have hrow : (acc.id, acc.subLists) ∈ m.lists := List.mem_map_of_mem hmem'
    have hroll : (top.addr, top.members) ∈ m.rolls := List.mem_map_of_mem hmem
    obtain ⟨hlists, hrolls⟩ := (m.topicJoin top acc).topicSub_tables top fd sup.slot
    have hids : ((m.topicJoin top acc).topicSub top fd sup.slot).accountIds = m.accountIds := by
      rw [accountIds_topicSub, accountIds_topicJoin]
    by_cases hin : acc.id ∈ top.members
    · have hsame : m.topicJoin top acc = m := if_pos ((vectorIsExist_iff _ _).mpr hin)
      rw [hsame] at hlists hrolls hlisted hids ⊢
      exact hi.congr hlists hrolls hids hlisted
    · have hno : top.addr ∉ acc.subLists := mt (hi.mirror.agree _ hrow _ hroll).mp hin
      obtain ⟨hl, hr⟩ := m.topicJoin_tables hin (hi.ids _ (List.mem_map_of_mem hrow)).1
        (hi.addrs _ (List.mem_map_of_mem hroll))
      refine hi.write ?_ ?_ ?_ hids hlisted
      · rw [hlists, hrolls, hl, hr]
        exact hi.mirror.link hrow (List.mem_map_of_mem hroll) hno
      · rw [hlists, hl, map_fst_setAt]
      · rw [hrolls, hr, map_fst_setAt]
  · exact hi

theorem MemberInv.modelUnsub (hi : m.MemberInv) (fd : Fd) (topic : Mem) : (m.modelUnsub fd topic).2.MemberInv := by
  have hlisted : TopicsInv (fun _ _ => True) (m.modelUnsub fd topic).2 := by
    rcases hi.listed.modelUnsub fd topic with ⟨-, h⟩ | ⟨-, h⟩
    · exact h.mono fun _ _ _ => trivial
    · exact h
  unfold Model.modelUnsub at hlisted ⊢
  split at hlisted
  · next top acc htop hacc =>
    obtain ⟨hl, hr⟩ := m.topicLeft_tables top.addr acc.id
    have hr' : ((m.topicLeft top.addr acc.id).topicUnsub top fd).rolls = (m.topicLeft top.addr acc.id).rolls :=
      rolls_setTopic_fds _ (vectorRemove · fd) top.addr
    have hl' : ((m.topicLeft top.addr acc.id).topicUnsub top fd).lists = (m.topicLeft top.addr acc.id).lists := rfl
    refine hi.write ?_ ?_ ?_ rfl hlisted
    · rw [hl', hr', hl, hr]
      exact hi.mirror.unlink acc.id top.addr
    · rw [hl', hl, map_fst_setAt]
    · rw [hr', hr, map_fst_setAt]
  · exact hi

theorem MemberInv.modelTopicCreate (hi : m.MemberInv) (fd : Fd) (topic : Mem) (hst : Stores fd sup)
    (hfresh : ∀ top ∈ m.topics, top.addr ≠ sup.addr) (haddr : sup.addr ≠ 0) :
    (m.modelTopicCreate fd topic sup).2.MemberInv := by
  have hfresh' : ∀ p ∈ m.listed, p.addr ≠ sup.addr := by
    intro p hp
    obtain ⟨top, htop, rfl⟩ := List.mem_map.mp hp
    exact hfresh top htop
  have hlisted : TopicsInv (fun _ _ => True) (m.modelTopicCreate fd topic sup).2 :=
    (hi.listed.modelTopicCreate hst hfresh' topic).mono fun _ _ _ => trivial
  have hids := m.accountIds_modelTopicCreate fd topic sup
  unfold Model.modelTopicCreate at hlisted hids ⊢
  obtain ⟨hlists, hrolls⟩ :=
    (m.topicCreate topic sup.addr).2.topicSub_tables (m.topicCreate topic sup.addr).1 fd sup.slot
  cases hget : m.topicGet topic with
  | some top =>
    have hsame : (m.topicCreate topic sup.addr).2 = m := by rw [Model.topicCreate, hget]
    refine hi.congr ?_ ?_ hids hlisted
    · exact hlists.trans (congrArg lists hsame)
    · exact hrolls.trans (congrArg rolls hsame)
  | none =>
    have hnew : (m.topicCreate topic sup.addr).2 =
        { m with topics := m.topics ++ [⟨sup.addr, cstr topic, [], []⟩] } := by
      rw [Model.topicCreate, hget]
    have hl : (m.topicCreate topic sup.addr).2.lists = m.lists := by rw [hnew]; rfl
    have hr : (m.topicCreate topic sup.addr).2.rolls = m.rolls ++ [(sup.addr, [])] := by
      rw [hnew, rolls, List.map_append, rolls]; rfl
    have hno : sup.addr ∉ m.rolls.map Prod.fst := by
      intro hin
      obtain ⟨r, hr, he⟩ := List.mem_map.mp hin
      obtain ⟨top, htop, rfl⟩ := List.mem_map.mp hr
      exact hfresh top htop he
    refine ⟨?_, ?_, ?_, hlisted⟩
    · dsimp only
      rw [hlists, hrolls, hl, hr]
      exact (hi.mirror.symm.append hno).symm
    · dsimp only at hids ⊢
      rw [hlists, hl, hids]
      exact hi.ids
    · dsimp only
      rw [hrolls, hr]
      intro t ht
      rw [List.map_append, List.mem_append] at ht
      rcases ht with ht | ht
      · exact hi.addrs t ht
      · exact List.mem_singleton.mp ht ▸ haddr

/-- What is left of the tables when a topic goes. -/
theorem rolls_filter (m : Model) (addr : Nat) :
    Model.rolls { m with topics := m.topics.filter fun t => t.addr ≠ addr } = m.rolls.filter fun row =>
      row.1 ≠ addr := by
  rw [rolls, rolls, List.filter_map]
  rfl

/-- The loop of `topic_delete` over at most one member. -/
theorem topicDeleteLoop_small (hi : m.MemberInv) {top : Topic} (hmem : top ∈ m.topics)
    (hsmall : top.members.length ≤ 1) :
    Mirror (topicDeleteLoop top.addr top.members.length 0 top.members m).lists
        (topicDeleteLoop top.addr top.members.length 0 top.members m).rolls ∧
      (top.addr, []) ∈ (topicDeleteLoop top.addr top.members.length 0 top.members m).rolls ∧
      (topicDeleteLoop top.addr top.members.length 0 top.members m).lists.map Prod.fst = m.lists.map Prod.fst ∧
      (topicDeleteLoop top.addr top.members.length 0 top.members m).rolls.map Prod.fst = m.rolls.map Prod.fst := by
  have hroll : (top.addr, top.members) ∈ m.rolls := List.mem_map_of_mem hmem
  cases hmembers : top.members with
  | nil =>
    rw [hmembers] at hroll
    exact ⟨hi.mirror, hroll, rfl, rfl⟩
  | cons a others =>
    obtain rfl : others = [] := by
      rw [hmembers, List.length_cons] at hsmall
      exact List.length_eq_zero_iff.mp (by omega)
    have hloop : topicDeleteLoop top.addr [a].length 0 [a] m = m.topicLeft top.addr a := rfl
    obtain ⟨hl, hr⟩ := m.topicLeft_tables top.addr a
    rw [hloop, hl, hr, map_fst_setAt, map_fst_setAt]
    refine ⟨hi.mirror.unlink a top.addr, mem_setAt.mpr ⟨_, hroll, ?_⟩, rfl, rfl⟩
    dsimp only
    rw [if_pos rfl, hmembers, List.erase_cons_head]

/-- A topic with at most one member goes with its member. -/
theorem MemberInv.modelTopicDelete (hi : m.MemberInv) (name : Mem)
    (hsmall : ∀ top ∈ m.topicGet name, top.members.length ≤ 1) :
    (m.modelTopicDelete name).2.MemberInv := by
  have hlisted : TopicsInv (fun _ _ => True) (m.modelTopicDelete name).2 := by
    obtain ⟨-, keep, hl⟩ := m.topicDelete_frame name
    exact hi.listed.filter hl
  have hids := m.accountIds_modelTopicDelete name
  unfold Model.modelTopicDelete Model.topicDelete at hlisted hids ⊢
  cases hget : m.topicGet name with
  | none => exact hi
  | some top =>
    rw [hget] at hlisted hids
    obtain ⟨hmirror, hempty, hl, hr⟩ := topicDeleteLoop_small hi (topicGet_some hget).1 (hsmall top hget)
    dsimp only at hlisted hids ⊢
    generalize topicDeleteLoop top.addr top.members.length 0 top.members m = m₁ at hlisted hids hmirror hempty hl hr ⊢
    refine ⟨?_, ?_, ?_, hlisted⟩
    · rw [rolls_filter]
      exact (hmirror.symm.remove hempty).symm
    · rw [hids]
      intro i hin
      have hin' : i ∈ m₁.lists.map Prod.fst := hin
      exact hi.ids i (hl ▸ hin')
    · rw [rolls_filter]
      intro t ht
      refine hi.addrs t (hr ▸ ?_)
      exact (List.filter_sublist.map Prod.fst).subset ht

/-! ## The topic that is freed -/

/-- The loop passes by a member in front of the index, who keeps the topic. -/
theorem topicDeleteLoop_passes {topAddr k i j : Nat} {members : List Nat} (hnodup : members.Nodup)
    (hj : j < members.length) (hji : j < i) {subs : List Nat} (hrow : (members[j], subs) ∈ m.lists) :
    (members[j], subs) ∈ (topicDeleteLoop topAddr k i members m).lists := by
  induction k generalizing i members m with
  | zero => exact hrow
  | succ k ih =>
    unfold topicDeleteLoop
    split
    · next hlt =>
      have hne : members[j] ≠ members[i] := fun he => Nat.ne_of_lt hji (hnodup.getElem_inj_iff.mp he)
      have herase : vectorRemove members members[i] = members.eraseIdx i := hnodup.erase_getElem i hlt
      have hj' : j < (members.eraseIdx i).length := by
        rw [List.length_eraseIdx_of_lt hlt]
        omega
      have hsame : (members.eraseIdx i)[j] = members[j] := List.getElem_eraseIdx_of_lt hj' hji
      have hrow' : ((members.eraseIdx i)[j], subs) ∈ (m.topicLeft topAddr members[i]).lists := by
        rw [(m.topicLeft_tables topAddr members[i]).1, hsame]
        refine mem_setAt.mpr ⟨_, hrow, ?_⟩
        dsimp only
        rw [if_neg hne]
      rw [herase, ← hsame]
      exact ih (hnodup.eraseIdx i) hj' (Nat.lt_succ_of_lt hji) hrow'
    · exact hrow

/-- The loop starts with the first member and passes by the second. -/
theorem topicDeleteLoop_second {topAddr : Nat} {members : List Nat} (hnodup : members.Nodup)
    (hlarge : 1 < members.length) (k : Nat) {subs : List Nat} (hrow : (members[1], subs) ∈ m.lists) :
    (members[1], subs) ∈ (topicDeleteLoop topAddr (k + 1) 0 members m).lists := by
  match members, hnodup, hlarge, hrow with
  | a :: b :: others, hnodup, _, hrow =>
    have hne : b ≠ a := fun he => (List.nodup_cons.mp hnodup).1 (he ▸ List.mem_cons_self)
    have hrow' : (b, subs) ∈ (m.topicLeft topAddr a).lists := by
      rw [(m.topicLeft_tables topAddr a).1]
      refine mem_setAt.mpr ⟨_, hrow, ?_⟩
      dsimp only [List.getElem_cons_succ, List.getElem_cons_zero]
      rw [if_neg hne]
    have hrest : vectorRemove (a :: b :: others) a = b :: others := List.erase_cons_head ..
    rw [topicDeleteLoop, dif_pos (show 0 < (a :: b :: others).length from Nat.zero_lt_succ _)]
    dsimp only [List.getElem_cons_zero]
    rw [hrest]
    exact topicDeleteLoop_passes (j := 0) (List.nodup_cons.mp hnodup).2 (Nat.zero_lt_succ _) Nat.zero_lt_one hrow'

/-- After the deletion of a topic with two members or more, one of them keeps it. -/
theorem not_symmetric_of_delete (hi : m.MemberInv) {name : Mem} {top : Topic} (hget : m.topicGet name = some top)
    (hlarge : 1 < top.members.length) : ¬(m.modelTopicDelete name).2.Symmetric := by
  intro hsym
  have hroll : (top.addr, top.members) ∈ m.rolls := List.mem_map_of_mem (topicGet_some hget).1
  have hnodup : top.members.Nodup := hi.mirror.onRight.nodup _ hroll
  -- the second member, and what it keeps
  obtain ⟨row, hrow, hid⟩ := List.mem_map.mp (hi.mirror.onRight.live _ hroll top.members[1] (List.getElem_mem hlarge))
  have hkeeps : top.addr ∈ row.2 := (hi.mirror.agree row hrow _ hroll).mpr (hid ▸ List.getElem_mem hlarge)
  -- it is passed by
  have hpassed : row ∈ (topicDeleteLoop top.addr top.members.length 0 top.members m).lists := by
    obtain ⟨id, subs⟩ := row
    obtain rfl : id = top.members[1] := hid
    obtain ⟨k, hk⟩ := Nat.exists_eq_succ_of_ne_zero (Nat.ne_of_gt (Nat.lt_of_succ_lt hlarge))
    rw [hk]
    exact topicDeleteLoop_second hnodup hlarge k hrow
  obtain ⟨acc, hacc, rfl⟩ := List.mem_map.mp hpassed
  have hdeleted : (m.modelTopicDelete name).2 = { topicDeleteLoop top.addr top.members.length 0 top.members m with
      topics := (topicDeleteLoop top.addr top.members.length 0 top.members m).topics.filter fun t =>
          t.addr ≠ top.addr } := by
    rw [Model.modelTopicDelete, Model.topicDelete, hget]
  rw [hdeleted] at hsym
  obtain ⟨top', htop', he⟩ := hsym.live acc hacc top.addr hkeeps
  exact of_decide_eq_true (List.mem_filter.mp htop').2 he

theorem MemberInv.modelPub (hi : m.MemberInv) (v : FdView) (fd : Fd) (topic msg : Mem) :
    (m.modelPub v fd topic msg).2.1.MemberInv := by
  unfold Model.modelPub
  split
  · next top acc htop hacc =>
    have hlist : (⟨top.addr, top.name, top.fds⟩ : Listing) ∈ m.listed := List.mem_map_of_mem (topicGet_some htop).1
    have hspec := pubLoop_spec v (bdcMsg acc msg).1 (bdcMsg acc msg).2 top.fds.length (Nat.le_refl _)
    set left := pubLoop v (bdcMsg acc msg).1 (bdcMsg acc msg).2 top.fds.length top.fds
    obtain ⟨hsub, -, -⟩ := hspec
    have hl := m.listed_setTopic (fun _ => left.1) top.addr
    have hlisted : TopicsInv (fun _ _ => True) (m.setTopic top.addr fun t => { t with fds := left.1 }) :=
      hi.listed.write top.addr (fun _ => left.1) hl (fun _ _ _ => (hi.listed.nodup _ hlist).sublist hsub)
        (fun _ _ _ _ _ => trivial) fun _ _ _ _ _ => trivial
    have hinv : (m.setTopic top.addr fun t => { t with fds := left.1 }).MemberInv :=
      hi.congr rfl (rolls_setTopic_fds m (fun _ => left.1) top.addr) rfl hlisted
    exact hinv
  · exact hi

/-- A write to the descriptors of an account. -/
theorem MemberInv.setAccount_fds (hi : m.MemberInv) (id : Nat) (g : List Fd → List Fd) :
    (m.setAccount id fun a => { a with fds := g a.fds }).MemberInv :=
  hi.congr (m.lists_setAccount_fds g id) rfl rfl (hi.listed.of_listed_eq rfl)

theorem MemberInv.modelAccAuth (hi : m.MemberInv) (fd : Fd) (user auth : Mem) (slot : Nat) :
    (m.modelAccAuth fd user auth slot).2.MemberInv := by
  unfold Model.modelAccAuth
  split
  · exact hi
  · next acc _ =>
    split
    · exact hi.setAccount_fds acc.id (vectorInsert · fd slot)
    · exact hi

theorem MemberInv.modelAccCreate (hi : m.MemberInv) (user auth : Mem) : (m.modelAccCreate user auth).2.MemberInv := by
  unfold Model.modelAccCreate accountCreate
  cases m.accountGet user with
  | some acc => exact hi
  | none =>
    have hno : m.accountIds + 1 ∉ m.lists.map Prod.fst := fun hin => Nat.not_succ_le_self _ (hi.ids _ hin).2
    have hl : lists { m with
        accountIds := m.accountIds + 1
        accounts := m.accounts ++
          [{ id := m.accountIds + 1, name := cstr user, auth := cstr auth, subLists := [], fds := [] }] } =
        m.lists ++ [(m.accountIds + 1, [])] := by
      rw [lists, List.map_append]
      rfl
    refine ⟨?_, ?_, hi.addrs, hi.listed.of_listed_eq rfl⟩
    · dsimp only
      rw [hl]
      exact hi.mirror.append hno
    · dsimp only
      rw [hl]
      intro i hin
      rw [List.map_append, List.mem_append] at hin
      rcases hin with hin | hin
      · exact ⟨(hi.ids i hin).1, Nat.le_succ_of_le (hi.ids i hin).2⟩
      · obtain rfl := List.mem_singleton.mp hin
        exact ⟨Nat.succ_ne_zero _, Nat.le_refl _⟩

/-- A command keeps the invariant, if what it deletes is small. -/
theorem MemberInv.perform (hi : m.MemberInv) (v : FdView) (fd : Fd) {content : Mem} (delim : UInt8)
    (hst : Stores fd sup)
    (hfresh : ∀ top ∈ m.topics, top.addr ≠ sup.addr) (haddr : sup.addr ≠ 0) (hsmall : m.DeletesSmall content) :
    (m.perform v fd content delim sup).model.MemberInv := by
  have hcase := m.perform_cases v fd content delim sup
  generalize m.perform v fd content delim sup = p at hcase ⊢
  cases hcase with
  | create h => exact hi.modelTopicCreate fd _ hst hfresh haddr
  | delete h => exact hi.modelTopicDelete _ (hsmall h)
  | sub h => exact hi.modelSub fd _ hst
  | unsub h => exact hi.modelUnsub fd _
  | pub h hcut => exact hi.modelPub v fd _ _
  | login h hcut => exact hi.modelAccAuth fd _ _ _
  | logup h hcut => exact hi.modelAccCreate _ _
  | quiet => exact hi

end Model

/-! ## Runs -/

/-- `malloc` gives a topic memory of its own, and what a vector is given it stores. -/
def Supplied (t : Observed) (e : Event) (_ : Observed) : Prop :=
  match e with
  | .command fd _ sup | .msgComplete fd sup _ _ =>
      Stores fd sup ∧ sup.addr ≠ 0 ∧ ∀ top ∈ t.1.model.topics, top.addr ≠ sup.addr
  | _ => True

/-- A topic that is deleted has at most one member. -/
def DeletedSmall (t : Observed) (e : Event) (_ : Observed) : Prop :=
  match e with
  | .command _ content _ => t.1.model.DeletesSmall content
  | .msgComplete fd sup _ behind =>
    ∀ sess ∈ (t.1.fdtab fd).session, ∀ url ∈ sess.url,
      (t.1.attachCookie fd sess sup).1.model.DeletesSmall (Server.paramOf url behind)
  | _ => True

instance (t : Observed) (e : Event) (t' : Observed) : Decidable (Supplied t e t') :=
  match e with
  | .accept .. | .command .. | .url .. | .headerField .. | .msgComplete .. | .close .. =>
      by dsimp only [Supplied]; infer_instance

instance (t : Observed) (e : Event) (t' : Observed) : Decidable (DeletedSmall t e t') :=
  match e with
  | .accept .. | .command .. | .url .. | .headerField .. | .msgComplete .. | .close .. =>
      by dsimp only [DeletedSmall]; infer_instance

namespace Model

variable {s : Server} {fd : Fd} {sup : Supply} {content : Mem} {delim : UInt8} {rands : List Nat}

/-- The model after a command is that of its operation. -/
theorem process_model (s : Server) (fd : Fd) (content : Mem) (delim : UInt8) (sup : Supply) (rands : List Nat) :
    (s.process fd content delim sup rands).1.model = (s.model.perform s.view fd content delim sup).model := by
  obtain ⟨c, hproc⟩ := s.process_eq fd content delim sup rands
  obtain ⟨replies, exited, hmp, -, -⟩ := s.model.modelProcess_of_perform s.view fd content delim sup
  rw [hproc, hmp]

theorem MemberInv.process (hi : s.model.MemberInv) (hst : Stores fd sup) (haddr : sup.addr ≠ 0)
    (hfresh : ∀ top ∈ s.model.topics, top.addr ≠ sup.addr) (hsmall : s.model.DeletesSmall content) :
    (s.process fd content delim sup rands).1.model.MemberInv := by
  rw [process_model]
  exact hi.perform s.view fd delim hst hfresh haddr hsmall

/-- Membership that has stayed the same on both sides tells of a small deletion. -/
theorem MemberInv.small_of_process (hi : s.model.MemberInv)
    (hsym : (s.process fd content delim sup rands).1.model.Symmetric) :
    s.model.DeletesSmall content := by
  intro hdelete top hget
  by_contra hlarge
  have hmodel : (s.process fd content delim sup rands).1.model = (s.model.modelTopicDelete (content.drop 7)).2 := by
    rw [process_model, Model.perform, hdelete]
  rw [hmodel] at hsym
  exact not_symmetric_of_delete hi hget (Nat.lt_of_not_le hlarge) hsym

theorem MemberInv.attachCookie (hi : s.model.MemberInv) (fd : Fd) (sess : Session) (sup : Supply) :
    (s.attachCookie fd sess sup).1.model.MemberInv ∧ (s.attachCookie fd sess sup).1.model.topics = s.model.topics := by
  unfold Server.attachCookie
  split
  · exact ⟨hi.setAccount_fds _ (vectorInsert · fd sup.slot), rfl⟩
  · exact ⟨hi, rfl⟩

theorem MemberInv.offline {m : Model} (hi : m.MemberInv) (fd : Fd) : (m.modelAccOffline fd).MemberInv := by
  unfold modelAccOffline
  split
  · exact hi
  · exact hi.setAccount_fds _ (vectorRemove · fd)

end Model

theorem memberInv_init (fdtab : Fd → FdEntry) (maxConn : Int) : (Server.init fdtab maxConn).model.MemberInv :=
  ⟨.nil, nofun, nofun, .nil, .nil, nofun, nofun, nofun⟩

/-- One event keeps the invariant, if what it deletes is small. -/
theorem memberInv_step {t t' : Observed} {e : Event} (hi : t.1.model.MemberInv) (hs : observedStep t e = some t')
    (hsup : Supplied t e t') (hsmall : DeletedSmall t e t') : t'.1.model.MemberInv := by
  obtain ⟨⟨s', seen⟩, hstep, rfl⟩ := Option.map_eq_some_iff.mp hs
  have hcase := Server.step_cases hstep
  generalize hr : (s', seen) = r at hcase
  cases hcase with
  | @accept hd fd hclosed =>
    obtain ⟨rfl, rfl⟩ := Prod.mk.inj hr
    dsimp only
    rw [(t.1.eventAccept_frame hd fd).1]
    exact hi
  | command hserves =>
    obtain ⟨rfl, rfl⟩ := Prod.mk.inj hr
    exact hi.process hsup.1 hsup.2.1 hsup.2.2 hsmall
  | url hserves | headerField hserves =>
    obtain ⟨rfl, rfl⟩ := Prod.mk.inj hr
    exact hi
  | @msgComplete fd sup rands behind sess hserves hsess =>
    obtain ⟨rfl, rfl⟩ := Prod.mk.inj hr
    obtain ⟨hst, haddr, hfresh⟩ := hsup
    obtain ⟨hi', htopics⟩ := hi.attachCookie fd sess sup
    dsimp only
    unfold Server.httpOnMsgComplete
    cases hurl : sess.url with
    | none => exact hi'
    | some url => exact hi'.process hst haddr (htopics ▸ hfresh) (hsmall sess hsess url hurl)
  | @close fd hd hopen howner =>
    obtain ⟨rfl, rfl⟩ := Prod.mk.inj hr
    dsimp only
    rw [(t.1.close_frame hd fd).1]
    split
    · exact hi.offline fd
    · exact hi

/-- An event after which membership is still the same on both sides has deleted nothing large. -/
theorem small_of_step {t t' : Observed} {e : Event} (hi : t.1.model.MemberInv) (hs : observedStep t e = some t')
    (hsym : t'.1.model.Symmetric) : DeletedSmall t e t' := by
  obtain ⟨⟨s', seen⟩, hstep, rfl⟩ := Option.map_eq_some_iff.mp hs
  have hcase := Server.step_cases hstep
  generalize hr : (s', seen) = r at hcase
  cases hcase with
  | accept | url | headerField | close => trivial
  | command hserves =>
    obtain ⟨rfl, rfl⟩ := Prod.mk.inj hr
    exact hi.small_of_process hsym
  | @msgComplete fd sup rands behind sess hserves hsess =>
    obtain ⟨rfl, rfl⟩ := Prod.mk.inj hr
    obtain ⟨hi', -⟩ := hi.attachCookie fd sess sup
    intro sess' hsess' url hurl
    obtain rfl : sess = sess' := Option.some.inj (hsess.symm.trans hsess')
    have hdone : (t.1.httpOnMsgComplete fd sess sup rands behind).1.model.Symmetric := hsym
    unfold Server.httpOnMsgComplete at hdone
    rw [show sess.url = some url from hurl] at hdone
    exact hi'.small_of_process hdone

/-- Membership is the same on both sides throughout a run exactly when every topic that is deleted has at most one
member. -/
theorem symmetric_iff_small (fdtab : Fd → FdEntry) (maxConn : Int) (es : List Event)
    (h : AllSteps observedStep Supplied (Server.init fdtab maxConn, []) es) :
    AllStates observedStep (fun t => t.1.model.Symmetric) (Server.init fdtab maxConn, []) es ↔
      AllSteps observedStep DeletedSmall (Server.init fdtab maxConn, []) es :=
  AllStates.iff_allSteps (I := fun t : Observed => t.1.model.MemberInv) (memberInv_init fdtab maxConn)
    (fun _ hi => hi.symmetric)
    (fun _ _ _ hi hs hsup hc => memberInv_step hi hs hsup hc) (fun _ _ _ hi hs _ hsym => small_of_step hi hs hsym) h

/-- Two accounts join a topic. -/
def twoMembers : List Event :=
  [.accept .pubsub 5, .accept .pubsub 6, plainCommand 5 "logup a p" 2, plainCommand 5 "login a p" 2,
    plainCommand 6 "logup b p" 2,
    plainCommand 6 "login b p" 2, plainCommand 5 "create t" 1, plainCommand 5 "sub t" 2, plainCommand 6 "sub t" 2]

/-- Two members join a topic, one leaves, and it is deleted with the other. -/
theorem symmetric_one_member :
    AllStates observedStep (fun t => t.1.model.Symmetric) (freshServer, [])
        (twoMembers ++ [plainCommand 6 "unsub t" 2, plainCommand 6 "delete t" 2]) ↔
      AllSteps observedStep DeletedSmall (freshServer, [])
      (twoMembers ++ [plainCommand 6 "unsub t" 2, plainCommand 6 "delete t" 2]) :=
  symmetric_iff_small _ _ _ (by decide +kernel)

/-- The topic is deleted while both are members: the second one is left with a pointer to it. -/
theorem deleted_with_two_members :
    ¬AllStates observedStep (fun t => t.1.model.Symmetric) (freshServer, [])
      (twoMembers ++ [plainCommand 6 "delete t" 2]) := by
  intro h
  obtain ⟨top, htop, -⟩ := (h.last rfl).live ⟨2, lit "b", lit "p", [1], [6]⟩ (by decide +kernel) 1 (by decide +kernel)
  nomatch htop

end ZeroServ
