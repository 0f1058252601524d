import Mathlib.Data.List.GetD
import ZeroServ.Lib.Run
import ZeroServ.PubSub.Frame
import ZeroServ.PubSub.Writes

/-!
# To whom messages go

A topic keeps the descriptors that subscribed until they unsubscribe or the topic is deleted; a disconnect leaves
them there. `model_pub` tells a closed descriptor by its write buffer, which `http_psub_disconnect` clears and
`psub_disconnect` does not, and which any later `accept` on the descriptor sets again. A run in which neither meets a
descriptor that a topic still lists delivers to subscribers only.
-/

namespace ZeroServ

open CString Run

/-! ## The topics -/

/-- An `unsub` of a connection that no account holds, which the model refuses, names no topic that lists the
connection. -/
def Model.UnsubHeard (m : Model) (fd : Fd) (content : Mem) : Prop :=
  Model.command content = some .unsub → m.accountGetByFd fd = none →
    ∀ top ∈ m.topics, top.name = cstr (content.drop 6) → fd ∉ top.fds

/-- No topic lists the descriptor. -/
def Model.Unlisted (m : Model) (fd : Fd) : Prop := ∀ top ∈ m.topics, fd ∉ top.fds

instance (m : Model) (fd : Fd) (content : Mem) : Decidable (m.UnsubHeard fd content) := by
  unfold Model.UnsubHeard
  infer_instance

instance (m : Model) (fd : Fd) : Decidable (m.Unlisted fd) := by
  unfold Model.Unlisted
  infer_instance

/-- The topics have addresses and names of their own, list no descriptor twice, and every descriptor listed satisfies
`P`. -/
structure TopicsInv (P : List UInt8 → Fd → Prop) (m : Model) : Prop where
  addrs : (m.listed.map (·.addr)).Nodup
  names : (m.listed.map (·.name)).Nodup
  clean : ∀ p ∈ m.listed, (0 : UInt8) ∉ p.name
  nodup : ∀ p ∈ m.listed, p.fds.Nodup
  member : ∀ p ∈ m.listed, ∀ c ∈ p.fds, P p.name c

namespace TopicsInv

variable {P Q : List UInt8 → Fd → Prop} {m m' : Model}

/-- The same topics, of whose descriptors something else is known. -/
theorem change (hi : TopicsInv P m) (hl : m'.listed = m.listed) (hQ : ∀ p ∈ m.listed, ∀ c ∈ p.fds, Q p.name c) :
    TopicsInv Q m' := by
  refine ⟨?_, ?_, ?_, ?_, ?_⟩
  · rw [hl]
    exact hi.addrs
  · rw [hl]
    exact hi.names
  · rw [hl]
    exact hi.clean
  · rw [hl]
    exact hi.nodup
  · rw [hl]
    exact hQ

theorem mono (hi : TopicsInv P m) (hPQ : ∀ n c, P n c → Q n c) : TopicsInv Q m :=
  hi.change rfl fun p hp c hc => hPQ _ _ (hi.member p hp c hc)

theorem of_listed_eq (hi : TopicsInv P m) (h : m'.listed = m.listed) : TopicsInv P m' :=
  hi.change h hi.member

/-- Fewer topics. -/
theorem filter (hi : TopicsInv P m) {keep : Listing → Bool} (h : m'.listed = m.listed.filter keep) :
    TopicsInv P m' := by
  have hsub : m'.listed.Sublist m.listed := by
    rw [h]
    exact List.filter_sublist
  refine ⟨hi.addrs.sublist (hsub.map _), hi.names.sublist (hsub.map _), fun p hp => hi.clean p (hsub.subset hp),
    fun p hp => hi.nodup p (hsub.subset hp), fun p hp => hi.member p (hsub.subset hp)⟩

/-- A write to the descriptors of one topic. -/
theorem write (hi : TopicsInv P m) (addr : Nat) (g : List Fd → List Fd)
    (h : m'.listed = m.listed.map fun p => if p.addr = addr then { p with fds := g p.fds } else p)
    (hnodup : ∀ p ∈ m.listed, p.addr = addr → (g p.fds).Nodup)
    (hmem : ∀ p ∈ m.listed, p.addr = addr → ∀ c ∈ g p.fds, Q p.name c)
    (hrest : ∀ p ∈ m.listed, p.addr ≠ addr → ∀ c ∈ p.fds, Q p.name c) : TopicsInv Q m' := by
  have haddr : m'.listed.map (·.addr) = m.listed.map (·.addr) := by
    rw [h, List.map_map]
    refine List.map_congr_left fun p _ => ?_
    simp only [Function.comp_apply]
    split <;> rfl
  have hname : m'.listed.map (·.name) = m.listed.map (·.name) := by
    rw [h, List.map_map]
    refine List.map_congr_left fun p _ => ?_
    simp only [Function.comp_apply]
    split <;> rfl
  refine ⟨haddr ▸ hi.addrs, hname ▸ hi.names, ?_, ?_, ?_⟩
  · intro p hp
    rw [h] at hp
    obtain ⟨q, hq, rfl⟩ := List.mem_map.mp hp
    have := hi.clean q hq
    split <;> exact this
  · intro p hp
    rw [h] at hp
    obtain ⟨q, hq, rfl⟩ := List.mem_map.mp hp
    by_cases ha : q.addr = addr
    · rw [if_pos ha]
      exact hnodup q hq ha
    · rw [if_neg ha]
      exact hi.nodup q hq
  · intro p hp c hc
    rw [h] at hp
    obtain ⟨q, hq, rfl⟩ := List.mem_map.mp hp
    by_cases ha : q.addr = addr
    · rw [if_pos ha] at hc ⊢
      exact hmem q hq ha c hc
    · rw [if_neg ha] at hc ⊢
      exact hrest q hq ha c hc

/-- The topic of a name is the only one listed at its address and under its name. -/
theorem listing_unique (hi : TopicsInv P m) {top : Topic} (htop : top ∈ m.topics) {p : Listing} (hp : p ∈ m.listed) :
    (p.addr = top.addr ↔ p = ⟨top.addr, top.name, top.fds⟩) ∧
      (p.name = top.name ↔ p = ⟨top.addr, top.name, top.fds⟩) := by
  have hmem : (⟨top.addr, top.name, top.fds⟩ : Listing) ∈ m.listed := List.mem_map_of_mem htop
  refine ⟨⟨fun h => ?_, fun h => by rw [h]⟩, ⟨fun h => ?_, fun h => by rw [h]⟩⟩
  · exact List.inj_on_of_nodup_map hi.addrs hp hmem h
  · exact List.inj_on_of_nodup_map hi.names hp hmem h

/-- The name of a topic that was found is the string it was looked for under. -/
theorem topicGet_name (hi : TopicsInv P m) {name : Mem} {top : Topic} (h : m.topicGet name = some top) :
    top ∈ m.topics ∧ top.name = cstr name := by
  obtain ⟨hmem, hname⟩ := Model.topicGet_some h
  have hclean := hi.clean _ (List.mem_map_of_mem hmem)
  exact ⟨hmem, by rw [← hname, cstr_eq_self hclean]⟩

/-- A subscription of a topic in the list. -/
theorem topicSub (hi : TopicsInv P m) {top : Topic} (htop : top ∈ m.topics) {fd : Fd} {sup : Supply}
    (hst : Stores fd sup) (hl : m'.listed = m.listed) :
    TopicsInv (fun n c => P n c ∨ (n = top.name ∧ c = fd)) (m'.topicSub top fd sup.slot) := by
  have hi' := (hi.of_listed_eq hl).mono (Q := fun n c => P n c ∨ (n = top.name ∧ c = fd)) fun n c h => .inl h
  have hl' := m'.listed_topicSub top fd sup.slot
  by_cases hin : fd ∈ top.fds
  · rw [if_pos hin] at hl'
    exact hi'.of_listed_eq hl'
  · rw [if_neg hin, hl] at hl'
    refine hi.write top.addr (vectorInsert · fd sup.slot) hl' ?_ ?_ fun p hp _ c hc => .inl (hi.member p hp c hc)
    · intro p hp ha
      obtain rfl := (hi.listing_unique htop hp).1.mp ha
      rw [vectorInsert_of_stores hst]
      exact List.Nodup.append (hi.nodup _ hp) (List.nodup_singleton fd) (List.disjoint_singleton.mpr hin)
    · intro p hp ha c hc
      obtain rfl := (hi.listing_unique htop hp).1.mp ha
      rw [vectorInsert_of_stores hst, List.mem_append, List.mem_singleton] at hc
      rcases hc with hc | hc
      · exact .inl (hi.member _ hp c hc)
      · exact .inr ⟨rfl, hc⟩

/-- `create` lists the descriptor under the name. -/
theorem modelTopicCreate (hi : TopicsInv P m) {fd : Fd} {sup : Supply} (hst : Stores fd sup)
    (hfresh : ∀ p ∈ m.listed, p.addr ≠ sup.addr) (topic : Mem) :
    TopicsInv (fun n c => P n c ∨ (n = cstr topic ∧ c = fd)) (m.modelTopicCreate fd topic sup).2 := by
  unfold Model.modelTopicCreate
  rcases m.topicCreate_cases topic sup.addr with ⟨top, hget, heq⟩ | ⟨hget, htop, hl⟩
  · obtain ⟨hmem, hname⟩ := hi.topicGet_name hget
    rw [heq, ← hname]
    exact hi.topicSub hmem hst rfl
  · have hnames : cstr topic ∉ m.listed.map (·.name) := by
      intro hin
      obtain ⟨p, hp, hpn⟩ := List.mem_map.mp hin
      obtain ⟨top, htop, rfl⟩ := List.mem_map.mp hp
      have hclean := hi.clean _ hp
      refine Model.topicGet_none hget top htop ?_
      rw [cstr_eq_self hclean]
      exact hpn
    have hi' : TopicsInv P (m.topicCreate topic sup.addr).2 := by
      refine ⟨?_, ?_, ?_, ?_, ?_⟩
      · rw [hl, List.map_append]
        refine List.Nodup.append hi.addrs (List.nodup_singleton _) (List.disjoint_singleton.mpr ?_)
        intro hin
        obtain ⟨p, hp, hpa⟩ := List.mem_map.mp hin
        exact hfresh p hp hpa
      · rw [hl, List.map_append]
        exact List.Nodup.append hi.names (List.nodup_singleton _) (List.disjoint_singleton.mpr hnames)
      · intro p hp
        rw [hl, List.mem_append, List.mem_singleton] at hp
        rcases hp with hp | rfl
        · exact hi.clean p hp
        · exact nul_not_mem_cstr topic
      · intro p hp
        rw [hl, List.mem_append, List.mem_singleton] at hp
        rcases hp with hp | rfl
        · exact hi.nodup p hp
        · exact List.nodup_nil
      · intro p hp c hc
        rw [hl, List.mem_append, List.mem_singleton] at hp
        rcases hp with hp | rfl
        · exact hi.member p hp c hc
        · nomatch hc
    have hin : (m.topicCreate topic sup.addr).1 ∈ (m.topicCreate topic sup.addr).2.topics := by
      unfold Model.topicCreate
      rw [hget]
      simp
    have hsub := hi'.topicSub hin hst (Eq.refl (m.topicCreate topic sup.addr).2.listed)
    have hname : (m.topicCreate topic sup.addr).1.name = cstr topic := by rw [htop]
    rw [hname] at hsub
    exact hsub

/-- `sub`, when it succeeds, lists the descriptor under the name. -/
theorem modelSub (hi : TopicsInv P m) (fd : Fd) {sup : Supply} (hst : Stores fd sup) (topic : Mem) :
    ((m.modelSub fd topic sup.slot).1 = .success ∧
      TopicsInv (fun n c => P n c ∨ (n = cstr topic ∧ c = fd)) (m.modelSub fd topic sup.slot).2) ∨
    ((m.modelSub fd topic sup.slot).1 = .fail ∧ TopicsInv P (m.modelSub fd topic sup.slot).2) := by
  unfold Model.modelSub
  split
  · rename_i top acc hget _
    obtain ⟨hmem, hname⟩ := hi.topicGet_name hget
    rw [← hname]
    exact .inl ⟨rfl, hi.topicSub hmem hst (m.listed_topicJoin top acc)⟩
  · exact .inr ⟨rfl, hi⟩

/-- `unsub`, when it succeeds, takes the descriptor off the name. -/
theorem modelUnsub (hi : TopicsInv P m) (fd : Fd) (topic : Mem) :
    ((m.modelUnsub fd topic).1 = .success ∧
      TopicsInv (fun n c => P n c ∧ ¬(n = cstr topic ∧ c = fd)) (m.modelUnsub fd topic).2) ∨
    ((m.modelUnsub fd topic).1 = .fail ∧ TopicsInv P (m.modelUnsub fd topic).2) := by
  unfold Model.modelUnsub
  split
  · rename_i top acc hget _
    obtain ⟨hmem, hname⟩ := hi.topicGet_name hget
    have hl := (m.topicLeft top.addr acc.id).listed_topicUnsub top fd
    rw [m.listed_topicLeft] at hl
    refine .inl ⟨rfl, hi.write top.addr (vectorRemove · fd) hl ?_ ?_ ?_⟩
    · exact fun p hp _ => (hi.nodup p hp).erase fd
    · intro p hp _ c hc
      refine ⟨hi.member p hp c (mem_of_mem_vectorRemove hc), ?_⟩
      rintro ⟨-, rfl⟩
      exact (hi.nodup p hp).not_mem_erase hc
    · intro p hp ha c hc
      refine ⟨hi.member p hp c hc, ?_⟩
      rintro ⟨hn, -⟩
      rw [← hname] at hn
      exact ha ((hi.listing_unique hmem hp).1.mpr ((hi.listing_unique hmem hp).2.mp hn))
  · exact .inr ⟨rfl, hi⟩

/-- An `unsub` that is refused, and names no topic that lists the connection, leaves none behind that does. -/
theorem modelUnsub_refused (hi : TopicsInv P m) {fd : Fd} {content : Mem} (hcmd : Model.command content = some .unsub)
    (hheard : m.UnsubHeard fd content) (hfail : (m.modelUnsub fd (content.drop 6)).1 = .fail) :
    TopicsInv (fun n c => P n c ∧ ¬(n = cstr (content.drop 6) ∧ c = fd)) (m.modelUnsub fd (content.drop 6)).2 := by
  unfold Model.modelUnsub at hfail ⊢
  split at hfail
  · nomatch hfail
  · rename_i hnot
    refine hi.change rfl fun p hp c hc => ⟨hi.member p hp c hc, ?_⟩
    rintro ⟨hn, rfl⟩
    obtain ⟨top, htop, rfl⟩ := List.mem_map.mp hp
    have hget : m.topicGet (content.drop 6) ≠ none := by
      intro hnone
      have hclean : cstr top.name = top.name := cstr_eq_self (hi.clean _ hp)
      exact Model.topicGet_none hnone top htop (hclean.trans hn)
    have hacc : m.accountGetByFd c = none := by
      rw [Option.eq_none_iff_forall_ne_some]
      intro acc hacc
      obtain ⟨top', hget'⟩ := Option.ne_none_iff_exists'.mp hget
      exact hnot top' acc hget' hacc
    exact hheard hcmd hacc top htop hn hc

end TopicsInv

/-! ## A publish -/

/-- The loop of a publish only drops descriptors, calls the listed ones back whose write buffer is set, and exits
only over one of these that is not a pub/sub connection's. -/
theorem pubLoop_spec (v : FdView) (text : List UInt8) (length i : Nat) {fds : List Fd} (hi : i ≤ fds.length) :
    (Model.pubLoop v text length i fds).1.Sublist fds ∧
      (∀ r ∈ (Model.pubLoop v text length i fds).2.1, r.fd ∈ fds ∧ v.wrBuf r.fd = true) ∧
      ((Model.pubLoop v text length i fds).2.2 = true → ∃ c ∈ fds, v.wrBuf c = true ∧ v.userData c = false) := by
  induction i generalizing fds with
  | zero => exact ⟨List.Sublist.refl fds, fun r hr => absurd hr List.not_mem_nil, fun h => absurd h Bool.false_ne_true⟩
  | succ i ih =>
    have hmem : fds.getD i 0 ∈ fds := by
      rw [List.getD_eq_getElem fds 0 hi]
      exact List.getElem_mem hi
    unfold Model.pubLoop
    by_cases hw : v.wrBuf (fds.getD i 0) = true
    · by_cases hu : v.userData (fds.getD i 0) = true
      · obtain ⟨hsub, hsent, hexit⟩ := ih (Nat.le_of_lt hi)
        simp only [hw, hu, Bool.not_true, Bool.false_eq_true, if_false]
        refine ⟨hsub, ?_, hexit⟩
        intro r hr
        rcases List.mem_cons.mp hr with rfl | hr
        · exact ⟨hmem, hw⟩
        · exact hsent r hr
      · simp only [hw, hu, Bool.not_true, Bool.false_eq_true, if_false, Bool.not_false, if_true]
        exact ⟨List.Sublist.refl fds, fun r hr => absurd hr List.not_mem_nil, fun _ => ⟨_, hmem, hw, by simpa using hu⟩⟩
    · simp only [hw, Bool.not_false, if_true]
      have hlen : i ≤ (vectorRemove fds (fds.getD i 0)).length := by
        rw [vectorRemove, List.length_erase_of_mem hmem]
        omega
      have hsub : (vectorRemove fds (fds.getD i 0)).Sublist fds := List.erase_sublist
      obtain ⟨hs, hsent, hexit⟩ := ih hlen
      refine ⟨hs.trans hsub, ?_, ?_⟩
      · intro r hr
        exact ⟨hsub.subset (hsent r hr).1, (hsent r hr).2⟩
      · intro he
        obtain ⟨c, hc, hcw⟩ := hexit he
        exact ⟨c, hsub.subset hc, hcw⟩

/-! ## A publication -/

/-- The call that hands a descriptor a publication. -/
def repSub (text : List UInt8) (length : Nat) (c : Fd) : Response :=
  { fd := c, action := some .repSub, content := .text text, length }

/-- The loop over the entries `a`, with those `b` behind them already visited: of `a` the entries with a write buffer
stay, and they are called from the last one to the first. -/
theorem pubLoop_eq {v : FdView} (text : List UInt8) (length : Nat) (a b : List Fd) (hnodup : a.Nodup)
    (hserved : ∀ c ∈ a, v.wrBuf c = true → v.userData c = true) :
    Model.pubLoop v text length a.length (a ++ b) =
      (a.filter v.wrBuf ++ b, (a.filter v.wrBuf).reverse.map (repSub text length), false) := by
  induction a using List.reverseRecOn generalizing b with
  | nil => rfl
  | append_singleton a c ih =>
    obtain ⟨ha, -, hdisj⟩ := List.nodup_append'.mp hnodup
    have hc : c ∉ a := fun h => hdisj h (List.mem_singleton_self c)
    have hlast : (a ++ c :: b).getD a.length 0 = c := by simp
    have hrest := fun b => ih b ha fun x hx => hserved x (List.mem_append_left _ hx)
    rw [List.length_append, List.length_singleton, List.append_assoc, List.singleton_append, Model.pubLoop, hlast]
    by_cases hw : v.wrBuf c = true
    · have hu : v.userData c = true := hserved c (by simp) hw
      simp only [hw, hu, Bool.not_true, Bool.false_eq_true, if_false, hrest]
      simp [hw, repSub]
    · -- the entry goes from between those before it and those behind it, which keep their places
      have herase : vectorRemove (a ++ c :: b) c = a ++ b := by
        rw [vectorRemove, List.erase_append_right _ hc, List.erase_cons_head]
      simp only [hw, Bool.not_false, if_true, herase, hrest]
      simp [hw]

/-- A write that keeps the names is found under the name it was under. -/
theorem topicGet_setTopic (m : Model) (name : Mem) (addr : Nat) {f : Topic → Topic}
    (hf : ∀ top, (f top).name = top.name) :
    (m.setTopic addr f).topicGet name = (m.topicGet name).map fun top => if top.addr = addr then f top else top := by
  have hname : ((fun top => strcmp top.name name) ∘ fun top => if top.addr = addr then f top else top) =
      fun top : Topic => strcmp top.name name := by
    funext top
    simp only [Function.comp_apply]
    split <;> simp only [hf]
  rw [Model.topicGet, Model.setTopic, List.find?_map, hname]
  rfl

/-- A publication calls back each subscriber with a write buffer once, with the text `name: msg`, and nobody else,
and keeps just these on the topic, in their order. -/
theorem modelPub_reaches {m : Model} {v : FdView} {fd : Fd} {topic msg : Mem} {top : Topic} {acc : Account}
    (htop : m.topicGet topic = some top) (hacc : m.accountGetByFd fd = some acc) (hnodup : top.fds.Nodup)
    (hserved : ∀ c ∈ top.fds, v.wrBuf c = true → v.userData c = true)
    (hfits : (acc.name ++ lit ": " ++ cstr msg).length < 4096) :
    ∃ m' sent, m.modelPub v fd topic msg = (.success, m', sent, false) ∧
      (∀ c, (sent.filter fun r => r.fd = c) =
        if c ∈ top.fds ∧ v.wrBuf c = true then
          [repSub (acc.name ++ lit ": " ++ cstr msg) (acc.name ++ lit ": " ++ cstr msg).length c]
        else []) ∧
      m'.topicGet topic = some { top with fds := top.fds.filter v.wrBuf } := by
  have htext : Model.bdcMsg acc msg = (acc.name ++ lit ": " ++ cstr msg,
      (acc.name ++ lit ": " ++ cstr msg).length) := by
    rw [Model.bdcMsg, List.take_of_length_le (Nat.le_of_lt_succ hfits)]
  generalize acc.name ++ lit ": " ++ cstr msg = text at hfits htext ⊢
  have hloop := pubLoop_eq text text.length top.fds [] hnodup hserved
  rw [List.append_nil, List.append_nil] at hloop
  have hpub : m.modelPub v fd topic msg =
      (.success, m.setTopic top.addr fun t => { t with fds := top.fds.filter v.wrBuf },
        (top.fds.filter v.wrBuf).reverse.map (repSub text text.length), false) := by
    simp only [Model.modelPub, htop, hacc, htext, hloop]
  refine ⟨_, _, hpub, ?_, ?_⟩
  · intro c
    have hone : (top.fds.filter v.wrBuf).reverse.filter (fun x => x = c) = if c ∈ top.fds ∧
        v.wrBuf c = true then [c] else [] := by
      have hn : (top.fds.filter v.wrBuf).reverse.Nodup := List.nodup_reverse.mpr (hnodup.filter _)
      rw [List.filter_eq, hn.count]
      by_cases hc : c ∈ top.fds ∧ v.wrBuf c = true <;> simp [hc]
    rw [List.filter_map, show ((fun r : Response => decide (r.fd = c)) ∘ repSub text text.length) = fun x =>
      decide (x = c) from rfl, hone]
    split <;> rfl
  · rw [topicGet_setTopic, htop]
    · simp
    · exact fun _ => rfl

/-- A topic of three subscribers, the second of which has closed. -/
def threeSubscribers : Model where
  accounts := [⟨1, lit "a", lit "p", [], [5]⟩]
  topics := [⟨100, lit "t", [], [5, 6, 7]⟩]
  accountIds := 1

/-- Of the subscribers, those that have not closed. -/
def sixClosed : FdView := ⟨fun c => c ≠ 6, fun c => c ≠ 6⟩

/-- The first and the last subscriber are called, the one that has closed goes. -/
theorem modelPub_reaches_open :
    ∃ m' sent, threeSubscribers.modelPub sixClosed 5 (lit "t") (lit "hi") = (.success, m', sent, false) ∧
      (∀ c, (sent.filter fun r => r.fd = c) = if c ∈ [5, 6, 7] ∧
        sixClosed.wrBuf c = true then [repSub (lit "a: hi") 5 c] else []) ∧
      m'.topicGet (lit "t") = some ⟨100, lit "t", [], [5, 7]⟩ :=
  @modelPub_reaches threeSubscribers sixClosed 5 (lit "t") (lit "hi") ⟨100, lit "t", [], [5, 6, 7]⟩
    ⟨1, lit "a", lit "p", [], [5]⟩
    (by decide +kernel) (by decide +kernel) (by decide) (fun _ _ h => h) (by decide +kernel)

/-! ## Deliveries -/

/-- An open connection of a pub/sub front end, which the model may call back. -/
def FdEntry.callable (e : FdEntry) : Bool := e.isOpen && e.owner.any Handler.hasUserData

/-- A descriptor a topic may list: of a connection that subscribed, or a closed one whose write buffer is gone. -/
def Listable (refused : Bool) (fdtab : Fd → FdEntry) (h : History) (topic : List UInt8) (c : Fd) : Prop :=
  ((fdtab c).callable = true ∧ Subscribed refused h c topic) ∨ ((fdtab c).isOpen = false ∧ (fdtab c).wrBuf = false)

/-- The topics list only what they may, and whoever may be called back has a write buffer. -/
structure DeliveryInv (refused : Bool) (s : Server) (h : History) : Prop where
  topics : TopicsInv (Listable refused s.fdtab h) s.model
  served : ∀ fd, (s.fdtab fd).callable = true → (s.fdtab fd).wrBuf = true

/-- An event delivers only to connections that subscribed to the topic. -/
def DeliversTo (refused : Bool) (s : Server) (h : History) (seen : List Obs) : Prop :=
  ∀ c topic, .delivered c topic ∈ seen → (s.fdtab c).callable = true ∧ Subscribed refused h c topic

/-- What is observed besides subscriptions and accepts does not touch a subscription. -/
theorem Subscribed.append {refused : Bool} {h seen : History} {c : Fd} {topic : List UInt8}
    (hs : Subscribed refused h c topic)
    (hseen : ∀ o ∈ seen, ∀ fd t ok, o ≠ .accepted fd ∧ o ≠ .unsubscribed fd t ok) :
    Subscribed refused (seen ++ h) c topic := by
  induction seen with
  | nil => exact hs
  | cons o seen ih =>
    have hrest := ih fun o' ho' => hseen o' (List.mem_cons_of_mem _ ho')
    have ho := hseen o List.mem_cons_self
    cases o with
    | accepted fd => exact absurd rfl (ho fd [] true).1
    | unsubscribed fd t ok => exact absurd rfl (ho fd t ok).2
    | subscribed fd t => exact .inr hrest
    | loggedIn | cookieFor | delivered => exact hrest

theorem Listable.append {refused : Bool} {fdtab : Fd → FdEntry} {h seen : History} {c : Fd} {topic : List UInt8}
    (hl : Listable refused fdtab h topic c)
    (hseen : ∀ o ∈ seen, ∀ fd t ok, o ≠ .accepted fd ∧ o ≠ .unsubscribed fd t ok) :
    Listable refused fdtab (seen ++ h) topic c :=
  hl.imp (fun ⟨hc, hs⟩ => ⟨hc, hs.append hseen⟩) id

/-- A subscription makes its connection listable. -/
theorem listable_subscribed {refused : Bool} {fdtab : Fd → FdEntry} {h : History} {fd : Fd} {topic : List UInt8}
    (hcall : (fdtab fd).callable = true) {n : List UInt8} {c : Fd}
    (hl : Listable refused fdtab h n c ∨ (n = topic ∧ c = fd)) :
    Listable refused fdtab (.subscribed fd topic :: h) n c := by
  rcases hl with hl | ⟨rfl, rfl⟩
  · exact hl.imp (fun ⟨hc, hs⟩ => ⟨hc, .inr hs⟩) id
  · exact .inl ⟨hcall, .inl ⟨rfl, rfl⟩⟩

/-- Without an operation nothing is observed. -/
theorem observe_quiet (m : Model) (fd : Fd) {content : Mem} {delim : UInt8} {p : Model.Processed}
    (hp : p.action = Model.command content)
    (hact : Model.command content ∉ [some .create, some .delete, some .sub, some .unsub])
    (hpub : Model.command content = some .pub → Model.cut (content.drop 4) delim = none)
    (hlogin : Model.command content = some .login → Model.cut (content.drop 6) delim = none) :
    Server.observe m fd content delim p = [] := by
  unfold Server.observe
  rw [hp]
  split
  · next hc => rw [hlogin hc]
  · next hc => exact absurd hact (by simp [hc])
  · next hc => exact absurd hact (by simp [hc])
  · next hc => exact absurd hact (by simp [hc])
  · next hc => rw [hpub hc]
  · rfl

/-- A `login` lets nothing be observed but that it logged its connection in. -/
theorem observe_login (m : Model) (fd : Fd) (content : Mem) (delim : UInt8) {p : Model.Processed}
    (hp : p.action = some .login) :
    ∀ o ∈ Server.observe m fd content delim p, ∃ acc, o = .loggedIn fd acc := by
  intro o ho
  unfold Server.observe at ho
  rw [hp] at ho
  simp only at ho
  split at ho
  · split at ho
    · obtain ⟨acc, -, rfl⟩ := List.mem_map.mp ho
      exact ⟨acc.id, rfl⟩
    · nomatch ho
  · nomatch ho

/-- The name that a command cuts off its parameter holds no NUL. -/
theorem cut_clean_name {param : Mem} {delim : UInt8} {name : List UInt8} {rest : Mem}
    (h : Model.cut param delim = some (name, rest)) : (0 : UInt8) ∉ name := by
  obtain ⟨pos, hpos, heq⟩ := Option.map_eq_some_iff.mp h
  obtain ⟨a, q, rfl, -, -, h0⟩ := strchr_eq_some hpos
  obtain ⟨rfl, -⟩ := Prod.mk.inj heq
  rwa [List.length_append, Nat.add_sub_cancel, List.take_left']
  rfl

namespace DeliveryInv

variable {refused : Bool} {s : Server} {h : History}

/-- A publish reaches subscribers only and does not exit. -/
theorem modelPub (hi : DeliveryInv refused s h) {topic : List UInt8} (hclean : (0 : UInt8) ∉ topic) (fd : Fd)
    (msg : Mem) :
    TopicsInv (Listable refused s.fdtab h) (s.model.modelPub s.view fd topic msg).2.1 ∧
      (∀ r ∈ (s.model.modelPub s.view fd topic msg).2.2.1,
        (s.fdtab r.fd).callable = true ∧ Subscribed refused h r.fd topic) ∧
      (s.model.modelPub s.view fd topic msg).2.2.2 = false := by
  unfold Model.modelPub
  split
  · rename_i top acc hget _
    obtain ⟨hmem, hname⟩ := hi.topics.topicGet_name hget
    rw [cstr_eq_self hclean] at hname
    have hlist : (⟨top.addr, top.name, top.fds⟩ : Listing) ∈ s.model.listed := List.mem_map_of_mem hmem
    -- a listed descriptor with a write buffer is a subscriber's
    have hcall : ∀ c ∈ top.fds, s.view.wrBuf c = true → (s.fdtab c).callable = true ∧ Subscribed refused h c topic := by
      intro c hc hw
      rcases hi.topics.member _ hlist c hc with hl | ⟨-, hnone⟩
      · rwa [hname] at hl
      · rw [show s.view.wrBuf c = (s.fdtab c).wrBuf from rfl, hnone] at hw
        nomatch hw
    have hspec := pubLoop_spec s.view (Model.bdcMsg acc msg).1 (Model.bdcMsg acc msg).2 top.fds.length (Nat.le_refl _)
    set left := Model.pubLoop s.view (Model.bdcMsg acc msg).1 (Model.bdcMsg acc msg).2 top.fds.length top.fds
    obtain ⟨hsub, hsent, hexit⟩ := hspec
    refine ⟨?_, fun r hr => hcall r.fd (hsent r hr).1 (hsent r hr).2, ?_⟩
    · have hl := s.model.listed_setTopic (fun _ => left.1) top.addr
      refine hi.topics.write top.addr (fun _ => left.1) hl ?_ ?_ fun p hp _ c hc => hi.topics.member p hp c hc
      · exact fun p _ _ => (hi.topics.nodup _ hlist).sublist hsub
      · intro p hp ha c hc
        obtain rfl := (hi.topics.listing_unique hmem hp).1.mp ha
        exact hi.topics.member _ hlist c (hsub.subset hc)
    · rw [Bool.eq_false_iff]
      intro he
      obtain ⟨c, hc, hw, hu⟩ := hexit he
      have hcallable := (hcall c hc hw).1
      rw [FdEntry.callable, show (s.fdtab c).owner.any Handler.hasUserData = s.view.userData c from rfl, hu,
        Bool.and_false] at hcallable
      nomatch hcallable
  · exact ⟨hi.topics, fun r hr => (nomatch hr), rfl⟩

/-- After an `unsub` the topics list no one who has left them. -/
theorem modelUnsub (hi : DeliveryInv refused s h) {fd : Fd} {content : Mem} (hc : Model.command content = some .unsub)
    (hunsub : refused = true → s.model.UnsubHeard fd content) :
    TopicsInv (Listable refused s.fdtab
      (.unsubscribed fd (cstr (content.drop 6)) ((s.model.modelUnsub fd (content.drop 6)).1 = .success) :: h))
      (s.model.modelUnsub fd (content.drop 6)).2 := by
  rcases hi.topics.modelUnsub fd (content.drop 6) with ⟨hret, ht⟩ | ⟨hret, ht⟩
  · refine ht.mono fun n c ⟨hl, hne⟩ => hl.imp (fun ⟨hc, hs⟩ => ⟨hc, ?_, hs⟩) id
    rintro ⟨rfl, rfl, -⟩
    exact hne ⟨rfl, rfl⟩
  · cases refused with
    | false => exact ht.mono fun n c hl => hl.imp (fun ⟨hc, hs⟩ => ⟨hc, by simp [hret], hs⟩) id
    | true =>
      have ht' := hi.topics.modelUnsub_refused hc (hunsub rfl) hret
      refine ht'.mono fun n c ⟨hl, hne⟩ => hl.imp (fun ⟨hc, hs⟩ => ⟨hc, ?_, hs⟩) id
      rintro ⟨rfl, rfl, -⟩
      exact hne ⟨rfl, rfl⟩

/-- A command keeps the invariant, delivers to subscribers only and does not exit. -/
theorem process (hi : DeliveryInv refused s h) {fd : Fd} (hcall : (s.fdtab fd).callable = true) {sup : Supply}
    (hst : Stores fd sup) (hfresh : ∀ top ∈ s.model.topics, top.addr ≠ sup.addr) {content : Mem}
    (hunsub : refused = true → s.model.UnsubHeard fd content) (delim : UInt8) (rands : List Nat) :
    DeliveryInv refused (s.process fd content delim sup rands).1 ((s.process fd content delim sup rands).2 ++ h) ∧
      DeliversTo refused s h (s.process fd content delim sup rands).2 ∧
      (s.process fd content delim sup rands).1.exited = false := by
  obtain ⟨c, hproc⟩ := s.process_eq fd content delim sup rands
  obtain ⟨replies, exited, hmp, hrep, hexit⟩ := s.model.modelProcess_of_perform s.view fd content delim sup
  have hlisted : ∀ p ∈ s.model.listed, p.addr ≠ sup.addr := by
    intro p hp
    obtain ⟨top, htop, rfl⟩ := List.mem_map.mp hp
    exact hfresh top htop
  have huser : s.view.userData fd = true := (Bool.and_eq_true_iff.mp hcall).2
  -- the exit is the operation's: the reply goes to a connection that may be called back
  have hnoexit : (s.model.perform s.view fd content delim sup).exited = false → exited = false := by
    intro hp
    rw [Bool.eq_false_iff]
    intro he
    rcases hexit he with he | he
    · rw [hp] at he
      nomatch he
    · rw [huser] at he
      nomatch he
  rw [hproc, hmp]
  have hcase := s.model.perform_cases s.view fd content delim sup
  generalize s.model.perform s.view fd content delim sup = pr at hcase hnoexit ⊢
  cases hcase with
  | create hc =>
    have ht := hi.topics.modelTopicCreate hst hlisted (content.drop 7)
    refine ⟨⟨ht.mono fun n c hl => listable_subscribed hcall hl, hi.served⟩, ?_, hnoexit rfl⟩
    intro c topic hin
    nomatch List.mem_singleton.mp hin
  | delete hc =>
    obtain ⟨-, keep, hl⟩ := s.model.topicDelete_frame (content.drop 7)
    exact ⟨⟨hi.topics.filter hl, hi.served⟩, fun c topic hin => (nomatch hin), hnoexit rfl⟩
  | sub hc =>
    rcases hi.topics.modelSub fd hst (content.drop 4) with ⟨hret, ht⟩ | ⟨hret, ht⟩
    · simp only [Server.observe, Model.Processed.done, hret, if_true]
      refine ⟨⟨ht.mono fun n c hl => listable_subscribed hcall hl, hi.served⟩, ?_, hnoexit rfl⟩
      intro c topic hin
      nomatch List.mem_singleton.mp hin
    · simp only [Server.observe, Model.Processed.done, hret, reduceCtorEq, if_false]
      exact ⟨⟨ht, hi.served⟩, fun c topic hin => (nomatch hin), hnoexit rfl⟩
  | unsub hc =>
    simp only [Server.observe, Model.Processed.done]
    have hnone : DeliversTo refused s h
        [.unsubscribed fd (cstr (content.drop 6)) ((s.model.modelUnsub fd (content.drop 6)).1 = .success)] := by
      intro c topic hin
      nomatch List.mem_singleton.mp hin
    exact ⟨⟨hi.modelUnsub hc hunsub, hi.served⟩, hnone, hnoexit rfl⟩
  | @pub topic msg hc hcut =>
    obtain ⟨ht, hsent, hno⟩ := hi.modelPub (cut_clean_name hcut) fd msg
    simp only [Server.observe, hcut]
    refine ⟨⟨ht.mono fun n c hl => hl.append ?_, hi.served⟩, ?_, hnoexit hno⟩
    · intro o ho
      obtain ⟨r, -, rfl⟩ := List.mem_map.mp ho
      exact fun _ _ _ => ⟨nofun, nofun⟩
    · intro c topic' hin
      obtain ⟨r, hr, heq⟩ := List.mem_map.mp hin
      obtain ⟨rfl, rfl⟩ := Obs.delivered.inj heq
      obtain ⟨hr, hact⟩ := List.mem_filter.mp hr
      rcases List.mem_append.mp hr with hr | hr
      · exact hsent r hr
      · rw [(hrep r hr).2, hc] at hact
        nomatch hact
  | @login user auth hc hcut =>
    have ht := hi.topics.of_listed_eq (s.model.listed_modelAccAuth fd user auth sup.slot)
    have hobs := @observe_login s.model fd content delim
      { Model.Processed.done .login (s.model.modelAccAuth fd user auth sup.slot) Zb.setWr with
        sent := [] ++ replies, exited } rfl
    refine ⟨⟨ht.mono fun n c hl => hl.append ?_, hi.served⟩, ?_, hnoexit rfl⟩
    · intro o ho
      obtain ⟨acc, rfl⟩ := hobs o ho
      exact fun _ _ _ => ⟨nofun, nofun⟩
    · intro c topic hin
      obtain ⟨acc, heq⟩ := hobs _ hin
      nomatch heq
  | logup hc hcut =>
    exact ⟨⟨hi.topics.of_listed_eq (s.model.listed_modelAccCreate _ _), hi.served⟩, fun c topic hin => (nomatch hin),
      hnoexit rfl⟩
  | quiet state hact hpub hlogin =>
    rw [observe_quiet s.model fd rfl hact hpub hlogin]
    exact ⟨⟨hi.topics, hi.served⟩, fun c topic hin => (nomatch hin), hnoexit rfl⟩

theorem attachCookie (hi : DeliveryInv refused s h) (fd : Fd) (sess : Session) (sup : Supply) :
    DeliveryInv refused (s.attachCookie fd sess sup).1 ((s.attachCookie fd sess sup).2 ++ h) ∧
      (∀ c topic, Subscribed refused ((s.attachCookie fd sess sup).2 ++ h) c topic ↔ Subscribed refused h c topic) ∧
      (s.attachCookie fd sess sup).1.model.topics = s.model.topics ∧
      ∀ c topic, .delivered c topic ∉ (s.attachCookie fd sess sup).2 := by
  unfold Server.attachCookie
  cases s.cookieAccount sess with
  | none => exact ⟨hi, fun c topic => Iff.rfl, rfl, fun c topic => List.not_mem_nil⟩
  | some acc =>
    refine ⟨⟨?_, hi.served⟩, fun c topic => Iff.rfl, rfl, fun c topic hin => nomatch List.mem_singleton.mp hin⟩
    exact (hi.topics.of_listed_eq (s.model.listed_setAccount _ _)).mono fun n c hl => hl

theorem msgComplete (hi : DeliveryInv refused s h) {fd : Fd} (hcall : (s.fdtab fd).callable = true) {sup : Supply}
    (hst : Stores fd sup) (hfresh : ∀ top ∈ s.model.topics, top.addr ≠ sup.addr) {sess : Session} {behind : Mem}
    (hunsub : refused = true → ∀ url ∈ sess.url,
      (s.attachCookie fd sess sup).1.model.UnsubHeard fd (Server.paramOf url behind)) (rands : List Nat) :
    DeliveryInv refused (s.httpOnMsgComplete fd sess sup rands behind).1
        ((s.httpOnMsgComplete fd sess sup rands behind).2 ++ h) ∧
      DeliversTo refused s h (s.httpOnMsgComplete fd sess sup rands behind).2 ∧
      ((s.httpOnMsgComplete fd sess sup rands behind).1.exited = true → sess.url = none) := by
  obtain ⟨hi', hsub, htopics, hnone⟩ := hi.attachCookie fd sess sup
  have hfd := s.attachCookie_fdtab fd sess sup
  unfold Server.httpOnMsgComplete
  cases hurl : sess.url with
  | none => exact ⟨⟨hi'.topics, hi'.served⟩, fun c topic hin => absurd hin (hnone c topic), fun _ => rfl⟩
  | some url =>
    simp only [List.append_assoc]
    have hcall' : ((s.attachCookie fd sess sup).1.fdtab fd).callable = true := by rw [hfd, hcall]
    have hfresh' : ∀ top ∈ (s.attachCookie fd sess sup).1.model.topics, top.addr ≠ sup.addr := by
      rw [htopics]
      exact hfresh
    obtain ⟨hinv, hdel, hex⟩ := hi'.process hcall' hst hfresh' (fun hr => hunsub hr url hurl) 47 rands
    refine ⟨hinv, ?_, fun he => by rw [hex] at he; nomatch he⟩
    intro c topic hin
    rcases List.mem_append.mp hin with hin | hin
    · obtain ⟨hc, hs⟩ := hdel c topic hin
      rw [hfd] at hc
      exact ⟨hc, (hsub c topic).mp hs⟩
    · exact absurd hin (hnone c topic)

/-- What the parser leaves in a session concerns no topic. -/
theorem session (hi : DeliveryInv refused s h) (fd : Fd) (f : Option Session → Option Session) :
    DeliveryInv refused (s.setFd fd fun e => { e with session := f e.session }) h := by
  have hfd : ∀ x, ((s.setFd fd fun e => { e with session := f e.session }).fdtab x).callable = (s.fdtab x).callable ∧
      ((s.setFd fd fun e => { e with session := f e.session }).fdtab x).isOpen = (s.fdtab x).isOpen ∧
      ((s.setFd fd fun e => { e with session := f e.session }).fdtab x).wrBuf = (s.fdtab x).wrBuf := by
    intro x
    simp only [Server.setFd]
    split <;> exact ⟨rfl, rfl, rfl⟩
  refine ⟨hi.topics.change rfl fun p hp c hc => ?_, fun x hcall => ?_⟩
  · rw [Listable, (hfd c).1, (hfd c).2.1, (hfd c).2.2]
    exact hi.topics.member p hp c hc
  · rw [(hfd x).1] at hcall
    rw [(hfd x).2.2]
    exact hi.served x hcall

/-- A descriptor that no topic lists may be accepted anew, and one that the HTTP front end turns away stays as it is. -/
theorem eventAccept (hi : DeliveryInv refused s h) {fd : Fd} (hclosed : (s.fdtab fd).isOpen = false) {hd : Handler}
    (hunlisted : ¬(hd = .httpPubsub ∧ s.full = true) → s.model.Unlisted fd) :
    DeliveryInv refused (s.eventAccept hd fd).1 ((s.eventAccept hd fd).2 ++ h) := by
  by_cases hkeep : hd = .httpPubsub ∧ s.full = true
  · obtain ⟨rfl, hfull⟩ := hkeep
    have heq : s.eventAccept .httpPubsub fd = (s, []) := by
      simp [Server.eventAccept, Server.handlerAccept, hfull]
    rw [heq]
    exact hi
  · have hunl := hunlisted hkeep
    obtain ⟨hm, hfd, hseen⟩ := s.eventAccept_frame hd fd
    obtain ⟨hwr, -⟩ := s.eventAccept_wrBuf hd hclosed
    refine ⟨?_, ?_⟩
    · refine hi.topics.change (by rw [hm]) fun p hp c hc => ?_
      have hne : c ≠ fd := by
        rintro rfl
        obtain ⟨top, htop, rfl⟩ := List.mem_map.mp hp
        exact hunl top htop hc
      have hl := hi.topics.member p hp c hc
      rw [Listable, hfd c hne]
      rcases hseen with hseen | hseen
      · rw [hseen]
        exact hl
      · rw [hseen]
        exact hl.imp (fun ⟨hcall, hs⟩ => ⟨hcall, hne.symm, hs⟩) id
    · intro x hcall
      by_cases hx : x = fd
      · subst hx
        exact hwr (Bool.and_eq_true_iff.mp hcall).1
      · rw [hfd x hx] at hcall ⊢
        exact hi.served x hcall

/-- A connection of the plain front end that no topic lists may close; the HTTP front end leaves its descriptor
marked. -/
theorem close (hi : DeliveryInv refused s h) {fd : Fd} {hd : Handler} (hopen : (s.fdtab fd).isOpen = true)
    (howner : (s.fdtab fd).owner = some hd) (hunlisted : (s.fdtab fd).owner = some .pubsub → s.model.Unlisted fd) :
    DeliveryInv refused (s.close hd fd) h := by
  obtain ⟨hm, hfd⟩ := s.close_frame hd fd
  have hclosed := s.close_isOpen hd fd
  have hl : (s.close hd fd).model.listed = s.model.listed := by
    rw [hm]
    split
    · exact s.model.listed_modelAccOffline fd
    · rfl
  -- a topic that lists the descriptor finds its write buffer gone
  have hmark : ∀ p ∈ s.model.listed, fd ∈ p.fds → ((s.close hd fd).fdtab fd).wrBuf = false := by
    intro p hp hmem
    cases hd with
    | httpPubsub => simp [Server.close, Server.handlerDisconnect, Server.setFd]
    | pubsub =>
      obtain ⟨top, htop, rfl⟩ := List.mem_map.mp hp
      exact absurd hmem (hunlisted howner top htop)
    | echo | http | memcached =>
      rcases hi.topics.member p hp fd hmem with ⟨hcall, -⟩ | ⟨hcl, -⟩
      · simp [FdEntry.callable, howner, Handler.hasUserData] at hcall
      · rw [hopen] at hcl
        cases hcl
  refine ⟨hi.topics.change hl fun p hp c hc => ?_, fun x hcall => ?_⟩
  · by_cases hx : c = fd
    · subst hx
      exact .inr ⟨hclosed, hmark p hp hc⟩
    · rw [Listable, hfd c hx]
      exact hi.topics.member p hp c hc
  · have hx : x ≠ fd := by
      rintro rfl
      rw [FdEntry.callable, hclosed, Bool.false_and] at hcall
      cases hcall
    rw [hfd x hx] at hcall ⊢
    exact hi.served x hcall

end DeliveryInv

/-! ## Runs -/

/-- `malloc` returns no address of a topic that is in the list. -/
def MallocFresh (t : Observed) (e : Event) (_ : Observed) : Prop :=
  match e with
  | .command _ _ sup | .msgComplete _ sup _ _ => ∀ top ∈ t.1.model.topics, top.addr ≠ sup.addr
  | _ => True

/-- No topic lists a descriptor when it is accepted anew (unless the HTTP front end turns it away) or when its
connection to the plain front end closes; what a vector is given it stores. -/
def UnlistedOnReuse (t : Observed) (e : Event) (_ : Observed) : Prop :=
  match e with
  | .accept h fd => ¬(h = .httpPubsub ∧ t.1.full = true) → t.1.model.Unlisted fd
  | .close fd => (t.1.fdtab fd).owner = some .pubsub → t.1.model.Unlisted fd
  | .command fd _ sup | .msgComplete fd sup _ _ => Stores fd sup
  | _ => True

/-- No `unsub` is refused to a connection that the topic lists. -/
def UnsubsHeard (t : Observed) (e : Event) (_ : Observed) : Prop :=
  match e with
  | .command fd content _ => t.1.model.UnsubHeard fd content
  | .msgComplete fd sup _ behind =>
    ∀ sess ∈ (t.1.fdtab fd).session, ∀ url ∈ sess.url,
      (t.1.attachCookie fd sess sup).1.model.UnsubHeard fd (Server.paramOf url behind)
  | _ => True

/-- Every message goes to an open pub/sub connection that has itself subscribed to the topic since it was accepted
and not executed `unsub` of it since, and the process does not exit, unless a message is complete that had no URL. -/
def DeliversToSubscribers (refused : Bool) (t : Observed) (e : Event) (_ : Observed) : Prop :=
  ∀ r, t.1.step e = some r →
    DeliversTo refused t.1 t.2 r.2 ∧
      (r.1.exited = true → ∃ fd sup rands behind sess,
        e = .msgComplete fd sup rands behind ∧ (t.1.fdtab fd).session = some sess ∧ sess.url = none)

theorem deliveryInv_init (refused : Bool) (fdtab : Fd → FdEntry) (maxConn : Int) :
    DeliveryInv refused (Server.init fdtab maxConn) [] := by
  refine ⟨⟨List.nodup_nil, List.nodup_nil, fun p hp => (nomatch hp), fun p hp => (nomatch hp),
    fun p hp => (nomatch hp)⟩, ?_⟩
  intro fd hcall
  simp [FdEntry.callable, Server.init] at hcall

/-- What the steps of a run owe, for deliveries to be right: `malloc` does its part, no descriptor is reused while
listed, and, if refused `unsub`s count, none is refused in vain. -/
def DeliveryClean (refused : Bool) (t : Observed) (e : Event) (t' : Observed) : Prop :=
  MallocFresh t e t' ∧ UnlistedOnReuse t e t' ∧ (refused = true → UnsubsHeard t e t')

/-- One event keeps the invariant and delivers to subscribers only. -/
theorem deliveryInv_step {refused : Bool} {t t' : Observed} {e : Event} (hi : DeliveryInv refused t.1 t.2)
    (hs : observedStep t e = some t') (hc : DeliveryClean refused t e t') :
    DeliveryInv refused t'.1 t'.2 ∧ DeliversToSubscribers refused t e t' := by
  obtain ⟨hmalloc, hreuse, hheard⟩ := hc
  obtain ⟨r, hstep, rfl⟩ := Option.map_eq_some_iff.mp hs
  have hrun := Server.step_running hstep
  -- an event that leaves the process running and delivers nothing
  have silent : r.1.exited = t.1.exited → (∀ c topic, .delivered c topic ∉ r.2) →
      DeliversToSubscribers refused t e (r.1, r.2 ++ t.2) := by
    intro hex hnone r' hstep'
    obtain rfl := Option.some.inj (hstep.symm.trans hstep')
    refine ⟨fun c topic hin => absurd hin (hnone c topic), fun he => ?_⟩
    rw [hex, hrun] at he
    nomatch he
  cases Server.step_cases hstep with
  | @accept hd fd hclosed =>
    refine ⟨hi.eventAccept hclosed hreuse, silent (t.1.eventAccept_wrBuf hd hclosed).2 fun c topic hin => ?_⟩
    rcases (t.1.eventAccept_frame hd fd).2.2 with hseen | hseen
    · rw [hseen] at hin
      nomatch hin
    · rw [hseen] at hin
      nomatch List.mem_singleton.mp hin
  | @command fd content sup hserves =>
    obtain ⟨ho, hu⟩ := Server.serves_view hserves rfl
    have hcall : (t.1.fdtab fd).callable = true := Bool.and_eq_true_iff.mpr ⟨ho, hu⟩
    obtain ⟨hinv, hdel, hex⟩ := hi.process hcall hreuse hmalloc hheard 32 []
    refine ⟨hinv, fun r' hstep' => ?_⟩
    obtain rfl := Option.some.inj (hstep.symm.trans hstep')
    exact ⟨hdel, fun he => by rw [hex] at he; nomatch he⟩
  | @url fd bytes hserves =>
    refine ⟨hi.session fd _, silent rfl fun c topic => List.not_mem_nil⟩
  | @headerField fd mem hserves =>
    refine ⟨hi.session fd _, silent rfl fun c topic => List.not_mem_nil⟩
  | @msgComplete fd sup rands behind sess hserves hsess =>
    obtain ⟨ho, hu⟩ := Server.serves_view hserves rfl
    have hcall : (t.1.fdtab fd).callable = true := Bool.and_eq_true_iff.mpr ⟨ho, hu⟩
    obtain ⟨hinv, hdel, hex⟩ := hi.msgComplete hcall hreuse hmalloc (fun hr => hheard hr sess hsess) rands
    refine ⟨hinv, fun r' hstep' => ?_⟩
    obtain rfl := Option.some.inj (hstep.symm.trans hstep')
    exact ⟨hdel, fun he => ⟨fd, sup, rands, behind, sess, rfl, hsess, hex he⟩⟩
  | @close fd hd hopen howner =>
    exact ⟨hi.close hopen howner hreuse, silent (t.1.close_exited hd fd) fun c topic => List.not_mem_nil⟩

/-- In a run of the server that reuses no descriptor while a topic lists it, every message goes to a connection that
has itself subscribed, and no publish ends the process. `refused` says whether an `unsub` that the model refused
counts as executed. -/
theorem publish_reaches_subscribers (refused : Bool) (fdtab : Fd → FdEntry) (maxConn : Int) (es : List Event)
    (h : AllSteps observedStep (DeliveryClean refused) (Server.init fdtab maxConn, []) es) :
    AllSteps observedStep (DeliversToSubscribers refused) (Server.init fdtab maxConn, []) es :=
  AllSteps.of_invariant (I := fun t : Observed => DeliveryInv refused t.1 t.2) (deliveryInv_init refused fdtab maxConn)
    (fun _ _ _ hi hs hc => (deliveryInv_step hi hs hc).1) (fun _ _ _ hi hs hc => (deliveryInv_step hi hs hc).2) h

instance (refused : Bool) (t : Observed) (e : Event) (t' : Observed) : Decidable (DeliveryClean refused t e t') := by
  unfold DeliveryClean MallocFresh UnlistedOnReuse UnsubsHeard
  cases e <;> infer_instance

/-- Two plain connections, the first of which has created the topic `t`. -/
def twoConnections : List Event :=
  [.accept .pubsub 5, .accept .pubsub 6, plainCommand 5 "logup a p" 0, plainCommand 5 "login a p" 0,
    plainCommand 6 "login a p" 0, plainCommand 5 "create t" 1]

/-- While both connections are open, the creator is written to; it unsubscribes and closes, and is written to no
more. -/
theorem publish_reaches_creator :
    AllSteps observedStep (DeliversToSubscribers true) (freshServer, [])
      (twoConnections ++ [plainCommand 6 "pub t hi" 0, plainCommand 5 "unsub t" 0, .close 5,
        plainCommand 6 "pub t hi" 0]) :=
  publish_reaches_subscribers true _ _ _ (by decide +kernel)

/-- The creator closes without an `unsub`: the next message is written to its closed descriptor. -/
theorem publish_reaches_closed :
    ¬AllSteps observedStep (DeliversToSubscribers false) (freshServer, [])
      (twoConnections ++ [.close 5, plainCommand 6 "pub t hi" 0]) := by
  intro h
  have hpub := @AllSteps.last _ _ _ _ _ _ _ (twoConnections ++ [.close 5]) _ h rfl rfl
  have hdel := (hpub _ rfl).1 5 (lit "t") (by decide +kernel)
  exact absurd hdel.1 (by decide +kernel)

end ZeroServ
