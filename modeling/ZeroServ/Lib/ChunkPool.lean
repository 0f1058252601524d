import Mathlib.Data.List.Nodup
import Mathlib.Data.List.Perm.Basic
import Mathlib.Logic.Function.Basic

/-!
# Chunks of pages

Pages of one length belong to classes, and a class cuts its pages to chunks of its own size. A pool has the pages of
each class, the chunks of each class that are free, and the live ones, with their class. `Wf` is what keeps the live
chunks apart. A class gets a page, all of whose chunks are then free, or gives one up on which nothing is live; a
free chunk becomes live, and a live one free, or is lost.
-/

namespace ChunkPool

variable {ι : Type*}

/-- Two ranges of addresses have no byte in common. -/
def Apart (a m b n : Nat) : Prop := a + m ≤ b ∨ b + n ≤ a

instance (a m b n : Nat) : Decidable (Apart a m b n) := inferInstanceAs (Decidable (_ ∨ _))

/-- The length of a page, and the size of the chunks of each class with how many of them a page has. -/
structure Layout (ι : Type*) where
  block : Nat
  size : ι → Nat
  count : ι → Nat
  pos : 0 < block
  fits : ∀ i, size i * count i ≤ block

/-- The pages, the free chunks and the live chunks. -/
structure Pool (ι : Type*) where
  pages : ι → List Nat
  free : ι → List Nat
  live : List (Nat × ι)

namespace Layout

variable (L : Layout ι)

/-- The chunks of a page. -/
def chunks (i : ι) (a : Nat) : List Nat := (List.range (L.count i)).map fun k => a + k * L.size i

/-- An address lies in a page. -/
def InPage (a p : Nat) : Prop := a ≤ p ∧ p < a + L.block

instance (a p : Nat) : Decidable (L.InPage a p) := inferInstanceAs (Decidable (_ ∧ _))

variable {L} {i : ι} {a p q : Nat}

theorem mem_chunks : p ∈ L.chunks i a ↔ ∃ k < L.count i, p = a + k * L.size i := by
  simp [chunks, eq_comm]

/-- A chunk lies in its page. -/
theorem chunk_within (h : p ∈ L.chunks i a) : a ≤ p ∧ p + L.size i ≤ a + L.block := by
  obtain ⟨k, hk, rfl⟩ := mem_chunks.mp h
  have hlast : (k + 1) * L.size i ≤ L.count i * L.size i := Nat.mul_le_mul_right _ hk
  have hfits := L.fits i
  rw [Nat.mul_comm] at hfits
  rw [Nat.succ_mul] at hlast
  omega

theorem chunk_inPage (h : p ∈ L.chunks i a) : L.InPage a p := by
  obtain ⟨hlo, hhi⟩ := chunk_within h
  refine ⟨hlo, ?_⟩
  rcases Nat.eq_zero_or_pos (L.size i) with hzero | hpos
  · obtain ⟨k, -, rfl⟩ := mem_chunks.mp h
    rw [hzero, Nat.mul_zero]
    have := L.pos
    omega
  · omega

/-- Two chunks of a page. -/
theorem chunks_apart (hp : p ∈ L.chunks i a) (hq : q ∈ L.chunks i a) (hne : p ≠ q) :
    Apart p (L.size i) q (L.size i) := by
  obtain ⟨k, -, rfl⟩ := mem_chunks.mp hp
  obtain ⟨l, -, rfl⟩ := mem_chunks.mp hq
  rcases Nat.lt_trichotomy k l with h | rfl | h
  · have hle : (k + 1) * L.size i ≤ l * L.size i := Nat.mul_le_mul_right _ h
    rw [Nat.succ_mul] at hle
    exact .inl (by omega)
  · exact absurd rfl hne
  · have hle : (l + 1) * L.size i ≤ k * L.size i := Nat.mul_le_mul_right _ h
    rw [Nat.succ_mul] at hle
    exact .inr (by omega)

theorem chunks_nodup (h : 0 < L.size i) : (L.chunks i a).Nodup := by
  refine List.nodup_range.map fun k l hkl => ?_
  exact Nat.eq_of_mul_eq_mul_right h (Nat.add_left_cancel hkl)

/-- The chunks of a page, the first one apart. -/
theorem range_succ_chunks (n a m : Nat) :
    (List.range (n + 1)).map (fun k => a + k * m) = a :: (List.range n).map fun k => a + m + k * m := by
  rw [List.range_succ_eq_map, List.map_cons, List.map_map, Nat.zero_mul, Nat.add_zero]
  congr 1
  refine List.map_congr_left fun k _ => ?_
  rw [Function.comp_apply, Nat.succ_mul]
  omega

end Layout

namespace Pool

variable (L : Layout ι) (P : Pool ι)

/-- An address is a chunk of a page of the class. -/
def IsChunk (i : ι) (p : Nat) : Prop := ∃ a ∈ P.pages i, p ∈ L.chunks i a

/-- Pages do not overlap, and no chunk is twice free, twice live, or both. -/
structure Wf : Prop where
  apart : ∀ {i j a b}, a ∈ P.pages i → b ∈ P.pages j → (i, a) ≠ (j, b) → Apart a L.block b L.block
  pages : ∀ i, (P.pages i).Nodup
  free : ∀ i, (P.free i).Nodup
  live : P.live.Nodup
  freeChunk : ∀ {i p}, p ∈ P.free i → P.IsChunk L i p
  liveChunk : ∀ {c}, c ∈ P.live → P.IsChunk L c.2 c.1
  notFree : ∀ {c}, c ∈ P.live → c.1 ∉ P.free c.2

/-- The same pages and free chunks in another order. -/
structure Similar (P Q : Pool ι) : Prop where
  pages : ∀ i, (P.pages i).Perm (Q.pages i)
  free : ∀ i, (P.free i).Perm (Q.free i)
  live : P.live = Q.live

variable {L P}

theorem IsChunk.mono {Q : Pool ι} {i : ι} {p : Nat} (hpages : ∀ a ∈ P.pages i, a ∈ Q.pages i) (h : P.IsChunk L i p) :
    Q.IsChunk L i p := by
  obtain ⟨a, ha, hp⟩ := h
  exact ⟨a, hpages a ha, hp⟩

theorem Similar.wf {Q : Pool ι} (hs : Similar P Q) (h : Wf L P) : Wf L Q where
  apart ha hb := h.apart ((hs.pages _).mem_iff.mpr ha) ((hs.pages _).mem_iff.mpr hb)
  pages i := (hs.pages i).nodup_iff.mp (h.pages i)
  free i := (hs.free i).nodup_iff.mp (h.free i)
  live := hs.live ▸ h.live
  freeChunk hp := (h.freeChunk ((hs.free _).mem_iff.mpr hp)).mono fun _ ha => (hs.pages _).mem_iff.mp ha
  liveChunk hc := (h.liveChunk (hs.live ▸ hc)).mono fun _ ha => (hs.pages _).mem_iff.mp ha
  notFree hc hp := h.notFree (hs.live ▸ hc) ((hs.free _).mem_iff.mpr hp)

/-! ## What a well-formed pool keeps apart -/

namespace Wf

variable (h : Wf L P) {i j : ι} {a b p q : Nat}

include h

/-- An address lies in one page at most. -/
theorem page_unique (ha : a ∈ P.pages i) (hb : b ∈ P.pages j) (hp : L.InPage a p) (hq : L.InPage b p) :
    (i, a) = (j, b) := by
  by_contra hne
  obtain ⟨hp₁, hp₂⟩ := hp
  obtain ⟨hq₁, hq₂⟩ := hq
  rcases h.apart ha hb hne with hlt | hlt <;> omega

/-- Two chunks do not overlap. -/
theorem chunks_apart (hp : P.IsChunk L i p) (hq : P.IsChunk L j q) (hne : (p, i) ≠ (q, j)) :
    Apart p (L.size i) q (L.size j) := by
  obtain ⟨a, ha, hp⟩ := hp
  obtain ⟨b, hb, hq⟩ := hq
  by_cases hab : (i, a) = (j, b)
  · obtain ⟨rfl, rfl⟩ := Prod.mk.inj hab
    exact Layout.chunks_apart hp hq fun hpq => hne (by rw [hpq])
  · have hp := Layout.chunk_within hp
    have hq := Layout.chunk_within hq
    rcases h.apart ha hb hab with hlt | hlt
    · exact .inl (by omega)
    · exact .inr (by omega)

theorem live_apart : P.live.Pairwise fun c d => Apart c.1 (L.size c.2) d.1 (L.size d.2) := by
  refine h.live.pairwise_of_forall_ne fun c hc d hd hne => ?_
  exact h.chunks_apart (h.liveChunk hc) (h.liveChunk hd) hne

theorem live_inside {c : Nat × ι} (hc : c ∈ P.live) : ∃ a ∈ P.pages c.2, a ≤ c.1 ∧ c.1 + L.size c.2 ≤ a + L.block := by
  obtain ⟨a, ha, hp⟩ := h.liveChunk hc
  exact ⟨a, ha, Layout.chunk_within hp⟩

/-- A free chunk is no live one, of its class or of another. -/
theorem free_not_live (hp : p ∈ P.free i) {c : Nat × ι} (hc : c ∈ P.live) : c.1 ≠ p := by
  rintro rfl
  obtain ⟨a, ha, hpa⟩ := h.freeChunk hp
  obtain ⟨b, hb, hpb⟩ := h.liveChunk hc
  obtain ⟨rfl, -⟩ := Prod.mk.inj (h.page_unique ha hb (Layout.chunk_inPage hpa) (Layout.chunk_inPage hpb))
  exact h.notFree hc hp

/-- A free chunk lies in no page of another class. -/
theorem free_page (hp : p ∈ P.free i) (hb : b ∈ P.pages j) (hij : j ≠ i) : ¬L.InPage b p := by
  intro hin
  obtain ⟨a, ha, hpa⟩ := h.freeChunk hp
  exact hij (Prod.mk.inj (h.page_unique ha hb (Layout.chunk_inPage hpa) hin)).1.symm

end Wf

/-! ## The operations -/

variable [DecidableEq ι]

variable (L P) in
/-- A class gets a page. -/
def addPage (i : ι) (a : Nat) : Pool ι :=
  { P with
    pages := Function.update P.pages i (P.pages i ++ [a])
    free := Function.update P.free i (P.free i ++ L.chunks i a) }

variable (L P) in
/-- A class gives a page up, with its free chunks. -/
def dropPage (i : ι) (a : Nat) : Pool ι :=
  { P with
    pages := Function.update P.pages i ((P.pages i).erase a)
    free := Function.update P.free i ((P.free i).filter fun p => !decide (L.InPage a p)) }

variable (P) in
/-- A free chunk becomes live. -/
def take (i : ι) (p : Nat) : Pool ι :=
  { P with free := Function.update P.free i ((P.free i).erase p), live := (p, i) :: P.live }

variable (P) in
/-- A live chunk becomes free. -/
def give (c : Nat × ι) : Pool ι :=
  { P with free := Function.update P.free c.2 (P.free c.2 ++ [c.1]), live := P.live.erase c }

variable (P) in
/-- A live chunk is lost. -/
def lose (c : Nat × ι) : Pool ι := { P with live := P.live.erase c }

section fields

variable (i j : ι) (a p : Nat) (c : Nat × ι)

theorem addPage_pages : (P.addPage L i a).pages j = if j = i then P.pages i ++ [a] else P.pages j :=
  Function.update_apply ..

theorem addPage_free : (P.addPage L i a).free j = if j = i then P.free i ++ L.chunks i a else P.free j :=
  Function.update_apply ..

theorem dropPage_pages : (P.dropPage L i a).pages j = if j = i then (P.pages i).erase a else P.pages j :=
  Function.update_apply ..

theorem dropPage_free :
    (P.dropPage L i a).free j = if j = i then (P.free i).filter fun p => !decide (L.InPage a p) else P.free j :=
  Function.update_apply ..

theorem take_free : (P.take i p).free j = if j = i then (P.free i).erase p else P.free j := Function.update_apply ..

theorem give_free : (P.give c).free j = if j = c.2 then P.free c.2 ++ [c.1] else P.free j := Function.update_apply ..

end fields

namespace Wf

variable (h : Wf L P) {i : ι} {a p : Nat} {c : Nat × ι}

omit [DecidableEq ι] in
/-- Nothing is in a page that is apart from the others. -/
theorem not_inPage_of_fresh (hfresh : ∀ j, ∀ b ∈ P.pages j, Apart a L.block b L.block) {j : ι} {q : Nat}
    (hq : P.IsChunk L j q) :
    ¬L.InPage a q := by
  rintro ⟨hlo, hhi⟩
  obtain ⟨b, hb, hqb⟩ := hq
  obtain ⟨hlo', hhi'⟩ := Layout.chunk_inPage hqb
  rcases hfresh j b hb with hlt | hlt <;> omega

include h

theorem addPage (hsize : 0 < L.size i) (hfresh : ∀ j, ∀ b ∈ P.pages j, Apart a L.block b L.block) :
    Wf L (P.addPage L i a) := by
  have hmem : ∀ {j b}, b ∈ (P.addPage L i a).pages j → b ∈ P.pages j ∨ (j = i ∧ b = a) := by
    intro j b hb
    by_cases hj : j = i
    · subst hj
      rw [addPage_pages, if_pos rfl, List.mem_append, List.mem_singleton] at hb
      exact hb.imp id fun hba => ⟨rfl, hba⟩
    · rw [addPage_pages, if_neg hj] at hb
      exact .inl hb
  have hmono : ∀ {j} b, b ∈ P.pages j → b ∈ (P.addPage L i a).pages j := by
    intro j b hb
    by_cases hj : j = i
    · subst hj
      rw [addPage_pages, if_pos rfl]
      exact List.mem_append_left _ hb
    · rwa [addPage_pages, if_neg hj]
  have hfree : ∀ {j q}, q ∈ (P.addPage L i a).free j → q ∈ P.free j ∨ (j = i ∧ q ∈ L.chunks i a) := by
    intro j q hq
    by_cases hj : j = i
    · subst hj
      rw [addPage_free, if_pos rfl, List.mem_append] at hq
      exact hq.imp id fun hqa => ⟨rfl, hqa⟩
    · rw [addPage_free, if_neg hj] at hq
      exact .inl hq
  refine ⟨?_, ?_, ?_, h.live, ?_, fun hc => (h.liveChunk hc).mono hmono, ?_⟩
  · intro j k b d hb hd hne
    rcases hmem hb with hb' | ⟨rfl, rfl⟩
    · rcases hmem hd with hd' | ⟨rfl, rfl⟩
      · exact h.apart hb' hd' hne
      · exact (hfresh _ _ hb').symm
    · rcases hmem hd with hd' | ⟨rfl, rfl⟩
      · exact hfresh _ _ hd'
      · exact absurd rfl hne
  · intro j
    by_cases hj : j = i
    · subst hj
      have hnew : a ∉ P.pages j := fun ha => by
        have := L.pos
        rcases hfresh j a ha with hlt | hlt <;> omega
      rw [addPage_pages, if_pos rfl]
      exact (h.pages j).append (List.nodup_singleton a) fun b hb hba => hnew (List.mem_singleton.mp hba ▸ hb)
    · rw [addPage_pages, if_neg hj]
      exact h.pages j
  · intro j
    by_cases hj : j = i
    · subst hj
      rw [addPage_free, if_pos rfl]
      refine (h.free j).append (Layout.chunks_nodup hsize) fun q hq hqa => ?_
      exact not_inPage_of_fresh hfresh (h.freeChunk hq) (Layout.chunk_inPage hqa)
    · rw [addPage_free, if_neg hj]
      exact h.free j
  · intro j q hq
    rcases hfree hq with hq | ⟨rfl, hqa⟩
    · exact (h.freeChunk hq).mono hmono
    · exact ⟨a, by rw [addPage_pages, if_pos rfl]; exact List.mem_append_right _ (List.mem_singleton_self a), hqa⟩
  · intro d hd hq
    rcases hfree hq with hq | ⟨-, hqa⟩
    · exact h.notFree hd hq
    · exact not_inPage_of_fresh hfresh (h.liveChunk hd) (Layout.chunk_inPage hqa)

theorem dropPage (ha : a ∈ P.pages i) (hlive : ∀ d ∈ P.live, ¬L.InPage a d.1) : Wf L (P.dropPage L i a) := by
  have hmem : ∀ {j b}, b ∈ (P.dropPage L i a).pages j → b ∈ P.pages j := by
    intro j b hb
    by_cases hj : j = i
    · subst hj
      rw [dropPage_pages, if_pos rfl] at hb
      exact List.mem_of_mem_erase hb
    · rwa [dropPage_pages, if_neg hj] at hb
  have hfree : ∀ {j q}, q ∈ (P.dropPage L i a).free j → q ∈ P.free j ∧ (j = i → ¬L.InPage a q) := by
    intro j q hq
    by_cases hj : j = i
    · subst hj
      rw [dropPage_free, if_pos rfl, List.mem_filter] at hq
      exact ⟨hq.1, fun _ => by simpa using hq.2⟩
    · rw [dropPage_free, if_neg hj] at hq
      exact ⟨hq, fun hji => absurd hji hj⟩
  -- a chunk that is not in the page is in another one
  have hkeep : ∀ {j q}, P.IsChunk L j q → (j = i → ¬L.InPage a q) → (P.dropPage L i a).IsChunk L j q := by
    rintro j q ⟨b, hb, hq⟩ hout
    refine ⟨b, ?_, hq⟩
    by_cases hj : j = i
    · subst hj
      have hba : b ≠ a := fun hba => hout rfl (hba ▸ Layout.chunk_inPage hq)
      rw [dropPage_pages, if_pos rfl]
      exact (List.mem_erase_of_ne hba).mpr hb
    · rwa [dropPage_pages, if_neg hj]
  refine ⟨fun hb hd => h.apart (hmem hb) (hmem hd), ?_, ?_, h.live, ?_, ?_, ?_⟩
  · intro j
    by_cases hj : j = i
    · subst hj
      rw [dropPage_pages, if_pos rfl]
      exact (h.pages j).erase a
    · rw [dropPage_pages, if_neg hj]
      exact h.pages j
  · intro j
    by_cases hj : j = i
    · subst hj
      rw [dropPage_free, if_pos rfl]
      exact (h.free j).filter _
    · rw [dropPage_free, if_neg hj]
      exact h.free j
  · intro j q hq
    obtain ⟨hq, hout⟩ := hfree hq
    exact hkeep (h.freeChunk hq) hout
  · intro d hd
    exact hkeep (h.liveChunk hd) fun _ => hlive d hd
  · intro d hd hq
    exact h.notFree hd (hfree hq).1

/-- Fewer free chunks, one of which may be live now. -/
theorem take (hp : p ∈ P.free i) : Wf L (P.take i p) := by
  have hfree : ∀ {j q}, q ∈ (P.take i p).free j → q ∈ P.free j ∧ (j, q) ≠ (i, p) := by
    intro j q hq
    by_cases hj : j = i
    · subst hj
      rw [take_free, if_pos rfl, (h.free j).mem_erase_iff] at hq
      exact ⟨hq.2, fun he => hq.1 (Prod.mk.inj he).2⟩
    · rw [take_free, if_neg hj] at hq
      exact ⟨hq, fun he => hj (Prod.mk.inj he).1⟩
  refine ⟨h.apart, h.pages, ?_, ?_, fun hq => h.freeChunk (hfree hq).1, ?_, ?_⟩
  · intro j
    by_cases hj : j = i
    · subst hj
      rw [take_free, if_pos rfl]
      exact (h.free j).erase p
    · rw [take_free, if_neg hj]
      exact h.free j
  · exact List.nodup_cons.mpr ⟨fun hlive => h.notFree hlive hp, h.live⟩
  · intro d hd
    rcases List.mem_cons.mp hd with rfl | hd
    · exact h.freeChunk hp
    · exact h.liveChunk hd
  · intro d hd hq
    obtain ⟨hq, hne⟩ := hfree hq
    rcases List.mem_cons.mp hd with rfl | hd
    · exact hne rfl
    · exact h.notFree hd hq

theorem give (hc : c ∈ P.live) : Wf L (P.give c) := by
  have hfree : ∀ {j q}, q ∈ (P.give c).free j → q ∈ P.free j ∨ (q, j) = c := by
    intro j q hq
    by_cases hj : j = c.2
    · subst hj
      rw [give_free, if_pos rfl, List.mem_append, List.mem_singleton] at hq
      exact hq.imp id fun hqc => by rw [hqc]
    · rw [give_free, if_neg hj] at hq
      exact .inl hq
  refine ⟨h.apart, h.pages, ?_, h.live.erase c, ?_, fun hd => h.liveChunk (List.mem_of_mem_erase hd), ?_⟩
  · intro j
    by_cases hj : j = c.2
    · subst hj
      rw [give_free, if_pos rfl]
      refine (h.free c.2).append (List.nodup_singleton c.1) fun q hq hqc => ?_
      exact h.notFree hc (List.mem_singleton.mp hqc ▸ hq)
    · rw [give_free, if_neg hj]
      exact h.free j
  · intro j q hq
    rcases hfree hq with hq | rfl
    · exact h.freeChunk hq
    · exact h.liveChunk hc
  · intro d hd hq
    obtain ⟨hne, hd⟩ := h.live.mem_erase_iff.mp hd
    rcases hfree hq with hq | hdc
    · exact h.notFree hd hq
    · exact hne hdc

theorem lose (c : Nat × ι) : Wf L (P.lose c) :=
  ⟨h.apart, h.pages, h.free, h.live.erase c, h.freeChunk, fun hd => h.liveChunk (List.mem_of_mem_erase hd),
    fun hd => h.notFree (List.mem_of_mem_erase hd)⟩

end Wf

end Pool

end ChunkPool
