import SegregatedFit.Proofs.Session

/-!
# Layouts are canonical

No two free blocks are neighbours, so where the first block is, where the arena ends and which blocks
are allocated decides about all blocks (`Tiles.unique`) and about all headers. The order in which
pointers are given back makes no difference, and when all have been given back one free block is left
(`Session.Reachable.canonical`).
-/

namespace SegregatedFit

/-! ### Blocks between the allocated ones -/

namespace Tiles

variable {lo hi : Nat} {b c x : Block} {bs cs : List Block}

theorem offset_le_of_mem_tail (h : Tiles lo (b :: bs) hi) (hx : x ∈ bs) :
    lo + b.size ≤ x.offset :=
  ((cons_iff.1 h).2.2.2.bounds hx).1

theorem not_mem_tail (h : Tiles lo (b :: bs) hi) : b ∉ bs := by
  intro hb
  obtain ⟨ho, h32, -⟩ := cons_iff.1 h
  have := h.offset_le_of_mem_tail hb
  omega

/-- A free block ends where the next allocated one starts, or the arena ends. -/
theorem size_le_of_free (hb : Tiles lo (b :: bs) hi) (hc : Tiles lo (c :: cs) hi)
    (hco : Coalesced (b :: bs)) (hf : b.allocated = false) (hf' : c.allocated = false)
    (h : Block.live bs ⊆ Block.live (c :: cs)) : c.size ≤ b.size := by
  obtain ⟨-, -, -, hbs⟩ := cons_iff.1 hb
  obtain ⟨-, -, -, hcs⟩ := cons_iff.1 hc
  rcases bs with _ | ⟨d, ds⟩
  · have hend : lo + b.size = hi := hbs
    have := hcs.le
    omega
  · have hd : d.allocated = true := by
      simpa [hf] using (Coalesced.cons_iff.1 hco).1 d rfl
    have hmem := h (Block.mem_live.2 ⟨List.mem_cons_self, hd⟩)
    rw [Block.live_cons_of_free hf'] at hmem
    have := hc.offset_le_of_mem_tail (Block.mem_live.1 hmem).1
    have := (cons_iff.1 hbs).1
    omega

/-- Both lists start with the same block. -/
theorem head_eq (hb : Tiles lo (b :: bs) hi) (hc : Tiles lo (c :: cs) hi)
    (hco : Coalesced (b :: bs)) (hco' : Coalesced (c :: cs))
    (h : ∀ x, x ∈ Block.live (b :: bs) ↔ x ∈ Block.live (c :: cs)) : b = c := by
  have ho : b.offset = c.offset := (cons_iff.1 hb).1.trans (cons_iff.1 hc).1.symm
  by_cases ha : b.allocated = true
  · have hmem := (h b).1 (Block.mem_live.2 ⟨List.mem_cons_self, ha⟩)
    exact hc.eq_of_offset_eq (Block.mem_live.1 hmem).1 List.mem_cons_self ho
  by_cases ha' : c.allocated = true
  · have hmem := (h c).2 (Block.mem_live.2 ⟨List.mem_cons_self, ha'⟩)
    exact hb.eq_of_offset_eq List.mem_cons_self (Block.mem_live.1 hmem).1 ho
  -- two free blocks: each ends where the allocated blocks of the other list allow it to
  have hf : b.allocated = false := by simpa using ha
  have hf' : c.allocated = false := by simpa using ha'
  have hle := hb.size_le_of_free hc hco hf hf' fun x hx =>
    (h x).1 (by rwa [Block.live_cons_of_free hf])
  have hge := hc.size_le_of_free hb hco' hf' hf fun x hx =>
    (h x).2 (by rwa [Block.live_cons_of_free hf'])
  obtain ⟨_, _, _⟩ := b
  obtain ⟨_, _, _⟩ := c
  simp only at *
  rw [ho, Nat.le_antisymm hge hle, hf, hf']

/-- The allocated blocks decide about the others. -/
theorem unique (hb : Tiles lo bs hi) (hc : Tiles lo cs hi) (hco : Coalesced bs)
    (hco' : Coalesced cs) (h : ∀ x, x ∈ Block.live bs ↔ x ∈ Block.live cs) : bs = cs := by
  induction bs generalizing lo cs with
  | nil =>
    rcases cs with _ | ⟨c, cs⟩
    · rfl
    · have hend : lo = hi := hb
      have := hc.bounds (b := c) List.mem_cons_self
      omega
  | cons b bs ih =>
    rcases cs with _ | ⟨c, cs⟩
    · have hend : lo = hi := hc
      have := hb.bounds (b := b) List.mem_cons_self
      omega
    obtain rfl := hb.head_eq hc hco hco' h
    have htail : ∀ x, x ∈ Block.live bs ↔ x ∈ Block.live cs := by
      intro x
      have hx := h x
      simp only [Block.mem_live, List.mem_cons] at hx ⊢
      have h1 := hb.not_mem_tail
      have h2 := hc.not_mem_tail
      constructor
      · rintro ⟨hm, ha⟩
        rcases (hx.1 ⟨.inr hm, ha⟩).1 with rfl | hm'
        · exact absurd hm h1
        · exact ⟨hm', ha⟩
      · rintro ⟨hm, ha⟩
        rcases (hx.2 ⟨.inr hm, ha⟩).1 with rfl | hm'
        · exact absurd hm h2
        · exact ⟨hm', ha⟩
    rw [ih (cons_iff.1 hb).2.2.2 (cons_iff.1 hc).2.2.2 (Coalesced.cons_iff.1 hco).2
      (Coalesced.cons_iff.1 hco').2 htail]

end Tiles

/-! ### Heaps with the same layout -/

/-- The heap has an allocated block of `n` bytes at `x`. -/
def Heap.Allocated (h : Heap) (x n : Nat) : Prop :=
  ∃ bs, h.blocks = .ok bs ∧ ⟨x, n, true⟩ ∈ bs

namespace Session

variable {s t : Session} {o o' : Outline} {b : Block} {ps : List Nat}

namespace Outlined

theorem allocated_iff (h : s.Outlined o) {x n : Nat} :
    s.heap.Allocated x n ↔ ⟨x, n, true⟩ ∈ o.map.live := by
  rw [Heap.Allocated, h.blocks_eq, MemoryMap.live, Block.mem_live]
  simp

theorem blocks_unique (hs : s.Outlined o) (ht : t.Outlined o')
    (hfirst : o'.map.first = o.map.first) (hstop : o'.map.stop = o.map.stop)
    (hlive : ∀ b, b ∈ o'.map.live ↔ b ∈ o.map.live) : o'.map.blocks = o.map.blocks := by
  have hv := hs.outlines.valid.map
  have hv' := ht.outlines.valid.map
  have htiles := hv'.tiles
  rw [hfirst, hstop] at htiles
  exact htiles.unique hv.tiles hv'.coalesced hv.coalesced hlive

theorem sameLayout (hs : s.Outlined o) (ht : t.Outlined o')
    (hfirst : o'.map.first = o.map.first) (hstop : o'.map.stop = o.map.stop)
    (hlive : ∀ b, b ∈ o'.map.live ↔ b ∈ o.map.live) : s.heap.SameLayout t.heap :=
  hs.sameLayout_of_blocks_eq ht (hs.blocks_unique ht hfirst hstop hlive) hstop

/-! ### Giving back pointers -/

theorem nodup_pointers (h : s.Outlined o) : s.pointers.Nodup := by
  have hv := h.outlines.valid.map
  refine h.pointers.perm.nodup_iff.2 (List.pairwise_map.2 ?_)
  refine hv.live_apart.imp_of_mem ?_
  intro b c hb hc hbc he
  have := (hv.tiles.bounds (Block.mem_live.1 hb).1).2.2.1
  have := (hv.tiles.bounds (Block.mem_live.1 hc).1).2.2.1
  omega

end Outlined

/-- The pointers are given back one after another. -/
def frees (ps : List Nat) : List Call := ps.map fun p => .free (some p)

/-- First block, size and allocated blocks decide about the layout, and so does which pointers are
given back, whatever their order. -/
structure Canonical (s : Session) : Prop where
  determined : ∀ t : Session, t.Reachable → t.heap.firstBlock = s.heap.firstBlock →
    t.heap.size = s.heap.size → (∀ x n, t.heap.Allocated x n ↔ s.heap.Allocated x n) →
      s.heap.SameLayout t.heap
  confluent : ∀ ps qs, ps.Nodup → ps ⊆ s.pointers → qs.Perm ps →
    ∃ t u, s.nexts (frees ps) = some t ∧ s.nexts (frees qs) = some u ∧
      t.heap.SameLayout u.heap ∧ Concur t.heap.freeBytes u.heap.freeBytes ∧
      u.heap.stats.liveBytes = t.heap.stats.liveBytes
  drained : ∀ ps, ps.Perm s.pointers → ∃ t, s.nexts (frees ps) = some t ∧
    t.heap.size = s.heap.size ∧ t.heap.firstBlock = s.heap.firstBlock ∧
    t.heap.blocks = .ok [⟨t.heap.firstBlock, t.heap.size - t.heap.firstBlock, false⟩] ∧
    t.heap.stats.liveBytes = 0

namespace Outlined

/-- Giving back a pointer always succeeds. -/
theorem next_free (h : s.Outlined o) (hb : b ∈ o.map.live) :
    ∃ t, s.next (.free (some (o.base + b.offset))) = some t ∧ t.Outlined (o.release b.offset) := by
  have hheld : ∀ p ∈ (Call.free (some (o.base + b.offset))).handed, p ∈ s.pointers := by
    rintro _ ⟨⟩
    exact h.mem_pointers hb
  obtain ⟨hb', ha⟩ := Block.mem_live.1 hb
  have hfree : HeapM.Follows False _ _ _ _ :=
    (HeapM.free_follows h.outlines hb' ha).map fun _ => (none : Option Nat)
  rcases hfree with ⟨hf, -⟩ | ⟨k, events, hrun, -, -⟩
  · cases hf
  replace hrun : (Call.free (some (o.base + b.offset))).perform.run s.heap =
      .ok ⟨.ok none, k, events⟩ := hrun
  have hout : (Call.outline o (.free (some (o.base + b.offset)))).2 = o.release b.offset := by
    rw [Call.outline, Outline.free, Nat.add_sub_cancel_left]
  have ho := (h.call hheld hrun).2.2
  rw [hout] at ho
  exact ⟨_, by rw [next, if_pos hheld, hrun], ho⟩

/-- Whatever the order in which pointers are given back, exactly their blocks become free. -/
theorem nexts_frees (h : s.Outlined o) (hn : ps.Nodup) (hp : ps ⊆ s.pointers) :
    ∃ t o', s.nexts (frees ps) = some t ∧ t.Outlined o' ∧ o'.map.first = o.map.first ∧
      o'.map.stop = o.map.stop ∧
      ∀ b, b ∈ o'.map.live ↔ b ∈ o.map.live ∧ o.base + b.offset ∉ ps := by
  induction ps generalizing s o with
  | nil => exact ⟨s, o, rfl, h, rfl, rfl, by simp⟩
  | cons p ps ih =>
    obtain ⟨hnot, hn'⟩ := List.nodup_cons.1 hn
    obtain ⟨b, hb, rfl⟩ := h.exists_block (hp List.mem_cons_self)
    obtain ⟨hb', ha⟩ := Block.mem_live.1 hb
    have hv := h.outlines.valid.map
    have hlive := hv.live_release hb' ha
    have hne := hv.offset_ne_of_perm hlive
    have hmem : ∀ c, c ∈ (o.map.release b.offset).live ↔ c ∈ o.map.live ∧ c.offset ≠ b.offset := by
      intro c
      rw [hlive.mem_iff, List.mem_cons]
      constructor
      · intro hc; exact ⟨.inr hc, hne c hc⟩
      · rintro ⟨rfl | hc, hcb⟩
        · exact absurd rfl hcb
        · exact hc
    obtain ⟨t, hnext, ht⟩ := h.next_free hb
    have hsub : ps ⊆ t.pointers := by
      intro q hq
      obtain ⟨c, hc, rfl⟩ := h.exists_block (hp (List.mem_cons_of_mem _ hq))
      refine ht.mem_pointers ((hmem c).2 ⟨hc, ?_⟩)
      intro hcb
      rw [hcb] at hq
      exact hnot hq
    obtain ⟨u, o', hnexts, hu, hfirst, hstop, hiff⟩ := ih ht hn' hsub
    refine ⟨u, o', ?_, hu, hfirst.trans (hv.first_release hb'), hstop.trans (hv.stop_release hb'), ?_⟩
    · rw [frees, List.map_cons, nexts, hnext]; exact hnexts
    · intro c
      rw [hiff, List.mem_cons, not_or]
      show c ∈ (o.map.release b.offset).live ∧ _ ↔ _
      rw [hmem]
      constructor
      · rintro ⟨⟨hc, hcb⟩, hc'⟩
        exact ⟨hc, fun he => hcb (Nat.add_left_cancel he), hc'⟩
      · rintro ⟨hc, hcb, hc'⟩
        exact ⟨⟨hc, fun he => hcb (by rw [he])⟩, hc'⟩

theorem liveBytes_eq (h : s.Outlined o) :
    s.heap.stats.liveBytes = Block.totalSize (Block.live o.map.blocks) := by
  rw [h.outlines.stats, h.outlines.valid.live]; rfl

/-- If no block is allocated, there is one free block. -/
theorem blocks_of_live_eq_nil (h : s.Outlined o) (hl : o.map.live = []) :
    o.map.blocks = [⟨s.heap.firstBlock, s.heap.size - s.heap.firstBlock, false⟩] := by
  have hroom := h.room
  have hfirst : s.heap.firstBlock = o.map.first := h.outlines.first
  have hsize : s.heap.size = o.map.stop := h.outlines.describes.size
  have htiles := h.outlines.valid.map.tiles
  have hco := h.outlines.valid.map.coalesced
  have hfree : ∀ b ∈ o.map.blocks, b.allocated = false := by
    intro b hb
    by_contra ha
    have : b ∈ o.map.live := Block.mem_live.2 ⟨hb, by simpa using ha⟩
    rw [hl] at this
    cases this
  rw [hfirst, hsize]
  generalize o.map.blocks = bs at *
  generalize o.map.stop = hi at *
  rcases bs with _ | ⟨b, _ | ⟨c, cs⟩⟩
  · have hend : o.map.first = hi := htiles
    omega
  · obtain ⟨ho, -, -, hend⟩ := Tiles.cons_iff.1 htiles
    have hend : o.map.first + b.size = hi := hend
    have hf := hfree b List.mem_cons_self
    obtain ⟨_, _, _⟩ := b
    simp only at *
    rw [ho, hf, ← hend, Nat.add_sub_cancel_left]
  · have hb := hfree b (by simp)
    have hc := hfree c (by simp)
    simpa [hb, hc] using (Coalesced.cons_iff.1 hco).1 c rfl

end Outlined

/-- The layout of the heap does not depend on how it came about. -/
theorem Reachable.canonical (hs : s.Reachable) : s.Canonical := by
  obtain ⟨o, h⟩ := hs.outlined
  refine ⟨?_, ?_, ?_⟩
  · intro t ht hfirst hsize hallocated
    obtain ⟨o', h'⟩ := ht.outlined
    refine h.sameLayout h' ?_ ?_ ?_
    · rw [← h'.outlines.first, hfirst, h.outlines.first]
    · rw [← h'.outlines.describes.size, ← h.outlines.describes.size]; exact hsize
    · rintro ⟨x, n, _ | _⟩
      · simp [MemoryMap.live, Block.mem_live]
      · rw [← h'.allocated_iff, ← h.allocated_iff]; exact hallocated x n
  · intro ps qs hn hp hperm
    obtain ⟨t, o₁, ht, h₁, hf₁, hs₁, hl₁⟩ := h.nexts_frees hn hp
    obtain ⟨u, o₂, hu, h₂, hf₂, hs₂, hl₂⟩ :=
      h.nexts_frees (hperm.nodup_iff.2 hn) fun q hq => hp (hperm.mem_iff.1 hq)
    have hfirst := hf₂.trans hf₁.symm
    have hstop := hs₂.trans hs₁.symm
    have hlive : ∀ b, b ∈ o₂.map.live ↔ b ∈ o₁.map.live := fun b => by
      rw [hl₁, hl₂, hperm.mem_iff]
    have hblocks := h₁.blocks_unique h₂ hfirst hstop hlive
    refine ⟨t, u, ht, hu, h₁.sameLayout h₂ hfirst hstop hlive, ?_, ?_⟩
    · rw [Heap.freeBytes, Heap.freeBytes, h₁.blocks_eq, h₂.blocks_eq, hblocks]
      exact ⟨_, rfl, rfl⟩
    · rw [h₁.liveBytes_eq, h₂.liveBytes_eq, hblocks]
  · intro ps hperm
    obtain ⟨t, o₁, ht, h₁, hf₁, hs₁, hl₁⟩ :=
      h.nexts_frees (hperm.nodup_iff.2 h.nodup_pointers) hperm.subset
    have hlive : o₁.map.live = [] := by
      refine List.eq_nil_iff_forall_not_mem.2 fun b hb => ?_
      obtain ⟨hb, hnot⟩ := (hl₁ b).1 hb
      exact hnot (hperm.mem_iff.2 (h.mem_pointers hb))
    refine ⟨t, ht, ?_, ?_, ?_, ?_⟩
    · exact h₁.outlines.describes.size.trans (hs₁.trans h.outlines.describes.size.symm)
    · rw [h₁.outlines.first, hf₁, h.outlines.first]
    · rw [h₁.blocks_eq, h₁.blocks_of_live_eq_nil hlive]
    · rw [h₁.liveBytes_eq, show Block.live o₁.map.blocks = [] from hlive]; rfl

/-- Two pointers are given back in either order, and the layout is the same: one free block. -/
theorem canonical_pair : ∃ s t u, pair = some s ∧ s.nexts (frees [1056, 1088]) = some t ∧
    s.nexts (frees [1088, 1056]) = some u ∧ t.heap.SameLayout u.heap ∧
    t.heap.blocks = .ok [⟨t.heap.firstBlock, t.heap.size - t.heap.firstBlock, false⟩] := by
  obtain ⟨s, hs, hr, hp, -⟩ := exists_pair
  have hc := Reachable.canonical hr
  have hswap : [1088, 1056].Perm [1056, 1088] := .swap ..
  obtain ⟨t, u, ht, hu, hlayout, -⟩ :=
    hc.confluent [1056, 1088] [1088, 1056] (by decide) (by simp [hp]) hswap
  obtain ⟨t', ht', -, -, hblocks, -⟩ := hc.drained [1056, 1088] (by rw [hp]; exact hswap.symm)
  obtain rfl : t = t' := Option.some.inj (ht.symm.trans ht')
  exact ⟨s, t, u, hs, ht, hu, hlayout, hblocks⟩

end Session

end SegregatedFit
