import SegregatedFit.Proofs.Session

/-!
# Who owns which bytes

The pointers of a session and the allocated blocks of its heap correspond to each other one to one,
and the payloads behind them are apart from each other and from all bytes of the allocator
(`Session.Reachable.owns`).
-/

namespace SegregatedFit

/-- Byte `k` is the allocator's: in header or footer of the prologue block, in a header, in a link or
the footer of a free block, or in the last word of the arena. -/
def Heap.Metadata (h : Heap) (bs : List Block) (k : Nat) : Prop :=
  h.start - wordSize ≤ k ∧ k < h.start + wordSize ∨
  (∃ b ∈ bs, b.offset - wordSize ≤ k ∧ k < b.offset) ∨
  (∃ b ∈ bs, b.allocated = false ∧
    (b.offset ≤ k ∧ k < b.offset + 2 * wordSize ∨
      b.offset + b.size - 2 * wordSize ≤ k ∧ k < b.offset + b.size - wordSize)) ∨
  h.size - wordSize ≤ k ∧ k < h.size

namespace Session

/-- The pointers lead to the allocated ones of the blocks `bs`, and each owns the bytes of its
payload, of which there are `usable`. -/
structure Owns (s : Session) (bs : List Block) (usable : Nat → Nat) : Prop where
  blocks : s.heap.blocks = .ok bs
  usableSize : ∀ p ∈ s.pointers, (s.heap.usableSize (some p)).run = .ok (.ok (usable p))
  offsetOf : ∀ p ∈ s.pointers, (s.heap.offsetOf p).run = .ok (.ok (p - s.heap.arena.base))
  bijective : Set.BijOn (fun p => p - s.heap.arena.base) {p | p ∈ s.pointers}
    {x | ∃ b ∈ bs, b.allocated = true ∧ b.offset = x}
  aligned : ∀ p ∈ s.pointers, alignment ∣ p - s.heap.arena.base
  room : ∀ e ∈ s.held, e.2 ≤ usable e.1
  inside : ∀ p ∈ s.pointers, s.heap.address s.heap.firstBlock ≤ p ∧
    p + usable p ≤ s.heap.address (s.heap.size - wordSize)
  disjoint : s.pointers.Pairwise fun p q => p + usable p ≤ q ∨ q + usable q ≤ p
  metadata : ∀ p ∈ s.pointers, ∀ i < usable p,
    ¬s.heap.Metadata bs (p - s.heap.arena.base + i)

variable {s : Session} {o : Outline} {b : Block}

theorem Outlined.not_metadata (h : s.Outlined o) {k : Nat} (hb : b ∈ o.map.live)
    (hk : b.offset ≤ k ∧ k + 8 < b.offset + b.size) : ¬s.heap.Metadata o.map.blocks k := by
  obtain ⟨hb, ha⟩ := Block.mem_live.1 hb
  have hv := h.outlines.valid.map
  have hbb := hv.tiles.bounds hb
  have hkept : o.map.Kept k := .inr ⟨b, hb, ha, hk⟩
  have htag : ¬Arena.TagByte o.map.allBlocks k := fun ht => hv.not_kept_of_tagByte ht hkept
  have hlink : ¬o.map.chains.LinkByte k := fun hl => hv.not_kept_of_linkByte hl hkept
  have hfirst : s.heap.start + 16 = o.map.first := h.outlines.first
  have hsize : s.heap.size = o.map.stop := h.outlines.describes.size
  rintro (hk' | ⟨c, hc, hk'⟩ | ⟨c, hc, hf, hk' | hk'⟩ | hk') <;> simp only [wordSize] at hk'
  · omega
  · exact htag ⟨c, List.mem_append_left _ hc, .inl (by omega)⟩
  · exact hlink (hv.linkByte_iff.2 ⟨c, hc, hf, hk'⟩)
  · have := (hv.tiles.bounds hc).2.2.1
    exact htag ⟨c, List.mem_append_left _ hc, .inr ⟨hf, by omega⟩⟩
  · rw [hsize] at hk'
    exact htag ⟨.last o.map.stop, List.mem_append_right _ (List.mem_singleton_self _),
      .inl (by simp only [Block.last]; omega)⟩

theorem Outlined.owns_blocks (h : s.Outlined o) :
    s.Owns o.map.blocks fun p => (o.map.gapAt (p - o.base)).size - 8 := by
  have hv := h.outlines.valid.map
  have hbase : s.heap.arena.base = o.base := h.outlines.base
  have hsize : s.heap.size = o.map.stop := h.outlines.describes.size
  have hfirst : s.heap.firstBlock = o.map.first := h.outlines.first
  have hz : ∀ b ∈ o.map.live, (o.map.gapAt (o.base + b.offset - o.base)).size = b.size :=
    fun b hb => by rw [Nat.add_sub_cancel_left, hv.gapAt_size (Block.mem_live.1 hb).1]
  -- every pointer is the address of an allocated block
  have hp : ∀ {P : Nat → Prop}, (∀ b ∈ o.map.live, P (o.base + b.offset)) →
      ∀ p ∈ s.pointers, P p := fun hP p hp => by
    obtain ⟨b, hb, rfl⟩ := h.exists_block hp
    exact hP b hb
  refine ⟨h.blocks_eq, hp ?_, hp ?_, ⟨hp ?_, ?_, ?_⟩,
    hp ?_, ?_, hp ?_, ?_, hp ?_⟩
  · intro b hb
    rw [hz b hb]; exact h.usableSize_eq hb
  · intro b hb
    rw [HeapM.offsetOf_eq h.outlines (Block.mem_live.1 hb).1, hbase, Nat.add_sub_cancel_left]; rfl
  · intro b hb
    obtain ⟨hb, ha⟩ := Block.mem_live.1 hb
    exact ⟨b, hb, ha, by rw [hbase]; exact (Nat.add_sub_cancel_left ..).symm⟩
  · intro p hp q hq hpq
    obtain ⟨b, hb, rfl⟩ := h.exists_block hp
    obtain ⟨c, hc, rfl⟩ := h.exists_block hq
    simp only [hbase, Nat.add_sub_cancel_left] at hpq
    rw [hpq]
  · rintro _ ⟨b, hb, ha, rfl⟩
    exact ⟨o.base + b.offset, h.mem_pointers (Block.mem_live.2 ⟨hb, ha⟩),
      by rw [hbase]; exact Nat.add_sub_cancel_left ..⟩
  · intro b hb
    rw [hbase, Nat.add_sub_cancel_left]
    exact hv.tiles.aligned hv.first_aligned (Block.mem_live.1 hb).1
  · intro e he
    obtain ⟨b, hb, hb'⟩ := h.exists_block (List.mem_map_of_mem he)
    have := h.pointers.room e he b hb hb'
    rw [hb', hz b hb]
    omega
  · intro b hb
    have hbb := hv.tiles.bounds (Block.mem_live.1 hb).1
    rw [hz b hb, Heap.address, Heap.address, hbase, hsize, hfirst, wordSize]
    omega
  · refine (h.pointers.perm.pairwise_iff fun h => h.symm).2 (List.pairwise_map.2 ?_)
    refine hv.live_apart.imp_of_mem fun hb hc hbc => ?_
    rw [hz _ hb, hz _ hc]
    have := (hv.tiles.bounds (Block.mem_live.1 hb).1).2.2.1
    have := (hv.tiles.bounds (Block.mem_live.1 hc).1).2.2.1
    omega
  · intro b hb i hi
    rw [hz b hb] at hi
    rw [hbase, Nat.add_sub_cancel_left]
    exact h.not_metadata hb ⟨Nat.le_add_right .., by omega⟩

/-- Every pointer has a payload of its own. -/
theorem Reachable.owns (hs : s.Reachable) : ∃ bs usable, s.Owns bs usable := by
  obtain ⟨o, ho⟩ := hs.outlined
  exact ⟨_, _, ho.owns_blocks⟩

/-- The first of two payloads ends before the second one starts. -/
theorem owns_pair : ∃ s bs usable, pair = some s ∧ s.pointers = [1088, 1056] ∧ s.Owns bs usable ∧
    bs = [⟨32, 32, true⟩, ⟨64, 48, true⟩, ⟨112, 48, false⟩] ∧
    usable 1056 = 24 ∧ usable 1088 = 40 ∧ 1056 + usable 1056 ≤ 1088 := by
  obtain ⟨s, hs, hr, hp, hblocks, hu, hu'⟩ := exists_pair
  obtain ⟨bs, usable, howns⟩ := Reachable.owns hr
  have hbs := hblocks.symm.trans howns.blocks
  have h1056 := hu.symm.trans (howns.usableSize 1056 (by simp [hp]))
  have h1088 := hu'.symm.trans (howns.usableSize 1088 (by simp [hp]))
  simp only [Except.ok.injEq] at hbs h1056 h1088
  have hapart := howns.disjoint
  rw [hp, List.pairwise_pair] at hapart
  refine ⟨s, bs, usable, hs, hp, howns, hbs.symm, h1056.symm, h1088.symm, ?_⟩
  exact hapart.resolve_left (by omega)

end Session

end SegregatedFit
