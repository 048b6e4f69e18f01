import SegregatedFit.Proofs.Session

/-!
# Well-formed heaps

What has to hold of the words of a heap, said without outlines: `Heap.WellFormed`. It holds of every
heap with an outline (`Session.Outlined.wellFormed_blocks`) and so after every move of every session
(`Session.Reachable.wellFormed`).
-/

namespace SegregatedFit

/-- The words of a heap are as they have to be, and `bs` are its blocks. -/
structure Heap.WellFormed (h : Heap) (bs : List Block) : Prop where
  prologue : h.arena.readWord (h.start - wordSize) = .ok Tag.prologue.pack ∧
    h.arena.readWord h.start = .ok Tag.prologue.pack
  /-- Following header sizes leads through the blocks, from the first one on and without gaps, to
  the header of size zero in the last word of the arena. -/
  walk : h.blocks = .ok bs
  tiles : Tiles h.firstBlock bs h.size
  sizes : ∀ b ∈ bs, minBlockSize ≤ b.size ∧ alignment ∣ b.size
  /-- Every header, that of the end included, knows about the block before it. -/
  headers : ∀ xs b ys, bs ++ [.last h.size] = xs ++ b :: ys →
    h.arena.header b.offset = .ok ⟨b.size, b.allocated, flagAfter true xs⟩
  footers : ∀ b ∈ bs, b.allocated = false → ∃ w, h.arena.readWord (b.offset - wordSize) = .ok w ∧
    h.arena.readWord (b.offset + b.size - 2 * wordSize) = .ok w
  coalesced : Coalesced bs
  /-- Every chain is a list that is linked both ways, ends with `nil` and has exactly the free blocks
  of its class, each once. -/
  chains : ∀ c, ∃ xs : List Nat, xs.Nodup ∧ h.index.head c = xs.headD nil ∧
    h.arena.Linked nil xs nil ∧
    ∀ x, x ∈ xs ↔ ∃ b ∈ bs, b.allocated = false ∧ b.offset = x ∧ sizeClass b.size = c

namespace Session

variable {s : Session} {o : Outline}

theorem Outlined.wellFormed_blocks (h : s.Outlined o) : s.heap.WellFormed o.map.blocks := by
  have hv := h.outlines.valid.map
  have hd := h.outlines.describes
  have hfirst : s.heap.firstBlock = o.map.first := h.outlines.first
  have hstart : o.map.first = s.heap.start + 16 := hfirst.symm
  have hsize : s.heap.arena.size = o.map.stop := hd.size
  have hlt := hd.stop_lt
  have h32 := hv.first_ge
  have hle := hv.tiles.le
  have hread : ∀ i, i + 8 ≤ o.map.stop → s.heap.arena.readWord i = .ok (s.heap.arena.word i) :=
    fun i hi => Arena.readWord_of_le (by omega) (by omega)
  have hall : o.map.blocks ++ [.last s.heap.size] = o.map.allBlocks := by
    rw [MemoryMap.allBlocks, ← hsize]; rfl
  refine ⟨?_, h.blocks_eq, ?_, ?_, ?_, ?_,
    hv.coalesced, ?_⟩
  · have hp := h.prologue
    have h1 := hp.header
    have h2 := hp.footer
    rw [hstart, Nat.add_sub_add_right _ 16 8] at h1
    rw [hstart, Nat.add_sub_cancel] at h2
    rw [wordSize, hread _ (by omega), hread _ (by omega), h1, h2]
    exact ⟨rfl, rfl⟩
  · rw [hfirst, show s.heap.size = o.map.stop from hsize]; exact hv.tiles
  · intro b hb
    exact (hv.tiles.bounds hb).2.2
  · intro xs b ys hb
    exact hd.header_eq hv (hall.symm.trans hb)
  · intro b hb hf
    have hbb := hv.tiles.bounds hb
    obtain ⟨xs, ys, hx⟩ := List.append_of_mem (List.mem_append_left [.last o.map.stop] hb)
    have ht := hd.tagged
    rw [show o.map.allBlocks = xs ++ b :: ys from hx] at ht
    obtain ⟨h1, h2, -⟩ := Arena.tagged_cons.1 (Arena.tagged_append.1 ht).2
    refine ⟨_, hread _ ?_, (hread _ ?_).trans (congrArg _ ((h2 hf).trans h1.symm))⟩ <;>
      simp only [wordSize] <;> omega
  · intro c
    exact ⟨o.map.chains c, hv.lists.nodup c, hd.chained.head c, hd.chained.linked c,
      hv.lists.mem c⟩

/-- A heap stays well-formed whatever is done with it. -/
theorem Reachable.wellFormed (hs : s.Reachable) : ∃ bs, s.heap.WellFormed bs := by
  obtain ⟨o, ho⟩ := hs.outlined
  exact ⟨o.map.blocks, ho.wellFormed_blocks⟩

/-- The allocated block is between two free ones, and its header says so of the one before it. -/
theorem wellFormed_small : ∃ s, small = some s ∧
    s.heap.WellFormed [⟨32, 32, false⟩, ⟨64, 48, true⟩, ⟨112, 48, false⟩] ∧
    s.heap.arena.header 64 = .ok ⟨48, true, false⟩ := by
  have hwalk : small.map (fun s => s.heap.blocks) =
      some (.ok [⟨32, 32, false⟩, ⟨64, 48, true⟩, ⟨112, 48, false⟩]) := by
    decide +kernel
  obtain ⟨s, hs, hblocks⟩ := Option.map_eq_some_iff.1 hwalk
  obtain ⟨bs, hbs⟩ := Reachable.wellFormed (reachable_of_small hs)
  obtain rfl := Except.ok.inj (hblocks.symm.trans hbs.walk)
  exact ⟨s, hs, hbs, hbs.headers [⟨32, 32, false⟩] ⟨64, 48, true⟩ _ rfl⟩

end Session

end SegregatedFit
