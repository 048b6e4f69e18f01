import SegregatedFit.Proofs.RoundTrip

/-!
# Freeing merges neighbours

A block that is freed becomes one block with the free blocks next to it, and nothing else does. A
`Vicinity` is an allocated block with those neighbours and with all blocks further off. `Heap.Merges`
says what the blocks, headers and chains are when the block has been freed; every pointer in use can
be, and that is what comes of it (`Session.Reachable.merges`).
-/

namespace SegregatedFit

/-! ### A block and its neighbours -/

/-- An allocated block, the free blocks right before and after it, and the blocks further off. -/
structure Vicinity where
  before : List Block
  prev : Option Block
  block : Block
  next : Option Block
  after : List Block

namespace Vicinity

/-- The block with its free neighbours. -/
def run (v : Vicinity) : List Block := v.prev.toList ++ v.block :: v.next.toList

def blocks (v : Vicinity) : List Block := v.before ++ (v.run ++ v.after)

/-- The run as one free block. -/
def merged (v : Vicinity) : Block :=
  ⟨(v.prev.getD v.block).offset, Block.totalSize v.run, false⟩

def freed (v : Vicinity) : List Block := v.before ++ v.merged :: v.after

/-- The neighbours leave their classes, and the merged block becomes the first of its own. -/
def relist (v : Vicinity) (l : Chains) : Chains :=
  ((v.prev.toList ++ v.next.toList).foldl (fun l x => l.drop x.offset) l).push
    (sizeClass v.merged.size) v.merged.offset

/-- No free block next to the block is left out. -/
structure Maximal (v : Vicinity) : Prop where
  block : v.block.allocated = true
  prev : ∀ x ∈ v.prev, x.allocated = false
  next : ∀ y ∈ v.next, y.allocated = false
  before : ∀ x ∈ v.before.getLast?, x.allocated = true
  after : ∀ y ∈ v.after.head?, y.allocated = true

end Vicinity

namespace Gap

variable (g : Gap)

theorem joinPrev_eq : ∃ (before : List Block) (prev : Option Block),
    g.before = before ++ prev.toList ∧ (∀ x ∈ prev, x.allocated = false) ∧
    g.joinPrev = ⟨g.first, before, (prev.map Block.offset).getD g.offset,
      Block.totalSize prev.toList + g.size, g.after,
      prev.toList.foldl (fun l x => l.drop x.offset) g.chains⟩ := by
  rcases g.joinPrev_cases with ⟨-, h⟩ | ⟨xs, b, hb, hf, h⟩
  · exact ⟨g.before, none, by simp, nofun, by rw [h]; simp [Block.totalSize]⟩
  · refine ⟨xs, some b, hb, by rintro _ ⟨⟩; exact hf, ?_⟩
    rw [h, Nat.add_comm]
    rfl

theorem joinNext_eq : ∃ (next : Option Block) (after : List Block),
    g.after = next.toList ++ after ∧ (∀ y ∈ next, y.allocated = false) ∧
    g.joinNext = ⟨g.first, g.before, g.offset, g.size + Block.totalSize next.toList, after,
      next.toList.foldl (fun l x => l.drop x.offset) g.chains⟩ := by
  rcases g.joinNext_cases with ⟨-, h⟩ | ⟨b, ys, hb, hf, h⟩
  · exact ⟨none, g.after, rfl, nofun, h⟩
  · exact ⟨some b, ys, hb, by rintro _ ⟨⟩; exact hf, h⟩

end Gap

namespace MemoryMap

variable {m : MemoryMap} {b : Block}

theorem Valid.mem_chains_iff (hv : m.Valid) (hb : b ∈ m.blocks) (hf : b.allocated = false)
    (c : SizeClass) : b.offset ∈ m.chains c ↔ c = sizeClass b.size := by
  constructor
  · intro hc
    obtain ⟨d, hd, -, hdb, rfl⟩ := (hv.lists.mem c _).1 hc
    rw [hv.tiles.eq_of_offset_eq hd hb hdb]
  · rintro rfl
    exact hv.mem_chains hb hf

/-- Every allocated block is released together with its free neighbours. -/
theorem Valid.release_eq (hv : m.Valid) (hb : b ∈ m.blocks) (ha : b.allocated = true) :
    ∃ v : Vicinity, v.block = b ∧ v.Maximal ∧ m.blocks = v.blocks ∧
      m.release b.offset = ⟨m.first, v.freed, v.relist m.chains⟩ := by
  have hbefore := (hv.gapAt hb).joinPrev_before
  have hafter := (hv.gapAt hb).joinPrev.joinNext_after
  obtain ⟨xs, ys, hblocks, hg⟩ := hv.gapAt_split hb
  rw [Chains.drop_eq_self (hv.not_mem_chains hb ha)] at hg
  obtain ⟨before, prev, hxs, hprev, hj⟩ := (m.gapAt b.offset).joinPrev_eq
  obtain ⟨next, after, hys, hnext, hj'⟩ := (m.gapAt b.offset).joinPrev.joinNext_eq
  rw [hj] at hbefore
  rw [hj'] at hafter
  rw [hj, hg] at hj' hys
  rw [hg] at hxs
  refine ⟨⟨before, prev, b, next, after⟩, rfl, ⟨ha, hprev, hnext, hbefore, hafter⟩, ?_, ?_⟩
  · obtain rfl : xs = before ++ prev.toList := hxs
    obtain rfl : ys = next.toList ++ after := hys
    simp [hblocks, Vicinity.blocks, Vicinity.run]
  · have hoffset : (prev.map Block.offset).getD b.offset = (prev.getD b).offset := by
      cases prev <;> rfl
    have hsize : Block.totalSize prev.toList + b.size + Block.totalSize next.toList =
        Block.totalSize (prev.toList ++ b :: next.toList) := by
      rw [Block.totalSize_append, Block.totalSize, Nat.add_assoc]
    rw [MemoryMap.release, Gap.fillMerged, hj, hg, hj', Gap.fillFree]
    simp only [hoffset, hsize, ← List.foldl_append]
    rfl

end MemoryMap

/-! ### Heaps -/

/-- In `h'` the block of the vicinity is free and one with its neighbours. All other blocks are as
they were, but that the one behind the run, or the end of the arena, is told. -/
structure Heap.Merges (h : Heap) (v : Vicinity) (h' : Heap) : Prop where
  maximal : v.Maximal
  blocks : h.blocks = .ok v.blocks
  blocks_freed : h'.blocks = .ok v.freed
  size : h'.size = h.size
  merged : h'.arena.header v.merged.offset = .ok ⟨v.merged.size, false, true⟩
  before : ∀ b ∈ v.before, Concur (h.arena.header b.offset) (h'.arena.header b.offset)
  after : ∃ b bs tag, v.after ++ [.last h.size] = b :: bs ∧
    h.arena.header b.offset = .ok tag ∧
    h'.arena.header b.offset = .ok { tag with prevAllocated := false } ∧
    ∀ c ∈ bs, Concur (h.arena.header c.offset) (h'.arena.header c.offset)
  chains : ∃ l, h.Lists l ∧ h'.Lists (v.relist l) ∧
    ∀ x ∈ v.prev.toList ++ v.next.toList, ∀ c, x.offset ∈ l c ↔ c = sizeClass x.size

namespace Session

variable {s t : Session} {o o' : Outline} {b : Block} {p : Nat}

namespace Outlined

theorem header_eq {xs ys : List Block} (h : s.Outlined o) (hall : o.map.allBlocks = xs ++ b :: ys) :
    s.heap.arena.header b.offset = .ok ⟨b.size, b.allocated, flagAfter true xs⟩ :=
  h.outlines.describes.header_eq h.outlines.valid.map hall

/-- A block keeps its header as long as the one before it is allocated or not as before. -/
theorem concur_header {xs xs' ys ys' : List Block} (h : s.Outlined o) (ht : t.Outlined o')
    (hall : o.map.allBlocks = xs ++ b :: ys) (hall' : o'.map.allBlocks = xs' ++ b :: ys')
    (hflag : flagAfter true xs' = flagAfter true xs) :
    Concur (s.heap.arena.header b.offset) (t.heap.arena.header b.offset) :=
  ⟨_, h.header_eq hall, by rw [ht.header_eq hall', hflag]⟩

/-- Releasing a block on the map is merging it on the heap. -/
theorem merges_release (h : s.Outlined o) (ht : t.Outlined o') (hb : b ∈ o.map.live)
    (hmap : o'.map = o.map.release b.offset) :
    ∃ v : Vicinity, v.block = b ∧ s.heap.Merges v t.heap := by
  have hv := h.outlines.valid.map
  obtain ⟨hb, ha⟩ := Block.mem_live.1 hb
  have hstop := hv.stop_release hb
  obtain ⟨v, hvb, hmax, hblocks, hrelease⟩ := hv.release_eq hb ha
  rw [← hmap] at hstop hrelease
  have hall : o.map.allBlocks = v.before ++ (v.run ++ (v.after ++ [.last o.map.stop])) := by
    simp [MemoryMap.allBlocks, hblocks, Vicinity.blocks]
  have hall' : o'.map.allBlocks = v.before ++ v.merged :: (v.after ++ [.last o.map.stop]) := by
    rw [MemoryMap.allBlocks, hstop, hrelease, Vicinity.freed]
    simp
  refine ⟨v, hvb, hmax, hblocks ▸ h.blocks_eq, by rw [ht.blocks_eq, hrelease], ?_, ?_, ?_, ?_,
    _, h.lists, by simpa only [hrelease] using ht.lists, ?_⟩
  · rw [ht.size_eq, hstop, h.size_eq]
  · rw [ht.header_eq hall', flagAfter_true hmax.before]
    rfl
  · intro c hc
    obtain ⟨xs, ys, hxs⟩ := List.append_of_mem hc
    rw [hxs, List.append_assoc] at hall hall'
    exact h.concur_header ht hall hall' rfl
  · obtain ⟨c, cs, hcs⟩ := List.exists_cons_of_ne_nil
      (show v.after ++ [.last o.map.stop] ≠ [] by simp)
    rw [hcs, ← List.append_assoc] at hall
    rw [hcs, List.append_cons] at hall'
    rw [h.size_eq]
    refine ⟨c, cs, _, hcs, h.header_eq hall, ?_, ?_⟩
    · rw [ht.header_eq hall', flagAfter_concat]
      rfl
    · intro d hd
      obtain ⟨xs, ys, hxs⟩ := List.append_of_mem hd
      rw [hxs, ← List.cons_append, ← List.append_assoc] at hall hall'
      refine h.concur_header ht hall hall' ?_
      simp only [flagAfter_append, flagAfter]
  · intro x hx
    refine hv.mem_chains_iff ?_ ?_
    · rw [hblocks, Vicinity.blocks, Vicinity.run]
      rcases List.mem_append.1 hx with hx | hx <;> simp [hx]
    · rcases List.mem_append.1 hx with hx | hx
      · exact hmax.prev x (by simpa using hx)
      · exact hmax.next x (by simpa using hx)

end Outlined

/-- A block in use can be freed, and merges with its free neighbours and with nothing else. -/
theorem Reachable.merges (hs : s.Reachable) (hp : p ∈ s.pointers) :
    ∃ t v, Step s (.call (.free (some p)) (.ok none)) t ∧
      p = s.heap.address v.block.offset ∧ s.heap.Merges v t.heap ∧
      v.block.size ≤ s.heap.stats.liveBytes ∧
      t.heap.stats = s.heap.stats.freed v.block.size := by
  obtain ⟨o, ho⟩ := hs.outlined
  obtain ⟨b, hb, rfl⟩ := ho.exists_block hp
  obtain ⟨t, hstep, ht⟩ := ho.step_free hb
  obtain ⟨v, rfl, hmerges⟩ := ho.merges_release ht hb rfl
  obtain ⟨hmem, ha⟩ := Block.mem_live.1 hb
  refine ⟨t, v, hstep, ?_, hmerges, HeapM.size_le_liveBytes ho.outlines hmem ha, ?_⟩
  · rw [Heap.address, show s.heap.arena.base = o.base from ho.outlines.base]
  · rw [ht.outlines.stats, ho.outlines.stats, Outline.release,
      ho.outlines.valid.map.gapAt_size hmem]

theorem merges_small : ∃ s t v, small = some s ∧ 4160 ∈ s.pointers ∧
    Step s (.call (.free (some 4160)) (.ok none)) t ∧
    4160 = s.heap.address v.block.offset ∧ s.heap.Merges v t.heap := by
  obtain ⟨s, hs, hheld⟩ := Option.map_eq_some_iff.1 small_held
  have hp : 4160 ∈ s.pointers := by rw [pointers, (Prod.mk.inj hheld).1]; decide
  obtain ⟨t, v, hstep, haddress, hmerges, -⟩ := Reachable.merges (reachable_of_small hs) hp
  exact ⟨s, t, v, hs, hp, hstep, haddress, hmerges⟩

end Session

end SegregatedFit
