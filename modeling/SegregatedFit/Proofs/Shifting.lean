import SegregatedFit.Proofs.MapOps
import SegregatedFit.Proofs.Reading

/-!
# Maps elsewhere in the arena

A map can be shifted: first block, blocks and listed offsets move by the same number of bytes, sizes
stay. No operation on maps compares an offset with anything but another offset, so shifting commutes
with all of them (`MemoryMap.place_shift`, …), and first fit finds the same block
(`MemoryMap.firstFit_shift`).
-/

namespace SegregatedFit

namespace Block

/-- The block `d` bytes further on. -/
def shift (d : Nat) (b : Block) : Block := { b with offset := b.offset + d }

variable {d : Nat}

theorem totalSize_map_shift (bs : List Block) : totalSize (bs.map (shift d)) = totalSize bs := by
  induction bs with
  | nil => rfl
  | cons b bs ih => rw [List.map_cons, totalSize, totalSize, ih]; rfl

theorem flagAfter_map_shift (p : Bool) (bs : List Block) :
    flagAfter p (bs.map (shift d)) = flagAfter p bs := by
  induction bs generalizing p with
  | nil => rfl
  | cons b bs ih => exact ih b.allocated

theorem live_map_shift (bs : List Block) : live (bs.map (shift d)) = (live bs).map (shift d) := by
  rw [live, live, List.filter_map]
  rfl

end Block

namespace Chains

/-- All listed blocks `d` bytes further on. -/
def shift (d : Nat) (l : Chains) : Chains := fun c => (l c).map (· + d)

variable {d : Nat}

theorem drop_shift (l : Chains) (x : Nat) : (l.shift d).drop (x + d) = (l.drop x).shift d :=
  funext fun c => (List.map_erase (add_left_injective d) (l c)).symm

theorem push_shift (l : Chains) (c : SizeClass) (x : Nat) :
    (l.shift d).push c (x + d) = (l.push c x).shift d := by
  funext e
  simp only [push, shift]
  split <;> rfl

end Chains

/-! ### Gaps -/

namespace Gap

/-- The gap and all blocks around it `d` bytes further on. -/
def shift (d : Nat) (g : Gap) : Gap :=
  ⟨g.first + d, g.before.map (Block.shift d), g.offset + d, g.size, g.after.map (Block.shift d),
    g.chains.shift d⟩

end Gap

namespace MemoryMap

/-- All blocks `d` bytes further on. -/
def shift (d : Nat) (m : MemoryMap) : MemoryMap :=
  ⟨m.first + d, m.blocks.map (Block.shift d), m.chains.shift d⟩

end MemoryMap

namespace Gap

variable {d : Nat} (g : Gap) (n : Nat)

theorem joinPrev_shift : (g.shift d).joinPrev = (g.joinPrev).shift d := by
  rcases g.joinPrev_cases with ⟨hx, h⟩ | ⟨xs, b, hb, hf, h⟩ <;> rw [h]
  · refine joinPrev_of_allocated fun x hx' => ?_
    rw [shift, List.getLast?_map] at hx'
    obtain ⟨b, hb, rfl⟩ := Option.mem_map.1 hx'
    exact hx b hb
  · have hbefore : (g.shift d).before = xs.map (Block.shift d) ++ [b.shift d] := by simp [shift, hb]
    rw [joinPrev_of_free hbefore hf]
    simp only [shift, Block.shift, Chains.drop_shift]

theorem joinNext_shift : (g.shift d).joinNext = (g.joinNext).shift d := by
  rcases g.joinNext_cases with ⟨hx, h⟩ | ⟨b, ys, hb, hf, h⟩ <;> rw [h]
  · refine joinNext_of_allocated fun x hx' => ?_
    rw [shift, List.head?_map] at hx'
    obtain ⟨b, hb, rfl⟩ := Option.mem_map.1 hx'
    exact hx b hb
  · have hafter : (g.shift d).after = b.shift d :: ys.map (Block.shift d) := by simp [shift, hb]
    rw [joinNext_of_free hafter hf]
    simp only [shift, Block.shift, Chains.drop_shift]

theorem fillFree_shift : (g.shift d).fillFree = g.fillFree.shift d := by
  simp [fillFree, shift, MemoryMap.shift, Block.shift, Chains.push_shift]

theorem fillWhole_shift : (g.shift d).fillWhole = g.fillWhole.shift d := by
  simp [fillWhole, shift, MemoryMap.shift, Block.shift]

theorem split_shift : (g.shift d).split n = (g.split n).shift d := by
  simp [split, shift, Block.shift, Nat.add_right_comm]

theorem fillMerged_shift : (g.shift d).fillMerged = g.fillMerged.shift d := by
  rw [fillMerged, joinPrev_shift, joinNext_shift, fillFree_shift, ← fillMerged]

theorem fillAllocated_shift : (g.shift d).fillAllocated n = (g.fillAllocated n).shift d := by
  unfold fillAllocated
  rw [split_shift, fillFree_shift, fillWhole_shift, apply_ite (MemoryMap.shift d)]
  rfl

end Gap

/-! ### Maps -/

namespace MemoryMap

variable {d : Nat} (m : MemoryMap) (n x : Nat)

theorem stop_shift : (m.shift d).stop = m.stop + d := by
  rw [stop, stop, shift, Block.totalSize_map_shift, Nat.add_right_comm]

theorem live_shift : (m.shift d).live = m.live.map (Block.shift d) :=
  Block.live_map_shift m.blocks

theorem allBlocks_shift : (m.shift d).allBlocks = m.allBlocks.map (Block.shift d) := by
  rw [allBlocks, allBlocks, stop_shift, List.map_append]
  rfl

theorem added_shift : (m.shift d).added n = (m.added n).shift d := by
  simp only [added, stop_shift]
  rfl

theorem gapAt_shift : (m.shift d).gapAt (x + d) = (m.gapAt x).shift d := by
  have hp : ∀ bs : List Block,
      ((bs.map (Block.shift d)).dropWhile fun b => b.offset ≠ x + d) =
        (bs.dropWhile fun b => b.offset ≠ x).map (Block.shift d) ∧
      ((bs.map (Block.shift d)).takeWhile fun b => b.offset ≠ x + d) =
        (bs.takeWhile fun b => b.offset ≠ x).map (Block.shift d) := by
    intro bs
    rw [List.dropWhile_map, List.takeWhile_map]
    have hf : (fun b : Block => decide (b.offset ≠ x + d)) ∘ Block.shift d =
        fun b => decide (b.offset ≠ x) := by
      funext b
      simp [Block.shift]
    rw [hf]
    exact ⟨rfl, rfl⟩
  obtain ⟨hd, ht⟩ := hp m.blocks
  rcases hbs : m.blocks.dropWhile fun b => b.offset ≠ x with _ | ⟨b, bs⟩ <;> rw [hbs] at hd
  · have hgap : m.gapAt x = m.added 0 := by rw [gapAt, hbs]
    rw [hgap, ← added_shift, gapAt, shift, hd]
    rfl
  · have hgap : m.gapAt x = ⟨m.first, m.blocks.takeWhile fun b => b.offset ≠ x, x, b.size, bs,
        m.chains.drop x⟩ := by rw [gapAt, hbs]
    rw [hgap, gapAt, shift, hd, ht, Chains.drop_shift]
    rfl

theorem grow_shift : (m.shift d).grow n = (m.grow n).shift d := by
  rw [grow, added_shift, Gap.fillMerged_shift, ← grow]

theorem place_shift : (m.shift d).place (x + d) n = (m.place x n).shift d := by
  rw [place, gapAt_shift, Gap.fillAllocated_shift, ← place]

theorem release_shift : (m.shift d).release (x + d) = (m.release x).shift d := by
  rw [release, gapAt_shift, Gap.fillMerged_shift, ← release]

theorem absorb_shift : (m.shift d).absorb (x + d) n = (m.absorb x n).shift d := by
  rw [absorb, gapAt_shift, Gap.joinNext_shift, Gap.fillAllocated_shift, ← absorb]

theorem trim_shift : (m.shift d).trim (x + d) n = (m.trim x n).shift d := by
  unfold trim
  rw [gapAt_shift, Gap.split_shift, Gap.fillMerged_shift, apply_ite (shift d)]
  rfl

theorem firstFit_shift : (m.shift d).firstFit n = (m.firstFit n).map (· + d) := by
  unfold firstFit
  rw [List.map_findSome?]
  congr 1
  funext c
  show ((m.chains c).map (· + d)).find? _ = ((m.chains c).find? _).map _
  rw [List.find?_map]
  congr 2
  funext y
  show decide (n ≤ ((m.shift d).gapAt (y + d)).size) = decide (n ≤ (m.gapAt y).size)
  rw [gapAt_shift]
  rfl

end MemoryMap

end SegregatedFit
