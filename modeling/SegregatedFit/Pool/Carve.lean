import SegregatedFit.Pool.Merge

/-!
# Taking memory

An allocated block gets the beginning of a run of free bytes. What is left over becomes a free
block if it is large enough for one and belongs to the allocated block otherwise (`carve`). The run
is a free block (`place`), or an allocated block with the free block after it (`absorb`). A block
that needs less than it has gives up its tail on the same condition (`trim`).
-/

namespace SegregatedFit.Pool

/-- Allocates `need` of the `total` bytes at `bp`, none of which is in a chain. -/
def carve : Pool → (bp total need : Nat) → (prevAllocated : Bool) → Except Fault Pool
  | ⟨a, x⟩, bp, total, need, prevAllocated => do
    let remainder ← Word.sub total need
    if minBlockSize ≤ remainder then
      let a ← a.setHeader bp ⟨need, true, prevAllocated⟩
      let rest ← Word.add bp need
      let a ← a.markFree rest remainder true
      insert ⟨a, x⟩ rest
    else
      let a ← a.setHeader bp ⟨total, true, prevAllocated⟩
      let next ← Word.add bp total
      let a ← a.setPrevAllocated next true
      pure ⟨a, x⟩

/-- Allocates `need` bytes at the start of the free block at `bp`. -/
def place (p : Pool) (bp need : Nat) : Except Fault Pool := do
  let tag ← p.arena.header bp
  let p ← p.remove bp
  p.carve bp tag.size need tag.prevAllocated

/-- Extends the allocated block at `bp` to `need` bytes by the free block at `next`, with which it
has `total` bytes. -/
def absorb (p : Pool) (bp next total need : Nat) (prevAllocated : Bool) : Except Fault Pool := do
  let p ← p.remove next
  p.carve bp total need prevAllocated

/-- Cuts the allocated block at `bp`, whose header is `old`, down to `need` bytes. -/
def trim : Pool → (bp : Nat) → (old : Tag) → (need : Nat) → Except Fault (Option Merge × Pool)
  | ⟨a, x⟩, bp, old, need => do
    let remainder ← Word.sub old.size need
    if remainder < minBlockSize then pure (none, ⟨a, x⟩)
    else
      let a ← a.setHeader bp ⟨need, true, old.prevAllocated⟩
      let rest ← Word.add bp need
      let (merge, p) ← mergeFree ⟨a, x⟩ rest remainder true
      pure (some merge, p)

end SegregatedFit.Pool
