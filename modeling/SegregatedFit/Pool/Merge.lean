import SegregatedFit.Pool.Chain

/-!
# Giving memory back

Memory that becomes free joins the free blocks on both sides of it at once, so no two free blocks
are ever neighbours. `coalesce` does the joining, for a block that is marked free and is in no
chain; `mergeFree` marks a block, joins it and puts the result in its chain. `adopt` does the same
for memory added at the end of the arena, which first gets a new end.
-/

namespace SegregatedFit

/-- A free block that came out of joining neighbours. -/
structure Merge where
  offset : Nat
  size : Nat
  withPrev : Bool
  withNext : Bool
deriving DecidableEq, Repr

namespace Pool

/-- Joins the free block at `bp`, which is in no chain, with its free neighbours, and tells the
block that follows. The result is in no chain either. -/
def coalesce : Pool → Nat → Except Fault (Merge × Pool)
  | ⟨a, x⟩, bp => do
    let tag ← a.header bp
    let next ← Word.add bp tag.size
    let nextTag ← a.header next
    let (start, size, prevAllocated, p) ←
      if tag.prevAllocated then pure (bp, tag.size, true, Pool.mk a x)
      else do
        let prev ← a.prevBlock bp
        let prevTag ← a.header prev
        let p ← remove ⟨a, x⟩ prev
        let size ← Word.add tag.size prevTag.size
        pure (prev, size, prevTag.prevAllocated, p)
    let (size, p) ←
      if nextTag.allocated then pure (size, p)
      else do
        let p ← p.remove next
        let size ← Word.add size nextTag.size
        pure (size, p)
    let ⟨a, x⟩ := p
    let a ← a.markFree start size prevAllocated
    let after ← Word.add start size
    let a ← a.setPrevAllocated after false
    pure (⟨start, size, !tag.prevAllocated, !nextTag.allocated⟩, ⟨a, x⟩)

/-- Joins the block at `bp`, which is marked free, and puts the result in its chain. -/
def join (p : Pool) (bp : Nat) : Except Fault (Merge × Pool) := do
  let (merge, p) ← p.coalesce bp
  let p ← p.insert merge.offset
  pure (merge, p)

/-- Makes a free block of the `size` bytes that belong to `bp`. -/
def mergeFree : Pool → (bp size : Nat) → (prevAllocated : Bool) → Except Fault (Merge × Pool)
  | ⟨a, x⟩, bp, size, prevAllocated => do
    let a ← a.markFree bp size prevAllocated
    join ⟨a, x⟩ bp

/-- Makes a free block of the last `size` bytes of the arena, which were added just now: the old
end marker becomes its header. -/
def adopt : Pool → (bp size : Nat) → Except Fault (Merge × Pool)
  | ⟨a, x⟩, bp, size => do
    let tag ← a.header bp
    let a ← a.markFree bp size tag.prevAllocated
    let stop ← Word.add bp size
    let a ← a.setHeader stop (.epilogue false)
    join ⟨a, x⟩ bp

end Pool

end SegregatedFit
