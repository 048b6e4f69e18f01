import SegregatedFit.Heap.Allocate

/-!
# Resizing

A block that is asked to shrink stays where it is and gives up its tail. One that is asked to grow
takes the free block after it, for which the arena grows first if the block is the last one, and
moves only where that does not suffice.
-/

namespace SegregatedFit.HeapM

/-- Cuts the block at `bp` down to `need` bytes. -/
def shrink (bp : Nat) (old : Tag) (need : Nat) : HeapM Unit := do
  let merge ← updatePool (·.trim bp old need)
  match merge with
  | none => pure ()
  | some merge =>
    let _ ← reportMerge merge
    updateStats (·.recordShrink (old.size - need))

/-- Extends the block at `bp` to `need` bytes if the block after it, whose header is `nextTag`, is
free and the two have enough, namely `available`. -/
def takeNext (bp : Nat) (old : Tag) (nextTag : Tag) (available need : Nat) : HeapM Bool :=
  if nextTag.allocated ∨ available < need then pure false
  else do
    updatePool fun p => do
      let next ← Word.add bp old.size
      let p ← p.absorb bp next available need old.prevAllocated
      pure ((), p)
    let grown ← header bp
    let gained ← Word.sub grown.size old.size
    updateStats (·.recordGrowth gained)
    pure true

/-- Extends the block at `bp` to `need` bytes without moving it, if it can be done. -/
def growInPlace (bp : Nat) (old : Tag) (need : Nat) : HeapM Bool := do
  let next ← Word.add bp old.size
  let nextTag ← header next
  let available ← Word.add old.size (if nextTag.allocated then 0 else nextTag.size)
  if need ≤ available then takeNext bp old nextTag available need
  else do
    let after ← if nextTag.allocated then pure next else Word.add next nextTag.size
    let afterTag ← header after
    if afterTag.size ≠ 0 then pure false
    else do
      let shortfall ← Word.sub need available
      let config ← ask fun h => pure h.config
      let _ ← extend (max shortfall config.chunkSize)
      let nextTag ← header next
      let available ← Word.add old.size nextTag.size
      takeNext bp old nextTag available need

/-- Moves the block at `bp` to a new one for `size` bytes and gives its address. -/
def move (bp : Nat) (old : Tag) (size : Nat) : HeapM Nat := do
  let address ← allocate size
  let newBp ← offsetOf address
  let payload ← Word.sub old.size wordSize
  let copied := min payload size
  updateArena (·.copyWithin bp copied newBp)
  freeBlock bp
  emit (.moved bp newBp copied)
  pure address

/-- Resizes the block at `address` to a payload of `size` bytes. -/
def resize (address size : Nat) : HeapM Nat := do
  let bp ← offsetOf address
  let need ← blockSize size
  let old ← header bp
  updateStats (·.recordReallocation)
  if need ≤ old.size then do
    shrink bp old need
    updateStats (·.recordInPlace)
    emit (.shrunk bp old.size need)
    pure address
  else do
    let grown ← growInPlace bp old need
    if grown then do
      updateStats (·.recordInPlace)
      emit (.grownInPlace bp old.size need)
      pure address
    else
      move bp old size

/-- Resizes a block; the null pointer is allocated, and size 0 frees. -/
def reallocate (address : Option Nat) (size : Nat) : HeapM (Option Nat) :=
  match address with
  | none => do
    let address ← allocate size
    pure (some address)
  | some address =>
    if size = 0 then do
      free (some address)
      pure none
    else do
      let address ← resize address size
      pure (some address)

end SegregatedFit.HeapM
