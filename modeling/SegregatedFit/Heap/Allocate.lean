import SegregatedFit.Heap.Growth

/-!
# Allocating and freeing

A request takes the first free block that is large enough and grows the arena only where there is
none. Blocks of one size class are reused last in, first out. Freeing joins a block with its free
neighbours at once.
-/

namespace SegregatedFit.HeapM

/-- Size of the block for a request of `size` bytes. -/
def blockSize (size : Nat) : HeapM Nat :=
  match blockSize? size with
  | none => throw .sizeOverflow
  | some need => pure need

/-- A free block of at least `need` bytes. -/
def findOrExtend (need : Nat) : HeapM Nat := do
  let fit ← ask fun h => h.pool.firstFit need
  match fit with
  | some bp => pure bp
  | none =>
    let config ← ask fun h => pure h.config
    extend (max need config.chunkSize)

/-- Gives the address of a payload of at least `size` bytes. -/
def allocate (size : Nat) : HeapM Nat :=
  if size = 0 then throw .zeroSize
  else do
    let need ← blockSize size
    let bp ← findOrExtend need
    updatePool fun p => do
      let p ← p.place bp need
      pure ((), p)
    let placed ← header bp
    updateStats (·.recordAllocation placed.size)
    emit (.allocated size need placed.size bp)
    ask fun h => pure (h.address bp)

/-- Like `allocate` for `count * size` bytes, which are all zero. -/
def allocateZeroed (count size : Nat) : HeapM Nat :=
  if Word.limit ≤ count * size then throw .sizeOverflow
  else do
    let address ← allocate (count * size)
    let bp ← offsetOf address
    updateArena (·.clear bp (count * size))
    pure address

/-- Frees the allocated block at `bp`. -/
def freeBlock (bp : Nat) : HeapM Unit := do
  let tag ← header bp
  let merge ← updatePool (·.mergeFree bp tag.size tag.prevAllocated)
  let merged ← reportMerge merge
  updateStats (·.recordFree tag.size)
  emit (.freed bp tag.size merged)

/-- Takes the block at an address back; the null pointer is ignored. -/
def free : Option Nat → HeapM Unit
  | none => pure ()
  | some address => do
    let bp ← offsetOf address
    freeBlock bp

end SegregatedFit.HeapM
