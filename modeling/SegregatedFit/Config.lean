import SegregatedFit.Layout
import SegregatedFit.Error

/-!
# Configuration

How much an arena grows at a time, and how large a buffer may get.
-/

namespace SegregatedFit

structure Config where
  /-- Least number of bytes per growth. -/
  chunkSize : Nat := defaultChunkSize
  /-- Capacity of the buffer that `Heap.new` reserves. -/
  maxHeap : Nat := defaultMaxHeap
deriving DecidableEq, Repr

namespace Config

/-- Accepts a chunk that is a block and a capacity that holds the prologue and one chunk. Faults
where these two together are no word. -/
def validate (c : Config) : Fallible Unit := do
  if c.chunkSize < minBlockSize ∨ c.chunkSize % alignment ≠ 0 then
    throw (.invalidConfig (.chunkSize c.chunkSize))
  else
    let needed ← Word.add prologueSize c.chunkSize
    if c.maxHeap < needed then
      throw (.invalidConfig (.maxHeap c.maxHeap c.chunkSize))

end Config

end SegregatedFit
