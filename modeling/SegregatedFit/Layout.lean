/-!
# Layout constants

Every block starts with a one-word header, block sizes and payload offsets are multiples of the
alignment, and the smallest block has room for a header, two links and a footer.
-/

namespace SegregatedFit

/-- Bytes of a header, a footer or a link. -/
@[simp] def wordSize : Nat := 8

/-- Payload addresses and block sizes are multiples of it: two words. -/
@[simp] def alignment : Nat := 16

/-- Header, two links and a footer. -/
@[simp] def minBlockSize : Nat := 32

/-- Padding word, prologue header, prologue footer and epilogue header. -/
@[simp] def prologueSize : Nat := 32

/-- The null link: no payload starts at offset 0. -/
@[simp] def nil : Nat := 0

/-- How many size classes there are. -/
abbrev classCount : Nat := 16

/-- The largest size of the first class; each class doubles the limit of the one before. -/
@[simp] def firstClassLimit : Nat := 32

/-- Bytes by which an arena grows at least, unless configured otherwise. -/
@[simp] def defaultChunkSize : Nat := 4096

/-- Capacity of a buffer, unless configured otherwise. -/
@[simp] def defaultMaxHeap : Nat := 20 * 1024 * 1024

end SegregatedFit
