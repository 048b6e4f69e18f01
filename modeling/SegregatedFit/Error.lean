import SegregatedFit.Word

/-!
# Errors

An error is an answer: the operation that gives one leaves its heap usable, unlike a `Fault`. Each
constructor is a cause, and `Error.message` is its wording.
-/

namespace SegregatedFit

/-- What is wrong with a configuration. -/
inductive ConfigFlaw where
  /-- The chunk size is too small or not a multiple of the alignment. -/
  | chunkSize (size : Nat)
  /-- The capacity is too small for the prologue and one chunk. -/
  | maxHeap (capacity chunkSize : Nat)
  /-- No buffer can have this capacity. -/
  | unreservable
deriving DecidableEq, Repr

inductive Error where
  | zeroSize
  | sizeOverflow
  | outOfMemory (requested available : Nat)
  /-- Someone else moved the end of the data segment. -/
  | nonContiguous
  | invalidConfig (flaw : ConfigFlaw)
  /-- The provider refused for a reason of its own. -/
  | provider (reason : String)
  /-- The address is not inside the arena's blocks. -/
  | foreignPointer (address : Nat)
deriving DecidableEq, Repr

def ConfigFlaw.message : ConfigFlaw → String
  | .chunkSize size => s!"chunk size {size} must be a multiple of 16 and at least 32"
  | .maxHeap capacity chunk =>
    s!"max heap {capacity} cannot hold the prologue and one chunk of {chunk}"
  | .unreservable => "invalid parameters to Layout::from_size_align"

def Error.message : Error → String
  | .zeroSize => "zero-size request"
  | .sizeOverflow => "requested size overflows usize"
  | .outOfMemory requested available =>
    s!"out of memory: requested {requested} bytes, {available} available"
  | .nonContiguous => "heap break moved by a foreign caller, arena is no longer contiguous"
  | .invalidConfig flaw => "invalid config: " ++ flaw.message
  | .provider reason => "memory provider: " ++ reason
  | .foreignPointer address => s!"pointer {address} does not belong to this arena"

/-- A computation that gives a result or an error, unless it faults. -/
abbrev Fallible := ExceptT Error (Except Fault)

end SegregatedFit
