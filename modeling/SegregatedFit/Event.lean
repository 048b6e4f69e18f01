import SegregatedFit.Error
import SegregatedFit.Violation

/-!
# Events

What operations report while they run. An event has a level, a message and named fields.
-/

namespace SegregatedFit

inductive Event where
  | bufferReserved (capacity : Nat)
  | segmentClaimed (padding : Nat)
  | initialised (heapSize : Nat)
  | extensionFailed (size : Nat) (error : Error)
  | extended (size heapSize : Nat)
  | coalesced (bp size : Nat) (mergedPrev mergedNext : Bool)
  | allocated (size need placed bp : Nat)
  | freed (bp size merged : Nat)
  | shrunk (bp old need : Nat)
  | grownInPlace (bp old need : Nat)
  | moved (bp newBp copied : Nat)
  | checkFailed (context : String) (violation : Violation)
deriving DecidableEq, Repr

namespace Event

inductive Level where
  | warn
  | debug
  | trace
deriving DecidableEq, Repr

def Level.text : Level → String
  | warn => "WARN"
  | debug => "DEBUG"
  | trace => "TRACE"

/-- The value of a field. -/
inductive Value where
  | number (n : Nat)
  | flag (b : Bool)
  | text (s : String)
deriving DecidableEq, Repr

def level : Event → Level
  | bufferReserved .. | segmentClaimed .. | initialised .. | extensionFailed .. | extended .. =>
    .debug
  | coalesced .. | allocated .. | freed .. | shrunk .. | grownInPlace .. | moved .. => .trace
  | checkFailed .. => .warn

def message : Event → String
  | bufferReserved .. => "memlib reserved"
  | segmentClaimed .. => "sbrk provider initialised"
  | initialised .. => "allocator initialised"
  | extensionFailed .. => "heap extension failed"
  | extended .. => "heap extended"
  | coalesced .. => "coalesce"
  | allocated .. => "allocate"
  | freed .. => "free"
  | shrunk .. => "reallocate shrink"
  | grownInPlace .. => "reallocate grow in place"
  | moved .. => "reallocate moved"
  | checkFailed .. => "heap check"

def fields : Event → List (String × Value)
  | bufferReserved capacity => [("capacity", .number capacity)]
  | segmentClaimed padding => [("padding", .number padding)]
  | initialised heapSize => [("heap_size", .number heapSize)]
  | extensionFailed size error => [("size", .number size), ("error", .text error.message)]
  | extended size heapSize => [("size", .number size), ("heap_size", .number heapSize)]
  | coalesced bp size mergedPrev mergedNext =>
    [("bp", .number bp), ("size", .number size), ("merged_prev", .flag mergedPrev),
     ("merged_next", .flag mergedNext)]
  | allocated size need placed bp =>
    [("size", .number size), ("asize", .number need), ("placed", .number placed),
     ("bp", .number bp)]
  | freed bp size merged =>
    [("bp", .number bp), ("size", .number size), ("merged", .number merged)]
  | shrunk bp old need | grownInPlace bp old need =>
    [("bp", .number bp), ("old", .number old), ("asize", .number need)]
  | moved bp newBp copied =>
    [("bp", .number bp), ("new_bp", .number newBp), ("copied", .number copied)]
  | checkFailed context violation =>
    [("context", .text context), ("violation", .text violation.message)]

end Event

end SegregatedFit
