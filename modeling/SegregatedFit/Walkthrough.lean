import SegregatedFit.Heap.Check
import SegregatedFit.Heap.Reallocate

/-!
# A guided tour of a heap

A fixed sequence of operations on a fresh heap, with what the heap looks like after each: three
blocks carved from the first chunk, reuse of a freed block, merging of neighbours, growth in place
and growth of the arena. Between the steps there are pauses, which are part of the text only if
the reader wants to go step by step.
-/

namespace SegregatedFit.Walkthrough

inductive Cue where
  | line (text : String)
  | pause
deriving DecidableEq, Repr

/-- Fills up with blanks on the left. -/
def alignRight (width : Nat) (s : String) : String :=
  String.ofList (List.replicate (width - s.length) ' ') ++ s

/-- Fills up with blanks on the right. -/
def alignLeft (width : Nat) (s : String) : String :=
  s ++ String.ofList (List.replicate (width - s.length) ' ')

def blockLine (b : Block) : String :=
  let state := if b.allocated then "allocated" else "free"
  s!"    @{alignLeft 6 (toString b.offset)} {alignRight 6 (toString b.size)} bytes  {state}"

/-- The heap's size, its free bytes and its blocks. -/
def overview (label : String) : HeapM (List Cue) := do
  let size ← HeapM.ask fun h => pure h.size
  let free ← HeapM.ask fun h => h.freeBytes
  let blocks ← HeapM.ask fun h => h.blocks
  pure (.line s!"[{label}] heap = {size} bytes, free = {free} bytes" ::
    blocks.map fun b => .line (blockLine b))

/-- A line after an empty one. -/
def heading (text : String) : List Cue := [.line "", .line text]

open HeapM in
def tour : HeapM (List Cue) := do
  let start ← overview "start"
  let base ← ask fun h => pure h.arena.base
  let a ← allocate 24
  let b ← allocate 40
  let c ← allocate 200
  let carved ← overview "1"
  free (some a)
  let d ← allocate 16
  free (some d)
  free (some b)
  let merged ← overview "3"
  let bp ← offsetOf c
  updateArena fun arena => pure (arena.fillClipped bp 200 fun _ => 0xAB)
  let grown ← reallocate (some c) 1000
  let inPlace ← overview "4"
  let big ← allocate (64 * 1024)
  let extended ← overview "5"
  let violations ← check "demo"
  let stats ← ask fun h => pure h.stats
  pure <|
    start ++ [.pause] ++
    heading s!"[1] a @{a - base}, b @{b - base}, c @{c - base}" ++ carved ++ [.pause] ++
    heading s!"[2] d == a? {decide (d = a)}" ++ [.pause] ++
    merged ++ [.pause] ++
    heading s!"[4] reallocated in place? {decide (grown = some c)}" ++ inPlace ++ [.pause] ++
    heading s!"[5] 64 KiB block @{big - base}" ++ extended ++
    heading s!"[6] heap check: {violations.length} violation(s)" ++
    stats.lines.map .line

/-- The text of the tour, or what went wrong. -/
def cues : Except Fault (Except Error (List Cue)) := do
  let creation ← Heap.new 0 (Nat.dvd_zero _) {}
  match creation.result with
  | .error e => pure (.error e)
  | .ok h =>
    let outcome ← tour.run h
    pure outcome.result

/-- A pause asks for a key, unless nobody wants to step. -/
def Cue.lines (stepping : Bool) : Cue → List String
  | line text => [text]
  | pause => if stepping then ["", ">>> Press ENTER to continue..."] else []

/-- Whether the arguments ask for pauses. -/
def wantsSteps (args : List String) : Bool :=
  args.contains "--step"

end SegregatedFit.Walkthrough
