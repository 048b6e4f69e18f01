import SegregatedFit.Word

/-!
# Statistics

Counters of what happened to a heap. Bytes are those of whole blocks, headers included. A counter
that would leave the range of words faults.
-/

namespace SegregatedFit

structure Stats where
  allocs : Nat := 0
  frees : Nat := 0
  reallocs : Nat := 0
  /-- Reallocations that left the payload where it was. -/
  inPlaceReallocs : Nat := 0
  /-- How often the arena grew, the first chunk included. -/
  heapExtensions : Nat := 0
  liveBytes : Nat := 0
  peakLiveBytes : Nat := 0
deriving DecidableEq, Repr

namespace Stats

def updatePeak (s : Stats) : Stats :=
  { s with peakLiveBytes := max s.peakLiveBytes s.liveBytes }

def recordAllocation (s : Stats) (size : Nat) : Except Fault Stats := do
  let allocs ← Word.add s.allocs 1
  let liveBytes ← Word.add s.liveBytes size
  pure { s with allocs, liveBytes }.updatePeak

def recordFree (s : Stats) (size : Nat) : Except Fault Stats := do
  let frees ← Word.add s.frees 1
  let liveBytes ← Word.sub s.liveBytes size
  pure { s with frees, liveBytes }

def recordReallocation (s : Stats) : Except Fault Stats := do
  let reallocs ← Word.add s.reallocs 1
  pure { s with reallocs }

def recordInPlace (s : Stats) : Except Fault Stats := do
  let inPlaceReallocs ← Word.add s.inPlaceReallocs 1
  pure { s with inPlaceReallocs }

def recordExtension (s : Stats) : Except Fault Stats := do
  let heapExtensions ← Word.add s.heapExtensions 1
  pure { s with heapExtensions }

def recordShrink (s : Stats) (bytes : Nat) : Except Fault Stats := do
  let liveBytes ← Word.sub s.liveBytes bytes
  pure { s with liveBytes }

def recordGrowth (s : Stats) (bytes : Nat) : Except Fault Stats := do
  let liveBytes ← Word.add s.liveBytes bytes
  pure { s with liveBytes }.updatePeak

/-- Share of `heapSize` bytes that live blocks hold: the quotient of the two numbers, each rounded
to a double first. -/
def utilization (s : Stats) (heapSize : Nat) : Float :=
  if heapSize = 0 then 0.0
  else (UInt64.ofNat s.liveBytes).toFloat / (UInt64.ofNat heapSize).toFloat

/-- One counter per line. -/
def lines (s : Stats) : List String :=
  ["AllocatorStats \x7b",
   s!"    allocs: {s.allocs},",
   s!"    frees: {s.frees},",
   s!"    reallocs: {s.reallocs},",
   s!"    in_place_reallocs: {s.inPlaceReallocs},",
   s!"    heap_extensions: {s.heapExtensions},",
   s!"    live_bytes: {s.liveBytes},",
   s!"    peak_live_bytes: {s.peakLiveBytes},",
   "\x7d"]

end Stats

end SegregatedFit
