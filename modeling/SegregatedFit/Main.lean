import SegregatedFit.Walkthrough

/-!
# The command

Prints the tour. With `--step` it waits for a key at each pause.
-/

namespace SegregatedFit.Walkthrough

/-- Prints a cue and waits if it is a pause. -/
def Cue.perform (stepping : Bool) (cue : Cue) : IO Unit := do
  for text in cue.lines stepping do
    IO.println text
  if stepping ∧ cue = .pause then
    let stdin ← IO.getStdin
    let _ ← stdin.read 1

end SegregatedFit.Walkthrough

open SegregatedFit Walkthrough in
def main (args : List String) : IO UInt32 := do
  match cues with
  | .ok (.ok cues) =>
    for cue in cues do
      cue.perform (wantsSteps args)
    pure 0
  | .ok (.error e) =>
    IO.eprintln s!"Error: {e.message}"
    pure 1
  | .error _ =>
    IO.eprintln "the tour stopped at a fault"
    pure 101
