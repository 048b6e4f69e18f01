import SegregatedFit.Tag

/-!
# Violations

What a check of a heap can find wrong, and how it is reported.
-/

namespace SegregatedFit

inductive Violation where
  | badPrologue (offset : Nat)
  | badEpilogue (offset : Nat)
  | misaligned (offset : Nat)
  | undersized (offset size : Nat)
  | unalignedSize (offset size : Nat)
  /-- Header and footer of a free block differ. -/
  | tagMismatch (offset : Nat) (header footer : Tag)
  /-- A header is wrong about the block before it. -/
  | stalePrevAllocated (offset : Nat)
  | consecutiveFree (first second : Nat)
  | outOfBounds (offset : Nat)
  | listedNotFree (listedIn offset : Nat)
  | wrongClass (listedIn offset size : Nat)
  | brokenBackLink (listedIn offset : Nat)
  | listCycle (listedIn offset : Nat)
  | multiplyListed (offset : Nat)
  | unlisted (offset : Nat)
  | freeCountMismatch (inHeap inLists : Nat)
deriving DecidableEq, Repr

def Violation.message : Violation → String
  | badPrologue offset => s!"bad prologue at {offset}"
  | badEpilogue offset => s!"bad epilogue at {offset}"
  | misaligned offset => s!"payload {offset} is misaligned"
  | undersized offset size => s!"block {offset} has size {size}, below the minimum"
  | unalignedSize offset size =>
    s!"block {offset} has size {size}, not a multiple of the alignment"
  | tagMismatch offset header footer =>
    s!"free block {offset}: header {header.text} and footer {footer.text} disagree"
  | stalePrevAllocated offset => s!"block {offset} has a stale prev-allocated bit"
  | consecutiveFree first second => s!"free blocks {first} and {second} are adjacent"
  | outOfBounds offset => s!"block {offset} lies outside the heap"
  | listedNotFree listedIn offset => s!"block {offset} in class {listedIn} is not free"
  | wrongClass listedIn offset size =>
    s!"block {offset} of size {size} sits in class {listedIn}"
  | brokenBackLink listedIn offset =>
    s!"block {offset} in class {listedIn} has a broken back link"
  | listCycle listedIn offset => s!"class {listedIn} revisits block {offset}"
  | multiplyListed offset => s!"block {offset} is reachable from more than one class"
  | unlisted offset => s!"free block {offset} is missing from the free lists"
  | freeCountMismatch inHeap inLists =>
    s!"{inHeap} free blocks in the heap, {inLists} in the free lists"

end SegregatedFit
