import SegregatedFit.Heap.Basic

/-!
# Checking a heap

`Heap.violations` reads the whole arena and every chain and lists what is inconsistent. It trusts no
offset that it finds: it looks at a block only after it has seen that the block lies inside the
arena, and follows a chain only while it meets new blocks.
-/

namespace SegregatedFit

namespace Heap

/-- Address of the last byte of the arena. -/
def lastAddress (h : Heap) : Nat := h.arena.base + h.size - 1

/-! ### Blocks -/

/-- Whether the block at `bp` ends before the last word of the arena does. The sum saturates: sizes
come from memory and may be any word. -/
def endsInside (h : Heap) (bp size : Nat) : Except Fault Bool := do
  let stop := Word.addSaturating (Word.addSaturating h.arena.base bp) size
  let stop ← Word.sub stop (wordSize + 1)
  pure (decide (stop ≤ h.lastAddress))

def checkPrologue (h : Heap) : Except Fault (List Violation) := do
  let header ← h.arena.header h.start
  let w ← h.arena.readWord h.start
  if header.size = 2 * wordSize ∧ header.allocated ∧ header = .unpack w then pure []
  else pure [.badPrologue h.start]

def checkPrev (bp : Nat) (tag : Tag) (prevAllocated : Bool) : List Violation :=
  if tag.prevAllocated = prevAllocated then [] else [.stalePrevAllocated bp]

/-- The header of size zero at `bp` has to be the last word and allocated. -/
def checkEpilogue (h : Heap) (bp : Nat) (tag : Tag) (prevAllocated : Bool) :
    Except Fault (List Violation) := do
  let pos ← Arena.headerPos bp
  let last ← Word.sub h.size wordSize
  let bad := if tag.allocated ∧ pos = last then [] else [Violation.badEpilogue bp]
  pure (bad ++ checkPrev bp tag prevAllocated)

/-- What the header alone shows. -/
def checkHeader (h : Heap) (bp : Nat) (tag : Tag) (prevAllocated : Bool) :
    Except Fault (List Violation) := do
  let address ← Word.add h.arena.base bp
  pure <|
    (if address % alignment = 0 then [] else [Violation.misaligned bp]) ++
    (if minBlockSize ≤ tag.size then [] else [.undersized bp tag.size]) ++
    (if tag.size % alignment = 0 then [] else [.unalignedSize bp tag.size]) ++
    checkPrev bp tag prevAllocated

/-- A free block repeats its header, unless it is too small for a footer, and does not follow the
free block `prevFree`. -/
def checkFree (h : Heap) (bp : Nat) (tag : Tag) (prevFree : Option Nat) :
    Except Fault (List Violation) := do
  let mismatch ←
    if tag.size < 2 * wordSize then pure []
    else do
      let footer ← h.arena.footer bp
      if footer.size = tag.size ∧ ¬footer.allocated then pure []
      else pure [Violation.tagMismatch bp tag footer]
  pure (mismatch ++ (prevFree.map (Violation.consecutiveFree · bp)).toList)

/-- What a check of blocks found: violations, and the free blocks that it met. -/
structure BlockReport where
  violations : List Violation
  free : List Nat

/-- Checks at most `fuel` blocks from `bp` on. The block before has the given flag, and is
`prevFree` if it is free. -/
def checkBlocksFrom (h : Heap) :
    (fuel : Nat) → (bp : Nat) → (prevAllocated : Bool) → (prevFree : Option Nat) →
      Except Fault BlockReport
  | 0, _, _, _ => .error .endlessChain
  | fuel + 1, bp, prevAllocated, prevFree =>
    if h.size < bp then pure ⟨[.outOfBounds bp], []⟩
    else do
      let tag ← h.arena.header bp
      if tag.size = 0 then
        let violations ← h.checkEpilogue bp tag prevAllocated
        pure ⟨violations, []⟩
      else
        let inside ← h.endsInside bp tag.size
        if ¬inside then pure ⟨[.outOfBounds bp], []⟩
        else
          let own ← h.checkHeader bp tag prevAllocated
          let asFree ← if tag.allocated then pure [] else h.checkFree bp tag prevFree
          let next ← Word.add bp tag.size
          let rest ← h.checkBlocksFrom fuel next tag.allocated
            (if tag.allocated then none else some bp)
          pure ⟨own ++ asFree ++ rest.violations,
            if tag.allocated then rest.free else bp :: rest.free⟩

def checkBlocks (h : Heap) : Except Fault BlockReport := do
  let prologue ← h.checkPrologue
  let report ← h.checkBlocksFrom (h.size + 1) h.firstBlock true none
  pure { report with violations := prologue ++ report.violations }

/-! ### Chains -/

/-- What a member of chain `c` has to be. -/
def checkMember (h : Heap) (c : SizeClass) (bp prev : Nat) : Except Fault (List Violation) := do
  let tag ← h.arena.header bp
  let back ← h.arena.prevFree bp
  pure <|
    (if tag.allocated then [Violation.listedNotFree c bp] else []) ++
    (if sizeClass tag.size = c then [] else [.wrongClass c bp tag.size]) ++
    (if back = prev then [] else [.brokenBackLink c bp])

/-- What a check of chains found: violations, and the blocks that it met, each once. -/
structure ChainReport where
  violations : List Violation
  listed : List Nat

/-- Checks at most `fuel` members of chain `c` from `bp` on. `met` are the members before it, and
`listed` all blocks met in any chain. -/
def checkChainFrom (h : Heap) (c : SizeClass) :
    (fuel : Nat) → (bp prev : Nat) → (met listed : List Nat) → Except Fault ChainReport
  | 0, _, _, _, _ => .error .endlessChain
  | fuel + 1, bp, prev, met, listed =>
    if bp = nil then pure ⟨[], listed⟩
    else if bp < h.firstBlock ∨ h.size < Word.addSaturating bp (2 * wordSize) then
      pure ⟨[.outOfBounds bp], listed⟩
    else if bp ∈ met then pure ⟨[.listCycle c bp], listed⟩
    else do
      let again := if bp ∈ listed then [Violation.multiplyListed bp] else []
      let own ← h.checkMember c bp prev
      let next ← h.arena.nextFree bp
      let rest ← h.checkChainFrom c fuel next bp (bp :: met) (listed.insert bp)
      pure ⟨again ++ own ++ rest.violations, rest.listed⟩

/-- A chain meets fewer new blocks than the arena has bytes. -/
def checkChain (h : Heap) (c : SizeClass) (listed : List Nat) : Except Fault ChainReport :=
  h.checkChainFrom c (h.size + 1) (h.index.head c) nil [] listed

def checkChains (h : Heap) : List SizeClass → (listed : List Nat) → Except Fault ChainReport
  | [], listed => pure ⟨[], listed⟩
  | c :: cs, listed => do
    let report ← h.checkChain c listed
    let rest ← h.checkChains cs report.listed
    pure ⟨report.violations ++ rest.violations, rest.listed⟩

/-! ### The whole heap -/

/-- All violations: those of the blocks from the first on, those of the chains class by class, and
where the two disagree about which blocks are free. -/
def violations (h : Heap) : Except Fault (List Violation) := do
  let blocks ← h.checkBlocks
  let chains ← h.checkChains (List.finRange classCount) []
  let missing := blocks.free.filter (· ∉ chains.listed)
  let inHeap := blocks.free.length
  let inLists := chains.listed.length
  pure <|
    blocks.violations ++ chains.violations ++ missing.map Violation.unlisted ++
      (if inHeap = inLists then [] else [.freeCountMismatch inHeap inLists])

end Heap

namespace HeapM

def reportViolations (label : String) : List Violation → HeapM Unit
  | [] => pure ()
  | v :: vs => do
    emit (.checkFailed label v)
    reportViolations label vs

/-- Validates the heap and reports each violation under a label. -/
def check (label : String) : HeapM (List Violation) := do
  let violations ← ask fun h => (h.violations : Except Fault (List Violation))
  reportViolations label violations
  pure violations

end HeapM

end SegregatedFit
