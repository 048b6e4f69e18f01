import SegregatedFit.Arena
import SegregatedFit.Tag

/-!
# Blocks

A block is known by the offset of its payload, one word past its header. A free block holds two
links in the first two words of its payload and repeats its header in its last word, the footer,
which lies one word before the header of the next block. Nothing here checks that an offset is a
block: an offset that leads outside the arena faults.

`Arena.walk` follows the header sizes from an offset to the first header of size zero.
-/

namespace SegregatedFit

namespace Arena

/-! ### Headers and footers -/

def headerPos (bp : Nat) : Except Fault Nat :=
  Word.sub bp wordSize

def header (a : Arena) (bp : Nat) : Except Fault Tag := do
  let pos ← headerPos bp
  let w ← a.readWord pos
  pure (.unpack w)

def setHeader (a : Arena) (bp : Nat) (t : Tag) : Except Fault Arena := do
  let pos ← headerPos bp
  a.writeWord pos t.pack

/-- Where the footer of a block of `size` bytes is. -/
def footerPosOf (bp size : Nat) : Except Fault Nat := do
  let next ← Word.add bp size
  Word.sub next (2 * wordSize)

/-- Where the footer is according to the header. -/
def footerPos (a : Arena) (bp : Nat) : Except Fault Nat := do
  let tag ← a.header bp
  footerPosOf bp tag.size

/-- Allocated blocks have no footer: the answer means something for free blocks only. -/
def footer (a : Arena) (bp : Nat) : Except Fault Tag := do
  let pos ← a.footerPos bp
  let w ← a.readWord pos
  pure (.unpack w)

/-- Writes the footer where the size in `t` puts it, whatever the header says. -/
def setFooter (a : Arena) (bp : Nat) (t : Tag) : Except Fault Arena := do
  let pos ← footerPosOf bp t.size
  a.writeWord pos t.pack

/-- Writes header and footer of a free block. -/
def markFree (a : Arena) (bp size : Nat) (prevAllocated : Bool) : Except Fault Arena := do
  let a ← a.setHeader bp ⟨size, false, prevAllocated⟩
  a.setFooter bp ⟨size, false, prevAllocated⟩

/-! ### Neighbours -/

def nextBlock (a : Arena) (bp : Nat) : Except Fault Nat := do
  let tag ← a.header bp
  Word.add bp tag.size

/-- The block before `bp`, found by its footer: it has to be free. -/
def prevBlock (a : Arena) (bp : Nat) : Except Fault Nat := do
  let pos ← Word.sub bp (2 * wordSize)
  let w ← a.readWord pos
  Word.sub bp (Tag.unpack w).size

/-- Tells the block at `bp` whether the one before it is allocated. A free block's footer follows
its header; the word that ends the arena has no footer. -/
def setPrevAllocated (a : Arena) (bp : Nat) (prevAllocated : Bool) : Except Fault Arena := do
  let old ← a.header bp
  let tag := { old with prevAllocated }
  let a ← a.setHeader bp tag
  if tag.allocated ∨ tag.size = 0 then pure a else a.setFooter bp tag

/-! ### Links of free blocks -/

def nextFree (a : Arena) (bp : Nat) : Except Fault Nat :=
  a.readWord bp

def prevFree (a : Arena) (bp : Nat) : Except Fault Nat := do
  let pos ← Word.add bp wordSize
  a.readWord pos

def setNextFree (a : Arena) (bp next : Nat) : Except Fault Arena :=
  a.writeWord bp next

def setPrevFree (a : Arena) (bp prev : Nat) : Except Fault Arena := do
  let pos ← Word.add bp wordSize
  a.writeWord pos prev

end Arena

/-! ### Walking the arena -/

/-- A block as a walk meets it. -/
structure Block where
  /-- Offset of the payload. -/
  offset : Nat
  size : Nat
  allocated : Bool
deriving DecidableEq, Repr

/-- How many bytes the blocks have together. -/
def Block.totalSize : List Block → Nat
  | [] => 0
  | b :: bs => b.size + totalSize bs

/-- The blocks that a walk met, in order, and what cut it short, if anything. -/
structure Walk where
  blocks : List Block
  fault : Option Fault
deriving DecidableEq, Repr

namespace Walk

/-- The blocks of a walk that came to its end. -/
def complete (w : Walk) : Except Fault (List Block) :=
  match w.fault with
  | none => .ok w.blocks
  | some fault => .error fault

end Walk

namespace Arena

/-- Meets at most `fuel` blocks from `bp` on. -/
def walkFrom (a : Arena) : (fuel : Nat) → (bp : Nat) → Walk
  | 0, _ => ⟨[], some .endlessChain⟩
  | fuel + 1, bp =>
    match a.header bp with
    | .error fault => ⟨[], some fault⟩
    | .ok tag =>
      if tag.size = 0 then ⟨[], none⟩
      else
        match Word.add bp tag.size with
        | .error fault => ⟨[], some fault⟩
        | .ok next =>
          let rest := a.walkFrom fuel next
          ⟨⟨bp, tag.size, tag.allocated⟩ :: rest.blocks, rest.fault⟩

/-- Each step goes up, and past the end there is no header: a walk meets fewer blocks than the
arena has bytes. -/
def walk (a : Arena) (bp : Nat) : Walk :=
  a.walkFrom (a.size + 1) bp

end Arena

end SegregatedFit
