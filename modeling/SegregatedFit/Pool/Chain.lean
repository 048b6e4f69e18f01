import SegregatedFit.Block
import SegregatedFit.FreeIndex

/-!
# Free blocks in chains

A pool is an arena together with the index of its free blocks. The blocks of one size class form a
doubly linked chain: each holds the offset of the next and of the previous one, `nil` at the ends.
`insert` puts a block at the front of the chain that its header's size selects, `remove` takes one
out wherever it stands, and `firstFit` is first fit: class by class from the requested size's own,
each chain from its head.
-/

namespace SegregatedFit

structure Pool where
  arena : Arena
  index : FreeIndex

namespace Pool

/-- Puts the block at the front of its class. Its header holds its size already. -/
def insert : Pool → Nat → Except Fault Pool
  | ⟨a, x⟩, bp => do
    let tag ← a.header bp
    let c := sizeClass tag.size
    let head := x.head c
    let a ← if head = nil then pure a else a.setPrevFree head bp
    let a ← a.setNextFree bp head
    let a ← a.setPrevFree bp nil
    pure ⟨a, x.setHead c bp⟩

/-- Takes the block out of its class, which its header tells: to be done before the header
changes. -/
def remove : Pool → Nat → Except Fault Pool
  | ⟨a, x⟩, bp => do
    let tag ← a.header bp
    let prev ← a.prevFree bp
    let next ← a.nextFree bp
    let (a, x) ←
      if prev = nil then pure (a, x.setHead (sizeClass tag.size) next)
      else do
        let a ← a.setNextFree prev next
        pure (a, x)
    let a ← if next = nil then pure a else a.setPrevFree next prev
    pure ⟨a, x⟩

/-- The first `n` blocks of the chain that starts at `bp`, or all if there are fewer. The link of
each block is read before the block is taken. -/
def chainFrom (a : Arena) : (n : Nat) → (bp : Nat) → Except Fault (List Nat)
  | 0, _ => pure []
  | n + 1, bp =>
    if bp = nil then pure []
    else do
      let next ← a.nextFree bp
      let rest ← chainFrom a n next
      pure (bp :: rest)

/-- The first `n` blocks of the class. -/
def chain (p : Pool) (c : SizeClass) (n : Nat) : Except Fault (List Nat) :=
  chainFrom p.arena n (p.index.head c)

/-- The first block of at least `size` bytes in the chain from `bp` on. A chain of more than `fuel`
blocks counts as endless. -/
def searchChain (a : Arena) (size : Nat) : (fuel : Nat) → (bp : Nat) → Except Fault (Option Nat)
  | 0, bp => if bp = nil then pure none else .error .endlessChain
  | fuel + 1, bp =>
    if bp = nil then pure none
    else do
      let next ← a.nextFree bp
      let tag ← a.header bp
      if size ≤ tag.size then pure (some bp) else searchChain a size fuel next

/-- The first hit in the classes `cs`. A chain that visits no block twice has fewer blocks than the
arena has bytes, so one that is longer has no end. -/
def searchClasses (p : Pool) (size : Nat) : List SizeClass → Except Fault (Option Nat)
  | [] => pure none
  | c :: cs => do
    match ← searchChain p.arena size p.arena.size (p.index.head c) with
    | some bp => pure (some bp)
    | none => searchClasses p size cs

/-- The first block of at least `size` bytes, from the class of `size` upwards. -/
def firstFit (p : Pool) (size : Nat) : Except Fault (Option Nat) :=
  p.searchClasses size ((List.finRange classCount).drop (sizeClass size).val)

end Pool

end SegregatedFit
