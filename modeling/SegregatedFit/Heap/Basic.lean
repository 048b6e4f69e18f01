import SegregatedFit.Config
import SegregatedFit.Event
import SegregatedFit.Pool.Carve
import SegregatedFit.Provider
import SegregatedFit.Stats

/-!
# Heaps

A heap is an arena laid out as padding, an allocated prologue block, blocks without gaps, and a
header of size zero in the last word, together with the index of its free blocks, its provider, its
configuration and its statistics. Pointers are addresses, the arena's base plus an offset; `none`
is the null pointer.

Operations are written in `HeapM`: a heap in, and a result or an error out, with the heap that it
leaves behind and the events that it reported. An error keeps what was done before it; a fault has
no outcome. What follows a step sees its result (`run_bind_of_ok`) or is left out
(`run_bind_of_error`, `run_bind_of_fault`).
-/

namespace SegregatedFit

structure Heap where
  provider : Provider
  config : Config
  index : FreeIndex
  /-- Offset of the payload of the prologue block. -/
  start : Nat
  stats : Stats

namespace Heap

def arena (h : Heap) : Arena := h.provider.arena

def pool (h : Heap) : Pool := ⟨h.provider.arena, h.index⟩

def size (h : Heap) : Nat := h.provider.arena.size

/-- Offset of the first block's payload. -/
def firstBlock (h : Heap) : Nat := h.start + 2 * wordSize

/-- The blocks between the prologue and the end of the arena. -/
def walk (h : Heap) : Walk := h.arena.walk h.firstBlock

def blocks (h : Heap) : Except Fault (List Block) := h.walk.complete

def freeBytes (h : Heap) : Except Fault Nat := do
  let blocks ← h.blocks
  pure (Block.totalSize (blocks.filter fun b => !b.allocated))

/-- The address of an offset. -/
def address (h : Heap) (bp : Nat) : Nat := h.arena.base + bp

/-- The offset of an address that lies among the blocks. -/
def offsetOf (h : Heap) (address : Nat) : Fallible Nat :=
  if h.address h.firstBlock ≤ address ∧ address < h.address h.size then
    pure (address - h.arena.base)
  else
    throw (.foreignPointer address)

/-- Bytes that the holder of a pointer may use, 0 for the null pointer. -/
def usableSize (h : Heap) : Option Nat → Fallible Nat
  | none => pure 0
  | some address => do
    let bp ← h.offsetOf address
    let tag ← h.arena.header bp
    Word.sub tag.size wordSize

/-- The holder of a pointer writes `f 0`, `f 1`, … to `n` bytes from an offset on. What would fall
outside the arena is lost. -/
def fill (h : Heap) (bp n : Nat) (f : Nat → UInt8) : Heap :=
  { h with provider := { h.provider with arena := h.provider.arena.fillClipped bp n f } }

end Heap

/-- What an operation leaves behind. -/
structure Outcome (α : Type) where
  result : Except Error α
  heap : Heap
  /-- In the order in which they were reported. -/
  events : List Event

/-- The outcome as seen by someone who has received `earlier` already. -/
def Outcome.after {α : Type} (earlier : List Event) (o : Outcome α) : Outcome α :=
  { o with events := earlier ++ o.events }

def HeapM (α : Type) : Type := Heap → Except Fault (Outcome α)

namespace HeapM

variable {α β : Type}

def run (x : HeapM α) (h : Heap) : Except Fault (Outcome α) := x h

protected def pure (a : α) : HeapM α := fun h => .ok ⟨.ok a, h, []⟩

/-- Goes on with `f` unless `x` stops. -/
protected def bind (x : HeapM α) (f : α → HeapM β) : HeapM β := fun h =>
  match x h with
  | .error fault => .error fault
  | .ok ⟨.error e, h, events⟩ => .ok ⟨.error e, h, events⟩
  | .ok ⟨.ok a, h, events⟩ => (f a h).map (·.after events)

instance : Monad HeapM where
  pure := HeapM.pure
  bind := HeapM.bind

/-- Stops with an error. -/
protected def throw (e : Error) : HeapM α := fun h => .ok ⟨.error e, h, []⟩

/-- Goes on with `f` where `x` stops with an error. -/
protected def tryCatch (x : HeapM α) (f : Error → HeapM α) : HeapM α := fun h =>
  match x h with
  | .error fault => .error fault
  | .ok ⟨.ok a, h, events⟩ => .ok ⟨.ok a, h, events⟩
  | .ok ⟨.error e, h, events⟩ => (f e h).map (·.after events)

instance : MonadExcept Error HeapM where
  throw := HeapM.throw
  tryCatch := HeapM.tryCatch

/-- Reads the heap. -/
def ask (f : Heap → Fallible α) : HeapM α := fun h =>
  match (f h).run with
  | .error fault => .error fault
  | .ok result => .ok ⟨result, h, []⟩

/-- A computation that does not touch the heap. -/
def ofChecked (x : Except Fault α) : HeapM α := fun h =>
  match x with
  | .error fault => .error fault
  | .ok a => .ok ⟨.ok a, h, []⟩

instance : MonadLift (Except Fault) HeapM := ⟨ofChecked⟩

def emit (e : Event) : HeapM Unit := fun h => .ok ⟨.ok (), h, [e]⟩

/-- Changes blocks and chains. -/
def updatePool (f : Pool → Except Fault (α × Pool)) : HeapM α
  | ⟨⟨arena, source⟩, config, index, start, stats⟩ =>
    match f ⟨arena, index⟩ with
    | .error fault => .error fault
    | .ok (a, ⟨arena, index⟩) => .ok ⟨.ok a, ⟨⟨arena, source⟩, config, index, start, stats⟩, []⟩

/-- Changes bytes. -/
def updateArena (f : Arena → Except Fault Arena) : HeapM Unit :=
  updatePool fun ⟨a, x⟩ => do
    let a ← f a
    pure ((), ⟨a, x⟩)

def updateStats (f : Stats → Except Fault Stats) : HeapM Unit := fun h =>
  match f h.stats with
  | .error fault => .error fault
  | .ok stats => .ok ⟨.ok (), { h with stats }, []⟩

/-- Asks the provider for `n` bytes; the result is the offset of the first. -/
def grow (n : Nat) : HeapM Nat
  | ⟨provider, config, index, start, stats⟩ =>
    match provider.grow n with
    | (provider, result) => .ok ⟨result, ⟨provider, config, index, start, stats⟩, []⟩

def header (bp : Nat) : HeapM Tag :=
  ask fun h => h.arena.header bp

def offsetOf (address : Nat) : HeapM Nat :=
  ask fun h => h.offsetOf address

/-! ### Sequencing -/

variable {x : HeapM α} {f : α → HeapM β} {h h' : Heap} {a : α} {e : Error} {events : List Event}

theorem run_bind_of_ok (hx : x.run h = .ok ⟨.ok a, h', events⟩) :
    (x >>= f).run h = ((f a).run h').map (·.after events) := by
  show HeapM.bind x f h = _
  rw [HeapM.bind, show x h = _ from hx]
  rfl

theorem run_bind_of_error (hx : x.run h = .ok ⟨.error e, h', events⟩) :
    (x >>= f).run h = .ok ⟨.error e, h', events⟩ := by
  show HeapM.bind x f h = _
  rw [HeapM.bind, show x h = _ from hx]

theorem run_bind_of_fault {fault : Fault} (hx : x.run h = .error fault) :
    (x >>= f).run h = .error fault := by
  show HeapM.bind x f h = _
  rw [HeapM.bind, show x h = _ from hx]

end HeapM

end SegregatedFit
