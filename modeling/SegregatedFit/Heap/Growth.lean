import SegregatedFit.Heap.Basic

/-!
# Growing and laying out a heap

`extend` asks the provider for more bytes, at least a block's worth, and makes a free block of
them. `Heap.create` lays a heap out behind the bytes that its provider has already, and
`Heap.new` reserves the provider as well.
-/

namespace SegregatedFit

namespace HeapM

/-- Reports a merge and gives the offset of the block that came out of it. -/
def reportMerge (m : Merge) : HeapM Nat := do
  emit (.coalesced m.offset m.size m.withPrev m.withNext)
  pure m.offset

/-- Bytes to ask for where `bytes` are needed. -/
def growthSize (bytes : Nat) : HeapM Nat :=
  match alignUp? bytes with
  | none => throw .sizeOverflow
  | some n => pure (max n minBlockSize)

/-- Grows the arena and gives the free block that now ends it. -/
def extend (bytes : Nat) : HeapM Nat := do
  let size ← growthSize bytes
  let bp ← tryCatch (grow size) fun e => do
    emit (.extensionFailed size e)
    throw e
  updateStats (·.recordExtension)
  let merge ← updatePool (·.adopt bp size)
  let bp ← reportMerge merge
  let heapSize ← ask fun h => pure h.size
  emit (.extended size heapSize)
  pure bp

/-- Writes padding word, prologue and end marker into the last four words of the arena, which start
at `bp`. -/
def writePrologue (bp : Nat) : HeapM Unit := do
  updateArena fun a => do
    let a ← a.writeWord bp 0
    let a ← a.writeWord (bp + wordSize) Tag.prologue.pack
    let a ← a.writeWord (bp + 2 * wordSize) Tag.prologue.pack
    a.writeWord (bp + 3 * wordSize) (Tag.epilogue true).pack
  fun h => .ok ⟨.ok (), { h with start := bp + 2 * wordSize }, []⟩

/-- Bytes that are missing to the next multiple of the alignment. -/
def paddingFor (used : Nat) : Nat :=
  ceilAligned used - used

/-- Lays out a heap behind the bytes that are in use already, with one chunk to start with. -/
def layOut : HeapM Unit := do
  let config ← ask fun h => pure h.config
  ask fun _ => config.validate
  let used ← ask fun h => pure h.size
  if 0 < paddingFor used then
    let _ ← grow (paddingFor used)
  let bp ← grow prologueSize
  writePrologue bp
  let _ ← extend config.chunkSize
  let heapSize ← ask fun h => pure h.size
  emit (.initialised heapSize)

end HeapM

namespace Heap

/-- What came of creating a heap, and what was reported meanwhile. -/
structure Creation where
  result : Except Error Heap
  events : List Event

/-- A heap over `provider`, in the bytes that it has not given out yet. -/
def create (provider : Provider) (config : Config) : Except Fault Creation :=
  match HeapM.layOut.run ⟨provider, config, .empty, 0, {}⟩ with
  | .error fault => .error fault
  | .ok ⟨.ok (), h, events⟩ => .ok ⟨.ok h, events⟩
  | .ok ⟨.error e, _, events⟩ => .ok ⟨.error e, events⟩

/-- Reserves a buffer for an arena at `base`. -/
def reserve (base : Nat) (h : alignment ∣ base) (capacity : Nat) (host : Host := .ample) :
    Except Error Provider × List Event :=
  match Provider.reserve base h capacity host with
  | .error e => (.error e, [])
  | .ok provider => (.ok provider, [.bufferReserved (Provider.bufferCapacity capacity)])

/-- A heap over a buffer of its own at `base`. -/
def new (base : Nat) (h : alignment ∣ base) (config : Config) (host : Host := .ample) :
    Except Fault Creation :=
  match config.validate.run with
  | .error fault => .error fault
  | .ok (.error e) => .ok ⟨.error e, []⟩
  | .ok (.ok ()) =>
    match reserve base h config.maxHeap host with
    | (.error e, events) => .ok ⟨.error e, events⟩
    | (.ok provider, events) =>
      match create provider config with
      | .error fault => .error fault
      | .ok c => .ok ⟨c.result, events ++ c.events⟩

end Heap

end SegregatedFit
