import SegregatedFit.Heap.Reallocate
import SegregatedFit.Proofs.Reading
import SegregatedFit.Proofs.Rounding

/-!
# Outlines of heaps

An `Outline` is all that a heap holds except for its bytes: the map in place of headers and links,
the source, the configuration and exact statistics. The operations on heaps are repeated on
outlines, where nothing can fault and pointers are not checked. `Outline.Valid` is the invariant
that ties map, statistics and source together.
-/

namespace SegregatedFit

/-! ### Exact counters -/

namespace Stats

def allocated (s : Stats) (size : Nat) : Stats :=
  { s with allocs := s.allocs + 1, liveBytes := s.liveBytes + size }.updatePeak

def freed (s : Stats) (size : Nat) : Stats :=
  { s with frees := s.frees + 1, liveBytes := s.liveBytes - size }

def reallocated (s : Stats) : Stats := { s with reallocs := s.reallocs + 1 }

def keptInPlace (s : Stats) : Stats := { s with inPlaceReallocs := s.inPlaceReallocs + 1 }

def extended (s : Stats) : Stats := { s with heapExtensions := s.heapExtensions + 1 }

def shrunk (s : Stats) (bytes : Nat) : Stats := { s with liveBytes := s.liveBytes - bytes }

def grown (s : Stats) (bytes : Nat) : Stats :=
  { s with liveBytes := s.liveBytes + bytes }.updatePeak

variable {s : Stats} {n : Nat}

theorem recordAllocation_eq (h1 : s.allocs + 1 < Word.limit)
    (h2 : (s.allocated n).liveBytes < Word.limit) : s.recordAllocation n = .ok (s.allocated n) := by
  rw [recordAllocation, Word.add_of_lt h1, ok_bind, Word.add_of_lt h2]; rfl

theorem recordAllocation_of_le (h : Word.limit ≤ s.allocs + 1) :
    s.recordAllocation n = .error .overflow := by
  rw [recordAllocation, Word.add, if_neg (Nat.not_lt.2 h)]; rfl

theorem recordFree_eq (h1 : s.frees + 1 < Word.limit) (h2 : n ≤ s.liveBytes) :
    s.recordFree n = .ok (s.freed n) := by
  rw [recordFree, Word.add_of_lt h1, ok_bind, Word.sub_of_le h2]; rfl

theorem recordReallocation_eq (h : s.reallocs + 1 < Word.limit) :
    s.recordReallocation = .ok s.reallocated := by
  rw [recordReallocation, Word.add_of_lt h]; rfl

theorem recordReallocation_of_le (h : Word.limit ≤ s.reallocs + 1) :
    s.recordReallocation = .error .overflow := by
  rw [recordReallocation, Word.add, if_neg (Nat.not_lt.2 h)]; rfl

theorem recordInPlace_eq (h : s.inPlaceReallocs + 1 < Word.limit) :
    s.recordInPlace = .ok s.keptInPlace := by
  rw [recordInPlace, Word.add_of_lt h]; rfl

theorem recordExtension_eq (h : s.heapExtensions + 1 < Word.limit) :
    s.recordExtension = .ok s.extended := by
  rw [recordExtension, Word.add_of_lt h]; rfl

theorem recordShrink_eq (h : n ≤ s.liveBytes) : s.recordShrink n = .ok (s.shrunk n) := by
  rw [recordShrink, Word.sub_of_le h]; rfl

theorem recordGrowth_eq (h : (s.grown n).liveBytes < Word.limit) :
    s.recordGrowth n = .ok (s.grown n) := by
  rw [recordGrowth, Word.add_of_lt h]; rfl

end Stats

/-! ### Sources -/

/-- Only the heap itself judges pointers. -/
def Error.Foreign : Error → Prop
  | foreignPointer _ => True
  | _ => False

/-- A source of an arena at `base` gives out no byte whose address is no word, and refuses for
reasons of its own. -/
def Source.Sound (base : Nat) : Source → Prop
  | buffer capacity => base + capacity < Word.limit
  | dataSegment .. => True
  | metered refuse _ _ inner => (∀ k, ∀ e ∈ refuse k, ¬e.Foreign) ∧ inner.Sound base

namespace Source

variable {source : Source} {base size n : Nat}

theorem Sound.request (h : source.Sound base) (size n : Nat) :
    (source.request base size n).1.Sound base := by
  induction source with
  | buffer capacity => exact h
  | dataSegment host tries stop =>
    obtain ⟨-, hr⟩ | ⟨_, -, -, hr⟩ | ⟨-, -, hr⟩ := request_dataSegment host tries stop base size n <;>
      rw [hr] <;> trivial
  | metered refuse requests granted inner ih =>
    have ih := ih h.2
    unfold Source.request
    split
    · exact h
    · split <;> next hr => rw [hr] at ih; exact ⟨h.1, ih⟩

theorem Sound.granted (h : source.Sound base) (hs : base + size < Word.limit)
    (hr : (source.request base size n).2 = .ok ()) : base + (size + n) < Word.limit := by
  induction source with
  | buffer capacity =>
    replace h : base + capacity < Word.limit := h
    simp only [Source.request] at hr
    split at hr
    · omega
    · cases hr
  | dataSegment host tries stop =>
    obtain ⟨-, h⟩ | ⟨_, -, -, h⟩ | ⟨-, hgranted, h⟩ :=
      request_dataSegment host tries stop base size n <;> rw [h] at hr
    · cases hr
    · cases hr
    · have hlt := host.addressable hgranted
      split_ifs at hr with hstop
      omega
  | metered refuse requests granted inner ih =>
    unfold Source.request at hr
    split at hr
    · cases hr
    · split at hr
      · next hi => exact ih h.2 (by rw [hi])
      · cases hr

theorem Sound.refused {e : Error} (h : source.Sound base)
    (hr : (source.request base size n).2 = .error e) : ¬e.Foreign := by
  induction source with
  | buffer capacity =>
    simp only [Source.request] at hr
    split at hr <;> cases hr
    exact id
  | dataSegment host tries stop =>
    obtain ⟨-, h⟩ | ⟨_, -, -, h⟩ | ⟨-, -, h⟩ :=
      request_dataSegment host tries stop base size n <;> rw [h] at hr
    · cases hr; exact id
    · cases hr; exact id
    · split_ifs at hr
      cases hr; exact id
  | metered refuse requests granted inner ih =>
    unfold Source.request at hr
    split at hr
    · next e' he => cases hr; exact h.1 _ _ he
    · split at hr
      · cases hr
      · next hi => cases hr; exact ih h.2 (by rw [hi])

end Source

/-! ### Outlines -/

structure Outline where
  map : MemoryMap
  base : Nat
  source : Source
  config : Config
  stats : Stats

namespace Outline

/-- Map, statistics and source fit together. -/
structure Valid (o : Outline) : Prop where
  map : o.map.Valid
  addressable : o.base + o.map.stop < Word.limit
  source : o.source.Sound o.base
  live : o.stats.liveBytes = Block.totalSize o.map.live
  count : o.stats.frees + o.map.live.length = o.stats.allocs
  allocs_lt : o.stats.allocs < Word.limit
  reallocs_lt : o.stats.reallocs < Word.limit
  inPlace : o.stats.inPlaceReallocs ≤ o.stats.reallocs
  extensions : 32 * o.stats.heapExtensions ≤ o.map.stop

/-- Takes bytes from the source for a free block of at least `bytes` bytes. -/
def extend (o : Outline) (bytes : Nat) : Except Error Nat × Outline :=
  match alignUp? bytes with
  | none => (.error .sizeOverflow, o)
  | some n =>
    match o.source.request o.base o.map.stop (max n minBlockSize) with
    | (source, .error e) => (.error e, { o with source })
    | (source, .ok ()) =>
      (.ok (o.map.added (max n minBlockSize)).joinPrev.offset,
        { o with source, map := o.map.grow (max n minBlockSize), stats := o.stats.extended })

/-- A free block of at least `need` bytes. -/
def findOrExtend (o : Outline) (need : Nat) : Except Error Nat × Outline :=
  match o.map.firstFit need with
  | some bp => (.ok bp, o)
  | none => o.extend (max need o.config.chunkSize)

/-- The free block at `bp` is allocated. -/
def place (o : Outline) (bp need : Nat) : Outline :=
  { o with
    map := o.map.place bp need
    stats := o.stats.allocated ((o.map.gapAt bp).placed need) }

def allocate (o : Outline) (size : Nat) : Except Error Nat × Outline :=
  if size = 0 then (.error .zeroSize, o)
  else
    match blockSize? size with
    | none => (.error .sizeOverflow, o)
    | some need =>
      match o.findOrExtend need with
      | (.error e, o) => (.error e, o)
      | (.ok bp, o) => (.ok (o.base + bp), o.place bp need)

def allocateZeroed (o : Outline) (count size : Nat) : Except Error Nat × Outline :=
  if Word.limit ≤ count * size then (.error .sizeOverflow, o) else o.allocate (count * size)

/-- The allocated block at `bp` becomes free. -/
def release (o : Outline) (bp : Nat) : Outline :=
  { o with map := o.map.release bp, stats := o.stats.freed (o.map.gapAt bp).size }

def free (o : Outline) : Option Nat → Outline
  | none => o
  | some address => o.release (address - o.base)

/-- The allocated block at `bp` gives up its tail. -/
def trim (o : Outline) (bp need : Nat) : Outline :=
  let g := o.map.gapAt bp
  { o with map := o.map.trim bp need, stats := o.stats.shrunk (g.size - g.placed need) }

/-- The allocated block at `bp` takes in the free block after it. -/
def absorb (o : Outline) (bp need : Nat) : Outline :=
  let g := o.map.gapAt bp
  { o with
    map := o.map.absorb bp need
    stats := o.stats.grown (g.joinNext.placed need - g.size) }

/-- Extends the block at `bp` to `need` bytes, if what is behind it allows that. -/
def growInPlace (o : Outline) (bp need : Nat) : Except Error Bool × Outline :=
  let g := (o.map.gapAt bp).joinNext
  if need ≤ g.size then (.ok true, o.absorb bp need)
  else if g.after.isEmpty then
    match o.extend (max (need - g.size) o.config.chunkSize) with
    | (.error e, o) => (.error e, o)
    | (.ok _, o) => (.ok true, o.absorb bp need)
  else (.ok false, o)

/-- A new block for `size` bytes in place of the one at `bp`. -/
def move (o : Outline) (bp size : Nat) : Except Error Nat × Outline :=
  match o.allocate size with
  | (.error e, o) => (.error e, o)
  | (.ok address, o) => (.ok address, o.release bp)

def countReallocation (o : Outline) : Outline := { o with stats := o.stats.reallocated }

def countInPlace (o : Outline) : Outline := { o with stats := o.stats.keptInPlace }

/-- Another size for the block at `bp`. -/
def resize (o : Outline) (bp size : Nat) : Except Error Nat × Outline :=
  match blockSize? size with
  | none => (.error .sizeOverflow, o)
  | some need =>
    if need ≤ (o.map.gapAt bp).size then
      (.ok (o.base + bp), (o.countReallocation.trim bp need).countInPlace)
    else
      match o.countReallocation.growInPlace bp need with
      | (.error e, o') => (.error e, o')
      | (.ok true, o') => (.ok (o.base + bp), o'.countInPlace)
      | (.ok false, o') => o'.move bp size

def reallocate (o : Outline) (address : Option Nat) (size : Nat) :
    Except Error (Option Nat) × Outline :=
  match address with
  | none => ((o.allocate size).1.map some, (o.allocate size).2)
  | some address =>
    if size = 0 then (.ok none, o.free (some address))
    else ((o.resize (address - o.base) size).1.map some, (o.resize (address - o.base) size).2)

/-! ### The invariant -/

variable {o : Outline} {b : Block} {bytes size need n bp : Nat}

theorem Valid.liveBytes_lt (hv : o.Valid) : o.stats.liveBytes < Word.limit := by
  have h1 := Block.totalSize_filter_le (·.allocated) o.map.blocks
  have h2 := hv.addressable
  unfold MemoryMap.stop at h2
  rw [hv.live, MemoryMap.live, Block.live]
  omega

/-- `o'` is `o` with another source, and perhaps with more free bytes. -/
structure Extends (o o' : Outline) : Prop where
  base : o'.base = o.base
  config : o'.config = o.config
  first : o'.map.first = o.map.first
  stop : o.map.stop ≤ o'.map.stop
  live : o'.map.live = o.map.live
  stats : ∃ k, o'.stats = { o.stats with heapExtensions := k }

theorem Extends.refl (o : Outline) : Extends o o :=
  ⟨rfl, rfl, rfl, Nat.le_refl _, rfl, _, rfl⟩

theorem Extends.kept {o o' : Outline} (h : Extends o o') {i : Nat} :
    o'.map.Kept i ↔ o.map.Kept i :=
  MemoryMap.kept_congr h.first (by rw [h.live])

theorem extend_cases (o : Outline) (bytes : Nat) :
    (∃ e source, o.extend bytes = (.error e, { o with source }) ∧
      (source = o.source ∨ ∃ n, source = (o.source.request o.base o.map.stop n).1)) ∨
    ∃ n source, 32 ≤ n ∧ 16 ∣ n ∧ bytes ≤ n ∧
      o.source.request o.base o.map.stop n = (source, .ok ()) ∧
      o.extend bytes = (.ok (o.map.added n).joinPrev.offset,
        { o with source, map := o.map.grow n, stats := o.stats.extended }) := by
  unfold extend
  rcases h : alignUp? bytes with _ | k
  · exact .inl ⟨_, o.source, rfl, .inl rfl⟩
  obtain ⟨hk, hle⟩ := alignUp?_spec h
  rcases hr : o.source.request o.base o.map.stop (max k minBlockSize) with ⟨source, e | ⟨⟩⟩
  · refine .inl ⟨e, source, ?_, .inr ⟨max k minBlockSize, by rw [hr]⟩⟩
    simp only [hr]
  · refine .inr ⟨max k minBlockSize, source, Nat.le_max_right .., dvd_max_minBlockSize hk,
      Nat.le_trans hle (Nat.le_max_left ..), hr, ?_⟩
    simp only [hr]

theorem extends_extend (hv : o.map.Valid) (bytes : Nat) : Extends o (o.extend bytes).2 := by
  rcases o.extend_cases bytes with ⟨e, source, h, -⟩ | ⟨n, source, h32, h16, -, -, h⟩ <;> rw [h]
  · exact ⟨rfl, rfl, rfl, Nat.le_refl _, rfl, _, rfl⟩
  · exact ⟨rfl, rfl, MemoryMap.first_grow, by rw [hv.stop_grow h32 h16]; exact Nat.le_add_right ..,
      MemoryMap.live_grow, _, rfl⟩

theorem Valid.extend (hv : o.Valid) (bytes : Nat) : (o.extend bytes).2.Valid := by
  rcases o.extend_cases bytes with ⟨e, source, h, hs⟩ | ⟨n, source, h32, h16, -, hr, h⟩ <;> rw [h]
  · refine { hv with source := ?_ }
    rcases hs with rfl | ⟨n, rfl⟩
    · exact hv.source
    · exact hv.source.request ..
  · have hstop := hv.map.stop_grow h32 h16
    refine ⟨hv.map.grow h32 h16, ?_, ?_, ?_, ?_, hv.allocs_lt, hv.reallocs_lt, hv.inPlace, ?_⟩
    · show o.base + (o.map.grow n).stop < _
      rw [hstop]
      exact hv.source.granted hv.addressable (by rw [hr])
    · have := hv.source.request o.map.stop n
      rwa [hr] at this
    · show o.stats.liveBytes = _
      rw [MemoryMap.live_grow]; exact hv.live
    · show o.stats.frees + _ = _
      rw [MemoryMap.live_grow]; exact hv.count
    · have := hv.extensions
      show 32 * (o.stats.heapExtensions + 1) ≤ (o.map.grow n).stop
      rw [hstop]; omega

/-- What `extend` gives is a free block, and large enough. -/
theorem mem_of_extend (h : (o.extend bytes).1 = .ok bp) :
    ∃ b ∈ (o.extend bytes).2.map.blocks, b.allocated = false ∧ b.offset = bp ∧ bytes ≤ b.size := by
  rcases o.extend_cases bytes with ⟨e, source, hx, -⟩ | ⟨n, source, h32, h16, hle, -, hx⟩ <;>
    rw [hx] at h ⊢
  · cases h
  · cases h
    obtain ⟨hm, hn⟩ := MemoryMap.mem_grow (m := o.map) (n := n)
    exact ⟨_, hm, rfl, rfl, Nat.le_trans hle hn⟩

/-! ### Finding a block -/

theorem extends_findOrExtend (hv : o.map.Valid) (need : Nat) :
    Extends o (o.findOrExtend need).2 := by
  unfold findOrExtend
  split
  · exact .refl o
  · exact extends_extend hv _

theorem map_extend_valid (hv : o.map.Valid) (bytes : Nat) : (o.extend bytes).2.map.Valid := by
  rcases o.extend_cases bytes with ⟨e, source, h, -⟩ | ⟨n, source, h32, h16, -, -, h⟩ <;> rw [h]
  · exact hv
  · exact hv.grow h32 h16

theorem map_findOrExtend_valid (hv : o.map.Valid) (need : Nat) :
    (o.findOrExtend need).2.map.Valid := by
  unfold findOrExtend
  split
  · exact hv
  · exact map_extend_valid hv _

theorem mem_of_findOrExtend (hv : o.map.Valid) (h : (o.findOrExtend need).1 = .ok bp) :
    ∃ b ∈ (o.findOrExtend need).2.map.blocks, b.allocated = false ∧ b.offset = bp ∧
      need ≤ b.size := by
  rw [Outline.findOrExtend] at h ⊢
  split at h
  · next x hx =>
    cases h
    exact hv.mem_of_firstFit hx
  · obtain ⟨b, hb, hf, ho, hs⟩ := mem_of_extend h
    exact ⟨b, hb, hf, ho, Nat.le_trans (Nat.le_max_left ..) hs⟩

/-- An allocation fails before anything is placed, or places a block. -/
theorem allocate_cases (hv : o.map.Valid) (size : Nat) :
    (∃ e o', o.allocate size = (.error e, o') ∧ Extends o o' ∧ o'.map.Valid) ∨
    ∃ need o' b, blockSize? size = some need ∧ o.findOrExtend need = (.ok b.offset, o') ∧
      o.allocate size = (.ok (o.base + b.offset), o'.place b.offset need) ∧
      Extends o o' ∧ o'.map.Valid ∧ b ∈ o'.map.blocks ∧ b.allocated = false ∧ need ≤ b.size := by
  unfold allocate
  split
  · exact .inl ⟨_, o, rfl, .refl o, hv⟩
  rcases hn : blockSize? size with _ | need
  · exact .inl ⟨_, o, rfl, .refl o, hv⟩
  have hx := extends_findOrExtend hv need
  have hv' := map_findOrExtend_valid hv need
  have hm := fun bp (h : (o.findOrExtend need).1 = .ok bp) => mem_of_findOrExtend hv h
  rcases hf : o.findOrExtend need with ⟨e | bp, o'⟩ <;> rw [hf] at hx hv' hm <;> simp only [hf]
  · exact .inl ⟨e, o', rfl, hx, hv'⟩
  · obtain ⟨b, hb, hbf, rfl, hs⟩ := hm bp rfl
    refine .inr ⟨need, o', b, rfl, hf, ?_, hx, hv', hb, hbf, hs⟩
    rw [show o'.base = o.base from hx.base]

/-! ### Placing and releasing -/

theorem Valid.place (hv : o.Valid) (hb : b ∈ o.map.blocks) (hf : b.allocated = false)
    (hn : 32 ≤ need) (hn' : 16 ∣ need) (hs : need ≤ b.size)
    (hlt : o.stats.allocs + 1 < Word.limit) : (o.place b.offset need).Valid := by
  have hstop := hv.map.stop_place hb hn hn' hs
  have hlive := hv.map.live_place (n := need) hb hf
  refine ⟨hv.map.place hb hf hn hn', ?_, hv.source, ?_, ?_, hlt, hv.reallocs_lt, hv.inPlace, ?_⟩
  · rw [Outline.place, hstop]; exact hv.addressable
  · show o.stats.liveBytes + _ = Block.totalSize (o.map.place b.offset need).live
    rw [Block.totalSize_perm hlive, Block.totalSize, hv.live, Nat.add_comm]
  · show o.stats.frees + (o.map.place b.offset need).live.length = o.stats.allocs + 1
    rw [hlive.length_eq, List.length_cons, ← hv.count]; rfl
  · rw [Outline.place, hstop]; exact hv.extensions

theorem Valid.release (hv : o.Valid) (hb : b ∈ o.map.blocks) (ha : b.allocated = true) :
    (o.release b.offset).Valid := by
  have hstop := hv.map.stop_release hb
  have hlive := hv.map.live_release hb ha
  refine ⟨hv.map.release hb, ?_, hv.source, ?_, ?_, hv.allocs_lt, hv.reallocs_lt, hv.inPlace, ?_⟩
  · rw [Outline.release, hstop]; exact hv.addressable
  · show o.stats.liveBytes - _ = Block.totalSize (o.map.release b.offset).live
    rw [hv.live, Block.totalSize_perm hlive, Block.totalSize, hv.map.gapAt_size hb]
    exact Nat.add_sub_cancel_left ..
  · have := hv.count
    rw [hlive.length_eq, List.length_cons] at this
    show o.stats.frees + 1 + (o.map.release b.offset).live.length = o.stats.allocs
    omega
  · rw [Outline.release, hstop]; exact hv.extensions

theorem Valid.trim (hv : o.Valid) (hb : b ∈ o.map.blocks) (ha : b.allocated = true)
    (hn : 32 ≤ need) (hn' : 16 ∣ need) (hs : need ≤ b.size) : (o.trim b.offset need).Valid := by
  have hstop := hv.map.stop_trim hb hn hn'
  have hlive := hv.map.live_trim (n := need) hb ha
  have hgap := hv.map.live_gapAt hb ha
  have hz := hv.map.gapAt_size hb
  have hp := Gap.le_placed (g := o.map.gapAt b.offset) (n := need) (by omega)
  refine ⟨hv.map.trim hb hn hn', ?_, hv.source, ?_, ?_, hv.allocs_lt, hv.reallocs_lt, hv.inPlace,
    ?_⟩
  · rw [Outline.trim, hstop]; exact hv.addressable
  · show o.stats.liveBytes - _ = Block.totalSize (o.map.trim b.offset need).live
    rw [hv.live, Block.totalSize_perm hlive, Block.totalSize_perm hgap, Block.totalSize,
      Block.totalSize]
    simp only; omega
  · show o.stats.frees + (o.map.trim b.offset need).live.length = o.stats.allocs
    rw [hlive.length_eq, ← hv.count, hgap.length_eq]; rfl
  · rw [Outline.trim, hstop]; exact hv.extensions

theorem Valid.absorb (hv : o.Valid) (hb : b ∈ o.map.blocks) (ha : b.allocated = true)
    (hn' : 16 ∣ need) (hle : b.size ≤ need) (hs : need ≤ (o.map.gapAt b.offset).joinNext.size) :
    (o.absorb b.offset need).Valid := by
  have hn : 32 ≤ need := by have := (hv.map.tiles.bounds hb).2.2.1; omega
  have hstop := hv.map.stop_absorb hb hn hn' hs
  have hlive := hv.map.live_absorb (n := need) hb
  have hgap := hv.map.live_gapAt hb ha
  have hz := hv.map.gapAt_size hb
  have hp := Gap.le_placed hs
  refine ⟨hv.map.absorb hb hn hn', ?_, hv.source, ?_, ?_, hv.allocs_lt, hv.reallocs_lt, hv.inPlace,
    ?_⟩
  · rw [Outline.absorb, hstop]; exact hv.addressable
  · show o.stats.liveBytes + _ = Block.totalSize (o.map.absorb b.offset need).live
    rw [hv.live, Block.totalSize_perm hlive, Block.totalSize_perm hgap, Block.totalSize,
      Block.totalSize]
    simp only; omega
  · show o.stats.frees + (o.map.absorb b.offset need).live.length = o.stats.allocs
    rw [hlive.length_eq, ← hv.count, hgap.length_eq]; rfl
  · rw [Outline.absorb, hstop]; exact hv.extensions

theorem Valid.countReallocation (hv : o.Valid) (hlt : o.stats.reallocs + 1 < Word.limit) :
    o.countReallocation.Valid :=
  { hv with reallocs_lt := hlt, inPlace := Nat.le_succ_of_le hv.inPlace }

theorem Valid.countInPlace (hv : o.Valid) (hlt : o.stats.inPlaceReallocs < o.stats.reallocs) :
    o.countInPlace.Valid :=
  { hv with inPlace := hlt }

theorem Extends.mem_blocks {o' : Outline} (hx : Extends o o') (hb : b ∈ o.map.blocks)
    (ha : b.allocated = true) : b ∈ o'.map.blocks := by
  have : b ∈ o'.map.live := by rw [hx.live]; exact Block.mem_live.2 ⟨hb, ha⟩
  exact (Block.mem_live.1 this).1

/-- New bytes behind an allocated block are there for it. -/
theorem le_joinNext_of_extend (hv : o.map.Valid) (hb : b ∈ o.map.blocks) (ha : b.allocated = true)
    (hempty : (o.map.gapAt b.offset).joinNext.after = [])
    (hn : need - (o.map.gapAt b.offset).joinNext.size ≤ n) (h : (o.extend n).1 = .ok bp) :
    need ≤ ((o.extend n).2.map.gapAt b.offset).joinNext.size := by
  rcases o.extend_cases n with ⟨e, source, hx, -⟩ | ⟨k, source, h32, h16, hle, -, hx⟩ <;>
    rw [hx] at h ⊢
  · cases h
  · have := (hv.grow_behind hb ha h32 h16 hempty).2.2
    simp only; omega

/-- A growth in place fails before anything is taken, gives up, or takes what it needs. -/
theorem growInPlace_cases (hv : o.map.Valid) (hb : b ∈ o.map.blocks) (ha : b.allocated = true)
    (need : Nat) :
    (∃ e o', o.growInPlace b.offset need = (.error e, o') ∧ Extends o o') ∨
    o.growInPlace b.offset need = (.ok false, o) ∨
    ∃ o', o.growInPlace b.offset need = (.ok true, o'.absorb b.offset need) ∧ Extends o o' ∧
      o'.map.Valid ∧ need ≤ (o'.map.gapAt b.offset).joinNext.size := by
  unfold growInPlace
  by_cases hfit : need ≤ (o.map.gapAt b.offset).joinNext.size
  · rw [if_pos hfit]
    exact .inr (.inr ⟨o, rfl, .refl o, hv, hfit⟩)
  rw [if_neg hfit]
  rcases hempty : (o.map.gapAt b.offset).joinNext.after with _ | ⟨c, cs⟩
  · have hn := Nat.le_max_left (need - (o.map.gapAt b.offset).joinNext.size) o.config.chunkSize
    generalize max (need - (o.map.gapAt b.offset).joinNext.size) o.config.chunkSize = n at hn ⊢
    have hx := extends_extend hv n
    have hv' := map_extend_valid hv n
    have hle := fun bp (h : (o.extend n).1 = .ok bp) =>
      le_joinNext_of_extend hv hb ha hempty hn h
    rcases h : o.extend n with ⟨e | bp, o'⟩ <;> rw [h] at hx hv' hle <;>
      simp only [List.isEmpty_nil, if_true]
    · exact .inl ⟨e, o', rfl, hx⟩
    · exact .inr (.inr ⟨o', rfl, hx, hv', hle bp rfl⟩)
  · exact .inr (.inl rfl)

/-! ### Errors -/

variable {e : Error}

theorem error_of_extend (hs : o.source.Sound o.base) (h : (o.extend bytes).1 = .error e) :
    ¬e.Foreign := by
  unfold extend at h
  rcases hk : alignUp? bytes with _ | k <;> simp only [hk] at h
  · cases h; exact id
  have hr := fun e (he : (o.source.request o.base o.map.stop (max k minBlockSize)).2 = .error e) =>
    hs.refused he
  rcases hq : o.source.request o.base o.map.stop (max k minBlockSize) with ⟨source, e' | ⟨⟩⟩ <;>
    simp only [hq] at h hr <;> cases h
  exact hr e rfl

theorem error_of_findOrExtend (hs : o.source.Sound o.base)
    (h : (o.findOrExtend need).1 = .error e) : ¬e.Foreign := by
  unfold findOrExtend at h
  split at h
  · cases h
  · exact error_of_extend hs h

theorem error_of_allocate (hs : o.source.Sound o.base) (h : (o.allocate size).1 = .error e) :
    ¬e.Foreign := by
  unfold allocate at h
  split at h
  · cases h; exact id
  rcases hn : blockSize? size with _ | need <;> simp only [hn] at h
  · cases h; exact id
  have hf := fun e (he : (o.findOrExtend need).1 = .error e) => error_of_findOrExtend hs he
  rcases hx : o.findOrExtend need with ⟨e' | bp, o'⟩ <;> simp only [hx] at h hf <;> cases h
  exact hf e rfl

theorem error_of_move (hs : o.source.Sound o.base) (h : (o.move bp size).1 = .error e) :
    ¬e.Foreign := by
  have hf := fun e (he : (o.allocate size).1 = .error e) => error_of_allocate hs he
  unfold move at h
  rcases hx : o.allocate size with ⟨e' | address, o'⟩ <;> simp only [hx] at h hf <;> cases h
  exact hf e rfl

theorem error_of_growInPlace (hs : o.source.Sound o.base)
    (h : (o.growInPlace bp need).1 = .error e) : ¬e.Foreign := by
  rw [growInPlace] at h
  split_ifs at h
  generalize max (need - (o.map.gapAt bp).joinNext.size) o.config.chunkSize = n at h
  have hf := fun e (he : (o.extend n).1 = .error e) => error_of_extend hs he
  rcases hx : o.extend n with ⟨e' | bp, o'⟩ <;> simp only [hx] at h hf <;> cases h
  exact hf e rfl

theorem error_of_resize (hv : o.map.Valid) (hs : o.source.Sound o.base) (hb : b ∈ o.map.blocks)
    (ha : b.allocated = true) (h : (o.resize b.offset size).1 = .error e) : ¬e.Foreign := by
  unfold resize at h
  rcases hn : blockSize? size with _ | need <;> simp only [hn] at h
  · cases h; exact id
  split_ifs at h
  have hf := fun e (he : (o.countReallocation.growInPlace b.offset need).1 = .error e) =>
    error_of_growInPlace (o := o.countReallocation) hs he
  rcases growInPlace_cases (o := o.countReallocation) hv hb ha need with
    ⟨e', o', hx, -⟩ | hx | ⟨o', hx, -⟩ <;> simp only [hx] at h hf
  · cases h; exact hf e rfl
  · exact error_of_move (o := o.countReallocation) hs h
  · cases h

end Outline

end SegregatedFit
