import SegregatedFit.Proofs.Creation

/-!
# Sessions

A session is a heap in use: its holder calls it with pointers that it handed out and has not taken
back, writes into the payloads behind them, and others may move the end of the data segment.
`Session.Reachable` are the states that any order of such moves leads to, from any heap that
`Heap.create` gives. All of them have a valid outline, whose allocated blocks are those that the
session holds (`Reachable.outlined`).
-/

namespace SegregatedFit

/-! ### Moving the end of the data segment -/

theorem Source.Sound.moveEnd {source : Source} {base : Nat} {delta : Int}
    (h : source.Sound base) : (source.moveEnd delta).Sound base := by
  induction source with
  | buffer capacity => exact h
  | dataSegment host tries stop => trivial
  | metered refuse requests granted inner ih => exact ⟨h.1, ih h.2⟩

/-- No byte of the arena is lost while the segment ends behind it. -/
theorem Provider.moveEnd_spec {p : Provider} {delta : Int}
    (h : ∀ stop ∈ (p.source.moveEnd delta).segmentEnd?, p.arena.base + p.arena.size ≤ stop) :
    (p.moveEnd delta).source = p.source.moveEnd delta ∧
      Arena.Changed (p.arena.size ≤ ·) p.arena (p.moveEnd delta).arena := by
  simp only [Provider.moveEnd]
  rcases hs : (p.source.moveEnd delta).segmentEnd? with _ | stop
  · exact ⟨rfl, .refl _ _⟩
  · refine ⟨rfl, rfl, rfl, ?_⟩
    intro k hk
    have hle := h stop hs
    have hpage : stop ≤ Source.ceilPage stop := by
      simp only [Source.ceilPage, Source.pageSize]; omega
    simp only [Arena.byte_forget]
    rw [if_pos (by omega)]

/-! ### Layouts -/

/-- Blocks and headers are the same, the header that ends the arena included. -/
def Heap.SameLayout (h k : Heap) : Prop :=
  ∃ bs, h.blocks = .ok bs ∧ k.blocks = .ok bs ∧ k.size = h.size ∧
    ∀ b ∈ bs ++ [.last h.size], Concur (h.arena.header b.offset) (k.arena.header b.offset)

/-! ### Sessions -/

structure Session where
  heap : Heap
  /-- The pointers in use, with the size last asked for. -/
  held : List (Nat × Nat)
  /-- How many calls were made so far. -/
  calls : Nat

namespace Session

/-- The pointers in use. -/
def pointers (s : Session) : List Nat := s.held.map Prod.fst

/-- Nothing is held yet. -/
def start (h : Heap) : Session := ⟨h, [], 0⟩

/-- A call was answered: the pointer handed in is no longer held, and the one handed out is. An
error changes nothing. -/
def answered (held : List (Nat × Nat)) (c : Call) :
    Except Error (Option Nat) → List (Nat × Nat)
  | .error _ => held
  | .ok none => held.filter fun e => some e.1 ≠ c.handed
  | .ok (some address) => (address, c.requested) :: held.filter fun e => some e.1 ≠ c.handed

inductive Move where
  /-- A call with its result. -/
  | call (c : Call) (result : Except Error (Option Nat))
  /-- The holder of `address` writes `f 0`, `f 1`, … to `n` bytes from byte `i` of it on. -/
  | write (address i n : Nat) (f : Nat → UInt8)
  /-- Someone else moves the end of the data segment. -/
  | moveEnd (delta : Int)

/-- Pointers handed in are null or held, writes stay inside the payload, and no one takes the arena's
memory away. -/
inductive Step : Session → Move → Session → Prop
  | call {s : Session} {c : Call} {out : Outcome (Option Nat)}
      (hc : ∀ address ∈ c.handed, address ∈ s.pointers) (h : c.perform.run s.heap = .ok out) :
      Step s (.call c out.result) ⟨out.heap, answered s.held c out.result, s.calls + 1⟩
  | write {s : Session} {address i n usable : Nat} {f : Nat → UInt8}
      (ha : address ∈ s.pointers) (hu : (s.heap.usableSize (some address)).run = .ok (.ok usable))
      (hn : i + n ≤ usable) :
      Step s (.write address i n f)
        { s with heap := s.heap.fill (address - s.heap.arena.base + i) n f }
  | moveEnd {s : Session} {delta : Int}
      (h : ∀ stop ∈ (s.heap.provider.source.moveEnd delta).segmentEnd?,
        s.heap.address s.heap.size ≤ stop) :
      Step s (.moveEnd delta)
        { s with heap := { s.heap with provider := s.heap.provider.moveEnd delta } }

/-- Moves one after another. -/
inductive Run : Session → List Move → Session → Prop
  | nil {s : Session} : Run s [] s
  | cons {s s' s'' : Session} {m : Move} {ms : List Move} (h : Step s m s') (hs : Run s' ms s'') :
      Run s (m :: ms) s''

inductive Reachable : Session → Prop
  | start {p : Provider} {config : Config} {h : Heap} {events : List Event} (hp : p.Sound)
      (hc : Heap.create p config = .ok ⟨.ok h, events⟩) : Reachable (start h)
  | step {s s' : Session} {m : Move} (hs : Reachable s) (h : Step s m s') : Reachable s'

theorem step_call_iff {s t : Session} {c : Call} {r : Except Error (Option Nat)} :
    Step s (.call c r) t ↔ (∀ address ∈ c.handed, address ∈ s.pointers) ∧
      ∃ out, c.perform.run s.heap = .ok out ∧ out.result = r ∧
        t = ⟨out.heap, answered s.held c r, s.calls + 1⟩ := by
  constructor
  · intro h
    cases h with
    | call hc hr => exact ⟨hc, _, hr, rfl, rfl⟩
  · rintro ⟨hc, out, hr, rfl, rfl⟩
    exact .call hc hr

theorem Step.call_unique {s t t' : Session} {c : Call} {r r' : Except Error (Option Nat)}
    (h : Step s (.call c r) t) (h' : Step s (.call c r') t') : r = r' ∧ t = t' := by
  obtain ⟨-, out, hrun, rfl, rfl⟩ := step_call_iff.1 h
  obtain ⟨-, out', hrun', rfl, rfl⟩ := step_call_iff.1 h'
  obtain rfl : out = out' := Except.ok.inj (hrun.symm.trans hrun')
  exact ⟨rfl, rfl⟩

theorem Reachable.run {s s' : Session} {ms : List Move} (hs : s.Reachable) (h : Run s ms s') :
    s'.Reachable := by
  induction h with
  | nil => exact hs
  | cons h _ ih => exact ih (hs.step h)

/-! ### Playing calls -/

/-- Makes a call, if it may be made. -/
def next (s : Session) (c : Call) : Option Session :=
  if ∀ address ∈ c.handed, address ∈ s.pointers then
    match c.perform.run s.heap with
    | .ok out => some ⟨out.heap, answered s.held c out.result, s.calls + 1⟩
    | .error _ => none
  else none

def nexts (s : Session) : List Call → Option Session
  | [] => some s
  | c :: cs => (s.next c).bind fun s => s.nexts cs

/-- Makes calls on a new heap. -/
def play (p : Provider) (config : Config) (cs : List Call) : Option Session :=
  match Heap.create p config with
  | .ok ⟨.ok h, _⟩ => (start h).nexts cs
  | _ => none

theorem step_of_next {s t : Session} {c : Call} (h : s.next c = some t) :
    ∃ r, Step s (.call c r) t := by
  unfold next at h
  split at h
  · next hc =>
    split at h <;> cases h
    next out hr => exact ⟨_, .call hc hr⟩
  · cases h

theorem Reachable.nexts {s s' : Session} {cs : List Call} (hs : s.Reachable)
    (h : s.nexts cs = some s') : s'.Reachable := by
  induction cs generalizing s with
  | nil => cases h; exact hs
  | cons c cs ih =>
    obtain ⟨t, ht, h⟩ := Option.bind_eq_some_iff.1 h
    obtain ⟨r, ht⟩ := step_of_next ht
    exact ih (hs.step ht) h

theorem reachable_of_play {p : Provider} {config : Config} {cs : List Call} {s : Session}
    (hp : p.Sound) (h : play p config cs = some s) : s.Reachable := by
  unfold play at h
  split at h
  · next hc => exact (Reachable.start hp hc).nexts h
  · cases h

/-- Over a buffer of 256 bytes, two blocks are allocated, and the first one is freed again. -/
def small : Option Session :=
  play ⟨.empty 4096 ⟨256, rfl⟩, .buffer 256⟩ ⟨64, 4096⟩
    [.allocate 10, .allocate 40, .free (some 4128)]

theorem reachable_of_small {s : Session} (h : small = some s) : s.Reachable := by
  refine reachable_of_play ⟨?_, ?_⟩ h
  · decide
  · show 4096 + 256 < Word.limit
    decide

theorem small_held : small.map (fun s => (s.held, s.calls)) = some ([(4160, 40)], 3) := by
  decide +kernel

/-- Over a buffer of 256 bytes, two blocks are allocated, and the heap grows for the second one. -/
def pair : Option Session :=
  play ⟨.empty 1024 ⟨64, rfl⟩, .buffer 256⟩ ⟨64, 4096⟩ [.allocate 10, .allocate 40]

theorem reachable_of_pair {s : Session} (h : pair = some s) : s.Reachable := by
  refine reachable_of_play ⟨?_, ?_⟩ h
  · decide
  · show 1024 + 256 < Word.limit
    decide

/-- Both are in use, and one free block follows them. -/
theorem exists_pair : ∃ s, pair = some s ∧ s.Reachable ∧ s.pointers = [1088, 1056] ∧
    s.heap.blocks = .ok [⟨32, 32, true⟩, ⟨64, 48, true⟩, ⟨112, 48, false⟩] ∧
    (s.heap.usableSize (some 1056)).run = .ok (.ok 24) ∧
    (s.heap.usableSize (some 1088)).run = .ok (.ok 40) := by
  have hlaid : pair.map (fun s => (s.pointers, s.heap.blocks)) =
      some ([1088, 1056], .ok [⟨32, 32, true⟩, ⟨64, 48, true⟩, ⟨112, 48, false⟩]) := by
    decide +kernel
  have husable : pair.map (fun s =>
      ((s.heap.usableSize (some 1056)).run, (s.heap.usableSize (some 1088)).run)) =
      some (.ok (.ok 24), .ok (.ok 40)) := by
    decide +kernel
  obtain ⟨s, hs, hlaid⟩ := Option.map_eq_some_iff.1 hlaid
  rw [hs] at husable
  obtain ⟨hp, hblocks⟩ := Prod.mk.inj hlaid
  exact ⟨s, hs, reachable_of_pair hs, hp, hblocks, Prod.mk.inj (Option.some.inj husable)⟩

/-! ### Pointers and blocks -/

/-- The pointers are those of the blocks, and each block has room for the size asked for. -/
structure Matches (base : Nat) (held : List (Nat × Nat)) (bs : List Block) : Prop where
  perm : (held.map Prod.fst).Perm (bs.map fun b => base + b.offset)
  room : ∀ e ∈ held, ∀ b ∈ bs, e.1 = base + b.offset → e.2 + 8 ≤ b.size

namespace Matches

variable {base n : Nat} {held : List (Nat × Nat)} {b : Block} {bs rest : List Block}

theorem drop (h : Matches base held bs) (hp : bs.Perm (b :: rest))
    (hb : ∀ c ∈ rest, c.offset ≠ b.offset) :
    Matches base (held.filter fun e => some e.1 ≠ some (base + b.offset)) rest := by
  refine ⟨?_, fun e he c hc => h.room e (List.mem_filter.1 he).1 c
    (hp.mem_iff.2 (List.mem_cons_of_mem b hc))⟩
  have h1 := h.perm.trans (hp.map _)
  have h2 := h1.filter fun x => decide (some x ≠ some (base + b.offset))
  rw [List.map_cons, List.filter_cons_of_neg (by simp), List.filter_map] at h2
  refine h2.trans (.of_eq (List.filter_eq_self.2 ?_))
  intro x hx
  obtain ⟨c, hc, rfl⟩ := List.mem_map.1 hx
  have := hb c hc
  simp [this]

theorem add (h : Matches base held rest) (hp : bs.Perm (b :: rest))
    (hb : ∀ c ∈ rest, c.offset ≠ b.offset) (hn : n + 8 ≤ b.size) :
    Matches base ((base + b.offset, n) :: held) bs := by
  constructor
  · calc ((base + b.offset, n) :: held).map Prod.fst
      _ |>.Perm ((b :: rest).map fun b => base + b.offset) := h.perm.cons (base + b.offset)
      _ |>.Perm (bs.map fun b => base + b.offset) := (hp.map _).symm
  intro e he c hc hec
  rcases List.mem_cons.1 he with rfl | he' <;>
    rcases List.mem_cons.1 (hp.mem_iff.1 hc) with rfl | hc'
  · exact hn
  · exact absurd (Nat.add_left_cancel hec).symm (hb c hc')
  · have hmem : e.1 ∈ rest.map fun b => base + b.offset :=
      h.perm.mem_iff.1 (List.mem_map_of_mem he')
    obtain ⟨d, hd, hde⟩ := List.mem_map.1 hmem
    exact absurd (Nat.add_left_cancel (hde.trans hec)) (hb d hd)
  · exact h.room e he' c hc' hec

end Matches

/-! ### The invariant -/

/-- The outline of a session. Allocations add to the live bytes and a counted resize needs a pointer,
so both counters stay below the number of words for as long as there were fewer calls than that. -/
structure Outlined (s : Session) (o : Outline) : Prop where
  outlines : o.Outlines s.heap
  prologue : s.heap.arena.Prologue o.map.first
  pointers : Matches o.base s.held o.map.live
  /-- There are blocks. -/
  room : o.map.first < o.map.stop
  allocs : o.stats.allocs ≤ s.calls
  full : o.stats.allocs = s.calls → 16 * s.calls ≤ Block.totalSize o.map.live
  reallocs : o.stats.reallocs ≤ s.calls - 1

namespace Outlined

variable {s : Session} {o : Outline} {c : Call}

theorem exists_block (h : s.Outlined o) {address : Nat} (ha : address ∈ s.pointers) :
    ∃ b ∈ o.map.live, address = o.base + b.offset := by
  obtain ⟨b, hb, he⟩ := List.mem_map.1 (h.pointers.perm.mem_iff.1 ha)
  exact ⟨b, hb, he.symm⟩

theorem mem_pointers (h : s.Outlined o) {b : Block} (hb : b ∈ o.map.live) :
    o.base + b.offset ∈ s.pointers :=
  h.pointers.perm.mem_iff.2 (List.mem_map_of_mem hb)

theorem valid_call (h : s.Outlined o) (hc : ∀ address ∈ c.handed, address ∈ s.pointers) :
    c.Valid o :=
  fun address ha => h.exists_block (hc address ha)

/-- What is held after a call are the blocks of the outline after it. -/
theorem matches_outline (h : s.Outlined o) (hc : c.Valid o)
    (hv : (c.outline o).2.map.Valid) :
    Matches o.base (answered s.held c (c.outline o).1) (c.outline o).2.map.live := by
  have he := (Call.effect h.outlines.valid.map hc).live
  have hm := h.pointers
  rcases hr : (c.outline o).1 with e | address <;> rw [hr] at he
  · exact ⟨hm.perm.trans (he.map _).symm, fun x hx b hb => hm.room x hx b (he.mem_iff.1 hb)⟩
  obtain ⟨rest, hin, hout⟩ := he
  have hrest : Matches o.base (s.held.filter fun e => some e.1 ≠ c.handed) rest := by
    rcases hh : c.handed with _ | q <;> rw [hh] at hin
    · rw [List.filter_eq_self.2 (by simp)]
      exact ⟨hm.perm.trans (List.Perm.map _ hin), fun x hx b hb => hm.room x hx b (hin.mem_iff.2 hb)⟩
    · obtain ⟨b, rfl, -, hp⟩ := hin
      exact hm.drop hp (h.outlines.valid.map.offset_ne_of_perm hp)
  rcases address with _ | address
  · exact ⟨hrest.perm.trans (List.Perm.map _ hout).symm,
      fun x hx b hb => hrest.room x hx b (hout.mem_iff.1 hb)⟩
  · obtain ⟨b, rfl, hroom, hp⟩ := hout
    exact hrest.add hp (hv.offset_ne_of_perm hp) hroom

/-- A call is answered as on the outline. -/
theorem call {out : Outcome (Option Nat)} (h : s.Outlined o)
    (hc : ∀ address ∈ c.handed, address ∈ s.pointers) (hr : c.perform.run s.heap = .ok out) :
    out.result = (c.outline o).1 ∧ c.Framed o out.result s.heap out.heap ∧
      Outlined ⟨out.heap, answered s.held c out.result, s.calls + 1⟩ (c.outline o).2 := by
  have hcv := h.valid_call hc
  have hv := h.outlines.valid.map
  have hfollows : HeapM.Follows True _ _ _ _ :=
    c.follows h.outlines hcv (fun _ => trivial) fun _ _ => trivial
  rcases hfollows with ⟨-, hx⟩ | ⟨h', events, hx, ho, hframe⟩ <;> rw [hr] at hx
  · cases hx
  cases hx
  have he := Call.effect hv hcv
  have hcount := Call.reallocs_outline hv hcv
  have hallocs := h.allocs
  have hreallocs := h.reallocs
  refine ⟨rfl, hframe, ho, ?_, ?_, ?_, ?_, ?_, ?_⟩
  · rw [he.first]
    exact h.prologue.congr hv.first_ge fun i hi => hframe.others i (.inl hi)
  · rw [he.base]; exact h.matches_outline hcv ho.valid.map
  · rw [he.first]; exact Nat.lt_of_lt_of_le h.room he.stop
  · show (c.outline o).2.stats.allocs ≤ s.calls + 1
    rcases he.allocs with h | ⟨h, -⟩ <;> omega
  · show (c.outline o).2.stats.allocs = s.calls + 1 → 16 * (s.calls + 1) ≤ _
    intro heq
    have := h.full
    rcases he.allocs with h | ⟨h, hsize⟩ <;> omega
  · show (c.outline o).2.stats.reallocs ≤ s.calls + 1 - 1
    split at hcount
    · omega
    -- the pointer handed in was allocated by an earlier call
    · next hne =>
      obtain ⟨address, ha⟩ := Option.ne_none_iff_exists'.1 hne
      obtain ⟨b, hb, -⟩ := hcv address ha
      have := List.length_pos_of_mem hb
      have := h.outlines.valid.count
      omega

theorem step_call {t : Session} {r : Except Error (Option Nat)} (h : s.Outlined o)
    (hstep : Step s (.call c r) t) : r = (c.outline o).1 ∧ t.Outlined (c.outline o).2 := by
  obtain ⟨hc, out, hr, rfl, rfl⟩ := step_call_iff.1 hstep
  obtain ⟨hres, -, ht⟩ := h.call hc hr
  exact ⟨hres, ht⟩

theorem size_eq (h : s.Outlined o) : s.heap.size = o.map.stop := h.outlines.describes.size

theorem blocks_eq (h : s.Outlined o) : s.heap.blocks = .ok o.map.blocks := by
  have hw : s.heap.arena.walk o.map.first = ⟨o.map.blocks, none⟩ :=
    h.outlines.describes.walk_eq h.outlines.valid.map
  rw [Heap.blocks, Heap.walk, h.outlines.first, hw]; rfl

theorem sameLayout_of_blocks_eq {t : Session} {o' : Outline} (hs : s.Outlined o)
    (ht : t.Outlined o') (hblocks : o'.map.blocks = o.map.blocks)
    (hstop : o'.map.stop = o.map.stop) : s.heap.SameLayout t.heap := by
  have hd := hs.outlines.describes
  have hd' := ht.outlines.describes
  have hsize : s.heap.size = o.map.stop := hd.size
  have hsize' : t.heap.size = o'.map.stop := hd'.size
  refine ⟨_, hs.blocks_eq, hblocks ▸ ht.blocks_eq, by rw [hsize', hstop, hsize], ?_⟩
  intro b hb
  rw [hsize] at hb
  obtain ⟨xs, ys, hall⟩ := List.append_of_mem hb
  have hall' : o'.map.allBlocks = xs ++ b :: ys := by
    rw [MemoryMap.allBlocks, hblocks, hstop]; exact hall
  exact ⟨_, hd.header_eq hs.outlines.valid.map hall, hd'.header_eq ht.outlines.valid.map hall'⟩

theorem usableSize_eq (h : s.Outlined o) {b : Block} (hb : b ∈ o.map.live) :
    (s.heap.usableSize (some (o.base + b.offset))).run = .ok (.ok (b.size - 8)) := by
  have hv := h.outlines.valid.map
  obtain ⟨hb, -⟩ := Block.mem_live.1 hb
  have hbb := hv.tiles.bounds hb
  have hh : s.heap.arena.header b.offset = _ := h.outlines.describes.header_of_mem hv hb
  have hsub : Word.sub b.size wordSize = .ok (b.size - 8) :=
    Word.sub_of_le (Nat.le_trans (by decide) hbb.2.2.1)
  rw [Heap.usableSize, HeapM.offsetOf_eq h.outlines hb, pure_bind, hh]
  show (liftM (Word.sub b.size wordSize) : Fallible Nat).run = _
  rw [hsub]; rfl

theorem write (h : s.Outlined o) {b : Block} (hb : b ∈ o.map.live) {i n : Nat}
    {f : Nat → UInt8} (hn : i + n ≤ b.size - 8) :
    Outlined { s with heap := s.heap.fill (b.offset + i) n f } o := by
  obtain ⟨hb, ha⟩ := Block.mem_live.1 hb
  have hv := h.outlines.valid.map
  have hbb := hv.tiles.bounds hb
  have hch := Arena.changed_fill s.heap.arena (b.offset + i)
    (min n (s.heap.arena.size - (b.offset + i))) f
  have hkept : ∀ k, b.offset + i ≤ k ∧
      k < b.offset + i + min n (s.heap.arena.size - (b.offset + i)) → b.Holds k :=
    fun k hk => ⟨ha, by omega, by omega⟩
  refine ⟨?_, h.prologue.congr hv.first_ge fun k hk => hch.byte k ?_, h.pointers,
    h.room, h.allocs, h.full, h.reallocs⟩
  · exact h.outlines.congr hch fun k hk _ => .inr ⟨b, hb, hkept k hk⟩
  · intro hk'
    have := (hkept k hk').2.1
    omega

theorem moveEnd (h : s.Outlined o) {delta : Int}
    (hd : ∀ stop ∈ (s.heap.provider.source.moveEnd delta).segmentEnd?,
      s.heap.address s.heap.size ≤ stop) :
    Outlined { s with heap := { s.heap with provider := s.heap.provider.moveEnd delta } }
      { o with source := o.source.moveEnd delta } := by
  obtain ⟨hsource, hch⟩ := Provider.moveEnd_spec hd
  have ho := h.outlines
  have hv := ho.valid
  have hsize : s.heap.provider.arena.size = o.map.stop := ho.describes.size
  refine ⟨⟨{ hv with source := hv.source.moveEnd }, ?_, hch.base.trans ho.base, ?_, ho.config,
    ho.first, ho.stats⟩, ?_, h.pointers, h.room, h.allocs, h.full, h.reallocs⟩
  · exact ho.describes.congr hv.map hch fun k hk hlt => absurd hk (by omega)
  · show (s.heap.provider.moveEnd delta).source = o.source.moveEnd delta
    rw [hsource, ho.source]
  · refine h.prologue.congr hv.map.first_ge fun k hk => hch.byte k ?_
    have := hv.map.tiles.le
    show ¬s.heap.provider.arena.size ≤ k
    omega

theorem exists_payload (h : s.Outlined o) {address usable : Nat} (ha : address ∈ s.pointers)
    (hu : (s.heap.usableSize (some address)).run = .ok (.ok usable)) :
    ∃ b ∈ o.map.live, address = o.base + b.offset ∧ usable = b.size - 8 := by
  obtain ⟨b, hb, rfl⟩ := h.exists_block ha
  rw [h.usableSize_eq hb] at hu
  cases hu
  exact ⟨b, hb, rfl, rfl⟩

/-- A write into the payload of a pointer leaves the outline as it is. -/
theorem step_write (h : s.Outlined o) {address i n usable : Nat} {f : Nat → UInt8}
    (ha : address ∈ s.pointers) (hu : (s.heap.usableSize (some address)).run = .ok (.ok usable))
    (hn : i + n ≤ usable) :
    Outlined { s with heap := s.heap.fill (address - s.heap.arena.base + i) n f } o := by
  obtain ⟨b, hb, rfl, rfl⟩ := h.exists_payload ha hu
  rw [show s.heap.arena.base = o.base from h.outlines.base, Nat.add_sub_cancel_left]
  exact h.write hb hn

theorem step {s' : Session} {m : Move} (h : s.Outlined o) (hm : Step s m s') :
    ∃ o', s'.Outlined o' := by
  cases hm with
  | call hc hr => exact ⟨_, (h.call hc hr).2.2⟩
  | write ha hu hn => exact ⟨o, h.step_write ha hu hn⟩
  | moveEnd hd => exact ⟨_, h.moveEnd hd⟩

end Outlined

theorem outlined_start {p : Provider} {config : Config} {h : Heap} {events : List Event}
    (hp : p.Sound) (hc : Heap.create p config = .ok ⟨.ok h, events⟩) :
    ∃ o, Outline.create p config = .ok o ∧ (start h).Outlined o := by
  obtain ⟨o, hy, ho, hlive, ha, hr, hroom, hpro⟩ := Heap.create_outlines hp hc
  refine ⟨o, hy, ho, hpro, ⟨by rw [hlive]; exact .nil, nofun⟩, hroom, Nat.le_of_eq ha, ?_,
    Nat.le_of_eq hr⟩
  intro _
  exact Nat.zero_le _

theorem Reachable.outlined {s : Session} (hs : s.Reachable) : ∃ o, s.Outlined o := by
  induction hs with
  | start hp hc =>
    obtain ⟨o, -, ho⟩ := outlined_start hp hc
    exact ⟨o, ho⟩
  | step _ hm ih =>
    obtain ⟨o, ho⟩ := ih
    exact ho.step hm

end Session

end SegregatedFit
