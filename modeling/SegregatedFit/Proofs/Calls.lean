import SegregatedFit.Proofs.Resizing

/-!
# Calls

A `Call` is one use of a heap: memory is asked for, given back, or resized. `Call.follows` says that
every call that hands in a live pointer follows its outline and keeps the bytes of all other blocks,
and `Call.effect` what becomes of the list of allocated blocks: the block handed in leaves it, and
the block handed out joins it.
-/

namespace SegregatedFit

/-- `bs` are the blocks `rest` and one with room for `size` bytes at `address`, unless that is the
null pointer. -/
def Joined (base : Nat) (address : Option Nat) (size : Nat) (rest bs : List Block) : Prop :=
  match address with
  | none => bs.Perm rest
  | some address => ∃ b : Block, address = base + b.offset ∧ size + 8 ≤ b.size ∧ bs.Perm (b :: rest)

namespace Outline

variable {o o' : Outline} {b : Block} {size need : Nat}

/-- What a call does that hands in the pointer `handed` and asks for `size` bytes. -/
structure Effect (o : Outline) (handed : Option Nat) (size : Nat)
    (y : Except Error (Option Nat) × Outline) : Prop where
  base : y.2.base = o.base
  config : y.2.config = o.config
  first : y.2.map.first = o.map.first
  /-- The arena does not shrink. -/
  stop : o.map.stop ≤ y.2.map.stop
  live : match y.1 with
    | .error _ => y.2.map.live.Perm o.map.live
    | .ok address => ∃ rest, Joined o.base handed 0 rest o.map.live ∧
      Joined o.base address size rest y.2.map.live
  /-- Every allocation adds to the live bytes. -/
  allocs : y.2.stats.allocs = o.stats.allocs ∨ y.2.stats.allocs = o.stats.allocs + 1 ∧
    Block.totalSize o.map.live + 16 ≤ Block.totalSize y.2.map.live

theorem Effect.of_counted {handed : Option Nat} {y : Except Error (Option Nat) × Outline}
    (he : Effect o.countReallocation handed size y) : Effect o handed size y :=
  ⟨he.base, he.config, he.first, he.stop, he.live, he.allocs⟩

theorem Extends.effect_error {e : Error} {handed : Option Nat} (hx : Extends o o') :
    Effect o handed size (.error e, o') := by
  obtain ⟨k, hk⟩ := hx.stats
  exact ⟨hx.base, hx.config, hx.first, hx.stop, by rw [hx.live], .inl (by rw [hk])⟩

theorem effect_allocate (hv : o.map.Valid) (size : Nat) :
    Effect o none size ((o.allocate size).1.map some, (o.allocate size).2) := by
  rcases allocate_cases hv size with ⟨e, o', h, hx, -⟩ |
    ⟨need, o', b, hneed, -, h, hx, hv', hb, hf, hs⟩ <;> rw [h]
  · exact hx.effect_error
  obtain ⟨h32, h16, hroom⟩ := blockSize?_spec hneed
  obtain ⟨k, hk⟩ := hx.stats
  have hlive := hv'.live_place (n := need) hb hf
  have hp := Gap.le_placed (g := o'.map.gapAt b.offset) (n := need)
    (by rw [hv'.gapAt_size hb]; exact hs)
  refine ⟨hx.base, hx.config, (hv'.first_place hb).trans hx.first,
    Nat.le_trans hx.stop (Nat.le_of_eq (hv'.stop_place hb h32 h16 hs).symm),
    ⟨o.map.live, .refl _, ⟨b.offset, _, true⟩, rfl, Nat.le_trans hroom hp.1, ?_⟩, .inr ⟨?_, ?_⟩⟩
  · rw [← hx.live]; exact hlive
  · rw [place, hk]; rfl
  · show _ ≤ Block.totalSize (o'.map.place b.offset need).live
    rw [Block.totalSize_perm hlive, Block.totalSize, hx.live]
    simp only; omega

theorem effect_release (hv : o.map.Valid) (hb : b ∈ o.map.blocks) (ha : b.allocated = true) :
    Effect o (some (o.base + b.offset)) 0 (.ok none, o.release b.offset) :=
  ⟨rfl, rfl, hv.first_release hb, Nat.le_of_eq (hv.stop_release hb).symm,
    ⟨_, ⟨b, rfl, Nat.le_trans (by decide) (hv.tiles.bounds hb).2.2.1,
      hv.live_release hb ha⟩, .refl _⟩, .inl rfl⟩

theorem effect_move (hv : o.map.Valid) (hb : b ∈ o.map.blocks) (ha : b.allocated = true)
    (hneed : blockSize? size = some need) (hlt : b.size < need) :
    Effect o (some (o.base + b.offset)) size
      ((o.move b.offset size).1.map some, (o.move b.offset size).2) := by
  have h8 := (hv.tiles.bounds hb).2.2.1
  rcases allocate_cases hv size with ⟨e, o', h, hx, -⟩ |
    ⟨need', o', c, hneed', -, h, hx, hv', hc, hf, hs⟩ <;> rw [move, h]
  · exact hx.effect_error
  obtain rfl : need = need' := Option.some.inj (hneed.symm.trans hneed')
  obtain ⟨h32, h16, hroom⟩ := blockSize?_spec hneed
  obtain ⟨k, hk⟩ := hx.stats
  have hp := Gap.le_placed (g := o'.map.gapAt c.offset) (n := need)
    (by rw [hv'.gapAt_size hc]; exact hs)
  have hplace := hv'.place hc hf h32 h16
  have hlive := hv'.live_place (n := need) hc hf
  rw [hx.live] at hlive
  obtain ⟨hb', hrel⟩ := hv.live_release_of_perm hplace hb ha hlive
  have hold := hv.live_release hb ha
  have hstop := (hplace.stop_release hb').trans (hv'.stop_place hc h32 h16 hs)
  refine ⟨hx.base, hx.config,
    (hplace.first_release hb').trans ((hv'.first_place hc).trans hx.first),
    Nat.le_trans hx.stop (Nat.le_of_eq hstop.symm),
    ⟨_, ⟨b, rfl, by omega, hold⟩, ⟨c.offset, _, true⟩, rfl, Nat.le_trans hroom hp.1, hrel⟩,
    .inr ⟨?_, ?_⟩⟩
  · simp only [release, place, hk]; rfl
  · show _ ≤ Block.totalSize ((o'.map.place c.offset need).release b.offset).live
    have hbz := (hv.tiles.bounds hb).2.2.2
    rw [Block.totalSize_perm hrel, Block.totalSize_perm hold, Block.totalSize, Block.totalSize]
    simp only; omega

theorem effect_resize (hv : o.map.Valid) (hb : b ∈ o.map.blocks) (ha : b.allocated = true)
    (size : Nat) : Effect o (some (o.base + b.offset)) size
      ((o.resize b.offset size).1.map some, (o.resize b.offset size).2) := by
  have hz := hv.gapAt_size hb
  have h8 := (hv.tiles.bounds hb).2.2.1
  have hold := hv.live_release hb ha
  rw [resize, hz]
  rcases hneed : blockSize? size with _ | need
  · exact (Extends.refl o).effect_error
  obtain ⟨h32, h16, hroom⟩ := blockSize?_spec hneed
  by_cases hle : need ≤ b.size
  · simp only [if_pos hle]
    have hp := Gap.le_placed (g := o.map.gapAt b.offset) (n := need) (by omega)
    have hlive := hv.live_trim (n := need) hb ha
    rw [← Gap.live_fillMerged] at hlive
    exact ⟨rfl, rfl, hv.first_trim hb, Nat.le_of_eq (hv.stop_trim hb h32 h16).symm,
      ⟨_, ⟨b, rfl, by omega, hold⟩, ⟨b.offset, _, true⟩, rfl, Nat.le_trans hroom hp.1, hlive⟩,
      .inl rfl⟩
  · simp only [if_neg hle]
    rcases growInPlace_cases (o := o.countReallocation) hv hb ha need with
      ⟨e, o', h, hx⟩ | h | ⟨o', h, hx, hv', hs⟩ <;> rw [h]
    · exact Effect.of_counted hx.effect_error
    · exact Effect.of_counted (effect_move hv hb ha hneed (Nat.lt_of_not_le hle))
    · obtain ⟨k, hk⟩ := hx.stats
      have hb' := hx.mem_blocks hb ha
      have hp := Gap.le_placed hs
      have hlive := hv'.live_absorb (n := need) hb'
      have hrel := hv'.live_release hb' ha
      rw [hx.live] at hrel
      rw [← Gap.live_fillMerged] at hlive
      have hsame := List.Perm.cons_inv (hrel.symm.trans hold)
      have hstop := hv'.stop_absorb hb' h32 h16 hs
      exact ⟨hx.base, hx.config, (hv'.first_absorb hb').trans hx.first,
        Nat.le_trans hx.stop (Nat.le_of_eq hstop.symm),
        ⟨_, ⟨b, rfl, by omega, hold⟩, ⟨b.offset, _, true⟩, rfl, Nat.le_trans hroom hp.1,
          hlive.trans (hsame.cons _)⟩, .inl (by simp only [countInPlace, absorb, hk]; rfl)⟩

/-! ### Counted resizes -/

theorem reallocs_allocate (hv : o.map.Valid) (size : Nat) :
    (o.allocate size).2.stats.reallocs = o.stats.reallocs := by
  rcases allocate_cases hv size with ⟨e, o', h, hx, -⟩ | ⟨need, o', b, -, -, h, hx, -⟩ <;>
    obtain ⟨k, hk⟩ := hx.stats <;> rw [h]
  · rw [hk]
  · simp only [place, hk]; rfl

theorem reallocs_move (hv : o.map.Valid) (bp size : Nat) :
    (o.move bp size).2.stats.reallocs = o.stats.reallocs := by
  have h := reallocs_allocate hv size
  unfold move
  rcases h' : o.allocate size with ⟨e | address, o'⟩ <;> rw [h'] at h <;> exact h

theorem reallocs_resize (hv : o.map.Valid) (hb : b ∈ o.map.blocks) (ha : b.allocated = true)
    (size : Nat) : (o.resize b.offset size).2.stats.reallocs ≤ o.stats.reallocs + 1 := by
  unfold resize
  rcases blockSize? size with _ | need
  · exact Nat.le_succ _
  simp only
  split
  · exact Nat.le_refl _
  rcases growInPlace_cases (o := o.countReallocation) hv hb ha need with
    ⟨e, o', h, hx⟩ | h | ⟨o', h, hx, -⟩ <;> rw [h]
  · obtain ⟨k, hk⟩ := hx.stats
    rw [hk]; exact Nat.le_refl _
  · exact Nat.le_of_eq (reallocs_move (o := o.countReallocation) hv b.offset size)
  · obtain ⟨k, hk⟩ := hx.stats
    simp only [countInPlace, absorb, hk]; exact Nat.le_refl _

end Outline

theorem Except.eq_ok_of_map_some {ε α : Type} {x : Except ε α} {a : α}
    (h : x.map some = .ok (some a)) : x = .ok a := by
  cases x with
  | error e => cases h
  | ok b => cases h; rfl

theorem Except.eq_error_of_map {ε α β : Type} {f : α → β} {x : Except ε α} {e : ε}
    (h : x.map f = .error e) : x = .error e := by
  cases x with
  | error e => cases h; rfl
  | ok a => cases h

/-! ### Zeroed memory and the null pointer -/

namespace HeapM

theorem Follows.map {α β : Type} {full : Prop} {x : HeapM α} {h : Heap}
    {y : Except Error α × Outline} {P : Heap → Prop} (hx : Follows full x h y P) (f : α → β) :
    Follows full (x >>= fun a => pure (f a)) h (y.1.map f, y.2) P := by
  refine hx.bind ?_ ?_
  · intro a h' ha ho hp
    rw [ha]; exact .of_run (l := []) rfl ho hp
  · intro e h' he hp
    rw [he]; exact ⟨rfl, hp⟩

variable {full : Prop} {h : Heap} {o : Outline} {b : Block} {count size : Nat}

/-- The bytes of all other blocks are kept, and the new ones are zero. -/
def Zeroed (o : Outline) (n : Nat) (r : Except Error Nat) (h h' : Heap) : Prop :=
  h.Same o.map.Kept h' ∧
    ∀ address, r = .ok address → ∀ i < n, h'.arena.byte (address - o.base + i) = 0

theorem allocateZeroed_follows (ho : o.Outlines h)
    (hfull : Word.limit ≤ o.stats.allocs + 1 → full) :
    Follows full (allocateZeroed count size) h (o.allocateZeroed count size)
      (Zeroed o (count * size) (o.allocateZeroed count size).1 h) := by
  unfold allocateZeroed Outline.allocateZeroed
  by_cases hlim : Word.limit ≤ count * size
  · rw [if_pos hlim, if_pos hlim]
    exact .of_run (k := h) (l := []) rfl ho ⟨.refl _ _, nofun⟩
  rw [if_neg hlim, if_neg hlim]
  generalize count * size = n
  have halloc := allocate_follows n ho hfull
  rcases Outline.allocate_cases ho.valid.map n with ⟨e, o', hx, -⟩ |
    ⟨need, o', c, hneed, -, hx, hext, hv', hc, hcf, hs⟩ <;> rw [hx] at halloc ⊢
  · exact halloc.bind_error fun h' hsame => ⟨hsame, nofun⟩
  refine halloc.bind_ok ?_
  intro h' ho' hsame
  obtain ⟨-, -, hroom⟩ := blockSize?_spec hneed
  have hlive := hv'.live_place (n := need) hc hcf
  rw [hext.live] at hlive
  have hp := Gap.le_placed (g := o'.map.gapAt c.offset) (n := need)
    (by rw [hv'.gapAt_size hc]; exact hs)
  obtain ⟨hmem, -⟩ := Block.mem_live.1 (hlive.mem_iff.2 List.mem_cons_self)
  have hbb := ho'.valid.map.tiles.bounds hmem
  have hsize : h'.arena.size = (o'.place c.offset need).map.stop := ho'.describes.size
  have hlt : (o'.place c.offset need).map.stop < Word.limit := ho'.describes.stop_lt
  replace hbb : c.offset + (o'.map.gapAt c.offset).placed need ≤
    (o'.place c.offset need).map.stop := hbb.2.1
  have hclear : h'.arena.clear c.offset n = .ok (h'.arena.fill c.offset n fun _ => 0) := by
    rw [Arena.clear, Arena.checkRange_of_le (by omega) (by omega)]; rfl
  have hch := Arena.changed_fill h'.arena c.offset n fun _ => 0
  have hoff := run_offsetOf_block ho' hmem
  rw [show (o'.place c.offset need).base = o.base from hext.base] at hoff
  refine .step hoff (.step (run_updateArena hclear) ?_)
  refine .of_run (l := []) rfl (ho'.congr hch ?_) ⟨?_, ?_⟩
  · intro k hk _
    exact .inr ⟨_, hmem, rfl, hk.1, by simp only; omega⟩
  · intro i hi
    refine (hch.byte i ?_).trans (hsame i hi)
    intro hk
    rcases MemoryMap.kept_iff.1 hi with hi | ⟨d, hd, -, h1, h2⟩
    · have := (hv'.tiles.bounds hc).1
      have := hext.first
      omega
    · have := ho'.valid.map.apart_of_perm hlive d hd
      simp only at this
      omega
  · rintro _ ⟨⟩ i hi
    show (h'.arena.fill c.offset n fun _ => 0).byte _ = 0
    rw [Nat.add_sub_cancel_left, Arena.byte_fill, if_pos (by omega)]

theorem free_follows (ho : o.Outlines h) (hb : b ∈ o.map.blocks) (ha : b.allocated = true) :
    Follows full (free (some (o.base + b.offset))) h
      (.ok (), o.free (some (o.base + b.offset))) (h.Same (o.map.release b.offset).Kept) := by
  rw [free, Outline.free, Nat.add_sub_cancel_left]
  exact .step (run_offsetOf_block ho hb) (freeBlock_follows ho hb ha)

end HeapM

/-! ### Calls -/

inductive Call where
  | allocate (size : Nat)
  | allocateZeroed (count size : Nat)
  | free (address : Option Nat)
  | reallocate (address : Option Nat) (size : Nat)
deriving DecidableEq, Repr

namespace Call

/-- The pointer that is handed in. -/
def handed : Call → Option Nat
  | allocate _ => none
  | allocateZeroed _ _ => none
  | free address => address
  | reallocate address _ => address

/-- How many bytes the pointer that is handed out is to lead to. -/
def requested : Call → Nat
  | allocate size => size
  | allocateZeroed count size => count * size
  | free _ => 0
  | reallocate _ size => size

/-- The result is the pointer that is handed out. -/
def perform : Call → HeapM (Option Nat)
  | allocate size => do
    let address ← HeapM.allocate size
    pure (some address)
  | allocateZeroed count size => do
    let address ← HeapM.allocateZeroed count size
    pure (some address)
  | free address => do
    HeapM.free address
    pure none
  | reallocate address size => HeapM.reallocate address size

/-- The same on outlines. -/
def outline (o : Outline) : Call → Except Error (Option Nat) × Outline
  | allocate size => ((o.allocate size).1.map some, (o.allocate size).2)
  | allocateZeroed count size =>
    ((o.allocateZeroed count size).1.map some, (o.allocateZeroed count size).2)
  | free address => (.ok none, o.free address)
  | reallocate address size => o.reallocate address size

/-- The pointer handed in is null or the address of an allocated block. -/
def Valid (o : Outline) (c : Call) : Prop :=
  ∀ address ∈ c.handed, ∃ b ∈ o.map.live, address = o.base + b.offset

/-- What a call does to bytes, where `r` is its result. -/
structure Framed (o : Outline) (c : Call) (r : Except Error (Option Nat)) (h h' : Heap) :
    Prop where
  others : h.Same (fun i => i + 8 < o.map.first ∨
    ∃ b ∈ o.map.live, b.Holds i ∧ c.handed ≠ some (o.base + b.offset)) h'
  failed : ∀ e, r = .error e → h.Same o.map.Kept h'
  zeroed : ∀ count size, c = allocateZeroed count size → ∀ address, r = .ok (some address) →
    ∀ i < count * size, h'.arena.byte (address - o.base + i) = 0
  copied : ∀ b ∈ o.map.live, ∀ size, c = reallocate (some (o.base + b.offset)) size →
    ∀ address, r = .ok (some address) → ∀ i < min (b.size - 8) size,
      h'.arena.byte (address - o.base + i) = h.arena.byte (b.offset + i)

variable {o : Outline} {c : Call} {r : Except Error (Option Nat)} {h h' : Heap} {b : Block}
  {full : Prop}

theorem kept_of_others {i : Nat} (hi : i + 8 < o.map.first ∨
    ∃ b ∈ o.map.live, b.Holds i ∧ c.handed ≠ some (o.base + b.offset)) : o.map.Kept i :=
  MemoryMap.kept_iff.2 (hi.imp_right fun ⟨b, hb, hi, _⟩ => ⟨b, hb, hi⟩)

theorem kept_release_of_others {i : Nat} (hv : o.map.Valid) (hb : b ∈ o.map.blocks)
    (ha : b.allocated = true) (hc : c.handed = some (o.base + b.offset))
    (hi : i + 8 < o.map.first ∨
      ∃ b ∈ o.map.live, b.Holds i ∧ c.handed ≠ some (o.base + b.offset)) :
    (o.map.release b.offset).Kept i := by
  rw [MemoryMap.kept_iff, hv.first_release hb]
  refine hi.imp_right fun ⟨d, hd, hi, hne⟩ => ⟨d, ?_, hi⟩
  rcases List.mem_cons.1 ((hv.live_release hb ha).mem_iff.1 hd) with rfl | hd
  · exact absurd hc hne
  · exact hd

theorem framed_of_same (hs : h.Same o.map.Kept h') (hc : c.handed = none)
    (hz : ∀ count size, c ≠ allocateZeroed count size) : c.Framed o r h h' where
  others i hi := hs i (kept_of_others hi)
  failed _ _ := hs
  zeroed count size hcall := absurd hcall (hz count size)
  copied _ _ _ hcall := by rw [hcall] at hc; cases hc

theorem framed_of_release (hv : o.map.Valid) (hb : b ∈ o.map.blocks) (ha : b.allocated = true)
    (hc : c.handed = some (o.base + b.offset)) (hs : h.Same (o.map.release b.offset).Kept h') :
    c.Framed o (.ok none) h h' where
  others i hi := hs i (kept_release_of_others hv hb ha hc hi)
  failed _ hr := by cases hr
  zeroed _ _ _ _ hr := by cases hr
  copied _ _ _ _ _ hr := by cases hr

/-- Every call with a live pointer follows its outline. -/
theorem follows (ho : o.Outlines h) (hc : c.Valid o)
    (hfull : Word.limit ≤ o.stats.allocs + 1 → full)
    (hfull' : c.handed ≠ none → Word.limit ≤ o.stats.reallocs + 1 → full) :
    HeapM.Follows full c.perform h (c.outline o) (c.Framed o (c.outline o).1 h) := by
  have hv := ho.valid.map
  cases c with
  | allocate size =>
    refine ((HeapM.allocate_follows size ho hfull).map some).mono ?_
    intro h' hsame
    exact framed_of_same hsame rfl (by simp)
  | allocateZeroed count size =>
    refine ((HeapM.allocateZeroed_follows ho hfull).map some).mono ?_
    rintro h' ⟨hsame, hzero⟩
    refine ⟨fun i hi => hsame i (kept_of_others hi), fun _ _ => hsame, ?_, ?_⟩
    · rintro _ _ ⟨⟩ address hr
      exact hzero address (Except.eq_ok_of_map_some hr)
    · rintro _ _ _ ⟨⟩
  | free address =>
    rcases address with _ | address
    · exact .of_run (k := h) (l := []) rfl ho (framed_of_same (.refl _ _) rfl (by simp))
    obtain ⟨b, hb, rfl⟩ := hc address rfl
    obtain ⟨hb, ha⟩ := Block.mem_live.1 hb
    refine ((HeapM.free_follows ho hb ha).map fun _ => none).mono ?_
    intro h' hsame
    exact framed_of_release hv hb ha rfl hsame
  | reallocate address size =>
    rcases address with _ | address
    · refine ((HeapM.allocate_follows size ho hfull).map some).mono ?_
      intro h' hsame
      exact framed_of_same hsame rfl (by simp)
    obtain ⟨b, hb, rfl⟩ := hc address rfl
    obtain ⟨hb, ha⟩ := Block.mem_live.1 hb
    rw [perform, HeapM.reallocate, outline, Outline.reallocate]
    by_cases h0 : size = 0
    · simp only [if_pos h0]
      refine ((HeapM.free_follows ho hb ha).map fun _ => none).mono ?_
      intro h' hsame
      exact framed_of_release hv hb ha rfl hsame
    simp only [if_neg h0, Nat.add_sub_cancel_left]
    replace hfull' := hfull' (Option.some_ne_none _)
    refine ((HeapM.resize_follows ho hfull hfull' hb ha).map some).mono ?_
    intro h' hres
    refine ⟨fun i hi => hres.1 i (kept_release_of_others hv hb ha rfl hi), ?_, ?_, ?_⟩
    · intro e hr
      have hkept := hres.2
      rcases hx : (o.resize b.offset size).1 with e | address <;> rw [hx] at hr hkept
      · exact hkept
      · cases hr
    · rintro _ _ ⟨⟩
    · intro c hc n hcall address hr
      obtain ⟨hadd, rfl⟩ := Call.reallocate.inj hcall
      obtain rfl : b = c := hv.tiles.eq_of_offset_eq hb (Block.mem_live.1 hc).1
        (Nat.add_left_cancel (Option.some.inj hadd))
      have hcopied := hres.2
      rw [Except.eq_ok_of_map_some hr] at hcopied
      exact hcopied

/-! ### What becomes of the blocks -/

theorem effect (hv : o.map.Valid) (hc : c.Valid o) :
    Outline.Effect o c.handed c.requested (c.outline o) := by
  cases c with
  | allocate size => exact Outline.effect_allocate hv size
  | allocateZeroed count size =>
    rw [outline, Outline.allocateZeroed]
    split
    · exact (Outline.Extends.refl o).effect_error
    · exact Outline.effect_allocate hv (count * size)
  | free address =>
    rcases address with _ | address
    · exact ⟨rfl, rfl, rfl, Nat.le_refl _, ⟨_, .refl _, .refl _⟩, .inl rfl⟩
    obtain ⟨b, hb, rfl⟩ := hc address rfl
    obtain ⟨hb, ha⟩ := Block.mem_live.1 hb
    rw [outline, Outline.free, Nat.add_sub_cancel_left]
    exact Outline.effect_release hv hb ha
  | reallocate address size =>
    rcases address with _ | address
    · exact Outline.effect_allocate hv size
    obtain ⟨b, hb, rfl⟩ := hc address rfl
    obtain ⟨hb, ha⟩ := Block.mem_live.1 hb
    rw [outline, Outline.reallocate, Outline.free, Nat.add_sub_cancel_left]
    split
    · next h0 => rw [requested, h0]; exact Outline.effect_release hv hb ha
    · exact Outline.effect_resize hv hb ha size

theorem reallocs_outline (hv : o.map.Valid) (hc : c.Valid o) :
    (c.outline o).2.stats.reallocs ≤ o.stats.reallocs + if c.handed = none then 0 else 1 := by
  cases c with
  | allocate size => exact Nat.le_of_eq (Outline.reallocs_allocate hv size)
  | allocateZeroed count size =>
    rw [outline, Outline.allocateZeroed]
    split
    · exact Nat.le_refl _
    · exact Nat.le_of_eq (Outline.reallocs_allocate hv (count * size))
  | free address =>
    rcases address with _ | address
    · exact Nat.le_refl _
    · exact Nat.le_add_right ..
  | reallocate address size =>
    rcases address with _ | address
    · exact Nat.le_of_eq (Outline.reallocs_allocate hv size)
    obtain ⟨b, hb, rfl⟩ := hc address rfl
    obtain ⟨hb, ha⟩ := Block.mem_live.1 hb
    rw [outline, Outline.reallocate, Nat.add_sub_cancel_left]
    split
    · exact Nat.le_add_right ..
    · exact Outline.reallocs_resize hv hb ha size

theorem error_of_outline (hv : o.map.Valid) (hs : o.source.Sound o.base) (hc : c.Valid o)
    {e : Error} (h : (c.outline o).1 = .error e) : ¬e.Foreign := by
  cases c with
  | allocate size => exact Outline.error_of_allocate hs (Except.eq_error_of_map h)
  | allocateZeroed count size =>
    unfold outline Outline.allocateZeroed at h
    replace h := Except.eq_error_of_map h
    split at h
    · cases h; exact id
    · exact Outline.error_of_allocate hs h
  | free address => cases h
  | reallocate address size =>
    rcases address with _ | address
    · exact Outline.error_of_allocate hs (Except.eq_error_of_map h)
    obtain ⟨b, hb, rfl⟩ := hc address rfl
    obtain ⟨hb, ha⟩ := Block.mem_live.1 hb
    rw [outline, Outline.reallocate, Nat.add_sub_cancel_left] at h
    split at h
    · cases h
    · exact Outline.error_of_resize hv hs hb ha (Except.eq_error_of_map h)

end Call

end SegregatedFit
