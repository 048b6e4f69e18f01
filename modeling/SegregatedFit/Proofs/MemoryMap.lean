import SegregatedFit.Proofs.Links

/-!
# Memory maps

A `MemoryMap` is what headers and links of a heap say: its blocks from the first to the last, and the
blocks of each chain. It is `Valid` if the blocks lie one after another (`Tiles`), no two free ones
are neighbours (`Coalesced`) and the chains list exactly the free blocks, each once and in the class
of its size (`Chains.Lists`).

A `Gap` is a run of bytes that is about to get a new use, between the blocks before and after it. As
long as it is open it counts as allocated, so the map around it is valid too (`Gap.Valid`). A gap
takes in the free blocks next to it (`Gap.joinPrev`, `Gap.joinNext`) and is closed as one free block
(`Gap.fillFree`) or as an allocated block, with a free one behind it if there is room
(`Gap.fillAllocated`). All of this keeps maps valid.
-/

namespace SegregatedFit

/-! ### Blocks one after another -/

/-- The blocks lie one after another from `lo` up to `hi`, and have sizes that blocks may have. -/
def Tiles : (lo : Nat) → List Block → (hi : Nat) → Prop
  | lo, [], hi => lo = hi
  | lo, b :: bs, hi =>
    b.offset = lo ∧ minBlockSize ≤ b.size ∧ alignment ∣ b.size ∧ Tiles (lo + b.size) bs hi

namespace Tiles

variable {lo hi m : Nat} {b c : Block} {xs ys bs : List Block}

theorem append_iff : Tiles lo (xs ++ ys) hi ↔ ∃ m, Tiles lo xs m ∧ Tiles m ys hi := by
  induction xs generalizing lo with
  | nil => simp [Tiles]
  | cons x xs ih =>
    simp only [List.cons_append, Tiles, ih]
    constructor
    · rintro ⟨h1, h2, h3, m, h4, h5⟩; exact ⟨m, ⟨h1, h2, h3, h4⟩, h5⟩
    · rintro ⟨m, ⟨h1, h2, h3, h4⟩, h5⟩; exact ⟨h1, h2, h3, m, h4, h5⟩

theorem cons_iff : Tiles lo (b :: bs) hi ↔
    b.offset = lo ∧ 32 ≤ b.size ∧ 16 ∣ b.size ∧ Tiles (lo + b.size) bs hi := Iff.rfl

theorem stop_eq (h : Tiles lo bs hi) : hi = lo + Block.totalSize bs := by
  induction bs generalizing lo with
  | nil => exact h.symm
  | cons b bs ih => rw [ih h.2.2.2, Block.totalSize]; omega

theorem le (h : Tiles lo bs hi) : lo ≤ hi := by rw [h.stop_eq]; omega

theorem bounds (h : Tiles lo bs hi) (hb : b ∈ bs) :
    lo ≤ b.offset ∧ b.offset + b.size ≤ hi ∧ 32 ≤ b.size ∧ 16 ∣ b.size := by
  obtain ⟨xs, ys, rfl⟩ := List.append_of_mem hb
  obtain ⟨m, h1, h2⟩ := append_iff.1 h
  obtain ⟨h3, h4, h5, h6⟩ := cons_iff.1 h2
  have := h1.le
  have := h6.le
  exact ⟨by omega, by omega, h4, h5⟩

theorem aligned (h : Tiles lo bs hi) (ha : 16 ∣ lo) (hb : b ∈ bs) : 16 ∣ b.offset := by
  induction bs generalizing lo with
  | nil => simp at hb
  | cons x xs ih =>
    obtain ⟨h1, -, h3, h4⟩ := cons_iff.1 h
    rcases List.mem_cons.1 hb with rfl | hb
    · rw [h1]; exact ha
    · exact ih h4 (Nat.dvd_add ha h3) hb

theorem pairwise (h : Tiles lo bs hi) :
    bs.Pairwise fun b c => b.offset + b.size ≤ c.offset := by
  induction bs generalizing lo with
  | nil => exact .nil
  | cons x xs ih =>
    obtain ⟨h1, -, -, h4⟩ := cons_iff.1 h
    refine List.pairwise_cons.2 ⟨?_, ih h4⟩
    intro c hc
    have := (h4.bounds hc).1
    omega

theorem eq_or_apart (h : Tiles lo bs hi) (hb : b ∈ bs) (hc : c ∈ bs) :
    b = c ∨ b.offset + b.size ≤ c.offset ∨ c.offset + c.size ≤ b.offset := by
  obtain ⟨xs, ys, rfl⟩ := List.append_of_mem hb
  have hp := h.pairwise
  rw [List.pairwise_append, List.pairwise_cons] at hp
  rcases List.mem_append.1 hc with hc | hc
  · exact .inr (.inr (hp.2.2 c hc b (by simp)))
  · rcases List.mem_cons.1 hc with rfl | hc
    · exact .inl rfl
    · exact .inr (.inl (hp.2.1.1 c hc))

theorem eq_of_offset_eq (h : Tiles lo bs hi) (hb : b ∈ bs) (hc : c ∈ bs)
    (ho : b.offset = c.offset) : b = c := by
  have := (h.bounds hb).2.2.1
  have := (h.bounds hc).2.2.1
  rcases h.eq_or_apart hb hc with h | h
  · exact h
  · omega

theorem offset_ne (h : Tiles lo (xs ++ b :: ys) hi) (hc : c ∈ xs ++ ys) :
    c.offset ≠ b.offset := by
  have hp := h.pairwise
  have hbz := (h.bounds (b := b) (by simp)).2.2.1
  rw [List.pairwise_append, List.pairwise_cons] at hp
  rcases List.mem_append.1 hc with hc | hc
  · have := hp.2.2 c hc b (by simp)
    have := (h.bounds (b := c) (by simp [hc])).2.2.1
    omega
  · have := hp.2.1.1 c hc
    omega

end Tiles

/-- No two neighbours are free. -/
def Coalesced (bs : List Block) : Prop :=
  bs.IsChain fun b c => b.allocated = true ∨ c.allocated = true

namespace Coalesced

variable {b : Block} {xs ys : List Block}

theorem append_iff : Coalesced (xs ++ ys) ↔ Coalesced xs ∧ Coalesced ys ∧
    ∀ x ∈ xs.getLast?, ∀ y ∈ ys.head?, x.allocated = true ∨ y.allocated = true :=
  List.isChain_append

theorem cons_iff : Coalesced (b :: ys) ↔
    (∀ y ∈ ys.head?, b.allocated = true ∨ y.allocated = true) ∧ Coalesced ys :=
  List.isChain_cons

theorem around_allocated (hb : b.allocated = true) :
    Coalesced (xs ++ b :: ys) ↔ Coalesced xs ∧ Coalesced ys := by
  simp [append_iff, cons_iff, hb]

theorem around_free (hb : b.allocated = false) :
    Coalesced (xs ++ b :: ys) ↔ (Coalesced xs ∧ Coalesced ys) ∧
      (∀ x ∈ xs.getLast?, x.allocated = true) ∧ ∀ y ∈ ys.head?, y.allocated = true := by
  simp only [append_iff, cons_iff, hb, List.head?_cons, Option.mem_def, Option.some.injEq,
    forall_eq', Bool.false_eq_true, or_false, false_or]
  tauto

end Coalesced

/-! ### Chains of free blocks -/

namespace Chains

/-- The chains list the free ones among the blocks, each once and in the class of its size. -/
structure Lists (l : Chains) (bs : List Block) : Prop where
  nodup : ∀ c, (l c).Nodup
  mem : ∀ c x, x ∈ l c ↔
    ∃ b ∈ bs, b.allocated = false ∧ b.offset = x ∧ sizeClass b.size = c

namespace Lists

variable {l : Chains} {b : Block} {xs ys bs : List Block}

theorem around_allocated (hb : b.allocated = true) :
    l.Lists (xs ++ b :: ys) ↔ l.Lists (xs ++ ys) := by
  have h : ∀ P : Block → Prop, (∃ c ∈ xs ++ b :: ys, c.allocated = false ∧ P c) ↔
      ∃ c ∈ xs ++ ys, c.allocated = false ∧ P c := by
    intro P
    constructor
    · rintro ⟨c, hc, hf, hP⟩
      refine ⟨c, ?_, hf, hP⟩
      rcases List.mem_append.1 hc with hc | hc
      · exact List.mem_append_left _ hc
      · rcases List.mem_cons.1 hc with rfl | hc
        · rw [hb] at hf; cases hf
        · exact List.mem_append_right _ hc
    · rintro ⟨c, hc, hP⟩
      refine ⟨c, ?_, hP⟩
      rcases List.mem_append.1 hc with hc | hc <;> simp [hc]
  exact ⟨fun hl => ⟨hl.nodup, fun c x => (hl.mem c x).trans (h _)⟩,
    fun hl => ⟨hl.nodup, fun c x => (hl.mem c x).trans (h _).symm⟩⟩

theorem drop (hl : l.Lists (xs ++ b :: ys)) (hne : ∀ c ∈ xs ++ ys, c.offset ≠ b.offset) :
    (l.drop b.offset).Lists (xs ++ ys) := by
  constructor
  · exact fun c => (hl.nodup c).erase _
  intro c x
  rw [mem_drop (hl.nodup c), hl.mem]
  constructor
  · rintro ⟨hx, y, hy, hf, rfl, hc⟩
    refine ⟨y, ?_, hf, rfl, hc⟩
    rcases List.mem_append.1 hy with hy | hy
    · exact List.mem_append_left _ hy
    · rcases List.mem_cons.1 hy with rfl | hy
      · exact absurd rfl hx
      · exact List.mem_append_right _ hy
  · rintro ⟨y, hy, hf, rfl, hc⟩
    refine ⟨hne y hy, y, ?_, hf, rfl, hc⟩
    rcases List.mem_append.1 hy with hy | hy <;> simp [hy]

theorem push (hl : l.Lists (xs ++ ys)) (hb : b.allocated = false)
    (hne : ∀ c ∈ xs ++ ys, c.offset ≠ b.offset) :
    (l.push (sizeClass b.size) b.offset).Lists (xs ++ b :: ys) := by
  have hfresh : ∀ c, b.offset ∉ l c := by
    intro c h
    obtain ⟨y, hy, -, ho, -⟩ := (hl.mem c _).1 h
    exact hne y hy ho
  constructor
  · intro c
    by_cases hc : c = sizeClass b.size
    · subst hc
      rw [push_self]
      exact List.nodup_cons.2 ⟨hfresh _, hl.nodup _⟩
    · rw [push_of_ne hc]; exact hl.nodup c
  · intro c x
    rw [mem_push, hl.mem]
    constructor
    · rintro (⟨rfl, rfl⟩ | ⟨y, hy, hP⟩)
      · exact ⟨b, by simp, hb, rfl, rfl⟩
      · refine ⟨y, ?_, hP⟩
        rcases List.mem_append.1 hy with hy | hy <;> simp [hy]
    · rintro ⟨y, hy, hf, rfl, rfl⟩
      rcases List.mem_append.1 hy with hy | hy
      · exact .inr ⟨y, List.mem_append_left _ hy, hf, rfl, rfl⟩
      · rcases List.mem_cons.1 hy with rfl | hy
        · exact .inl ⟨rfl, rfl⟩
        · exact .inr ⟨y, List.mem_append_right _ hy, hf, rfl, rfl⟩

end Lists

end Chains

theorem Block.totalSize_append (xs ys : List Block) :
    Block.totalSize (xs ++ ys) = Block.totalSize xs + Block.totalSize ys := by
  induction xs with
  | nil => simp [totalSize]
  | cons x xs ih => simp only [List.cons_append, totalSize, ih]; omega

namespace Block

/-- Byte `i` belongs to the holder of the block. -/
def Holds (b : Block) (i : Nat) : Prop :=
  b.allocated = true ∧ b.offset ≤ i ∧ i + 8 < b.offset + b.size

/-- Byte `i` belongs to the holder of one of the blocks. -/
def Held (bs : List Block) (i : Nat) : Prop := ∃ b ∈ bs, b.Holds i

variable {b : Block} {xs ys : List Block} {i : Nat}

@[simp] theorem held_nil : Held [] i ↔ False := by simp [Held]

@[simp] theorem held_cons : Held (b :: xs) i ↔ b.Holds i ∨ Held xs i := by simp [Held]

@[simp] theorem held_append : Held (xs ++ ys) i ↔ Held xs i ∨ Held ys i := by
  simp only [Held, List.mem_append, or_and_right, exists_or]

@[simp] theorem not_holds_of_free (hb : b.allocated = false) : ¬b.Holds i :=
  fun h => absurd h.1 (by simp [hb])

end Block

/-! ### Maps -/

/-- What the headers and links of a heap say. -/
structure MemoryMap where
  /-- Where the first block is. -/
  first : Nat
  blocks : List Block
  chains : Chains

namespace MemoryMap

/-- Where the last block ends. -/
def stop (m : MemoryMap) : Nat := m.first + Block.totalSize m.blocks

structure Valid (m : MemoryMap) : Prop where
  first_ge : 32 ≤ m.first
  first_aligned : 16 ∣ m.first
  tiles : Tiles m.first m.blocks m.stop
  coalesced : Coalesced m.blocks
  lists : m.chains.Lists m.blocks

/-- Byte `i` is none of the allocator's: it lies before the first block, or in the payload of an
allocated one. -/
def Kept (m : MemoryMap) (i : Nat) : Prop :=
  i + 8 < m.first ∨ Block.Held m.blocks i

end MemoryMap

/-! ### Gaps -/

/-- A run of `size` bytes at `offset` between the blocks `before` and `after`. -/
structure Gap where
  first : Nat
  before : List Block
  offset : Nat
  size : Nat
  after : List Block
  chains : Chains

namespace Gap

def stop (g : Gap) : Nat := g.offset + g.size + Block.totalSize g.after

/-- All but the gap is as in a valid map, and the gap has a size that a block may have. -/
structure Valid (g : Gap) : Prop where
  first_ge : 32 ≤ g.first
  first_aligned : 16 ∣ g.first
  before : Tiles g.first g.before g.offset
  size_ge : 32 ≤ g.size
  size_aligned : 16 ∣ g.size
  after : Tiles (g.offset + g.size) g.after g.stop
  coalesced_before : Coalesced g.before
  coalesced_after : Coalesced g.after
  lists : g.chains.Lists (g.before ++ g.after)

def Kept (g : Gap) (i : Nat) : Prop :=
  i + 8 < g.first ∨ Block.Held (g.before ++ g.after) i

/-- The gap takes in the block before it if that is free. -/
def joinPrev (g : Gap) : Gap :=
  match g.before.getLast? with
  | none => g
  | some b =>
    if b.allocated then g
    else ⟨g.first, g.before.dropLast, b.offset, g.size + b.size, g.after, g.chains.drop b.offset⟩

/-- The gap takes in the block after it if that is free. -/
def joinNext (g : Gap) : Gap :=
  match g.after with
  | [] => g
  | b :: bs =>
    if b.allocated then g
    else ⟨g.first, g.before, g.offset, g.size + b.size, bs, g.chains.drop b.offset⟩

/-- The gap becomes an allocated block. -/
def fillWhole (g : Gap) : MemoryMap :=
  ⟨g.first, g.before ++ ⟨g.offset, g.size, true⟩ :: g.after, g.chains⟩

/-- The gap becomes a free block, listed first in its class. -/
def fillFree (g : Gap) : MemoryMap :=
  ⟨g.first, g.before ++ ⟨g.offset, g.size, false⟩ :: g.after,
    g.chains.push (sizeClass g.size) g.offset⟩

/-- The first `need` bytes become an allocated block, and the gap is what is left. -/
def split (g : Gap) (need : Nat) : Gap :=
  ⟨g.first, g.before ++ [⟨g.offset, need, true⟩], g.offset + need, g.size - need, g.after, g.chains⟩

/-- The first `need` bytes become an allocated block. So do the others with them if they are too
few for a block of their own, which is free. -/
def fillAllocated (g : Gap) (need : Nat) : MemoryMap :=
  if minBlockSize ≤ g.size - need then (g.split need).fillFree else g.fillWhole

variable {g : Gap} {b : Block} {xs ys : List Block} {need : Nat}

theorem joinPrev_of_allocated (h : ∀ x ∈ g.before.getLast?, x.allocated = true) :
    g.joinPrev = g := by
  unfold joinPrev
  split
  · rfl
  · next b hb => rw [if_pos (h b hb)]

theorem joinPrev_of_free (h : g.before = xs ++ [b]) (hb : b.allocated = false) :
    g.joinPrev =
      ⟨g.first, xs, b.offset, g.size + b.size, g.after, g.chains.drop b.offset⟩ := by
  simp [joinPrev, h, hb]

theorem joinNext_of_allocated (h : ∀ x ∈ g.after.head?, x.allocated = true) :
    g.joinNext = g := by
  unfold joinNext
  split
  · rfl
  · next b bs hb => rw [if_pos (h b (by simp [hb]))]

theorem joinNext_of_free (h : g.after = b :: ys) (hb : b.allocated = false) :
    g.joinNext =
      ⟨g.first, g.before, g.offset, g.size + b.size, ys, g.chains.drop b.offset⟩ := by
  simp [joinNext, h, hb]

theorem joinPrev_cases (g : Gap) :
    (∀ x ∈ g.before.getLast?, x.allocated = true) ∧ g.joinPrev = g ∨
    ∃ xs b, g.before = xs ++ [b] ∧ b.allocated = false ∧ g.joinPrev =
      ⟨g.first, xs, b.offset, g.size + b.size, g.after, g.chains.drop b.offset⟩ := by
  rcases List.eq_nil_or_concat g.before with h | ⟨xs, b, h⟩
  · have hx : ∀ x ∈ g.before.getLast?, x.allocated = true := by simp [h]
    exact .inl ⟨hx, joinPrev_of_allocated hx⟩
  · rw [List.concat_eq_append] at h
    cases hb : b.allocated with
    | true =>
      have hx : ∀ x ∈ g.before.getLast?, x.allocated = true := by simp [h, hb]
      exact .inl ⟨hx, joinPrev_of_allocated hx⟩
    | false => exact .inr ⟨xs, b, h, hb, joinPrev_of_free h hb⟩

theorem joinNext_cases (g : Gap) :
    (∀ x ∈ g.after.head?, x.allocated = true) ∧ g.joinNext = g ∨
    ∃ b ys, g.after = b :: ys ∧ b.allocated = false ∧ g.joinNext =
      ⟨g.first, g.before, g.offset, g.size + b.size, ys, g.chains.drop b.offset⟩ := by
  rcases h : g.after with _ | ⟨b, ys⟩
  · have hx : ∀ x ∈ g.after.head?, x.allocated = true := by simp [h]
    exact .inl ⟨by simp, joinNext_of_allocated hx⟩
  · cases hb : b.allocated with
    | true =>
      have hx : ∀ x ∈ g.after.head?, x.allocated = true := by simp [h, hb]
      exact .inl ⟨by simp [hb], joinNext_of_allocated hx⟩
    | false => exact .inr ⟨b, ys, rfl, hb, joinNext_of_free h hb⟩

/-! ### Gaps in valid maps -/

theorem Valid.joinPrev (hv : g.Valid) : g.joinPrev.Valid := by
  rcases g.joinPrev_cases with ⟨-, h⟩ | ⟨xs, b, hb, hf, h⟩ <;> rw [h]
  · exact hv
  have hl := hv.lists
  rw [hb, List.append_assoc] at hl
  obtain ⟨m, h1, h2⟩ := Tiles.append_iff.1 (hb ▸ hv.before)
  obtain ⟨rfl, h3, h4, h5⟩ := Tiles.cons_iff.1 h2
  replace h5 : b.offset + b.size = g.offset := h5
  have hz := hv.size_ge
  have hstop : b.offset + (g.size + b.size) = g.offset + g.size := by omega
  refine ⟨hv.first_ge, hv.first_aligned, h1, by simp only; omega,
    Nat.dvd_add hv.size_aligned h4, ?_, ?_, hv.coalesced_after, ?_⟩
  · show Tiles (b.offset + (g.size + b.size)) g.after
      (b.offset + (g.size + b.size) + Block.totalSize g.after)
    rw [hstop]; exact hv.after
  · have := hv.coalesced_before
    rw [hb] at this
    exact (Coalesced.append_iff.1 this).1
  · refine hl.drop ?_
    intro c hc
    have hcb : c ∈ xs ∨ c ∈ g.after := List.mem_append.1 hc
    rcases hcb with hc | hc
    · have := (h1.bounds hc).2; omega
    · have := (hv.after.bounds hc).1; omega

theorem Valid.joinNext (hv : g.Valid) : g.joinNext.Valid := by
  rcases g.joinNext_cases with ⟨-, h⟩ | ⟨b, ys, hb, hf, h⟩ <;> rw [h]
  · exact hv
  have hl := hv.lists
  rw [hb] at hl
  have ha := hv.after
  rw [stop, hb, Block.totalSize] at ha
  obtain ⟨h1, h3, h4, h5⟩ := Tiles.cons_iff.1 ha
  have hz := hv.size_ge
  have hstop : g.offset + (g.size + b.size) = g.offset + g.size + b.size := by omega
  refine ⟨hv.first_ge, hv.first_aligned, hv.before, by simp only; omega,
    Nat.dvd_add hv.size_aligned h4, ?_, hv.coalesced_before, ?_, ?_⟩
  · show Tiles (g.offset + (g.size + b.size)) ys
      (g.offset + (g.size + b.size) + Block.totalSize ys)
    rw [hstop]; convert h5 using 1; omega
  · have := hv.coalesced_after
    rw [hb] at this
    exact (Coalesced.cons_iff.1 this).2
  · refine hl.drop ?_
    intro c hc
    rcases List.mem_append.1 hc with hc | hc
    · have := (hv.before.bounds hc).2; omega
    · have := (h5.bounds hc).1; omega

theorem Valid.joinPrev_before (hv : g.Valid) :
    ∀ x ∈ g.joinPrev.before.getLast?, x.allocated = true := by
  rcases g.joinPrev_cases with ⟨hx, h⟩ | ⟨xs, b, hb, hf, h⟩ <;> rw [h]
  · exact hx
  · have := hv.coalesced_before
    rw [hb, Coalesced.around_free hf] at this
    exact this.2.1

theorem Valid.joinNext_after (hv : g.Valid) :
    ∀ x ∈ g.joinNext.after.head?, x.allocated = true := by
  rcases g.joinNext_cases with ⟨hx, h⟩ | ⟨b, ys, hb, hf, h⟩ <;> rw [h]
  · exact hx
  · have := hv.coalesced_after
    rw [hb, ← List.nil_append (b :: ys), Coalesced.around_free hf] at this
    exact this.2.2

theorem joinNext_before (g : Gap) : g.joinNext.before = g.before := by
  rcases g.joinNext_cases with ⟨-, h⟩ | ⟨b, ys, -, -, h⟩ <;> rw [h]

theorem joinNext_offset (g : Gap) : g.joinNext.offset = g.offset := by
  rcases g.joinNext_cases with ⟨-, h⟩ | ⟨b, ys, -, -, h⟩ <;> rw [h]

theorem joinPrev_after (g : Gap) : g.joinPrev.after = g.after := by
  rcases g.joinPrev_cases with ⟨-, h⟩ | ⟨xs, b, -, -, h⟩ <;> rw [h]

theorem Valid.stop_fillWhole (hv : g.Valid) : g.fillWhole.stop = g.stop := by
  have := hv.before.stop_eq
  simp only [Gap.fillWhole, MemoryMap.stop, stop, Block.totalSize_append, Block.totalSize]
  omega

theorem Valid.fillWhole (hv : g.Valid) : g.fillWhole.Valid := by
  refine ⟨hv.first_ge, hv.first_aligned, ?_, ?_, ?_⟩
  · rw [hv.stop_fillWhole]
    exact Tiles.append_iff.2 ⟨g.offset, hv.before, rfl, hv.size_ge, hv.size_aligned, hv.after⟩
  · exact (Coalesced.around_allocated rfl).2 ⟨hv.coalesced_before, hv.coalesced_after⟩
  · exact (Chains.Lists.around_allocated rfl).2 hv.lists

theorem Valid.stop_fillFree (hv : g.Valid) : g.fillFree.stop = g.stop := by
  have := hv.before.stop_eq
  simp only [Gap.fillFree, MemoryMap.stop, stop, Block.totalSize_append, Block.totalSize]
  omega

theorem Valid.fillFree (hv : g.Valid) (hb : ∀ x ∈ g.before.getLast?, x.allocated = true)
    (ha : ∀ x ∈ g.after.head?, x.allocated = true) : g.fillFree.Valid := by
  refine ⟨hv.first_ge, hv.first_aligned, ?_, ?_, ?_⟩
  · rw [hv.stop_fillFree]
    exact Tiles.append_iff.2
      ⟨g.offset, hv.before, rfl, hv.size_ge, hv.size_aligned, hv.after⟩
  · exact (Coalesced.around_free rfl).2 ⟨⟨hv.coalesced_before, hv.coalesced_after⟩, hb, ha⟩
  · refine Chains.Lists.push (b := ⟨g.offset, g.size, false⟩) hv.lists rfl ?_
    intro c hc
    have hz := hv.size_ge
    rcases List.mem_append.1 hc with hc | hc
    · have := hv.before.bounds hc; simp only; omega
    · have := hv.after.bounds hc; simp only; omega

theorem stop_split (hs : need ≤ g.size) : (g.split need).stop = g.stop := by
  simp only [split, stop]; omega

theorem Valid.split (hv : g.Valid) (hn : 32 ≤ need) (hn' : 16 ∣ need)
    (hr : 32 ≤ g.size - need) : (g.split need).Valid := by
  refine ⟨hv.first_ge, hv.first_aligned, ?_, hr, Nat.dvd_sub hv.size_aligned hn', ?_, ?_,
    hv.coalesced_after, ?_⟩
  · exact Tiles.append_iff.2 ⟨g.offset, hv.before, rfl, hn, hn', rfl⟩
  · rw [stop_split (by omega)]
    have hsum : g.offset + need + (g.size - need) = g.offset + g.size := by omega
    show Tiles (g.offset + need + (g.size - need)) g.after g.stop
    rw [hsum]; exact hv.after
  · exact (Coalesced.around_allocated rfl).2 ⟨hv.coalesced_before, .nil⟩
  · show g.chains.Lists ((g.before ++ [⟨g.offset, need, true⟩]) ++ g.after)
    rw [List.append_assoc]
    exact (Chains.Lists.around_allocated rfl).2 hv.lists

theorem split_before : ∀ x ∈ (g.split need).before.getLast?, x.allocated = true := by
  simp [Gap.split]

theorem Valid.stop_fillAllocated (hv : g.Valid) (hn : 32 ≤ need) (hn' : 16 ∣ need)
    (hs : need ≤ g.size) : (g.fillAllocated need).stop = g.stop := by
  unfold Gap.fillAllocated
  split
  · next hr => rw [(hv.split hn hn' hr).stop_fillFree, stop_split hs]
  · exact hv.stop_fillWhole

theorem Valid.fillAllocated (hv : g.Valid) (hn : 32 ≤ need) (hn' : 16 ∣ need)
    (ha : ∀ x ∈ g.after.head?, x.allocated = true) : (g.fillAllocated need).Valid := by
  unfold Gap.fillAllocated
  split
  · next hr => exact (hv.split hn hn' hr).fillFree split_before ha
  · exact hv.fillWhole

end Gap

namespace MemoryMap

variable {m : MemoryMap} {b c : Block} {xs ys : List Block}

/-- New bytes at the end of the arena are a gap. -/
def added (m : MemoryMap) (n : Nat) : Gap :=
  ⟨m.first, m.blocks, m.stop, n, [], m.chains⟩

/-- The gap that the block at `bp` leaves. -/
def gapAt (m : MemoryMap) (bp : Nat) : Gap :=
  match m.blocks.dropWhile fun b => b.offset ≠ bp with
  | [] => m.added 0
  | b :: after =>
    ⟨m.first, m.blocks.takeWhile fun b => b.offset ≠ bp, bp, b.size, after, m.chains.drop bp⟩

theorem Valid.added (hv : m.Valid) {n : Nat} (hn : 32 ≤ n) (hn' : 16 ∣ n) : (m.added n).Valid :=
  ⟨hv.first_ge, hv.first_aligned, hv.tiles, hn, hn', rfl, hv.coalesced, .nil, by
    show m.chains.Lists (m.blocks ++ [])
    rw [List.append_nil]; exact hv.lists⟩

theorem Valid.gapAt_eq (hv : m.Valid) (hb : m.blocks = xs ++ b :: ys) :
    m.gapAt b.offset = ⟨m.first, xs, b.offset, b.size, ys, m.chains.drop b.offset⟩ := by
  have hne : ∀ c ∈ xs, decide (c.offset ≠ b.offset) = true := fun c hc =>
    decide_eq_true ((hb ▸ hv.tiles).offset_ne (List.mem_append_left _ hc))
  have hd : m.blocks.dropWhile (fun c => c.offset ≠ b.offset) = b :: ys := by
    rw [hb, List.dropWhile_append_of_pos hne, List.dropWhile_cons_of_neg (by simp)]
  have ht : m.blocks.takeWhile (fun c => c.offset ≠ b.offset) = xs := by
    rw [hb, List.takeWhile_append_of_pos hne, List.takeWhile_cons_of_neg (by simp),
      List.append_nil]
  rw [gapAt, hd, ht]

theorem Valid.gapAt_split (hv : m.Valid) (hb : b ∈ m.blocks) :
    ∃ xs ys, m.blocks = xs ++ b :: ys ∧
      m.gapAt b.offset = ⟨m.first, xs, b.offset, b.size, ys, m.chains.drop b.offset⟩ := by
  obtain ⟨xs, ys, h⟩ := List.append_of_mem hb
  exact ⟨xs, ys, h, hv.gapAt_eq h⟩

theorem Valid.gapAt (hv : m.Valid) (hb : b ∈ m.blocks) : (m.gapAt b.offset).Valid := by
  obtain ⟨xs, ys, hb, hg⟩ := hv.gapAt_split hb
  have ht := hb ▸ hv.tiles
  obtain ⟨x, h1, h2⟩ := Tiles.append_iff.1 ht
  obtain ⟨rfl, h3, h4, h5⟩ := Tiles.cons_iff.1 h2
  have hc := hb ▸ hv.coalesced
  obtain ⟨hcx, hcy, -⟩ := Coalesced.append_iff.1 hc
  rw [hg]
  refine ⟨hv.first_ge, hv.first_aligned, h1, h3, h4, ?_, hcx, (Coalesced.cons_iff.1 hcy).2, ?_⟩
  · show Tiles (b.offset + b.size) ys (b.offset + b.size + Block.totalSize ys)
    rw [← h5.stop_eq]; exact h5
  · exact (hb ▸ hv.lists).drop fun c hc => ht.offset_ne hc

theorem Valid.gapAt_offset (hv : m.Valid) (hb : b ∈ m.blocks) :
    (m.gapAt b.offset).offset = b.offset := by
  obtain ⟨xs, ys, -, hg⟩ := hv.gapAt_split hb
  rw [hg]

theorem Valid.gapAt_size (hv : m.Valid) (hb : b ∈ m.blocks) :
    (m.gapAt b.offset).size = b.size := by
  obtain ⟨xs, ys, -, hg⟩ := hv.gapAt_split hb
  rw [hg]

theorem Valid.gapAt_neighbours (hv : m.Valid) (hb : b ∈ m.blocks) (hf : b.allocated = false) :
    (∀ x ∈ (m.gapAt b.offset).before.getLast?, x.allocated = true) ∧
      ∀ x ∈ (m.gapAt b.offset).after.head?, x.allocated = true := by
  obtain ⟨xs, ys, hb, hg⟩ := hv.gapAt_split hb
  have := hv.coalesced
  rw [hb, Coalesced.around_free hf] at this
  rw [hg]; exact this.2

theorem Valid.kept_gapAt (hv : m.Valid) (hb : b ∈ m.blocks) (hf : b.allocated = false) {i : Nat} :
    (m.gapAt b.offset).Kept i ↔ m.Kept i := by
  obtain ⟨xs, ys, hb, hg⟩ := hv.gapAt_split hb
  rw [hg]
  simp [Kept, Gap.Kept, hb, hf]

theorem Valid.not_mem_chains (hv : m.Valid) (hb : b ∈ m.blocks) (ha : b.allocated = true)
    (d : SizeClass) : b.offset ∉ m.chains d := by
  intro h
  obtain ⟨c, hc, hf, ho, -⟩ := (hv.lists.mem d _).1 h
  rw [hv.tiles.eq_of_offset_eq hc hb ho, ha] at hf
  cases hf

theorem Valid.fillWhole_gapAt (hv : m.Valid) (hb : b ∈ m.blocks) (ha : b.allocated = true) :
    (m.gapAt b.offset).fillWhole = m := by
  have hn := Chains.drop_eq_self (hv.not_mem_chains hb ha)
  obtain ⟨xs, ys, hb, hg⟩ := hv.gapAt_split hb
  obtain ⟨o, z, _⟩ := b
  obtain rfl : _ = true := ha
  rw [hg, hn, Gap.fillWhole, ← hb]

theorem Valid.mem_chains (hv : m.Valid) (hb : b ∈ m.blocks) (hf : b.allocated = false) :
    b.offset ∈ m.chains (sizeClass b.size) :=
  (hv.lists.mem _ _).2 ⟨b, hb, hf, rfl, rfl⟩

theorem Valid.spread (hv : m.Valid) : m.chains.Spread m.stop := by
  refine ⟨hv.lists.nodup, ?_, ?_⟩
  · intro c x hx
    obtain ⟨b, hb, -, rfl, -⟩ := (hv.lists.mem c x).1 hx
    have := hv.tiles.bounds hb
    have := hv.first_ge
    omega
  · intro c d x hx y hy
    obtain ⟨b, hb, -, rfl, rfl⟩ := (hv.lists.mem c x).1 hx
    obtain ⟨b', hb', -, rfl, rfl⟩ := (hv.lists.mem d y).1 hy
    have := hv.tiles.bounds hb
    have := hv.tiles.bounds hb'
    rcases hv.tiles.eq_or_apart hb hb' with rfl | h
    · exact .inl ⟨rfl, rfl⟩
    · exact .inr (by omega)

end MemoryMap

end SegregatedFit
