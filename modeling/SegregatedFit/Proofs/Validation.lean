import SegregatedFit.Heap.Check
import SegregatedFit.Proofs.WellFormed

/-!
# What the check of a heap decides

`Heap.Consistent h bs` says what has to hold of the words of a heap whose blocks are `bs`, and trusts
nothing that is in them. The check of a laid out heap finds no violation exactly if that holds
(`Heap.violations_eq_nil_iff`), whatever bytes the arena has and whatever the heads of the chains are.

A step of either walk that finds nothing is described once (`checkBlocksFrom_succ`,
`checkChainFrom_succ`); what a whole walk accepts follows by induction in both directions
(`accepts_of_checkBlocksFrom`, `Accepts.checkBlocksFrom_eq`, `checkChains_eq_iff`). That the chains
list the free blocks of their class, and no others, comes from counting: all free blocks are listed,
and there are no more listed ones than free ones (`lists_iff_perm`).
-/

namespace SegregatedFit

namespace Arena

variable {a : Arena} {b i w : Nat} {t : Tag}

theorem readWord_eq_ok_iff :
    a.readWord i = .ok w ↔ i + 8 < Word.limit ∧ i + 8 ≤ a.size ∧ w = a.word i := by
  rw [readWord, bind_eq_ok_iff]
  constructor
  · rintro ⟨⟨⟩, hr, hw⟩
    obtain ⟨h1, h2⟩ := checkRange_eq_ok_iff.1 hr
    exact ⟨h1, h2, (Except.ok.inj hw).symm⟩
  · rintro ⟨h1, h2, hw⟩
    exact ⟨(), checkRange_of_le h2 h1, by rw [pure_eq_ok, hw]⟩

theorem prevFree_eq_ok_iff :
    a.prevFree b = .ok w ↔ b + 16 < Word.limit ∧ b + 16 ≤ a.size ∧ w = a.word (b + 8) := by
  rw [prevFree, bind_eq_ok_iff]
  simp only [Word.add_eq_ok_iff, readWord_eq_ok_iff, wordSize]
  constructor
  · rintro ⟨_, ⟨-, rfl⟩, h⟩; exact h
  · rintro ⟨h1, h2⟩; exact ⟨b + 8, ⟨by omega, rfl⟩, h1, h2⟩

end Arena

namespace Heap

/-! ### What has to hold -/

/-- Where `create` puts things: the first block is aligned and lies behind room for the prologue, and
the bytes of the arena have addresses. -/
structure Placed (h : Heap) : Prop where
  start_ge : 2 * wordSize ≤ h.start
  aligned : alignment ∣ h.firstBlock
  addressable : h.arena.base + h.size < Word.limit

/-- The headers of the blocks and of the end of the arena, which has size zero and is the last word,
know about the block before them. The block before the first is allocated or not, as `p` says. -/
def Headed (h : Heap) (p : Bool) (bs : List Block) : Prop :=
  ∀ xs b ys, bs ++ [.last h.size] = xs ++ b :: ys →
    h.arena.header b.offset = .ok ⟨b.size, b.allocated, flagAfter p xs⟩

/-- The last word but one of the block is a footer that agrees about its size and that it is free. -/
def Footed (h : Heap) (b : Block) : Prop :=
  ∃ w, h.arena.readWord (b.offset + b.size - 2 * wordSize) = .ok w ∧
    (Tag.unpack w).size = b.size ∧ (Tag.unpack w).allocated = false

/-- The words of a heap are consistent, and `bs` are its blocks. -/
structure Consistent (h : Heap) (bs : List Block) : Prop where
  /-- Header and footer of the prologue are the same word, which tells of an allocated block. -/
  prologue : ∃ w, h.arena.readWord (h.start - wordSize) = .ok w ∧ h.arena.readWord h.start = .ok w ∧
    (Tag.unpack w).size = 2 * wordSize ∧ (Tag.unpack w).allocated = true
  /-- The blocks lie one after another from the first block to the end of the arena, and their sizes
  are multiples of the alignment and large enough. -/
  tiles : Tiles h.firstBlock bs h.size
  headers : h.Headed true bs
  footers : ∀ b ∈ bs, b.allocated = false → h.Footed b
  coalesced : Coalesced bs
  /-- Every chain is a list that is linked both ways, ends with `nil` and has exactly the free blocks
  of its class, each once. -/
  chains : ∀ c, ∃ xs : List Nat, xs.Nodup ∧ h.index.head c = xs.headD nil ∧
    h.arena.Linked nil xs nil ∧
    ∀ x, x ∈ xs ↔ ∃ b ∈ bs, b.allocated = false ∧ b.offset = x ∧ sizeClass b.size = c

/-- The blocks from `bp` to the end of the arena are as they have to be. The block before is allocated
or not, as `p` says. -/
def Accepts (h : Heap) : (bp : Nat) → (p : Bool) → List Block → Prop
  | bp, p, [] => bp = h.size ∧ h.arena.header bp = .ok ⟨0, true, p⟩
  | bp, p, b :: bs =>
    b.offset = bp ∧ minBlockSize ≤ b.size ∧ alignment ∣ b.size ∧
    h.arena.header bp = .ok ⟨b.size, b.allocated, p⟩ ∧
    (b.allocated = false → p = true ∧ h.Footed b) ∧ h.Accepts (bp + b.size) b.allocated bs

/-- There is room for two links at `x`, and the header there tells of a free block of class `c`. -/
structure Member (h : Heap) (c : SizeClass) (x : Nat) : Prop where
  first_le : h.firstBlock ≤ x
  le_size : x + 2 * wordSize ≤ h.size
  header : ∃ t, h.arena.header x = .ok t ∧ t.allocated = false ∧ sizeClass t.size = c

/-- Chain `c` is linked both ways, and lists blocks that may be in it, each once. -/
structure Chain (h : Heap) (c : SizeClass) (xs : List Nat) : Prop where
  head : h.index.head c = xs.headD nil
  linked : h.arena.Linked nil xs nil
  nodup : xs.Nodup
  members : ∀ x ∈ xs, h.Member c x

/-- Offsets of the free ones among the blocks. -/
def freeOffsets (bs : List Block) : List Nat := (bs.filter (!·.allocated)).map (·.offset)

variable {h : Heap} {bp prev : Nat} {p : Bool} {q : Option Nat} {t : Tag} {bs : List Block}

/-! ### Single checks -/

theorem unless_eq_nil_iff {c : Prop} [Decidable c] {v : Violation} :
    (if c then [] else [v]) = [] ↔ c := by
  split <;> simp_all

theorem when_eq_nil_iff {c : Prop} [Decidable c] {v : Violation} :
    (if c then [v] else []) = [] ↔ ¬c := by
  split <;> simp_all

theorem checkPrev_eq_nil_iff : checkPrev bp t p = [] ↔ t.prevAllocated = p :=
  unless_eq_nil_iff

theorem checkPrologue_eq_nil_iff (hs : 8 ≤ h.start) : h.checkPrologue = .ok [] ↔
    ∃ w, h.arena.readWord (h.start - wordSize) = .ok w ∧ h.arena.readWord h.start = .ok w ∧
      (Tag.unpack w).size = 2 * wordSize ∧ (Tag.unpack w).allocated = true := by
  have hpos : Arena.headerPos h.start = .ok (h.start - wordSize) := Word.sub_of_le hs
  simp only [checkPrologue, Arena.header, hpos, ok_bind, bind_eq_ok_iff, pure_eq_ok]
  constructor
  · rintro ⟨t, ⟨w, hw, ht⟩, w', hw', hc⟩
    cases ht
    split at hc
    · next hc' =>
      obtain ⟨hz, ha, he⟩ := hc'
      have hww : w = w' := by rw [← Tag.pack_unpack w, he, Tag.pack_unpack]
      exact ⟨w, hw, hww ▸ hw', hz, ha⟩
    · cases hc
  · rintro ⟨w, hw, hw', hz, ha⟩
    exact ⟨_, ⟨w, hw, rfl⟩, w, hw', if_pos ⟨hz, ha, rfl⟩⟩

theorem checkEpilogue_eq_nil_iff (hb : 8 ≤ bp) (hs : 8 ≤ h.size) :
    h.checkEpilogue bp t p = .ok [] ↔ t.allocated = true ∧ bp = h.size ∧ t.prevAllocated = p := by
  have hpos : Arena.headerPos bp = .ok (bp - 8) := Word.sub_of_le hb
  have hlast : Word.sub h.size wordSize = .ok (h.size - 8) := Word.sub_of_le hs
  simp only [checkEpilogue, hpos, hlast, ok_bind, pure_eq_ok, Except.ok.injEq,
    List.append_eq_nil_iff, checkPrev_eq_nil_iff]
  constructor
  · rintro ⟨h1, h2⟩
    split at h1
    · next h3 => exact ⟨h3.1, by omega, h2⟩
    · cases h1
  · rintro ⟨h1, rfl, h2⟩
    exact ⟨if_pos ⟨h1, rfl⟩, h2⟩

theorem checkHeader_eq_nil_iff : h.checkHeader bp t p = .ok [] ↔
    h.arena.base + bp < Word.limit ∧ 16 ∣ h.arena.base + bp ∧ 32 ≤ t.size ∧ 16 ∣ t.size ∧
      t.prevAllocated = p := by
  simp only [checkHeader, bind_eq_ok_iff, Word.add_eq_ok_iff, pure_eq_ok, Except.ok.injEq,
    List.append_eq_nil_iff, checkPrev_eq_nil_iff, unless_eq_nil_iff, Nat.dvd_iff_mod_eq_zero]
  constructor
  · rintro ⟨_, ⟨h1, rfl⟩, ⟨⟨h2, h3⟩, h4⟩, h5⟩; exact ⟨h1, h2, h3, h4, h5⟩
  · rintro ⟨h1, h2, h3, h4, h5⟩; exact ⟨_, ⟨h1, rfl⟩, ⟨⟨h2, h3⟩, h4⟩, h5⟩

theorem checkFree_eq_nil_iff {b : Block} (hh : h.arena.header b.offset = .ok t)
    (hz : t.size = b.size) (h32 : 32 ≤ b.size) (hlt : b.offset + b.size < Word.limit) :
    h.checkFree b.offset t q = .ok [] ↔ h.Footed b ∧ q = none := by
  have hpos : h.arena.footerPos b.offset = .ok (b.offset + b.size - 16) := by
    rw [Arena.footerPos, hh, ok_bind, hz, Arena.footerPosOf_eq (by omega) hlt]
  have hbig : ¬t.size < 2 * wordSize := by simp only [wordSize]; omega
  rw [checkFree, if_neg hbig, Arena.footer, hpos]
  simp only [ok_bind, pure_eq_ok, bind_assoc, bind_eq_ok_iff, Footed, wordSize, Nat.reduceMul, hz]
  constructor
  · rintro ⟨w, hw, hv⟩
    split at hv <;> cases q <;> cases hv
    next hc => exact ⟨⟨w, hw, hc.1, by simpa using hc.2⟩, rfl⟩
  · rintro ⟨⟨w, hw, hws, hwa⟩, rfl⟩
    exact ⟨w, hw, if_pos ⟨hws, by simp [hwa]⟩⟩

/-- What ends inside the arena is seen to do so. -/
theorem endsInside_of_le {z : Nat} (hb : 16 ≤ bp) (hz : bp + z ≤ h.size)
    (ha : h.arena.base + h.size < Word.limit) : h.endsInside bp z = .ok true := by
  have h1 : Word.addSaturating (Word.addSaturating h.arena.base bp) z =
      h.arena.base + bp + z := by
    simp only [Word.addSaturating]; omega
  have h2 : Word.sub (h.arena.base + bp + z) (wordSize + 1) = .ok (h.arena.base + bp + z - 9) :=
    Word.sub_of_le (by simp only [wordSize]; omega)
  rw [endsInside, h1, h2, ok_bind, pure_eq_ok, lastAddress, decide_eq_true]
  omega

/-! ### The walk over the blocks -/

theorem Accepts.le (ha : h.Accepts bp p bs) : bp ≤ h.size := by
  induction bs generalizing bp p with
  | nil => exact Nat.le_of_eq ha.1
  | cons b bs ih => exact Nat.le_trans (Nat.le_add_right ..) (ih ha.2.2.2.2.2)

theorem freeOffsets_cons {b : Block} : freeOffsets (b :: bs) =
    if b.allocated then freeOffsets bs else b.offset :: freeOffsets bs := by
  rw [freeOffsets, List.filter_cons]
  cases b.allocated <;> rfl

/-- A step of the walk that finds nothing. -/
theorem checkBlocksFrom_succ {fuel : Nat} {xs : List Nat} (hin : bp ≤ h.size)
    (ht : h.arena.header bp = .ok t) (hz : t.size ≠ 0) :
    h.checkBlocksFrom (fuel + 1) bp p q = .ok ⟨[], xs⟩ ↔
      h.endsInside bp t.size = .ok true ∧ h.checkHeader bp t p = .ok [] ∧
        (t.allocated = false → h.checkFree bp t q = .ok []) ∧ bp + t.size < Word.limit ∧
          ∃ ys, h.checkBlocksFrom fuel (bp + t.size) t.allocated
            (if t.allocated then none else some bp) = .ok ⟨[], ys⟩ ∧
              xs = if t.allocated then ys else bp :: ys := by
  rw [checkBlocksFrom, if_neg (by omega), ht, ok_bind, if_neg hz, bind_eq_ok_iff]
  obtain ⟨z, a, pa⟩ := t
  cases a <;>
  simp only [bind_eq_ok_iff, ok_bind, pure_eq_ok, Word.add_eq_ok_iff, Bool.exists_bool,
    Bool.false_eq_true, if_true, if_false, not_true, not_false_eq_true, Except.ok.injEq,
    BlockReport.mk.injEq, List.append_eq_nil_iff, reduceCtorEq, false_and, and_false, false_or,
    false_implies, true_and, List.append_nil, forall_const]
  · constructor
    · rintro ⟨hi, _, ho, _, hf, _, ⟨hlt, rfl⟩, ⟨_, ys⟩, hr, ⟨⟨rfl, rfl⟩, rfl⟩, rfl⟩
      exact ⟨hi, ho, hf, hlt, ys, hr, rfl⟩
    · rintro ⟨hi, ho, hf, hlt, ys, hr, rfl⟩
      exact ⟨hi, _, ho, _, hf, _, ⟨hlt, rfl⟩, _, hr, ⟨⟨rfl, rfl⟩, rfl⟩, rfl⟩
  · constructor
    · rintro ⟨hi, _, ho, _, ⟨hlt, rfl⟩, ⟨_, ys⟩, hr, ⟨rfl, rfl⟩, rfl⟩
      exact ⟨hi, ho, hlt, ys, hr, rfl⟩
    · rintro ⟨hi, ho, hlt, ys, hr, rfl⟩
      exact ⟨hi, _, ho, _, ⟨hlt, rfl⟩, _, hr, ⟨rfl, rfl⟩, rfl⟩

theorem accepts_of_checkBlocksFrom {fuel : Nat} {xs : List Nat} (hb : 16 ≤ bp)
    (hq : q.isNone = p) (hr : h.checkBlocksFrom fuel bp p q = .ok ⟨[], xs⟩) :
    ∃ bs, h.Accepts bp p bs ∧ freeOffsets bs = xs := by
  induction fuel generalizing bp p q xs with
  | zero => cases hr
  | succ fuel ih =>
    have hin : bp ≤ h.size := by
      by_contra hout
      rw [checkBlocksFrom, if_pos (by omega)] at hr
      cases hr
    obtain ⟨t, ht⟩ : ∃ t, h.arena.header bp = .ok t := by
      rw [checkBlocksFrom, if_neg (by omega)] at hr
      obtain ⟨t, ht, -⟩ := bind_eq_ok_iff.1 hr
      exact ⟨t, ht⟩
    by_cases hz : t.size = 0
    · rw [checkBlocksFrom, if_neg (by omega), ht, ok_bind, if_pos hz] at hr
      obtain ⟨v, hv, hr⟩ := bind_eq_ok_iff.1 hr
      cases hr
      obtain ⟨ha, rfl, hp⟩ := (checkEpilogue_eq_nil_iff (by omega) (by omega)).1 hv
      obtain ⟨_, _, _⟩ := t
      subst hz ha hp
      exact ⟨[], ⟨rfl, ht⟩, rfl⟩
    · obtain ⟨-, ho, hf, hlt, ys, hr, hxs⟩ := (checkBlocksFrom_succ hin ht hz).1 hr
      obtain ⟨-, -, h32, h16, hp⟩ := checkHeader_eq_nil_iff.1 ho
      obtain ⟨bs, hbs, rfl⟩ := ih (by omega) (by cases t.allocated <;> rfl) hr
      refine ⟨⟨bp, t.size, t.allocated⟩ :: bs, ⟨rfl, h32, h16, ?_, ?_, hbs⟩, ?_⟩
      · rw [ht, ← hp]
      · intro ha
        obtain ⟨hfoot, rfl⟩ := (checkFree_eq_nil_iff (b := ⟨bp, t.size, t.allocated⟩) ht rfl h32
          hlt).1 (hf ha)
        exact ⟨hq.symm, hfoot⟩
      · rw [hxs, freeOffsets_cons]

theorem Placed.checkHeader_eq_nil (hp : h.Placed) (hb : 16 ∣ bp) (hle : bp ≤ h.size)
    (h32 : 32 ≤ t.size) (h16 : 16 ∣ t.size) : h.checkHeader bp t t.prevAllocated = .ok [] := by
  have := hp.addressable
  exact checkHeader_eq_nil_iff.2 ⟨by omega, Nat.dvd_add h.arena.alignment_dvd_base hb, h32, h16, rfl⟩

theorem Accepts.checkBlocksFrom_eq {fuel : Nat} (ha : h.Accepts bp p bs) (hp : h.Placed)
    (hb : 16 ≤ bp) (hb' : 16 ∣ bp) (hq : q.isNone = p) (hf : h.size < fuel + bp) :
    h.checkBlocksFrom fuel bp p q = .ok ⟨[], freeOffsets bs⟩ := by
  induction bs generalizing bp p q fuel with
  | nil =>
    obtain ⟨rfl, ht⟩ := ha
    obtain ⟨f, rfl⟩ : ∃ f, fuel = f + 1 := ⟨fuel - 1, by omega⟩
    rw [checkBlocksFrom, if_neg (by omega), ht, ok_bind, if_pos rfl,
      (checkEpilogue_eq_nil_iff (by omega) (by omega)).2 ⟨rfl, rfl, rfl⟩]
    rfl
  | cons b bs ih =>
    have hle := ha.le
    obtain ⟨rfl, h32, h16, ht, hfree, hrest⟩ := ha
    have h32 : 32 ≤ b.size := h32
    have hend := hrest.le
    have hlt := hp.addressable
    obtain ⟨f, rfl⟩ : ∃ f, fuel = f + 1 := ⟨fuel - 1, by omega⟩
    refine (checkBlocksFrom_succ hle ht (by simp only; omega)).2
      ⟨endsInside_of_le hb hend hlt, hp.checkHeader_eq_nil hb' hle h32 h16, ?_,
        by simp only; omega, freeOffsets bs, ?_, freeOffsets_cons⟩
    · intro hba
      obtain ⟨rfl, hfoot⟩ := hfree hba
      exact (checkFree_eq_nil_iff ht rfl h32 (by omega)).2 ⟨hfoot, Option.isNone_iff_eq_none.1 hq⟩
    · exact ih hrest (by omega) (Nat.dvd_add hb' h16) (by cases b.allocated <;> rfl)
        (by simp only; omega)

theorem headed_cons {b : Block} : h.Headed p (b :: bs) ↔
    h.arena.header b.offset = .ok ⟨b.size, b.allocated, p⟩ ∧ h.Headed b.allocated bs := by
  constructor
  · intro hh
    exact ⟨hh [] b _ rfl, fun xs c ys he => hh (b :: xs) c ys (congrArg (b :: ·) he)⟩
  · rintro ⟨hb, hh⟩ (_ | ⟨x, xs⟩) c ys he
    · obtain ⟨rfl, -⟩ := List.cons.inj he
      exact hb
    · obtain ⟨rfl, he'⟩ := List.cons.inj he
      exact hh xs c ys he'

theorem headed_nil : h.Headed p [] ↔ h.arena.header h.size = .ok ⟨0, true, p⟩ := by
  constructor
  · exact fun hh => hh [] _ [] rfl
  · rintro hb (_ | ⟨x, xs⟩) c ys he
    · obtain ⟨rfl, -⟩ := List.cons.inj he
      exact hb
    · have := congrArg List.length he
      simp at this

/-- What the walk accepts, clause by clause. -/
theorem accepts_iff : h.Accepts bp p bs ↔
    Tiles bp bs h.size ∧ h.Headed p bs ∧ (∀ b ∈ bs, b.allocated = false → h.Footed b) ∧
      Coalesced bs ∧ ∀ b ∈ bs.head?, p = true ∨ b.allocated = true := by
  induction bs generalizing bp p with
  | nil =>
    rw [Accepts, Tiles, headed_nil]
    constructor
    · rintro ⟨rfl, hb⟩; exact ⟨rfl, hb, List.forall_mem_nil _, .nil, by simp⟩
    · rintro ⟨rfl, hb, -⟩; exact ⟨rfl, hb⟩
  | cons b bs ih =>
    rw [Accepts, Tiles, ih, headed_cons, Coalesced.cons_iff, List.forall_mem_cons]
    simp only [List.head?_cons, Option.mem_def, Option.some.injEq, forall_eq']
    constructor
    · rintro ⟨rfl, h32, h16, hb, hf, ht, hh, hfs, hc, hn⟩
      refine ⟨⟨rfl, h32, h16, ht⟩, ⟨hb, hh⟩, ⟨fun ha => (hf ha).2, hfs⟩, ⟨hn, hc⟩, ?_⟩
      cases ha : b.allocated
      · exact .inl (hf ha).1
      · exact .inr rfl
    · rintro ⟨⟨rfl, h32, h16, ht⟩, ⟨hb, hh⟩, ⟨hf, hfs⟩, ⟨hn, hc⟩, hp⟩
      refine ⟨rfl, h32, h16, hb, fun ha => ⟨?_, hf ha⟩, ht, hh, hfs, hc, hn⟩
      simpa [ha] using hp

/-! ### The walk along a chain -/

variable {c : SizeClass} {x fuel : Nat} {met listed xs ys : List Nat}

theorem checkMember_eq_nil_iff : h.checkMember c x prev = .ok [] ↔
    (∃ t, h.arena.header x = .ok t ∧ t.allocated = false ∧ sizeClass t.size = c) ∧
      x + 16 < Word.limit ∧ x + 16 ≤ h.size ∧ h.arena.word (x + 8) = prev := by
  simp only [checkMember, bind_eq_ok_iff, pure_eq_ok, Except.ok.injEq, List.append_eq_nil_iff,
    when_eq_nil_iff, unless_eq_nil_iff, Bool.not_eq_true, Arena.prevFree_eq_ok_iff, and_assoc,
    exists_and_left, exists_eq_left]
  constructor
  · rintro ⟨t, ht, h1, h2, hf, hc, hw⟩
    exact ⟨⟨t, ht, hf, hc⟩, h1, h2, hw⟩
  · rintro ⟨⟨t, ht, hf, hc⟩, h1, h2, hw⟩
    exact ⟨t, ht, h1, h2, hf, hc, hw⟩

/-- A step along a chain that finds nothing. -/
theorem checkChainFrom_succ (hs : h.size < Word.limit) (hx : x ≠ nil) :
    h.checkChainFrom c (fuel + 1) x prev met listed = .ok ⟨[], ys⟩ ↔
      x ∉ met ∧ x ∉ listed ∧ h.Member c x ∧ h.arena.word (x + 8) = prev ∧
        h.checkChainFrom c fuel (h.arena.word x) x (x :: met) (x :: listed) = .ok ⟨[], ys⟩ := by
  have hroom : x + 2 * wordSize ≤ h.size → ¬h.size < Word.addSaturating x (2 * wordSize) := by
    simp only [Word.addSaturating]; omega
  rw [checkChainFrom, if_neg hx]
  by_cases hout : x < h.firstBlock ∨ h.size < Word.addSaturating x (2 * wordSize)
  · rw [if_pos hout]
    refine ⟨nofun, fun hr => absurd hout (not_or.2 ⟨?_, hroom hr.2.2.1.le_size⟩)⟩
    exact Nat.not_lt.2 hr.2.2.1.first_le
  by_cases hmet : x ∈ met
  · rw [if_neg hout, if_pos hmet]
    exact ⟨nofun, fun hr => absurd hmet hr.1⟩
  rw [if_neg hout, if_neg hmet]
  by_cases hl : x ∈ listed
  · simp only [bind_eq_ok_iff, pure_eq_ok, Except.ok.injEq, ChainReport.mk.injEq,
      List.append_eq_nil_iff, when_eq_nil_iff]
    exact ⟨fun ⟨_, _, _, _, _, _, ⟨⟨hl', _⟩, _⟩, _⟩ => absurd hl hl', fun hr => absurd hl hr.2.1⟩
  simp only [List.insert_of_not_mem hl, bind_eq_ok_iff, pure_eq_ok, Except.ok.injEq,
    ChainReport.mk.injEq, List.append_eq_nil_iff, when_eq_nil_iff, Arena.nextFree,
    Arena.readWord_eq_ok_iff, and_assoc, exists_and_left, exists_eq_left]
  constructor
  · rintro ⟨v, hm, h1, h2, ⟨_, _⟩, hr, -, rfl, rfl, rfl⟩
    obtain ⟨ht, -, hle, hw⟩ := checkMember_eq_nil_iff.1 hm
    exact ⟨hmet, hl, ⟨by omega, hle, ht⟩, hw, hr⟩
  · rintro ⟨-, -, hm, hw, hr⟩
    have hle : x + 16 ≤ h.size := hm.le_size
    have hlt : x + 16 < Word.limit := by omega
    exact ⟨[], checkMember_eq_nil_iff.2 ⟨hm.header, hlt, hle, hw⟩, by omega,
      Nat.le_trans (by omega) hle, _, hr, hl, rfl, rfl, rfl⟩

theorem chain_of_checkChainFrom (hs : h.size < Word.limit)
    (hr : h.checkChainFrom c fuel x prev met listed = .ok ⟨[], ys⟩) :
    ∃ xs : List Nat, x = xs.headD nil ∧ h.arena.Linked prev xs nil ∧ xs.Nodup ∧
      (∀ y ∈ xs, h.Member c y ∧ y ∉ listed) ∧ ys = xs.reverse ++ listed := by
  induction fuel generalizing x prev met listed with
  | zero => cases hr
  | succ fuel ih =>
    by_cases hx : x = nil
    · rw [checkChainFrom, if_pos hx] at hr
      cases hr
      exact ⟨[], hx, trivial, .nil, nofun, rfl⟩
    obtain ⟨-, hl, hm, hw, hr⟩ := (checkChainFrom_succ hs hx).1 hr
    obtain ⟨xs, hn, hk, hd, hxs, rfl⟩ := ih hr
    refine ⟨x :: xs, rfl, ⟨hn, hw, hk⟩, List.nodup_cons.2 ⟨?_, hd⟩, ?_, by simp⟩
    · exact fun hmem => (hxs x hmem).2 List.mem_cons_self
    · intro y hy
      rcases List.mem_cons.1 hy with rfl | hy
      · exact ⟨hm, hl⟩
      · exact ⟨(hxs y hy).1, fun h => (hxs y hy).2 (List.mem_cons_of_mem x h)⟩

theorem checkChainFrom_eq (hs : h.size < Word.limit) (hf : 0 < h.firstBlock)
    (hk : h.arena.Linked prev xs nil) (hd : xs.Nodup)
    (hxs : ∀ y ∈ xs, h.Member c y ∧ y ∉ met ∧ y ∉ listed) (hlt : xs.length < fuel) :
    h.checkChainFrom c fuel (xs.headD nil) prev met listed = .ok ⟨[], xs.reverse ++ listed⟩ := by
  induction xs generalizing prev met listed fuel with
  | nil =>
    obtain ⟨f, rfl⟩ : ∃ f, fuel = f + 1 := ⟨fuel - 1, by omega⟩
    rw [checkChainFrom, List.headD_nil, if_pos rfl]; rfl
  | cons x xs ih =>
    obtain ⟨f, rfl⟩ : ∃ f, fuel = f + 1 := ⟨fuel - 1, by omega⟩
    obtain ⟨hn, hw, hk⟩ := hk
    obtain ⟨hx, hd⟩ := List.nodup_cons.1 hd
    obtain ⟨hm, hmet, hl⟩ := hxs x List.mem_cons_self
    have hx0 : x ≠ nil := by
      have := hm.first_le
      simp only [nil]; omega
    refine (checkChainFrom_succ hs hx0).2 ⟨hmet, hl, hm, hw, ?_⟩
    rw [hn, List.reverse_cons, List.append_assoc]
    refine ih hk hd (fun y hy => ?_) (by simpa using hlt)
    obtain ⟨hm, hmet, hl⟩ := hxs y (List.mem_cons_of_mem x hy)
    have hne : y ≠ x := fun h => hx (h ▸ hy)
    exact ⟨hm, by simp [hne, hmet], by simp [hne, hl]⟩

/-! ### All chains -/

variable {cs : List SizeClass} {l : Chains}

theorem Member.class_eq {d : SizeClass} (hc : h.Member c x) (hd : h.Member d x) : c = d := by
  obtain ⟨t, ht, -, rfl⟩ := hc.header
  obtain ⟨t', ht', -, rfl⟩ := hd.header
  cases ht.symm.trans ht'
  rfl

/-- The blocks of a chain are no more than the bytes of the arena. -/
theorem Chain.length_le (hl : h.Chain c xs) : xs.length ≤ h.size := by
  have hsub : xs ⊆ List.range h.size := fun x hx => by
    have := (hl.members x hx).le_size
    simp only [wordSize] at this
    exact List.mem_range.2 (by omega)
  simpa using (hl.nodup.subperm hsub).length_le

theorem Placed.size_lt (hp : h.Placed) : h.size < Word.limit := by
  have := hp.addressable
  omega

theorem checkChain_eq_iff (hp : h.Placed) : h.checkChain c listed = .ok ⟨[], ys⟩ ↔
    ∃ xs, h.Chain c xs ∧ (∀ x ∈ xs, x ∉ listed) ∧ ys = xs.reverse ++ listed := by
  constructor
  · intro hr
    obtain ⟨xs, hh, hk, hd, hxs, rfl⟩ := chain_of_checkChainFrom hp.size_lt hr
    exact ⟨xs, ⟨hh, hk, hd, fun x hx => (hxs x hx).1⟩, fun x hx => (hxs x hx).2, rfl⟩
  · rintro ⟨xs, hl, hxs, rfl⟩
    have hlt := Nat.lt_succ_of_le hl.length_le
    rw [checkChain, hl.head]
    exact checkChainFrom_eq hp.size_lt (Nat.lt_add_left _ (by decide)) hl.linked hl.nodup
      (fun y hy => ⟨hl.members y hy, nofun, hxs y hy⟩) hlt

theorem checkChains_cons : h.checkChains (c :: cs) listed = .ok ⟨[], ys⟩ ↔
    ∃ xs, h.checkChain c listed = .ok ⟨[], xs⟩ ∧ h.checkChains cs xs = .ok ⟨[], ys⟩ := by
  simp only [checkChains, bind_eq_ok_iff, pure_eq_ok, Except.ok.injEq, ChainReport.mk.injEq,
    List.append_eq_nil_iff]
  constructor
  · rintro ⟨⟨_, xs⟩, hc, ⟨_, _⟩, hcs, ⟨rfl, rfl⟩, rfl⟩; exact ⟨xs, hc, hcs⟩
  · rintro ⟨xs, hc, hcs⟩; exact ⟨_, hc, _, hcs, ⟨rfl, rfl⟩, rfl⟩

theorem checkChains_eq_iff (hp : h.Placed) (hcs : cs.Nodup) :
    h.checkChains cs listed = .ok ⟨[], ys⟩ ↔
      ∃ l : Chains, (∀ c ∈ cs, h.Chain c (l c) ∧ ∀ x ∈ l c, x ∉ listed) ∧
        ys = (cs.flatMap l).reverse ++ listed := by
  induction cs generalizing listed ys with
  | nil =>
    constructor
    · rintro ⟨⟩; exact ⟨fun _ => [], nofun, rfl⟩
    · rintro ⟨_, -, rfl⟩; rfl
  | cons c cs ih =>
    obtain ⟨hc, hcs⟩ := List.nodup_cons.1 hcs
    simp only [checkChains_cons, checkChain_eq_iff hp, ih hcs]
    constructor
    · rintro ⟨_, ⟨xs, hl, hxs, rfl⟩, l, hls, rfl⟩
      have hne : ∀ d ∈ cs, Function.update l c xs d = l d := fun d hd =>
        Function.update_of_ne (ne_of_mem_of_not_mem hd hc) ..
      refine ⟨Function.update l c xs, ?_, ?_⟩
      · intro d hd
        rcases List.mem_cons.1 hd with rfl | hd
        · rw [Function.update_self]; exact ⟨hl, hxs⟩
        · rw [hne d hd]
          exact ⟨(hls d hd).1, fun x hx hmem => (hls d hd).2 x hx (List.mem_append_right _ hmem)⟩
      · rw [List.flatMap_cons, Function.update_self, List.flatMap_congr hne,
          List.reverse_append, List.append_assoc]
    · rintro ⟨l, hls, rfl⟩
      obtain ⟨hl, hxs⟩ := hls c List.mem_cons_self
      refine ⟨_, ⟨l c, hl, hxs, rfl⟩, l, ?_, ?_⟩
      · intro d hd
        obtain ⟨hl', hxs'⟩ := hls d (List.mem_cons_of_mem c hd)
        refine ⟨hl', fun x hx hmem => ?_⟩
        rcases List.mem_append.1 hmem with hmem | hmem
        -- a block has one class
        · have := (hl.members x (List.mem_reverse.1 hmem)).class_eq (hl'.members x hx)
          exact hc (this ▸ hd)
        · exact hxs' x hx hmem
      · rw [List.flatMap_cons, List.reverse_append, List.append_assoc]

/-- No block is in two chains. -/
theorem nodup_flatMap_of_chain (hl : ∀ c, h.Chain c (l c)) :
    ((List.finRange classCount).flatMap l).Nodup := by
  refine List.nodup_flatMap.2 ⟨fun c _ => (hl c).nodup, ?_⟩
  refine (List.nodup_finRange classCount).imp ?_
  intro c d hne x hc hd
  exact hne (((hl c).members x hc).class_eq ((hl d).members x hd))

/-! ### The whole heap -/

theorem checkBlocks_eq_iff (hp : h.Placed) : h.checkBlocks = .ok ⟨[], xs⟩ ↔
    h.checkPrologue = .ok [] ∧ ∃ bs, h.Accepts h.firstBlock true bs ∧ xs = freeOffsets bs := by
  have h16 : 16 ≤ h.firstBlock := Nat.le_add_left ..
  simp only [checkBlocks, bind_eq_ok_iff, pure_eq_ok, Except.ok.injEq, BlockReport.mk.injEq,
    List.append_eq_nil_iff]
  constructor
  · rintro ⟨_, hpro, ⟨_, _⟩, hr, ⟨rfl, rfl⟩, rfl⟩
    obtain ⟨bs, hbs, rfl⟩ := accepts_of_checkBlocksFrom (p := true) h16 rfl hr
    exact ⟨hpro, bs, hbs, rfl⟩
  · rintro ⟨hpro, bs, hbs, rfl⟩
    exact ⟨_, hpro, _, hbs.checkBlocksFrom_eq hp h16 hp.aligned rfl (by omega), ⟨rfl, rfl⟩, rfl⟩

theorem mem_freeOffsets : x ∈ freeOffsets bs ↔ ∃ b ∈ bs, b.allocated = false ∧ b.offset = x := by
  simp [freeOffsets, and_assoc]

theorem nodup_freeOffsets {lo hi : Nat} (ht : Tiles lo bs hi) : (freeOffsets bs).Nodup := by
  refine List.pairwise_map.2 (List.Pairwise.filter _ (ht.pairwise.imp_of_mem ?_))
  intro b c hb _ hbc he
  have := (ht.bounds hb).2.2.1
  omega

theorem Headed.header {b : Block} (hh : h.Headed p bs) (hb : b ∈ bs) :
    ∃ q, h.arena.header b.offset = .ok ⟨b.size, b.allocated, q⟩ := by
  obtain ⟨xs, ys, rfl⟩ := List.append_of_mem hb
  exact ⟨_, hh xs b (ys ++ [.last h.size]) (by simp)⟩

/-- Chains whose members are in their class list the free blocks if they list as many, and all. -/
theorem lists_iff_perm (ht : Tiles bp bs h.size) (hh : h.Headed p bs)
    (hl : ∀ c, h.Chain c (l c)) :
    l.Lists bs ↔ (freeOffsets bs).Perm ((List.finRange classCount).flatMap l) := by
  constructor
  · intro hlists
    refine (List.perm_ext_iff_of_nodup (nodup_freeOffsets ht) (nodup_flatMap_of_chain hl)).2 ?_
    intro x
    simp [mem_freeOffsets, hlists.mem]
  · intro hperm
    refine ⟨fun c => (hl c).nodup, fun c x => ?_⟩
    have hmem : (∃ b ∈ bs, b.allocated = false ∧ b.offset = x) ↔ ∃ d, x ∈ l d := by
      rw [← mem_freeOffsets, hperm.mem_iff]
      simp
    have hclass : ∀ b ∈ bs, ∀ d, b.offset ∈ l d → sizeClass b.size = d := by
      intro b hb d hx
      obtain ⟨q, hq⟩ := hh.header hb
      obtain ⟨t, ht, -, rfl⟩ := ((hl d).members _ hx).header
      cases hq.symm.trans ht
      rfl
    constructor
    · intro hx
      obtain ⟨b, hb, hf, rfl⟩ := hmem.2 ⟨c, hx⟩
      exact ⟨b, hb, hf, rfl, hclass b hb c hx⟩
    · rintro ⟨b, hb, hf, rfl, rfl⟩
      obtain ⟨d, hd⟩ := hmem.1 ⟨b, hb, hf, rfl⟩
      rwa [hclass b hb d hd]

/-- The parts of a check that finds nothing. -/
theorem violations_eq_nil_iff_reports : h.violations = .ok [] ↔
    ∃ xs ys, h.checkBlocks = .ok ⟨[], xs⟩ ∧
      h.checkChains (List.finRange classCount) [] = .ok ⟨[], ys⟩ ∧
        xs ⊆ ys ∧ xs.length = ys.length := by
  simp only [violations, bind_eq_ok_iff, pure_eq_ok, Except.ok.injEq, List.append_eq_nil_iff,
    unless_eq_nil_iff, List.map_eq_nil_iff, List.filter_eq_nil_iff, decide_eq_true_eq, not_not]
  constructor
  · rintro ⟨⟨_, xs⟩, hb, ⟨_, ys⟩, hc, ⟨⟨rfl, rfl⟩, hsub⟩, hlen⟩
    exact ⟨xs, ys, hb, hc, hsub, hlen⟩
  · rintro ⟨xs, ys, hb, hc, hsub, hlen⟩
    exact ⟨_, hb, _, hc, ⟨⟨rfl, rfl⟩, hsub⟩, hlen⟩

/-- A check that finds nothing accepts prologue, blocks and chains, and the chains have the free
blocks. -/
theorem violations_eq_nil_iff_accepts (hp : h.Placed) : h.violations = .ok [] ↔
    ∃ bs l, h.checkPrologue = .ok [] ∧ h.Accepts h.firstBlock true bs ∧ (∀ c, h.Chain c (l c)) ∧
      (freeOffsets bs).Perm ((List.finRange classCount).flatMap l) := by
  have hchains : ∀ {ys}, h.checkChains (List.finRange classCount) [] = .ok ⟨[], ys⟩ ↔ _ :=
    checkChains_eq_iff hp (List.nodup_finRange classCount)
  simp only [violations_eq_nil_iff_reports, checkBlocks_eq_iff hp, hchains, List.append_nil]
  constructor
  · rintro ⟨_, _, ⟨hpro, bs, hbs, rfl⟩, ⟨l, hl, rfl⟩, hsub, hlen⟩
    have hnodup := nodup_freeOffsets (accepts_iff.1 hbs).1
    exact ⟨bs, l, hpro, hbs, fun c => (hl c (List.mem_finRange c)).1,
      ((hnodup.subperm hsub).perm_of_length_le (Nat.le_of_eq hlen.symm)).trans
        (List.reverse_perm _)⟩
  · rintro ⟨bs, l, hpro, hbs, hl, hperm⟩
    replace hperm := hperm.trans (List.reverse_perm _).symm
    exact ⟨_, _, ⟨hpro, bs, hbs, rfl⟩, ⟨l, fun c _ => ⟨hl c, nofun⟩, rfl⟩, hperm.subset,
      hperm.length_eq⟩

theorem consistent_of_violations_eq_nil (hp : h.Placed) (hr : h.violations = .ok []) :
    ∃ bs, h.Consistent bs := by
  have hstart : 8 ≤ h.start := Nat.le_trans (by decide) hp.start_ge
  obtain ⟨bs, l, hpro, hbs, hl, hperm⟩ := (violations_eq_nil_iff_accepts hp).1 hr
  obtain ⟨ht, hh, hf, hc, -⟩ := accepts_iff.1 hbs
  have hlists := (lists_iff_perm ht hh hl).2 hperm
  exact ⟨bs, (checkPrologue_eq_nil_iff hstart).1 hpro, ht, hh, hf, hc, fun c =>
    ⟨l c, (hl c).nodup, (hl c).head, (hl c).linked, hlists.mem c⟩⟩

theorem Consistent.violations_eq_nil (hp : h.Placed) (hc : h.Consistent bs) :
    h.violations = .ok [] := by
  have hstart : 8 ≤ h.start := Nat.le_trans (by decide) hp.start_ge
  choose l hd hhead hk hmem using hc.chains
  have hl : ∀ c, h.Chain c (l c) := by
    refine fun c => ⟨hhead c, hk c, hd c, fun x hx => ?_⟩
    obtain ⟨b, hb, hf, rfl, rfl⟩ := (hmem c x).1 hx
    have hbb := hc.tiles.bounds hb
    obtain ⟨q, hq⟩ := hc.headers.header hb
    exact ⟨hbb.1, by simp only [wordSize]; omega, _, hq, hf, rfl⟩
  have hbs : h.Accepts h.firstBlock true bs :=
    accepts_iff.2 ⟨hc.tiles, hc.headers, hc.footers, hc.coalesced, fun _ _ => .inl rfl⟩
  exact (violations_eq_nil_iff_accepts hp).2 ⟨bs, l, (checkPrologue_eq_nil_iff hstart).2 hc.prologue,
    hbs, hl, (lists_iff_perm hc.tiles hc.headers hl).1 ⟨hd, hmem⟩⟩

/-- The check of a heap finds nothing exactly if the heap is consistent. -/
theorem violations_eq_nil_iff (hp : h.Placed) :
    h.violations = .ok [] ↔ ∃ bs, h.Consistent bs := by
  constructor
  · exact consistent_of_violations_eq_nil hp
  · rintro ⟨bs, hc⟩
    exact hc.violations_eq_nil hp

theorem WellFormed.consistent (hw : h.WellFormed bs) : h.Consistent bs := by
  obtain ⟨h1, h2⟩ := hw.prologue
  have htag : Tag.unpack Tag.prologue.pack = Tag.prologue := Tag.unpack_pack ⟨4, rfl⟩
  refine ⟨⟨_, h1, h2, by rw [htag]; exact ⟨rfl, rfl⟩⟩, hw.tiles, hw.headers, ?_, hw.coalesced,
    hw.chains⟩
  intro b hb hf
  obtain ⟨w, hw1, hw2⟩ := hw.footers b hb hf
  obtain ⟨q, hq⟩ := Headed.header hw.headers hb
  have hfirst : 16 ≤ h.firstBlock := Nat.le_add_left ..
  have hbb := hw.tiles.bounds hb
  have hpos : Arena.headerPos b.offset = .ok (b.offset - wordSize) :=
    Word.sub_of_le (by simp only [wordSize]; omega)
  rw [Arena.header, hpos, ok_bind, hw1, ok_bind, hf] at hq
  exact ⟨w, hw2, by rw [Except.ok.inj hq]; exact ⟨rfl, rfl⟩⟩

end Heap

namespace Session

variable {s : Session} {o : Outline}

theorem Outlined.placed (h : s.Outlined o) : s.heap.Placed := by
  have hv := h.outlines.valid
  have hfirst : s.heap.firstBlock = o.map.first := h.outlines.first
  have hsize : s.heap.size = o.map.stop := h.outlines.describes.size
  have hbase : s.heap.arena.base = o.base := h.outlines.base
  refine ⟨?_, ?_, ?_⟩
  · have := hv.map.first_ge
    rw [← hfirst, Heap.firstBlock] at this
    simp only [wordSize] at this ⊢
    omega
  · rw [hfirst]; exact hv.map.first_aligned
  · rw [hbase, hsize]; exact hv.addressable

/-- The check of a heap that only its operations have touched finds nothing. -/
theorem Outlined.violations_eq (h : s.Outlined o) : s.heap.violations = .ok [] :=
  h.wellFormed_blocks.consistent.violations_eq_nil h.placed

theorem consistent_small : ∃ s bs, small = some s ∧ s.heap.Placed ∧ s.heap.Consistent bs := by
  have hfound : small.map (fun s => s.heap.violations) = some (.ok []) := by decide +kernel
  obtain ⟨s, hs, hv⟩ := Option.map_eq_some_iff.1 hfound
  obtain ⟨o, ho⟩ := (reachable_of_small hs).outlined
  obtain ⟨bs, hbs⟩ := (Heap.violations_eq_nil_iff ho.placed).1 hv
  exact ⟨s, bs, hs, ho.placed, hbs⟩

end Session

end SegregatedFit
