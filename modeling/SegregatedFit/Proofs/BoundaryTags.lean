import SegregatedFit.Proofs.Rounding

/-!
# Boundary tags

A free block keeps four words about itself: its header, two links and its footer. They are apart from
each other in every block of `minBlockSize` bytes or more, and in no smaller one
(`Arena.metadataWords_apart_iff`). So each is read back as it was written last, whatever was done to
the others in between, and both neighbours are found from them (`boundaryTags_faithful`).

What a write does to them is `HoldsFree.perform_exists`, and a run of writes is by induction
`HoldsFree.performAll_exists`. Tags are bit fields (`Tag.pack_eq_or`, `Tag.unpack_eq_and`).
-/

namespace SegregatedFit

/-! ### Tags as bit fields -/

namespace Tag

theorem pack_eq_or {t : Tag} (h : t.size < Word.limit) : t.pack =
    (t.size &&& (Word.limit - 4)) ||| t.allocated.toNat ||| t.prevAllocated.toNat * 2 := by
  obtain ⟨n, b, p⟩ := t
  have hmask : n &&& (Word.limit - 4) = 2 ^ 2 * (n / 4) :=
    (Word.and_mask (k := 2) h (by decide)).trans (Nat.mul_comm ..)
  have hflags : b.toNat ||| p.toNat * 2 = p.toNat * 2 + b.toNat := by cases b <;> cases p <;> rfl
  have hlt : p.toNat * 2 + b.toNat < 2 ^ 2 := by cases b <;> cases p <;> decide
  rw [Nat.or_assoc, hmask, hflags, ← Nat.two_pow_add_eq_or_of_lt hlt, pack]
  simp only
  omega

theorem unpack_eq_and {w : Nat} (h : w < Word.limit) :
    unpack w = ⟨w &&& (Word.limit - 4), w &&& 1 ≠ 0, w &&& 2 ≠ 0⟩ := by
  have hmask : w &&& (Word.limit - 4) = w / 4 * 4 := Word.and_mask (k := 2) h (by decide)
  have hlow : w &&& 1 = w % 2 := Nat.and_one_is_mod w
  have hhigh : w &&& 2 = w / 2 % 2 * 2 := by
    rw [← Nat.pow_one 2, Nat.and_two_pow, Nat.toNat_testBit]
  rw [unpack, hmask, hlow, hhigh]
  congr 1 <;> exact decide_eq_decide.2 (by omega)

end Tag

namespace Arena

/-! ### Metadata of a free block -/

/-- A block of `size` bytes at `bp` is inside the arena, from its header to its footer. -/
structure Spans (a : Arena) (bp size : Nat) : Prop where
  header : wordSize ≤ bp
  room : minBlockSize ≤ size
  dvd : 4 ∣ size
  inside : bp + size - wordSize ≤ a.size
  /-- All memory is smaller than that, so the end of a block is a word. -/
  addressable : a.size + wordSize < Word.limit

/-- Header, links and footer. -/
def metadataWords (bp size : Nat) : List Nat :=
  [bp - wordSize, bp, bp + wordSize, bp + size - 2 * wordSize]

def MetadataByte (bp size k : Nat) : Prop :=
  ∃ i ∈ metadataWords bp size, i ≤ k ∧ k < i + wordSize

theorem metadataWords_apart_iff {bp size : Nat} (h : wordSize ≤ bp) :
    (metadataWords bp size).Pairwise (fun i j => i + wordSize ≤ j) ↔ minBlockSize ≤ size := by
  simp only [metadataWords, wordSize, minBlockSize, List.pairwise_cons, List.forall_mem_cons,
    List.not_mem_nil, false_imp_iff, implies_true, List.Pairwise.nil, and_true] at *
  omega

/-- In 24 bytes the footer would be where the second link is. -/
example : metadataWords 8 32 = [0, 8, 16, 24] ∧ metadataWords 8 24 = [0, 8, 16, 16] := by
  decide

/-- What is read of a free block. -/
structure ShowsFree (a : Arena) (bp size : Nat) (prevAllocated : Bool) (next prev : Nat) :
    Prop where
  header : a.header bp = .ok ⟨size, false, prevAllocated⟩
  footer : a.footer bp = .ok ⟨size, false, prevAllocated⟩
  nextFree : a.nextFree bp = .ok next
  prevFree : a.prevFree bp = .ok prev
  nextBlock : a.nextBlock bp = .ok (bp + size)
  prevBlock : a.prevBlock (bp + size) = .ok bp

/-- What the words of a free block are. -/
structure HoldsFree (a : Arena) (bp size : Nat) (prevAllocated : Bool) (next prev : Nat) :
    Prop where
  header : a.word (bp - 8) = Tag.pack ⟨size, false, prevAllocated⟩
  footer : a.word (bp + size - 16) = Tag.pack ⟨size, false, prevAllocated⟩
  next : a.word bp = next
  prev : a.word (bp + 8) = prev

/-- A write to the metadata of a free block. -/
inductive Edit where
  | nextFree (w : UInt64)
  | prevFree (w : UInt64)
  | prevAllocated (p : Bool)

namespace Edit

def perform (bp : Nat) (a : Arena) : Edit → Except Fault Arena
  | nextFree w => a.setNextFree bp w.toNat
  | prevFree w => a.setPrevFree bp w.toNat
  | prevAllocated p => a.setPrevAllocated bp p

def performAll (bp : Nat) (a : Arena) (edits : List Edit) : Except Fault Arena :=
  edits.foldlM (perform bp) a

def next? : Edit → Option Nat
  | nextFree w => some w.toNat
  | _ => none

def prev? : Edit → Option Nat
  | prevFree w => some w.toNat
  | _ => none

def flag? : Edit → Option Bool
  | prevAllocated p => some p
  | _ => none

/-- The last value that is `given`, or `x` if none is. -/
def last {α : Type} (given : Edit → Option α) (edits : List Edit) (x : α) : α :=
  (edits.filterMap given).getLastD x

theorem last_cons {α : Type} (given : Edit → Option α) (e : Edit) (edits : List Edit) (x : α) :
    last given (e :: edits) x = last given edits ((given e).getD x) := by
  rw [last, last, List.filterMap_cons]
  cases given e with
  | none => rfl
  | some y => rw [List.getLastD_cons, Option.getD_some]

end Edit

variable {a a' : Arena} {bp size next prev : Nat} {p : Bool} {s : Nat → Prop}

theorem Spans.bounds (h : a.Spans bp size) :
    8 ≤ bp ∧ 32 ≤ size ∧ bp + size ≤ a.size + 8 ∧ a.size + 8 < Word.limit :=
  ⟨h.header, h.room, Nat.sub_le_iff_le_add.1 h.inside, h.addressable⟩

theorem Spans.metadataByte_of_tag {k : Nat} (h : a.Spans bp size)
    (hk : bp - 8 ≤ k ∧ k < bp ∨ bp + size - 16 ≤ k ∧ k < bp + size - 8) :
    MetadataByte bp size k := by
  obtain ⟨h8, h32, -, -⟩ := h.bounds
  rcases hk with hk | hk
  · exact ⟨bp - 8, by simp [metadataWords], by rw [wordSize]; omega⟩
  · exact ⟨bp + size - 16, by simp [metadataWords], by rw [wordSize]; omega⟩

theorem Changed.spans (hc : Changed s a a') (h : a.Spans bp size) : a'.Spans bp size :=
  ⟨h.header, h.room, h.dvd, hc.size ▸ h.inside, hc.size ▸ h.addressable⟩

theorem HoldsFree.shows (hs : a.Spans bp size) (h : a.HoldsFree bp size p next prev) :
    a.ShowsFree bp size p next prev := by
  obtain ⟨h8, h32, hin, hlt⟩ := hs.bounds
  have hheader := header_eq h8 (by omega) (by omega) h.header hs.dvd
  have hfooter : a.readWord (bp + size - 16) = .ok (Tag.pack ⟨size, false, p⟩) :=
    (readWord_of_le (by omega) (by omega)).trans (congrArg _ h.footer)
  have hpos : footerPosOf bp size = .ok (bp + size - 16) := footerPosOf_eq (by omega) (by omega)
  have hback : Word.sub (bp + size) (2 * wordSize) = .ok (bp + size - 16) :=
    Word.sub_of_le (by rw [wordSize]; omega)
  refine ⟨hheader, ?_, ?_, ?_, ?_, ?_⟩
  · rw [Arena.footer, footerPos, hheader, ok_bind, hpos, ok_bind, hfooter, ok_bind,
      Tag.unpack_pack hs.dvd, pure_eq_ok]
  · rw [nextFree_of_le (by omega) (by omega), h.next]
  · rw [prevFree_of_le (by omega) (by omega), h.prev]
  · rw [Arena.nextBlock, hheader, ok_bind, Word.add_of_lt (by simp only; omega)]
  · rw [Arena.prevBlock, hback, ok_bind, hfooter, ok_bind, Tag.unpack_pack hs.dvd,
      Word.sub_of_le (Nat.le_add_left ..), Nat.add_sub_cancel]

/-! ### Writing to a free block -/

theorem Spans.markFree_exists (hs : a.Spans bp size) (p : Bool) :
    ∃ a', a.markFree bp size p = .ok a' ∧ Changed (MetadataByte bp size) a a' ∧
      a'.HoldsFree bp size p (a.word bp) (a.word (bp + 8)) := by
  obtain ⟨h8, h32, hin, hlt⟩ := hs.bounds
  obtain ⟨a', e, hc, hheader, hfooter⟩ :=
    Arena.markFree_exists (p := p) h8 (by omega) hin (by omega) (by omega)
  refine ⟨a', e, hc.mono fun k => hs.metadataByte_of_tag, hheader, hfooter, ?_, ?_⟩
  · exact hc.word fun k _ _ hk => by omega
  · exact hc.word fun k _ _ hk => by omega

/-- One write changes one value, and leaves the other words alone. -/
theorem HoldsFree.perform_exists (hs : a.Spans bp size) (h : a.HoldsFree bp size p next prev)
    (e : Edit) :
    ∃ a', e.perform bp a = .ok a' ∧ Changed (MetadataByte bp size) a a' ∧
      a'.HoldsFree bp size (e.flag?.getD p) (e.next?.getD next) (e.prev?.getD prev) := by
  obtain ⟨h8, h32, hin, hlt⟩ := hs.bounds
  cases e with
  | nextFree w =>
    obtain ⟨a', e, hc, hw⟩ := setNextFree_exists (a := a) (b := bp) (by omega) (by omega)
      w.toNat_lt
    refine ⟨a', e, hc.mono fun k hk => ⟨bp, by simp [metadataWords], hk⟩, ?_, ?_, hw, ?_⟩
    · exact (hc.word fun k _ _ hk => by omega).trans h.header
    · exact (hc.word fun k _ _ hk => by omega).trans h.footer
    · exact (hc.word fun k _ _ hk => by omega).trans h.prev
  | prevFree w =>
    obtain ⟨a', e, hc, hw⟩ := setPrevFree_exists (a := a) (b := bp) (by omega) (by omega)
      w.toNat_lt
    refine ⟨a', e, hc.mono fun k hk => ⟨bp + 8, by simp [metadataWords], hk⟩, ?_, ?_, ?_, hw⟩
    · exact (hc.word fun k _ _ hk => by omega).trans h.header
    -- the footer of the smallest block starts where the second link ends
    · exact (hc.word fun k _ _ hk => by omega).trans h.footer
    · exact (hc.word fun k _ _ hk => by omega).trans h.next
  | prevAllocated q =>
    obtain ⟨a', e, hc, hheader, hfooter⟩ := setPrevAllocated_exists (p := q)
      (t := ⟨size, false, p⟩) h8 (by omega) hin (by simp only; omega) (by omega) hs.dvd
      (fun _ => by simp only; omega) h.header
    simp only [true_and] at hc
    refine ⟨a', e, hc.mono fun k => hs.metadataByte_of_tag, hheader, hfooter rfl, ?_, ?_⟩
    · exact (hc.word fun k _ _ hk => by omega).trans h.next
    · exact (hc.word fun k _ _ hk => by omega).trans h.prev

theorem HoldsFree.performAll_exists (hs : a.Spans bp size) (h : a.HoldsFree bp size p next prev)
    (edits : List Edit) :
    ∃ a', Edit.performAll bp a edits = .ok a' ∧ Changed (MetadataByte bp size) a a' ∧
      a'.HoldsFree bp size (Edit.last Edit.flag? edits p) (Edit.last Edit.next? edits next)
        (Edit.last Edit.prev? edits prev) := by
  induction edits generalizing a p next prev with
  | nil => exact ⟨a, rfl, .refl .., h⟩
  | cons e edits ih =>
    obtain ⟨a1, e1, c1, h1⟩ := h.perform_exists hs e
    obtain ⟨a2, e2, c2, h2⟩ := ih (c1.spans hs) h1
    refine ⟨a2, ?_, c1.trans c2, ?_⟩
    · rw [Edit.performAll, List.foldlM_cons, e1, ok_bind]
      exact e2
    · simpa only [Edit.last_cons] using h2

end Arena

open Arena

/-- Tags lose nothing as words, and what is written to a free block is read back. -/
theorem boundaryTags_faithful :
    (∀ w, (Tag.unpack w).pack = w) ∧
    (∀ t : Tag, 4 ∣ t.size → Tag.unpack t.pack = t) ∧
    ∀ (a : Arena) (bp size : Nat), a.Spans bp size → ∀ (p : Bool) (edits : List Edit),
      ∃ a', (a.markFree bp size p >>= (Edit.performAll bp · edits)) = .ok a' ∧
        a'.ShowsFree bp size (Edit.last Edit.flag? edits p)
          (Edit.last Edit.next? edits (a.word bp)) (Edit.last Edit.prev? edits (a.word (bp + 8))) ∧
        Changed (MetadataByte bp size) a a' := by
  refine ⟨Tag.pack_unpack, fun t => Tag.unpack_pack, fun a bp size hs p edits => ?_⟩
  obtain ⟨a1, e1, c1, h1⟩ := hs.markFree_exists p
  obtain ⟨a2, e2, c2, h2⟩ := h1.performAll_exists (c1.spans hs) edits
  have hc := c1.trans c2
  exact ⟨a2, by rw [e1, ok_bind, e2], h2.shows (hc.spans hs), hc⟩

/-- The smallest block fills an arena that ends with its footer. -/
theorem boundaryTags_tight : ((empty 4096 ⟨256, rfl⟩).extend 32).Spans 8 32 ∧
    ∃ a', (((empty 4096 ⟨256, rfl⟩).extend 32).markFree 8 32 true >>= (Edit.performAll 8 ·
        [.prevFree 0xFFFFFFFFFFFFFFFF, .prevAllocated false, .nextFree 96, .nextFree 8])) = .ok a' ∧
      a'.ShowsFree 8 32 false 8 (Word.limit - 1) ∧
      Changed (MetadataByte 8 32) ((empty 4096 ⟨256, rfl⟩).extend 32) a' := by
  have hs : ((empty 4096 ⟨256, rfl⟩).extend 32).Spans 8 32 :=
    ⟨by decide, by decide, by decide, by decide, by decide⟩
  exact ⟨hs, boundaryTags_faithful.2.2 _ 8 32 hs true _⟩

end SegregatedFit
