import Mathlib
import SegregatedFit.Block

/-!
# Which bytes a write changes

`Arena.Changed s a a'` says that `a'` is `a` except for the bytes of `s`. Every write to an arena is
described by such a set and by the words it leaves behind (`writeWord_exists`,
`setHeader_exists`, `markFree_exists`), so a word that no write touches is read back by
`Changed.word`. Reads and writes inside the arena do not fault.
-/

namespace SegregatedFit

theorem Word.limit_eq : Word.limit = 18446744073709551616 := rfl

theorem ok_bind {α β : Type} (x : α) (f : α → Except Fault β) : (Except.ok x >>= f) = f x := rfl

theorem pure_eq_ok {α : Type} (x : α) : (pure x : Except Fault α) = .ok x := rfl

theorem bind_eq_ok_iff {α β : Type} {x : Except Fault α} {f : α → Except Fault β} {b : β} :
    (x >>= f) = .ok b ↔ ∃ a, x = .ok a ∧ f a = .ok b := by
  cases x with
  | error fault => exact ⟨nofun, fun ⟨_, h, _⟩ => nomatch h⟩
  | ok a => exact ⟨fun h => ⟨a, rfl, h⟩, fun ⟨_, ha, h⟩ => Except.ok.inj ha ▸ h⟩

/-- Both are answered, and the answers are the same. -/
def Concur {α : Type} (x y : Except Fault α) : Prop := ∃ a, x = .ok a ∧ y = .ok a

theorem Tag.pack_lt {t : Tag} (h : t.size < Word.limit) : t.pack < Word.limit := by
  obtain ⟨n, b, c⟩ := t
  have hb := Bool.toNat_lt b
  have hc := Bool.toNat_lt c
  simp only [Tag.pack, Word.limit_eq] at *
  omega

namespace Arena

/-- `a'` is `a` except for the bytes of `s`. -/
structure Changed (s : Nat → Prop) (a a' : Arena) : Prop where
  base : a'.base = a.base
  size : a'.size = a.size
  byte : ∀ i, ¬s i → a'.byte i = a.byte i

variable {a a' a'' : Arena} {b i w z : Nat} {p : Bool} {t : Tag} {s s' : Nat → Prop}

theorem Changed.refl (s : Nat → Prop) (a : Arena) : Changed s a a :=
  ⟨rfl, rfl, fun _ _ => rfl⟩

theorem Changed.trans (h : Changed s a a') (h' : Changed s a' a'') : Changed s a a'' :=
  ⟨h'.base.trans h.base, h'.size.trans h.size,
    fun i hi => (h'.byte i hi).trans (h.byte i hi)⟩

theorem Changed.mono (h : Changed s a a') (hs : ∀ i, s i → s' i) : Changed s' a a' :=
  ⟨h.base, h.size, fun i hi => h.byte i fun h => hi (hs i h)⟩

/-! ### Words -/

theorem word_congr (h : ∀ k, k < 8 → a'.byte (i + k) = a.byte (i + k)) :
    a'.word i = a.word i := by
  have h0 := h 0; have h1 := h 1; have h2 := h 2; have h3 := h 3
  have h4 := h 4; have h5 := h 5; have h6 := h 6; have h7 := h 7
  simp only [Nat.reduceLT, forall_const] at h0 h1 h2 h3 h4 h5 h6 h7
  simp only [word, wordSize, Nat.fold_succ, Nat.fold_zero, h0, h1, h2, h3, h4, h5, h6, h7]

theorem Changed.word (h : Changed s a a') (hi : ∀ k, i ≤ k → k < i + 8 → ¬s k) :
    a'.word i = a.word i :=
  word_congr fun k hk => h.byte _ (hi _ (by omega) (by omega))

theorem word_lt (a : Arena) (i : Nat) : a.word i < Word.limit := by
  have h := fun k => (a.byte (i + k)).toNat_lt
  have h0 := h 0; have h1 := h 1; have h2 := h 2; have h3 := h 3
  have h4 := h 4; have h5 := h 5; have h6 := h 6; have h7 := h 7
  simp only [word, wordSize, Nat.fold_succ, Nat.fold_zero, Nat.shiftLeft_eq, Word.limit_eq]
  omega

theorem changed_fill (a : Arena) (i n : Nat) (f : Nat → UInt8) :
    Changed (fun k => i ≤ k ∧ k < i + n) a (a.fill i n f) :=
  ⟨base_fill, size_fill, fun k hk => by rw [byte_fill, if_neg hk]⟩

theorem writeWord_exists (hi : i + 8 ≤ a.size) (ha : a.size < Word.limit) (hw : w < Word.limit) :
    ∃ a', a.writeWord i w = .ok a' ∧ Changed (fun k => i ≤ k ∧ k < i + 8) a a' ∧
      a'.word i = w :=
  ⟨_, writeWord_of_le hi (by omega), changed_fill .., word_fill_wordByte hw⟩

/-! ### Copies -/

theorem size_bytes (a : Arena) (i n : Nat) : (a.bytes i n).size = n := by
  induction n with
  | zero => rfl
  | succ n ih =>
    rw [bytes, Nat.fold_succ, ByteArray.size_push]
    exact congrArg (· + 1) ih

theorem storedByte_bytes {n k : Nat} (hk : k < n) :
    storedByte (a.bytes i n) k = a.byte (i + k) := by
  induction n with
  | zero => omega
  | succ n ih =>
    rw [bytes, Nat.fold_succ, storedByte_push, ← bytes, size_bytes]
    split
    · next h => rw [h]
    · exact ih (by omega)

theorem copyWithin_exists {j n : Nat} (hi : i + n ≤ a.size) (hj : j + n ≤ a.size)
    (ha : a.size < Word.limit) :
    ∃ a', a.copyWithin i n j = .ok a' ∧ Changed (fun k => j ≤ k ∧ k < j + n) a a' ∧
      ∀ k < n, a'.byte (j + k) = a.byte (i + k) := by
  refine ⟨a.fill j n fun k => if h : k < (a.bytes i n).size then (a.bytes i n)[k] else 0, ?_,
    changed_fill .., ?_⟩
  · rw [copyWithin, checkRange_of_le hi (by omega), ok_bind, checkRange_of_le hj (by omega), ok_bind]
    rfl
  · intro k hk
    have hs : k < (a.bytes i n).size := by rw [size_bytes]; exact hk
    rw [byte_fill, if_pos (by omega), Nat.add_sub_cancel_left, dif_pos hs, ← storedByte_bytes hk,
      storedByte, Array.getD]
    exact (dif_pos (show k < (a.bytes i n).data.size from hs)).symm

/-! ### Headers and footers -/

theorem header_of_le (hb : 8 ≤ b) (hs : b ≤ a.size) (ha : a.size < Word.limit) :
    a.header b = .ok (.unpack (a.word (b - 8))) := by
  have h : headerPos b = .ok (b - 8) := Word.sub_of_le hb
  rw [header, h, ok_bind, readWord_of_le (by omega) (by omega), ok_bind, pure_eq_ok]

theorem header_eq (hb : 8 ≤ b) (hs : b ≤ a.size) (ha : a.size < Word.limit)
    (hw : a.word (b - 8) = t.pack) (ht : 4 ∣ t.size) : a.header b = .ok t := by
  rw [header_of_le hb hs ha, hw, Tag.unpack_pack ht]

theorem setHeader_exists (hb : 8 ≤ b) (hs : b ≤ a.size) (ha : a.size < Word.limit)
    (ht : t.size < Word.limit) :
    ∃ a', a.setHeader b t = .ok a' ∧ Changed (fun k => b - 8 ≤ k ∧ k < b) a a' ∧
      a'.word (b - 8) = t.pack := by
  obtain ⟨a', h1, h2, h3⟩ := writeWord_exists (i := b - 8) (by omega) ha (Tag.pack_lt ht)
  have h : headerPos b = .ok (b - 8) := Word.sub_of_le hb
  refine ⟨a', by rw [setHeader, h, ok_bind, h1], h2.mono fun k hk => by omega, h3⟩

theorem footerPosOf_eq (hb : 16 ≤ b + z) (hs : b + z < Word.limit) :
    footerPosOf b z = .ok (b + z - 16) := by
  rw [footerPosOf, Word.add_of_lt hs, ok_bind]
  exact Word.sub_of_le hb

/-- A block ends one word before `b + t.size`, where the header of the next one starts. -/
theorem setFooter_exists (hb : 16 ≤ b + t.size) (hs : b + t.size ≤ a.size + 8)
    (ht : b + t.size < Word.limit) (ha : a.size < Word.limit) :
    ∃ a', a.setFooter b t = .ok a' ∧
      Changed (fun k => b + t.size - 16 ≤ k ∧ k < b + t.size - 8) a a' ∧
      a'.word (b + t.size - 16) = t.pack := by
  obtain ⟨a', h1, h2, h3⟩ := writeWord_exists (a := a) (i := b + t.size - 16) (by omega) ha
    (Tag.pack_lt (t := t) (by omega))
  refine ⟨a', by rw [setFooter, footerPosOf_eq hb ht, ok_bind, h1], h2.mono ?_, h3⟩
  exact fun k hk => by omega

theorem markFree_exists (hb : 8 ≤ b) (hz : 16 ≤ z) (hs : b + z ≤ a.size + 8)
    (hlt : b + z < Word.limit) (ha : a.size < Word.limit) :
    ∃ a', a.markFree b z p = .ok a' ∧
      Changed (fun k => b - 8 ≤ k ∧ k < b ∨ b + z - 16 ≤ k ∧ k < b + z - 8) a a' ∧
      a'.word (b - 8) = Tag.pack ⟨z, false, p⟩ ∧
      a'.word (b + z - 16) = Tag.pack ⟨z, false, p⟩ := by
  obtain ⟨a1, h1, c1, w1⟩ := setHeader_exists (a := a) (t := ⟨z, false, p⟩) hb (by omega) ha
    (by simp only; omega)
  obtain ⟨a2, h2, c2, w2⟩ := setFooter_exists (a := a1) (b := b) (t := ⟨z, false, p⟩)
    (by simp only; omega) (by rw [c1.size]; exact hs) hlt (by rw [c1.size]; exact ha)
  refine ⟨a2, by rw [markFree, h1, ok_bind, h2], ?_, ?_, w2⟩
  · exact (c1.mono fun k hk => .inl hk).trans (c2.mono fun k hk => .inr hk)
  · rw [c2.word fun k hk hk' => by simp only; omega, w1]

/-- The block at `b`, whose header is `t`, learns about the block before it. A free block says so
in its footer too. -/
theorem setPrevAllocated_exists (hb : 8 ≤ b) (hba : b ≤ a.size) (hs : b + t.size ≤ a.size + 8)
    (hlt : b + t.size < Word.limit) (ha : a.size < Word.limit) (h4 : 4 ∣ t.size)
    (hz : t.allocated = false → 16 ≤ t.size) (hw : a.word (b - 8) = t.pack) :
    ∃ a', a.setPrevAllocated b p = .ok a' ∧
      Changed (fun k => b - 8 ≤ k ∧ k < b ∨
        t.allocated = false ∧ b + t.size - 16 ≤ k ∧ k < b + t.size - 8) a a' ∧
      a'.word (b - 8) = Tag.pack ⟨t.size, t.allocated, p⟩ ∧
      (t.allocated = false →
        a'.word (b + t.size - 16) = Tag.pack ⟨t.size, t.allocated, p⟩) := by
  obtain ⟨a1, h1, c1, w1⟩ := setHeader_exists (a := a) (t := ⟨t.size, t.allocated, p⟩) hb
    hba ha (by simp only; omega)
  have hdr := header_eq hb hba ha hw h4
  by_cases hf : t.allocated = false
  · have hz := hz hf
    obtain ⟨a2, h2, c2, w2⟩ := setFooter_exists (a := a1) (b := b)
      (t := ⟨t.size, t.allocated, p⟩) (by simp only; omega) (by rw [c1.size]; exact hs) hlt
      (by rw [c1.size]; exact ha)
    refine ⟨a2, ?_, ?_, ?_, fun _ => w2⟩
    · simp only [setPrevAllocated, hdr, ok_bind, h1]
      rw [if_neg (by simp [hf]; omega), h2]
    · exact (c1.mono fun k hk => .inl hk).trans (c2.mono fun k hk => .inr ⟨hf, hk⟩)
    · rw [c2.word fun k hk hk' => by simp only; omega, w1]
  · refine ⟨a1, ?_, c1.mono fun k hk => .inl hk, w1, fun h => absurd h hf⟩
    simp only [setPrevAllocated, hdr, ok_bind, h1]
    rw [if_pos (by simpa using Or.inl hf), pure_eq_ok]

/-! ### Links -/

theorem nextFree_of_le (hs : b + 8 ≤ a.size) (ha : a.size < Word.limit) :
    a.nextFree b = .ok (a.word b) :=
  readWord_of_le hs (by omega)

theorem prevFree_of_le (hs : b + 16 ≤ a.size) (ha : a.size < Word.limit) :
    a.prevFree b = .ok (a.word (b + 8)) := by
  have h : Word.add b wordSize = .ok (b + 8) := Word.add_of_lt (by simp only [wordSize]; omega)
  rw [prevFree, h, ok_bind, readWord_of_le (by omega) (by omega)]

theorem setNextFree_exists (hs : b + 8 ≤ a.size) (ha : a.size < Word.limit)
    (hw : w < Word.limit) :
    ∃ a', a.setNextFree b w = .ok a' ∧ Changed (fun k => b ≤ k ∧ k < b + 8) a a' ∧
      a'.word b = w :=
  writeWord_exists hs ha hw

theorem setPrevFree_exists (hs : b + 16 ≤ a.size) (ha : a.size < Word.limit)
    (hw : w < Word.limit) :
    ∃ a', a.setPrevFree b w = .ok a' ∧ Changed (fun k => b + 8 ≤ k ∧ k < b + 16) a a' ∧
      a'.word (b + 8) = w := by
  obtain ⟨a', h1, h2, h3⟩ := writeWord_exists (a := a) (i := b + 8) (by omega) ha hw
  have h : Word.add b wordSize = .ok (b + 8) := Word.add_of_lt (by simp only [wordSize]; omega)
  exact ⟨a', by rw [setPrevFree, h, ok_bind, h1], h2.mono fun k hk => by omega, h3⟩

end Arena

end SegregatedFit
