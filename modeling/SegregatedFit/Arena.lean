import SegregatedFit.Word
import SegregatedFit.Layout

/-!
# Arenas

The memory that a heap lives in: `size` bytes from an aligned base address on, of which `byte` is
the content. Only bytes that were written once are stored; all others are zero. An arena that
shrank and grows again finds its old bytes, so memory can be handed on dirty.

Writing is described by its effect on `byte` (`byte_setByte`, `byte_fill`). Words are little-endian
and are read and written inside the arena only; a word that is written reads back
(`readWord_writeWord`).
-/

namespace SegregatedFit

structure Arena where
  /-- Address of the first byte. -/
  base : Nat
  size : Nat
  /-- The bytes from the base on; those past the end of the store are zero. -/
  store : ByteArray
  alignment_dvd_base : alignment ∣ base

namespace Arena

/-- No bytes yet, at address `16 * k`. -/
def empty (base : Nat) (h : alignment ∣ base) : Arena :=
  ⟨base, 0, .empty, h⟩

def byte (a : Arena) (i : Nat) : UInt8 :=
  if h : i < a.store.size then a.store[i] else 0

/-- Appends `n` zero bytes. -/
def padded (s : ByteArray) : Nat → ByteArray
  | 0 => s
  | n + 1 => padded (s.push 0) n

/-- Replaces byte `i`, extending the store to hold it. -/
def storeByte (s : ByteArray) (i : Nat) (b : UInt8) : ByteArray :=
  if h : i < s.size then s.set i b h else (padded s (i - s.size)).push b

def setByte (a : Arena) (i : Nat) (b : UInt8) : Arena :=
  { a with store := storeByte a.store i b }

/-- Writes `f 0`, …, `f (n - 1)` from byte `start` on. -/
def fill (a : Arena) (start n : Nat) (f : Nat → UInt8) : Arena :=
  n.fold (fun i _ a => a.setByte (start + i) (f i)) a

/-- The `n` bytes from byte `start` on. -/
def bytes (a : Arena) (start n : Nat) : ByteArray :=
  n.fold (fun i _ s => s.push (a.byte (start + i))) .empty

/-- Adds `n` bytes at the high end. -/
def extend (a : Arena) (n : Nat) : Arena :=
  { a with size := a.size + n }

/-- All bytes from byte `n` on are zero again. -/
def forget (a : Arena) (n : Nat) : Arena :=
  { a with store := a.store.extract 0 n }

/-- Faults unless the `n` bytes from byte `start` on are inside the arena. -/
def checkRange (a : Arena) (start n : Nat) : Except Fault Unit := do
  let stop ← Word.add start n
  if stop ≤ a.size then pure () else .error .outOfBounds

/-- The word in bytes `i`, …, `i + 7`. -/
def word (a : Arena) (i : Nat) : Nat :=
  wordSize.fold (fun k _ w => w + (a.byte (i + k)).toNat <<< (8 * k)) 0

def readWord (a : Arena) (i : Nat) : Except Fault Nat := do
  a.checkRange i wordSize
  pure (a.word i)

/-- Byte `k` of a word. -/
def wordByte (w k : Nat) : UInt8 :=
  UInt8.ofNat (w >>> (8 * k))

def writeWord (a : Arena) (i w : Nat) : Except Fault Arena := do
  a.checkRange i wordSize
  pure (a.fill i wordSize (wordByte w))

/-- Writes zeros to the `n` bytes from byte `start` on. -/
def clear (a : Arena) (start n : Nat) : Except Fault Arena := do
  a.checkRange start n
  pure (a.fill start n fun _ => 0)

/-- Copies `n` bytes; the two ranges may overlap. -/
def copyWithin (a : Arena) (source n target : Nat) : Except Fault Arena := do
  a.checkRange source n
  a.checkRange target n
  let piece := a.bytes source n
  pure (a.fill target n fun i => if h : i < piece.size then piece[i] else 0)

/-- Writes `f 0`, `f 1`, … to those of the `n` bytes from byte `start` on that are in the arena. -/
def fillClipped (a : Arena) (start n : Nat) (f : Nat → UInt8) : Arena :=
  a.fill start (min n (a.size - start)) f

/-- Those of the `n` bytes from byte `start` on that are in the arena. -/
def bytesClipped (a : Arena) (start n : Nat) : ByteArray :=
  a.bytes start (min n (a.size - start))

/-! ### Effect on bytes -/

variable {a : Arena} {i j start n w : Nat} {b : UInt8} {f : Nat → UInt8}

/-- The byte that a store holds at `i`, zero past its end. -/
def storedByte (s : ByteArray) (i : Nat) : UInt8 :=
  s.data.getD i 0

theorem byte_eq_storedByte : a.byte i = storedByte a.store i := by
  simp only [byte, storedByte, Array.getD, ByteArray.size]
  split <;> rfl

theorem size_padded (s : ByteArray) (n : Nat) : (padded s n).size = s.size + n := by
  induction n generalizing s with
  | zero => rfl
  | succ n ih => rw [padded, ih, ByteArray.size_push]; omega

theorem storedByte_push (s : ByteArray) (i : Nat) (b : UInt8) :
    storedByte (s.push b) i = if i = s.size then b else storedByte s i := by
  obtain ⟨d⟩ := s
  show (d.push b).getD i 0 = if i = d.size then b else d.getD i 0
  simp only [Array.getD_eq_getD_getElem?, Array.getElem?_push]
  split <;> rfl

theorem storedByte_of_size_le {s : ByteArray} (h : s.size ≤ i) : storedByte s i = 0 := by
  simp only [storedByte, Array.getD_eq_getD_getElem?]
  rw [Array.getElem?_eq_none h]; rfl

theorem storedByte_padded (s : ByteArray) (n i : Nat) :
    storedByte (padded s n) i = storedByte s i := by
  induction n generalizing s with
  | zero => rfl
  | succ n ih =>
    rw [padded, ih, storedByte_push]
    split
    · next h => rw [storedByte_of_size_le (Nat.le_of_eq h.symm)]
    · rfl

theorem storedByte_storeByte (s : ByteArray) (i j : Nat) (b : UInt8) :
    storedByte (storeByte s i b) j = if j = i then b else storedByte s j := by
  unfold storeByte
  split
  · next h =>
    obtain ⟨d⟩ := s
    simp only [storedByte, ByteArray.set, Array.getD_eq_getD_getElem?, Array.getElem?_set, eq_comm]
    split <;> simp_all [ByteArray.size]
  · rw [storedByte_push, storedByte_padded, size_padded]
    have : s.size + (i - s.size) = i := by omega
    rw [this]

@[simp] theorem byte_setByte :
    (a.setByte i b).byte j = if j = i then b else a.byte j := by
  simp only [byte_eq_storedByte, setByte, storedByte_storeByte]

@[simp] theorem size_setByte : (a.setByte i b).size = a.size := rfl

@[simp] theorem base_setByte : (a.setByte i b).base = a.base := rfl

@[simp] theorem byte_forget : (a.forget n).byte j = if j < n then a.byte j else 0 := by
  simp only [byte_eq_storedByte, storedByte, forget, ByteArray.data_extract,
    Array.getD_eq_getD_getElem?, Array.getElem?_extract]
  by_cases hn : j < n
  · by_cases hj : j < a.store.data.size
    · rw [if_pos (by omega), if_pos hn, Nat.zero_add]
    · rw [if_neg (by omega), if_pos hn, Array.getElem?_eq_none (by omega)]
  · rw [if_neg (by omega), if_neg hn]; rfl

@[simp] theorem size_fill : (a.fill start n f).size = a.size := by
  induction n with
  | zero => rfl
  | succ n ih => simpa [fill, Nat.fold_succ] using ih

@[simp] theorem base_fill : (a.fill start n f).base = a.base := by
  induction n with
  | zero => rfl
  | succ n ih => simpa [fill, Nat.fold_succ] using ih

@[simp] theorem byte_fill :
    (a.fill start n f).byte j = if start ≤ j ∧ j < start + n then f (j - start) else a.byte j := by
  induction n with
  | zero => rw [if_neg (by omega)]; rfl
  | succ n ih =>
    simp only [fill, Nat.fold_succ, byte_setByte] at ih ⊢
    rw [ih]
    by_cases h : j = start + n
    · subst h
      rw [if_pos rfl, if_pos (by omega), Nat.add_sub_cancel_left]
    · rw [if_neg h]
      by_cases hj : start ≤ j ∧ j < start + n
      · rw [if_pos hj, if_pos (by omega)]
      · rw [if_neg hj, if_neg (by omega)]

/-! ### Words -/

theorem word_fill_wordByte (h : w < Word.limit) : (a.fill i wordSize (wordByte w)).word i = w := by
  simp [word, wordByte, Nat.fold_succ, byte_fill] 
  simp only [Word.limit] at h
  omega

theorem checkRange_of_le (h : start + n ≤ a.size) (hw : start + n < Word.limit) :
    a.checkRange start n = .ok () := by
  rw [checkRange, Word.add_of_lt hw]
  exact if_pos h

theorem checkRange_eq_ok_iff :
    a.checkRange start n = .ok () ↔ start + n < Word.limit ∧ start + n ≤ a.size := by
  by_cases hw : start + n < Word.limit
  · rw [checkRange, Word.add_of_lt hw]
    show (if start + n ≤ a.size then .ok () else .error Fault.outOfBounds) = Except.ok () ↔ _
    by_cases h : start + n ≤ a.size <;> simp [h, hw]
  · rw [checkRange, Word.add, if_neg hw]
    show Except.error Fault.overflow = Except.ok () ↔ _
    simp [hw]

theorem readWord_of_le (h : i + 8 ≤ a.size) (hw : i + 8 < Word.limit) :
    a.readWord i = .ok (a.word i) := by
  rw [readWord, wordSize, checkRange_of_le h hw]; rfl

theorem writeWord_of_le (h : i + 8 ≤ a.size) (hw : i + 8 < Word.limit) :
    a.writeWord i w = .ok (a.fill i 8 (wordByte w)) := by
  rw [writeWord, wordSize, checkRange_of_le h hw]; rfl

theorem readWord_writeWord {a' : Arena} (hw : w < Word.limit) (h : a.writeWord i w = .ok a') :
    a'.readWord i = .ok w := by
  simp only [writeWord, bind, Except.bind, pure, Except.pure] at h
  split at h
  · nomatch h
  · next hr =>
    obtain ⟨h1, h2⟩ := checkRange_eq_ok_iff.mp hr
    cases h
    rw [readWord_of_le (by simpa using h2) h1, word_fill_wordByte hw]

end Arena

end SegregatedFit
