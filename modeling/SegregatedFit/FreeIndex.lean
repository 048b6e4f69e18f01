import SegregatedFit.Word
import SegregatedFit.Layout

/-!
# Size classes

Free blocks are kept in one chain per size class. Class 0 has the sizes up to 32, class `i` the
sizes above `16 * 2 ^ i` up to `32 * 2 ^ i`, and the last class all sizes above those of the others
(`sizeClass_le_iff`). A `FreeIndex` holds the first block of each chain; the chains themselves are
links inside the free blocks.
-/

namespace SegregatedFit

abbrev SizeClass := Fin classCount

/-- How often the limit of the first class has to double to reach `size`, up to the last class. -/
def sizeClass (size : Nat) : SizeClass :=
  ⟨min (classCount - 1) (Nat.log2 ((size - 1) / (firstClassLimit / 2))),
    Nat.lt_succ_of_le (Nat.min_le_left ..)⟩

theorem sizeClass_le_iff {size i : Nat} (hi : i < classCount - 1) :
    (sizeClass size).val ≤ i ↔ size ≤ firstClassLimit <<< i := by
  have hi : i < 15 := hi
  have hle : (sizeClass size).val ≤ i ↔ Nat.log2 ((size - 1) / 16) ≤ i := by
    show min 15 (Nat.log2 ((size - 1) / 16)) ≤ i ↔ _
    omega
  rw [hle, ← Nat.lt_succ_iff]
  by_cases h0 : (size - 1) / 16 = 0
  · have : 1 ≤ 2 ^ i := Nat.one_le_two_pow
    simp only [h0, Nat.log2_zero, firstClassLimit, Nat.shiftLeft_eq, Nat.zero_lt_succ, true_iff]
    omega
  · rw [Nat.log2_lt h0, Nat.pow_succ, firstClassLimit, Nat.shiftLeft_eq]
    omega

/-- The first block of each chain, or `nil`. -/
structure FreeIndex where
  heads : Vector Nat classCount
deriving DecidableEq, Repr

namespace FreeIndex

def empty : FreeIndex := ⟨.replicate classCount nil⟩

def head (x : FreeIndex) (c : SizeClass) : Nat := x.heads[c]

def setHead (x : FreeIndex) (c : SizeClass) (bp : Nat) : FreeIndex := ⟨x.heads.set c bp⟩

/-- The size class with this number, or a fault. -/
def classAt (i : Nat) : Except Fault SizeClass :=
  if h : i < classCount then .ok ⟨i, h⟩ else .error .outOfBounds

@[simp] theorem head_empty {c : SizeClass} : empty.head c = nil := by
  simp [head, empty, Fin.getElem_fin]

@[simp] theorem head_setHead {x : FreeIndex} {c d : SizeClass} {bp : Nat} :
    (x.setHead c bp).head d = if d = c then bp else x.head d := by
  simp [head, setHead, Fin.getElem_fin, Vector.getElem_set, Fin.ext_iff, eq_comm]

end FreeIndex

end SegregatedFit
