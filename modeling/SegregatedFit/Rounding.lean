import SegregatedFit.Word
import SegregatedFit.Layout

/-!
# Rounding requests to block sizes

`ceilAligned` is the least multiple of the alignment above a number (`ceilAligned_le_iff`); a
request for `n` bytes needs a block of `neededSize n` bytes. Both are exact. The functions that
round words are `alignUp`, which faults where a step of it is no word, and `alignUp?` and
`blockSize?`, which answer `none`.
-/

namespace SegregatedFit

/-- The least multiple of the alignment that is at least `n`. -/
def ceilAligned (n : Nat) : Nat :=
  (n + (alignment - 1)) / alignment * alignment

/-- Size of the smallest block whose payload holds `n` bytes. -/
def neededSize (n : Nat) : Nat :=
  max minBlockSize (ceilAligned (n + wordSize))

/-- Adds the alignment, takes one off and drops what is left over. -/
def alignUp (n : Nat) : Except Fault Nat := do
  let past ← Word.add n alignment
  let last ← Word.sub past 1
  pure (last / alignment * alignment)

/-- Rounds up to a multiple of the alignment, if `n + 15` is a word. -/
def alignUp? (n : Nat) : Option Nat :=
  if n + (alignment - 1) < Word.limit then some (ceilAligned n) else none

/-- Size of the block that serves a request for `n` bytes. -/
def blockSize? (n : Nat) : Option Nat :=
  if n + wordSize < Word.limit then (alignUp? (n + wordSize)).map (max minBlockSize) else none

theorem le_ceilAligned (n : Nat) : n ≤ ceilAligned n := by
  simp only [ceilAligned, alignment]; omega

theorem dvd_ceilAligned (n : Nat) : alignment ∣ ceilAligned n :=
  Nat.dvd_mul_left ..

theorem ceilAligned_le_iff {n m : Nat} (h : alignment ∣ m) : ceilAligned n ≤ m ↔ n ≤ m := by
  simp only [ceilAligned, alignment] at *; omega

theorem blockSize?_eq_some {n a : Nat} (h : blockSize? n = some a) : a = neededSize n := by
  simp only [blockSize?, alignUp?] at h
  split at h
  · split at h
    · exact (Option.some.inj h).symm
    · nomatch h
  · nomatch h

end SegregatedFit
