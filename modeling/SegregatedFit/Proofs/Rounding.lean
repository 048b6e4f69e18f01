import SegregatedFit.Rounding
import SegregatedFit.Proofs.Bytes

/-!
# Rounding words

Both ways of rounding a word up give the least multiple of the alignment from it on, where that is a
word, and give nothing where it is none. They part at one word only, the last multiple of the
alignment: it is its own answer, but `alignUp` starts from a sum that is no word there
(`roundsAlike_iff`, `not_roundsAlike`).

Multiples of a power of two are what a mask leaves of a word (`Word.and_mask`), so both leave out the
low bits of a sum (`alignUp_eq_mask`, `alignUp?_eq_mask`).
-/

namespace SegregatedFit

/-- The mask has all bits of a word but for the lowest `k`. -/
theorem Word.and_mask {w k : Nat} (hw : w < limit) (hk : k ≤ 64) :
    w &&& (limit - 2 ^ k) = w / 2 ^ k * 2 ^ k := by
  have hlimit : limit = 2 ^ (64 - k) * 2 ^ k := by rw [← Nat.pow_add, Nat.sub_add_cancel hk]; rfl
  have hmask : limit - 2 ^ k = (2 ^ (64 - k) - 1) * 2 ^ k := by rw [hlimit, Nat.sub_mul, Nat.one_mul]
  have hdiv : w / 2 ^ k < 2 ^ (64 - k) := Nat.div_lt_of_lt_mul (by rwa [Nat.mul_comm, ← hlimit])
  have hpos := Nat.two_pow_pos k
  calc w &&& (limit - 2 ^ k)
    _ = (w &&& (limit - 2 ^ k)) / 2 ^ k * 2 ^ k + (w &&& (limit - 2 ^ k)) % 2 ^ k :=
      (Nat.div_add_mod' ..).symm
    _ = (w / 2 ^ k &&& (2 ^ (64 - k) - 1)) * 2 ^ k + (w % 2 ^ k &&& 0) := by
      rw [hmask, Nat.and_div_two_pow, Nat.and_mod_two_pow, Nat.mul_div_cancel _ hpos,
        Nat.mul_mod_left]
    _ = w / 2 ^ k * 2 ^ k := by
      rw [Nat.and_two_pow_sub_one_eq_mod, Nat.mod_eq_of_lt hdiv, Nat.and_zero, Nat.add_zero]

variable {n a need : Nat}

/-! ### Rounding up where there is room -/

/-- The multiples of the alignment from `n` on. -/
def alignedFrom (n : Nat) : Set Nat :=
  {m | alignment ∣ m ∧ n ≤ m}

theorem isLeast_ceilAligned (n : Nat) : IsLeast (alignedFrom n) (ceilAligned n) :=
  ⟨⟨dvd_ceilAligned n, le_ceilAligned n⟩, fun _ hm => (ceilAligned_le_iff hm.1).2 hm.2⟩

theorem ceilAligned_lt_limit_iff :
    ceilAligned n < Word.limit ↔ n + (alignment - 1) < Word.limit := by
  simp only [ceilAligned, alignment, Word.limit_eq]
  omega

theorem alignUp?_eq (n : Nat) :
    alignUp? n = if ceilAligned n < Word.limit then some (ceilAligned n) else none :=
  (if_congr ceilAligned_lt_limit_iff rfl rfl).symm

theorem alignUp?_eq_some_iff :
    alignUp? n = some a ↔ IsLeast (alignedFrom n) a ∧ a < Word.limit := by
  have hleast := isLeast_ceilAligned n
  rw [alignUp?_eq]
  constructor
  · intro h
    split_ifs at h with hlt
    obtain rfl := Option.some.inj h
    exact ⟨hleast, hlt⟩
  · rintro ⟨ha, hlt⟩
    obtain rfl := hleast.unique ha
    exact if_pos hlt

theorem alignUp?_spec (h : alignUp? n = some a) : 16 ∣ a ∧ n ≤ a :=
  (alignUp?_eq_some_iff.1 h).1.1

theorem alignUp?_of_dvd (h16 : 16 ∣ n) (hlt : n < Word.limit) : alignUp? n = some n :=
  alignUp?_eq_some_iff.2 ⟨⟨⟨h16, Nat.le_refl n⟩, fun _ hm => hm.2⟩, hlt⟩

theorem alignUp?_block (h32 : 32 ≤ n) (h16 : 16 ∣ n) (hlt : n < Word.limit) :
    (alignUp? n).map (max · minBlockSize) = some n := by
  rw [alignUp?_of_dvd h16 hlt, Option.map_some]
  exact congrArg some (Nat.max_eq_left h32)

theorem alignUp?_eq_mask (n : Nat) : alignUp? n =
    (Word.add n (alignment - 1)).toOption.map (· &&& (Word.limit - alignment)) := by
  rw [alignUp?, Word.add]
  split_ifs with hlt
  · exact congrArg some (Word.and_mask (k := 4) hlt (by decide)).symm
  · rfl

/-! ### Sizes of blocks -/

theorem dvd_max_minBlockSize (h : 16 ∣ n) : 16 ∣ max n minBlockSize := by
  rw [minBlockSize]; omega

theorem neededSize_aligned (n : Nat) : 16 ∣ neededSize n := by
  rw [neededSize, Nat.max_comm]
  exact dvd_max_minBlockSize (dvd_ceilAligned _)

theorem blockSize?_spec (h : blockSize? n = some need) : 32 ≤ need ∧ 16 ∣ need ∧ n + 8 ≤ need := by
  rw [blockSize?_eq_some h]
  exact ⟨Nat.le_max_left .., neededSize_aligned n,
    Nat.le_trans (le_ceilAligned _) (Nat.le_max_right ..)⟩

theorem blockSize?_eq (n : Nat) :
    blockSize? n = if neededSize n < Word.limit then some (neededSize n) else none := by
  have hiff : neededSize n < Word.limit ↔ n + wordSize + (alignment - 1) < Word.limit := by
    rw [neededSize, Nat.max_lt, and_iff_right (by decide), ceilAligned_lt_limit_iff]
  by_cases hlt : n + wordSize + (alignment - 1) < Word.limit
  · rw [blockSize?, alignUp?, if_pos (by omega), if_pos hlt, if_pos (hiff.2 hlt)]; rfl
  · rw [blockSize?, alignUp?, if_neg hlt, if_neg (mt hiff.1 hlt), Option.map_none, ite_self]

theorem blockSize?_lt (h : blockSize? n = some need) : need < Word.limit := by
  rw [blockSize?_eq] at h
  split_ifs at h with hlt
  rwa [← Option.some.inj h]

/-! ### Rounding up from a larger sum -/

theorem alignUp_eq (n : Nat) : alignUp n =
    if n + alignment < Word.limit then .ok (ceilAligned n) else .error .overflow := by
  rw [alignUp]
  split_ifs with hlt
  · rw [Word.add_of_lt hlt, ok_bind, Word.sub_of_le (by rw [alignment]; omega)]
    rfl
  · rw [Word.add, if_neg hlt]
    rfl

theorem alignUp_eq_mask (n : Nat) : alignUp n = (do
    let past ← Word.add n alignment
    let last ← Word.sub past 1
    pure (last &&& (Word.limit - alignment))) := by
  by_cases hlt : n + alignment < Word.limit
  · have hle : 1 ≤ n + alignment := by rw [alignment]; omega
    rw [alignUp, Word.add_of_lt hlt, ok_bind, ok_bind, Word.sub_of_le hle, ok_bind, ok_bind]
    exact congrArg _ (Word.and_mask (k := 4) (by omega) (by decide)).symm
  · rw [alignUp, Word.add, if_neg hlt]
    rfl

/-- Rounding `n` up comes to the same in both ways: to the least multiple of the alignment where that
is a word, and else to nothing. -/
structure RoundsAlike (n : Nat) : Prop where
  ok_iff : ∀ a, alignUp n = .ok a ↔ alignUp? n = some a
  overflow_iff : alignUp n = .error .overflow ↔ alignUp? n = none
  some_iff : ∀ a, alignUp? n = some a ↔ IsLeast (alignedFrom n) a ∧ a < Word.limit

theorem alignUp_last : alignUp (Word.limit - alignment) = .error .overflow := by
  rw [alignUp_eq]
  exact if_neg (by decide)

theorem alignUp?_last : alignUp? (Word.limit - alignment) = some (Word.limit - alignment) :=
  alignUp?_of_dvd (by decide) (by decide)

/-- The two ways part at one word only. -/
theorem roundsAlike_iff (hn : n < Word.limit) : RoundsAlike n ↔ n ≠ Word.limit - alignment := by
  constructor
  · rintro h rfl
    have hnone := h.overflow_iff.1 alignUp_last
    rw [alignUp?_last] at hnone
    cases hnone
  · intro hne
    -- the larger sum is a word whenever the smaller one is, but for that word
    have hiff : n + alignment < Word.limit ↔ ceilAligned n < Word.limit := by
      simp only [ceilAligned, alignment, Word.limit_eq] at *
      omega
    have halign : alignUp n =
        if ceilAligned n < Word.limit then .ok (ceilAligned n) else .error .overflow := by
      rw [alignUp_eq, if_congr hiff rfl rfl]
    refine ⟨fun a => ?_, ?_, fun a => alignUp?_eq_some_iff⟩
    · rw [halign, alignUp?_eq]
      split_ifs <;> simp
    · rw [halign, alignUp?_eq]
      split_ifs <;> simp

theorem roundsAlike_near_limit : Word.limit - 17 < Word.limit ∧ RoundsAlike (Word.limit - 17) :=
  ⟨by decide, (roundsAlike_iff (by decide)).2 (by decide)⟩

/-- The last multiple of the alignment that is a word. -/
theorem not_roundsAlike : alignUp (Word.limit - alignment) = .error .overflow ∧
    alignUp? (Word.limit - alignment) = some (Word.limit - alignment) ∧
    ¬RoundsAlike (Word.limit - alignment) := by
  refine ⟨alignUp_last, alignUp?_last, fun h => ?_⟩
  have hok := (h.ok_iff _).2 alignUp?_last
  rw [alignUp_last] at hok
  cases hok

end SegregatedFit
