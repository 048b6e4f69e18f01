import SegregatedFit.Layout

/-!
# Boundary tags

A header or footer is one word: the block size, whose two low bits are free, with a flag for the
block itself in bit 0 and a flag for the block before it in bit 1. Packing and unpacking are
inverse on words (`pack_unpack`) and on tags whose size leaves the two bits free (`unpack_pack`).
-/

namespace SegregatedFit

/-- What a header or footer says. -/
structure Tag where
  size : Nat
  allocated : Bool
  prevAllocated : Bool
deriving DecidableEq, Repr

namespace Tag

def pack (t : Tag) : Nat :=
  t.size / 4 * 4 + t.prevAllocated.toNat * 2 + t.allocated.toNat

def unpack (w : Nat) : Tag :=
  ⟨w / 4 * 4, w % 2 = 1, w / 2 % 2 = 1⟩

theorem pack_unpack (w : Nat) : (unpack w).pack = w := by
  rcases Nat.mod_two_eq_zero_or_one w with h | h <;>
    rcases Nat.mod_two_eq_zero_or_one (w / 2) with h' | h' <;>
    simp [pack, unpack, h, h'] <;> omega

theorem unpack_pack {t : Tag} (h : 4 ∣ t.size) : unpack t.pack = t := by
  obtain ⟨n, a, p⟩ := t
  have h : 4 ∣ n := h
  cases a <;> cases p <;> simp [unpack, pack] <;> omega

def text (t : Tag) : String :=
  s!"Tag \x7b size: {t.size}, allocated: {t.allocated}, prev_allocated: {t.prevAllocated} \x7d"

end Tag

/-- The tag of the word that ends the arena: no block, and not free. -/
def Tag.epilogue (prevAllocated : Bool) : Tag := ⟨0, true, prevAllocated⟩

/-- The tag of the block before the first one, which is always allocated. -/
def Tag.prologue : Tag := ⟨2 * wordSize, true, true⟩

end SegregatedFit
