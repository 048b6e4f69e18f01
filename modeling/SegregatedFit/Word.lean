/-!
# Checked machine words

Sizes, offsets and addresses are natural numbers that fit a 64-bit word. `Word.add` and `Word.sub`
are the only arithmetic on values that come from memory or from a caller: they give the exact
result or the fault `overflow`, so a word never wraps around (`add_eq_ok_iff`, `sub_eq_ok_iff`).
-/

namespace SegregatedFit

/-- Why a computation stopped without a result. -/
inductive Fault where
  /-- The exact result of a word operation is no word. -/
  | overflow
  /-- A byte past the end of the arena, or a size class past the last one. -/
  | outOfBounds
  /-- A chain of free blocks came back on itself. -/
  | endlessChain
deriving DecidableEq, Repr

namespace Word

/-- How many words there are: a number is a word if it is below. -/
def limit : Nat := 1 <<< 64

def add (a b : Nat) : Except Fault Nat :=
  if a + b < limit then .ok (a + b) else .error .overflow

def sub (a b : Nat) : Except Fault Nat :=
  if b ≤ a then .ok (a - b) else .error .overflow

/-- The sum, or the largest word if the sum is no word. -/
def addSaturating (a b : Nat) : Nat :=
  min (a + b) (limit - 1)

variable {a b c : Nat}

theorem add_of_lt (h : a + b < limit) : add a b = .ok (a + b) := if_pos h

theorem sub_of_le (h : b ≤ a) : sub a b = .ok (a - b) := if_pos h

theorem add_eq_ok_iff : add a b = .ok c ↔ a + b < limit ∧ c = a + b := by
  by_cases h : a + b < limit
  · rw [add, if_pos h]
    exact ⟨fun e => ⟨h, (Except.ok.inj e).symm⟩, fun e => e.2 ▸ rfl⟩
  · rw [add, if_neg h]
    exact ⟨nofun, fun e => absurd e.1 h⟩

theorem sub_eq_ok_iff : sub a b = .ok c ↔ b ≤ a ∧ c = a - b := by
  by_cases h : b ≤ a
  · rw [sub, if_pos h]
    exact ⟨fun e => ⟨h, (Except.ok.inj e).symm⟩, fun e => e.2 ▸ rfl⟩
  · rw [sub, if_neg h]
    exact ⟨nofun, fun e => absurd e.1 h⟩

end Word

end SegregatedFit
