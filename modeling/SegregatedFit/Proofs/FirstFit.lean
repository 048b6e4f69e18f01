import SegregatedFit.Proofs.GrowthPolicy
import SegregatedFit.Proofs.Sequences

/-!
# First fit is complete

The search for a block of `n` bytes goes through the classes from that of `n` on and through each
chain from its head. It stops at the first block that is large enough, and it stops at none only if
no chain has one, not even one of the classes it leaves out: these hold smaller blocks
(`Pool.Orderly.search_complete`). All of that is about an arena and an index alone. Blocks need not
be apart from each other, and nothing is said of the links back.
-/

namespace SegregatedFit

/-- All listed blocks of the classes from that of `n` on, in the order of a search. -/
def Chains.scan (l : Chains) (n : Nat) : List Nat :=
  ((List.finRange classCount).drop (sizeClass n).val).flatMap l

namespace Pool

variable {p : Pool} {l : Chains} {c : SizeClass} {n x : Nat}

def Fits (p : Pool) (n x : Nat) : Prop := ∃ t, p.arena.header x = .ok t ∧ n ≤ t.size

def TooSmall (p : Pool) (n x : Nat) : Prop := ∃ t, p.arena.header x = .ok t ∧ t.size < n

/-- The chains come to an end, visit no block twice, and have only blocks of their own class, with
headers and links inside the arena. -/
structure Orderly (p : Pool) (l : Chains) : Prop where
  addressable : p.arena.size < Word.limit
  leads : ∀ c, Leads p.arena (p.index.head c) (l c)
  nodup : ∀ c, (l c).Nodup
  inside : ∀ c, ∀ x ∈ l c, 8 ≤ x ∧ x + 16 ≤ p.arena.size
  class_eq : ∀ c, ∀ x ∈ l c, ∀ t, p.arena.header x = .ok t → sizeClass t.size = c

/-- What a search for `n` bytes comes to. -/
structure Searches (p : Pool) (l : Chains) (n : Nat) (found : Option Nat) : Prop where
  some_iff : ∀ x, found = some x ↔
    ∃ xs ys, l.scan n = xs ++ x :: ys ∧ p.Fits n x ∧ ∀ y ∈ xs, p.TooSmall n y
  none_iff : found = none ↔ ∀ c, ∀ x ∈ l c, p.TooSmall n x

theorem Files.orderly (h : p.Files l) : p.Orderly l := by
  refine ⟨h.addressable, h.chained.leads h.spread, h.spread.nodup, h.spread.inside,
    fun c x hx t ht => ?_⟩
  obtain ⟨t', ht', hc⟩ := h.header hx
  rwa [Except.ok.inj (ht.symm.trans ht')]

namespace Orderly

theorem header_eq (h : p.Orderly l) (hx : x ∈ l c) :
    p.arena.header x = .ok (.unpack (p.arena.word (x - 8))) := by
  have hin := h.inside c x hx
  exact Arena.header_of_le hin.1 (by omega) h.addressable

theorem fits_iff (h : p.Orderly l) (hx : x ∈ l c) : p.Fits n x ↔ n ≤ sizeAt p.arena x := by
  rw [Fits, h.header_eq hx]
  exact ⟨by rintro ⟨_, ⟨⟩, hn⟩; exact hn, fun hn => ⟨_, rfl, hn⟩⟩

theorem tooSmall_iff (h : p.Orderly l) (hx : x ∈ l c) :
    p.TooSmall n x ↔ ¬n ≤ sizeAt p.arena x := by
  rw [TooSmall, h.header_eq hx, Nat.not_le]
  exact ⟨by rintro ⟨_, ⟨⟩, hn⟩; exact hn, fun hn => ⟨_, rfl, hn⟩⟩

/-- A search goes through one sequence. -/
theorem firstFit_eq (h : p.Orderly l) (n : Nat) :
    p.firstFit n = .ok ((l.scan n).find? fun x => n ≤ sizeAt p.arena x) := by
  rw [Chains.scan, List.find?_flatMap]
  refine Pool.firstFit_eq h.leads h.nodup (fun c x hx => ?_) h.addressable
  have := h.inside c x hx
  omega

/-- A class that the search leaves out has only smaller blocks. -/
theorem tooSmall_of_class_lt (h : p.Orderly l) (hx : x ∈ l c) (hc : ¬sizeClass n ≤ c) :
    p.TooSmall n x := by
  refine (h.tooSmall_iff hx).2 fun hn => hc ?_
  rw [← h.class_eq c x hx _ (h.header_eq hx)]
  exact sizeClass_mono hn

/-- First fit finds the first large enough block, and misses none. -/
theorem search_complete (h : p.Orderly l) (n : Nat) :
    ∃ found, p.firstFit n = .ok found ∧ p.Searches l n found := by
  have hfits : ∀ x ∈ l.scan n, p.Fits n x ↔ n ≤ sizeAt p.arena x := fun x hx =>
    let ⟨_, _, hc⟩ := List.mem_flatMap.1 hx
    h.fits_iff hc
  have hsmall : ∀ x ∈ l.scan n, p.TooSmall n x ↔ ¬n ≤ sizeAt p.arena x := fun x hx =>
    let ⟨_, _, hc⟩ := List.mem_flatMap.1 hx
    h.tooSmall_iff hc
  refine ⟨_, h.firstFit_eq n, fun x => ?_, ?_⟩
  · rw [List.find?_eq_some_iff_append]
    simp only [decide_eq_true_eq, Bool.not_eq_true', decide_eq_false_iff_not]
    constructor
    · rintro ⟨hn, xs, ys, hscan, hxs⟩
      exact ⟨xs, ys, hscan, (hfits x (by simp [hscan])).2 hn,
        fun y hy => (hsmall y (by simp [hscan, hy])).2 (hxs y hy)⟩
    · rintro ⟨xs, ys, hscan, hn, hxs⟩
      exact ⟨(hfits x (by simp [hscan])).1 hn, xs, ys, hscan,
        fun y hy => (hsmall y (by simp [hscan, hy])).1 (hxs y hy)⟩
  · simp only [List.find?_eq_none, decide_eq_true_eq]
    constructor
    · intro hnone c x hx
      by_cases hc : sizeClass n ≤ c
      · have hscan := List.mem_flatMap.2 ⟨c, mem_classes_iff.2 hc, hx⟩
        exact (hsmall x hscan).2 (hnone x hscan)
      · exact h.tooSmall_of_class_lt hx hc
    · intro hall x hx
      obtain ⟨c, -, hc⟩ := List.mem_flatMap.1 hx
      exact (hsmall x hx).1 (hall c x hc)

theorem search_sample : ∃ p l, sample = some (p, l) ∧ p.Orderly l ∧ l 1 = [80, 32] ∧
    ∃ found, p.firstFit 48 = .ok found ∧ p.Searches l 48 found := by
  obtain ⟨⟨p, l⟩, hs, hlists⟩ := Option.map_eq_some_iff.1 sample_lists
  have ho := (reached_sample hs).files.orderly
  exact ⟨p, l, hs, ho, (Prod.mk.inj hlists).1, search_complete ho 48⟩

/-- Blocks of 48 and 64 bytes are of one class, where the one that was inserted last comes first. -/
example : sample.map (fun q => [48, 64, 80, 512].map q.1.firstFit) =
    some [.ok (some 80), .ok (some 80), .ok (some 144), .ok none] := by
  decide +kernel

end Orderly

end Pool

end SegregatedFit
