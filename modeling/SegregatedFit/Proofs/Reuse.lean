import SegregatedFit.Proofs.GrowthPolicy
import SegregatedFit.Proofs.Merging

/-!
# Freed space is used first

A block that is freed merges with its free neighbours, and the merged block goes to the front of its
class. So it is the first one that a search from this class on comes across, and if it is large
enough, the next allocation takes it (`Session.Reachable.reuses`). A request of no bytes is refused
before any search, although it would need a block of the least size (`Session.not_reused`).
-/

namespace SegregatedFit

/-! ### The merged block on the map -/

/-- The run of a vicinity lies where the merged block does. -/
theorem Vicinity.merged_bounds {v : Vicinity} {lo hi : Nat} (h : Tiles lo v.run hi) :
    v.merged.offset = lo ∧ lo + v.merged.size = hi := by
  refine ⟨?_, h.stop_eq.symm⟩
  show (v.prev.getD v.block).offset = lo
  rw [run] at h
  rcases hp : v.prev with _ | x <;> rw [hp] at h <;> exact (Tiles.cons_iff.1 h).1

namespace MemoryMap

variable {m : MemoryMap} {b : Block} {n x : Nat} {xs : List Nat}

/-- The first block of a class is found at once if it is large enough. -/
theorem firstFit_of_first (hc : m.chains (sizeClass n) = x :: xs) (hn : n ≤ (m.gapAt x).size) :
    m.firstFit n = some x := by
  have hlt : (sizeClass n).val < (List.finRange classCount).length := by
    rw [List.length_finRange]
    exact (sizeClass n).isLt
  have hfirst : (List.finRange classCount)[(sizeClass n).val] = sizeClass n := by
    rw [List.getElem_finRange]
    rfl
  rw [firstFit, List.drop_eq_getElem_cons hlt, hfirst, List.findSome?_cons, hc, List.find?_cons,
    decide_eq_true hn]

/-- A block that is released is inside a free block, which is the first of its class. -/
theorem Valid.release_first (hv : m.Valid) (hb : b ∈ m.blocks) (ha : b.allocated = true) :
    ∃ c ∈ (m.release b.offset).blocks, c.allocated = false ∧ c.offset ≤ b.offset ∧
      b.offset + b.size ≤ c.offset + c.size ∧
      ∃ xs, (m.release b.offset).chains (sizeClass c.size) = c.offset :: xs := by
  obtain ⟨v, rfl, -, hblocks, hrelease⟩ := hv.release_eq hb ha
  have ht := hv.tiles
  rw [hblocks, Vicinity.blocks] at ht
  obtain ⟨lo, -, ht⟩ := Tiles.append_iff.1 ht
  obtain ⟨hi, hrun, -⟩ := Tiles.append_iff.1 ht
  obtain ⟨hlo, hhi⟩ := Vicinity.merged_bounds hrun
  have hin := hrun.bounds (b := v.block) (by simp [Vicinity.run])
  rw [hrelease]
  refine ⟨v.merged, by simp [Vicinity.freed], rfl, by omega, by omega, _, Chains.push_self⟩

end MemoryMap

/-! ### Heaps -/

/-- `b` is a block of the heap, and the address is inside it. -/
structure Heap.Covers (h : Heap) (b : Block) (p : Nat) : Prop where
  mem : ∃ bs, h.blocks = .ok bs ∧ b ∈ bs
  low : h.address b.offset ≤ p
  high : p < h.address b.offset + b.size

namespace Session

variable {s t : Session} {o : Outline} {b : Block} {a n p : Nat} {xs : List Nat}

/-- An allocation of `n` bytes is given the block `b`, and the arena does not grow. -/
structure Gives (t : Session) (b : Block) (n : Nat) : Prop where
  answered : t.calls < Word.limit → ∃ out, (Call.allocate n).perform.run t.heap = .ok out
  given : ∀ out, (Call.allocate n).perform.run t.heap = .ok out →
    out.result = .ok (some (t.heap.address b.offset)) ∧ out.Requested [] t.heap ∧
      out.heap.size = t.heap.size

namespace Outlined

theorem address_eq (h : s.Outlined o) (x : Nat) : s.heap.address x = o.base + x :=
  congrArg (· + x) h.outlines.base

/-- No two blocks cover an address. -/
theorem covers_unique {c : Block} (h : s.Outlined o) (hb : s.heap.Covers b p)
    (hc : s.heap.Covers c p) : b = c := by
  obtain ⟨⟨bs, hbs, hb⟩, hb1, hb2⟩ := hb
  obtain ⟨⟨cs, hcs, hc⟩, hc1, hc2⟩ := hc
  rw [h.blocks_eq] at hbs hcs
  cases hbs
  cases hcs
  rw [h.address_eq] at hb1 hb2 hc1 hc2
  rcases h.outlines.valid.map.tiles.eq_or_apart hb hc with rfl | hap
  · rfl
  · omega

/-- What the first block of a class is large enough for, it is given to. -/
theorem gives (h : t.Outlined o) (hv : t.heap.config.validate.run = .ok (.ok ()))
    (hb : b ∈ o.map.blocks) (hf : b.allocated = false)
    (hc : o.map.chains (sizeClass b.size) = b.offset :: xs) (hn : 0 < n)
    (ha : blockSize? n = some a) (hle : a ≤ b.size) (hclass : sizeClass a = sizeClass b.size) :
    t.Gives b n := by
  have hfit : o.map.firstFit a = some b.offset :=
    MemoryMap.firstFit_of_first (hclass ▸ hc) (by
      rw [h.outlines.valid.map.gapAt_size hb]
      exact hle)
  have hallocate : (o.allocate n).1 = .ok (o.base + b.offset) := by
    simp only [Outline.allocate, if_neg (Nat.ne_of_gt hn), ha, Outline.findOrExtend, hfit]
  have hfits : t.heap.Fits (neededSize n) :=
    ⟨_, h.blocks_eq, b, hb, hf, by rw [← blockSize?_eq_some ha]; exact hle⟩
  have hnull : ∀ q ∈ (Call.allocate n).handed, q ∈ t.pointers := by rintro _ ⟨⟩
  refine ⟨fun hcalls => h.call_exists hcalls hnull, fun out hr => ?_⟩
  obtain ⟨hres, -, -⟩ := h.call hnull hr
  obtain ⟨out₁, hr₁, hreq⟩ := HeapM.requests_bind (fun _ => .pure _) hr
  have hasked := (Call.asks_perform (.allocate n)).asked hr
  have hquiet := (h.serves hv hasked hres hr₁ hreq).never (.inr (.inr hfits))
  rw [Call.outline, hallocate] at hres
  refine ⟨by rw [hres, h.address_eq]; rfl, hquiet, ?_⟩
  rw [hasked.size, ← hasked.granted _ hres, hquiet.reported, List.sum_nil, Nat.add_zero]

end Outlined

/-- The space of a block that is freed is given to the next allocation that it is large enough for,
if that needs a size of its class. -/
theorem Reachable.reuses (hs : s.Reachable) (hp : p ∈ s.pointers) :
    ∃ t, Step s (.call (.free (some p)) (.ok none)) t ∧
      (∃ b, b.allocated = false ∧ t.heap.Covers b p) ∧
      ∀ b, t.heap.Covers b p → ∀ n a, 0 < n → blockSize? n = some a → a ≤ b.size →
        sizeClass a = sizeClass b.size → t.Gives b n := by
  obtain ⟨o, ho⟩ := hs.outlined
  obtain ⟨c, hc, rfl⟩ := ho.exists_block hp
  obtain ⟨hmem, ha⟩ := Block.mem_live.1 hc
  obtain ⟨t, hstep, ht⟩ := ho.step_free hc
  obtain ⟨d, hd, hfree, hlo, hhi, xs, hfirst⟩ := ho.outlines.valid.map.release_first hmem ha
  have hpos := (ho.outlines.valid.map.tiles.bounds hmem).2.2.1
  have hbase : t.heap.address d.offset = o.base + d.offset := ht.address_eq _
  have hcovers : t.heap.Covers d (o.base + c.offset) :=
    ⟨⟨_, ht.blocks_eq, hd⟩, by omega, by omega⟩
  refine ⟨t, hstep, ⟨d, hfree, hcovers⟩, fun b hb n a hn hneed hle hclass => ?_⟩
  obtain rfl := ht.covers_unique hb hcovers
  exact ht.gives (hs.step hstep).config_valid hd hfree hfirst hn hneed hle hclass

/-! ### Two blocks, of which the first is freed -/

/-- The first block has no free neighbour. -/
theorem pair_freed : pair.map (fun s => (s.pointers,
    (s.next (.free (some 1056))).map fun t => (t.heap.address 32, t.heap.blocks))) =
      some ([1088, 1056],
        some (1056, .ok [⟨32, 32, false⟩, ⟨64, 48, true⟩, ⟨112, 48, false⟩])) := by
  decide +kernel

theorem exists_freed : ∃ s t, pair = some s ∧ 1056 ∈ s.pointers ∧
    Step s (.call (.free (some 1056)) (.ok none)) t ∧ t.heap.Covers ⟨32, 32, false⟩ 1056 := by
  obtain ⟨s, hs, hfreed⟩ := Option.map_eq_some_iff.1 pair_freed
  obtain ⟨hp, hnext⟩ := Prod.mk.inj hfreed
  obtain ⟨t, ht, hlayout⟩ := Option.map_eq_some_iff.1 hnext
  obtain ⟨haddress, hblocks⟩ := Prod.mk.inj hlayout
  obtain ⟨r, hstep⟩ := step_of_next ht
  obtain ⟨o, ho⟩ := (reachable_of_pair hs).outlined
  obtain rfl : r = .ok none := (ho.step_call hstep).1
  have hle : 1056 < t.heap.address 32 + 32 := by
    rw [haddress]
    decide
  exact ⟨s, t, hs, by rw [hp]; decide, hstep,
    ⟨_, hblocks, List.mem_cons_self⟩, Nat.le_of_eq haddress, hle⟩

theorem reuses_pair : ∃ s t, pair = some s ∧ s.Reachable ∧ 1056 ∈ s.pointers ∧
    Step s (.call (.free (some 1056)) (.ok none)) t ∧ t.heap.Covers ⟨32, 32, false⟩ 1056 ∧
    0 < 10 ∧ blockSize? 10 = some 32 ∧ t.Gives ⟨32, 32, false⟩ 10 := by
  obtain ⟨s, t, hs, hp, hstep, hcovers⟩ := exists_freed
  have hr := reachable_of_pair hs
  obtain ⟨t', hstep', -, hgives⟩ := Reachable.reuses hr hp
  obtain ⟨-, rfl⟩ := hstep.call_unique hstep'
  have hneed : blockSize? 10 = some 32 := by decide
  exact ⟨s, t, hs, hr, hp, hstep, hcovers, by decide, hneed,
    hgives _ hcovers 10 32 (by decide) hneed (Nat.le_refl _) rfl⟩

/-- No bytes would need a block of 32 bytes, too, but they are refused. -/
theorem not_reused : ∃ s t, pair = some s ∧ s.Reachable ∧ 1056 ∈ s.pointers ∧
    Step s (.call (.free (some 1056)) (.ok none)) t ∧ t.heap.Covers ⟨32, 32, false⟩ 1056 ∧
    blockSize? 0 = some 32 ∧
    (∃ out, (Call.allocate 0).perform.run t.heap = .ok out ∧ out.result = .error .zeroSize) ∧
    ¬t.Gives ⟨32, 32, false⟩ 0 := by
  obtain ⟨s, t, hs, hp, hstep, hcovers⟩ := exists_freed
  have hrun : (Call.allocate 0).perform.run t.heap = .ok ⟨.error .zeroSize, t.heap, []⟩ := rfl
  refine ⟨s, t, hs, reachable_of_pair hs, hp, hstep, hcovers, by decide, ⟨_, hrun, rfl⟩, ?_⟩
  intro hgives
  cases (hgives.given _ hrun).1

end Session

end SegregatedFit
