import SegregatedFit.Proofs.MapOps

/-!
# Reading a described heap

A walk over the headers meets the blocks of the map (`MemoryMap.Describes.walk_eq`), and first fit
finds what a search of the lists finds (`MemoryMap.Describes.firstFit_eq`).
-/

namespace SegregatedFit

theorem Tiles.length_le {lo hi : Nat} {bs : List Block} (h : Tiles lo bs hi) :
    lo + 32 * bs.length ≤ hi := by
  induction bs generalizing lo with
  | nil => exact Nat.le_of_eq h
  | cons b bs ih =>
    obtain ⟨-, h32, -, hr⟩ := Tiles.cons_iff.1 h
    have := ih hr
    rw [List.length_cons]; omega

namespace Arena

variable {a : Arena} {q : Bool} {lo hi fuel : Nat} {bs : List Block}

theorem walkFrom_eq (ht : a.Tagged q (bs ++ [.last hi])) (hb : Tiles lo bs hi) (hlo : 8 ≤ lo)
    (hs : hi ≤ a.size) (ha : a.size < Word.limit) (hf : bs.length < fuel) :
    a.walkFrom fuel lo = ⟨bs, none⟩ := by
  induction bs generalizing lo q fuel with
  | nil =>
    obtain rfl : lo = hi := hb
    obtain ⟨f, rfl⟩ : ∃ f, fuel = f + 1 := ⟨fuel - 1, by simp at hf; omega⟩
    rw [walkFrom, header_eq hlo hs ha ht.1 ⟨0, rfl⟩]
    rfl
  | cons b bs ih =>
    obtain ⟨rfl, h32, h16, hr⟩ := Tiles.cons_iff.1 hb
    obtain ⟨f, rfl⟩ : ∃ f, fuel = f + 1 := ⟨fuel - 1, by simp at hf; omega⟩
    have hle := hr.le
    have hz : ¬b.size = 0 := by omega
    rw [walkFrom, header_eq hlo (by omega) ha ht.1 (Nat.dvd_trans ⟨4, rfl⟩ h16)]
    simp only [if_neg hz, Word.add_of_lt (show b.offset + b.size < _ by omega),
      ih ht.2.2 hr (by omega) (show bs.length < f by simpa using hf)]

end Arena

namespace MemoryMap

variable {m : MemoryMap} {p : Pool} {b : Block} {x n : Nat}

theorem Describes.walk_eq (hd : m.Describes p) (hv : m.Valid) :
    p.arena.walk m.first = ⟨m.blocks, none⟩ := by
  have h1 := hv.first_ge
  have h2 := hv.tiles.length_le
  exact Arena.walkFrom_eq hd.tagged hv.tiles (by omega) (by rw [hd.size])
    (by rw [hd.size]; exact hd.stop_lt) (by rw [hd.size]; omega)

/-- The first block of at least `n` bytes, class by class, each class from its front. -/
def firstFit (m : MemoryMap) (n : Nat) : Option Nat :=
  ((List.finRange classCount).drop (sizeClass n).val).findSome? fun c =>
    (m.chains c).find? fun x => n ≤ (m.gapAt x).size

theorem Describes.header_of_mem (hd : m.Describes p) (hv : m.Valid) (hb : b ∈ m.blocks) :
    p.arena.header b.offset =
      .ok ⟨b.size, b.allocated, flagAfter true (m.gapAt b.offset).before⟩ := by
  obtain ⟨xs, ys, hb, hg⟩ := hv.gapAt_split hb
  have hall : m.allBlocks = xs ++ b :: (ys ++ [.last m.stop]) := by
    rw [allBlocks, hb, List.append_assoc, List.cons_append]
  rw [hg]
  exact hd.header_eq hv hall

theorem Describes.header_of_allBlocks (hd : m.Describes p) (hv : m.Valid)
    (hb : b ∈ m.allBlocks) : ∃ q, p.arena.header b.offset = .ok ⟨b.size, b.allocated, q⟩ := by
  obtain ⟨xs, ys, h⟩ := List.append_of_mem hb
  exact ⟨_, hd.header_eq hv h⟩

theorem Describes.header_behind (hd : m.Describes p) (hv : m.Valid) (hb : b ∈ m.blocks)
    (ha : b.allocated = true) : p.arena.header (b.offset + b.size) =
      .ok ⟨(m.gapAt b.offset).next.size, (m.gapAt b.offset).next.allocated, true⟩ := by
  have hvg := hv.gapAt hb
  have hh := (Gap.Describes.of_fillWhole ((hv.fillWhole_gapAt hb ha).symm ▸ hd) hvg).header_next hvg
  rwa [hv.gapAt_offset hb, hv.gapAt_size hb] at hh

theorem Describes.header_after (hd : m.Describes p) (hv : m.Valid) (hb : b ∈ m.blocks)
    (ha : b.allocated = true) :
    ∃ q, p.arena.header (b.offset + (m.gapAt b.offset).joinNext.size) =
      .ok ⟨(m.gapAt b.offset).joinNext.next.size, (m.gapAt b.offset).joinNext.next.allocated, q⟩ := by
  have hvg := hv.gapAt hb
  have ho := hvg.joinNext.next_offset
  rw [Gap.joinNext_offset, hv.gapAt_offset hb] at ho
  rw [← ho]
  refine hd.header_of_allBlocks hv ?_
  have hm := hvg.after_subset
  rw [hv.fillWhole_gapAt hb ha] at hm
  refine hm ?_
  rw [Gap.next, Gap.stop_joinNext]
  rcases (m.gapAt b.offset).joinNext_cases with ⟨-, h⟩ | ⟨c, ys, hc, -, h⟩ <;> rw [h]
  · rcases (m.gapAt b.offset).after with _ | ⟨d, ds⟩ <;> simp
  · rcases ys with _ | ⟨d, ds⟩ <;> simp [hc]

theorem Describes.sizeAt_eq (hd : m.Describes p) (hv : m.Valid) (hb : b ∈ m.blocks) :
    Pool.sizeAt p.arena b.offset = b.size := by
  have hs := hv.offset_ge (List.mem_append_left _ hb)
  have h := hd.header_of_mem hv hb
  rw [Arena.header_of_le (by omega) (by rw [hd.size]; omega)
    (by rw [hd.size]; exact hd.stop_lt)] at h
  rw [Pool.sizeAt, Except.ok.inj h]

theorem Describes.leads (hd : m.Describes p) (hv : m.Valid) (c : SizeClass) :
    Pool.Leads p.arena (p.index.head c) (m.chains c) :=
  hd.chained.leads hv.spread c

theorem Describes.chain_eq (hd : m.Describes p) (hv : m.Valid) (c : SizeClass) (k : Nat) :
    p.chain c k = .ok ((m.chains c).take k) :=
  hd.chained.chain_eq (hd.size ▸ hv.spread) (hd.size ▸ hd.stop_lt) c k

theorem Describes.firstFit_eq (hd : m.Describes p) (hv : m.Valid) :
    p.firstFit n = .ok (m.firstFit n) := by
  have hs := hv.spread
  have hlt : p.arena.size < Word.limit := by rw [hd.size]; exact hd.stop_lt
  rw [← hd.size] at hs
  rw [Pool.firstFit_eq (fun c => ?_) hv.lists.nodup (fun c y hy => ?_) hlt]
  · congr 1
    unfold firstFit
    congr 1
    funext c
    refine List.find?_congr fun y hy => ?_
    obtain ⟨b, hb, -, rfl, -⟩ := (hv.lists.mem c y).1 hy
    rw [hd.sizeAt_eq hv hb, hv.gapAt_size hb]
  · exact hd.leads hv c
  · have := hs.inside c y hy
    omega

theorem Valid.mem_of_firstFit (hv : m.Valid) (h : m.firstFit n = some x) :
    ∃ b ∈ m.blocks, b.allocated = false ∧ b.offset = x ∧ n ≤ b.size := by
  obtain ⟨c, -, hc⟩ := List.exists_of_findSome?_eq_some h
  obtain ⟨b, hb, hf, rfl, -⟩ := (hv.lists.mem c x).1 (List.mem_of_find?_eq_some hc)
  refine ⟨b, hb, hf, rfl, ?_⟩
  have := List.find?_some hc
  rw [hv.gapAt_size hb] at this
  simpa using this

end MemoryMap

end SegregatedFit
