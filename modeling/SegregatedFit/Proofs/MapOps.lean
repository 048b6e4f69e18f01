import SegregatedFit.Proofs.PoolSpec

/-!
# Operations on maps

The operations of a pool as functions of its map: `grow`, `place`, `release`, `absorb` and `trim`.
They keep maps valid (`Valid.place`, …) and change the list of allocated blocks, `MemoryMap.live`,
in one place (`Valid.live_place`, …).
-/

namespace SegregatedFit

namespace Block

variable {b : Block} {xs ys : List Block}

/-- The allocated ones. -/
def live (bs : List Block) : List Block := bs.filter (·.allocated)

@[simp] theorem live_append : live (xs ++ ys) = live xs ++ live ys := List.filter_append ..

@[simp] theorem live_nil : live [] = [] := rfl

theorem live_cons_of_free (hb : b.allocated = false) : live (b :: xs) = live xs :=
  List.filter_cons_of_neg (by simp [hb])

theorem live_cons_of_allocated (hb : b.allocated = true) : live (b :: xs) = b :: live xs :=
  List.filter_cons_of_pos hb

theorem mem_live : b ∈ live xs ↔ b ∈ xs ∧ b.allocated = true := List.mem_filter

theorem totalSize_perm (h : xs.Perm ys) : totalSize xs = totalSize ys := by
  induction h with
  | nil => rfl
  | cons x _ ih => rw [totalSize, totalSize, ih]
  | swap x y l => simp only [totalSize]; omega
  | trans _ _ ih1 ih2 => rw [ih1, ih2]

theorem totalSize_filter_le (f : Block → Bool) (bs : List Block) :
    totalSize (bs.filter f) ≤ totalSize bs := by
  induction bs with
  | nil => exact Nat.le_refl 0
  | cons b bs ih =>
    rw [List.filter_cons]
    split <;> simp only [totalSize] <;> omega

theorem totalSize_live_add (bs : List Block) :
    totalSize (live bs) + totalSize (bs.filter fun b => !b.allocated) = totalSize bs := by
  induction bs with
  | nil => rfl
  | cons b bs ih =>
    cases hb : b.allocated with
    | true =>
      rw [live_cons_of_allocated hb, List.filter_cons_of_neg (by simp [hb]), totalSize, totalSize]
      omega
    | false =>
      rw [live_cons_of_free hb, List.filter_cons_of_pos (by simp [hb]), totalSize, totalSize]
      omega

theorem held_live {i : Nat} : Held (live xs) i ↔ Held xs i := by
  constructor
  · rintro ⟨b, hb, h⟩; exact ⟨b, (mem_live.1 hb).1, h⟩
  · rintro ⟨b, hb, h⟩; exact ⟨b, mem_live.2 ⟨hb, h.1⟩, h⟩

end Block

namespace Gap

variable {g : Gap} {n : Nat}

/-- The allocated blocks around the gap. -/
def live (g : Gap) : List Block := Block.live (g.before ++ g.after)

/-- How many bytes a block gets of which `need` are needed. -/
def placed (g : Gap) (need : Nat) : Nat :=
  if minBlockSize ≤ g.size - need then need else g.size

theorem le_placed (h : n ≤ g.size) : n ≤ g.placed n ∧ g.placed n ≤ g.size := by
  rw [placed]; split <;> omega

@[simp] theorem live_joinPrev : g.joinPrev.live = g.live := by
  rcases g.joinPrev_cases with ⟨-, h⟩ | ⟨xs, b, hb, hf, h⟩ <;> rw [h]
  simp [live, hb, Block.live_cons_of_free hf]

@[simp] theorem live_joinNext : g.joinNext.live = g.live := by
  rcases g.joinNext_cases with ⟨-, h⟩ | ⟨b, ys, hb, hf, h⟩ <;> rw [h]
  simp [live, hb, Block.live_cons_of_free hf]

end Gap

namespace MemoryMap

/-- The allocated blocks. -/
def live (m : MemoryMap) : List Block := Block.live m.blocks

end MemoryMap

namespace Gap

variable {g : Gap} {n : Nat}

theorem live_fillFree : g.fillFree.live = g.live := by
  simp [fillFree, MemoryMap.live, live, Block.live_cons_of_free]

theorem live_fillMerged : g.fillMerged.live = g.live := by
  rw [fillMerged, live_fillFree, live_joinNext, live_joinPrev]

theorem live_fillWhole : g.fillWhole.live.Perm (⟨g.offset, g.size, true⟩ :: g.live) := by
  simp only [fillWhole, MemoryMap.live, live, Block.live_append, Block.live_cons_of_allocated]
  exact List.perm_middle

theorem live_split : (g.split n).live.Perm (⟨g.offset, n, true⟩ :: g.live) := by
  simp only [split, live, Block.live_append, Block.live_cons_of_allocated, Block.live_nil,
    List.append_assoc]
  exact List.perm_middle

theorem live_fillAllocated :
    (g.fillAllocated n).live.Perm (⟨g.offset, g.placed n, true⟩ :: g.live) := by
  unfold fillAllocated placed
  split
  · rw [live_fillFree]; exact live_split
  · exact live_fillWhole

/-! ### Where things are -/

theorem Valid.stop_joinPrev (hv : g.Valid) : g.joinPrev.stop = g.stop := by
  rw [stop, hv.joinPrev_stop, joinPrev_after, ← stop]

theorem stop_joinNext : g.joinNext.stop = g.stop := by
  rcases g.joinNext_cases with ⟨-, h⟩ | ⟨b, ys, hb, -, h⟩ <;> rw [h]
  simp only [stop, hb, Block.totalSize]; omega

theorem Valid.stop_fillMerged (hv : g.Valid) : g.fillMerged.stop = g.stop := by
  rw [Gap.fillMerged, hv.joinPrev.joinNext.stop_fillFree, stop_joinNext, hv.stop_joinPrev]

theorem first_joinPrev : g.joinPrev.first = g.first := by
  rcases g.joinPrev_cases with ⟨-, h⟩ | ⟨xs, b, -, -, h⟩ <;> rw [h]

theorem first_joinNext : g.joinNext.first = g.first := by
  rcases g.joinNext_cases with ⟨-, h⟩ | ⟨b, ys, -, -, h⟩ <;> rw [h]

theorem first_fillMerged : g.fillMerged.first = g.first := by
  rw [fillMerged, fillFree, first_joinNext, first_joinPrev]

theorem first_fillAllocated : (g.fillAllocated n).first = g.first := by
  rw [fillAllocated]; split <;> rfl

theorem size_joinNext :
    g.joinNext.size = g.size + if g.next.allocated then 0 else g.next.size := by
  rcases g.joinNext_cases with ⟨hx, h⟩ | ⟨b, ys, hb, hf, h⟩ <;> rw [h]
  · rw [if_pos (next_allocated hx), Nat.add_zero]
  · have hn : g.next = b := by rw [next, hb]; rfl
    rw [hn, if_neg (by simp [hf])]

theorem Valid.size_next_eq_zero (hv : g.Valid) : g.next.size = 0 ↔ g.after = [] := by
  rcases h : g.after with _ | ⟨b, bs⟩
  · simp [next, h, Block.last]
  · have := (hv.after.bounds (b := b) (by simp [h])).2.2.1
    simp only [next, h, List.headD_cons, reduceCtorEq, iff_false]; omega

end Gap

/-! ### The operations -/

namespace MemoryMap

variable {m : MemoryMap} {b : Block} {n : Nat}

/-- The arena gets `n` more bytes. -/
def grow (m : MemoryMap) (n : Nat) : MemoryMap := (m.added n).fillMerged

/-- The free block at `bp` is allocated. -/
def place (m : MemoryMap) (bp need : Nat) : MemoryMap := (m.gapAt bp).fillAllocated need

/-- The allocated block at `bp` becomes free. -/
def release (m : MemoryMap) (bp : Nat) : MemoryMap := (m.gapAt bp).fillMerged

/-- The allocated block at `bp` takes in the free block after it. -/
def absorb (m : MemoryMap) (bp need : Nat) : MemoryMap := (m.gapAt bp).joinNext.fillAllocated need

/-- The allocated block at `bp` gives up its tail. -/
def trim (m : MemoryMap) (bp need : Nat) : MemoryMap :=
  if minBlockSize ≤ (m.gapAt bp).size - need then ((m.gapAt bp).split need).fillMerged else m

theorem kept_iff {i : Nat} : m.Kept i ↔ i + 8 < m.first ∨ Block.Held m.live i := by
  rw [Kept, live, Block.held_live]

theorem kept_congr {m' : MemoryMap} (hf : m'.first = m.first) (hl : m'.live.Perm m.live)
    {i : Nat} : m'.Kept i ↔ m.Kept i := by
  rw [kept_iff, kept_iff, hf]
  simp only [Block.Held, hl.mem_iff]

theorem Valid.live_apart (hv : m.Valid) :
    m.live.Pairwise fun b c => b.offset + b.size ≤ c.offset ∨ c.offset + c.size ≤ b.offset :=
  (hv.tiles.pairwise.sublist (List.filter_sublist ..)).imp .inl

theorem Valid.apart_of_perm (hv : m.Valid) {bs : List Block} (h : m.live.Perm (b :: bs)) :
    ∀ c ∈ bs, b.offset + b.size ≤ c.offset ∨ c.offset + c.size ≤ b.offset :=
  (List.pairwise_cons.1 ((h.pairwise_iff fun h => h.symm).1 hv.live_apart)).1

theorem Valid.offset_ne_of_perm (hv : m.Valid) {bs : List Block} (h : m.live.Perm (b :: bs)) :
    ∀ c ∈ bs, c.offset ≠ b.offset := by
  intro c hc
  have hb := (Block.mem_live.1 (h.mem_iff.2 List.mem_cons_self)).1
  have hc' := (Block.mem_live.1 (h.mem_iff.2 (List.mem_cons_of_mem b hc))).1
  have := (hv.tiles.bounds hb).2.2.1
  have := (hv.tiles.bounds hc').2.2.1
  have := hv.apart_of_perm h c hc
  omega

theorem Valid.first_gapAt (hv : m.Valid) (hb : b ∈ m.blocks) :
    (m.gapAt b.offset).first = m.first := by
  obtain ⟨xs, ys, -, hg⟩ := hv.gapAt_split hb
  rw [hg]

theorem Valid.stop_gapAt (hv : m.Valid) (hb : b ∈ m.blocks) :
    (m.gapAt b.offset).stop = m.stop := by
  have hvg := hv.gapAt hb
  obtain ⟨xs, ys, hb, hg⟩ := hv.gapAt_split hb
  rw [← hvg.stop_fillWhole]
  simp only [hg, Gap.fillWhole, stop, hb, Block.totalSize_append, Block.totalSize]

theorem Valid.live_gapAt (hv : m.Valid) (hb : b ∈ m.blocks) (ha : b.allocated = true) :
    m.live.Perm (b :: (m.gapAt b.offset).live) := by
  obtain ⟨xs, ys, hb, hg⟩ := hv.gapAt_split hb
  rw [hg, live, hb, Gap.live, Block.live_append, Block.live_append,
    Block.live_cons_of_allocated ha]
  exact List.perm_middle

theorem Valid.live_gapAt_of_free (hv : m.Valid) (hb : b ∈ m.blocks) (hf : b.allocated = false) :
    (m.gapAt b.offset).live = m.live := by
  obtain ⟨xs, ys, hb, hg⟩ := hv.gapAt_split hb
  rw [hg, live, hb, Gap.live, Block.live_append, Block.live_append, Block.live_cons_of_free hf]

/-! ### Growing -/

theorem Valid.grow (hv : m.Valid) (hn : 32 ≤ n) (hn' : 16 ∣ n) : (m.grow n).Valid :=
  (hv.added hn hn').fillMerged

theorem first_grow : (m.grow n).first = m.first := Gap.first_fillMerged

theorem Valid.stop_grow (hv : m.Valid) (hn : 32 ≤ n) (hn' : 16 ∣ n) :
    (m.grow n).stop = m.stop + n :=
  (hv.added hn hn').stop_fillMerged

theorem live_grow : (m.grow n).live = m.live := by
  rw [MemoryMap.grow, Gap.live_fillMerged, MemoryMap.added, Gap.live, List.append_nil]; rfl

theorem mem_grow : ⟨(m.added n).joinPrev.offset, (m.added n).joinPrev.size, false⟩ ∈ (m.grow n).blocks ∧
    n ≤ (m.added n).joinPrev.size := by
  have hj : (m.added n).joinPrev.joinNext = (m.added n).joinPrev :=
    Gap.joinNext_of_allocated (by rw [Gap.joinPrev_after]; simp [MemoryMap.added])
  refine ⟨by rw [MemoryMap.grow, Gap.fillMerged, hj, Gap.fillFree]; simp, ?_⟩
  rcases (m.added n).joinPrev_cases with ⟨-, h⟩ | ⟨xs, b, -, -, h⟩ <;> rw [h]
  · exact Nat.le_refl n
  · exact Nat.le_add_right ..

/-- If nothing but free bytes is behind an allocated block, new bytes join them. -/
theorem Valid.blocks_grow_behind {xs ys : List Block} (hv : m.Valid)
    (hbs : m.blocks = xs ++ b :: ys) (ha : b.allocated = true)
    (h : (m.gapAt b.offset).joinNext.after = []) : ∃ d : Block, d.allocated = false ∧
      (m.grow n).blocks = xs ++ b :: [d] ∧
      b.size + d.size = (m.gapAt b.offset).joinNext.size + n := by
  rw [hv.gapAt_eq hbs] at h ⊢
  rcases ys with _ | ⟨c, ys⟩
  · have hj : (m.added n).joinPrev = m.added n :=
      Gap.joinPrev_of_allocated (by simp [MemoryMap.added, hbs, ha])
    have hj' : (m.added n).joinNext = m.added n := rfl
    refine ⟨⟨m.stop, n, false⟩, rfl, ?_, rfl⟩
    rw [MemoryMap.grow, Gap.fillMerged, hj, hj']
    simp [Gap.fillFree, MemoryMap.added, hbs]
  · have hc : c.allocated = false := by
      by_contra hc
      rw [Gap.joinNext_of_allocated (by simpa using hc)] at h
      cases h
    rw [Gap.joinNext_of_free rfl hc] at h
    obtain rfl : ys = [] := h
    have hj : (m.added n).joinPrev = ⟨m.first, xs ++ [b], c.offset, n + c.size, [],
        m.chains.drop c.offset⟩ :=
      Gap.joinPrev_of_free (g := m.added n) (by simp [MemoryMap.added, hbs]) hc
    refine ⟨⟨c.offset, n + c.size, false⟩, rfl, ?_, ?_⟩
    · rw [MemoryMap.grow, Gap.fillMerged, hj]
      simp [Gap.fillFree, Gap.joinNext]
    · rw [Gap.joinNext_of_free rfl hc]
      simp only; omega

theorem Valid.grow_behind (hv : m.Valid) (hb : b ∈ m.blocks) (ha : b.allocated = true)
    (hn : 32 ≤ n) (hn' : 16 ∣ n) (h : (m.gapAt b.offset).joinNext.after = []) :
    ((m.grow n).gapAt b.offset).before = (m.gapAt b.offset).before ∧
      ((m.grow n).gapAt b.offset).next.allocated = false ∧
      ((m.grow n).gapAt b.offset).joinNext.size = (m.gapAt b.offset).joinNext.size + n := by
  obtain ⟨xs, ys, hbs, hg⟩ := hv.gapAt_split hb
  obtain ⟨d, hd, hblocks, hsize⟩ := hv.blocks_grow_behind (n := n) hbs ha h
  rw [(hv.grow hn hn').gapAt_eq hblocks, Gap.joinNext_of_free rfl hd]
  exact ⟨by rw [hg], hd, hsize⟩

/-! ### Placing -/

theorem Valid.place (hv : m.Valid) (hb : b ∈ m.blocks) (hf : b.allocated = false)
    (hn : 32 ≤ n) (hn' : 16 ∣ n) : (m.place b.offset n).Valid :=
  (hv.gapAt hb).fillAllocated hn hn' (hv.gapAt_neighbours hb hf).2

theorem Valid.first_place (hv : m.Valid) (hb : b ∈ m.blocks) :
    (m.place b.offset n).first = m.first :=
  Gap.first_fillAllocated.trans (hv.first_gapAt hb)

theorem Valid.stop_place (hv : m.Valid) (hb : b ∈ m.blocks) (hn : 32 ≤ n) (hn' : 16 ∣ n)
    (hs : n ≤ b.size) : (m.place b.offset n).stop = m.stop := by
  rw [MemoryMap.place, (hv.gapAt hb).stop_fillAllocated hn hn' (by rw [hv.gapAt_size hb]; exact hs),
    hv.stop_gapAt hb]

theorem Valid.live_place (hv : m.Valid) (hb : b ∈ m.blocks) (hf : b.allocated = false) :
    (m.place b.offset n).live.Perm
      (⟨b.offset, (m.gapAt b.offset).placed n, true⟩ :: m.live) := by
  have h := Gap.live_fillAllocated (g := m.gapAt b.offset) (n := n)
  rwa [hv.gapAt_offset hb, hv.live_gapAt_of_free hb hf] at h

/-! ### Releasing -/

theorem Valid.release (hv : m.Valid) (hb : b ∈ m.blocks) : (m.release b.offset).Valid :=
  (hv.gapAt hb).fillMerged

theorem Valid.first_release (hv : m.Valid) (hb : b ∈ m.blocks) :
    (m.release b.offset).first = m.first :=
  Gap.first_fillMerged.trans (hv.first_gapAt hb)

theorem Valid.stop_release (hv : m.Valid) (hb : b ∈ m.blocks) :
    (m.release b.offset).stop = m.stop :=
  (hv.gapAt hb).stop_fillMerged.trans (hv.stop_gapAt hb)

theorem Valid.live_release (hv : m.Valid) (hb : b ∈ m.blocks) (ha : b.allocated = true) :
    m.live.Perm (b :: (m.release b.offset).live) := by
  rw [MemoryMap.release, Gap.live_fillMerged]
  exact hv.live_gapAt hb ha

/-- A new allocated block has nothing to do with the release of another one. -/
theorem Valid.live_release_of_perm {m' : MemoryMap} {c : Block} (hv : m.Valid) (hv' : m'.Valid)
    (hb : b ∈ m.blocks) (ha : b.allocated = true) (h : m'.live.Perm (c :: m.live)) :
    b ∈ m'.blocks ∧ (m'.release b.offset).live.Perm (c :: (m.release b.offset).live) := by
  have hb' : b ∈ m'.blocks := (Block.mem_live.1 (h.mem_iff.2
    (List.mem_cons_of_mem _ (Block.mem_live.2 ⟨hb, ha⟩)))).1
  refine ⟨hb', List.Perm.cons_inv (a := b) ?_⟩
  calc b :: (m'.release b.offset).live
    _ |>.Perm m'.live := (hv'.live_release hb' ha).symm
    _ |>.Perm (c :: m.live) := h
    _ |>.Perm (c :: b :: (m.release b.offset).live) := (hv.live_release hb ha).cons c
    _ |>.Perm (b :: c :: (m.release b.offset).live) := .swap ..

/-! ### Resizing -/

theorem Valid.absorb (hv : m.Valid) (hb : b ∈ m.blocks) (hn : 32 ≤ n) (hn' : 16 ∣ n) :
    (m.absorb b.offset n).Valid :=
  (hv.gapAt hb).joinNext.fillAllocated hn hn' (hv.gapAt hb).joinNext_after

theorem Valid.first_absorb (hv : m.Valid) (hb : b ∈ m.blocks) :
    (m.absorb b.offset n).first = m.first :=
  Gap.first_fillAllocated.trans (Gap.first_joinNext.trans (hv.first_gapAt hb))

theorem Valid.stop_absorb (hv : m.Valid) (hb : b ∈ m.blocks) (hn : 32 ≤ n) (hn' : 16 ∣ n)
    (hs : n ≤ (m.gapAt b.offset).joinNext.size) : (m.absorb b.offset n).stop = m.stop := by
  rw [MemoryMap.absorb, (hv.gapAt hb).joinNext.stop_fillAllocated hn hn' hs, Gap.stop_joinNext,
    hv.stop_gapAt hb]

theorem Valid.live_absorb (hv : m.Valid) (hb : b ∈ m.blocks) :
    (m.absorb b.offset n).live.Perm
      (⟨b.offset, (m.gapAt b.offset).joinNext.placed n, true⟩ :: (m.gapAt b.offset).live) := by
  have h := Gap.live_fillAllocated (g := (m.gapAt b.offset).joinNext) (n := n)
  rwa [Gap.joinNext_offset, hv.gapAt_offset hb, Gap.live_joinNext] at h

theorem Valid.trim (hv : m.Valid) (hb : b ∈ m.blocks) (hn : 32 ≤ n) (hn' : 16 ∣ n) :
    (m.trim b.offset n).Valid := by
  unfold MemoryMap.trim
  split
  · next h => exact ((hv.gapAt hb).split hn hn' h).fillMerged
  · exact hv

theorem Valid.first_trim (hv : m.Valid) (hb : b ∈ m.blocks) :
    (m.trim b.offset n).first = m.first := by
  unfold MemoryMap.trim
  split
  · exact Gap.first_fillMerged.trans (hv.first_gapAt hb)
  · rfl

theorem Valid.stop_trim (hv : m.Valid) (hb : b ∈ m.blocks) (hn : 32 ≤ n) (hn' : 16 ∣ n) :
    (m.trim b.offset n).stop = m.stop := by
  unfold MemoryMap.trim
  split
  · next h =>
    replace h : 32 ≤ _ := h
    rw [((hv.gapAt hb).split hn hn' h).stop_fillMerged, Gap.stop_split (by omega),
      hv.stop_gapAt hb]
  · rfl

theorem Valid.live_trim (hv : m.Valid) (hb : b ∈ m.blocks) (ha : b.allocated = true) :
    (m.trim b.offset n).live.Perm
      (⟨b.offset, (m.gapAt b.offset).placed n, true⟩ :: (m.gapAt b.offset).live) := by
  unfold MemoryMap.trim Gap.placed
  split
  · have h := Gap.live_split (g := m.gapAt b.offset) (n := n)
    rwa [hv.gapAt_offset hb, ← Gap.live_fillMerged] at h
  · have h := hv.live_gapAt hb ha
    rw [hv.gapAt_size hb]
    obtain ⟨o, z, _⟩ := b
    obtain rfl : _ = true := ha
    exact h

theorem Valid.kept_of_release (hv : m.Valid) (hb : b ∈ m.blocks) (ha : b.allocated = true)
    {i : Nat} (hi : (m.release b.offset).Kept i) : m.Kept i := by
  rw [kept_iff] at hi ⊢
  rw [hv.first_release hb] at hi
  refine hi.imp_right fun ⟨c, hc, h⟩ => ⟨c, ?_, h⟩
  exact (hv.live_release hb ha).mem_iff.2 (List.mem_cons_of_mem b hc)

/-- A trimmed block keeps what it has room for. -/
theorem Valid.kept_trim (hv : m.Valid) (hb : b ∈ m.blocks) (ha : b.allocated = true)
    (hs : n ≤ b.size) {i : Nat}
    (hi : (m.release b.offset).Kept i ∨ b.offset ≤ i ∧ i + 8 < b.offset + n) :
    (m.trim b.offset n).Kept i := by
  have hlive := hv.live_trim (n := n) hb ha
  have hp := Gap.le_placed (g := m.gapAt b.offset) (n := n) (by rw [hv.gapAt_size hb]; exact hs)
  rw [kept_iff] at hi ⊢
  rw [hv.first_release hb, MemoryMap.release, Gap.live_fillMerged] at hi
  rw [hv.first_trim hb]
  rcases hi with (hi | ⟨c, hc, hi⟩) | hi
  · exact .inl hi
  · exact .inr ⟨c, hlive.mem_iff.2 (List.mem_cons_of_mem _ hc), hi⟩
  · refine .inr ⟨_, hlive.mem_iff.2 List.mem_cons_self, rfl, hi.1, ?_⟩
    simp only; omega

end MemoryMap

end SegregatedFit
