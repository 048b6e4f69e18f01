import SegregatedFit.Proofs.Canonical

/-!
# Allocating and freeing at once

A block that is allocated and freed again fills its gap as before: what was split off joins it
again, and nothing else does, since its neighbours are not free (`Gap.Valid.release_fillAllocated`).
Only its place in the chains is another one, as it is now the first of its class. If the arena grew
for it, what is left is what growing alone would have left (`MemoryMap.Valid.fillFree_gapAt_grow`).
-/

namespace SegregatedFit

/-! ### Filling a gap again -/

namespace Chains

variable {l : Chains} {c : SizeClass} {x : Nat}

theorem drop_push (h : ∀ d, x ∉ l d) : (l.push c x).drop x = l := by
  funext d
  by_cases hd : d = c
  · subst hd
    rw [drop, push_self, List.erase_cons_head]
  · rw [drop, push_of_ne hd, List.erase_of_not_mem (h d)]

end Chains

namespace Gap

variable {g : Gap} {x n : Nat}

/-- No chain leads into a gap. -/
theorem Valid.not_mem_chains (hv : g.Valid) (hx : g.offset ≤ x) (hx' : x < g.offset + g.size)
    (d : SizeClass) : x ∉ g.chains d := by
  intro h
  obtain ⟨b, hb, -, rfl, -⟩ := (hv.lists.mem d x).1 h
  rcases List.mem_append.1 hb with hb | hb
  · have := hv.before.bounds hb
    omega
  · have := hv.after.bounds hb
    omega

theorem Valid.release_split (hv : g.Valid) (hb : ∀ x ∈ g.before.getLast?, x.allocated = true)
    (hv' : (g.split n).fillFree.Valid) (hn : 32 ≤ n) (hr : 32 ≤ g.size - n) :
    (g.split n).fillFree.release g.offset = g.fillFree := by
  have hblocks : (g.split n).fillFree.blocks = g.before ++ ⟨g.offset, n, true⟩ ::
      ⟨g.offset + n, g.size - n, false⟩ :: g.after := by
    simp [Gap.split, Gap.fillFree]
  have hkeep : (g.split n).fillFree.chains.drop g.offset = (g.split n).fillFree.chains :=
    Chains.drop_eq_self (hv'.not_mem_chains (b := ⟨g.offset, n, true⟩) (by rw [hblocks]; simp) rfl)
  have hnew : (g.split n).fillFree.chains.drop (g.offset + n) = g.chains :=
    Chains.drop_push (hv.not_mem_chains (x := g.offset + n) (by omega) (by omega))
  rw [MemoryMap.release, hv'.gapAt_eq hblocks, hkeep, Gap.fillMerged,
    joinPrev_of_allocated (by exact hb), joinNext_of_free rfl rfl]
  simp only [hnew, Nat.add_sub_cancel' (show n ≤ g.size by omega)]
  rfl

theorem Valid.release_fillWhole (hv : g.Valid) (hb : ∀ x ∈ g.before.getLast?, x.allocated = true)
    (ha : ∀ x ∈ g.after.head?, x.allocated = true) : g.fillWhole.release g.offset = g.fillFree := by
  have hblocks : g.fillWhole.blocks = g.before ++ ⟨g.offset, g.size, true⟩ :: g.after := rfl
  have hkeep : g.fillWhole.chains.drop g.offset = g.fillWhole.chains :=
    Chains.drop_eq_self
      (hv.fillWhole.not_mem_chains (b := ⟨g.offset, g.size, true⟩) (by rw [hblocks]; simp) rfl)
  rw [MemoryMap.release, hv.fillWhole.gapAt_eq hblocks, hkeep, Gap.fillMerged,
    joinPrev_of_allocated (by exact hb), joinNext_of_allocated (by exact ha)]
  rfl

theorem Valid.release_fillAllocated (hv : g.Valid)
    (hb : ∀ x ∈ g.before.getLast?, x.allocated = true)
    (ha : ∀ x ∈ g.after.head?, x.allocated = true) (hn : 32 ≤ n) (hn' : 16 ∣ n) :
    (g.fillAllocated n).release g.offset = g.fillFree := by
  have hv' := hv.fillAllocated hn hn' ha
  unfold Gap.fillAllocated at hv' ⊢
  split at hv'
  · next hr =>
    rw [if_pos hr]
    exact hv.release_split hb hv' hn hr
  · next hr =>
    rw [if_neg hr]
    exact hv.release_fillWhole hb ha

end Gap

namespace MemoryMap

variable {m : MemoryMap} {b : Block} {n k : Nat}

theorem Valid.release_place (hv : m.Valid) (hb : b ∈ m.blocks) (hf : b.allocated = false)
    (hn : 32 ≤ n) (hn' : 16 ∣ n) :
    (m.place b.offset n).release b.offset = (m.gapAt b.offset).fillFree := by
  obtain ⟨hbefore, hafter⟩ := hv.gapAt_neighbours hb hf
  have h := (hv.gapAt hb).release_fillAllocated hbefore hafter hn hn'
  rwa [hv.gapAt_offset hb] at h

/-- Only the chains are different. -/
theorem Valid.fillFree_gapAt (hv : m.Valid) (hb : b ∈ m.blocks) (hf : b.allocated = false) :
    (m.gapAt b.offset).fillFree =
      ⟨m.first, m.blocks, (m.chains.drop b.offset).push (sizeClass b.size) b.offset⟩ := by
  obtain ⟨xs, ys, hblocks, hg⟩ := hv.gapAt_split hb
  obtain ⟨x, z, _⟩ := b
  obtain rfl : _ = false := hf
  rw [hg, Gap.fillFree, hblocks]

/-- The block moves to the front of its class, and no other class changes. -/
theorem Valid.push_drop_eq (hv : m.Valid) (hb : b ∈ m.blocks) :
    (m.chains.drop b.offset).push (sizeClass b.size) b.offset =
      Function.update m.chains (sizeClass b.size)
        (b.offset :: (m.chains (sizeClass b.size)).erase b.offset) := by
  funext d
  by_cases hd : d = sizeClass b.size
  · subst hd
    rw [Chains.push_self, Function.update_self, Chains.drop]
  · rw [Chains.push_of_ne hd, Function.update_of_ne hd]
    refine Chains.drop_of_not_mem fun hx => hd ?_
    obtain ⟨c, hc, -, ho, rfl⟩ := (hv.lists.mem d _).1 hx
    rw [hv.tiles.eq_of_offset_eq hc hb ho]

theorem grow_eq : m.grow k = (m.added k).joinPrev.fillFree := by
  rw [grow, Gap.fillMerged,
    Gap.joinNext_of_allocated (by rw [Gap.joinPrev_after]; simp [MemoryMap.added])]

/-- New bytes follow the last block, or join it if it is free. -/
theorem added_cases (hne : m.blocks ≠ []) :
    ∃ xs b, m.blocks = xs ++ [b] ∧
      (b.allocated = true ∧ (m.added k).joinPrev = m.added k ∨
      b.allocated = false ∧ (m.added k).joinPrev =
        ⟨m.first, xs, b.offset, k + b.size, [], m.chains.drop b.offset⟩) := by
  rcases (m.added k).joinPrev_cases with ⟨ha, h⟩ | ⟨xs, b, hb, hf, h⟩
  · obtain ⟨xs, b, hb⟩ := (List.eq_nil_or_concat m.blocks).resolve_left hne
    rw [List.concat_eq_append] at hb
    have hlast : b ∈ (m.added k).before.getLast? := by simp [MemoryMap.added, hb]
    exact ⟨xs, b, hb, .inl ⟨ha b hlast, h⟩⟩
  · exact ⟨xs, b, hb, .inr ⟨hf, h⟩⟩

/-- The block that growing leaves is the first of its class already. -/
theorem Valid.fillFree_gapAt_grow (hv : m.Valid) (hk : 32 ≤ k) (hk' : 16 ∣ k) :
    ((m.grow k).gapAt (m.added k).joinPrev.offset).fillFree = m.grow k := by
  have hg := (hv.added hk hk').joinPrev
  have hz := hg.size_ge
  have h := (hv.grow hk hk').fillFree_gapAt mem_grow.1 rfl
  refine h.trans ?_
  rw [grow_eq, Gap.fillFree,
    Chains.drop_push (hg.not_mem_chains (Nat.le_refl _) (by omega))]

end MemoryMap

/-! ### Outlines -/

namespace Outline

variable {o o' : Outline} {need bp : Nat}

/-- The block was there, or growing made it. -/
theorem findOrExtend_cases (h : o.findOrExtend need = (.ok bp, o')) :
    o' = o ∨ ∃ k, 32 ≤ k ∧ 16 ∣ k ∧ bp = (o.map.added k).joinPrev.offset ∧
      o'.map = o.map.grow k := by
  unfold findOrExtend at h
  split at h
  · cases h
    exact .inl rfl
  · rcases o.extend_cases (max need o.config.chunkSize) with
      ⟨e, source, hx, -⟩ | ⟨k, source, h32, h16, -, -, hx⟩ <;> rw [hx] at h <;> cases h
    exact .inr ⟨k, h32, h16, rfl, rfl⟩

end Outline

/-! ### Heaps -/

namespace Heap

/-- Following the links from the head of each class leads through its list to the end. -/
def Lists (h : Heap) (l : Chains) : Prop :=
  ∀ c k, h.pool.chain c k = .ok ((l c).take k)

/-- All is as it was, but that the free block at `x` is the first of its class. -/
structure Restored (h h' : Heap) (x : Nat) : Prop where
  layout : h.SameLayout h'
  freeBytes : Concur h.freeBytes h'.freeBytes
  liveBytes : h'.stats.liveBytes = h.stats.liveBytes
  chains : ∃ l c, h.Lists l ∧ x ∈ l c ∧ h'.Lists (Function.update l c (x :: (l c).erase x))

/-- The arena grew by `g` bytes for the free block `b`, now the last of all and the first of its
class. The block that was the last before is part of it if that was free. -/
structure Lengthened (h h' : Heap) (b : Block) (g : Nat) : Prop where
  free : b.allocated = false
  blocks : ∃ bs c, h.blocks = .ok (bs ++ [c]) ∧
    (c.allocated = false ∧ h'.blocks = .ok (bs ++ [b]) ∧
        b.offset = c.offset ∧ b.size = c.size + g ∨
      c.allocated = true ∧ h'.blocks = .ok (bs ++ [c, b]) ∧ b.offset = h.size ∧ b.size = g)
  chains : ∃ l, h.Lists l ∧ h'.Lists ((l.drop b.offset).push (sizeClass b.size) b.offset)

/-- What is left of `h` when the payload at `x` was allocated, in `h₁`, and freed again, in `h₂`. -/
structure RoundTrip (h h₁ h₂ : Heap) (x : Nat) : Prop where
  size_ge : h.size ≤ h₁.size
  size : h₂.size = h₁.size
  restored : h₁.size = h.size → h.Restored h₂ x
  lengthened : ∀ g, 0 < g → h₁.size = h.size + g → ∃ b, b.offset = x ∧ h.Lengthened h₂ b g

end Heap

/-! ### Sessions -/

namespace Session

variable {s t : Session} {o o' : Outline} {b : Block}

namespace Outlined

theorem lists (h : s.Outlined o) : s.heap.Lists o.map.chains :=
  fun c k => h.outlines.describes.chain_eq h.outlines.valid.map c k

/-- What is allocated can be freed. -/
theorem step_free (h : s.Outlined o) (hb : b ∈ o.map.live) :
    ∃ t, Step s (.call (.free (some (o.base + b.offset))) (.ok none)) t ∧
      t.Outlined (o.release b.offset) := by
  obtain ⟨t, hnext, ht⟩ := h.next_free hb
  obtain ⟨r, hstep⟩ := step_of_next hnext
  obtain rfl := (h.step_call hstep).1
  exact ⟨t, hstep, ht⟩

theorem restored (h : s.Outlined o) (ht : t.Outlined o') (hb : b ∈ o.map.blocks)
    (hf : b.allocated = false) (hmap : o'.map = (o.map.gapAt b.offset).fillFree) :
    s.heap.Restored t.heap b.offset := by
  have hv := h.outlines.valid.map
  rw [hv.fillFree_gapAt hb hf] at hmap
  have hblocks : o'.map.blocks = o.map.blocks := by rw [hmap]
  refine ⟨h.sameLayout_of_blocks_eq ht hblocks (by rw [hmap]; rfl), ?_, ?_, ?_⟩
  · rw [Heap.freeBytes, Heap.freeBytes, h.blocks_eq, ht.blocks_eq, hblocks]
    exact ⟨_, rfl, rfl⟩
  · rw [h.liveBytes_eq, ht.liveBytes_eq, hblocks]
  · refine ⟨_, sizeClass b.size, h.lists, hv.mem_chains hb hf, ?_⟩
    rw [← hv.push_drop_eq hb]
    have hl := ht.lists
    rwa [hmap] at hl

theorem lengthened {k : Nat} (h : s.Outlined o) (ht : t.Outlined o') (h32 : 32 ≤ k) (h16 : 16 ∣ k)
    (hmap : o'.map = o.map.grow k) :
    ∃ b, b.offset = (o.map.added k).joinPrev.offset ∧ s.heap.Lengthened t.heap b k := by
  have hv := h.outlines.valid.map
  have hroom := h.room
  have hne : o.map.blocks ≠ [] := by
    intro hnil
    rw [MemoryMap.stop, hnil] at hroom
    exact absurd hroom (Nat.lt_irrefl _)
  have hl := ht.lists
  have hbs := ht.blocks_eq
  rw [hmap, MemoryMap.grow_eq] at hl hbs
  obtain ⟨xs, c, hblocks, hj⟩ := MemoryMap.added_cases (k := k) hne
  have hold : s.heap.blocks = .ok (xs ++ [c]) := by rw [h.blocks_eq, hblocks]
  rcases hj with ⟨ha, hj⟩ | ⟨hf, hj⟩ <;> rw [hj] at hl hbs ⊢
  · have hnew : o.map.chains.drop o.map.stop = o.map.chains :=
      Chains.drop_eq_self ((hv.added h32 h16).not_mem_chains (Nat.le_refl _)
        (show o.map.stop < o.map.stop + k by omega))
    refine ⟨⟨o.map.stop, k, false⟩, rfl, rfl,
      ⟨xs, c, hold, .inr ⟨ha, ?_, h.size_eq.symm, rfl⟩⟩, _, h.lists, ?_⟩
    · rw [hbs]
      simp [Gap.fillFree, MemoryMap.added, hblocks]
    · rw [hnew]
      exact hl
  · exact ⟨⟨c.offset, k + c.size, false⟩, rfl, rfl,
      ⟨xs, c, hold, .inl ⟨hf, hbs, rfl, Nat.add_comm ..⟩⟩, _, h.lists, hl⟩

end Outlined

/-- Freeing a block that has just been allocated undoes that, but for the place of the block in the
chains and what the arena has grown. -/
theorem Reachable.roundTrip {s s₁ : Session} {n p : Nat} (hs : s.Reachable)
    (h : Step s (.call (.allocate n) (.ok (some p))) s₁) :
    ∃ s₂, Step s₁ (.call (.free (some p)) (.ok none)) s₂ ∧
      s.heap.RoundTrip s₁.heap s₂.heap (p - s.heap.arena.base) := by
  obtain ⟨o, ho⟩ := hs.outlined
  obtain ⟨hres, ho₁⟩ := ho.step_call h
  have hv := ho.outlines.valid.map
  rcases Outline.allocate_cases hv n with ⟨e, o', hx, -⟩ |
    ⟨need, o', b, hneed, hfind, hx, hext, hv', hb, hf, hs⟩ <;>
    simp only [Call.outline, hx] at hres ho₁
  · cases hres
  obtain rfl : p = o.base + b.offset := Option.some.inj (Except.ok.inj hres)
  obtain ⟨h32, h16, -⟩ := blockSize?_spec hneed
  have hlive := (hv'.live_place (n := need) hb hf).mem_iff.2 List.mem_cons_self
  obtain ⟨s₂, hstep, ho₂⟩ := ho₁.step_free hlive
  have hmap : ((o'.place b.offset need).release b.offset).map = (o'.map.gapAt b.offset).fillFree :=
    hv'.release_place hb hf h32 h16
  have hsize₁ : s₁.heap.size = o'.map.stop := ho₁.size_eq.trans (hv'.stop_place hb h32 h16 hs)
  have hsize₂ : s₂.heap.size = s₁.heap.size := by
    rw [ho₂.size_eq, ho₁.size_eq]
    exact ho₁.outlines.valid.map.stop_release (Block.mem_live.1 hlive).1
  rw [show (o'.place b.offset need).base = o.base from hext.base] at hstep
  refine ⟨s₂, hstep, ?_⟩
  rw [show s.heap.arena.base = o.base from ho.outlines.base, Nat.add_sub_cancel_left]
  rcases Outline.findOrExtend_cases hfind with rfl | ⟨k, hk, hk', hoffset, hgrown⟩
  · have hsize : s₁.heap.size = s.heap.size := hsize₁.trans ho.size_eq.symm
    refine ⟨Nat.le_of_eq hsize.symm, hsize₂, fun _ => ho.restored ho₂ hb hf hmap, ?_⟩
    intro g hg hsum
    omega
  · have hsize : s₁.heap.size = s.heap.size + k := by
      rw [hsize₁, hgrown, hv.stop_grow hk hk', ho.size_eq]
    refine ⟨by omega, hsize₂, fun heq => by omega, ?_⟩
    intro g hg hsum
    obtain rfl : k = g := by omega
    have hsame : (o'.map.gapAt b.offset).fillFree = o.map.grow k := by
      rw [hgrown, hoffset, hv.fillFree_gapAt_grow hk hk']
    rw [hoffset]
    exact ho.lengthened ho₂ hk hk' (hmap.trans hsame)

theorem small_allocated :
    small.map (fun s => ((Call.allocate 10).perform.run s.heap).map (·.result)) =
      some (.ok (.ok (some 4128))) := by
  decide +kernel

theorem roundTrip_small : ∃ s s₁ s₂, small = some s ∧
    Step s (.call (.allocate 10) (.ok (some 4128))) s₁ ∧
    Step s₁ (.call (.free (some 4128)) (.ok none)) s₂ ∧
    s.heap.RoundTrip s₁.heap s₂.heap (4128 - s.heap.arena.base) := by
  obtain ⟨s, hs, hresult⟩ := Option.map_eq_some_iff.1 small_allocated
  rcases hrun : (Call.allocate 10).perform.run s.heap with fault | ⟨r, h', l⟩ <;>
    rw [hrun] at hresult <;> cases hresult
  have hstep := Step.call (s := s) (c := .allocate 10) (by rintro _ ⟨⟩) hrun
  obtain ⟨s₂, hfree, htrip⟩ := Reachable.roundTrip (reachable_of_small hs) hstep
  exact ⟨s, _, s₂, hs, hstep, hfree, htrip⟩

end Session

end SegregatedFit
