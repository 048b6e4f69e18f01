import SegregatedFit.Pool.Carve
import SegregatedFit.Proofs.Described

/-!
# Opening and filling gaps

What happens to a described gap: a free neighbour leaves its chain and joins it
(`Gap.Describes.joinPrev`, `Gap.Describes.joinNext`), and it becomes a free block
(`Gap.Describes.fillFree`) or an allocated one (`Pool.carve_exists`). No byte that is kept changes.
-/

namespace SegregatedFit

open Arena (TagByte Changed)

namespace Gap

variable {g : Gap} {q : Bool} {p : Pool} {a a' : Arena} {x : FreeIndex} {b : Block}
  {xs ys : List Block} {k : Nat}

/-! ### Bytes that no operation touches -/

theorem Valid.not_kept_of_linkByte (hv : g.Valid) (hk : g.chains.LinkByte k) : ¬g.Kept k :=
  fun h => hv.fillWhole.not_kept_of_linkByte hk (kept_fillWhole.2 (.inl h))

theorem Valid.not_kept_of_tagByte (hv : g.Valid) (hk : TagByte (g.after ++ [.last g.stop]) k) :
    ¬g.Kept k :=
  fun h => hv.fillWhole.not_kept_of_tagByte (hk.mono hv.after_subset) (kept_fillWhole.2 (.inl h))

theorem kept_joinPrev : g.joinPrev.Kept k ↔ g.Kept k := by
  rcases g.joinPrev_cases with ⟨-, h⟩ | ⟨xs, b, hb, hf, h⟩ <;> rw [h]
  simp [Kept, hb, hf]

theorem kept_joinNext : g.joinNext.Kept k ↔ g.Kept k := by
  rcases g.joinNext_cases with ⟨-, h⟩ | ⟨b, ys, hb, hf, h⟩ <;> rw [h]
  simp [Kept, hb, hf]

/-! ### Taking in neighbours -/

/-- The block after the gap, or the end of the arena. -/
def next (g : Gap) : Block := g.after.headD (.last g.stop)

theorem next_eq : ∃ bs, g.after ++ [.last g.stop] = g.next :: bs := by
  rcases h : g.after with _ | ⟨b, bs⟩
  · exact ⟨[], by simp [next, h]⟩
  · exact ⟨bs ++ [.last g.stop], by simp [next, h]⟩

theorem Valid.next_offset (hv : g.Valid) : g.next.offset = g.offset + g.size := by
  have ha := hv.after
  rcases h : g.after with _ | ⟨b, bs⟩ <;> rw [h] at ha
  · rw [next, h]; exact (show g.offset + g.size = g.stop from ha).symm
  · rw [next, h]; exact (Tiles.cons_iff.1 ha).1

theorem next_allocated (h : ∀ x ∈ g.after.head?, x.allocated = true) : g.next.allocated = true := by
  rcases h' : g.after with _ | ⟨b, bs⟩
  · simp [next, h', Block.last]
  · simpa [next, h'] using h b (by simp [h'])

theorem Describes.header_of_mem {t : Tag} (hd : g.Describes q p) (hv : g.Valid)
    (hb : b ∈ g.fillWhole.allBlocks) (hw : p.arena.word (b.offset - 8) = t.pack)
    (ht : t.size = b.size) : p.arena.header b.offset = .ok t := by
  have h := hv.fillWhole.offset_ge hb
  rw [hv.stop_fillWhole] at h
  refine Arena.header_eq (by omega) (by rw [hd.size]; omega) (by rw [hd.size]; exact hd.stop_lt)
    hw ?_
  rw [ht]
  exact Nat.dvd_trans ⟨4, rfl⟩ (hv.fillWhole.size_aligned hb)

theorem Describes.header_next (hd : g.Describes q p) (hv : g.Valid) :
    p.arena.header (g.offset + g.size) = .ok ⟨g.next.size, g.next.allocated, q⟩ := by
  obtain ⟨bs, hbs⟩ := g.next_eq
  have ht := hd.after
  rw [hbs] at ht
  rw [← hv.next_offset]
  exact hd.header_of_mem hv (hv.after_subset (by rw [hbs]; simp)) ht.1 rfl

theorem Describes.header_prev (hd : g.Describes q p) (hv : g.Valid) (hb : g.before = xs ++ [b]) :
    p.arena.header b.offset = .ok ⟨b.size, b.allocated, flagAfter true xs⟩ := by
  have ht := hd.before
  rw [hb] at ht
  exact hd.header_of_mem hv (hv.before_subset (by simp [hb])) (Arena.tagged_append.1 ht).2.1 rfl

theorem Describes.remove {t : Tag} (hd : g.Describes q p) (hv : g.Valid)
    (hb : b ∈ g.before ++ g.after) (hf : b.allocated = false)
    (hh : p.arena.header b.offset = .ok t) (ht : t.size = b.size) :
    ∃ p', p.remove b.offset = .ok p' ∧
      Describes ⟨g.first, g.before, g.offset, g.size, g.after, g.chains.drop b.offset⟩ q p' ∧
      Changed g.chains.LinkByte p.arena p'.arena := by
  have hs := hv.fillWhole.spread
  rw [hv.stop_fillWhole, ← hd.size] at hs
  obtain ⟨⟨a', x'⟩, e, hc, hch⟩ := Pool.remove_exists hd.chained hs
    (by rw [hd.size]; exact hd.stop_lt) ((hv.lists.mem _ _).2 ⟨b, hb, hf, rfl, rfl⟩) hh
    (by rw [ht])
  refine ⟨_, e, ⟨hch.size.trans hd.size, hd.stop_lt, ?_, ?_, hc⟩, hch⟩
  · exact hv.fillWhole.tagged_congr hd.before hv.before_subset hch fun k hk =>
      hv.fillWhole.not_linkByte_of_tagByte (hk.mono hv.before_subset)
  · exact hv.fillWhole.tagged_congr hd.after hv.after_subset hch fun k hk =>
      hv.fillWhole.not_linkByte_of_tagByte (hk.mono hv.after_subset)

theorem Describes.joinPrev (hd : g.Describes q p) (hv : g.Valid) (hg : g.before = xs ++ [b])
    (hf : b.allocated = false) :
    ∃ p', p.remove b.offset = .ok p' ∧ g.joinPrev.Describes q p' ∧
      Changed g.chains.LinkByte p.arena p'.arena := by
  obtain ⟨p', e, h, hch⟩ := hd.remove hv (b := b) (by simp [hg]) hf (hd.header_prev hv hg) rfl
  have hb := hv.before
  rw [hg] at hb
  obtain ⟨m, -, hm⟩ := Tiles.append_iff.1 hb
  obtain ⟨-, -, -, ho⟩ := Tiles.cons_iff.1 hm
  replace ho : m + b.size = g.offset := ho
  have hm := (Tiles.cons_iff.1 hm).1
  have hstop : b.offset + (g.size + b.size) + Block.totalSize g.after = g.stop := by
    rw [stop]; omega
  refine ⟨p', e, ?_, hch⟩
  rw [joinPrev_of_free hg hf]
  refine ⟨h.size.trans hstop.symm, by rw [stop, hstop]; exact h.stop_lt, ?_, ?_, h.chained⟩
  · have := h.before
    rw [hg] at this
    exact (Arena.tagged_append.1 this).1
  · rw [stop, hstop]; exact h.after

theorem Describes.joinNext (hd : g.Describes q p) (hv : g.Valid) (hg : g.after = b :: ys)
    (hf : b.allocated = false) :
    ∃ p', p.remove (g.offset + g.size) = .ok p' ∧ g.joinNext.Describes false p' ∧
      Changed g.chains.LinkByte p.arena p'.arena := by
  have hn : g.next = b := by rw [next, hg]; rfl
  have hh := hd.header_next hv
  rw [← hv.next_offset, hn] at hh ⊢
  obtain ⟨p', e, h, hch⟩ := hd.remove hv (b := b) (by simp [hg]) hf hh rfl
  have hstop : g.offset + (g.size + b.size) + Block.totalSize ys = g.stop := by
    rw [stop, hg, Block.totalSize]; omega
  refine ⟨p', e, ?_, hch⟩
  rw [joinNext_of_free hg hf]
  refine ⟨h.size.trans hstop.symm, by rw [stop, hstop]; exact h.stop_lt, h.before, ?_, h.chained⟩
  have := h.after
  simp only [hg, List.cons_append, stop, Block.totalSize] at this
  simp only [stop]
  rw [hstop, ← hf, stop, hg, Block.totalSize]
  exact this.2.2

/-! ### Opening blocks -/

/-- An allocated block is a gap already. -/
theorem Describes.of_fillWhole (hd : g.fillWhole.Describes p) (hv : g.Valid) :
    g.Describes true p := by
  have hs := hv.stop_fillWhole
  have ht := hd.tagged
  rw [hv.allBlocks_fillWhole] at ht
  obtain ⟨h1, -, -, h2⟩ := Arena.tagged_append.1 ht
  exact ⟨hd.size.trans hs, hs ▸ hd.stop_lt, h1, h2, hd.chained⟩

theorem header_of_fillWhole (hd : g.fillWhole.Describes p) (hv : g.Valid) :
    p.arena.header g.offset = .ok ⟨g.size, true, flagAfter true g.before⟩ :=
  hd.header_eq hv.fillWhole (b := ⟨g.offset, g.size, true⟩) hv.allBlocks_fillWhole

/-- A free block becomes a gap when it leaves its chain. -/
theorem Describes.of_free {m : MemoryMap} (hd : m.Describes p) (hv : m.Valid) (hb : b ∈ m.blocks)
    (hf : b.allocated = false) :
    ∃ p', p.remove b.offset = .ok p' ∧ (m.gapAt b.offset).Describes false p' ∧
      p.arena.header b.offset = .ok ⟨b.size, false, flagAfter true (m.gapAt b.offset).before⟩ ∧
      Changed (fun k => ¬m.Kept k) p.arena p'.arena := by
  have hvg := hv.gapAt hb
  have hmem := hv.mem_chains hb hf
  obtain ⟨xs, ys, hbs, hg⟩ := hv.gapAt_split hb
  have hall : m.allBlocks = xs ++ b :: (ys ++ [.last m.stop]) := by
    rw [MemoryMap.allBlocks, hbs, List.append_assoc, List.cons_append]
  have hh := hd.header_eq hv hall
  have hstop : (m.gapAt b.offset).stop = m.stop := by
    rw [← hvg.stop_fillWhole]
    simp only [hg, fillWhole, MemoryMap.stop, hbs, Block.totalSize_append, Block.totalSize]
  have hs := hv.spread
  rw [← hd.size] at hs
  obtain ⟨⟨a', x'⟩, e, hc, hch⟩ := Pool.remove_exists hd.chained hs
    (by rw [hd.size]; exact hd.stop_lt) hmem hh rfl
  have ht := hv.tagged_congr hd.tagged (List.Subset.refl _) hch fun k hk =>
    hv.not_linkByte_of_tagByte hk
  rw [hall] at ht
  obtain ⟨h1, -, -, h2⟩ := Arena.tagged_append.1 ht
  refine ⟨_, e, ⟨?_, ?_, ?_, ?_, ?_⟩, ?_, hch.mono fun k => hv.not_kept_of_linkByte⟩
  · rw [hstop]; exact hch.size.trans hd.size
  · rw [hstop]; exact hd.stop_lt
  · rw [hg]; exact h1
  · rw [hstop, hg, ← hf]; exact h2
  · rw [hg]; exact hc
  · rw [hh, hg, hf]

/-! ### Closing gaps -/

theorem kept_fillFree : g.fillFree.Kept k ↔ g.Kept k := by
  simp [MemoryMap.Kept, Kept, fillFree, Block.Holds]

theorem kept_split {need : Nat} : (g.split need).Kept k ↔
    g.Kept k ∨ g.offset ≤ k ∧ k + 8 < g.offset + need := by
  simp only [Kept, split, Block.held_append, Block.held_cons, Block.held_nil, Block.Holds]
  tauto

theorem kept_fillAllocated {need : Nat} (h : g.Kept k ∨ g.offset ≤ k ∧ k + 8 < g.offset + need)
    (hs : need ≤ g.size) : (g.fillAllocated need).Kept k := by
  unfold fillAllocated
  split
  · exact kept_fillFree.2 (kept_split.2 h)
  · exact kept_fillWhole.2 (h.imp_right fun h => ⟨h.1, by omega⟩)

/-- A gap with header and footer is put in its chain. -/
theorem Describes.list (hd : g.Describes false ⟨a, x⟩) (hv : g.Valid)
    (hb : ∀ x ∈ g.before.getLast?, x.allocated = true)
    (ha : ∀ x ∈ g.after.head?, x.allocated = true)
    (hw : a.word (g.offset - 8) = Tag.pack ⟨g.size, false, true⟩)
    (hw' : a.word (g.offset + g.size - 16) = Tag.pack ⟨g.size, false, true⟩) :
    ∃ p', Pool.insert ⟨a, x⟩ g.offset = .ok p' ∧ g.fillFree.Describes p' ∧
      Changed (fun k => ¬g.fillFree.Kept k) a p'.arena := by
  have hm := hv.fillFree hb ha
  have hs := hm.spread
  rw [hv.stop_fillFree, ← hd.size] at hs
  have hh : a.header g.offset = .ok ⟨g.size, false, true⟩ :=
    hd.header_of_mem (b := ⟨g.offset, g.size, true⟩) hv
      (by rw [hv.allBlocks_fillWhole]; simp) hw rfl
  obtain ⟨⟨a', x'⟩, e, hc, hch⟩ := Pool.insert_exists hd.chained hs
    (by rw [hd.size]; exact hd.stop_lt) hh rfl
  have hfill := hd.tagged_fill ⟨g.offset, g.size, false⟩ (by rw [flagAfter_true hb]; exact hw)
    (fun _ => by rw [flagAfter_true hb]; exact hw') rfl
  refine ⟨_, e, ⟨?_, ?_, ?_, hc⟩, hch.mono fun k hk => hm.not_kept_of_linkByte hk⟩
  · rw [hv.stop_fillFree]; exact hch.size.trans hd.size
  · rw [hv.stop_fillFree]; exact hd.stop_lt
  · refine hm.tagged_congr ?_ (List.Subset.refl _) hch fun k hk => hm.not_linkByte_of_tagByte hk
    rw [MemoryMap.allBlocks, hv.stop_fillFree]; exact hfill

theorem Describes.fillFree (hd : g.Describes q ⟨a, x⟩) (hv : g.Valid)
    (hb : ∀ x ∈ g.before.getLast?, x.allocated = true)
    (ha : ∀ x ∈ g.after.head?, x.allocated = true) :
    ∃ a1 a2 p', a.markFree g.offset g.size true = .ok a1 ∧
      a1.setPrevAllocated (g.offset + g.size) false = .ok a2 ∧
      Pool.insert ⟨a2, x⟩ g.offset = .ok p' ∧ g.fillFree.Describes p' ∧
      Changed (fun k => ¬g.fillFree.Kept k) a p'.arena := by
  have hsz : a.size = g.stop := hd.size
  have hlt := hd.stop_lt
  have hge := hv.offset_ge
  have hz := hv.size_ge
  obtain ⟨a1, e1, c1, w1, w1'⟩ := Arena.markFree_exists (a := a) (b := g.offset) (z := g.size)
    (p := true) (by omega) (by omega) (by omega) (by omega) (by omega)
  replace c1 : Changed g.Inside a a1 := c1.mono fun k hk => by
    rcases hk with hk | hk <;> exact ⟨by omega, by omega⟩
  obtain ⟨a2, e2, h2, c2⟩ := (hd.congr hv c1).retag hv false
  have hout : ∀ k, TagByte (g.after ++ [.last g.stop]) k → ¬g.Inside k :=
    fun k => hv.not_inside_of_tagByte_after
  obtain ⟨p', e3, h3, c3⟩ := h2.list hv hb ha
    (by rw [c2.word fun k _ _ hk => hout k hk ⟨by omega, by omega⟩, w1])
    (by rw [c2.word fun k _ _ hk => hout k hk ⟨by omega, by omega⟩, w1'])
  refine ⟨a1, a2, p', e1, e2, e3, h3, ((c1.mono ?_).trans (c2.mono ?_)).trans c3⟩
  · exact fun k hk h => hv.not_kept_of_inside hk (kept_fillFree.1 h)
  · exact fun k hk h => hv.not_kept_of_tagByte hk (kept_fillFree.1 h)

theorem Describes.fillWhole (hd : g.Describes q ⟨a, x⟩) (hv : g.Valid) :
    ∃ a1 a2, a.setHeader g.offset ⟨g.size, true, flagAfter true g.before⟩ = .ok a1 ∧
      a1.setPrevAllocated (g.offset + g.size) true = .ok a2 ∧ g.fillWhole.Describes ⟨a2, x⟩ ∧
      Changed (fun k => ¬g.fillWhole.Kept k) a a2 := by
  have hsz : a.size = g.stop := hd.size
  have hlt := hd.stop_lt
  have hge := hv.offset_ge
  have hz := hv.size_ge
  obtain ⟨a1, e1, c1, w1⟩ := Arena.setHeader_exists (a := a) (b := g.offset)
    (t := ⟨g.size, true, flagAfter true g.before⟩) (by omega) (by omega) (by omega)
    (by simp only; omega)
  obtain ⟨a2, e2, h2, c2⟩ := (hd.congr hv (c1.mono fun k hk => ⟨by omega, by omega⟩)).retag hv true
  have hout : ∀ k, TagByte (g.after ++ [.last g.stop]) k → ¬g.Inside k :=
    fun k => hv.not_inside_of_tagByte_after
  have w2 : a2.word (g.offset - 8) = Tag.pack ⟨g.size, true, flagAfter true g.before⟩ := by
    rw [c2.word fun k _ _ hk => hout k hk ⟨by omega, by omega⟩, w1]
  have hfill := h2.tagged_fill ⟨g.offset, g.size, true⟩ w2 nofun rfl
  refine ⟨a1, a2, e1, e2, ⟨?_, ?_, ?_, h2.chained⟩, (c1.mono ?_).trans (c2.mono ?_)⟩
  · rw [hv.stop_fillWhole]; exact h2.size
  · rw [hv.stop_fillWhole]; exact hlt
  · rw [MemoryMap.allBlocks, hv.stop_fillWhole]; exact hfill
  · refine fun k hk => hv.fillWhole.not_kept_of_tagByte ⟨⟨g.offset, g.size, true⟩, ?_, .inl ?_⟩
    · rw [hv.allBlocks_fillWhole]; simp
    · exact ⟨by simp only; omega, hk.2⟩
  · exact fun k hk => hv.fillWhole.not_kept_of_tagByte (hk.mono hv.after_subset)

theorem Describes.split {need : Nat} (hd : g.Describes q ⟨a, x⟩) (hs : need ≤ g.size)
    (hw : a.word (g.offset - 8) = Tag.pack ⟨need, true, flagAfter true g.before⟩) :
    (g.split need).Describes q ⟨a, x⟩ := by
  refine ⟨?_, ?_, Arena.tagged_append.2 ⟨hd.before, hw, nofun, trivial⟩, ?_, hd.chained⟩
  · rw [stop_split hs]; exact hd.size
  · rw [stop_split hs]; exact hd.stop_lt
  · rw [stop_split hs]; exact hd.after

end Gap

namespace Pool

variable {g : Gap} {q : Bool} {p : Pool} {a : Arena} {x : FreeIndex} {need : Nat}

/-! ### Allocated blocks -/

/-- Carving fills a gap that the block after it takes for free. -/
theorem carve_exists (hd : g.Describes false ⟨a, x⟩) (hv : g.Valid)
    (ha : ∀ x ∈ g.after.head?, x.allocated = true) (hn : 32 ≤ need) (hn' : 16 ∣ need)
    (hs : need ≤ g.size) :
    ∃ p', carve ⟨a, x⟩ g.offset g.size need (flagAfter true g.before) = .ok p' ∧
      (g.fillAllocated need).Describes p' ∧
      Changed (fun k => ¬(g.fillAllocated need).Kept k) a p'.arena := by
  have hsz : a.size = g.stop := hd.size
  have hlt := hd.stop_lt
  have hge := hv.offset_ge
  rw [carve, Word.sub_of_le hs, ok_bind]
  by_cases hr : minBlockSize ≤ g.size - need
  · simp only [Gap.fillAllocated, if_pos hr]
    replace hr : 32 ≤ g.size - need := hr
    have hv' := hv.split hn hn' hr
    obtain ⟨a1, e1, c1, w1⟩ := Arena.setHeader_exists (a := a) (b := g.offset)
      (t := ⟨need, true, flagAfter true g.before⟩) (by omega) (by omega) (by omega)
      (by simp only; omega)
    have h1 := (hd.congr hv (c1.mono fun k hk => ⟨by omega, by omega⟩)).split hs w1
    obtain ⟨a2, e2, c2, w2, w2'⟩ := Arena.markFree_exists (a := a1) (b := g.offset + need)
      (z := g.size - need) (p := true) (by omega) (by omega) (by rw [c1.size]; omega)
      (by omega) (by rw [c1.size]; omega)
    replace c2 : Changed (g.split need).Inside a1 a2 := c2.mono fun k hk => by
      rcases hk with hk | hk <;> exact ⟨by simp only [Gap.split]; omega,
        by simp only [Gap.split]; omega⟩
    obtain ⟨p', e3, h3, c3⟩ := (h1.congr hv' c2).list hv' Gap.split_before ha w2 w2'
    refine ⟨p', ?_, h3, ((c1.mono ?_).trans (c2.mono ?_)).trans c3⟩
    · rw [e1, ok_bind, Word.add_of_lt (by omega), ok_bind, e2, ok_bind]
      exact e3
    · intro k hk h
      rcases Gap.kept_split.1 (Gap.kept_fillFree.1 h) with h | h
      · exact hv.not_kept_of_inside ⟨by omega, by omega⟩ h
      · omega
    · exact fun k hk h => hv'.not_kept_of_inside hk (Gap.kept_fillFree.1 h)
  · simp only [Gap.fillAllocated, if_neg hr]
    obtain ⟨a1, a2, e1, e2, h2, c2⟩ := hd.fillWhole hv
    refine ⟨⟨a2, x⟩, ?_, h2, c2⟩
    rw [e1, ok_bind, Word.add_of_lt (by omega), ok_bind, e2]; rfl

end Pool

end SegregatedFit
