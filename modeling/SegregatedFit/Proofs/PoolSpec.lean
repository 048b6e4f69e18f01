import SegregatedFit.Proofs.Filling

/-!
# What pool operations do to maps

Every operation opens a gap in the map, lets it take in the free blocks next to it, and fills it:
`join_exists` and `adopt_exists` for memory that becomes free, `place_exists`, `absorb_exists` and
`trim_exists` for memory that is taken. None of them faults, and a byte that is kept both before
and after stays as it is.
-/

namespace SegregatedFit

open Arena (TagByte Changed)

namespace Gap

variable {g : Gap} {q : Bool} {p : Pool} {a : Arena} {x : FreeIndex}

theorem Valid.joinPrev_stop (hv : g.Valid) :
    g.joinPrev.offset + g.joinPrev.size = g.offset + g.size := by
  rcases g.joinPrev_cases with ⟨-, h⟩ | ⟨xs, b, hb, hf, h⟩ <;> rw [h]
  have ht := hv.before
  rw [hb] at ht
  obtain ⟨m, -, hm⟩ := Tiles.append_iff.1 ht
  obtain ⟨h1, -, -, h2⟩ := Tiles.cons_iff.1 hm
  replace h2 : m + b.size = g.offset := h2
  simp only; omega

theorem Valid.joinPrev_next (hv : g.Valid) : g.joinPrev.next = g.next := by
  have hs : g.joinPrev.stop = g.stop := by
    have := hv.joinPrev_stop
    rw [stop, stop, joinPrev_after]; omega
  rw [next, next, joinPrev_after, hs]

theorem Describes.prevBlock_eq {b : Block} {xs : List Block} (hd : g.Describes q ⟨a, x⟩)
    (hv : g.Valid) (hb : g.before = xs ++ [b]) (hf : b.allocated = false) :
    a.prevBlock g.offset = .ok b.offset := by
  have hlt := hd.stop_lt
  have hge := hv.offset_ge
  have hsz : a.size = g.stop := hd.size
  have ht := hv.before
  have htag := hd.before
  rw [hb] at ht htag
  have hbz := ht.bounds (b := b) (by simp)
  obtain ⟨m, -, hm⟩ := Tiles.append_iff.1 ht
  obtain ⟨h1, -, -, h2⟩ := Tiles.cons_iff.1 hm
  replace h2 : m + b.size = g.offset := h2
  have hfoot : a.word (g.offset - 16) = Tag.pack ⟨b.size, b.allocated, flagAfter true xs⟩ := by
    rw [← (Arena.tagged_append.1 htag).2.2.1 hf, h1, h2]
  have hpos : Word.sub g.offset (2 * wordSize) = .ok (g.offset - 16) :=
    Word.sub_of_le (by simp only [wordSize]; omega)
  have hsub : Word.sub g.offset b.size = .ok b.offset := by
    rw [Word.sub_of_le (by omega), show g.offset - b.size = b.offset by omega]
  rw [Arena.prevBlock, hpos, ok_bind, Arena.readWord_of_le (by omega) (by omega), ok_bind, hfoot,
    Tag.unpack_pack (Nat.dvd_trans ⟨4, rfl⟩ hbz.2.2.2)]
  exact hsub

theorem Describes.joinPrev_exists (hd : g.Describes q ⟨a, x⟩) (hv : g.Valid) :
    ∃ p', (∀ f : Nat × Nat × Bool × Pool → Except Fault (Merge × Pool),
        (if flagAfter true g.before = true then pure (g.offset, g.size, true, Pool.mk a x) >>= f
          else a.prevBlock g.offset >>= fun prev => a.header prev >>= fun prevTag =>
            Pool.remove ⟨a, x⟩ prev >>= fun p => Word.add g.size prevTag.size >>= fun size =>
              pure (prev, size, prevTag.prevAllocated, p) >>= f) =
            f (g.joinPrev.offset, g.joinPrev.size, true, p')) ∧
      g.joinPrev.Describes q p' ∧ Changed (fun k => ¬g.Kept k) a p'.arena := by
  rcases g.joinPrev_cases with ⟨hx, h⟩ | ⟨xs, b, hb, hf, h⟩
  · refine ⟨⟨a, x⟩, ?_, by rw [h]; exact hd, .refl _ _⟩
    intro f
    rw [if_pos (flagAfter_true hx), h]; rfl
  · obtain ⟨p', e, hd', hc⟩ := hd.joinPrev hv hb hf
    have hxs : flagAfter true xs = true := by
      have := hv.coalesced_before
      rw [hb, Coalesced.around_free hf] at this
      exact flagAfter_true this.2.1
    have hadd : Word.add g.size b.size = .ok (g.size + b.size) := by
      have h1 := hv.joinPrev_stop
      have h2 := hv.offset_ge
      have h3 := hd.stop_lt
      rw [h] at h1
      refine Word.add_of_lt ?_
      simp only at h1; omega
    refine ⟨p', ?_, hd', hc.mono fun k => hv.not_kept_of_linkByte⟩
    intro f
    rw [if_neg (by rw [hb, flagAfter_concat, hf]; simp), hd.prevBlock_eq hv hb hf, ok_bind,
      hd.header_prev hv hb, ok_bind, e, ok_bind, hadd, ok_bind, hxs, h]
    rfl

theorem Describes.joinNext_exists (hd : g.Describes q p) (hv : g.Valid) :
    ∃ p', (∀ f : Nat × Pool → Except Fault (Merge × Pool),
        (if g.next.allocated = true then pure (g.size, p) >>= f
          else p.remove (g.offset + g.size) >>= fun p => Word.add g.size g.next.size >>=
            fun size => pure (size, p) >>= f) = f (g.joinNext.size, p')) ∧
      (∃ q', g.joinNext.Describes q' p') ∧ Changed (fun k => ¬g.Kept k) p.arena p'.arena := by
  have hlt := hd.stop_lt
  rcases g.joinNext_cases with ⟨hx, h⟩ | ⟨b, ys, hb, hf, h⟩
  · refine ⟨p, ?_, ⟨q, by rw [h]; exact hd⟩, .refl _ _⟩
    intro f
    rw [if_pos (next_allocated hx), h]; rfl
  · obtain ⟨p', e, hd', hc⟩ := hd.joinNext hv hb hf
    have hn : g.next = b := by rw [next, hb]; rfl
    have hsize := hv.joinNext.offset_ge.2
    have hlt' := hd'.stop_lt
    rw [h] at hsize
    replace hsize : g.offset + (g.size + b.size) ≤ _ := hsize
    refine ⟨p', ?_, ⟨false, hd'⟩, hc.mono fun k => hv.not_kept_of_linkByte⟩
    intro f
    rw [if_neg (by rw [hn, hf]; simp), e, ok_bind, hn, Word.add_of_lt (by rw [h] at hlt'; omega),
      ok_bind, h]
    rfl

/-- What is reported of a gap that joins its free neighbours. -/
def merge (g : Gap) : Merge :=
  ⟨g.joinPrev.offset, g.joinPrev.joinNext.size, !flagAfter true g.before, !g.next.allocated⟩

/-- The gap and its free neighbours become one free block. -/
def fillMerged (g : Gap) : MemoryMap := g.joinPrev.joinNext.fillFree

theorem Valid.fillMerged (hv : g.Valid) : g.fillMerged.Valid := by
  refine hv.joinPrev.joinNext.fillFree ?_ hv.joinPrev.joinNext_after
  rw [joinNext_before]; exact hv.joinPrev_before

theorem kept_fillMerged {k : Nat} : g.fillMerged.Kept k ↔ g.Kept k :=
  kept_fillFree.trans (kept_joinNext.trans kept_joinPrev)

end Gap

namespace Pool

variable {g : Gap} {m : MemoryMap} {b : Block} {q : Bool} {p : Pool} {a : Arena} {x : FreeIndex}
  {n need : Nat}

/-! ### Memory that becomes free -/

theorem join_exists (hd : g.Describes q ⟨a, x⟩) (hv : g.Valid)
    (hw : a.word (g.offset - 8) = Tag.pack ⟨g.size, false, flagAfter true g.before⟩) :
    ∃ p', join ⟨a, x⟩ g.offset = .ok (g.merge, p') ∧ g.fillMerged.Describes p' ∧
      Changed (fun k => ¬g.Kept k) a p'.arena := by
  have hlt := hd.stop_lt
  have hge := hv.offset_ge
  have hh : a.header g.offset = .ok ⟨g.size, false, flagAfter true g.before⟩ :=
    hd.header_of_mem (b := ⟨g.offset, g.size, true⟩) hv
      (by rw [hv.allBlocks_fillWhole]; simp) hw rfl
  have hn : a.header (g.offset + g.size) = .ok ⟨g.next.size, g.next.allocated, q⟩ :=
    hd.header_next hv
  obtain ⟨⟨a1, x1⟩, h1, hd1, c1⟩ := hd.joinPrev_exists hv
  obtain ⟨⟨a2, x2⟩, h2, ⟨r, hd2⟩, c2⟩ := hd1.joinNext_exists hv.joinPrev
  rw [hv.joinPrev_next, hv.joinPrev_stop] at h2
  have hv2 := hv.joinPrev.joinNext
  have hb : ∀ x ∈ g.joinPrev.joinNext.before.getLast?, x.allocated = true := by
    rw [Gap.joinNext_before]; exact hv.joinPrev_before
  obtain ⟨a3, a4, p', e3, e4, e5, hd5, c5⟩ := hd2.fillFree hv2 hb hv.joinPrev.joinNext_after
  have hge2 := hv2.offset_ge
  have hlt2 := hd2.stop_lt
  rw [Gap.joinNext_offset] at e3 e4 e5 hge2
  have hco : coalesce ⟨a, x⟩ g.offset = .ok (g.merge, ⟨a4, x2⟩) := by
    simp only [coalesce, hh, ok_bind, Word.add_of_lt (show g.offset + g.size < _ by omega), hn]
    refine (h1 _).trans ((h2 _).trans ?_)
    simp only [e3, ok_bind, e4, pure_eq_ok,
      Word.add_of_lt (show g.joinPrev.offset + g.joinPrev.joinNext.size < _ by omega)]
    rfl
  have hins : insert ⟨a4, x2⟩ g.merge.offset = .ok p' := e5
  refine ⟨p', ?_, hd5, (c1.trans (c2.mono ?_)).trans (c5.mono ?_)⟩
  · simp only [join, hco, ok_bind, hins]; rfl
  · exact fun k hk h => hk (Gap.kept_joinPrev.2 h)
  · exact fun k hk h => hk (Gap.kept_fillMerged.2 h)

theorem mergeFree_exists (hd : g.Describes q ⟨a, x⟩) (hv : g.Valid) :
    ∃ p', mergeFree ⟨a, x⟩ g.offset g.size (flagAfter true g.before) = .ok (g.merge, p') ∧
      g.fillMerged.Describes p' ∧ Changed (fun k => ¬g.Kept k) a p'.arena := by
  have hsz : a.size = g.stop := hd.size
  have hlt := hd.stop_lt
  have hge := hv.offset_ge
  have hz := hv.size_ge
  obtain ⟨a1, e1, c1, w1, -⟩ := Arena.markFree_exists (a := a) (b := g.offset) (z := g.size)
    (p := flagAfter true g.before) (by omega) (by omega) (by omega) (by omega) (by omega)
  replace c1 : Changed g.Inside a a1 := c1.mono fun k hk => by
    rcases hk with hk | hk <;> exact ⟨by omega, by omega⟩
  obtain ⟨p', e2, h2, c2⟩ := join_exists (hd.congr hv c1) hv w1
  refine ⟨p', ?_, h2, (c1.mono fun k => hv.not_kept_of_inside).trans c2⟩
  rw [mergeFree, e1, ok_bind, e2]

theorem adopt_exists (hd : m.Describes ⟨a, x⟩) (hv : m.Valid) (hn : 32 ≤ n) (hn' : 16 ∣ n)
    (hlt : m.stop + n < Word.limit) :
    ∃ p', adopt ⟨a.extend n, x⟩ m.stop n = .ok ((m.added n).merge, p') ∧
      (m.added n).fillMerged.Describes p' ∧
      Changed (fun k => ¬m.Kept k) (a.extend n) p'.arena := by
  have hvg := hv.added hn hn'
  have hsz : (a.extend n).size = m.stop + n := by rw [Arena.extend]; exact congrArg (· + n) hd.size
  have hge := hvg.offset_ge
  have hstop : (m.added n).stop = m.stop + n := rfl
  have hge : 32 ≤ m.stop := hge.1
  -- the old end marker
  have htag := Arena.tagged_append.1 hd.tagged
  have hh : (a.extend n).header m.stop = .ok ⟨0, true, flagAfter true m.blocks⟩ :=
    Arena.header_eq (by omega) (by omega) (by omega) htag.2.1 ⟨0, rfl⟩
  obtain ⟨a1, e1, c1, w1, -⟩ := Arena.markFree_exists (a := a.extend n) (b := m.stop) (z := n)
    (p := flagAfter true m.blocks) (by omega) (by omega) (by omega) (by omega) (by omega)
  obtain ⟨a2, e2, c2, w2⟩ := Arena.setHeader_exists (a := a1) (b := m.stop + n)
    (t := .epilogue false) (by omega) (by rw [c1.size]; omega) (by rw [c1.size]; omega)
    (by simp [Tag.epilogue, Word.limit_eq])
  have hc : Changed (fun k => m.stop ≤ k + 8) (a.extend n) a2 :=
    (c1.mono fun k hk => by omega).trans (c2.mono fun k hk => by omega)
  have hd2 : (m.added n).Describes false ⟨a2, x⟩ := by
    refine ⟨hc.size.trans (hsz.trans hstop.symm), hlt, ?_, ⟨w2, nofun, trivial⟩, ?_⟩
    · refine hv.tagged_congr (Arena.tagged_extend.2 htag.1) (List.subset_append_left ..) hc ?_
      rintro k ⟨b, hb, hk⟩ h
      have := hv.tiles.bounds hb
      rcases hk with hk | ⟨-, hk⟩ <;> omega
    · refine Chained.congr (a := a.extend n) ⟨hd.chained.head, ?_⟩ hc ?_
      · intro c
        exact Arena.linked_extend.2 (hd.chained.linked c)
      · intro k hk h
        obtain ⟨b, hb, -, hk⟩ := hv.linkByte_iff.1 hk
        have := hv.tiles.bounds hb
        omega
  have hw : a2.word (m.stop - 8) = Tag.pack ⟨n, false, flagAfter true m.blocks⟩ := by
    rw [c2.word fun k _ _ => by omega, w1]
  obtain ⟨p', e3, h3, c3⟩ := join_exists hd2 hvg hw
  have hkept : ∀ k, m.Kept k → (m.added n).Kept k := by
    intro k
    rw [MemoryMap.Kept, Gap.Kept, MemoryMap.added, List.append_nil]; exact id
  refine ⟨p', ?_, h3, (hc.mono ?_).trans (c3.mono fun k hk h => hk (hkept k h))⟩
  · rw [adopt, hh, ok_bind, e1, ok_bind, Word.add_of_lt hlt, ok_bind, e2, ok_bind]
    exact e3
  · intro k hk h
    rcases h with h | ⟨b, hb, -, h⟩
    · have := hv.tiles.le; omega
    · have := hv.tiles.bounds hb; omega

/-! ### Memory that is taken -/

theorem place_exists (hd : m.Describes p) (hv : m.Valid) (hb : b ∈ m.blocks)
    (hf : b.allocated = false) (hn : 32 ≤ need) (hn' : 16 ∣ need) (hs : need ≤ b.size) :
    ∃ p', p.place b.offset need = .ok p' ∧
      ((m.gapAt b.offset).fillAllocated need).Describes p' ∧
      Changed (fun k => ¬m.Kept k) p.arena p'.arena := by
  have hvg := hv.gapAt hb
  have hz := hv.gapAt_size hb
  obtain ⟨⟨a1, x1⟩, e1, h1, hh, c1⟩ := Gap.Describes.of_free hd hv hb hf
  obtain ⟨p', e2, h2, c2⟩ := carve_exists h1 hvg (hv.gapAt_neighbours hb hf).2 hn hn' (by omega)
  rw [hv.gapAt_offset hb, hz] at e2
  refine ⟨p', ?_, h2, c1.trans (c2.mono fun k hk h => hk ?_)⟩
  · rw [place, hh, ok_bind, e1, ok_bind]
    exact e2
  · exact Gap.kept_fillAllocated (.inl ((hv.kept_gapAt hb hf).2 h)) (by omega)

theorem absorb_exists (hd : m.Describes p) (hv : m.Valid) (hb : b ∈ m.blocks)
    (ha : b.allocated = true) (hg : m.gapAt b.offset = g) (hf : g.next.allocated = false)
    (hn : b.size ≤ need) (hn' : 16 ∣ need) (hs : need ≤ g.joinNext.size) :
    ∃ p', p.absorb b.offset (b.offset + b.size) g.joinNext.size need (flagAfter true g.before) =
        .ok p' ∧
      (g.joinNext.fillAllocated need).Describes p' ∧
      Changed (fun k => ¬m.Kept k) p.arena p'.arena := by
  have hvg := hv.gapAt hb
  have hz := hv.gapAt_size hb
  have ho := hv.gapAt_offset hb
  have hm := hv.fillWhole_gapAt hb ha
  have hbz := (hv.tiles.bounds hb).2.2.1
  rw [hg] at hvg hz ho hm
  obtain ⟨c, ys, hc⟩ : ∃ c ys, g.after = c :: ys := by
    rcases h : g.after with _ | ⟨c, ys⟩
    · rw [Gap.next, h] at hf; cases hf
    · exact ⟨c, ys, rfl⟩
  have hcf : c.allocated = false := by rw [← hf, Gap.next, hc]; rfl
  obtain ⟨⟨a1, x1⟩, e1, h1, c1⟩ := (Gap.Describes.of_fillWhole (hm ▸ hd) hvg).joinNext hvg hc hcf
  obtain ⟨p', e2, h2, c2⟩ := carve_exists h1 hvg.joinNext hvg.joinNext_after (by omega) hn' hs
  rw [Gap.joinNext_offset, Gap.joinNext_before, ho] at e2
  rw [ho, hz] at e1
  refine ⟨p', ?_, h2, (c1.mono ?_).trans (c2.mono fun k hk h => hk ?_)⟩
  · rw [absorb, e1, ok_bind]
    exact e2
  · intro k hk
    rw [← hm]; exact hvg.fillWhole.not_kept_of_linkByte hk
  · rw [← hm] at h
    refine Gap.kept_fillAllocated ?_ hs
    rw [Gap.joinNext_offset, Gap.kept_joinNext]
    exact (Gap.kept_fillWhole.1 h).imp_right fun h => ⟨h.1, by omega⟩

theorem trim_of_lt {old : Tag} (hs : need ≤ old.size) (hr : old.size - need < 32) :
    trim p b.offset old need = .ok (none, p) := by
  obtain ⟨a, x⟩ := p
  rw [trim, Word.sub_of_le hs, ok_bind]
  exact if_pos hr

theorem trim_exists (hd : m.Describes p) (hv : m.Valid) (hb : b ∈ m.blocks)
    (ha : b.allocated = true) (hg : m.gapAt b.offset = g) (hn : 32 ≤ need) (hn' : 16 ∣ need)
    (hr : 32 ≤ b.size - need) :
    ∃ p', trim p b.offset ⟨b.size, true, flagAfter true g.before⟩ need =
        .ok (some (g.split need).merge, p') ∧
      (g.split need).fillMerged.Describes p' ∧
      Changed (fun k => ¬(g.split need).Kept k) p.arena p'.arena := by
  obtain ⟨a, x⟩ := p
  have hvg := hv.gapAt hb
  have hz := hv.gapAt_size hb
  have ho := hv.gapAt_offset hb
  have hm := hv.fillWhole_gapAt hb ha
  rw [hg] at hvg hz ho hm
  have hd1 := Gap.Describes.of_fillWhole (hm ▸ hd) hvg
  have hsz : a.size = g.stop := hd1.size
  have hlt := hd1.stop_lt
  have hge := hvg.offset_ge
  have hvs := hvg.split hn hn' (by omega)
  obtain ⟨a1, e1, c1, w1⟩ := Arena.setHeader_exists (a := a) (b := g.offset)
    (t := ⟨need, true, flagAfter true g.before⟩) (by omega) (by omega) (by omega)
    (by simp only; omega)
  have h1 := (hd1.congr hvg (c1.mono fun k hk => ⟨by omega, by omega⟩)).split (by omega) w1
  obtain ⟨p', e2, h2, c2⟩ := mergeFree_exists h1 hvs
  have hflag : flagAfter true (g.split need).before = true := by rw [Gap.split, flagAfter_concat]
  rw [hflag] at e2
  refine ⟨p', ?_, h2, (c1.mono ?_).trans c2⟩
  · have hsub : Word.sub b.size need = .ok (b.size - need) := Word.sub_of_le (by omega)
    have hadd : Word.add b.offset need = .ok (b.offset + need) := Word.add_of_lt (by omega)
    have hlt32 : ¬b.size - need < minBlockSize := by simp only [minBlockSize]; omega
    rw [ho] at e1
    simp only [trim, hsub, ok_bind, if_neg hlt32, e1, hadd]
    rw [show (g.split need).offset = b.offset + need by rw [← ho]; rfl,
      show (g.split need).size = b.size - need by rw [← hz]; rfl] at e2
    simp only [e2, ok_bind, pure_eq_ok]
  · intro k hk h
    rcases Gap.kept_split.1 h with h | h
    · exact hvg.not_kept_of_inside ⟨by omega, by omega⟩ h
    · omega

end Pool

end SegregatedFit
