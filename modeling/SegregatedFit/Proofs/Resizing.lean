import SegregatedFit.Proofs.Simulation

/-!
# Resizing follows outlines

The operations that change the size of an allocated block follow those on outlines. In place, the
payload stays as it is up to the smaller of both sizes (`shrink_follows`, `growInPlace_follows`); a
move copies that much (`move_follows`).
-/

namespace SegregatedFit

namespace HeapM

variable {full : Prop} {h : Heap} {o : Outline} {b : Block} {old nextTag : Tag} {need size : Nat}

theorem size_le_liveBytes (ho : o.Outlines h) (hb : b ∈ o.map.blocks) (ha : b.allocated = true) :
    b.size ≤ h.stats.liveBytes := by
  rw [ho.stats, ho.valid.live, Block.totalSize_perm (ho.valid.map.live_gapAt hb ha),
    Block.totalSize]
  exact Nat.le_add_right ..

theorem run_bind_of_read {α β : Type} {x : HeapM α} {f : α → HeapM β} {k : Heap} {a : α}
    (hx : x.run h = .ok ⟨.ok a, k, []⟩) : (x >>= f).run h = (f a).run k := by
  rw [run_bind_of_ok hx]
  rcases (f a).run k with fault | out <;> rfl

theorem Follows.congr {α : Type} {x x' : HeapM α} {y : Except Error α × Outline}
    {P : Heap → Prop} (hx : Follows full x' h y P) (hrun : x.run h = x'.run h) :
    Follows full x h y P := by
  rw [Follows, hrun]
  exact hx

/-! ### In place -/

/-- A tail that is too small for a block stays. -/
theorem run_shrink_of_lt (hs : need ≤ old.size) (hlt : old.size - need < minBlockSize) :
    (shrink b.offset old need).run h = .ok ⟨.ok (), h, []⟩ := by
  have htrim : Pool.trim h.pool b.offset old need = .ok (none, h.pool) := Pool.trim_of_lt hs hlt
  exact (run_bind_of_read (run_updatePool htrim)).trans rfl

theorem shrink_follows (ho : o.Outlines h) (hb : b ∈ o.map.blocks) (ha : b.allocated = true)
    (hold : old = ⟨b.size, true, flagAfter true (o.map.gapAt b.offset).before⟩)
    (hn : 32 ≤ need) (hn' : 16 ∣ need) (hs : need ≤ b.size) :
    Follows full (shrink b.offset old need) h (.ok (), o.trim b.offset need)
      (h.Same (o.map.trim b.offset need).Kept) := by
  have hvo := ho.valid.trim hb ha hn hn' hs
  have hlive := size_le_liveBytes ho hb ha
  have hz := ho.valid.map.gapAt_size hb
  by_cases hr : minBlockSize ≤ b.size - need
  · obtain ⟨p, hp, hd, hc⟩ := Pool.trim_exists ho.describes ho.valid.map hb ha rfl hn hn' hr
    have hmap : o.map.trim b.offset need = ((o.map.gapAt b.offset).split need).fillMerged := by
      rw [MemoryMap.trim, if_pos (by rw [hz]; exact hr)]
    have hrec : h.stats.recordShrink (old.size - need) = .ok (o.trim b.offset need).stats := by
      rw [hold, Stats.recordShrink_eq (by simp only; omega), ho.stats, Outline.trim, Gap.placed, hz,
        if_pos hr]
    subst hold
    unfold shrink
    refine .step (run_updatePool (p := p) hp) ?_
    refine .step (k := h.withPool p)
      (a := ((o.map.gapAt b.offset).split need).merge.offset) rfl ?_
    refine .of_run (k := (h.withPool p).withStats (o.trim b.offset need).stats)
      (run_updateStats (h := h.withPool p) hrec) ⟨hvo, ?_, hc.base.trans ho.base, ho.source,
        ho.config, ho.first.trans (ho.valid.map.first_trim hb).symm, rfl⟩ ?_
    · rw [Outline.trim, hmap]; exact hd
    · intro i hi
      rw [hmap] at hi
      exact hc.byte i (not_not.2 (Gap.kept_fillMerged.1 hi))
  · have hmap : o.map.trim b.offset need = o.map := by
      rw [MemoryMap.trim, if_neg (by rw [hz]; exact hr)]
    have hout : o.trim b.offset need = o := by
      rw [Outline.trim, hmap, Gap.placed, hz, if_neg hr, Nat.sub_self]; rfl
    rw [hout]
    refine .of_run (run_shrink_of_lt ?_ ?_) ho (.refl _ _)
    · rw [hold]; exact hs
    · rw [hold]; exact Nat.lt_of_not_le hr

theorem takeNext_follows (ho : o.Outlines h) (hb : b ∈ o.map.blocks) (ha : b.allocated = true)
    (hold : old = ⟨b.size, true, flagAfter true (o.map.gapAt b.offset).before⟩)
    (hnext : nextTag.allocated = false) (hf : (o.map.gapAt b.offset).next.allocated = false)
    (hn' : 16 ∣ need) (hle : b.size ≤ need) (hs : need ≤ (o.map.gapAt b.offset).joinNext.size) :
    Follows full
      (takeNext b.offset old nextTag (o.map.gapAt b.offset).joinNext.size need) h
      (.ok true, o.absorb b.offset need) (h.Same o.map.Kept) := by
  have hn : 32 ≤ need := Nat.le_trans (ho.valid.map.tiles.bounds hb).2.2.1 hle
  have hvo := ho.valid.absorb hb ha hn' hle hs
  have hz := ho.valid.map.gapAt_size hb
  have hp' := Gap.le_placed hs
  obtain ⟨p, hp, hd, hc⟩ :=
    Pool.absorb_exists ho.describes ho.valid.map hb ha rfl hf hle hn' hs
  have hv := ho.valid.map.absorb (n := need) hb hn hn'
  have hmem : ⟨b.offset, (o.map.gapAt b.offset).joinNext.placed need, true⟩ ∈
      (o.map.absorb b.offset need).blocks :=
    (Block.mem_live.1 ((ho.valid.map.live_absorb hb).mem_iff.2 List.mem_cons_self)).1
  have hh := hd.header_of_mem hv hmem
  have hadd : Word.add b.offset b.size = .ok (b.offset + b.size) := by
    have := (ho.valid.map.tiles.bounds hb).2.1
    have := ho.describes.stop_lt
    exact Word.add_of_lt (by omega)
  have hrec : h.stats.recordGrowth ((o.map.gapAt b.offset).joinNext.placed need - b.size) =
      .ok (o.absorb b.offset need).stats := by
    have hlt := hvo.liveBytes_lt
    rw [Outline.absorb, hz] at *
    rw [ho.stats, Stats.recordGrowth_eq hlt]
  subst hold
  rw [takeNext, if_neg (by rw [hnext]; simp only [Bool.false_eq_true, false_or]; omega)]
  refine .step (run_updatePool (a := ()) (p := p) (by simp only [hadd, ok_bind, Heap.pool] at *; rw [hp]; rfl)) ?_
  refine .step (run_header (h := h.withPool p) hh) ?_
  refine .step (run_ofChecked (h := h.withPool p) (Word.sub_of_le (by simp only; omega))) ?_
  refine .step (run_updateStats (h := h.withPool p) hrec) ?_
  refine .of_run (k := (h.withPool p).withStats (o.absorb b.offset need).stats) (l := [])
    rfl ⟨hvo, hd, hc.base.trans ho.base, ho.source, ho.config, ?_, rfl⟩ ?_
  · exact ho.first.trans (ho.valid.map.first_absorb hb).symm
  · intro i hi
    exact hc.byte i (not_not.2 hi)

/-- Growing at the end of the arena, once the block behind `b` was extended by `n` bytes. -/
theorem takeExtended_follows {m : MemoryMap} {n : Nat} (hm : m.Valid) (hb : b ∈ m.blocks)
    (ha : b.allocated = true) (hempty : (m.gapAt b.offset).joinNext.after = []) (h32 : 32 ≤ n)
    (h16 : 16 ∣ n) (ho : o.Outlines h) (ho' : o.map = m.grow n)
    (hold : old = ⟨b.size, true, flagAfter true (m.gapAt b.offset).before⟩)
    (hn' : 16 ∣ need) (hlt : b.size < need) (hs : need ≤ (m.gapAt b.offset).joinNext.size + n) :
    Follows full (do
      let nextTag ← header (b.offset + b.size)
      let available ← Word.add old.size nextTag.size
      takeNext b.offset old nextTag available need) h
      (.ok true, o.absorb b.offset need) (h.Same o.map.Kept) := by
  obtain ⟨hbefore, hf, hsize⟩ := hm.grow_behind hb ha h32 h16 hempty
  rw [← ho'] at hbefore hf hsize
  have hv := ho.valid.map
  have hb' : b ∈ o.map.blocks := by
    have : b ∈ o.map.live := by
      rw [ho', MemoryMap.live_grow]
      exact Block.mem_live.2 ⟨hb, ha⟩
    exact (Block.mem_live.1 this).1
  have hnext := run_header (ho.describes.header_behind hv hb' ha)
  have hsum := Gap.size_joinNext (g := o.map.gapAt b.offset)
  rw [hv.gapAt_size hb', if_neg (by rw [hf]; simp)] at hsum
  have hstop := (hv.gapAt hb').joinNext.offset_ge.2
  rw [Gap.stop_joinNext, Gap.joinNext_offset, hv.gapAt_offset hb', hv.stop_gapAt hb'] at hstop
  have hlim := ho.describes.stop_lt
  have hadd : Word.add b.size (o.map.gapAt b.offset).next.size =
      .ok (o.map.gapAt b.offset).joinNext.size := by
    rw [Word.add_of_lt (by omega), hsum]
  subst hold
  refine .step hnext (.step (run_ofChecked hadd) ?_)
  exact takeNext_follows ho hb' ha (by rw [← hbefore]) hf hf hn' (by omega) (by omega)

/-- What is done to grow in place depends on how much there is, and on whether more can follow. -/
theorem run_growInPlace (ho : o.Outlines h) (hb : b ∈ o.map.blocks) (ha : b.allocated = true)
    (hold : old.size = b.size) : (growInPlace b.offset old need).run h =
      if need ≤ (o.map.gapAt b.offset).joinNext.size then
        (takeNext b.offset old
          ⟨(o.map.gapAt b.offset).next.size, (o.map.gapAt b.offset).next.allocated, true⟩
          (o.map.gapAt b.offset).joinNext.size need).run h
      else if (o.map.gapAt b.offset).joinNext.after = [] then (do
        let _ ← extend (max (need - (o.map.gapAt b.offset).joinNext.size) o.config.chunkSize)
        let nextTag ← header (b.offset + b.size)
        let available ← Word.add old.size nextTag.size
        takeNext b.offset old nextTag available need : HeapM Bool).run h
      else .ok ⟨.ok false, h, []⟩ := by
  have hv := ho.valid.map
  have hvg := hv.gapAt hb
  have hstop := hvg.joinNext.offset_ge.2
  rw [Gap.stop_joinNext, Gap.joinNext_offset, hv.gapAt_offset hb, hv.stop_gapAt hb] at hstop
  have hlim := ho.describes.stop_lt
  have hsum := Gap.size_joinNext (g := o.map.gapAt b.offset)
  rw [hv.gapAt_size hb] at hsum
  obtain ⟨q, hafter⟩ := ho.describes.header_after hv hb ha
  have hadd : Word.add b.offset b.size = .ok (b.offset + b.size) := Word.add_of_lt (by omega)
  have havail : Word.add b.size (if (o.map.gapAt b.offset).next.allocated then 0
      else (o.map.gapAt b.offset).next.size) = .ok (o.map.gapAt b.offset).joinNext.size := by
    rw [Word.add_of_lt (by omega), hsum]
  rw [growInPlace, hold]
  refine (run_bind_of_read (run_ofChecked hadd)).trans ?_
  refine (run_bind_of_read (run_header (ho.describes.header_behind hv hb ha))).trans ?_
  refine (run_bind_of_read (run_ofChecked havail)).trans ?_
  by_cases hfit : need ≤ (o.map.gapAt b.offset).joinNext.size
  · rw [if_pos hfit, if_pos hfit]
  rw [if_neg hfit, if_neg hfit]
  -- what is behind the free block, if there is one
  have hrest : ∀ after, after = b.offset + (o.map.gapAt b.offset).joinNext.size → (do
      let afterTag ← header after
      if afterTag.size ≠ 0 then pure false
      else do
        let shortfall ← Word.sub need (o.map.gapAt b.offset).joinNext.size
        let config ← ask fun h => pure h.config
        let _ ← extend (max shortfall config.chunkSize)
        let nextTag ← header (b.offset + b.size)
        let available ← Word.add b.size nextTag.size
        takeNext b.offset old nextTag available need : HeapM Bool).run h =
      if (o.map.gapAt b.offset).joinNext.after = [] then (do
        let _ ← extend (max (need - (o.map.gapAt b.offset).joinNext.size) o.config.chunkSize)
        let nextTag ← header (b.offset + b.size)
        let available ← Word.add b.size nextTag.size
        takeNext b.offset old nextTag available need : HeapM Bool).run h
      else .ok ⟨.ok false, h, []⟩ := by
    rintro _ rfl
    refine (run_bind_of_read (run_header hafter)).trans ?_
    by_cases hempty : (o.map.gapAt b.offset).joinNext.after = []
    · rw [if_neg (not_not.2 (hvg.joinNext.size_next_eq_zero.2 hempty)), if_pos hempty]
      refine (run_bind_of_read (run_ofChecked (Word.sub_of_le (by omega)))).trans ?_
      exact run_bind_of_read (run_ask (a := o.config) (by rw [ho.config]; rfl))
    · rw [if_pos (mt hvg.joinNext.size_next_eq_zero.1 hempty), if_neg hempty]
      rfl
  by_cases hn : (o.map.gapAt b.offset).next.allocated = true
  · rw [if_pos hn] at hsum
    simp only [if_pos hn]
    exact (run_bind_of_read rfl).trans (hrest _ (by rw [hsum, Nat.add_zero]))
  · rw [if_neg hn] at hsum
    simp only [if_neg hn]
    refine (run_bind_of_read (run_ofChecked (Word.add_of_lt (by omega)))).trans (hrest _ ?_)
    rw [hsum, Nat.add_assoc]

/-- Where the block cannot grow in place, nothing has happened to the heap. -/
theorem growInPlace_follows (ho : o.Outlines h) (hb : b ∈ o.map.blocks) (ha : b.allocated = true)
    (hold : old = ⟨b.size, true, flagAfter true (o.map.gapAt b.offset).before⟩)
    (hn' : 16 ∣ need) (hlt : b.size < need) :
    Follows full (growInPlace b.offset old need) h (o.growInPlace b.offset need)
      (fun k => h.Same o.map.Kept k ∧ ((o.growInPlace b.offset need).1 = .ok false → k = h)) := by
  have hv := ho.valid.map
  have hsize : old.size = b.size := by rw [hold]
  have hrun : (growInPlace b.offset old need).run h = _ := run_growInPlace ho hb ha hsize
  unfold Outline.growInPlace
  by_cases hfit : need ≤ (o.map.gapAt b.offset).joinNext.size
  · rw [if_pos hfit] at hrun
    simp only [if_pos hfit]
    have hf : (o.map.gapAt b.offset).next.allocated = false := by
      have hsum := Gap.size_joinNext (g := o.map.gapAt b.offset)
      by_contra hf
      rw [if_pos (by simpa using hf), hv.gapAt_size hb] at hsum
      omega
    exact (takeNext_follows ho hb ha hold hf hf hn' (by omega) hfit).congr hrun |>.mono
      fun k hsame => ⟨hsame, nofun⟩
  rw [if_neg hfit] at hrun
  simp only [if_neg hfit]
  rcases hempty : (o.map.gapAt b.offset).joinNext.after with _ | ⟨c, cs⟩
  · rw [if_pos hempty] at hrun
    simp only [List.isEmpty_nil, if_true]
    refine Follows.congr ?_ hrun
    have hext : Follows full _ h _ _ := extend_follows ho
      (max (need - (o.map.gapAt b.offset).joinNext.size) o.config.chunkSize)
    rcases o.extend_cases (max (need - (o.map.gapAt b.offset).joinNext.size) o.config.chunkSize)
      with ⟨e, source, hx, -⟩ | ⟨n, source, h32, h16, hle, -, hx⟩ <;> rw [hx] at hext ⊢
    · exact hext.bind_error fun h' hsame => ⟨hsame, nofun⟩
    · refine hext.bind_ok ?_
      intro h' ho' hsame
      refine (takeExtended_follows hv hb ha hempty h32 h16 ho' rfl hold hn' hlt ?_).mono
        fun h'' hsame' => ⟨hsame.trans hsame' ?_, nofun⟩
      · have := Nat.le_trans (Nat.le_max_left ..) hle
        omega
      · intro i hi
        exact (MemoryMap.kept_congr MemoryMap.first_grow (by rw [MemoryMap.live_grow])).2 hi
  · rw [if_neg (by rw [hempty]; exact List.cons_ne_nil c cs)] at hrun
    exact .of_run hrun ho ⟨.refl _ _, fun _ => rfl⟩

/-! ### Moving -/

/-- What resizing the block `b` to `size` bytes does to bytes: others keep theirs, and so does the
block itself on an error; else the payload at the new address begins like the old one. -/
def Resized (o : Outline) (b : Block) (size : Nat) (r : Except Error Nat) (h h' : Heap) : Prop :=
  h.Same (o.map.release b.offset).Kept h' ∧
    match r with
    | .error _ => h.Same o.map.Kept h'
    | .ok address => ∀ i < min (b.size - 8) size,
      h'.arena.byte (address - o.base + i) = h.arena.byte (b.offset + i)

theorem resized_of_error {h' : Heap} {e : Error} (hv : o.map.Valid) (hb : b ∈ o.map.blocks)
    (ha : b.allocated = true) (hsame : h.Same o.map.Kept h') :
    Resized o b size (.error e) h h' :=
  ⟨fun i hi => hsame i (hv.kept_of_release hb ha hi), hsame⟩

theorem resized_in_place {h' : Heap} (hsame : h.Same (fun i => (o.map.release b.offset).Kept i ∨
      b.offset ≤ i ∧ i < b.offset + min (b.size - 8) size) h') :
    Resized o b size (.ok (o.base + b.offset)) h h' := by
  constructor
  · intro i hi
    exact hsame i (.inl hi)
  · intro i hi
    rw [Nat.add_sub_cancel_left]
    exact hsame _ (.inr ⟨Nat.le_add_right .., by omega⟩)

theorem Resized.of_same {r : Except Error Nat} {h1 h2 : Heap} (hr : Resized o b size r h1 h2)
    (hv : o.map.Valid) (hb : b ∈ o.map.blocks) (ha : b.allocated = true)
    (hsame : h.Same o.map.Kept h1) : Resized o b size r h h2 := by
  constructor
  · intro i hi
    exact (hr.1 i hi).trans (hsame i (hv.kept_of_release hb ha hi))
  rcases r with e | address
  · exact hsame.trans hr.2 fun _ => id
  · intro i hi
    exact (hr.2 i hi).trans (hsame _ (.inr ⟨b, hb, ha, Nat.le_add_right .., by omega⟩))

/-- With `c` allocated next to `b`, what is kept without `b` and what `c` holds survive the release
of `b`. -/
theorem kept_release_of_perm {m m' : MemoryMap} {c : Block} {i : Nat} (hv : m.Valid)
    (hv' : m'.Valid) (hfirst : m'.first = m.first) (hlive : m'.live.Perm (c :: m.live))
    (hb : b ∈ m.blocks) (ha : b.allocated = true)
    (hi : (m.release b.offset).Kept i ∨ c.Holds i) : (m'.release b.offset).Kept i := by
  obtain ⟨hb', hlive'⟩ := hv.live_release_of_perm hv' hb ha hlive
  rw [MemoryMap.kept_iff] at hi ⊢
  rw [hv.first_release hb] at hi
  rw [hv'.first_release hb', hfirst]
  rcases hi with (hi | ⟨d, hd, hi⟩) | hi
  · exact .inl hi
  · exact .inr ⟨d, hlive'.mem_iff.2 (List.mem_cons_of_mem c hd), hi⟩
  · exact .inr ⟨c, hlive'.mem_iff.2 List.mem_cons_self, hi⟩

/-- The second half of a move: the block `c` was allocated for the payload of `b`. -/
theorem copy_follows {o' : Outline} {h' : Heap} {c : Block} (ho : o.Outlines h)
    (ho' : o'.Outlines h') (hsame : h.Same o.map.Kept h') (hbase : o'.base = o.base)
    (hfirst : o'.map.first = o.map.first) (hlive : o'.map.live.Perm (c :: o.map.live))
    (hb : b ∈ o.map.blocks) (ha : b.allocated = true) (hold : old.size = b.size)
    (hroom : size + 8 ≤ c.size) :
    Follows full (do
      let newBp ← offsetOf (o.base + c.offset)
      let payload ← Word.sub old.size wordSize
      updateArena (·.copyWithin b.offset (min payload size) newBp)
      freeBlock b.offset
      emit (.moved b.offset newBp (min payload size))
      pure (o.base + c.offset)) h'
      (.ok (o.base + c.offset), o'.release b.offset)
      (Resized o b size (.ok (o.base + c.offset)) h) := by
  have hv := ho.valid.map
  have hv' := ho'.valid.map
  obtain ⟨hc, hca⟩ := Block.mem_live.1 (hlive.mem_iff.2 List.mem_cons_self)
  obtain ⟨hb', -⟩ := hv.live_release_of_perm hv' hb ha hlive
  have hbb := hv'.tiles.bounds hb'
  have hcb := hv'.tiles.bounds hc
  have hbl : b ∈ o.map.live := Block.mem_live.2 ⟨hb, ha⟩
  have hsize : h'.arena.size = o'.map.stop := ho'.describes.size
  have hlim := ho'.describes.stop_lt
  obtain ⟨n, hn⟩ : ∃ n, n = min (b.size - 8) size := ⟨_, rfl⟩
  obtain ⟨a, hcopy, hch, hbytes⟩ := Arena.copyWithin_exists (a := h'.arena) (i := b.offset)
    (j := c.offset) (n := n) (by omega) (by omega) (by omega)
  have htarget : ∀ k, c.offset ≤ k ∧ k < c.offset + n → c.Holds k := fun k hk =>
    ⟨hca, hk.1, by omega⟩
  have ho2 := ho'.congr hch fun k hk _ => .inr ⟨c, hc, htarget k hk⟩
  have hoff := run_offsetOf_block ho' hc
  rw [hbase] at hoff
  have hsub : Word.sub old.size wordSize = .ok (b.size - 8) := by
    rw [hold]; exact Word.sub_of_le (by simp only [wordSize]; omega)
  rw [hn] at hcopy
  refine .step hoff (.step (run_ofChecked hsub) (.step (run_updateArena hcopy) ?_))
  refine (freeBlock_follows ho2 hb' ha).bind_ok ?_
  intro h'' ho'' hsame'
  have hkept : ∀ i, (o.map.release b.offset).Kept i ∨ c.Holds i →
      (o'.map.release b.offset).Kept i :=
    fun i hi => kept_release_of_perm hv hv' hfirst hlive hb ha hi
  refine .of_run (k := h'') rfl ho'' ⟨?_, ?_⟩
  · intro i hi
    have hout : ¬(c.offset ≤ i ∧ i < c.offset + n) := by
      intro hin
      have hi' := ho.valid.map.kept_of_release hb ha hi
      rcases MemoryMap.kept_iff.1 hi' with hi | ⟨d, hd, -, hd1, hd2⟩
      · omega
      · have := hv'.apart_of_perm hlive d hd
        have := htarget i hin
        omega
    calc h''.arena.byte i
      _ = a.byte i := hsame' i (hkept i (.inl hi))
      _ = h'.arena.byte i := hch.byte i hout
      _ = h.arena.byte i := hsame i (ho.valid.map.kept_of_release hb ha hi)
  · intro i hi
    rw [← hn] at hi
    rw [Nat.add_sub_cancel_left]
    calc h''.arena.byte (c.offset + i)
      _ = a.byte (c.offset + i) :=
        hsame' _ (hkept _ (.inr (htarget _ ⟨Nat.le_add_right .., by omega⟩)))
      _ = h'.arena.byte (b.offset + i) := hbytes i hi
      _ = h.arena.byte (b.offset + i) :=
        hsame _ (.inr ⟨b, hb, ha, Nat.le_add_right .., by omega⟩)

theorem move_follows (ho : o.Outlines h) (hfull : Word.limit ≤ o.stats.allocs + 1 → full)
    (hb : b ∈ o.map.blocks) (ha : b.allocated = true) (hold : old.size = b.size) :
    Follows full (move b.offset old size) h (o.move b.offset size)
      (Resized o b size (o.move b.offset size).1 h) := by
  have halloc := allocate_follows size ho hfull
  unfold move
  rcases Outline.allocate_cases ho.valid.map size with ⟨e, o', hx, -, -⟩ |
    ⟨need, o', c, hneed, -, hx, hext, hv', hc, hcf, hs⟩
  · have hm : o.move b.offset size = (.error e, o') := by rw [Outline.move, hx]
    rw [hx] at halloc
    rw [hm]
    exact halloc.bind_error fun h' hsame => resized_of_error ho.valid.map hb ha hsame
  obtain ⟨-, -, hroom⟩ := blockSize?_spec hneed
  have hm : o.move b.offset size =
      (.ok (o.base + c.offset), (o'.place c.offset need).release b.offset) := by
    rw [Outline.move, hx]
  rw [hx] at halloc
  rw [hm]
  refine halloc.bind_ok ?_
  intro h1 ho1 hsame
  -- the new block is allocated in addition to those there were
  have hlive := hv'.live_place (n := need) hc hcf
  rw [hext.live] at hlive
  have hplaced := Gap.le_placed (g := o'.map.gapAt c.offset) (n := need)
    (by rw [hv'.gapAt_size hc]; exact hs)
  exact copy_follows (c := ⟨c.offset, _, true⟩) ho ho1 hsame hext.base
    ((hv'.first_place hc).trans hext.first) hlive hb ha hold
    (Nat.le_trans hroom hplaced.1)

/-! ### Resizing -/

theorem countReallocation_follows (ho : o.Outlines h)
    (hfull : Word.limit ≤ o.stats.reallocs + 1 → full) :
    Follows full (updateStats (·.recordReallocation)) h (.ok (), o.countReallocation)
      (· = h.withStats o.countReallocation.stats) := by
  by_cases hlt : o.stats.reallocs + 1 < Word.limit
  · have hrec : h.stats.recordReallocation = .ok o.countReallocation.stats := by
      rw [ho.stats, Stats.recordReallocation_eq hlt]; rfl
    refine .of_run (run_updateStats hrec) ?_ rfl
    exact ⟨ho.valid.countReallocation hlt, ho.describes, ho.base, ho.source, ho.config, ho.first,
      rfl⟩
  · refine .inl ⟨hfull (by omega), run_updateStats_of_fault ?_⟩
    rw [ho.stats]
    exact Stats.recordReallocation_of_le (by omega)

theorem countInPlace_follows (ho : o.Outlines h)
    (hlt : o.stats.inPlaceReallocs < o.stats.reallocs) :
    Follows full (updateStats (·.recordInPlace)) h (.ok (), o.countInPlace)
      (· = h.withStats o.countInPlace.stats) := by
  have hrec : h.stats.recordInPlace = .ok o.countInPlace.stats := by
    have := ho.valid.reallocs_lt
    rw [ho.stats, Stats.recordInPlace_eq (by omega)]; rfl
  refine .of_run (run_updateStats hrec) ?_ rfl
  exact ⟨ho.valid.countInPlace hlt, ho.describes, ho.base, ho.source, ho.config, ho.first, rfl⟩

theorem resize_follows (ho : o.Outlines h) (hfull : Word.limit ≤ o.stats.allocs + 1 → full)
    (hfull' : Word.limit ≤ o.stats.reallocs + 1 → full) (hb : b ∈ o.map.blocks)
    (ha : b.allocated = true) :
    Follows full (resize (o.base + b.offset) size) h (o.resize b.offset size)
      (Resized o b size (o.resize b.offset size).1 h) := by
  have hv := ho.valid.map
  have hz := hv.gapAt_size hb
  rw [resize, Outline.resize, hz, blockSize]
  refine .step (run_offsetOf_block ho hb) ?_
  rcases hneed : blockSize? size with _ | need
  · exact .of_run (k := h) (l := []) rfl ho ⟨.refl _ _, .refl _ _⟩
  obtain ⟨h32, h16, hroom⟩ := blockSize?_spec hneed
  have hheader := run_header (ho.describes.header_of_mem hv hb)
  rw [ha] at hheader
  refine .step (a := need) (l := []) rfl (.step hheader ?_)
  refine (countReallocation_follows ho hfull').bind_ok ?_
  intro h1 ho1 hh1
  replace ho1 : o.countReallocation.Outlines h1 := ho1
  subst hh1
  by_cases hle : need ≤ b.size
  · rw [if_pos hle]
    simp only [if_pos hle]
    refine (shrink_follows ho1 hb ha rfl h32 h16 hle).bind_ok ?_
    intro h2 ho2 hsame
    have hlt : o.stats.inPlaceReallocs < o.stats.reallocs + 1 :=
      Nat.lt_succ_of_le ho.valid.inPlace
    refine (countInPlace_follows ho2 hlt).bind_ok ?_
    intro h3 ho3 hh3
    subst hh3
    refine .of_run rfl ho3 (resized_in_place ?_)
    rintro i (hi | hi)
    · exact hsame i (hv.kept_trim hb ha hle (.inl hi))
    · exact hsame i (hv.kept_trim hb ha hle (.inr ⟨hi.1, by omega⟩))
  · rw [if_neg hle]
    simp only [if_neg hle]
    have hgrow : Follows full _ _ _ _ :=
      growInPlace_follows ho1 hb ha rfl h16 (Nat.lt_of_not_le hle)
    rcases Outline.growInPlace_cases ho1.valid.map hb ha need with
      ⟨e, o2, hg, -⟩ | hg | ⟨o2, hg, hx, -, -⟩ <;> rw [hg] at hgrow ⊢
    · exact hgrow.bind_error fun h2 hsame => resized_of_error hv hb ha hsame.1
    · refine hgrow.bind_ok ?_
      rintro h2 ho2 ⟨hsame, -⟩
      exact (move_follows ho2 hfull hb ha rfl).mono fun h3 hres => hres.of_same hv hb ha hsame
    · refine hgrow.bind_ok ?_
      rintro h2 ho2 ⟨hsame, -⟩
      have hlt : (o2.absorb b.offset need).stats.inPlaceReallocs <
          (o2.absorb b.offset need).stats.reallocs := by
        obtain ⟨k, hk⟩ := hx.stats
        simp only [Outline.absorb, hk]
        exact Nat.lt_succ_of_le ho.valid.inPlace
      refine (countInPlace_follows ho2 hlt).bind_ok ?_
      intro h3 ho3 hh3
      subst hh3
      refine .of_run rfl ho3 (resized_in_place ?_)
      rintro i (hi | hi)
      · exact hsame i (hv.kept_of_release hb ha hi)
      · exact hsame i (.inr ⟨b, hb, ha, hi.1, by omega⟩)

end HeapM

end SegregatedFit
