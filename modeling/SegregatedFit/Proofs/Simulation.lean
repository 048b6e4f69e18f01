import SegregatedFit.Proofs.Outline

/-!
# Heaps follow their outlines

`HeapM.Follows full x h y P` says that the operation `x` on the heap `h` comes to the result and the
outline that `y` gives, and that `P` holds of the heap it leaves behind. It may overflow a counter
only if `full` holds. Every operation follows the one of the same name on outlines, and leaves all
bytes that are kept as they are.
-/

namespace SegregatedFit

/-- Outline and heap agree. -/
structure Outline.Outlines (o : Outline) (h : Heap) : Prop where
  valid : o.Valid
  describes : o.map.Describes h.pool
  base : h.arena.base = o.base
  source : h.provider.source = o.source
  config : h.config = o.config
  first : h.firstBlock = o.map.first
  stats : h.stats = o.stats

namespace Heap

/-- The bytes of `s` are the same. -/
def Same (s : Nat → Prop) (h h' : Heap) : Prop :=
  ∀ i, s i → h'.arena.byte i = h.arena.byte i

theorem Same.refl (s : Nat → Prop) (h : Heap) : Same s h h := fun _ _ => rfl

theorem Same.trans {s t : Nat → Prop} {h h' h'' : Heap} (h1 : Same s h h') (h2 : Same t h' h'')
    (hst : ∀ i, s i → t i) : Same s h h'' :=
  fun i hi => (h2 i (hst i hi)).trans (h1 i hi)

/-- Other blocks and chains. -/
def withPool (h : Heap) (p : Pool) : Heap :=
  ⟨⟨p.arena, h.provider.source⟩, h.config, p.index, h.start, h.stats⟩

def withStats (h : Heap) (s : Stats) : Heap := { h with stats := s }

end Heap

theorem Outline.Outlines.congr {o : Outline} {h : Heap} {a : Arena} {s : Nat → Prop}
    (ho : o.Outlines h) (hc : Arena.Changed s h.arena a)
    (hs : ∀ k, s k → k < o.map.stop → o.map.Kept k) : o.Outlines (h.withPool ⟨a, h.index⟩) :=
  { ho with
    describes := ho.describes.congr ho.valid.map hc hs
    base := hc.base.trans ho.base }

namespace HeapM

variable {α β : Type} {full : Prop} {x : HeapM α} {f : α → HeapM β} {h k : Heap} {a : α}
  {l : List Event} {y : Except Error α × Outline} {z : Except Error β × Outline}
  {P Q : Heap → Prop}

/-- `x` comes to the result and the outline `y`, or overflows where that is allowed. -/
def Follows (full : Prop) (x : HeapM α) (h : Heap) (y : Except Error α × Outline)
    (P : Heap → Prop) : Prop :=
  full ∧ x.run h = .error .overflow ∨
    ∃ k l, x.run h = .ok ⟨y.1, k, l⟩ ∧ y.2.Outlines k ∧ P k

theorem Follows.mono (hx : Follows full x h y P) (hP : ∀ k, P k → Q k) :
    Follows full x h y Q :=
  hx.imp_right fun ⟨k, l, e, ho, hp⟩ => ⟨k, l, e, ho, hP k hp⟩

theorem Follows.of_run (hx : x.run h = .ok ⟨y.1, k, l⟩) (ho : y.2.Outlines k) (hP : P k) :
    Follows full x h y P :=
  .inr ⟨k, l, hx, ho, hP⟩

theorem Follows.step (hx : x.run h = .ok ⟨.ok a, k, l⟩) (hf : Follows full (f a) k z P) :
    Follows full (x >>= f) h z P := by
  rcases hf with ⟨hfull, hf⟩ | ⟨h'', events', hf, ho, hP⟩
  · exact .inl ⟨hfull, by rw [run_bind_of_ok hx, hf]; rfl⟩
  · exact .inr ⟨h'', l ++ events', by rw [run_bind_of_ok hx, hf]; rfl, ho, hP⟩

theorem Follows.overflow (hfull : full) (hx : x.run h = .error .overflow) :
    Follows full (x >>= f) h z P :=
  .inl ⟨hfull, run_bind_of_fault hx⟩

theorem Follows.bind (hx : Follows full x h y P)
    (hok : ∀ a k, y.1 = .ok a → y.2.Outlines k → P k → Follows full (f a) k z Q)
    (herr : ∀ e k, y.1 = .error e → P k → z = (.error e, y.2) ∧ Q k) :
    Follows full (x >>= f) h z Q := by
  rcases hx with ⟨hfull, hx⟩ | ⟨k, l, hx, ho, hP⟩
  · exact .overflow hfull hx
  · obtain ⟨r, o⟩ := y
    rcases r with e | a
    · obtain ⟨rfl, hQ⟩ := herr e k rfl hP
      exact .of_run (run_bind_of_error hx) ho hQ
    · exact .step hx (hok a k rfl ho hP)

theorem Follows.bind_ok {o : Outline} (hx : Follows full x h (.ok a, o) P)
    (hf : ∀ k, o.Outlines k → P k → Follows full (f a) k z Q) : Follows full (x >>= f) h z Q := by
  refine hx.bind ?_ ?_
  · rintro _ k ⟨⟩ ho hP
    exact hf k ho hP
  · rintro _ k ⟨⟩

theorem Follows.bind_error {e : Error} {o : Outline} (hx : Follows full x h (.error e, o) P)
    (hPQ : ∀ k, P k → Q k) : Follows full (x >>= f) h (.error e, o) Q := by
  refine hx.bind ?_ ?_
  · rintro _ k ⟨⟩
  · rintro _ k ⟨⟩ hP
    exact ⟨rfl, hPQ k hP⟩

/-! ### Single steps -/

theorem run_updatePool {f : Pool → Except Fault (α × Pool)} {p : Pool}
    (hf : f h.pool = .ok (a, p)) : (updatePool f).run h = .ok ⟨.ok a, h.withPool p, []⟩ := by
  obtain ⟨⟨arena, source⟩, config, index, start, stats⟩ := h
  replace hf : f ⟨arena, index⟩ = .ok (a, p) := hf
  simp only [run, updatePool, hf]; rfl

theorem run_updateArena {f : Arena → Except Fault Arena} {a : Arena} (hf : f h.arena = .ok a) :
    (updateArena f).run h = .ok ⟨.ok (), h.withPool ⟨a, h.index⟩, []⟩ :=
  run_updatePool (by rw [show h.pool = ⟨h.arena, h.index⟩ from rfl]; simp only [hf, ok_bind]; rfl)

theorem run_updateStats {f : Stats → Except Fault Stats} {s : Stats} (hf : f h.stats = .ok s) :
    (updateStats f).run h = .ok ⟨.ok (), h.withStats s, []⟩ := by
  simp only [run, updateStats, hf]; rfl

theorem run_updateStats_of_fault {f : Stats → Except Fault Stats} {fault : Fault}
    (hf : f h.stats = .error fault) : (updateStats f).run h = .error fault := by
  simp only [run, updateStats, hf]

theorem run_header {bp : Nat} {t : Tag} (ht : h.arena.header bp = .ok t) :
    (header bp).run h = .ok ⟨.ok t, h, []⟩ := by
  simp only [run, header, ask, ht]; rfl

theorem run_ofChecked {c : Except Fault α} (hc : c = .ok a) :
    (ofChecked c).run h = .ok ⟨.ok a, h, []⟩ := by
  rw [hc]; rfl

variable {o : Outline} {b : Block} {bytes need size : Nat}

theorem offsetOf_eq (ho : o.Outlines h) (hb : b ∈ o.map.blocks) :
    h.offsetOf (o.base + b.offset) = pure b.offset := by
  have hbb := ho.valid.map.tiles.bounds hb
  have hsize : h.size = o.map.stop := ho.describes.size
  have hsub : o.base + b.offset - h.arena.base = b.offset := by rw [ho.base]; omega
  rw [Heap.offsetOf, Heap.address, Heap.address, ho.first, hsize, hsub, ho.base, if_pos]
  omega

theorem run_ask {g : Heap → Fallible α} (hg : (g h).run = .ok (.ok a)) :
    (ask g).run h = .ok ⟨.ok a, h, []⟩ := by
  simp only [run, ask, hg]

theorem run_offsetOf_block (ho : o.Outlines h) (hb : b ∈ o.map.blocks) :
    (offsetOf (o.base + b.offset)).run h = .ok ⟨.ok b.offset, h, []⟩ :=
  run_ask (by rw [offsetOf_eq ho hb]; rfl)

/-! ### Growing -/

theorem run_grow {n : Nat} {source : Source}
    (hr : h.provider.source.request h.arena.base h.size n = (source, .ok ())) :
    (grow n).run h = .ok ⟨.ok h.size,
      { h with provider := ⟨h.arena.extend n, source⟩ }, []⟩ := by
  obtain ⟨⟨arena, s⟩, config, index, start, stats⟩ := h
  replace hr : s.request arena.base arena.size n = _ := hr
  simp only [run, grow, Provider.grow, hr]; rfl

theorem run_grow_of_error {n : Nat} {source : Source} {e : Error}
    (hr : h.provider.source.request h.arena.base h.size n = (source, .error e)) :
    (grow n).run h = .ok ⟨.error e, { h with provider := ⟨h.arena, source⟩ }, []⟩ := by
  obtain ⟨⟨arena, s⟩, config, index, start, stats⟩ := h
  replace hr : s.request arena.base arena.size n = _ := hr
  simp only [run, grow, Provider.grow, hr]; rfl

theorem run_tryCatch_of_ok {g : Error → HeapM α} (hx : x.run h = .ok ⟨.ok a, k, l⟩) :
    (tryCatch x g).run h = .ok ⟨.ok a, k, l⟩ := by
  show HeapM.tryCatch x g h = _
  rw [HeapM.tryCatch, show x h = _ from hx]

theorem run_tryCatch_of_error {g : Error → HeapM α} {e : Error}
    (hx : x.run h = .ok ⟨.error e, k, l⟩) :
    (tryCatch x g).run h = ((g e).run k).map (·.after l) := by
  show HeapM.tryCatch x g h = _
  rw [HeapM.tryCatch, show x h = _ from hx]
  rfl

theorem extend_follows (ho : o.Outlines h) (bytes : Nat) :
    Follows full (extend bytes) h (o.extend bytes) (h.Same o.map.Kept) := by
  have hsize : h.size = o.map.stop := ho.describes.size
  have hv := ho.valid.extend bytes
  unfold extend growthSize
  rcases hk : alignUp? bytes with _ | k
  · have hx : o.extend bytes = (.error .sizeOverflow, o) := by rw [Outline.extend, hk]
    rw [hx]
    exact .of_run (k := h) (l := []) rfl ho (.refl _ _)
  refine .step (a := max k minBlockSize) (l := []) rfl ?_
  have h32 : 32 ≤ max k minBlockSize := Nat.le_max_right ..
  have h16 := dvd_max_minBlockSize (alignUp?_spec hk).1
  have hx := Outline.extend.eq_1 o bytes
  simp only [hk] at hx
  generalize max k minBlockSize = n at h32 h16 hx ⊢
  have hreq : h.provider.source.request h.arena.base h.size n =
      o.source.request o.base o.map.stop n := by rw [ho.source, ho.base, hsize]
  rcases hr : o.source.request o.base o.map.stop n with ⟨source, e | ⟨⟩⟩ <;>
    simp only [hr] at hx <;> rw [hx] at hv ⊢
  · refine .of_run (k := { h with provider := ⟨h.arena, source⟩ })
      (l := [.extensionFailed n e]) ?_ ?_ (.refl _ _)
    · rw [run_bind_of_error]
      rw [run_tryCatch_of_error (run_grow_of_error (hreq.trans hr))]
      rfl
    · exact ⟨hv, ho.describes, ho.base, rfl, ho.config, ho.first, ho.stats⟩
  · have hstop := ho.valid.map.stop_grow h32 h16
    have hlt : o.map.stop + n < Word.limit := by
      have := hv.addressable
      replace this : o.base + (o.map.grow n).stop < _ := this
      omega
    have hext : h.stats.recordExtension = .ok o.stats.extended := by
      have := ho.valid.extensions
      rw [ho.stats, Stats.recordExtension_eq (by omega)]
    obtain ⟨p, hp, hd, hc⟩ := Pool.adopt_exists ho.describes ho.valid.map h32 h16 hlt
    refine .step (run_tryCatch_of_ok (run_grow (hreq.trans hr))) ?_
    refine .step (run_updateStats hext) (.step (run_updatePool (a := (o.map.added n).merge)
      (p := p) (by rw [hsize]; exact hp)) ?_)
    refine .of_run (k := _) rfl ⟨hv, hd, ?_, rfl, ho.config,
      ho.first.trans MemoryMap.first_grow.symm, rfl⟩ ?_
    · exact hc.base.trans ho.base
    · intro i hi
      exact hc.byte i (not_not.2 hi)

/-! ### Allocating -/

theorem findOrExtend_follows (ho : o.Outlines h) (need : Nat) :
    Follows full (findOrExtend need) h (o.findOrExtend need) (h.Same o.map.Kept) := by
  have hfit := ho.describes.firstFit_eq (n := need) ho.valid.map
  unfold findOrExtend Outline.findOrExtend
  refine .step (run_ask (a := o.map.firstFit need) (by rw [hfit]; rfl)) ?_
  rcases o.map.firstFit need with _ | bp
  · refine .step (run_ask (a := o.config) (by rw [ho.config]; rfl)) ?_
    exact extend_follows ho _
  · exact .of_run (k := h) (l := []) rfl ho (.refl _ _)

/-- Placing is what is left to do when a block was found. -/
theorem place_follows (size : Nat) (ho : o.Outlines h) (hfull : Word.limit ≤ o.stats.allocs + 1 → full)
    (hb : b ∈ o.map.blocks) (hf : b.allocated = false) (hn : 32 ≤ need) (hn' : 16 ∣ need)
    (hs : need ≤ b.size) :
    Follows full (do
      updatePool fun p => do
        let p ← p.place b.offset need
        pure ((), p)
      let placed ← header b.offset
      updateStats (·.recordAllocation placed.size)
      emit (.allocated size need placed.size b.offset)
      ask fun h => pure (h.address b.offset)) h
      (.ok (o.base + b.offset), o.place b.offset need) (h.Same o.map.Kept) := by
  obtain ⟨p, hp, hd, hc⟩ := Pool.place_exists ho.describes ho.valid.map hb hf hn hn' hs
  have hv := ho.valid.map.place (n := need) hb hf hn hn'
  have hmem : ⟨b.offset, (o.map.gapAt b.offset).placed need, true⟩ ∈
      (o.map.place b.offset need).blocks :=
    (Block.mem_live.1 ((ho.valid.map.live_place hb hf).mem_iff.2 List.mem_cons_self)).1
  refine .step (run_updatePool (a := ()) (p := p) (by rw [hp]; rfl)) ?_
  have hh := hd.header_of_mem hv hmem
  refine .step (run_header (h := h.withPool p) hh) ?_
  by_cases hlt : o.stats.allocs + 1 < Word.limit
  · have hvo := ho.valid.place hb hf hn hn' hs hlt
    have hrec : h.stats.recordAllocation ((o.map.gapAt b.offset).placed need) =
        .ok (o.place b.offset need).stats := by
      rw [ho.stats]
      exact Stats.recordAllocation_eq hlt hvo.liveBytes_lt
    refine .step (run_updateStats (h := h.withPool p) hrec) (.step (a := ()) rfl ?_)
    have hbase : p.arena.base = o.base := hc.base.trans ho.base
    refine .of_run (k := (h.withPool p).withStats (o.place b.offset need).stats) (l := [])
      (run_ask ?_) ⟨hvo, hd, hbase, ho.source, ho.config, ?_, rfl⟩ ?_
    · show _ = Except.ok (Except.ok (o.base + b.offset))
      rw [← hbase]; rfl
    · exact ho.first.trans (ho.valid.map.first_place hb).symm
    · intro i hi
      exact hc.byte i (not_not.2 hi)
  · refine .overflow (hfull (by omega)) (run_updateStats_of_fault ?_)
    rw [show (h.withPool p).stats = h.stats from rfl, ho.stats]
    exact Stats.recordAllocation_of_le (by omega)

theorem allocate_follows (size : Nat) (ho : o.Outlines h) (hfull : Word.limit ≤ o.stats.allocs + 1 → full) :
    Follows full (allocate size) h (o.allocate size) (h.Same o.map.Kept) := by
  unfold allocate Outline.allocate
  by_cases h0 : size = 0
  · rw [if_pos h0, if_pos h0]
    exact .of_run (k := h) (l := []) rfl ho (.refl _ _)
  rw [if_neg h0, if_neg h0, blockSize]
  rcases hn : blockSize? size with _ | need
  · exact .of_run (k := h) (l := []) rfl ho (.refl _ _)
  obtain ⟨h32, h16, -⟩ := blockSize?_spec hn
  have hfind : Follows full _ h _ _ := findOrExtend_follows ho need
  have hx := Outline.extends_findOrExtend ho.valid.map need
  have hm := fun bp (h : (o.findOrExtend need).1 = .ok bp) =>
    Outline.mem_of_findOrExtend ho.valid.map h
  refine .step (a := need) (l := []) rfl ?_
  rcases hf : o.findOrExtend need with ⟨r, o'⟩
  simp only [hf] at hfind hx hm ⊢
  refine hfind.bind ?_ ?_
  · intro bp h' hbp ho' hsame
    obtain rfl : r = .ok bp := hbp
    obtain ⟨b, hb, hbf, rfl, hs⟩ := hm bp rfl
    obtain ⟨k, hk⟩ := hx.stats
    refine (place_follows size ho' (fun hle => hfull ?_) hb hbf h32 h16 hs).mono ?_
    · rwa [show o'.stats = _ from hk] at hle
    · intro h'' hsame'
      exact hsame.trans hsame' fun i hi => hx.kept.2 hi
  · intro e h' he hsame
    obtain rfl : r = .error e := he
    exact ⟨rfl, hsame⟩

/-! ### Freeing -/

theorem freeBlock_follows (ho : o.Outlines h) (hb : b ∈ o.map.blocks) (ha : b.allocated = true) :
    Follows full (freeBlock b.offset) h (.ok (), o.release b.offset)
      (h.Same (o.map.release b.offset).Kept) := by
  have hvg := ho.valid.map.gapAt hb
  have hvo := ho.valid.release hb ha
  have hd := ho.describes
  rw [← ho.valid.map.fillWhole_gapAt hb ha] at hd
  have hdg := Gap.Describes.of_fillWhole hd hvg
  have hh := Gap.header_of_fillWhole hd hvg
  obtain ⟨p, hp, hd', hc⟩ := Pool.mergeFree_exists (a := h.provider.arena) (x := h.index) hdg hvg
  rw [ho.valid.map.gapAt_offset hb] at hp hh
  have hrec : h.stats.recordFree (o.map.gapAt b.offset).size = .ok (o.release b.offset).stats := by
    have hlive := ho.valid.map.live_release hb ha
    have hcount := ho.valid.count
    have hlt := ho.valid.allocs_lt
    have hbytes := ho.valid.live
    rw [hlive.length_eq, List.length_cons] at hcount
    rw [Block.totalSize_perm hlive, Block.totalSize] at hbytes
    rw [ho.stats]
    refine Stats.recordFree_eq (by omega) ?_
    rw [ho.valid.map.gapAt_size hb]; omega
  refine .step (run_header hh) (.step (run_updatePool (p := p) hp) ?_)
  refine .step (k := h.withPool p) (a := (o.map.gapAt b.offset).merge.offset) rfl ?_
  refine .step (run_updateStats (h := h.withPool p) hrec) ?_
  refine .of_run (k := (h.withPool p).withStats (o.release b.offset).stats) rfl
    ⟨hvo, hd', hc.base.trans ho.base, ho.source, ho.config, ?_, rfl⟩ ?_
  · exact ho.first.trans (ho.valid.map.first_release hb).symm
  · intro i hi
    exact hc.byte i (not_not.2 (Gap.kept_fillMerged.1 hi))

end HeapM

end SegregatedFit
