import SegregatedFit.Proofs.Accounting
import SegregatedFit.Proofs.Configuration
import SegregatedFit.Proofs.Contents
import SegregatedFit.Proofs.RoundTrip
import SegregatedFit.Proofs.Validation

/-!
# Taking over a used provider

A provider may have given out bytes before a heap is laid out in the bytes behind them, and the new
bytes may hold anything. The heap asks for what is missing to the next multiple of the alignment,
for its prologue and for one chunk, which is then its only block (`Heap.TakesOver`). The bytes in
front of the prologue stay as they were for as long as the heap is in use (`Heap.create_takesOver`).
-/

namespace SegregatedFit

/-! ### What a new heap asks for -/

namespace Provider

/-- All requests are granted, one after another. -/
def Grants (p : Provider) : List Nat → Prop
  | [] => True
  | n :: ns => (p.grow n).2 = .ok p.arena.size ∧ (p.grow n).1.Grants ns

/-- Where the prologue of a new heap starts: at the next multiple of the alignment. -/
def prologueStart (p : Provider) : Nat := ceilAligned p.arena.size

/-- What is missing to the prologue, if something is, the prologue and the first chunk. -/
def growths (p : Provider) (config : Config) : List Nat :=
  (if p.arena.size < p.prologueStart then [p.prologueStart - p.arena.size] else []) ++
    [prologueSize, config.chunkSize]

variable {p q : Provider} {config : Config} {n : Nat} {ns : List Nat}

theorem le_prologueStart (p : Provider) : p.arena.size ≤ p.prologueStart := le_ceilAligned _

theorem grow_of_grants (h : p.Grants (n :: ns)) :
    p.grow n = ((p.grow n).1, .ok p.arena.size) ∧ (p.grow n).1.arena = p.arena.extend n ∧
      (p.grow n).1.Grants ns := by
  have hg : p.grow n = ((p.grow n).1, .ok p.arena.size) := Prod.ext rfl h.1
  exact ⟨hg, (grow_ok hg).2, h.2⟩

theorem Grants.arena_asked (h : p.Grants ns) : (p.asked ns).arena = p.arena.extend ns.sum := by
  induction ns generalizing p with
  | nil => rfl
  | cons n ns ih =>
    obtain ⟨-, harena, hns⟩ := grow_of_grants h
    rw [asked, ih hns, harena, List.sum_cons]
    simp only [Arena.extend, Nat.add_assoc]

/-- A meter has seen requests that were granted. -/
theorem Grants.metered {refuse : Nat → Option Error} {k : Nat} {granted : List Nat} {inner : Source}
    (h : p.Grants ns) (hs : p.source = .metered refuse k granted inner) :
    ∃ inner', (p.asked ns).source = .metered refuse (k + ns.length) (granted ++ ns) inner' := by
  induction ns generalizing p k granted inner with
  | nil => exact ⟨inner, by simpa [asked] using hs⟩
  | cons n ns ih =>
    obtain ⟨_, inner', hgrow, hgranted⟩ := grow_metered hs n
    rw [hgranted _ h.1] at hgrow
    obtain ⟨inner'', hns⟩ := ih h.2 hgrow
    exact ⟨inner'', by rw [asked, hns]; simp [Nat.add_comm, Nat.add_left_comm]⟩

/-- A buffer grants what there is room for. -/
theorem grants_buffer_iff {capacity : Nat} (hs : p.source = .buffer capacity) :
    p.Grants ns ↔ ns.sum ≤ capacity - p.arena.size := by
  induction ns generalizing p with
  | nil => simp [Grants]
  | cons n ns ih =>
    obtain ⟨hsource, hresult⟩ := grow_of_buffer hs n
    rw [Grants, ih hsource, hresult, List.sum_cons]
    by_cases hn : n ≤ capacity - p.arena.size
    · rw [if_pos hn]
      obtain ⟨q, hq, -, hqa⟩ := grow_buffer hs hn
      rw [hq, hqa]
      simp only [Arena.extend, true_and]
      omega
    · rw [if_neg hn]
      simp only [reduceCtorEq, false_and, false_iff]
      omega

theorem sum_growths (p : Provider) (config : Config) :
    p.arena.size + (p.growths config).sum = p.prologueStart + prologueSize + config.chunkSize := by
  have hle := p.le_prologueStart
  rw [growths, List.sum_append]
  split <;> simp <;> omega

/-- A heap fits into a buffer that has room for prologue and chunk behind the used bytes. -/
theorem grants_growths_iff {capacity : Nat} (hs : p.source = .buffer capacity) :
    p.Grants (p.growths config) ↔ p.prologueStart + prologueSize + config.chunkSize ≤ capacity := by
  have hsum := p.sum_growths config
  have hprologue : prologueSize ≤ (p.growths config).sum := by
    rw [growths, List.sum_append, List.sum_cons]
    omega
  rw [grants_buffer_iff hs]
  simp only [prologueSize] at *
  omega

theorem request_of_grow {x : Nat} (h : p.grow n = (q, .ok x)) :
    p.source.request p.arena.base p.arena.size n = (q.source, .ok ()) := by
  obtain ⟨a, source⟩ := p
  simp only [grow] at h
  split at h <;> cases h
  assumption

theorem grants_cons_of_grow {x : Nat} (h : p.grow n = (q, .ok x)) (hq : q.Grants ns) :
    p.Grants (n :: ns) := by
  obtain ⟨rfl, -⟩ := grow_ok h
  exact ⟨by rw [h], by rw [h]; exact hq⟩

theorem grow_of_request {source : Source}
    (h : p.source.request p.arena.base p.arena.size n = (source, .ok ())) :
    p.grow n = (⟨p.arena.extend n, source⟩, .ok p.arena.size) := by
  obtain ⟨a, _⟩ := p
  simp only [grow, show Source.request a.base a.size n _ = _ from h]

/-- Padding and prologue were granted, and the chunk is granted next. -/
theorem grants_of_primed {x : Nat} (h : p.primed = (q, .ok x)) (hq : q.Grants [config.chunkSize]) :
    p.Grants (p.growths config) := by
  unfold growths prologueStart
  by_cases hlt : p.arena.size < ceilAligned p.arena.size
  · rw [primed_of_lt hlt] at h
    rw [if_pos hlt]
    rcases hg : p.grow (ceilAligned p.arena.size - p.arena.size) with ⟨p', e | y⟩ <;> rw [hg] at h
    · cases h
    · exact grants_cons_of_grow hg (grants_cons_of_grow h hq)
  · rw [primed_of_not_lt hlt] at h
    rw [if_neg hlt]
    exact grants_cons_of_grow h hq

/-- With padding and prologue granted, the chunk is next. -/
theorem primed_of_grants (h : p.Grants (p.growths config)) :
    ∃ q x, p.primed = (q, .ok x) ∧ q.arena = p.arena.extend (p.prologueStart - p.arena.size + 32) ∧
      q.grow config.chunkSize = (p.asked (p.growths config), .ok q.arena.size) := by
  unfold growths prologueStart at *
  by_cases hlt : p.arena.size < ceilAligned p.arena.size
  · rw [if_pos hlt] at h ⊢
    rw [primed_of_lt hlt]
    obtain ⟨hg, ha, h⟩ := grow_of_grants h
    obtain ⟨hg', ha', h⟩ := grow_of_grants h
    obtain ⟨hg'', -, -⟩ := grow_of_grants h
    rw [hg]
    refine ⟨_, _, hg', ?_, hg''⟩
    rw [ha', ha]
    simp only [Arena.extend, Nat.add_assoc, prologueSize]
  · rw [if_neg hlt] at h ⊢
    rw [primed_of_not_lt hlt]
    obtain ⟨hg, ha, h⟩ := grow_of_grants h
    obtain ⟨hg', -, -⟩ := grow_of_grants h
    refine ⟨_, _, hg, ?_, hg'⟩
    rw [ha, Nat.sub_eq_zero_of_le (Nat.not_lt.1 hlt), Nat.zero_add]
    rfl

end Provider

namespace Outline

variable {p : Provider} {config : Config}

theorem grants_of_create {o : Outline} (hv : config.validate.run = .ok (.ok ()))
    (h : create p config = .ok o) : p.Grants (p.growths config) := by
  obtain ⟨h32, h16, hlt⟩ := Config.chunkSize_of_validate hv
  obtain ⟨q, bp, x, hq, hx⟩ := create_eq_ok h
  refine Provider.grants_of_primed hq ?_
  rcases hr : q.source.request q.arena.base q.arena.size config.chunkSize with ⟨source, e | ⟨⟩⟩
  · rw [extend_of_refused h32 h16 hlt hr] at hx
    cases hx
  · exact Provider.grants_cons_of_grow (Provider.grow_of_request hr) trivial

/-- What is granted is the chunk that the only block of the new heap is. -/
theorem create_of_grants (hv : config.validate.run = .ok (.ok ()))
    (h : p.Grants (p.growths config)) :
    ∃ o : Outline, create p config = .ok o ∧ o.base = p.arena.base ∧
      o.source = (p.asked (p.growths config)).source ∧
      o.map.first = p.prologueStart + prologueSize ∧
      o.map.blocks = [⟨p.prologueStart + prologueSize, config.chunkSize, false⟩] ∧
      o.map.chains = Chains.push (fun _ => []) (sizeClass config.chunkSize)
        (p.prologueStart + prologueSize) := by
  obtain ⟨h32, h16, hlt⟩ := Config.chunkSize_of_validate hv
  obtain ⟨q, x, hq, ha, hchunk⟩ := Provider.primed_of_grants h
  have hsize : q.arena.size = p.prologueStart + prologueSize := by
    have hle := p.le_prologueStart
    rw [ha]
    simp only [Arena.extend, prologueSize]
    omega
  have hreq : (empty q config).source.request (empty q config).base (empty q config).map.stop
      config.chunkSize = ((p.asked (p.growths config)).source, .ok ()) :=
    Provider.request_of_grow hchunk
  rw [create, hq, firstChunk, extend_of_granted h32 h16 hlt hreq]
  refine ⟨_, rfl, ?_, rfl, ?_, ?_, ?_⟩
  · show q.arena.base = _
    rw [ha]; rfl
  · rw [MemoryMap.first_grow]
    exact hsize
  all_goals
    rw [MemoryMap.grow_eq, Gap.joinPrev_of_allocated (by simp [MemoryMap.added, empty]), ← hsize]
    rfl

end Outline

/-! ### What is in front of the prologue -/

namespace Heap

variable {p : Provider} {config : Config} {heap : Heap} {events : List Event}

theorem byte_of_create (hp : p.Sound) (hc : create p config = .ok ⟨.ok heap, events⟩) :
    ∀ i < p.prologueStart, heap.arena.byte i = p.arena.byte i := by
  obtain ⟨q, hq, hsize, hr⟩ := run_prologue_of_create hc
  have hqs : q.Sound ∧ ∀ i, q.arena.byte i = p.arena.byte i := by
    rcases hq with rfl | ⟨bp, hg⟩
    · exact ⟨hp, fun _ => rfl⟩
    · exact ⟨hp.grow hg, fun i => by rw [(Provider.grow_ok hg).2]; rfl⟩
  obtain ⟨bp, k₁, l₁, l₂, hgrow, hr₁, rfl⟩ := HeapM.run_bind_eq_ok_ok hr
  rcases hg : q.grow prologueSize with ⟨q', r⟩
  rw [HeapM.run_grow_eq (h := ⟨q, config, .empty, 0, {}⟩) hg] at hgrow
  cases hgrow
  obtain ⟨k, hw, ho, -, hbyte⟩ := HeapM.writePrologue_outlines config hqs.1
    (by rw [hsize]; exact dvd_ceilAligned _) hg
  obtain ⟨_, k₂, l₃, l₄, hprologue, hr₂, rfl⟩ := HeapM.run_bind_eq_ok_ok hr₁
  rw [hw] at hprologue
  cases hprologue
  obtain ⟨_, k₃, l₅, l₆, hextend, hr₃, rfl⟩ := HeapM.run_bind_eq_ok_ok hr₂
  have hfollows : HeapM.Follows False _ _ _ _ := HeapM.extend_follows ho config.chunkSize
  rcases hfollows with ⟨hf, -⟩ | ⟨k', l, hx, -, hsame⟩
  · cases hf
  obtain ⟨-, rfl, -⟩ := Outcome.mk.inj (Except.ok.inj (hextend.symm.trans hx))
  cases hr₃
  intro i hi
  rw [Provider.prologueStart, ← hsize] at hi
  have hfirst : (Outline.empty q' config).map.first = q.arena.size + 32 := by
    show q'.arena.size = _
    rw [(Provider.grow_ok hg).2]; rfl
  calc k₃.arena.byte i
    _ = k.arena.byte i := hsame i (.inl (by omega))
    _ = q.arena.byte i := hbyte i hi
    _ = p.arena.byte i := hqs.2 i

end Heap

namespace Session

variable {s t : Session} {o : Outline}

/-- No move changes what is in front of the first block's header. -/
theorem Outlined.byte_step {m : Move} (h : s.Outlined o) (hm : Step s m t) :
    ∃ o', t.Outlined o' ∧ o'.map.first = o.map.first ∧
      ∀ i, i + 8 < o.map.first → t.heap.arena.byte i = s.heap.arena.byte i := by
  have hv := h.outlines.valid.map
  cases hm with
  | call hc hr =>
    obtain ⟨-, hframe, h'⟩ := h.call hc hr
    exact ⟨_, h', (Call.effect hv (h.valid_call hc)).first, fun i hi => hframe.others i (.inl hi)⟩
  | write ha hu hn =>
    refine ⟨o, h.step_write ha hu hn, rfl, ?_⟩
    intro i hi
    obtain ⟨b, hb, rfl, rfl⟩ := h.exists_payload ha hu
    have := (hv.tiles.bounds (Block.mem_live.1 hb).1).1
    simp only [show s.heap.arena.base = o.base from h.outlines.base, Nat.add_sub_cancel_left]
    rw [h.byte_fill hb hn, if_neg (by omega)]
  | moveEnd hd =>
    refine ⟨_, h.moveEnd hd, rfl, ?_⟩
    intro i hi
    refine (Provider.moveEnd_spec hd).2.byte i ?_
    have := hv.tiles.le
    have hsize : s.heap.provider.arena.size = o.map.stop := h.outlines.describes.size
    omega

/-- So no run does. -/
theorem Outlined.byte_run {ms : List Move} (h : s.Outlined o) (hr : Run s ms t) :
    ∀ i, i + 8 < o.map.first → t.heap.arena.byte i = s.heap.arena.byte i := by
  induction hr generalizing o with
  | nil => exact fun _ _ => rfl
  | cons hm _ ih =>
    obtain ⟨o', h', hfirst, hbyte⟩ := h.byte_step hm
    intro i hi
    exact (ih h' i (by rw [hfirst]; exact hi)).trans (hbyte i hi)

end Session

/-! ### New heaps -/

namespace Heap

variable {p : Provider} {config : Config}

/-- `h` is a new heap behind the bytes that `p` has given out. Its source has been asked for just
what is needed, and its one block is free. -/
structure TakesOver (h : Heap) (p : Provider) (config : Config) : Prop where
  /-- The prologue starts at the first aligned offset behind the bytes in use. -/
  start : IsLeast (alignedFrom p.arena.size) p.prologueStart
  provider : (p.asked (p.growths config)).Akin h.provider
  /-- A meter has counted these requests, and has noted that they were granted. -/
  metered : ∀ refuse k granted inner, p.source = .metered refuse k granted inner →
    ∃ inner', h.provider.source = .metered refuse (k + (p.growths config).length)
      (granted ++ p.growths config) inner'
  blocks : h.blocks = .ok [⟨p.prologueStart + prologueSize, config.chunkSize, false⟩]
  chains : h.Lists fun c =>
    if c = sizeClass config.chunkSize then [p.prologueStart + prologueSize] else []
  size : h.size = p.prologueStart + prologueSize + config.chunkSize
  violations : h.violations = .ok []

/-- A heap comes out exactly if what it asks for is granted. -/
theorem create_exists_iff (hp : p.Sound) (hv : config.validate.run = .ok (.ok ())) :
    (∃ heap events, create p config = .ok ⟨.ok heap, events⟩) ↔ p.Grants (p.growths config) := by
  constructor
  · rintro ⟨heap, events, hc⟩
    obtain ⟨o, ho, -⟩ := outlines_of_create hp hc
    exact Outline.grants_of_create hv ho
  · intro h
    obtain ⟨o, ho, -⟩ := Outline.create_of_grants hv h
    rcases create_follows hp hv with ⟨e, _, he, -⟩ | ⟨_, heap, events, -, hc, -⟩
    · rw [ho] at he
      cases he
    · exact ⟨heap, events, hc⟩

/-- If what is needed is granted, a heap takes the provider over and never changes the bytes that
were given out before. -/
theorem create_takesOver (hp : p.Sound) (hv : config.validate.run = .ok (.ok ()))
    (h : p.Grants (p.growths config)) :
    ∃ heap events, create p config = .ok ⟨.ok heap, events⟩ ∧ heap.TakesOver p config ∧
      ∀ ms t, Session.Run (Session.start heap) ms t →
        ∀ i < p.prologueStart, t.heap.arena.byte i = p.arena.byte i := by
  obtain ⟨heap, events, hc⟩ := (create_exists_iff hp hv).2 h
  obtain ⟨o, ho, hbase, hsource, hfirst, hblocks, hchains⟩ := Outline.create_of_grants hv h
  obtain ⟨o', ho', hout⟩ := Session.outlined_start hp hc
  obtain rfl : o = o' := Except.ok.inj (ho.symm.trans ho')
  have hasked := h.arena_asked
  have hstop : o.map.stop = p.prologueStart + prologueSize + config.chunkSize := by
    rw [MemoryMap.stop, hfirst, hblocks]
    rfl
  have hsize : heap.size = o.map.stop := hout.size_eq
  have hsum := (p.sum_growths config).trans hstop.symm
  refine ⟨heap, events, hc,
    ⟨isLeast_ceilAligned _, ⟨?_, ?_, ?_⟩, ?_, ?_, ?_, ?_, hout.violations_eq⟩, ?_⟩
  · exact hout.outlines.source.trans hsource
  · rw [hasked]
    exact hout.outlines.base.trans hbase
  · rw [hasked]
    exact hsize.trans hsum.symm
  · intro refuse k granted inner hs
    obtain ⟨inner', hmetered⟩ := h.metered hs
    exact ⟨inner', (hout.outlines.source.trans hsource).trans hmetered⟩
  · rw [← hblocks]
    exact hout.blocks_eq
  · have hl := hout.lists
    rw [hchains] at hl
    exact hl
  · exact hsize.trans hstop
  · intro ms t hr i hi
    rw [hout.byte_run hr i (by rw [hfirst, prologueSize]; omega)]
    exact byte_of_create hp hc i hi

end Heap

/-- A metered buffer of which five bytes are used, and which is full of ones. -/
def Provider.dirty : Provider :=
  ⟨⟨24576, 5, ⟨.replicate 256 255⟩, ⟨1536, rfl⟩⟩, .metered (fun _ => none) 0 [] (.buffer 256)⟩

theorem Heap.dirty_takesOver : ∃ heap events, create .dirty ⟨64, 4096⟩ = .ok ⟨.ok heap, events⟩ ∧
    heap.TakesOver .dirty ⟨64, 4096⟩ ∧ Provider.dirty.growths ⟨64, 4096⟩ = [11, 32, 64] ∧
    ∀ ms t, Session.Run (Session.start heap) ms t → ∀ i < 16, t.heap.arena.byte i = 255 := by
  have hsound : Provider.dirty.Sound := by
    refine ⟨by decide, ⟨by rintro _ _ ⟨⟩, ?_⟩⟩
    show 24576 + 256 < Word.limit
    decide
  have hgrants : Provider.dirty.Grants (Provider.dirty.growths ⟨64, 4096⟩) :=
    ⟨rfl, rfl, rfl, trivial⟩
  obtain ⟨heap, events, hc, htakes, hbyte⟩ := create_takesOver hsound rfl hgrants
  refine ⟨heap, events, hc, htakes, rfl, ?_⟩
  intro ms t hr i hi
  have hones : ∀ i < 16, Provider.dirty.arena.byte i = 255 := by decide +kernel
  exact (hbyte ms t hr i hi).trans (hones i hi)

end SegregatedFit
