import SegregatedFit.Proofs.Calls

/-!
# New heaps

A heap is laid out behind the bytes that its provider has given out already. Whatever those are, and
whatever is in the new ones, what comes out is what the same steps give on outlines
(`create_follows`): an error, or a heap with a valid outline without allocated blocks, the two words
of whose prologue are in place.
-/

namespace SegregatedFit

/-! ### Providers -/

/-- The bytes that the provider has given out have addresses, and its source is sound. -/
structure Provider.Sound (p : Provider) : Prop where
  used : p.arena.base + p.arena.size < Word.limit
  source : p.source.Sound p.arena.base

theorem Provider.Sound.grow {p q : Provider} {n : Nat} {r : Except Error Nat}
    (hp : p.Sound) (h : p.grow n = (q, r)) : q.Sound := by
  obtain ⟨a, source⟩ := p
  have hs := hp.source.request a.size n
  unfold Provider.grow at h
  rcases hr : source.request a.base a.size n with ⟨source', e | ⟨⟩⟩ <;> rw [hr] at hs <;>
    simp only [hr] at h <;> cases h
  · exact ⟨hp.used, hs⟩
  · exact ⟨hp.source.granted hp.used (by rw [hr]), hs⟩

/-- Asks for padding, where the bytes given out are not aligned, and for the prologue. -/
def Provider.primed (p : Provider) : Provider × Except Error Nat :=
  if 0 < HeapM.paddingFor p.arena.size then
    match p.grow (HeapM.paddingFor p.arena.size) with
    | (q, .error e) => (q, .error e)
    | (q, .ok _) => q.grow prologueSize
  else p.grow prologueSize

/-- The padding is what is missing to the next multiple of the alignment. -/
theorem Provider.primed_of_lt {p : Provider} (h : p.arena.size < ceilAligned p.arena.size) :
    p.primed =
      match p.grow (ceilAligned p.arena.size - p.arena.size) with
      | (q, .error e) => (q, .error e)
      | (q, .ok _) => q.grow prologueSize :=
  if_pos (Nat.sub_pos_of_lt h)

theorem Provider.primed_of_not_lt {p : Provider} (h : ¬p.arena.size < ceilAligned p.arena.size) :
    p.primed = p.grow prologueSize :=
  if_neg fun hpos => h (Nat.lt_of_sub_pos hpos)

theorem Provider.primed_spec {p q : Provider} {bp : Nat} (h : p.primed = (q, .ok bp)) :
    32 ≤ q.arena.size ∧ 16 ∣ q.arena.size := by
  have h16 := dvd_ceilAligned p.arena.size
  have hle := le_ceilAligned p.arena.size
  have hsize : ∀ {p q : Provider} {n x : Nat}, p.grow n = (q, .ok x) →
      q.arena.size = p.arena.size + n := fun h => by rw [(Provider.grow_ok h).2]; rfl
  simp only [alignment] at h16
  by_cases hlt : p.arena.size < ceilAligned p.arena.size
  · rw [primed_of_lt hlt] at h
    rcases hg : p.grow (ceilAligned p.arena.size - p.arena.size) with ⟨p', e | x⟩ <;> rw [hg] at h
    · cases h
    · rw [hsize h, hsize hg, prologueSize]; omega
  · rw [primed_of_not_lt hlt] at h
    rw [hsize h, prologueSize]; omega

/-! ### The prologue -/

namespace Arena

variable {a a' : Arena} {bp first : Nat}

/-- Header and footer of the prologue block, which lies before the block at `first`. -/
structure Prologue (a : Arena) (first : Nat) : Prop where
  header : a.word (first - 24) = Tag.prologue.pack
  footer : a.word (first - 16) = Tag.prologue.pack

theorem Prologue.congr (h : a.Prologue first) (hf : 32 ≤ first)
    (hb : ∀ i, i + 8 < first → a'.byte i = a.byte i) : a'.Prologue first :=
  ⟨(word_congr fun k hk => hb _ (by omega)).trans h.header,
    (word_congr fun k hk => hb _ (by omega)).trans h.footer⟩

theorem prologue_exists (h : bp + 32 ≤ a.size) (ha : a.size < Word.limit) :
    ∃ a', (do
        let a ← a.writeWord bp 0
        let a ← a.writeWord (bp + wordSize) Tag.prologue.pack
        let a ← a.writeWord (bp + 2 * wordSize) Tag.prologue.pack
        a.writeWord (bp + 3 * wordSize) (Tag.epilogue true).pack) = .ok a' ∧
      Changed (fun k => bp ≤ k ∧ k < bp + 32) a a' ∧ a'.Prologue (bp + 32) ∧
      a'.word (bp + 24) = (Tag.epilogue true).pack := by
  obtain ⟨a1, e1, c1, -⟩ := writeWord_exists (i := bp) (w := 0) (by omega) ha (by decide)
  obtain ⟨a2, e2, c2, w2⟩ := writeWord_exists (a := a1) (i := bp + 8) (w := Tag.prologue.pack)
    (by rw [c1.size]; omega) (by rw [c1.size]; exact ha) (by decide)
  have s2 := c2.size.trans c1.size
  obtain ⟨a3, e3, c3, w3⟩ := writeWord_exists (a := a2) (i := bp + 16) (w := Tag.prologue.pack)
    (by rw [s2]; omega) (by rw [s2]; exact ha) (by decide)
  have s3 := c3.size.trans s2
  obtain ⟨a4, e4, c4, w4⟩ := writeWord_exists (a := a3) (i := bp + 24)
    (w := (Tag.epilogue true).pack) (by rw [s3]; omega) (by rw [s3]; exact ha) (by decide)
  refine ⟨a4, ?_, ?_, ⟨?_, ?_⟩, w4⟩
  · simp only [wordSize, Nat.reduceMul, e1, e2, e3, e4, ok_bind]
  · exact (c1.mono fun _ _ => by omega).trans ((c2.mono fun _ _ => by omega).trans
      ((c3.mono fun _ _ => by omega).trans (c4.mono fun _ _ => by omega)))
  · rw [show bp + 32 - 24 = bp + 8 by omega, c4.word fun k _ _ => by omega,
      c3.word fun k _ _ => by omega, w2]
  · rw [show bp + 32 - 16 = bp + 16 by omega, c4.word fun k _ _ => by omega, w3]

end Arena

namespace Outline

/-- No blocks yet: the arena of the provider ends with the prologue. -/
def empty (p : Provider) (config : Config) : Outline :=
  ⟨⟨p.arena.size, [], fun _ => []⟩, p.arena.base, p.source, config, {}⟩

/-- The outline of a new heap, with one chunk to start with. -/
def firstChunk (config : Config) : Provider × Except Error Nat → Except Error Outline
  | (_, .error e) => .error e
  | (p, .ok _) =>
    match (empty p config).extend config.chunkSize with
    | (.error e, _) => .error e
    | (.ok _, o) => .ok o

def create (p : Provider) (config : Config) : Except Error Outline :=
  firstChunk config p.primed

variable {p : Provider} {config : Config}

theorem empty_map_valid (h32 : 32 ≤ p.arena.size) (h16 : 16 ∣ p.arena.size) :
    (empty p config).map.Valid :=
  ⟨h32, h16, rfl, .nil, ⟨fun _ => List.nodup_nil, by simp [empty]⟩⟩

theorem empty_valid (hp : p.Sound) (h32 : 32 ≤ p.arena.size) (h16 : 16 ∣ p.arena.size) :
    (empty p config).Valid where
  map := empty_map_valid h32 h16
  addressable := hp.used
  source := hp.source
  live := rfl
  count := rfl
  allocs_lt := Nat.two_pow_pos 64
  reallocs_lt := Nat.two_pow_pos 64
  inPlace := Nat.le_refl _
  extensions := Nat.zero_le _

/-- A heap that comes out is the first chunk behind the prologue. -/
theorem create_eq_ok {o : Outline} (h : create p config = .ok o) :
    ∃ q bp x, p.primed = (q, .ok bp) ∧ (empty q config).extend config.chunkSize = (.ok x, o) := by
  unfold create at h
  rcases hp : p.primed with ⟨q, e | bp⟩ <;> rw [hp, firstChunk] at h
  · cases h
  · rcases hx : (empty q config).extend config.chunkSize with ⟨e | x, o'⟩ <;> rw [hx] at h <;>
      cases h
    exact ⟨q, bp, x, rfl, hx⟩

theorem empty_outlines {a : Arena} {used : Nat} (config : Config) (hp : p.Sound)
    (h32 : p.arena.size = used + 32) (h16 : 16 ∣ p.arena.size)
    (hc : Arena.Changed (fun k => used ≤ k ∧ k < used + 32) p.arena a)
    (hw : a.word (used + 24) = (Tag.epilogue true).pack) :
    (empty p config).Outlines ⟨⟨a, p.source⟩, config, .empty, used + 16, {}⟩ where
  valid := empty_valid hp (by omega) h16
  describes := by
    have hlt := hp.used
    refine ⟨hc.size, ?_, ?_, ⟨?_, fun c => trivial⟩⟩
    · show p.arena.size < _
      omega
    · refine ⟨?_, nofun, trivial⟩
      show a.word (p.arena.size - 8) = _
      rw [h32, show used + 32 - 8 = used + 24 by omega, hw]; rfl
    · intro c
      exact FreeIndex.head_empty
  base := hc.base
  source := rfl
  config := rfl
  first := h32.symm
  stats := rfl

end Outline

/-! ### Laying out -/

namespace HeapM

variable {α : Type} {x : HeapM α} {f : α → HeapM Unit} {h k : Heap} {a : α} {e : Error}
  {l : List Event} {y : Except Error Outline}

/-- `x` comes to the outline `y`, or to the error. -/
def LaysOut (x : HeapM Unit) (h : Heap) (y : Except Error Outline) : Prop :=
  ∃ h' l, x.run h = .ok ⟨y.map fun _ => (), h', l⟩ ∧
    ∀ o, y = .ok o → o.Outlines h' ∧ h'.arena.Prologue o.map.first

theorem LaysOut.step (hx : x.run h = .ok ⟨.ok a, k, l⟩) (hf : LaysOut (f a) k y) :
    LaysOut (x >>= f) h y := by
  obtain ⟨h', l', hf, ho⟩ := hf
  exact ⟨h', l ++ l', by rw [run_bind_of_ok hx, hf]; rfl, ho⟩

theorem LaysOut.stop (hx : x.run h = .ok ⟨.error e, k, l⟩) : LaysOut (x >>= f) h (.error e) :=
  ⟨k, l, run_bind_of_error hx, nofun⟩

theorem run_grow_eq {q : Provider} {n : Nat} {r : Except Error Nat}
    (hg : h.provider.grow n = (q, r)) : (grow n).run h = .ok ⟨r, { h with provider := q }, []⟩ := by
  obtain ⟨provider, config, index, start, stats⟩ := h
  simp only [run, grow, show provider.grow n = (q, r) from hg]

theorem run_writePrologue (bp : Nat) (hs : bp + 32 ≤ h.arena.size)
    (hlt : h.arena.size < Word.limit) :
    ∃ a, (writePrologue bp).run h =
        .ok ⟨.ok (), ⟨⟨a, h.provider.source⟩, h.config, h.index, bp + 16, h.stats⟩, []⟩ ∧
      Arena.Changed (fun k => bp ≤ k ∧ k < bp + 32) h.arena a ∧ a.Prologue (bp + 32) ∧
      a.word (bp + 24) = (Tag.epilogue true).pack := by
  obtain ⟨a, e, hc, hp, hw⟩ := Arena.prologue_exists hs hlt
  exact ⟨a, (run_bind_of_ok (run_updateArena e)).trans rfl, hc, hp, hw⟩

variable {p : Provider} {config : Config}

/-- The prologue is written behind an aligned arena. There is no block yet. -/
theorem writePrologue_outlines {q : Provider} {bp : Nat} (config : Config) (hp : p.Sound)
    (h16 : 16 ∣ p.arena.size) (hg : p.grow prologueSize = (q, .ok bp)) :
    ∃ k, (writePrologue bp).run ⟨q, config, .empty, 0, {}⟩ = .ok ⟨.ok (), k, []⟩ ∧
      (Outline.empty q config).Outlines k ∧
      k.arena.Prologue (Outline.empty q config).map.first ∧
      ∀ i < p.arena.size, k.arena.byte i = p.arena.byte i := by
  obtain ⟨rfl, hqa⟩ := Provider.grow_ok hg
  have hsize : q.arena.size = p.arena.size + 32 := by rw [hqa]; rfl
  have hq := hp.grow hg
  have hlt := hq.used
  obtain ⟨a, hw, hc, hpro, hlast⟩ := run_writePrologue (h := ⟨q, config, .empty, 0, {}⟩)
    p.arena.size (Nat.le_of_eq hsize.symm) (by show q.arena.size < _; omega)
  refine ⟨_, hw, Outline.empty_outlines config hq hsize ?_ hc hlast, ?_, ?_⟩
  · rw [hsize]
    exact Nat.dvd_add h16 ⟨2, rfl⟩
  · rw [show (Outline.empty q config).map.first = p.arena.size + 32 from hsize]
    exact hpro
  · intro i hi
    refine (hc.byte i (by omega)).trans ?_
    rw [show Heap.arena ⟨q, config, .empty, 0, {}⟩ = q.arena from rfl, hqa]
    rfl

/-- What is left to do when the arena has been padded. -/
theorem prologue_laysOut (hp : p.Sound) (h16 : 16 ∣ p.arena.size) :
    LaysOut (do
      let bp ← grow prologueSize
      writePrologue bp
      let _ ← extend config.chunkSize
      let heapSize ← ask fun h => pure h.size
      emit (.initialised heapSize)) ⟨p, config, .empty, 0, {}⟩
      (Outline.firstChunk config (p.grow prologueSize)) := by
  rcases hg : p.grow prologueSize with ⟨q, e | bp⟩
  · exact .stop (run_grow_eq hg)
  obtain ⟨k, hw, ho, hpro, -⟩ := writePrologue_outlines config hp h16 hg
  have hext : Follows False _ _ _ _ := extend_follows ho config.chunkSize
  refine .step (run_grow_eq hg) (.step hw ?_)
  rcases hext with ⟨hf, -⟩ | ⟨h', events, hx, ho', hsame⟩
  · cases hf
  have hfirst := (Outline.extends_extend ho.valid.map config.chunkSize).first
  rw [Outline.firstChunk]
  rcases hy : (Outline.empty q config).extend config.chunkSize with ⟨e | bp, o'⟩ <;>
    rw [hy] at hx ho' hfirst
  · exact .stop hx
  refine .step hx ⟨h', _, rfl, ?_⟩
  rintro _ ⟨⟩
  refine ⟨ho', ?_⟩
  rw [hfirst]
  exact hpro.congr ho.valid.map.first_ge fun i hi => hsame i (.inl hi)

theorem layOut_laysOut (hp : p.Sound) (hc : config.validate.run = .ok (.ok ())) :
    LaysOut layOut ⟨p, config, .empty, 0, {}⟩ (Outline.create p config) := by
  unfold layOut Outline.create Provider.primed
  refine .step (a := config) (l := []) rfl (.step (run_ask hc) ?_)
  refine .step (a := p.arena.size) (l := []) rfl ?_
  have h16 := dvd_ceilAligned p.arena.size
  have hle := le_ceilAligned p.arena.size
  by_cases hpad : 0 < paddingFor p.arena.size
  · simp only [if_pos hpad]
    rcases hg : p.grow (paddingFor p.arena.size) with ⟨q, e | bp⟩
    · exact .stop (run_grow_eq hg)
    · have ha := (Provider.grow_ok hg).2
      refine .step (run_grow_eq hg) (prologue_laysOut (hp.grow hg) ?_)
      rw [ha]
      show 16 ∣ p.arena.size + (ceilAligned p.arena.size - p.arena.size)
      rwa [Nat.add_sub_cancel' hle]
  · simp only [if_neg hpad]
    have h0 : paddingFor p.arena.size = 0 := by omega
    refine prologue_laysOut hp ?_
    have heq : p.arena.size = ceilAligned p.arena.size := by rw [paddingFor] at h0; omega
    rwa [heq]

theorem run_ask_error {g : Heap → Fallible α} (hg : (g h).run = .ok (.error e)) :
    (ask g).run h = .ok ⟨.error e, h, []⟩ := by
  simp only [run, ask, hg]

theorem run_ask_fault {g : Heap → Fallible α} {fault : Fault} (hg : (g h).run = .error fault) :
    (ask g).run h = .error fault := by
  simp only [run, ask, hg]

end HeapM

namespace Heap

variable {p : Provider} {config : Config} {heap : Heap} {events : List Event}

theorem run_layOut_config : (HeapM.ask fun h => pure h.config).run ⟨p, config, .empty, 0, {}⟩ =
    .ok ⟨.ok config, ⟨p, config, .empty, 0, {}⟩, []⟩ := rfl

theorem create_of_validate_fault {fault : Fault} (hc : config.validate.run = .error fault) :
    create p config = .error fault := by
  rw [create, HeapM.layOut, HeapM.run_bind_of_ok run_layOut_config,
    HeapM.run_bind_of_fault (HeapM.run_ask_fault hc)]
  rfl

theorem create_of_validate_error {e : Error} (hc : config.validate.run = .ok (.error e)) :
    create p config = .ok ⟨.error e, []⟩ := by
  rw [create, HeapM.layOut, HeapM.run_bind_of_ok run_layOut_config,
    HeapM.run_bind_of_error (HeapM.run_ask_error hc)]
  rfl

theorem validate_of_create (h : create p config = .ok ⟨.ok heap, events⟩) :
    config.validate.run = .ok (.ok ()) := by
  rcases hc : config.validate.run with fault | e | ⟨⟩
  · rw [create_of_validate_fault hc] at h; cases h
  · rw [create_of_validate_error hc] at h; cases h
  · rfl

/-- Creating a heap is what it is on outlines, once the configuration is accepted. -/
theorem create_follows (hp : p.Sound) (hc : config.validate.run = .ok (.ok ())) :
    (∃ e events, Outline.create p config = .error e ∧
      create p config = .ok ⟨.error e, events⟩) ∨
    ∃ o heap events, Outline.create p config = .ok o ∧
      create p config = .ok ⟨.ok heap, events⟩ ∧ o.Outlines heap ∧
        heap.arena.Prologue o.map.first := by
  obtain ⟨h', l, hl, ho⟩ := HeapM.layOut_laysOut hp hc
  unfold create
  rw [hl]
  rcases hy : Outline.create p config with e | o
  · exact .inl ⟨e, l, rfl, rfl⟩
  · obtain ⟨ho, hpro⟩ := ho o hy
    exact .inr ⟨o, h', l, rfl, rfl, ho, hpro⟩

theorem create_error_iff {e : Error} (hp : p.Sound) (hc : config.validate.run = .ok (.ok ())) :
    (∃ events, create p config = .ok ⟨.error e, events⟩) ↔ Outline.create p config = .error e := by
  rcases create_follows hp hc with ⟨e', events, hy, hx⟩ | ⟨o, heap, events, hy, hx, -⟩ <;>
    simp [hy, hx]

theorem outlines_of_create (hp : p.Sound) (h : create p config = .ok ⟨.ok heap, events⟩) :
    ∃ o, Outline.create p config = .ok o ∧ o.Outlines heap ∧ heap.arena.Prologue o.map.first := by
  rcases create_follows hp (validate_of_create h) with ⟨e, _, -, hx⟩ | ⟨o, k, _, hy, hx, ho⟩ <;>
    rw [h] at hx <;> cases hx
  exact ⟨o, hy, ho⟩

/-- A new heap has a valid outline, in which there are blocks but none is allocated. -/
theorem create_outlines (hp : p.Sound) (h : create p config = .ok ⟨.ok heap, events⟩) :
    ∃ o : Outline, Outline.create p config = .ok o ∧ o.Outlines heap ∧ o.map.live = [] ∧
      o.stats.allocs = 0 ∧ o.stats.reallocs = 0 ∧ o.map.first < o.map.stop ∧
      heap.arena.Prologue o.map.first := by
  obtain ⟨o, hy, ho, hpro⟩ := outlines_of_create hp h
  obtain ⟨q, bp, x, hq, hx⟩ := Outline.create_eq_ok hy
  obtain ⟨h32, h16⟩ := Provider.primed_spec hq
  have hv : (Outline.empty q config).map.Valid := Outline.empty_map_valid h32 h16
  rcases (Outline.empty q config).extend_cases config.chunkSize with
    ⟨e, source, hext, -⟩ | ⟨n, source, hn, hn', -, -, hext⟩ <;> rw [hx] at hext <;> cases hext
  have hstop := hv.stop_grow hn hn'
  refine ⟨_, hy, ho, MemoryMap.live_grow, rfl, rfl, ?_, hpro⟩
  rw [hstop, MemoryMap.first_grow]
  show q.arena.size < q.arena.size + 0 + n
  omega

end Heap

end SegregatedFit
