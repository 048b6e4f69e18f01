import SegregatedFit.Proofs.Configuration
import SegregatedFit.Proofs.Noninterference
import SegregatedFit.Proofs.Totality

/-!
# Heaps elsewhere in the arena

A heap over a buffer with bytes in use behaves like a heap over a new buffer that is smaller by these
bytes and the padding behind them: it is the same but for offsets, which are larger by that much, and
the end of a chain, which is no offset (`Heap.Displaced`). A heap over a data segment behaves like one
over a buffer, as long as both are given what they ask for. `Session.displaced` says so for all scripts.
-/

namespace SegregatedFit

/-! ### Sources that correspond -/

/-- The source has refused a request. -/
def Error.Refusal : Error → Prop
  | outOfMemory .. => True
  | nonContiguous => True
  | provider _ => True
  | _ => False

namespace Pairing

/-- Buffers with as much room, in the second of which `d` more bytes are in use. -/
def padded (base base' d : Nat) : Pairing where
  base := base
  base' := base'
  shift := d
  Related _ source source' := ∃ capacity, source = .buffer capacity ∧ source' = .buffer (capacity + d)
  Refusal _ := False
  request := by
    rintro size _ _ ⟨capacity, rfl, rfl⟩ n
    simp only [Source.request, Nat.add_sub_add_right]
    split_ifs
    · exact .inl ⟨_, _, rfl, rfl, capacity, rfl, rfl⟩
    · exact .inr (.inl ⟨_, _, _, rfl, rfl, capacity, rfl, rfl⟩)

/-- A buffer and a data segment that ends with the arena. -/
def segmented (host : Host) (base base' : Nat) : Pairing where
  base := base
  base' := base'
  shift := 0
  Related size source source' := ∃ capacity ≤ Provider.maxCapacity, ∃ tries,
    source = .buffer capacity ∧ source' = .dataSegment host tries (base' + size)
  Refusal := Error.Refusal
  request := by
    rintro size _ _ ⟨capacity, hmax, tries, rfl, rfl⟩ n
    by_cases hn : n ≤ capacity - size
    · obtain ⟨hlarge, -⟩ | ⟨reason, -, -, h⟩ | ⟨-, -, h⟩ :=
        Source.request_dataSegment host tries (base' + size) base' (size + 0) n
      · have : Provider.maxCapacity < Source.signedLimit := by decide
        omega
      · exact .inr (.inr ⟨.provider reason, trivial, .inr (congrArg Prod.snd h)⟩)
      · rw [Nat.add_zero, if_pos rfl] at h
        refine .inl ⟨_, _, ?_, h, capacity, hmax, tries + 1, rfl, by rw [Nat.add_assoc]⟩
        simp only [Source.request, if_pos hn]
    · refine .inr (.inr ⟨.outOfMemory n (capacity - size), trivial, .inl ?_⟩)
      simp only [Source.request, if_neg hn]

end Pairing

/-- No padding is needed. -/
theorem Provider.primed_of_aligned {p : Provider} (h : alignment ∣ p.arena.size) :
    p.primed = p.grow prologueSize :=
  primed_of_not_lt (Nat.not_lt.2 ((ceilAligned_le_iff h).2 (Nat.le_refl _)))

namespace Outline

variable {p q : Provider} {config : Config} {o o' : Outline} {base capacity tries : Nat}
  {hb : alignment ∣ base} {host : Host}

theorem prologueSize_le_of_firstChunk (hs : p.source = .buffer capacity)
    (h : firstChunk config (p.grow prologueSize) = .ok o) : prologueSize ≤ capacity - p.arena.size := by
  by_contra hlt
  have hg := (Provider.grow_of_buffer hs prologueSize).2
  rw [if_neg hlt] at hg
  rcases hx : p.grow prologueSize with ⟨q, e | x⟩ <;> rw [hx] at h hg
  · cases h
  · cases hg

/-- A new heap behind the bytes in use, and one over a new buffer with the room that is left. -/
theorem paired_of_reserve (hs : p.source = .buffer capacity)
    (hq : Provider.reserve base hb (capacity - ceilAligned p.arena.size) host = .ok q)
    (ho : create q config = .ok o) (ho' : create p config = .ok o') :
    Paired (.padded q.arena.base p.arena.base (ceilAligned p.arena.size)) o o' := by
  obtain rfl := Provider.eq_of_reserve hq
  generalize hd : ceilAligned p.arena.size = d at *
  have hprimed := Provider.primed_of_aligned
    (p := ⟨.empty base hb, .buffer (Provider.bufferCapacity (capacity - d))⟩) (Nat.dvd_zero _)
  rw [create, hprimed] at ho
  -- as the prologue fits, the buffer is not one of the least capacity
  have hroom : prologueSize ≤ Provider.bufferCapacity (capacity - d) :=
    prologueSize_le_of_firstChunk rfl ho
  have hcapacity : Provider.bufferCapacity (capacity - d) + d = capacity := by
    simp only [Provider.bufferCapacity, prologueSize, alignment] at *
    omega
  obtain ⟨p₁, hp₁, hs₁, hb₁, hz₁⟩ := Provider.primed_of_buffer hs (by omega)
  rw [create, hp₁] at ho'
  rw [← hcapacity] at hs₁
  have hpair : Provider.Paired (.padded base p.arena.base d)
      ⟨.empty base hb, .buffer (Provider.bufferCapacity (capacity - d))⟩ p₁ :=
    ⟨rfl, hb₁, by rw [hz₁, hd]; exact (Nat.zero_add d).symm, _, rfl, hs₁⟩
  rcases firstChunk_paired (hpair.grow prologueSize)
    (fun q bp h => Provider.primed_spec (hprimed.trans h)) config with
    ⟨e, he, -⟩ | ⟨o₁, o₁', h₁, h₁', h⟩ | ⟨e, hf, -⟩
  · rw [ho] at he; cases he
  · rw [ho] at h₁; cases h₁
    rw [ho'] at h₁'; cases h₁'
    exact h
  · exact hf.elim

/-- New heaps over a buffer and over a data segment. -/
theorem paired_of_segment (hs : p.source = .buffer capacity) (hmax : capacity ≤ Provider.maxCapacity)
    (hq : q.source = .dataSegment host tries (q.arena.base + q.arena.size))
    (hsize : q.arena.size = p.arena.size) (ho : create p config = .ok o)
    (ho' : create q config = .ok o') :
    Paired (.segmented host p.arena.base q.arena.base) o o' := by
  have hpair : Provider.Paired (.segmented host p.arena.base q.arena.base) p q :=
    ⟨rfl, rfl, hsize, capacity, hmax, tries, hs, by rw [hq, hsize]⟩
  rcases create_paired hpair (Nat.dvd_zero _) config with
    ⟨e, he, -⟩ | ⟨o₁, o₁', h₁, h₁', h⟩ | ⟨e, -, he | he⟩
  · rw [ho] at he; cases he
  · rw [ho] at h₁; cases h₁
    rw [ho'] at h₁'; cases h₁'
    exact h
  · rw [ho] at he; cases he
  · rw [ho'] at he; cases he

end Outline

/-! ### Heaps that correspond -/

/-- A link to a block `d` bytes further on; the end of a chain stays. -/
def shiftLink (d x : Nat) : Nat := if x = nil then nil else x + d

theorem headD_map_shift {d : Nat} {xs : List Nat} (hne : ∀ x ∈ xs, x ≠ nil) :
    (xs.map (· + d)).headD nil = shiftLink d (xs.headD nil) := by
  cases xs with
  | nil => rfl
  | cons x xs => exact (if_neg (hne x List.mem_cons_self)).symm

/-- The links that lists spell out. -/
theorem Arena.Linked.word_shift {a a' : Arena} {d p : Nat} {xs : List Nat} (h : a.Linked p xs nil)
    (h' : a'.Linked (shiftLink d p) (xs.map (· + d)) nil) (hne : ∀ x ∈ xs, x ≠ nil) :
    ∀ x ∈ xs, a'.word (x + d) = shiftLink d (a.word x) ∧
      a'.word (x + d + 8) = shiftLink d (a.word (x + 8)) := by
  induction xs generalizing p with
  | nil => nofun
  | cons y ys ih =>
    obtain ⟨hnext, hprev, h⟩ := h
    obtain ⟨hnext', hprev', h'⟩ := h'
    have hys : ∀ x ∈ ys, x ≠ nil := fun x hx => hne x (List.mem_cons_of_mem y hx)
    have hy : shiftLink d y = y + d := if_neg (hne y List.mem_cons_self)
    intro x hx
    rcases List.mem_cons.1 hx with rfl | hx
    · exact ⟨by rw [hnext', hnext, headD_map_shift hys], by rw [hprev', hprev]⟩
    · exact ih h (by rw [hy]; exact h') hys x hx

/-- `k` is `h` with all blocks `d` bytes further on. -/
structure Heap.Displaced (d : Nat) (h k : Heap) : Prop where
  size : k.size = h.size + d
  firstBlock : k.firstBlock = h.firstBlock + d
  blocks : ∃ bs, h.blocks = .ok bs ∧ k.blocks = .ok (bs.map (Block.shift d)) ∧
    ∀ b ∈ bs ++ [.last h.size],
      Concur (h.arena.header b.offset) (k.arena.header (b.offset + d))
  heads : ∀ c, k.index.head c = shiftLink d (h.index.head c)
  links : ∀ bs, h.blocks = .ok bs → ∀ b ∈ bs, b.allocated = false → ∃ next prev,
    h.arena.nextFree b.offset = .ok next ∧ h.arena.prevFree b.offset = .ok prev ∧
    k.arena.nextFree (b.offset + d) = .ok (shiftLink d next) ∧
    k.arena.prevFree (b.offset + d) = .ok (shiftLink d prev)
  chains : ∀ c n, ∃ xs, h.pool.chain c n = .ok xs ∧ k.pool.chain c n = .ok (xs.map (· + d))
  stats : k.stats = h.stats
  freeBytes : Concur h.freeBytes k.freeBytes

namespace Session

variable {s t : Session} {o o' : Outline} {k : Pairing}

theorem Outlined.displaced_heap (hs : s.Outlined o) (ht : t.Outlined o') (h : Outline.Paired k o o') :
    s.heap.Displaced k.shift t.heap := by
  have hv := hs.outlines.valid.map
  have hv' := ht.outlines.valid.map
  have hd := hs.outlines.describes
  have hd' := ht.outlines.describes
  have hstop : o'.map.stop = o.map.stop + k.shift := by rw [h.map, MemoryMap.stop_shift]
  have hsize : s.heap.size = o.map.stop := hd.size
  have hsize' : t.heap.size = o.map.stop + k.shift := hd'.size.trans hstop
  have hblocks := hs.blocks_eq
  have hblocks' : t.heap.blocks = .ok (o.map.blocks.map (Block.shift k.shift)) := by
    rw [ht.blocks_eq, h.map]; rfl
  have hchains : ∀ c, o'.map.chains c = (o.map.chains c).map (· + k.shift) := fun c => by
    rw [h.map]; rfl
  have hne : ∀ c, ∀ x ∈ o.map.chains c, x ≠ nil := fun c x hx => hv.spread.ne_nil hx
  refine ⟨by rw [hsize', hsize], ?_, ⟨_, hblocks, hblocks', ?_⟩, ?_, ?_, ?_, ?_, ?_⟩
  · rw [ht.outlines.first, h.map, hs.outlines.first]; rfl
  · rw [hsize]
    intro b hb
    obtain ⟨xs, ys, hall⟩ := List.append_of_mem hb
    have hall' : o'.map.allBlocks =
        xs.map (Block.shift k.shift) ++ b.shift k.shift :: ys.map (Block.shift k.shift) := by
      rw [h.map, MemoryMap.allBlocks_shift, MemoryMap.allBlocks, hall, List.map_append, List.map_cons]
    refine ⟨_, hd.header_eq hv hall, ?_⟩
    rw [← Block.flagAfter_map_shift (d := k.shift)]
    exact hd'.header_eq hv' hall'
  · intro c
    have hhead : t.heap.index.head c = (o'.map.chains c).headD nil := hd'.chained.head c
    have hhead' : s.heap.index.head c = (o.map.chains c).headD nil := hd.chained.head c
    rw [hhead, hhead', hchains, headD_map_shift (hne c)]
  · intro bs hbs b hb hf
    cases hbs.symm.trans hblocks
    have hbb := hv.tiles.bounds hb
    have hlt := hd.stop_lt
    have hlt' := hd'.stop_lt
    have hlinked := hd'.chained.linked (sizeClass b.size)
    rw [hchains] at hlinked
    obtain ⟨hnext, hprev⟩ := (hd.chained.linked _).word_shift (p := nil) hlinked (hne _) _
      (hv.mem_chains hb hf)
    have hroom : b.offset + 16 ≤ s.heap.size := by omega
    have hroom' : b.offset + k.shift + 16 ≤ t.heap.size := by omega
    replace hlt : s.heap.size < Word.limit := by omega
    replace hlt' : t.heap.size < Word.limit := by omega
    exact ⟨_, _, Arena.nextFree_of_le (Nat.le_trans (by omega) hroom) hlt,
      Arena.prevFree_of_le hroom hlt,
      (Arena.nextFree_of_le (Nat.le_trans (by omega) hroom') hlt').trans (congrArg _ hnext),
      (Arena.prevFree_of_le hroom' hlt').trans (congrArg _ hprev)⟩
  · intro c n
    refine ⟨_, hd.chain_eq hv c n, ?_⟩
    rw [List.map_take, ← hchains]
    exact hd'.chain_eq hv' c n
  · rw [ht.outlines.stats, h.stats, hs.outlines.stats]
  · rw [Heap.freeBytes, Heap.freeBytes, hblocks, hblocks']
    refine ⟨_, rfl, congrArg Except.ok ?_⟩
    rw [List.filter_map, Block.totalSize_map_shift]
    rfl

/-! ### Scripts -/

variable {p q : Provider} {config : Config} {ds : List Directive} {rs rs' : List Answer}

/-- Two sessions after the same script: offsets were handed out `d` bytes apart, all else in the
answers is the same, and the next call of the script may be made on both if it may be on the first. -/
structure Displaced (d base base' : Nat) (rs rs' : List Answer) (s t : Session) : Prop where
  answers : ∃ xs : List Answer, rs = xs.map (Answer.shift base) ∧
    rs' = xs.map (Answer.shift (base' + d))
  heaps : s.heap.Displaced d t.heap
  next : ∀ c c₁, Call.resolve rs c = some c₁ → (∀ a ∈ c₁.handed, a ∈ s.pointers) →
    s.calls < Word.limit → ∃ c₂ r₁ r₂ s' t', Call.resolve rs' c = some c₂ ∧
      Step s (.call c₁ r₁) s' ∧ Step t (.call c₂ r₂) t'

theorem Plays.calls_eq (h : Plays p config ds rs s) : s.calls = rs.length := by
  induction h with
  | start => rfl
  | call _ _ h ih =>
    cases h with
    | call => exact congrArg (· + 1) ih
  | moveEnd _ h ih =>
    cases h with
    | moveEnd => exact ih
  | write _ h ih =>
    cases h with
    | write => exact ih

/-- What corresponds at first does so ever after. -/
theorem Plays.displaced_of_paired (hp : p.Sound) (hq : q.Sound) (hs : Plays p config ds rs s)
    (ht : Plays q config ds rs' t)
    (hnew : ∀ o o', Outline.create p config = .ok o → Outline.create q config = .ok o' →
      Outline.Paired k o o')
    (hmove : ∀ size source source' delta, .moveEnd delta ∈ ds → k.Related size source source' →
      k.Related size (source.moveEnd delta) (source'.moveEnd delta))
    (hrs : ∀ e, .error e ∈ rs ∨ .error e ∈ rs' → ¬k.Refusal e) :
    Displaced k.shift k.base k.base' rs rs' s t := by
  obtain ⟨o₀, o, hy, hplays, ho⟩ := hs.outlined hp
  obtain ⟨o₀', o', hy', hplays', ho'⟩ := ht.outlined hq
  obtain ⟨xs, hxs, hxs', hpaired⟩ := hplays.paired (hnew _ _ hy hy') hplays' hmove hrs
  refine ⟨⟨xs, hxs, hxs'⟩, ho.displaced_heap ho' hpaired, ?_⟩
  intro c c₁ hc hheld hlt
  have hcalls : t.calls = s.calls := by
    rw [ht.calls_eq, hs.calls_eq, hxs, hxs', List.length_map, List.length_map]
  rw [hxs, Call.resolve_shift] at hc
  obtain ⟨d, hd, rfl⟩ := Option.map_eq_some_iff.1 hc
  have hheld' := ho.handed_of_paired ho' hpaired hheld
  obtain ⟨out, hout⟩ := ho.call_exists hlt hheld
  obtain ⟨out', hout'⟩ := ho'.call_exists (by rwa [hcalls]) hheld'
  exact ⟨_, _, _, _, _, by rw [hxs', Call.resolve_shift, hd]; rfl, .call hheld hout, .call hheld' hout'⟩

/-- Bytes in use before the heap displace it, whatever the script; and it makes no difference whether
the arena is a buffer or a data segment that no one else moves, if no request is refused. -/
theorem displaced (config : Config) (host : Host) :
    (∀ (p q : Provider) (base : Nat) (hb : alignment ∣ base) (capacity : Nat) ds rs rs' s t,
      p.Sound → q.Sound → p.source = .buffer capacity →
      Provider.reserve base hb (capacity - ceilAligned p.arena.size) host = .ok q →
      Plays q config ds rs s → Plays p config ds rs' t →
      Displaced (ceilAligned p.arena.size) q.arena.base p.arena.base rs rs' s t) ∧
    ∀ (p q : Provider) (capacity tries : Nat) ds rs rs' s t,
      p.Sound → q.Sound → p.source = .buffer capacity → capacity ≤ Provider.maxCapacity →
      q.source = .dataSegment host tries (q.arena.base + q.arena.size) →
      q.arena.size = p.arena.size →
      (∀ delta, .moveEnd delta ∉ ds) → (∀ e, .error e ∈ rs ∨ .error e ∈ rs' → ¬e.Refusal) →
      Plays p config ds rs s → Plays q config ds rs' t →
      Displaced 0 p.arena.base q.arena.base rs rs' s t := by
  constructor
  · intro p q base hb capacity ds rs rs' s t hp hq hs hreserve hplays hplays'
    refine hplays.displaced_of_paired (k := .padded q.arena.base p.arena.base (ceilAligned p.arena.size)) hq hp
      hplays' (fun _ _ => Outline.paired_of_reserve hs hreserve) ?_ fun _ _ => id
    rintro size _ _ delta - ⟨c, rfl, rfl⟩
    exact ⟨c, rfl, rfl⟩
  · intro p q capacity tries ds rs rs' s t hp hq hs hmax hend hsize hds hrs hplays hplays'
    refine hplays.displaced_of_paired (k := .segmented host p.arena.base q.arena.base) hp hq hplays'
      (fun _ _ => Outline.paired_of_segment hs hmax hend hsize) ?_ hrs
    intro size source source' delta hd
    exact absurd hd (hds delta)

/-- A buffer of 288 bytes, of which 20 have been used. -/
def usedBuffer : Provider := ⟨⟨16384, 20, ⟨.replicate 20 255⟩, ⟨1024, rfl⟩⟩, .buffer 288⟩

theorem answers_usedBuffer :
    (playScript usedBuffer ⟨64, 4096⟩ smallScript).map Prod.fst =
        some [.error (.outOfMemory 208 96), .ok none, .ok (some 16480), .ok (some 16448)] ∧
      (playScript cleanBuffer ⟨64, 4096⟩ (smallScript.drop 2)).map Prod.fst =
        some [.ok (some 12352), .ok (some 12320)] ∧
      (playScript (.ofSegment 20000 .scarce) ⟨64, 4096⟩ (smallScript.drop 2)).map Prod.fst =
        some [.ok (some 20064), .ok (some 20032)] := by
  decide +kernel

/-- The 20 bytes and their padding displace the heap by 32, and a segment does not at all. -/
theorem displaced_small :
    (∃ s t, Displaced 32 12288 16384
      [.error (.outOfMemory 208 96), .ok none, .ok (some 12352), .ok (some 12320)]
      [.error (.outOfMemory 208 96), .ok none, .ok (some 16480), .ok (some 16448)] s t) ∧
    ∃ s t, Displaced 0 12288 20000 [.ok (some 12352), .ok (some 12320)]
      [.ok (some 20064), .ok (some 20032)] s t := by
  obtain ⟨hused, hclean, hsegment⟩ := answers_usedBuffer
  obtain ⟨⟨_, t₁⟩, ht₁, rfl⟩ := Option.map_eq_some_iff.1 hused
  obtain ⟨⟨_, s₁⟩, hs₁, rfl⟩ := Option.map_eq_some_iff.1 answers_smallScript.1
  obtain ⟨⟨_, s₂⟩, hs₂, rfl⟩ := Option.map_eq_some_iff.1 hclean
  obtain ⟨⟨_, t₂⟩, ht₂, rfl⟩ := Option.map_eq_some_iff.1 hsegment
  have hused : usedBuffer.Sound := ⟨by decide, show 16384 + 288 < Word.limit by decide⟩
  have hclean : cleanBuffer.Sound := ⟨by decide, show 12288 + 256 < Word.limit by decide⟩
  have hsegment : (Provider.ofSegment 20000 .scarce).Sound := ⟨by decide, trivial⟩
  obtain ⟨hpadded, hsegmented⟩ := displaced ⟨64, 4096⟩ .scarce
  exact ⟨⟨s₁, t₁, hpadded usedBuffer cleanBuffer 12288 ⟨768, rfl⟩ 288 _ _ _ _ _ hused hclean rfl rfl
      (plays_of_playScript hs₁) (plays_of_playScript ht₁)⟩,
    s₂, t₂, hsegmented cleanBuffer (.ofSegment 20000 .scarce) 256 0 _ _ _ _ _
      hclean hsegment rfl (by decide) rfl rfl (by simp [smallScript]) (by simp)
      (plays_of_playScript hs₂) (plays_of_playScript ht₂)⟩

end Session

end SegregatedFit
