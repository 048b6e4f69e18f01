import SegregatedFit.Proofs.Alike
import SegregatedFit.Proofs.Validation

/-!
# What a heap does not depend on

A script says which calls are made, with pointers named by the calls that handed them out
(`Session.Plays`). Two sessions that play the same script over alike providers give the same answers
and cannot be told apart afterwards (`Session.indistinguishable`), whatever was in the arenas at
first, wherever they are, and whatever was written into the payloads in the meantime.
-/

namespace SegregatedFit

/-! ### Scripts -/

/-- What happens to a session, apart from writes. The pointer of a call is the number of calls that
were made since the one that handed it out. -/
inductive Directive where
  | call (c : Call)
  | moveEnd (delta : Int)

abbrev Answer : Type := Except Error (Option Nat)

/-- The same answer at `base`, where its pointer is an offset. -/
def Answer.shift (base : Nat) (r : Answer) : Answer := r.map (Option.map (base + ·))

/-- The pointer that was handed out `i` calls before the latest one. -/
def Answer.pointer? (rs : List Answer) (i : Nat) : Option Nat :=
  match rs[i]? with
  | some (.ok p) => p
  | _ => none

/-- The call with the pointer that is meant. The latest answer comes first. -/
def Call.resolve (rs : List Answer) : Call → Option Call
  | allocate size => some (allocate size)
  | allocateZeroed count size => some (allocateZeroed count size)
  | free none => some (free none)
  | free (some i) => (Answer.pointer? rs i).map fun p => free (some p)
  | reallocate none size => some (reallocate none size)
  | reallocate (some i) size => (Answer.pointer? rs i).map fun p => reallocate (some p) size

theorem Answer.pointer?_shift (base : Nat) (rs : List Answer) (i : Nat) :
    pointer? (rs.map (shift base)) i = (pointer? rs i).map (base + ·) := by
  unfold pointer?
  rw [List.getElem?_map]
  rcases rs[i]? with _ | e | p <;> rfl

theorem Call.resolve_shift (base : Nat) (rs : List Answer) (c : Call) :
    c.resolve (rs.map (Answer.shift base)) = (c.resolve rs).map (Call.shift base) := by
  cases c with
  | allocate size => rfl
  | allocateZeroed count size => rfl
  | free x =>
    rcases x with _ | i
    · rfl
    · simp only [resolve, Answer.pointer?_shift, Option.map_map]; rfl
  | reallocate x size =>
    rcases x with _ | i
    · rfl
    · simp only [resolve, Answer.pointer?_shift, Option.map_map]; rfl

/-! ### Playing scripts on outlines -/

namespace Outline

/-- Playing the script, whose latest directive comes first, leads from `o₀` to `o`. -/
inductive Plays (o₀ : Outline) : List Directive → List Answer → Outline → Prop
  | nil : Plays o₀ [] [] o₀
  | call {ds : List Directive} {rs : List Answer} {o : Outline} {c c' : Call}
      (h : Plays o₀ ds rs o) (hr : c.resolve rs = some c') (hv : o.map.Valid) (hc : c'.Valid o) :
      Plays o₀ (.call c :: ds) ((c'.outline o).1 :: rs) (c'.outline o).2
  | moveEnd {ds : List Directive} {rs : List Answer} {o : Outline} {delta : Int}
      (h : Plays o₀ ds rs o) :
      Plays o₀ (.moveEnd delta :: ds) rs { o with source := o.source.moveEnd delta }

/-- The same script on outlines that correspond, as long as no request is refused on its own. -/
theorem Plays.paired {k : Pairing} {o₀ o₀' o o' : Outline} {ds : List Directive}
    {rs rs' : List Answer} (h : Paired k o₀ o₀') (hp : Plays o₀ ds rs o) (hp' : Plays o₀' ds rs' o')
    (hmove : ∀ size source source' delta, .moveEnd delta ∈ ds → k.Related size source source' →
      k.Related size (source.moveEnd delta) (source'.moveEnd delta))
    (hrs : ∀ e, .error e ∈ rs ∨ .error e ∈ rs' → ¬k.Refusal e) :
    ∃ xs : List Answer, rs = xs.map (Answer.shift k.base) ∧
      rs' = xs.map (Answer.shift (k.base' + k.shift)) ∧ Paired k o o' := by
  induction hp generalizing rs' o' with
  | nil =>
    cases hp'
    exact ⟨[], rfl, rfl, h⟩
  | @call ds rs o c c' _ hr hv hc ih =>
    cases hp' with
    | @call _ rs' o' _ c'' hp' hr' _ _ =>
      obtain ⟨xs, rfl, rfl, ho⟩ := ih hp'
        (fun size source source' delta hd => hmove size source source' delta (List.mem_cons_of_mem _ hd))
        fun e he => hrs e (he.imp (List.mem_cons_of_mem _) (List.mem_cons_of_mem _))
      -- both calls are the same call with offsets for pointers
      rw [Call.resolve_shift] at hr hr'
      obtain ⟨d, hd, rfl⟩ := Option.map_eq_some_iff.1 hr
      rw [hd] at hr'
      obtain rfl := Option.some.inj hr'
      have hx := Call.paired ho hv d hc
      generalize (d.shift k.base).outline o = y at *
      generalize (d.shift (k.base' + k.shift)).outline o' = y' at *
      cases hx with
      | @error e _ _ h => exact ⟨.error e :: xs, rfl, rfl, h⟩
      | @ok x _ _ h => exact ⟨.ok x :: xs, rfl, rfl, h⟩
      | @refused e _ _ he h =>
        refine absurd he (hrs e (h.imp (fun h => ?_) fun h => ?_)) <;> rw [h] <;>
          exact List.mem_cons_self
  | @moveEnd ds rs o delta _ ih =>
    cases hp' with
    | moveEnd hp' =>
      obtain ⟨xs, hrs, hrs', ho⟩ := ih hp'
        (fun size source source' delta hd => hmove size source source' delta (List.mem_cons_of_mem _ hd))
        hrs
      exact ⟨xs, hrs, hrs', ho.base, ho.base', ho.map, ho.config, ho.stats,
        hmove _ _ _ _ List.mem_cons_self ho.source⟩

theorem Plays.alike {base base' : Nat} {o₀ o₀' o o' : Outline} {ds : List Directive}
    {rs rs' : List Answer} (h : Alike base base' o₀ o₀') (hp : Plays o₀ ds rs o)
    (hp' : Plays o₀' ds rs' o') :
    ∃ xs : List Answer, rs = xs.map (Answer.shift base) ∧ rs' = xs.map (Answer.shift base') ∧
      Alike base base' o o' := by
  obtain ⟨xs, hrs, hrs', ho⟩ := Plays.paired (alike_iff_paired.1 h) hp hp'
    (fun _ _ _ delta _ h => h.moveEnd delta) fun _ _ => id
  exact ⟨xs, hrs, hrs', alike_iff_paired.2 ho⟩

end Outline

/-! ### Playing scripts on heaps -/

namespace Session

/-- Playing the script on a new heap leads to `s`, with writes into payloads at any time. The latest
directive and the latest answer come first. -/
inductive Plays (p : Provider) (config : Config) : List Directive → List Answer → Session → Prop
  | start {h : Heap} {events : List Event}
      (hc : Heap.create p config = .ok ⟨.ok h, events⟩) : Plays p config [] [] (start h)
  | call {ds : List Directive} {rs : List Answer} {s s' : Session} {c c' : Call} {r : Answer}
      (hs : Plays p config ds rs s) (hr : c.resolve rs = some c') (h : Step s (.call c' r) s') :
      Plays p config (.call c :: ds) (r :: rs) s'
  | moveEnd {ds : List Directive} {rs : List Answer} {s s' : Session} {delta : Int}
      (hs : Plays p config ds rs s) (h : Step s (.moveEnd delta) s') :
      Plays p config (.moveEnd delta :: ds) rs s'
  | write {ds : List Directive} {rs : List Answer} {s s' : Session} {address i n : Nat}
      {f : Nat → UInt8} (hs : Plays p config ds rs s) (h : Step s (.write address i n f) s') :
      Plays p config ds rs s'

variable {p : Provider} {config : Config} {ds : List Directive} {rs : List Answer} {s : Session}

/-- The outline of a session knows nothing of writes. -/
theorem Plays.outlined (hp : p.Sound) (h : Plays p config ds rs s) :
    ∃ o₀ o, Outline.create p config = .ok o₀ ∧ o₀.Plays ds rs o ∧ s.Outlined o := by
  induction h with
  | start hc =>
    obtain ⟨o, hy, ho⟩ := outlined_start hp hc
    exact ⟨o, o, hy, .nil, ho⟩
  | call _ hr h ih =>
    obtain ⟨o₀, o, hy, hplays, ho⟩ := ih
    cases h with
    | call hc hrun =>
      obtain ⟨hres, -, ho'⟩ := ho.call hc hrun
      rw [hres] at ho' ⊢
      exact ⟨o₀, _, hy, .call hplays hr ho.outlines.valid.map (ho.valid_call hc), ho'⟩
  | moveEnd _ h ih =>
    obtain ⟨o₀, o, hy, hplays, ho⟩ := ih
    cases h with
    | moveEnd hd => exact ⟨o₀, _, hy, .moveEnd hplays, ho.moveEnd hd⟩
  | write _ h ih =>
    obtain ⟨o₀, o, hy, hplays, ho⟩ := ih
    cases h with
    | write ha hu hn => exact ⟨o₀, o, hy, hplays, ho.step_write ha hu hn⟩

/-- Plays a script on a new heap, without writes. -/
def playScript (p : Provider) (config : Config) : List Directive → Option (List Answer × Session)
  | [] =>
    match Heap.create p config with
    | .ok ⟨.ok h, _⟩ => some ([], start h)
    | _ => none
  | .call c :: ds => do
    let (rs, s) ← playScript p config ds
    let c ← c.resolve rs
    if ∀ address ∈ c.handed, address ∈ s.pointers then
      match c.perform.run s.heap with
      | .ok out => some (out.result :: rs, ⟨out.heap, answered s.held c out.result, s.calls + 1⟩)
      | .error _ => none
    else none
  | .moveEnd delta :: ds => do
    let (rs, s) ← playScript p config ds
    if ∀ stop ∈ (s.heap.provider.source.moveEnd delta).segmentEnd?,
        s.heap.address s.heap.size ≤ stop then
      some (rs, { s with heap := { s.heap with provider := s.heap.provider.moveEnd delta } })
    else none

theorem plays_of_playScript (h : playScript p config ds = some (rs, s)) : Plays p config ds rs s := by
  induction ds generalizing rs s with
  | nil =>
    unfold playScript at h
    split at h <;> cases h
    next hc => exact .start hc
  | cons d ds ih =>
    cases d with
    | call c =>
      obtain ⟨⟨rs', s'⟩, h', h⟩ := Option.bind_eq_some_iff.1 h
      obtain ⟨c', hr, h⟩ := Option.bind_eq_some_iff.1 h
      obtain ⟨hc, h⟩ := Option.ite_none_right_eq_some.1 h
      rcases hrun : c'.perform.run s'.heap with fault | out <;> simp only [hrun] at h <;> cases h
      exact .call (ih h') hr (.call hc hrun)
    | moveEnd delta =>
      obtain ⟨⟨rs', s'⟩, h', h⟩ := Option.bind_eq_some_iff.1 h
      obtain ⟨hd, h⟩ := Option.ite_none_right_eq_some.1 h
      cases h
      exact .moveEnd (ih h') (.moveEnd hd)

end Session

/-! ### Looking at heaps -/

/-- No question about blocks, chains and counters tells the heaps apart. -/
structure Heap.Indistinguishable (h k : Heap) : Prop where
  layout : h.SameLayout k
  firstBlock : k.firstBlock = h.firstBlock
  stats : k.stats = h.stats
  heads : k.index = h.index
  links : ∀ bs, h.blocks = .ok bs → ∀ b ∈ bs, b.allocated = false →
    Concur (h.arena.nextFree b.offset) (k.arena.nextFree b.offset) ∧
      Concur (h.arena.prevFree b.offset) (k.arena.prevFree b.offset)
  chains : ∀ c n, Concur (h.pool.chain c n) (k.pool.chain c n)
  freeBytes : Concur h.freeBytes k.freeBytes
  violations : Concur h.violations k.violations

theorem FreeIndex.ext_head {x y : FreeIndex} (h : ∀ c, x.head c = y.head c) : x = y := by
  obtain ⟨x⟩ := x
  obtain ⟨y⟩ := y
  congr 1
  exact Vector.ext fun i hi => h ⟨i, hi⟩

namespace Session

variable {s t : Session} {o o' : Outline} {base base' : Nat}

theorem Outlined.indistinguishable_of_alike (hs : s.Outlined o) (ht : t.Outlined o')
    (h : Outline.Alike base base' o o') : s.heap.Indistinguishable t.heap := by
  have hv := hs.outlines.valid.map
  have hd := hs.outlines.describes
  have hd' : o.map.Describes t.heap.pool := h.map ▸ ht.outlines.describes
  have hblocks := hs.blocks_eq
  have hblocks' : t.heap.blocks = .ok o.map.blocks := h.map ▸ ht.blocks_eq
  refine ⟨hs.sameLayout_of_blocks_eq ht (by rw [h.map]) (by rw [h.map]), ?_, ?_, ?_, ?_, ?_, ?_,
    ⟨_, hs.violations_eq, ht.violations_eq⟩⟩
  · rw [ht.outlines.first, h.map, hs.outlines.first]
  · rw [ht.outlines.stats, h.stats, hs.outlines.stats]
  · refine FreeIndex.ext_head fun c => ?_
    exact (hd'.chained.head c).trans (hd.chained.head c).symm
  · intro bs hbs b hb hf
    cases hbs.symm.trans hblocks
    have hbb := hv.tiles.bounds hb
    have hlt := hd.stop_lt
    have hsize : s.heap.size = o.map.stop := hd.size
    have hsize' : t.heap.size = o.map.stop := hd'.size
    have hw := (hd.chained.linked _).word_eq (hd'.chained.linked _) _ (hv.mem_chains hb hf)
    have h8 : b.offset + 8 ≤ s.heap.size ∧ b.offset + 8 ≤ t.heap.size := by omega
    have h16 : b.offset + 16 ≤ s.heap.size ∧ b.offset + 16 ≤ t.heap.size := by omega
    have hlt : s.heap.size < Word.limit ∧ t.heap.size < Word.limit := by omega
    exact ⟨⟨_, Arena.nextFree_of_le h8.1 hlt.1,
        (Arena.nextFree_of_le h8.2 hlt.2).trans (congrArg _ hw.1)⟩,
      ⟨_, Arena.prevFree_of_le h16.1 hlt.1,
        (Arena.prevFree_of_le h16.2 hlt.2).trans (congrArg _ hw.2)⟩⟩
  · intro c n
    exact ⟨_, hd.chain_eq hv c n, hd'.chain_eq hv c n⟩
  · rw [Heap.freeBytes, Heap.freeBytes, hblocks, hblocks']
    exact ⟨_, rfl, rfl⟩

/-- A call that may be made on the one session may be made on the other. -/
theorem Outlined.handed_of_paired {k : Pairing} (hs : s.Outlined o) (ht : t.Outlined o')
    (h : Outline.Paired k o o') {d : Call} (hc : ∀ a ∈ (d.shift k.base).handed, a ∈ s.pointers) :
    ∀ a ∈ (d.shift (k.base' + k.shift)).handed, a ∈ t.pointers := by
  rw [Call.handed_shift] at hc ⊢
  intro a ha
  obtain ⟨x, hx, rfl⟩ := Option.mem_map.1 ha
  obtain ⟨b, hb, he⟩ := hs.exists_block (hc _ (Option.mem_map.2 ⟨x, hx, rfl⟩))
  rw [h.base] at he
  rw [Nat.add_left_cancel he, ← h.address_eq]
  refine ht.mem_pointers (b := b.shift k.shift) ?_
  rw [h.map, MemoryMap.live_shift]
  exact List.mem_map_of_mem hb

end Session

/-! ### Two sessions -/

variable {p q : Provider}

/-- Creating a heap fails on both providers or on none. -/
theorem Heap.create_error_congr (hp : p.Sound) (hq : q.Sound) (h : p.Alike q) {config : Config}
    {e : Error} : (∃ events, create p config = .ok ⟨.error e, events⟩) ↔
      ∃ events, create q config = .ok ⟨.error e, events⟩ := by
  rcases hc : config.validate.run with fault | e' | ⟨⟩
  · rw [create_of_validate_fault hc, create_of_validate_fault hc]
  · rw [create_of_validate_error hc, create_of_validate_error hc]
  · rw [create_error_iff hp hc, create_error_iff hq hc]
    rcases Outline.alike_create h config with ⟨e', h₁, h₂⟩ | ⟨o, o', h₁, h₂, -⟩ <;> simp [h₁, h₂]

namespace Session

/-- What a script leads to does not depend on what was in the arena, nor on what was written into
payloads: neither answers nor heaps, nor which calls may come next. -/
theorem indistinguishable (hp : p.Sound) (hq : q.Sound) (h : p.Alike q) (config : Config) :
    (∀ e, (∃ events, Heap.create p config = .ok ⟨.error e, events⟩) ↔
      ∃ events, Heap.create q config = .ok ⟨.error e, events⟩) ∧
    ∀ ds rs rs' s t, Plays p config ds rs s → Plays q config ds rs' t →
      (∃ xs : List Answer, rs = xs.map (Answer.shift p.arena.base) ∧
        rs' = xs.map (Answer.shift q.arena.base)) ∧
      s.heap.Indistinguishable t.heap ∧
      ∀ c c₁, Call.resolve rs c = some c₁ → (∀ a ∈ c₁.handed, a ∈ s.pointers) →
        ∃ c₂, Call.resolve rs' c = some c₂ ∧ ∀ a ∈ c₂.handed, a ∈ t.pointers := by
  refine ⟨fun e => Heap.create_error_congr hp hq h, ?_⟩
  intro ds rs rs' s t hs ht
  obtain ⟨o₀, o, hy, hplays, ho⟩ := hs.outlined hp
  obtain ⟨o₀', o', hy', hplays', ho'⟩ := ht.outlined hq
  rcases Outline.alike_create h config with ⟨e, h1, -⟩ | ⟨_, _, h1, h2, halike⟩
  · rw [hy] at h1; cases h1
  cases hy.symm.trans h1
  cases hy'.symm.trans h2
  obtain ⟨xs, rfl, rfl, halike⟩ := hplays.alike halike hplays'
  refine ⟨⟨xs, rfl, rfl⟩, ho.indistinguishable_of_alike ho' halike, ?_⟩
  intro c c₁ hc hheld
  rw [Call.resolve_shift] at hc
  obtain ⟨d, hd, rfl⟩ := Option.map_eq_some_iff.1 hc
  exact ⟨d.shift q.arena.base, by rw [Call.resolve_shift, hd]; rfl,
    ho.handed_of_paired ho' (Outline.alike_iff_paired.1 halike) hheld⟩

/-- A new buffer of 256 bytes. -/
def cleanBuffer : Provider := ⟨.empty 12288 ⟨768, rfl⟩, .buffer 256⟩

/-- A buffer of 256 bytes elsewhere, which has been in use. -/
def dirtyBuffer : Provider := ⟨⟨8192, 0, ⟨.replicate 256 255⟩, ⟨512, rfl⟩⟩, .buffer 256⟩

/-- Two blocks are allocated, the first one is freed, and a third does not fit. -/
def smallScript : List Directive :=
  [.call (.allocate 200), .call (.free (some 1)), .call (.allocate 40), .call (.allocate 10)]

theorem answers_smallScript :
    (playScript cleanBuffer ⟨64, 4096⟩ smallScript).map Prod.fst =
        some [.error (.outOfMemory 208 96), .ok none, .ok (some 12352), .ok (some 12320)] ∧
      (playScript dirtyBuffer ⟨64, 4096⟩ smallScript).map (fun x => (x.1, x.2.pointers)) =
        some ([.error (.outOfMemory 208 96), .ok none, .ok (some 8256), .ok (some 8224)], [8256]) := by
  decide +kernel

/-- On the dirty buffer, the holder of the pointer that is left writes to it. -/
theorem indistinguishable_small : ∃ s t t',
    Plays cleanBuffer ⟨64, 4096⟩ smallScript
      [.error (.outOfMemory 208 96), .ok none, .ok (some 12352), .ok (some 12320)] s ∧
    Plays dirtyBuffer ⟨64, 4096⟩ smallScript
      [.error (.outOfMemory 208 96), .ok none, .ok (some 8256), .ok (some 8224)] t ∧
    Step t (.write 8256 0 16 fun _ => 255) t' ∧ s.heap.Indistinguishable t'.heap := by
  obtain ⟨hs, ht⟩ := answers_smallScript
  obtain ⟨⟨rs, s⟩, hs, hrs⟩ := Option.map_eq_some_iff.1 hs
  obtain ⟨⟨rs', t⟩, ht, hrt⟩ := Option.map_eq_some_iff.1 ht
  obtain ⟨hrt, hheld⟩ := Prod.mk.inj hrt
  replace hs := plays_of_playScript hs
  replace ht := plays_of_playScript ht
  have hclean : cleanBuffer.Sound := ⟨by decide, show 12288 + 256 < Word.limit by decide⟩
  have hdirty : dirtyBuffer.Sound := ⟨by decide, show 8192 + 256 < Word.limit by decide⟩
  have halike : cleanBuffer.Alike dirtyBuffer := ⟨rfl, Source.alike_buffer 256⟩
  have hmem : 8256 ∈ t.pointers := by rw [hheld]; decide
  obtain ⟨-, o, -, -, ho⟩ := ht.outlined hdirty
  obtain ⟨b, hb, he⟩ := ho.exists_block hmem
  have hu := ho.usableSize_eq hb
  rw [← he] at hu
  have h32 := (ho.outlines.valid.map.tiles.bounds (Block.mem_live.1 hb).1).2.2.1
  have hw : Step t (.write 8256 0 16 fun _ => 255) _ := .write hmem hu (by omega)
  obtain ⟨-, hall⟩ := indistinguishable hclean hdirty halike ⟨64, 4096⟩
  exact ⟨s, t, _, hrs ▸ hs, hrt ▸ ht, hw, (hall _ _ _ _ _ hs (.write ht hw)).2.1⟩

end Session

end SegregatedFit
