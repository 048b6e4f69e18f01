import SegregatedFit.Proofs.Requests

/-!
# Exact statistics

In every state of a session the statistics are what one finds when one looks at the blocks, and what
one remembers of the calls (`Session.Reachable.accounted`). For the latter there is the history of a
session: the live bytes at all moments, and the sizes of all extensions. `Session.Ledger` is what
every call preserves of it.

A call changes the live bytes once at most (`Stats.Tops`), unless a resize moves its block. Then there
is a moment at which the old and the new block are both allocated; the heap there is
`Call.halfway`, and has an outline, too (`Session.Outlined.halfway`).
-/

namespace SegregatedFit

/-! ### Peaks -/

namespace Stats

/-- From `s` to `t` the live bytes changed once, and the peak is up to date. -/
def Tops (s t : Stats) : Prop := t.peakLiveBytes = max s.peakLiveBytes t.liveBytes

theorem Tops.of_le {s t : Stats} (hp : t.peakLiveBytes = s.peakLiveBytes)
    (hl : t.liveBytes ≤ s.liveBytes) (hs : s.liveBytes ≤ s.peakLiveBytes) : s.Tops t := by
  rw [Tops, hp]; omega

end Stats

namespace Outline

variable {o o' : Outline} {b : Block} {size need : Nat}

/-- The block `b` moves to `c`; in `o₁`, halfway, both are allocated. -/
structure Moves (o : Outline) (b : Block) (size : Nat) (c : Block) (o₁ : Outline) : Prop where
  allocate : o.countReallocation.allocate size = (.ok (o.base + c.offset), o₁)
  resize : o.resize b.offset size = (.ok (o.base + c.offset), o₁.release b.offset)
  base : o₁.base = o.base
  valid : o₁.map.Valid
  live : o₁.map.live.Perm (c :: o.map.live)
  liveBytes : o₁.stats.liveBytes = o.stats.liveBytes + c.size
  allocs : o₁.stats.allocs = o.stats.allocs + 1
  reallocs : o₁.stats.reallocs = o.stats.reallocs + 1
  tops : o.stats.Tops o₁.stats

theorem Extends.tops (hx : Extends o o') (hp : o.stats.liveBytes ≤ o.stats.peakLiveBytes) :
    o.stats.Tops o'.stats := by
  obtain ⟨k, hk⟩ := hx.stats
  exact .of_le (by rw [hk]) (by rw [hk]) hp

theorem tops_allocate (hv : o.map.Valid) (hp : o.stats.liveBytes ≤ o.stats.peakLiveBytes)
    (size : Nat) : o.stats.Tops (o.allocate size).2.stats := by
  rcases allocate_cases hv size with ⟨e, o', h, hx, -⟩ | ⟨need, o', b, -, -, h, hx, -⟩ <;> rw [h]
  · exact hx.tops hp
  · obtain ⟨k, hk⟩ := hx.stats
    simp only [place, hk]; rfl

theorem moves_of_growInPlace (hv : o.map.Valid) (hneed : blockSize? size = some need)
    (hlt : (o.map.gapAt b.offset).size < need)
    (hg : o.countReallocation.growInPlace b.offset need = (.ok false, o.countReallocation)) :
    (∃ c o₁, o.Moves b size c o₁) ∨
      ∃ e o', o.resize b.offset size = (.error e, o') ∧ Extends o.countReallocation o' := by
  have hr : o.resize b.offset size = o.countReallocation.move b.offset size := by
    simp only [resize, hneed, if_neg (Nat.not_le.2 hlt), hg]
  rw [hr]
  rcases allocate_cases (o := o.countReallocation) hv size with
    ⟨e, o', h, hx, -⟩ | ⟨need', o', c, hneed', -, h, hx, hv', hc, hf, -⟩
  · exact .inr ⟨e, o', by rw [move, h], hx⟩
  obtain ⟨h32, h16, -⟩ := blockSize?_spec hneed'
  obtain ⟨k, hk⟩ := hx.stats
  have hlive := hv'.live_place (n := need') hc hf
  rw [hx.live] at hlive
  refine .inl ⟨⟨c.offset, _, true⟩, _, h, ?_, hx.base, hv'.place hc hf h32 h16, hlive,
    ?_, ?_, ?_, ?_⟩
  · rw [hr, move, h]; rfl
  all_goals simp only [place, hk]; rfl

/-- A resize moves the block, or leaves it where it is and changes the live bytes once at most. -/
theorem moves_or_tops (hv : o.map.Valid) (hp : o.stats.liveBytes ≤ o.stats.peakLiveBytes)
    (hb : b ∈ o.map.blocks) (ha : b.allocated = true) (size : Nat) :
    (∃ c o₁, o.Moves b size c o₁) ∨
      (∀ q, (o.resize b.offset size).1 = .ok q → q = o.base + b.offset) ∧
        o.stats.Tops (o.resize b.offset size).2.stats := by
  rcases hneed : blockSize? size with _ | need
  · refine .inr ?_
    simp only [resize, hneed]
    exact ⟨by rintro _ ⟨⟩, .of_le rfl (Nat.le_refl _) hp⟩
  by_cases hle : need ≤ (o.map.gapAt b.offset).size
  · refine .inr ?_
    simp only [resize, hneed, if_pos hle]
    refine ⟨fun q hq => (Except.ok.inj hq).symm, .of_le rfl ?_ hp⟩
    exact Nat.sub_le ..
  rcases growInPlace_cases (o := o.countReallocation) hv hb ha need with
    ⟨e, o', h, hx⟩ | h | ⟨o', h, hx, -⟩
  · refine .inr ?_
    simp only [resize, hneed, if_neg hle, h]
    exact ⟨by rintro _ ⟨⟩, hx.tops (o := o.countReallocation) hp⟩
  · rcases moves_of_growInPlace hv hneed (Nat.lt_of_not_le hle) h with hm | ⟨e, o', h, hx⟩
    · exact .inl hm
    · refine .inr ?_
      rw [h]
      exact ⟨by rintro _ ⟨⟩, hx.tops (o := o.countReallocation) hp⟩
  · refine .inr ?_
    obtain ⟨k, hk⟩ := hx.stats
    simp only [resize, hneed, if_neg hle, h, countInPlace, absorb, hk]
    exact ⟨fun q hq => (Except.ok.inj hq).symm, rfl⟩

theorem Moves.ne {c : Block} {o₁ : Outline} (hm : o.Moves b size c o₁) (hb : b ∈ o.map.live) :
    c.offset ≠ b.offset :=
  (hm.valid.offset_ne_of_perm hm.live b hb).symm

end Outline

/-! ### Calls -/

namespace Call

/-- The heap inside of a call that moves a block, when the new block is allocated and the old one is
not yet freed. Up to there the call has counted itself and allocated. -/
def halfway (c : Call) (h : Heap) (r : Except Error (Option Nat)) : Option Heap :=
  match c, r with
  | reallocate (some address) size, .ok (some target) =>
    if target = address then none
    else
      match (HeapM.allocate size).run (h.recount 1) with
      | .ok out => some out.heap
      | .error _ => none
  | _, _ => none

/-- No block moves. -/
def Stays (c : Call) (r : Except Error (Option Nat)) : Prop :=
  ∀ address size, c = reallocate (some address) size → ∀ target, r = .ok (some target) →
    target = address

variable {c : Call} {o : Outline} {h : Heap} {r : Except Error (Option Nat)}

theorem Stays.halfway (hs : c.Stays r) : c.halfway h r = none := by
  unfold Call.halfway
  split
  · exact if_pos (hs _ _ rfl _ rfl)
  · rfl

/-- A call moves a block, or changes the live bytes once at most. -/
theorem moves_or_tops (hv : o.map.Valid) (hp : o.stats.liveBytes ≤ o.stats.peakLiveBytes)
    (hc : c.Valid o) :
    (∃ b size d o₁, b ∈ o.map.live ∧ c = reallocate (some (o.base + b.offset)) size ∧
      o.Moves b size d o₁ ∧ c.outline o = (.ok (some (o.base + d.offset)), o₁.release b.offset)) ∨
    c.Stays (c.outline o).1 ∧ o.stats.Tops (c.outline o).2.stats := by
  cases c with
  | allocate size => exact .inr ⟨by rintro _ _ ⟨⟩, Outline.tops_allocate hv hp size⟩
  | allocateZeroed count size =>
    refine .inr ⟨by rintro _ _ ⟨⟩, ?_⟩
    rw [outline, Outline.allocateZeroed]
    split
    · exact .of_le rfl (Nat.le_refl _) hp
    · exact Outline.tops_allocate hv hp (count * size)
  | free address =>
    refine .inr ⟨by rintro _ _ ⟨⟩, ?_⟩
    rcases address with _ | address
    · exact .of_le rfl (Nat.le_refl _) hp
    · exact .of_le rfl (Nat.sub_le ..) hp
  | reallocate address size =>
    rcases address with _ | address
    · exact .inr ⟨by rintro _ _ ⟨⟩, Outline.tops_allocate hv hp size⟩
    obtain ⟨b, hb, rfl⟩ := hc address rfl
    obtain ⟨hmem, ha⟩ := Block.mem_live.1 hb
    rw [outline, Outline.reallocate, Nat.add_sub_cancel_left]
    by_cases h0 : size = 0
    · rw [if_pos h0]
      exact .inr ⟨by rintro _ _ - _ ⟨⟩, .of_le rfl (Nat.sub_le ..) hp⟩
    rw [if_neg h0]
    rcases Outline.moves_or_tops hv hp hmem ha size with ⟨d, o₁, hm⟩ | ⟨hstay, htops⟩
    · exact .inl ⟨b, size, d, o₁, hb, rfl, hm, by rw [hm.resize]; rfl⟩
    · refine .inr ⟨?_, htops⟩
      rintro _ _ ⟨⟩ target htarget
      exact hstay target (Except.eq_ok_of_map_some htarget)

end Call

theorem Outline.Outlines.liveBytes_le {o : Outline} {h : Heap} (ho : o.Outlines h) :
    h.firstBlock + h.stats.liveBytes ≤ h.size := by
  have hsize : h.size = o.map.stop := ho.describes.size
  rw [ho.first, ho.stats, hsize, ho.valid.live]
  exact Nat.add_le_add_left (Block.totalSize_filter_le ..) _

namespace Session

variable {s s' : Session} {o o₁ : Outline} {b d : Block} {size : Nat} {out : Outcome (Option Nat)}

/-- Halfway, the heap has the outline with both blocks. -/
theorem Outlined.halfway (h : s.Outlined o) (hb : b ∈ o.map.live) (hm : o.Moves b size d o₁)
    (hv : (o₁.release b.offset).Valid)
    (hres : out.result = .ok (some (o.base + d.offset))) :
    ∃ k, (Call.reallocate (some (o.base + b.offset)) size).halfway s.heap out.result = some k ∧
      o₁.Outlines k := by
  have hallocs : o₁.stats.allocs < Word.limit := hv.allocs_lt
  have hreallocs : o₁.stats.reallocs < Word.limit := hv.reallocs_lt
  rw [hm.allocs] at hallocs
  rw [hm.reallocs, ← h.outlines.stats] at hreallocs
  have ho₁ := h.outlines.recount hreallocs
  have hf : HeapM.Follows False _ _ _ _ :=
    HeapM.allocate_follows size ho₁ fun hle => absurd hallocs (Nat.not_lt.2 hle)
  rw [hm.allocate] at hf
  rcases hf with ⟨hf, -⟩ | ⟨k, l, hrun, hk, -⟩
  · cases hf
  refine ⟨k, ?_, hk⟩
  have hne : o.base + d.offset ≠ o.base + b.offset := fun he => hm.ne hb (Nat.add_left_cancel he)
  rw [hres]
  show (if o.base + d.offset = o.base + b.offset then none else _) = _
  rw [if_neg hne, hrun]

/-- A call moves a block, and there is a heap halfway, or the live bytes change once at most. -/
theorem Outlined.call_cases {c : Call} (h : s.Outlined o)
    (hp : s.heap.stats.liveBytes ≤ s.heap.stats.peakLiveBytes)
    (hc : ∀ address ∈ c.handed, address ∈ s.pointers) (hr : c.perform.run s.heap = .ok out) :
    (∃ b size d o₁ k, b ∈ o.map.live ∧ c = .reallocate (some (o.base + b.offset)) size ∧
      o.Moves b size d o₁ ∧ c.outline o = (.ok (some (o.base + d.offset)), o₁.release b.offset) ∧
      c.halfway s.heap out.result = some k ∧ o₁.Outlines k) ∨
    c.Stays out.result ∧ s.heap.stats.Tops out.heap.stats := by
  obtain ⟨hres, -, h'⟩ := h.call hc hr
  have hstats : out.heap.stats = _ := h'.outlines.stats
  have hp' : o.stats.liveBytes ≤ o.stats.peakLiveBytes := by rw [← h.outlines.stats]; exact hp
  rcases Call.moves_or_tops h.outlines.valid.map hp' (h.valid_call hc) with
    ⟨b, size, d, o₁, hb, rfl, hm, hy⟩ | ⟨hstays, htops⟩
  · have hv := h'.outlines.valid
    rw [hy] at hres hv
    obtain ⟨k, hk, hok⟩ := h.halfway hb hm hv hres
    exact .inl ⟨b, size, d, o₁, k, hb, rfl, hm, hy, hk, hok⟩
  · rw [h.outlines.stats, hres, hstats]
    exact .inr ⟨hstays, htops⟩

end Session

/-! ### New heaps -/

namespace HeapM

variable {α β : Type} {x : HeapM α} {f : α → HeapM β} {h k : Heap} {b : β} {l : List Event}

theorem run_grow_eq_ok {n a : Nat} (hr : (grow n).run h = .ok ⟨.ok a, k, l⟩) :
    a = h.size ∧ k.size = h.size + n ∧ k.stats = h.stats ∧ l = [] := by
  rcases hg : h.provider.grow n with ⟨q, r⟩
  rw [run_grow_eq hg] at hr
  cases hr
  obtain ⟨rfl, ha⟩ := Provider.grow_ok hg
  exact ⟨rfl, congrArg Arena.size ha, rfl, rfl⟩

theorem run_updateArena_eq_ok {g : Arena → Except Fault Arena} {u : Unit}
    (hg : ∀ a : Arena, a.Extent id (g a)) (hr : (updateArena g).run h = .ok ⟨.ok u, k, l⟩) :
    k.size = h.size ∧ k.stats = h.stats ∧ l = [] := by
  rcases ha : g h.arena with fault | a
  · have hfault : (updateArena g).run h = .error fault :=
      run_updatePool_of_fault (by simp only [Heap.pool, show g h.provider.arena = _ from ha]; rfl)
    rw [hfault] at hr
    cases hr
  · rw [run_updateArena ha] at hr
    cases hr
    exact ⟨(hg _ _ ha).size, rfl, rfl⟩

theorem run_writePrologue_eq_ok {bp : Nat} (hr : (writePrologue bp).run h = .ok ⟨.ok (), k, l⟩) :
    k.size = h.size ∧ k.firstBlock = bp + prologueSize ∧ k.stats = h.stats ∧ l = [] := by
  obtain ⟨_, k', l₁, l₂, hx, hf, hl⟩ := run_bind_eq_ok_ok hr
  cases hf
  obtain ⟨hsize, hstats, rfl⟩ := run_updateArena_eq_ok (fun a => .bind (.writeWord (.refl a))
    fun _ h => .bind (.writeWord h) fun _ h => .bind (.writeWord h) fun _ h => .writeWord h) hx
  exact ⟨hsize, rfl, hstats, hl⟩

/-- What the prologue begins, the first extension ends. -/
theorem extensions_of_prologue {n : Nat} (hr : (do
      let bp ← grow prologueSize
      writePrologue bp
      let _ ← extend n
      let heapSize ← ask fun h => pure h.size
      emit (.initialised heapSize) : HeapM Unit).run h = .ok ⟨.ok (), k, l⟩) :
    k.stats.heapExtensions = h.stats.heapExtensions + (grants l).length ∧
      k.size = k.firstBlock + (grants l).sum := by
  obtain ⟨bp, h₁, l₁, l₂, hgrow, hr₁, rfl⟩ := run_bind_eq_ok_ok hr
  obtain ⟨_, h₂, l₃, l₄, hprologue, hr₂, rfl⟩ := run_bind_eq_ok_ok hr₁
  obtain ⟨rfl, hsize₁, hstats₁, rfl⟩ := run_grow_eq_ok hgrow
  obtain ⟨hsize₂, hfirst, hstats₂, rfl⟩ := run_writePrologue_eq_ok hprologue
  have htail := ((Asks.extend n).bind fun _ => .step (.ask _) fun size =>
    .emit (show (Event.initialised size).request = none from rfl)).asked hr₂
  have hcounted : k.stats.heapExtensions = h₂.stats.heapExtensions + (grants l₄).length :=
    htail.counted
  have hsize : k.size = h₂.size + (grants l₄).sum := htail.size
  have hstart : k.firstBlock = h₂.firstBlock := congrArg (· + 2 * wordSize) htail.start
  rw [List.nil_append, List.nil_append, hcounted, hstats₂, hstats₁, hsize, hsize₂, hsize₁, hstart,
    hfirst]
  exact ⟨rfl, rfl⟩

end HeapM

namespace Heap

variable {p : Provider} {config : Config} {heap : Heap} {events : List Event}

/-- Creating a heap ends with its prologue and its first extension, behind an aligned arena. -/
theorem run_prologue_of_create (hc : create p config = .ok ⟨.ok heap, events⟩) :
    ∃ q : Provider, (q = p ∨ ∃ bp, p.grow (HeapM.paddingFor p.arena.size) = (q, .ok bp)) ∧
      q.arena.size = ceilAligned p.arena.size ∧ (do
        let bp ← HeapM.grow prologueSize
        HeapM.writePrologue bp
        let _ ← HeapM.extend config.chunkSize
        let heapSize ← HeapM.ask fun h => pure h.size
        HeapM.emit (.initialised heapSize)).run ⟨q, config, .empty, 0, {}⟩ =
          .ok ⟨.ok (), heap, events⟩ := by
  have hr : HeapM.layOut.run ⟨p, config, .empty, 0, {}⟩ = .ok ⟨.ok (), heap, events⟩ := by
    unfold create at hc
    split at hc <;> cases hc
    assumption
  have hle := le_ceilAligned p.arena.size
  obtain ⟨_, _, l₁, l₂, hconfig, hr₁, rfl⟩ := HeapM.run_bind_eq_ok_ok hr
  cases hconfig
  obtain ⟨_, _, l₃, l₄, hvalidate, hr₂, rfl⟩ := HeapM.run_bind_eq_ok_ok hr₁
  rw [HeapM.run_ask (validate_of_create hc)] at hvalidate
  cases hvalidate
  obtain ⟨_, _, l₅, l₆, hused, hr₃, rfl⟩ := HeapM.run_bind_eq_ok_ok hr₂
  cases hused
  simp only at hr₃
  split at hr₃
  · obtain ⟨bp, h, l₇, l₈, hpadding, hr₄, rfl⟩ := HeapM.run_bind_eq_ok_ok hr₃
    rcases hg : p.grow (HeapM.paddingFor p.arena.size) with ⟨q, r⟩
    have hrun : (HeapM.grow (HeapM.paddingFor p.arena.size)).run ⟨p, config, .empty, 0, {}⟩ = _ :=
      HeapM.run_grow_eq hg
    rw [show Heap.size ⟨p, config, .empty, 0, {}⟩ = p.arena.size from rfl, hrun] at hpadding
    cases hpadding
    refine ⟨q, .inr ⟨bp, rfl⟩, ?_, hr₄⟩
    rw [(Provider.grow_ok hg).2]
    exact Nat.add_sub_cancel' hle
  · next hpad =>
    replace hpad : ¬0 < ceilAligned p.arena.size - p.arena.size := hpad
    exact ⟨p, .inl rfl, by omega, hr₃⟩

/-- A new heap consists of what is before its first block, and of its first extension. -/
theorem extensions_of_create (hc : create p config = .ok ⟨.ok heap, events⟩) :
    heap.stats.heapExtensions = (grants events).length ∧
      heap.size = heap.firstBlock + (grants events).sum := by
  obtain ⟨q, -, -, hr⟩ := run_prologue_of_create hc
  simpa using HeapM.extensions_of_prologue hr

theorem liveBytes_of_create (hp : p.Sound) (hc : create p config = .ok ⟨.ok heap, events⟩) :
    heap.stats.liveBytes = 0 ∧ heap.stats.peakLiveBytes = 0 := by
  obtain ⟨o, hy, ho, -⟩ := create_outlines hp hc
  obtain ⟨q, bp, x, -, hx⟩ := Outline.create_eq_ok hy
  rcases (Outline.empty q config).extend_cases config.chunkSize with
    ⟨e, source, hext, -⟩ | ⟨n, source, -, -, -, -, hext⟩ <;> rw [hx] at hext <;> cases hext
  rw [ho.stats]
  exact ⟨rfl, rfl⟩

end Heap

/-! ### Histories -/

theorem isGreatest_append {xs : List Nat} {a : Nat} (h : IsGreatest {x | x ∈ xs} a) (n : Nat) :
    IsGreatest {x | x ∈ xs ++ [n]} (max a n) := by
  have hset : {x | x ∈ xs ++ [n]} = {x | x ∈ xs} ∪ {n} := by ext x; simp [or_comm]
  rw [hset]
  exact h.union isGreatest_singleton

namespace Session

/-- `lives` are the live bytes at all moments, from the creation of the heap on, at which they may
have changed, and `sizes` the extensions that were granted. -/
inductive History : Session → (lives sizes : List Nat) → Prop
  | start {p : Provider} {config : Config} {h : Heap} {events : List Event} (hp : p.Sound)
      (hc : Heap.create p config = .ok ⟨.ok h, events⟩) :
      History (start h) [h.stats.liveBytes] (grants events)
  | call {s : Session} {lives sizes : List Nat} {c : Call} {out : Outcome (Option Nat)}
      (hs : History s lives sizes) (hc : ∀ address ∈ c.handed, address ∈ s.pointers)
      (hr : c.perform.run s.heap = .ok out) :
      History ⟨out.heap, answered s.held c out.result, s.calls + 1⟩
        (lives ++ ((c.halfway s.heap out.result).map (·.stats.liveBytes)).toList ++
          [out.heap.stats.liveBytes])
        (sizes ++ grants out.events)
  | other {s s' : Session} {lives sizes : List Nat} {m : Move} (hs : History s lives sizes)
      (h : Step s m s') (hm : ∀ c r, m ≠ .call c r) : History s' lives sizes

theorem History.reachable {s : Session} {lives sizes : List Nat} (h : s.History lives sizes) :
    s.Reachable := by
  induction h with
  | start hp hc => exact .start hp hc
  | call _ hc hr ih => exact ih.step (.call hc hr)
  | other _ h _ ih => exact ih.step h

theorem Reachable.history {s : Session} (h : s.Reachable) :
    ∃ lives sizes, s.History lives sizes := by
  induction h with
  | start hp hc => exact ⟨_, _, .start hp hc⟩
  | step _ h ih =>
    obtain ⟨lives, sizes, ih⟩ := ih
    cases h with
    | call hc hr => exact ⟨_, _, .call ih hc hr⟩
    | write ha hu hn => exact ⟨_, _, .other ih (.write ha hu hn) fun _ _ => nofun⟩
    | moveEnd hd => exact ⟨_, _, .other ih (.moveEnd hd) fun _ _ => nofun⟩

/-- What the history says about the heap. -/
structure Ledger (s : Session) (lives sizes : List Nat) : Prop where
  counted : s.heap.stats.heapExtensions = sizes.length
  size : s.heap.size = s.heap.firstBlock + sizes.sum
  peak : IsGreatest {n | n ∈ lives} s.heap.stats.peakLiveBytes
  last : s.heap.stats.liveBytes ∈ lives
  bounded : ∀ n ∈ lives, s.heap.firstBlock + n ≤ s.heap.size

namespace Ledger

variable {s s' : Session} {lives sizes : List Nat} {m : Move}

theorem start {p : Provider} {config : Config} {h : Heap} {events : List Event} (hp : p.Sound)
    (hc : Heap.create p config = .ok ⟨.ok h, events⟩) :
    Ledger (start h) [h.stats.liveBytes] (grants events) := by
  obtain ⟨hcounted, hsize⟩ := Heap.extensions_of_create hc
  obtain ⟨hlive, hpeak⟩ := Heap.liveBytes_of_create hp hc
  refine ⟨hcounted, hsize, ?_, List.mem_singleton_self _, ?_⟩
  · show IsGreatest _ h.stats.peakLiveBytes
    rw [hpeak, hlive]
    simp
  · intro n hn
    obtain rfl := List.mem_singleton.1 hn
    show h.firstBlock + h.stats.liveBytes ≤ h.size
    rw [hlive, hsize]
    exact Nat.le_add_right ..

/-- Writing, and moving the end of the segment, have nothing to do with the statistics. -/
theorem other (hl : s.Ledger lives sizes) (h : Step s m s') (hm : ∀ c r, m ≠ .call c r) :
    s'.Ledger lives sizes := by
  have hsame : s'.heap.stats = s.heap.stats ∧ s'.heap.size = s.heap.size ∧
      s'.heap.start = s.heap.start := by
    cases h with
    | call => exact absurd rfl (hm _ _)
    | write => exact ⟨rfl, Arena.size_fill, rfl⟩
    | moveEnd hd => exact ⟨rfl, (Provider.moveEnd_spec hd).2.size, rfl⟩
  obtain ⟨hstats, hsize, hstart⟩ := hsame
  obtain ⟨h1, h2, h3, h4, h5⟩ := hl
  simp only [Heap.firstBlock] at h2 h5
  exact ⟨by rw [hstats]; exact h1, by rw [hsize, Heap.firstBlock, hstart]; exact h2,
    by rw [hstats]; exact h3, by rw [hstats]; exact h4,
    by rw [hsize, Heap.firstBlock, hstart]; exact h5⟩

/-- The live bytes halfway through a call, if it moves a block. -/
theorem halfway {c : Call} {out : Outcome (Option Nat)} {o : Outline} (h : s.Outlined o)
    (hp : s.heap.stats.liveBytes ≤ s.heap.stats.peakLiveBytes)
    (hc : ∀ address ∈ c.handed, address ∈ s.pointers) (hr : c.perform.run s.heap = .ok out) :
    (∃ k, c.halfway s.heap out.result = some k ∧ s.heap.stats.Tops k.stats ∧
      k.stats.Tops out.heap.stats ∧ out.heap.firstBlock + k.stats.liveBytes ≤ out.heap.size) ∨
    c.halfway s.heap out.result = none ∧ s.heap.stats.Tops out.heap.stats := by
  have ho := (h.call hc hr).2.2.outlines
  rcases h.call_cases hp hc hr with
    ⟨b, size, d, o₁, k, hb, rfl, hm, hy, hk, hok⟩ | ⟨hstays, htops⟩
  · rw [hy] at ho
    have hb' := (Block.mem_live.1 (hm.live.mem_iff.2 (List.mem_cons_of_mem d hb))).1
    have hfirst : out.heap.firstBlock = k.firstBlock :=
      (ho.first.trans (hm.valid.first_release hb')).trans hok.first.symm
    have hsize : out.heap.size = k.size :=
      (ho.describes.size.trans (hm.valid.stop_release hb')).trans hok.describes.size.symm
    have hstats : out.heap.stats = (o₁.release b.offset).stats := ho.stats
    refine .inl ⟨k, hk, by rw [h.outlines.stats, hok.stats]; exact hm.tops, ?_, ?_⟩
    · rw [hok.stats, hstats]
      refine .of_le rfl (Nat.sub_le ..) ?_
      rw [hm.tops]
      exact Nat.le_max_right ..
    · rw [hfirst, hsize]
      exact hok.liveBytes_le
  · exact .inr ⟨hstays.halfway, htops⟩

theorem call {c : Call} {out : Outcome (Option Nat)} (hl : s.Ledger lives sizes) {o : Outline}
    (h : s.Outlined o) (hc : ∀ address ∈ c.handed, address ∈ s.pointers)
    (hr : c.perform.run s.heap = .ok out) :
    Ledger ⟨out.heap, answered s.held c out.result, s.calls + 1⟩
      (lives ++ ((c.halfway s.heap out.result).map (·.stats.liveBytes)).toList ++
        [out.heap.stats.liveBytes]) (sizes ++ grants out.events) := by
  have ha := c.asks_perform.asked hr
  have hfirst : out.heap.firstBlock = s.heap.firstBlock := congrArg (· + 2 * wordSize) ha.start
  have hle := (h.call hc hr).2.2.outlines.liveBytes_le
  have hhalf := halfway h (hl.peak.2 hl.last) hc hr
  refine ⟨?_, ?_, ?_, List.mem_append_right _ (List.mem_singleton_self _), ?_⟩
  · rw [List.length_append, ← hl.counted]
    exact ha.counted
  · show out.heap.size = out.heap.firstBlock + _
    rw [ha.size, hl.size, hfirst, List.sum_append, Nat.add_assoc]
  · show IsGreatest _ out.heap.stats.peakLiveBytes
    rcases hhalf with ⟨k, hk, htops, htops', -⟩ | ⟨hnone, htops⟩
    · rw [hk, htops', htops]
      exact isGreatest_append (isGreatest_append hl.peak _) _
    · rw [hnone, htops, Option.map_none, Option.toList_none, List.append_nil]
      exact isGreatest_append hl.peak _
  · intro n hn
    show out.heap.firstBlock + n ≤ out.heap.size
    rcases List.mem_append.1 hn with hn | hn
    · rcases List.mem_append.1 hn with hn | hn
      · have hbound := hl.bounded n hn
        have hsize := ha.size
        omega
      · rcases hhalf with ⟨k, hk, -, -, hbound⟩ | ⟨hnone, -⟩
        · rw [hk] at hn
          obtain rfl := List.mem_singleton.1 hn
          exact hbound
        · rw [hnone] at hn
          cases hn
    · obtain rfl := List.mem_singleton.1 hn
      exact hle

end Ledger

theorem History.ledger {s : Session} {lives sizes : List Nat} (h : s.History lives sizes) :
    s.Ledger lives sizes := by
  induction h with
  | start hp hc => exact .start hp hc
  | call hs hc hr ih =>
    obtain ⟨o, ho⟩ := hs.reachable.outlined
    exact ih.call ho hc hr
  | other _ h hm ih => exact ih.other h hm

/-! ### The statistics -/

/-- With `k` halfway, old and new block are both counted. -/
structure Moved (s : Session) (address target : Nat) (k : Heap) (s' : Session) : Prop where
  new : ∃ n, (s'.heap.usableSize (some target)).run = .ok (.ok n) ∧
    k.stats.liveBytes = s.heap.stats.liveBytes + (n + wordSize)
  old : ∃ n, (s.heap.usableSize (some address)).run = .ok (.ok n) ∧
    k.stats.liveBytes = s'.heap.stats.liveBytes + (n + wordSize)

/-- The statistics are exact. -/
structure Accounted (s : Session) (lives sizes : List Nat) : Prop where
  blocks : ∃ bs, s.heap.blocks = .ok bs ∧
    s.heap.stats.liveBytes = Block.totalSize (bs.filter (·.allocated)) ∧
    s.heap.stats.allocs = s.heap.stats.frees + (bs.filter (·.allocated)).length
  free : ∃ n, s.heap.freeBytes = .ok n ∧
    s.heap.size = s.heap.firstBlock + (s.heap.stats.liveBytes + n)
  inPlace : s.heap.stats.inPlaceReallocs ≤ s.heap.stats.reallocs
  extensions : s.heap.stats.heapExtensions = sizes.length
  size : s.heap.size = s.heap.firstBlock + sizes.sum
  peak : IsGreatest {n | n ∈ lives} s.heap.stats.peakLiveBytes
  live_le : s.heap.stats.liveBytes ≤ s.heap.stats.peakLiveBytes
  peak_le : s.heap.stats.peakLiveBytes ≤ s.heap.size - s.heap.firstBlock
  /-- Among `lives` is the moment at which a block that moves is there twice. -/
  moved : ∀ address size target s',
    Step s (.call (.reallocate (some address) size) (.ok (some target))) s' → target ≠ address →
    ∃ k, (Call.reallocate (some address) size).halfway s.heap (.ok (some target)) = some k ∧
      s.Moved address target k s'

theorem Outlined.moved {s s' : Session} {o o₁ : Outline} {b d : Block} {size : Nat} {k : Heap}
    (h : s.Outlined o) (hb : b ∈ o.map.live) (hm : o.Moves b size d o₁) (hk : o₁.Outlines k)
    (h' : s'.Outlined (o₁.release b.offset)) :
    s.Moved (o.base + b.offset) (o.base + d.offset) k s' := by
  obtain ⟨hmem, ha⟩ := Block.mem_live.1 hb
  have hb' := (Block.mem_live.1 (hm.live.mem_iff.2 (List.mem_cons_of_mem d hb))).1
  have hrelease := hm.valid.live_release hb' ha
  have hd : d ∈ (o₁.release b.offset).map.live := by
    have hmem := hrelease.mem_iff.1 (hm.live.mem_iff.2 List.mem_cons_self)
    refine (List.mem_cons.1 hmem).resolve_left fun hdb => ?_
    exact hm.ne hb (congrArg Block.offset hdb)
  have hd32 := (h'.outlines.valid.map.tiles.bounds (Block.mem_live.1 hd).1).2.2.1
  have hb32 := (h.outlines.valid.map.tiles.bounds hmem).2.2.1
  have hlive : o₁.stats.liveBytes = b.size + Block.totalSize (o₁.release b.offset).map.live := by
    rw [hk.valid.live, Block.totalSize_perm hrelease]; rfl
  refine ⟨⟨d.size - 8, ?_, ?_⟩, b.size - 8, h.usableSize_eq hb, ?_⟩
  · rw [← hm.base]; exact h'.usableSize_eq hd
  · rw [hk.stats, h.outlines.stats, hm.liveBytes, wordSize]
    omega
  · rw [hk.stats, h'.outlines.stats, hlive, h'.outlines.valid.live, wordSize]
    omega

/-- In every state the statistics are exact, whatever calls were made and whether or not they
failed. -/
theorem Reachable.accounted {s : Session} (hs : s.Reachable) :
    (∃ lives sizes, s.History lives sizes) ∧
      ∀ lives sizes, s.History lives sizes → s.Accounted lives sizes := by
  refine ⟨hs.history, fun lives sizes hist => ?_⟩
  obtain ⟨o, ho⟩ := hs.outlined
  have hl := hist.ledger
  have hv := ho.outlines.valid
  have hstats := ho.outlines.stats
  have hsize : s.heap.size = o.map.stop := ho.size_eq
  refine ⟨⟨_, ho.blocks_eq, by rw [hstats]; exact hv.live, ?_⟩, ?_, by rw [hstats]; exact hv.inPlace,
    hl.counted, hl.size, hl.peak, hl.peak.2 hl.last, ?_, ?_⟩
  · rw [hstats]; exact hv.count.symm
  · refine ⟨_, by rw [Heap.freeBytes, ho.blocks_eq]; rfl, ?_⟩
    rw [hsize, ho.outlines.first, hstats, hv.live, MemoryMap.live, Block.totalSize_live_add]
    rfl
  · have := hl.bounded _ hl.peak.1
    omega
  · intro address size target s' hstep hne
    obtain ⟨hc, out, hr, hres, -⟩ := step_call_iff.1 hstep
    have h' := (ho.step_call hstep).2
    rcases ho.call_cases (hl.peak.2 hl.last) hc hr with
      ⟨b, size', d, o₁, k, hb, hcall, hmoves, hy, hk, hok⟩ | ⟨hstays, -⟩
    · obtain ⟨hadd, rfl⟩ := Call.reallocate.inj hcall
      obtain rfl := Option.some.inj hadd
      have htarget := (ho.step_call hstep).1
      rw [hy] at htarget h'
      obtain rfl := Option.some.inj (Except.ok.inj htarget)
      exact ⟨k, hres ▸ hk, ho.moved hb hmoves hok h'⟩
    · exact absurd (hstays _ _ rfl _ hres) hne

theorem pair_moved : pair.map (fun s =>
    ((Call.reallocate (some 1056) 30).perform.run s.heap).map fun out =>
      (out.result, out.heap.stats.liveBytes, out.heap.stats.peakLiveBytes)) =
    some (.ok (.ok (some 1136), 96, 128)) := by
  decide +kernel

/-- A block of 32 bytes becomes one of 48 bytes elsewhere. Halfway both are there, and that is the
peak. -/
theorem accounted_pair : ∃ s s' lives sizes lives' sizes' k, pair = some s ∧ s.Reachable ∧
    s.History lives sizes ∧ s.Accounted lives sizes ∧
    Step s (.call (.reallocate (some 1056) 30) (.ok (some 1136))) s' ∧
    s.Moved 1056 1136 k s' ∧ k.stats.liveBytes = 128 ∧
    s'.History lives' sizes' ∧ s'.Accounted lives' sizes' ∧
    s'.heap.stats.liveBytes = 96 ∧ IsGreatest {n | n ∈ lives'} 128 := by
  obtain ⟨s, hs, hr, hp, -, husable, -⟩ := exists_pair
  have hmoved := pair_moved
  rw [hs] at hmoved
  rcases hrun : (Call.reallocate (some 1056) 30).perform.run s.heap with fault | ⟨r, h, events⟩ <;>
    simp only [Option.map_some, hrun, Except.map, Option.some.injEq, Except.ok.injEq, Prod.mk.injEq,
      reduceCtorEq] at hmoved
  obtain ⟨rfl, hlive, hpeak⟩ := hmoved
  have hm : Step s (.call (.reallocate (some 1056) 30) (.ok (some 1136))) _ :=
    .call (by rintro _ ⟨⟩; simp [hp]) hrun
  obtain ⟨⟨lives, sizes, hist⟩, haccounted⟩ := Reachable.accounted hr
  obtain ⟨⟨lives', sizes', hist'⟩, haccounted'⟩ := Reachable.accounted (hr.step hm)
  have ha := haccounted _ _ hist
  have ha' := haccounted' _ _ hist'
  obtain ⟨k, -, hk⟩ := ha.moved _ _ _ _ hm (by decide)
  refine ⟨s, _, lives, sizes, lives', sizes', k, hs, hr, hist, ha, hm, hk, ?_, hist', ha', hlive, ?_⟩
  · obtain ⟨n, hn, heq⟩ := hk.old
    cases husable.symm.trans hn
    rw [heq]
    show h.stats.liveBytes + _ = _
    rw [hlive]
    rfl
  · rw [← hpeak]
    exact ha'.peak

end Session

end SegregatedFit
