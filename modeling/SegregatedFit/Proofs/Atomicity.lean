import SegregatedFit.Proofs.Recounting

/-!
# Failed calls change nothing

An operation reads, then asks the source for bytes if it has to, and changes the heap only after that.
So it is `HeapM.Atomic`: where it stops with an error, the heap is as before, but for the source, which
has refused a request. A resize counts itself before it asks.

After a failed call of a session, everything but the source and that count is as before, and all runs
go on as if the call had not been made (`Session.Reachable.atomic_of_error`).
-/

namespace SegregatedFit

namespace Heap

def withSource (h : Heap) (source : Source) : Heap :=
  { h with provider := { h.provider with source } }

/-- `h'` is `h`, but for the source, which may have refused a request. -/
def Refused (h h' : Heap) : Prop :=
  ∃ source, h' = h.withSource source ∧ (source = h.provider.source ∨
    ∃ n e, h.provider.source.request h.arena.base h.size n = (source, .error e))

theorem Refused.refl (h : Heap) : h.Refused h := ⟨h.provider.source, rfl, .inl rfl⟩

end Heap

theorem Outline.Outlines.recount {o : Outline} {h : Heap} (ho : o.Outlines h)
    (hlt : h.stats.reallocs + 1 < Word.limit) : o.countReallocation.Outlines (h.recount 1) := by
  rw [ho.stats] at hlt
  exact ⟨ho.valid.countReallocation hlt, ho.describes, ho.base, ho.source, ho.config, ho.first,
    congrArg Stats.reallocated ho.stats⟩

namespace HeapM

variable {α β : Type} {x : HeapM α} {f : α → HeapM β}

/-- A sequence stops where its first step stops, or is both steps. -/
theorem run_bind_eq_ok {h : Heap} {out : Outcome β} (hx : (x >>= f).run h = .ok out) :
    (∃ e h' l, x.run h = .ok ⟨.error e, h', l⟩ ∧ out = ⟨.error e, h', l⟩) ∨
    ∃ a h' l out', x.run h = .ok ⟨.ok a, h', l⟩ ∧ (f a).run h' = .ok out' ∧
      out = out'.after l := by
  rcases hr : x.run h with fault | ⟨e | a, h', l⟩
  · rw [run_bind_of_fault hr] at hx; cases hx
  · rw [run_bind_of_error hr] at hx
    exact .inl ⟨e, h', l, rfl, (Except.ok.inj hx).symm⟩
  · rw [run_bind_of_ok hr] at hx
    rcases hf : (f a).run h' with fault | out' <;> rw [hf] at hx
    · cases hx
    · exact .inr ⟨a, h', l, out', rfl, hf, (Except.ok.inj hx).symm⟩

/-- A sequence that does not stop is both its steps. -/
theorem run_bind_eq_ok_ok {h k : Heap} {b : β} {l : List Event}
    (hr : (x >>= f).run h = .ok ⟨.ok b, k, l⟩) :
    ∃ a k' l₁ l₂, x.run h = .ok ⟨.ok a, k', l₁⟩ ∧ (f a).run k' = .ok ⟨.ok b, k, l₂⟩ ∧
      l = l₁ ++ l₂ := by
  rcases run_bind_eq_ok hr with ⟨_, _, _, -, he⟩ | ⟨a, k', l₁, ⟨r, k₂, l₂⟩, hx, hf, he⟩ <;> cases he
  exact ⟨a, k', l₁, l₂, hx, hf, rfl⟩

theorem exists_run_of_bind {h k : Heap} {a : α} {l : List Event} {out : Outcome β}
    (hx : x.run h = .ok ⟨.ok a, k, l⟩) (hr : (x >>= f).run h = .ok out) :
    ∃ out', (f a).run k = .ok out' ∧ out = out'.after l := by
  rw [run_bind_of_ok hx] at hr
  rcases hf : (f a).run k with fault | out' <;> rw [hf] at hr <;> cases hr
  exact ⟨out', rfl, rfl⟩

/-! ### Steps that do not change the heap -/

def ReadOnly (x : HeapM α) : Prop :=
  ∀ h out, x.run h = .ok out → out.heap = h

namespace ReadOnly

protected theorem pure (a : α) : ReadOnly (pure a : HeapM α) := by
  rintro h out ⟨⟩; rfl

theorem throw (e : Error) : ReadOnly (throw e : HeapM α) := by
  rintro h out ⟨⟩; rfl

theorem ask (g : Heap → Fallible α) : ReadOnly (HeapM.ask g) := by
  intro h out hr
  simp only [HeapM.run, HeapM.ask] at hr
  rcases hx : (g h).run with fault | r <;> rw [hx] at hr <;> cases hr
  rfl

theorem ofChecked (c : Except Fault α) : ReadOnly (HeapM.ofChecked c) := by
  intro h out hr
  rcases c with fault | a <;> cases hr
  rfl

end ReadOnly

/-! ### Steps that do not fail -/

/-- No error but that a pointer is none of the arena's. -/
def Steady (x : HeapM α) : Prop :=
  ∀ h h' e l, x.run h = .ok ⟨.error e, h', l⟩ → e.Foreign

namespace Steady

protected theorem pure (a : α) : Steady (pure a : HeapM α) := by
  rintro h h' e l ⟨⟩

theorem emit (e : Event) : Steady (HeapM.emit e) := by
  rintro h h' e l ⟨⟩

theorem ask {g : Heap → Fallible α} (hg : ∀ h e, (g h).run = .ok (.error e) → e.Foreign) :
    Steady (HeapM.ask g) := by
  intro h h' e l hr
  simp only [HeapM.run, HeapM.ask] at hr
  rcases hx : (g h).run with fault | r <;> rw [hx] at hr <;> cases hr
  exact hg h e hx

theorem ofChecked (c : Except Fault α) : Steady (HeapM.ofChecked c) := by
  intro h h' e l hr
  rcases c with fault | a <;> cases hr

theorem updatePool (g : Pool → Except Fault (α × Pool)) : Steady (HeapM.updatePool g) := by
  intro h h' e l hr
  obtain ⟨⟨arena, source⟩, config, index, start, stats⟩ := h
  simp only [HeapM.run, HeapM.updatePool] at hr
  rcases hx : g ⟨arena, index⟩ with fault | ⟨a, p⟩ <;> rw [hx] at hr <;> cases hr

theorem updateStats (g : Stats → Except Fault Stats) : Steady (HeapM.updateStats g) := by
  intro h h' e l hr
  simp only [HeapM.run, HeapM.updateStats] at hr
  rcases hx : g h.stats with fault | t <;> rw [hx] at hr <;> cases hr

theorem bind (hx : Steady x) (hf : ∀ a, Steady (f a)) : Steady (x >>= f) := by
  intro h h' e l hrun
  rcases run_bind_eq_ok hrun with ⟨e', k, l', hr, he⟩ | ⟨a, k, l', ⟨r, k', l''⟩, -, hr, he⟩ <;>
    cases he
  · exact hx _ _ _ _ hr
  · exact hf a _ _ _ _ hr

theorem header (bp : Nat) : Steady (HeapM.header bp) := by
  refine ask fun h e hr => ?_
  rcases hx : h.arena.header bp with fault | t <;> rw [hx] at hr <;> cases hr

theorem offsetOf (address : Nat) : Steady (HeapM.offsetOf address) := by
  refine ask fun h e hr => ?_
  rw [Heap.offsetOf] at hr
  split_ifs at hr <;> cases hr
  trivial

theorem reportMerge (m : Merge) : Steady (HeapM.reportMerge m) :=
  (emit _).bind fun _ => .pure _

theorem updateArena (g : Arena → Except Fault Arena) : Steady (HeapM.updateArena g) :=
  updatePool _

theorem freeBlock (bp : Nat) : Steady (HeapM.freeBlock bp) :=
  .bind (.header bp) fun _ => .bind (.updatePool _) fun merge => .bind (.reportMerge merge) fun _ =>
    .bind (.updateStats _) fun _ => .emit _

theorem free (address : Option Nat) : Steady (HeapM.free address) := by
  rcases address with _ | address
  · exact .pure ()
  · exact .bind (.offsetOf address) fun bp => .freeBlock bp

theorem shrink (bp : Nat) (old : Tag) (need : Nat) : Steady (HeapM.shrink bp old need) := by
  refine .bind (.updatePool _) fun merge => ?_
  rcases merge with _ | merge
  · exact .pure ()
  · exact .bind (.reportMerge merge) fun _ => .updateStats _

theorem takeNext (bp : Nat) (old nextTag : Tag) (available need : Nat) :
    Steady (HeapM.takeNext bp old nextTag available need) := by
  unfold HeapM.takeNext
  split
  · exact .pure _
  · exact .bind (.updatePool _) fun _ => .bind (.header bp) fun _ => .bind (.ofChecked _) fun _ =>
      .bind (.updateStats _) fun _ => .pure true

end Steady

/-! ### Atomic operations -/

/-- An error leaves the heap as it was, but for the source. -/
def Atomic (x : HeapM α) : Prop :=
  ∀ h h' e l, x.run h = .ok ⟨.error e, h', l⟩ → ¬e.Foreign → h.Refused h'

theorem ReadOnly.atomic (hx : ReadOnly x) : Atomic x := by
  intro h h' e l hr _
  obtain rfl : h' = h := hx _ _ hr
  exact .refl h'

theorem Steady.atomic (hx : Steady x) : Atomic x :=
  fun _ _ _ _ hr he => absurd (hx _ _ _ _ hr) he

/-- What only reads may come before. -/
theorem ReadOnly.bind_atomic (hx : ReadOnly x) (hf : ∀ a, Atomic (f a)) : Atomic (x >>= f) := by
  intro h h' e l hrun hne
  rcases run_bind_eq_ok hrun with ⟨e', k, l', hr, he⟩ | ⟨a, k, l', ⟨r, k', l''⟩, hr, hr', he⟩ <;>
    cases he
  · exact hx.atomic _ _ _ _ hr hne
  · obtain rfl : k = h := hx _ _ hr
    exact hf a _ _ _ _ hr' hne

/-- What does not fail may come after. -/
theorem Atomic.bind_steady (hx : Atomic x) (hf : ∀ a, Steady (f a)) : Atomic (x >>= f) := by
  intro h h' e l hrun hne
  rcases run_bind_eq_ok hrun with ⟨e', k, l', hr, he⟩ | ⟨a, k, l', ⟨r, k', l''⟩, hr, hr', he⟩ <;>
    cases he
  · exact hx _ _ _ _ hr hne
  · exact absurd (hf a _ _ _ _ hr') hne

/-- Asking the source, with or without a report of a refusal. -/
theorem atomic_grow (size : Nat) : Atomic (tryCatch (grow size) fun e => do
    emit (.extensionFailed size e)
    throw e) := by
  intro h h' e l hrun _
  rcases hr : h.provider.source.request h.arena.base h.size size with ⟨source, e' | ⟨⟩⟩
  · rw [run_tryCatch_of_error (run_grow_of_error hr)] at hrun
    cases hrun
    exact ⟨source, rfl, .inr ⟨size, _, hr⟩⟩
  · rw [run_tryCatch_of_ok (run_grow hr)] at hrun
    cases hrun

theorem atomic_extend (bytes : Nat) : Atomic (extend bytes) := by
  have hsize : ReadOnly (growthSize bytes) := by
    unfold growthSize
    split
    · exact .throw _
    · exact .pure _
  refine hsize.bind_atomic fun size => (atomic_grow size).bind_steady fun bp => ?_
  exact .bind (.updateStats _) fun _ => .bind (.updatePool _) fun merge =>
    .bind (.reportMerge merge) fun _ => .bind (.ask fun _ _ hr => by cases hr) fun _ =>
    .bind (.emit _) fun _ => .pure _

theorem atomic_findOrExtend (need : Nat) : Atomic (findOrExtend need) := by
  refine (ReadOnly.ask _).bind_atomic fun fit => ?_
  rcases fit with _ | bp
  · exact (ReadOnly.ask _).bind_atomic fun _ => atomic_extend _
  · exact (ReadOnly.pure bp).atomic

theorem readOnly_blockSize (size : Nat) : ReadOnly (blockSize size) := by
  unfold blockSize
  split
  · exact .throw _
  · exact .pure _

theorem atomic_allocate (size : Nat) : Atomic (allocate size) := by
  unfold allocate
  split
  · exact (ReadOnly.throw _).atomic
  refine (readOnly_blockSize size).bind_atomic fun need =>
    (atomic_findOrExtend need).bind_steady fun bp => ?_
  exact .bind (.updatePool _) fun _ => .bind (.header bp) fun _ => .bind (.updateStats _) fun _ =>
    .bind (.emit _) fun _ => .ask fun _ _ hr => by cases hr

theorem atomic_allocateZeroed (count size : Nat) : Atomic (allocateZeroed count size) := by
  unfold allocateZeroed
  split
  · exact (ReadOnly.throw _).atomic
  · exact (atomic_allocate _).bind_steady fun address => .bind (.offsetOf address) fun _ =>
      .bind (.updateArena _) fun _ => .pure address

theorem atomic_growInPlace (bp : Nat) (old : Tag) (need : Nat) :
    Atomic (growInPlace bp old need) := by
  refine (ReadOnly.ofChecked _).bind_atomic fun next => (ReadOnly.ask _).bind_atomic fun nextTag =>
    (ReadOnly.ofChecked _).bind_atomic fun available => ?_
  split
  · exact (Steady.takeNext _ _ _ _ _).atomic
  have hrest : ∀ after, Atomic (do
      let afterTag ← header after
      if afterTag.size ≠ 0 then pure false
      else do
        let shortfall ← Word.sub need available
        let config ← ask fun h => pure h.config
        let _ ← extend (max shortfall config.chunkSize)
        let nextTag ← header next
        let available ← Word.add old.size nextTag.size
        takeNext bp old nextTag available need) := by
    refine fun after => (ReadOnly.ask _).bind_atomic fun afterTag => ?_
    split
    · exact (ReadOnly.pure false).atomic
    refine (ReadOnly.ofChecked _).bind_atomic fun _ => (ReadOnly.ask _).bind_atomic fun _ =>
      (atomic_extend _).bind_steady fun _ => ?_
    exact .bind (.header next) fun _ => .bind (.ofChecked _) fun _ =>
      .takeNext _ _ _ _ _
  split
  · exact (ReadOnly.pure next).bind_atomic hrest
  · exact (ReadOnly.ofChecked _).bind_atomic hrest

theorem atomic_move (bp : Nat) (old : Tag) (size : Nat) : Atomic (move bp old size) :=
  (atomic_allocate size).bind_steady fun address => .bind (.offsetOf address) fun _ =>
    .bind (.ofChecked _) fun _ => .bind (.updateArena _) fun _ => .bind (.freeBlock bp) fun _ =>
    .bind (.emit _) fun _ => .pure address

/-! ### Resizing -/

variable {h h' k : Heap} {o : Outline} {b : Block} {need size : Nat} {old : Tag} {e : Error}
  {l l' : List Event}

/-- Growing in place stops, does what is needed, or leaves the heap as it is for the block to move. -/
theorem grow_or_move_cases (ho : o.Outlines h) (hb : b ∈ o.map.blocks) (ha : b.allocated = true)
    (hold : old = ⟨b.size, true, flagAfter true (o.map.gapAt b.offset).before⟩) (h16 : 16 ∣ need)
    (hlt : b.size < need) {inPlace : HeapM Nat} {out : Outcome Nat}
    (hrun : (growInPlace b.offset old need >>= fun grown =>
      if grown then inPlace else move b.offset old size).run h = .ok out) :
    (∃ e k l, (o.growInPlace b.offset need).1 = .error e ∧
      (growInPlace b.offset old need).run h = .ok ⟨.error e, k, l⟩ ∧ out = ⟨.error e, k, l⟩) ∨
    (∃ k l out', (o.growInPlace b.offset need).1 = .ok true ∧
      (growInPlace b.offset old need).run h = .ok ⟨.ok true, k, l⟩ ∧ inPlace.run k = .ok out' ∧
      out = out'.after l) ∨
    ∃ l out', (o.growInPlace b.offset need).1 = .ok false ∧
      (growInPlace b.offset old need).run h = .ok ⟨.ok false, h, l⟩ ∧
      (move b.offset old size).run h = .ok out' ∧ out = out'.after l := by
  have hg : Follows False _ h _ _ := growInPlace_follows ho hb ha hold h16 hlt
  rcases hg with ⟨hf, -⟩ | ⟨k, l, hr, -, -, hsame⟩
  · exact hf.elim
  rcases run_bind_eq_ok hrun with ⟨e, _, _, hr', rfl⟩ | ⟨grown, _, _, out', hr', hr₂, rfl⟩ <;>
    obtain ⟨hresult, rfl, rfl⟩ := Outcome.mk.inj (Except.ok.inj (hr'.symm.trans hr))
  · exact .inl ⟨e, _, _, hresult.symm, hr', rfl⟩
  cases grown with
  | true => exact .inr (.inl ⟨_, _, out', hresult.symm, hr', hr₂, rfl⟩)
  | false =>
    obtain rfl := hsame hresult.symm
    exact .inr (.inr ⟨_, out', hresult.symm, hr', hr₂, rfl⟩)

/-- A resize that was counted: nothing is left of a try to grow in place when the block moves. -/
theorem refused_of_growInPlace (ho : o.Outlines h) (hb : b ∈ o.map.blocks)
    (ha : b.allocated = true)
    (hold : old = ⟨b.size, true, flagAfter true (o.map.gapAt b.offset).before⟩) (h16 : 16 ∣ need)
    (hlt : b.size < need) {inPlace : HeapM Nat} (hin : Steady inPlace)
    (hrun : (growInPlace b.offset old need >>= fun grown =>
      if grown then inPlace else move b.offset old size).run h = .ok ⟨.error e, h', l⟩)
    (he : ¬e.Foreign) : h.Refused h' := by
  rcases grow_or_move_cases ho hb ha hold h16 hlt hrun with
    ⟨_, k, _, -, hr, hx⟩ | ⟨k, _, ⟨r, k', _⟩, -, -, hr, hx⟩ | ⟨_, ⟨r, k', _⟩, -, -, hr, hx⟩ <;>
    cases hx
  · exact atomic_growInPlace _ _ _ _ _ _ _ hr he
  · exact absurd (hin _ _ _ _ hr) he
  · exact atomic_move _ _ _ _ _ _ _ hr he

/-- A resize counts itself, unless no block is large enough, and then tries to leave the block where
it is. -/
theorem resize_cases (ho : o.Outlines h) (hb : b ∈ o.map.blocks) (ha : b.allocated = true)
    {out : Outcome Nat} (hrun : (resize (o.base + b.offset) size).run h = .ok out) :
    blockSize? size = none ∧ out = ⟨.error .sizeOverflow, h, []⟩ ∨
    ∃ need old, blockSize? size = some need ∧
      old = (⟨b.size, true, flagAfter true (o.map.gapAt b.offset).before⟩ : Tag) ∧
      o.countReallocation.Outlines (h.recount 1) ∧
      (if need ≤ old.size then do
          shrink b.offset old need
          updateStats (·.recordInPlace)
          emit (.shrunk b.offset old.size need)
          pure (o.base + b.offset)
        else do
          let grown ← growInPlace b.offset old need
          if grown then do
            updateStats (·.recordInPlace)
            emit (.grownInPlace b.offset old.size need)
            pure (o.base + b.offset)
          else
            move b.offset old size : HeapM Nat).run (h.recount 1) = .ok out := by
  obtain ⟨out₁, hrun₁, rfl⟩ := exists_run_of_bind (run_offsetOf_block ho hb) hrun
  rcases hneed : blockSize? size with _ | need
  · simp only [blockSize, hneed] at hrun₁
    cases hrun₁
    exact .inl ⟨rfl, rfl⟩
  simp only [blockSize, hneed] at hrun₁
  obtain ⟨out₂, hrun₂, rfl⟩ := exists_run_of_bind (a := need) (k := h) (l := []) rfl hrun₁
  have hheader := run_header (ho.describes.header_of_mem ho.valid.map hb)
  rw [ha] at hheader
  obtain ⟨out₃, hrun₃, rfl⟩ := exists_run_of_bind hheader hrun₂
  by_cases hlt : h.stats.reallocs + 1 < Word.limit
  · obtain ⟨out₄, hrun₄, rfl⟩ :=
      exists_run_of_bind (Uncounting.run_recordReallocation.2 ⟨hlt, rfl⟩) hrun₃
    exact .inr ⟨need, _, rfl, rfl, ho.recount hlt, hrun₄⟩
  · rw [run_bind_of_fault (run_updateStats_of_fault
      (Stats.recordReallocation_of_le (Nat.le_of_not_lt hlt)))] at hrun₃
    cases hrun₃

theorem refused_of_resize (ho : o.Outlines h) (hb : b ∈ o.map.blocks) (ha : b.allocated = true)
    (hrun : (resize (o.base + b.offset) size).run h = .ok ⟨.error e, h', l⟩) (he : ¬e.Foreign) :
    ∃ k, h.Refused k ∧ h' = k.recount (if (blockSize? size).isSome then 1 else 0) := by
  rcases resize_cases ho hb ha hrun with ⟨hneed, hx⟩ | ⟨need, old, hneed, hold, ho₁, hrun⟩ <;>
    rw [hneed]
  · cases hx
    exact ⟨h, .refl h, rfl⟩
  obtain ⟨-, h16, -⟩ := blockSize?_spec hneed
  have hrefused : (h.recount 1).Refused h' := by
    split_ifs at hrun with hle
    · refine absurd ?_ he
      exact Steady.bind (.shrink _ _ _) (fun _ => .bind (.updateStats _) fun _ =>
        .bind (.emit _) fun _ => .pure _) _ _ _ _ hrun
    · rw [hold] at hle
      exact refused_of_growInPlace ho₁ hb ha hold h16 (Nat.lt_of_not_le hle)
        (.bind (.updateStats _) fun _ => .bind (.emit _) fun _ => .pure _) hrun he
  obtain ⟨source, rfl, hs⟩ := hrefused
  exact ⟨h.withSource source, ⟨source, rfl, hs⟩, rfl⟩

end HeapM

/-! ### Calls -/

namespace Call

/-- How many reallocations a call counts even if it fails. -/
def counted : Call → Nat
  | reallocate (some _) size => if (blockSize? size).isSome then 1 else 0
  | _ => 0

theorem refused {c : Call} {o : Outline} {h h' : Heap} {e : Error} {l : List Event}
    (ho : o.Outlines h) (hc : c.Valid o) (hrun : c.perform.run h = .ok ⟨.error e, h', l⟩)
    (he : ¬e.Foreign) : ∃ k, h.Refused k ∧ h' = k.recount c.counted := by
  have hatomic : ∀ {α : Type} {x : HeapM α} {f : α → Option Nat}, HeapM.Atomic x →
      (x >>= fun a => pure (f a)).run h = .ok ⟨.error e, h', l⟩ → h.Refused h' :=
    fun hx hr => hx.bind_steady (fun _ => .pure _) _ _ _ _ hr he
  cases c with
  | allocate size => exact ⟨h', hatomic (HeapM.atomic_allocate size) hrun, rfl⟩
  | allocateZeroed count size =>
    exact ⟨h', hatomic (HeapM.atomic_allocateZeroed count size) hrun, rfl⟩
  | free address => exact ⟨h', hatomic (HeapM.Steady.free address).atomic hrun, rfl⟩
  | reallocate address size =>
    rcases address with _ | address
    · exact ⟨h', hatomic (HeapM.atomic_allocate size) hrun, rfl⟩
    obtain ⟨b, hb, rfl⟩ := hc address rfl
    obtain ⟨hb, ha⟩ := Block.mem_live.1 hb
    rw [perform, HeapM.reallocate] at hrun
    split_ifs at hrun with h0
    · exact absurd (HeapM.Steady.bind (.free _) (fun _ => .pure _) _ _ _ _ hrun) he
    · rcases HeapM.run_bind_eq_ok hrun with ⟨_, _, _, hr, hx⟩ | ⟨_, _, _, _, -, hr, hx⟩
      · cases hx
        exact HeapM.refused_of_resize ho hb ha hr he
      · cases hr
        cases hx

end Call

/-! ### Sessions -/

namespace Session

/-- `s` with the source of `t`. -/
def withSourceOf (s t : Session) : Session :=
  { s with heap := s.heap.withSource t.heap.provider.source }

/-- Nothing but the source is different in `s'`, apart from the count of reallocations, and nothing
that is done later tells the difference. -/
structure Atomic (s : Session) (c : Call) (s' : Session) : Prop where
  arena : s'.heap.arena = s.heap.arena
  index : s'.heap.index = s.heap.index
  stats : s'.heap.stats = { s.heap.stats with reallocs := s.heap.stats.reallocs + c.counted }
  start : s'.heap.start = s.heap.start
  config : s'.heap.config = s.heap.config
  /-- The source has refused a request, if it was asked. -/
  source : s'.heap.provider.source = s.heap.provider.source ∨
    ∃ n e, s.heap.provider.source.request s.heap.arena.base s.heap.size n =
      (s'.heap.provider.source, .error e)
  /-- The pointer handed in is still in use, and leads to the block that it led to. -/
  held : s'.held = s.held
  blocks : s'.heap.blocks = s.heap.blocks
  /-- A run without the call is possible after it, too, and comes to the same. -/
  resume : ∀ ms t, Run (s.withSourceOf s') ms t → t.heap.stats.reallocs + c.counted < Word.limit →
    ∃ t', Run s' ms t' ∧ Recounts c.counted t t'
  /-- All runs after the call are so. -/
  skip : ∀ ms t', Run s' ms t' → ∃ t, Run (s.withSourceOf s') ms t ∧ Recounts c.counted t t'

variable {s s' : Session} {c : Call} {e : Error}

/-- A failed call changes nothing but the source and the count of reallocations. -/
theorem Reachable.atomic_of_error (hs : s.Reachable) (h : Step s (.call c (.error e)) s') :
    s.Atomic c s' := by
  obtain ⟨o, ho⟩ := hs.outlined
  generalize hm : Move.call c (.error e) = m at h
  cases h with
  | @call c out hc hrun =>
    obtain ⟨rfl, hres⟩ := Move.call.inj hm
    obtain ⟨r, h', l⟩ := out
    cases hres
    have hv := ho.valid_call hc
    have he := Call.error_of_outline ho.outlines.valid.map ho.outlines.valid.source hv
      (ho.call hc hrun).1.symm
    obtain ⟨_, ⟨source, rfl, hsource⟩, rfl⟩ := Call.refused ho.outlines hv hrun he
    have hcounts : Recounts c.counted (s.withSourceOf
        ⟨(s.heap.withSource source).recount c.counted, s.held, s.calls + 1⟩)
        ⟨(s.heap.withSource source).recount c.counted, s.held, s.calls + 1⟩ := ⟨_, rfl⟩
    exact ⟨rfl, rfl, rfl, rfl, rfl, hsource, rfl, rfl, fun ms t hrun hlt => hcounts.run_up hrun hlt,
      fun ms t' hrun => hcounts.run_down hrun⟩
  | write => cases hm
  | moveEnd => cases hm

theorem atomic_small : ∃ s s', small = some s ∧
    Step s (.call (.reallocate (some 4160) 1000) (.error (.outOfMemory 912 96))) s' ∧
    s.Atomic (.reallocate (some 4160) 1000) s' := by
  have hfails : small.map (fun s => (s.held,
      ((Call.reallocate (some 4160) 1000).perform.run s.heap).map (·.result))) =
      some ([(4160, 40)], .ok (.error (.outOfMemory 912 96))) := by decide +kernel
  obtain ⟨s, hs, hfails⟩ := Option.map_eq_some_iff.1 hfails
  obtain ⟨hheld, hresult⟩ := Prod.mk.inj hfails
  rcases hrun : (Call.reallocate (some 4160) 1000).perform.run s.heap with fault | ⟨r, h', l⟩ <;>
    rw [hrun] at hresult <;> cases hresult
  have hc : ∀ address ∈ (Call.reallocate (some 4160) 1000).handed, address ∈ s.pointers := by
    rintro _ ⟨⟩
    rw [pointers, hheld]
    exact List.mem_cons_self
  exact ⟨s, _, hs, .call hc hrun, Reachable.atomic_of_error (reachable_of_small hs) (.call hc hrun)⟩

end Session

end SegregatedFit
