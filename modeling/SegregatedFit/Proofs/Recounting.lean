import SegregatedFit.Proofs.Session

/-!
# The count of reallocations decides nothing

Operations only ever count reallocations up. `HeapM.Uncounting x` says that `x` does the same on a heap
with more of them counted, as long as the counter has room; every operation is so
(`Call.uncounting_perform`), because every single step is and sequencing keeps it
(`Uncounting.bind`). Whole runs of sessions are the same, too (`Session.Run.recount`,
`Session.Run.of_recount`).
-/

namespace SegregatedFit

/-- The same heap, with `k` more reallocations counted. -/
def Heap.recount (h : Heap) (k : Nat) : Heap :=
  h.withStats { h.stats with reallocs := h.stats.reallocs + k }

def Outcome.recount {α : Type} (out : Outcome α) (k : Nat) : Outcome α :=
  { out with heap := out.heap.recount k }

namespace HeapM

variable {α β : Type} {x : HeapM α} {f : α → HeapM β}

/-- Goes on with `f` whether `x` stops or not. -/
def handle (x : HeapM α) (f : Except Error α → HeapM β) : HeapM β := fun h =>
  match x.run h with
  | .error fault => .error fault
  | .ok out => ((f out.result).run out.heap).map (·.after out.events)

theorem bind_eq_handle : x >>= f = x.handle fun
    | .ok a => f a
    | .error e => throw e := by
  funext h
  show HeapM.bind x f h = _
  rw [HeapM.bind, handle, run]
  rcases x h with fault | ⟨e | a, h', l⟩
  · rfl
  · exact congrArg (fun l => Except.ok (Outcome.mk (.error e) h' l)) (List.append_nil l).symm
  · rfl

theorem tryCatch_eq_handle {g : Error → HeapM α} : tryCatch x g = x.handle fun
    | .ok a => pure a
    | .error e => g e := by
  funext h
  show HeapM.tryCatch x g h = _
  rw [HeapM.tryCatch, handle, run]
  rcases x h with fault | ⟨e | a, h', l⟩
  · rfl
  · rfl
  · exact congrArg (fun l => Except.ok (Outcome.mk (.ok a) h' l)) (List.append_nil l).symm

theorem run_handle {g : Except Error α → HeapM β} {h : Heap} {out : Outcome α}
    (hx : x.run h = .ok out) :
    (x.handle g).run h = ((g out.result).run out.heap).map (·.after out.events) := by
  show x.handle g h = _
  rw [handle, hx]

theorem run_handle_eq_ok {g : Except Error α → HeapM β} {h : Heap} {out : Outcome β} :
    (x.handle g).run h = .ok out ↔ ∃ out₁ out₂, x.run h = .ok out₁ ∧
      (g out₁.result).run out₁.heap = .ok out₂ ∧ out = out₂.after out₁.events := by
  constructor
  · intro hr
    rcases hx : x.run h with fault | out₁
    · replace hr : x.handle g h = .ok out := hr
      rw [handle, hx] at hr
      cases hr
    · rw [run_handle hx] at hr
      rcases hg : (g out₁.result).run out₁.heap with fault | out₂ <;> rw [hg] at hr <;> cases hr
      exact ⟨out₁, out₂, rfl, hg, rfl⟩
  · rintro ⟨out₁, out₂, hx, hg, rfl⟩
    rw [run_handle hx, hg]; rfl

/-- How many reallocations are counted makes no difference to `x`, which counts none off. -/
structure Uncounting (x : HeapM α) : Prop where
  down : ∀ {h : Heap} {k : Nat} {out : Outcome α}, x.run (h.recount k) = .ok out →
    ∃ out', x.run h = .ok out' ∧ out = out'.recount k
  mono : ∀ {h : Heap} {out : Outcome α}, x.run h = .ok out →
    h.stats.reallocs ≤ out.heap.stats.reallocs
  up : ∀ {h : Heap} {k : Nat} {out : Outcome α}, x.run h = .ok out →
    out.heap.stats.reallocs + k < Word.limit → x.run (h.recount k) = .ok (out.recount k)

namespace Uncounting

theorem handle {g : Except Error α → HeapM β} (hx : Uncounting x) (hg : ∀ r, Uncounting (g r)) :
    Uncounting (x.handle g) where
  down {h k out} hr := by
    obtain ⟨_, _, hr₁, hr₂, rfl⟩ := run_handle_eq_ok.1 hr
    obtain ⟨out₁, hx₁, rfl⟩ := hx.down hr₁
    obtain ⟨out₂, hx₂, rfl⟩ := (hg out₁.result).down hr₂
    exact ⟨_, run_handle_eq_ok.2 ⟨out₁, out₂, hx₁, hx₂, rfl⟩, rfl⟩
  mono {h out} hr := by
    obtain ⟨out₁, out₂, hr₁, hr₂, rfl⟩ := run_handle_eq_ok.1 hr
    have hle : out₁.heap.stats.reallocs ≤ out₂.heap.stats.reallocs := (hg out₁.result).mono hr₂
    exact Nat.le_trans (hx.mono hr₁) hle
  up {h k out} hr hlt := by
    obtain ⟨out₁, out₂, hr₁, hr₂, rfl⟩ := run_handle_eq_ok.1 hr
    replace hlt : out₂.heap.stats.reallocs + k < Word.limit := hlt
    have hle : out₁.heap.stats.reallocs ≤ out₂.heap.stats.reallocs := (hg out₁.result).mono hr₂
    exact run_handle_eq_ok.2 ⟨_, _, hx.up hr₁ (by omega), (hg out₁.result).up hr₂ hlt, rfl⟩

/-- A step that leaves the counter alone. -/
theorem of_run (heq : ∀ h k, x.run (h.recount k) = (x.run h).map (·.recount k))
    (hs : ∀ h out, x.run h = .ok out → out.heap.stats.reallocs = h.stats.reallocs) :
    Uncounting x where
  down {h k out} hr := by
    rw [heq] at hr
    rcases hx : x.run h with fault | out' <;> rw [hx] at hr <;> cases hr
    exact ⟨out', rfl, rfl⟩
  mono hr := Nat.le_of_eq (hs _ _ hr).symm
  up hr _ := by rw [heq, hr]; rfl

protected theorem pure (a : α) : Uncounting (pure a : HeapM α) :=
  of_run (fun _ _ => rfl) fun _ _ hr => by cases hr; rfl

theorem throw (e : Error) : Uncounting (throw e : HeapM α) :=
  of_run (fun _ _ => rfl) fun _ _ hr => by cases hr; rfl

theorem bind (hx : Uncounting x) (hf : ∀ a, Uncounting (f a)) : Uncounting (x >>= f) := by
  rw [bind_eq_handle]
  refine hx.handle ?_
  rintro (e | a)
  · exact .throw e
  · exact hf a

theorem tryCatch {g : Error → HeapM α} (hx : Uncounting x) (hg : ∀ e, Uncounting (g e)) :
    Uncounting (tryCatch x g) := by
  rw [tryCatch_eq_handle]
  refine hx.handle ?_
  rintro (e | a)
  · exact hg e
  · exact .pure a

theorem emit (e : Event) : Uncounting (HeapM.emit e) :=
  of_run (fun _ _ => rfl) fun _ _ hr => by cases hr; rfl

theorem ofChecked (c : Except Fault α) : Uncounting (HeapM.ofChecked c) := by
  rcases c with fault | a
  · exact of_run (fun _ _ => rfl) fun _ _ hr => by cases hr
  · exact of_run (fun _ _ => rfl) fun _ _ hr => by cases hr; rfl

theorem ask {g : Heap → Fallible α} (hg : ∀ h k, g (h.recount k) = g h) :
    Uncounting (HeapM.ask g) := by
  refine of_run (fun h k => ?_) fun h out hr => ?_
  · simp only [HeapM.run, HeapM.ask, hg]
    rcases (g h).run with fault | r <;> rfl
  · simp only [HeapM.run, HeapM.ask] at hr
    rcases hx : (g h).run with fault | r <;> rw [hx] at hr <;> cases hr
    rfl

theorem updatePool (g : Pool → Except Fault (α × Pool)) : Uncounting (HeapM.updatePool g) := by
  refine of_run (fun h k => ?_) fun h out hr => ?_
  · show HeapM.updatePool g (h.recount k) = (HeapM.updatePool g h).map _
    obtain ⟨⟨arena, source⟩, config, index, start, stats⟩ := h
    simp only [Heap.recount, Heap.withStats, HeapM.updatePool]
    rcases g ⟨arena, index⟩ with fault | ⟨a, p⟩ <;> rfl
  · obtain ⟨⟨arena, source⟩, config, index, start, stats⟩ := h
    simp only [HeapM.run, HeapM.updatePool] at hr
    rcases hx : g ⟨arena, index⟩ with fault | ⟨a, p⟩ <;> rw [hx] at hr <;> cases hr
    rfl

theorem updateStats {g : Stats → Except Fault Stats}
    (hg : ∀ s n, g { s with reallocs := n } = (g s).map fun t => { t with reallocs := n }) :
    Uncounting (HeapM.updateStats g) := by
  have hsame : ∀ {s t}, g s = .ok t → t.reallocs = s.reallocs := by
    intro s t ht
    have h := hg s s.reallocs
    rw [show g { s with reallocs := s.reallocs } = .ok t from ht] at h
    have heq : t = { t with reallocs := s.reallocs } := Except.ok.inj h
    rw [heq]
  refine of_run (fun h k => ?_) fun h out hr => ?_
  · have hk := hg h.stats (h.stats.reallocs + k)
    simp only [HeapM.run, HeapM.updateStats, Heap.recount, Heap.withStats]
    rcases ht : g h.stats with fault | t <;> rw [ht] at hk <;> rw [hk]
    · rfl
    · simp only [Except.map, Outcome.recount, Heap.recount, Heap.withStats, hsame ht]
  · simp only [HeapM.run, HeapM.updateStats] at hr
    rcases ht : g h.stats with fault | t <;> rw [ht] at hr <;> cases hr
    exact hsame ht

theorem grow (n : Nat) : Uncounting (HeapM.grow n) := by
  refine of_run (fun h k => ?_) fun h out hr => ?_ <;>
    obtain ⟨provider, config, index, start, stats⟩ := h
  · simp only [HeapM.run, HeapM.grow, Heap.recount, Heap.withStats]
    rfl
  · simp only [HeapM.run, HeapM.grow] at hr
    cases hr
    rfl

theorem run_recordReallocation {h : Heap} {out : Outcome Unit} :
    (HeapM.updateStats (·.recordReallocation)).run h = .ok out ↔
      h.stats.reallocs + 1 < Word.limit ∧ out = ⟨.ok (), h.recount 1, []⟩ := by
  by_cases hlt : h.stats.reallocs + 1 < Word.limit
  · rw [run_updateStats (Stats.recordReallocation_eq hlt)]
    exact ⟨fun hr => ⟨hlt, (Except.ok.inj hr).symm⟩, fun hr => hr.2 ▸ rfl⟩
  · rw [run_updateStats_of_fault (Stats.recordReallocation_of_le (Nat.le_of_not_lt hlt))]
    exact ⟨nofun, fun hr => absurd hr.1 hlt⟩

theorem recordReallocation : Uncounting (HeapM.updateStats (·.recordReallocation)) where
  down {h k out} hr := by
    obtain ⟨hlt, rfl⟩ := run_recordReallocation.1 hr
    replace hlt : h.stats.reallocs + k + 1 < Word.limit := hlt
    refine ⟨_, run_recordReallocation.2 ⟨by omega, rfl⟩, ?_⟩
    simp only [Outcome.recount, Heap.recount, Heap.withStats, Nat.add_right_comm]
  mono {h out} hr := by
    obtain ⟨-, rfl⟩ := run_recordReallocation.1 hr
    exact Nat.le_succ _
  up {h k out} hr hlt := by
    obtain ⟨-, rfl⟩ := run_recordReallocation.1 hr
    replace hlt : h.stats.reallocs + 1 + k < Word.limit := hlt
    refine run_recordReallocation.2 ⟨?_, ?_⟩
    · show h.stats.reallocs + k + 1 < Word.limit
      omega
    · simp only [Outcome.recount, Heap.recount, Heap.withStats, Nat.add_right_comm]

/-! ### Operations -/

theorem header (bp : Nat) : Uncounting (HeapM.header bp) := ask fun _ _ => rfl

theorem offsetOf (address : Nat) : Uncounting (HeapM.offsetOf address) := ask fun _ _ => rfl

theorem reportMerge (m : Merge) : Uncounting (HeapM.reportMerge m) :=
  (emit _).bind fun _ => .pure _

theorem extend (bytes : Nat) : Uncounting (HeapM.extend bytes) := by
  unfold HeapM.extend HeapM.growthSize
  refine .bind ?_ fun size => .bind (.tryCatch (.grow _) fun e => ?_) fun bp =>
    .bind (.updateStats fun s n => ?_) fun _ => .bind (.updatePool _) fun merge =>
    .bind (.reportMerge _) fun _ => .bind (.ask fun _ _ => rfl) fun _ =>
    .bind (.emit _) fun _ => .pure _
  · split
    · exact .throw _
    · exact .pure _
  · exact .bind (.emit _) fun _ => .throw _
  · simp only [Stats.recordExtension]
    rcases Word.add s.heapExtensions 1 with fault | m <;> rfl

theorem findOrExtend (need : Nat) : Uncounting (HeapM.findOrExtend need) := by
  refine .bind (.ask fun _ _ => rfl) fun fit => ?_
  rcases fit with _ | bp
  · exact .bind (.ask fun _ _ => rfl) fun config => .extend _
  · exact .pure bp

theorem blockSize (size : Nat) : Uncounting (HeapM.blockSize size) := by
  unfold HeapM.blockSize
  split
  · exact .throw _
  · exact .pure _

theorem allocate (size : Nat) : Uncounting (HeapM.allocate size) := by
  unfold HeapM.allocate
  split
  · exact .throw _
  refine .bind (.blockSize size) fun need => .bind (.findOrExtend need) fun bp =>
    .bind (.updatePool _) fun _ => .bind (.header bp) fun placed =>
    .bind (.updateStats fun s n => ?_) fun _ => .bind (.emit _) fun _ => .ask fun _ _ => rfl
  simp only [Stats.recordAllocation]
  rcases Word.add s.allocs 1 with fault | m
  · rfl
  · rcases Word.add s.liveBytes placed.size with fault | m <;> rfl

theorem updateArena (g : Arena → Except Fault Arena) : Uncounting (HeapM.updateArena g) :=
  updatePool _

theorem allocateZeroed (count size : Nat) : Uncounting (HeapM.allocateZeroed count size) := by
  unfold HeapM.allocateZeroed
  split
  · exact .throw _
  · exact .bind (.allocate _) fun address => .bind (.offsetOf address) fun bp =>
      .bind (.updateArena _) fun _ => .pure address

theorem freeBlock (bp : Nat) : Uncounting (HeapM.freeBlock bp) := by
  refine .bind (.header bp) fun tag => .bind (.updatePool _) fun merge =>
    .bind (.reportMerge merge) fun merged => .bind (.updateStats fun s n => ?_) fun _ => .emit _
  simp only [Stats.recordFree]
  rcases Word.add s.frees 1 with fault | m
  · rfl
  · rcases Word.sub s.liveBytes tag.size with fault | m <;> rfl

theorem free (address : Option Nat) : Uncounting (HeapM.free address) := by
  rcases address with _ | address
  · exact .pure ()
  · exact .bind (.offsetOf address) fun bp => .freeBlock bp

theorem shrink (bp : Nat) (old : Tag) (need : Nat) : Uncounting (HeapM.shrink bp old need) := by
  refine .bind (.updatePool _) fun merge => ?_
  rcases merge with _ | merge
  · exact .pure ()
  refine .bind (.reportMerge merge) fun _ => .updateStats fun s n => ?_
  simp only [Stats.recordShrink]
  rcases Word.sub s.liveBytes (old.size - need) with fault | m <;> rfl

theorem takeNext (bp : Nat) (old nextTag : Tag) (available need : Nat) :
    Uncounting (HeapM.takeNext bp old nextTag available need) := by
  unfold HeapM.takeNext
  split
  · exact .pure _
  refine .bind (.updatePool _) fun _ => .bind (.header bp) fun grown =>
    .bind (.ofChecked _) fun gained => .bind (.updateStats fun s n => ?_) fun _ => .pure true
  simp only [Stats.recordGrowth]
  rcases Word.add s.liveBytes gained with fault | m <;> rfl

theorem growInPlace (bp : Nat) (old : Tag) (need : Nat) :
    Uncounting (HeapM.growInPlace bp old need) := by
  refine .bind (.ofChecked _) fun next => .bind (.header next) fun nextTag =>
    .bind (.ofChecked _) fun available => ?_
  split
  · exact .takeNext ..
  have hrest : ∀ after, Uncounting (do
      let afterTag ← HeapM.header after
      if afterTag.size ≠ 0 then pure false
      else do
        let shortfall ← Word.sub need available
        let config ← HeapM.ask fun h => pure h.config
        let _ ← HeapM.extend (max shortfall config.chunkSize)
        let nextTag ← HeapM.header next
        let available ← Word.add old.size nextTag.size
        HeapM.takeNext bp old nextTag available need) := by
    refine fun after => .bind (.header after) fun afterTag => ?_
    split
    · exact .pure false
    · exact .bind (.ofChecked _) fun shortfall => .bind (.ask fun _ _ => rfl) fun config =>
        .bind (.extend _) fun _ => .bind (.header next) fun nextTag =>
        .bind (.ofChecked _) fun available => .takeNext ..
  split
  · exact .bind (.pure next) hrest
  · exact .bind (.ofChecked _) hrest

theorem move (bp : Nat) (old : Tag) (size : Nat) : Uncounting (HeapM.move bp old size) :=
  .bind (.allocate size) fun address => .bind (.offsetOf address) fun _ =>
    .bind (.ofChecked _) fun _ => .bind (.updateArena _) fun _ => .bind (.freeBlock bp) fun _ =>
    .bind (.emit _) fun _ => .pure address

theorem recordInPlace : Uncounting (HeapM.updateStats (·.recordInPlace)) := by
  refine .updateStats fun s n => ?_
  simp only [Stats.recordInPlace]
  rcases Word.add s.inPlaceReallocs 1 with fault | m <;> rfl

theorem resize (address size : Nat) : Uncounting (HeapM.resize address size) := by
  refine .bind (.offsetOf address) fun bp => .bind (.blockSize size) fun need =>
    .bind (.header bp) fun old => .bind .recordReallocation fun _ => ?_
  split
  · exact .bind (.shrink ..) fun _ => .bind .recordInPlace fun _ => .bind (.emit _) fun _ =>
      .pure address
  refine .bind (.growInPlace ..) fun grown => ?_
  split
  · exact .bind .recordInPlace fun _ => .bind (.emit _) fun _ => .pure address
  · exact .move ..

theorem reallocate (address : Option Nat) (size : Nat) :
    Uncounting (HeapM.reallocate address size) := by
  unfold HeapM.reallocate
  rcases address with _ | address
  · exact .bind (.allocate size) fun _ => .pure _
  · simp only
    split
    · exact .bind (.free _) fun _ => .pure none
    · exact .bind (.resize ..) fun _ => .pure _

end Uncounting

end HeapM

theorem Call.uncounting_perform (c : Call) : HeapM.Uncounting c.perform := by
  cases c with
  | allocate size => exact .bind (.allocate size) fun _ => .pure _
  | allocateZeroed count size => exact .bind (.allocateZeroed count size) fun _ => .pure _
  | free address => exact .bind (.free address) fun _ => .pure none
  | reallocate address size => exact .reallocate address size

/-! ### Sessions -/

namespace Session

/-- `s` is like `u`, with `k` more reallocations counted and after another number of calls. -/
def Recounts (k : Nat) (u s : Session) : Prop :=
  ∃ calls, s = ⟨u.heap.recount k, u.held, calls⟩

variable {k : Nat} {u u' s s' : Session} {m : Move} {ms : List Move}

theorem Recounts.down (hr : Recounts k u s) (h : Step s m s') :
    ∃ u', Step u m u' ∧ Recounts k u' s' := by
  obtain ⟨calls, rfl⟩ := hr
  cases h with
  | @call c out hc hrun =>
    obtain ⟨out, hrun', rfl⟩ := c.uncounting_perform.down hrun
    exact ⟨_, @Step.call u c out hc hrun', _, rfl⟩
  | write ha hu hn => exact ⟨_, .write ha hu hn, _, rfl⟩
  | moveEnd hd => exact ⟨_, .moveEnd hd, _, rfl⟩

theorem Step.reallocs_le (h : Step u m u') : u.heap.stats.reallocs ≤ u'.heap.stats.reallocs := by
  cases h with
  | call hc hrun => exact (Call.uncounting_perform _).mono hrun
  | write => exact Nat.le_refl _
  | moveEnd => exact Nat.le_refl _

theorem Run.reallocs_le (h : Run u ms u') : u.heap.stats.reallocs ≤ u'.heap.stats.reallocs := by
  induction h with
  | nil => exact Nat.le_refl _
  | cons h _ ih => exact Nat.le_trans h.reallocs_le ih

theorem Recounts.up (hr : Recounts k u s) (h : Step u m u')
    (hlt : u'.heap.stats.reallocs + k < Word.limit) : ∃ s', Step s m s' ∧ Recounts k u' s' := by
  obtain ⟨calls, rfl⟩ := hr
  cases h with
  | @call c out hc hrun =>
    have hrun' := c.uncounting_perform.up hrun hlt
    exact ⟨_, @Step.call ⟨u.heap.recount k, u.held, calls⟩ c (out.recount k) hc hrun', _, rfl⟩
  | write ha hu hn => exact ⟨_, .write ha hu hn, _, rfl⟩
  | moveEnd hd => exact ⟨_, .moveEnd hd, _, rfl⟩

/-- A run is possible with fewer reallocations counted, and makes the same difference. -/
theorem Recounts.run_down (hr : Recounts k u s) (h : Run s ms s') :
    ∃ u', Run u ms u' ∧ Recounts k u' s' := by
  induction h generalizing u with
  | nil => exact ⟨u, .nil, hr⟩
  | cons h _ ih =>
    obtain ⟨v, hv, hr⟩ := hr.down h
    obtain ⟨u', hu, hr⟩ := ih hr
    exact ⟨u', .cons hv hu, hr⟩

/-- A run is possible with more reallocations counted, as long as the counter has room. -/
theorem Recounts.run_up (hr : Recounts k u s) (h : Run u ms u')
    (hlt : u'.heap.stats.reallocs + k < Word.limit) : ∃ s', Run s ms s' ∧ Recounts k u' s' := by
  induction h generalizing s with
  | nil => exact ⟨s, .nil, hr⟩
  | cons h hrest ih =>
    have hle := hrest.reallocs_le
    obtain ⟨v, hv, hr⟩ := hr.up h (by omega)
    obtain ⟨s', hs, hr⟩ := ih hr hlt
    exact ⟨s', .cons hv hs, hr⟩

end Session

end SegregatedFit
