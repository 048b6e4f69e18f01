import SegregatedFit.Proofs.Creation
import SegregatedFit.Proofs.Shifting

/-!
# Arenas that correspond

Two arenas may be at different addresses, and all blocks of the second one further on than those of
the first. A `Pairing` says how their sources are related: they answer requests the same way, unless
one of them refuses with an error that the other one need not share. Then every call is answered the
same way too, but for addresses, or with such an error, and leaves outlines behind that correspond
(`Call.paired`). New heaps over providers that correspond do so as well (`Outline.create_paired`).
-/

namespace SegregatedFit

structure Pairing where
  base : Nat
  base' : Nat
  /-- How much further on the blocks of the second arena are. -/
  shift : Nat
  /-- Which sources correspond, for arenas of `size` bytes and of `size + shift` bytes. -/
  Related : (size : Nat) → Source → Source → Prop
  /-- Which errors one source may give on its own. -/
  Refusal : Error → Prop
  request : ∀ {size : Nat} {source source' : Source}, Related size source source' → ∀ n,
    (∃ t t', source.request base size n = (t, .ok ()) ∧
      source'.request base' (size + shift) n = (t', .ok ()) ∧ Related (size + n) t t') ∨
    (∃ e t t', source.request base size n = (t, .error e) ∧
      source'.request base' (size + shift) n = (t', .error e) ∧ Related size t t') ∨
    ∃ e, Refusal e ∧ ((source.request base size n).2 = .error e ∨
      (source'.request base' (size + shift) n).2 = .error e)

namespace Pairing

variable {α β γ δ σ τ : Type}

/-- The results are the same error, or answers for the same `x`, and what is left corresponds, unless
one of them is a refusal. -/
inductive Corresponds (k : Pairing) (P : σ → σ → Prop) (f f' : α → β) :
    Except Error β × σ → Except Error β × σ → Prop
  | error {e : Error} {s s' : σ} (h : P s s') : Corresponds k P f f' (.error e, s) (.error e, s')
  | ok {x : α} {s s' : σ} (h : P s s') : Corresponds k P f f' (.ok (f x), s) (.ok (f' x), s')
  | refused {e : Error} {y y' : Except Error β × σ} (hr : k.Refusal e)
      (h : y.1 = .error e ∨ y'.1 = .error e) : Corresponds k P f f' y y'

/-- Goes on with the answer, and stops with an error. -/
def andThen (y : Except Error α × σ) (z : α → σ → Except Error β × σ) : Except Error β × σ :=
  match y with
  | (.error e, s) => (.error e, s)
  | (.ok a, s) => z a s

theorem andThen_of_error {y : Except Error α × σ} {z : α → σ → Except Error β × σ} {e : Error}
    (h : y.1 = .error e) : (andThen y z).1 = .error e := by
  obtain ⟨_, s⟩ := y
  obtain rfl : _ = Except.error e := h
  rfl

variable {k : Pairing} {P : σ → σ → Prop} {f f' : α → β} {g g' : γ → δ}

theorem Corresponds.andThen {y y' : Except Error β × σ} {z z' : β → σ → Except Error δ × σ}
    (h : k.Corresponds P f f' y y')
    (hz : ∀ x, y.1 = .ok (f x) → P y.2 y'.2 →
      k.Corresponds P g g' (z (f x) y.2) (z' (f' x) y'.2)) :
    k.Corresponds P g g' (andThen y z) (andThen y' z') := by
  cases h with
  | error h => exact .error h
  | ok h => exact hz _ rfl h
  | refused hr h => exact .refused hr (h.imp andThen_of_error andThen_of_error)

theorem Corresponds.map_some {f f' : Nat → Nat} {y y' : Except Error Nat × σ}
    (h : k.Corresponds P f f' y y') :
    k.Corresponds P (Option.map f) (Option.map f') (y.1.map some, y.2) (y'.1.map some, y'.2) := by
  cases h with
  | error h => exact .error h
  | ok h => exact .ok (x := some _) h
  | refused hr h => exact .refused hr (h.imp (congrArg (Except.map some)) (congrArg (Except.map some)))

end Pairing

/-! ### Outlines -/

namespace Outline

open Pairing (andThen)

/-- Outlines whose blocks lie `k.shift` bytes apart, with sources that correspond. -/
structure Paired (k : Pairing) (o o' : Outline) : Prop where
  base : o.base = k.base
  base' : o'.base = k.base'
  map : o'.map = o.map.shift k.shift
  config : o'.config = o.config
  stats : o'.stats = o.stats
  source : k.Related o.map.stop o.source o'.source

variable {k : Pairing} {o o' : Outline} {b : Block} {bp need size : Nat}

/-! ### Operations step by step -/

theorem allocate_eq_andThen (o : Outline) (h0 : size ≠ 0) (hn : blockSize? size = some need) :
    o.allocate size = andThen (o.findOrExtend need) fun bp o => (.ok (o.base + bp), o.place bp need) := by
  rw [allocate, if_neg h0]
  simp only [hn]
  rcases o.findOrExtend need with ⟨_ | _, _⟩ <;> rfl

theorem move_eq_andThen (o : Outline) (bp size : Nat) :
    o.move bp size = andThen (o.allocate size) fun address o => (.ok address, o.release bp) := by
  rw [move]
  rcases o.allocate size with ⟨_ | _, _⟩ <;> rfl

theorem growInPlace_eq_andThen (o : Outline) (h : ¬need ≤ (o.map.gapAt bp).joinNext.size)
    (hempty : (o.map.gapAt bp).joinNext.after = []) :
    o.growInPlace bp need =
      andThen (o.extend (max (need - (o.map.gapAt bp).joinNext.size) o.config.chunkSize))
        fun _ o => (.ok true, o.absorb bp need) := by
  simp only [growInPlace, if_neg h, hempty, List.isEmpty_nil, if_true]
  generalize o.extend _ = y
  rcases y with ⟨_ | _, _⟩ <;> rfl

theorem resize_eq_andThen (o : Outline) (hn : blockSize? size = some need)
    (h : ¬need ≤ (o.map.gapAt bp).size) :
    o.resize bp size = andThen (o.countReallocation.growInPlace bp need) fun grown o' =>
      if grown then (.ok (o.base + bp), o'.countInPlace) else o'.move bp size := by
  simp only [resize, hn, if_neg h]
  rcases o.countReallocation.growInPlace bp need with ⟨_ | _ | _, _⟩ <;> rfl

/-- An allocation leaves the allocated blocks where they are. -/
theorem mem_allocate (hv : o.map.Valid) (hb : b ∈ o.map.blocks) (ha : b.allocated = true)
    (size : Nat) : (o.allocate size).2.map.Valid ∧ b ∈ (o.allocate size).2.map.blocks := by
  rcases allocate_cases hv size with ⟨e, o', h, hx, hv'⟩ |
    ⟨need, o', c, hneed, -, h, hx, hv', hc, hf, hs⟩ <;> rw [h]
  · exact ⟨hv', hx.mem_blocks hb ha⟩
  · obtain ⟨h32, h16, -⟩ := blockSize?_spec hneed
    have hlive := hv'.live_place (n := need) hc hf
    have hb' := Block.mem_live.2 ⟨hx.mem_blocks hb ha, ha⟩
    exact ⟨hv'.place hc hf h32 h16,
      (Block.mem_live.1 (hlive.mem_iff.2 (List.mem_cons_of_mem _ hb'))).1⟩

namespace Paired

/-- Other blocks in the same arena. -/
theorem update {m : MemoryMap} {stats : Stats} (h : Paired k o o') (hm : m.stop = o.map.stop) :
    Paired k { o with map := m, stats } { o' with map := m.shift k.shift, stats } :=
  ⟨h.base, h.base', rfl, h.config, rfl, by rw [hm]; exact h.source⟩

theorem countReallocation (h : Paired k o o') : Paired k o.countReallocation o'.countReallocation :=
  ⟨h.base, h.base', h.map, h.config, congrArg Stats.reallocated h.stats, h.source⟩

theorem countInPlace (h : Paired k o o') : Paired k o.countInPlace o'.countInPlace :=
  ⟨h.base, h.base', h.map, h.config, congrArg Stats.keptInPlace h.stats, h.source⟩

theorem place (h : Paired k o o') (hs : (o.map.place bp need).stop = o.map.stop) :
    Paired k (o.place bp need) (o'.place (bp + k.shift) need) := by
  rw [Outline.place, Outline.place, h.map, h.stats, MemoryMap.place_shift, MemoryMap.gapAt_shift]
  exact h.update hs

theorem release (h : Paired k o o') (hs : (o.map.release bp).stop = o.map.stop) :
    Paired k (o.release bp) (o'.release (bp + k.shift)) := by
  rw [Outline.release, Outline.release, h.map, h.stats, MemoryMap.release_shift,
    MemoryMap.gapAt_shift]
  exact h.update hs

theorem trim (h : Paired k o o') (hs : (o.map.trim bp need).stop = o.map.stop) :
    Paired k (o.trim bp need) (o'.trim (bp + k.shift) need) := by
  rw [Outline.trim, Outline.trim, h.map, h.stats, MemoryMap.trim_shift, MemoryMap.gapAt_shift]
  exact h.update hs

theorem absorb (h : Paired k o o') (hs : (o.map.absorb bp need).stop = o.map.stop) :
    Paired k (o.absorb bp need) (o'.absorb (bp + k.shift) need) := by
  rw [Outline.absorb, Outline.absorb, h.map, h.stats, MemoryMap.absorb_shift,
    MemoryMap.gapAt_shift, Gap.joinNext_shift]
  exact h.update hs

/-- The same address, as an offset from where the first arena would be. -/
theorem address_eq (h : Paired k o o') (x : Nat) :
    o'.base + (x + k.shift) = k.base' + k.shift + x := by
  rw [h.base']; omega

/-! ### Growing and allocating -/

theorem extend (h : Paired k o o') (hv : o.map.Valid) (n : Nat) :
    k.Corresponds (Paired k) id (· + k.shift) (o.extend n) (o'.extend n) := by
  unfold Outline.extend
  rcases hk : alignUp? n with _ | j
  · exact .error h
  obtain ⟨hj, -⟩ := alignUp?_spec hk
  have hstop := hv.stop_grow (Nat.le_max_right j minBlockSize) (dvd_max_minBlockSize hj)
  have hr := k.request h.source (max j minBlockSize)
  rw [← h.base, ← h.base', ← MemoryMap.stop_shift, ← h.map] at hr
  simp only
  rcases hr with ⟨t, t', hr, hr', ht⟩ | ⟨e, t, t', hr, hr', ht⟩ | ⟨e, he, hr⟩
  · rw [hr, hr', h.map, MemoryMap.added_shift, Gap.joinPrev_shift, MemoryMap.grow_shift, h.stats]
    exact .ok ⟨h.base, h.base', rfl, h.config, rfl, by rw [hstop]; exact ht⟩
  · rw [hr, hr']
    exact .error ⟨h.base, h.base', h.map, h.config, h.stats, ht⟩
  · refine .refused he (hr.imp (fun hr => ?_) fun hr => ?_)
    · rw [← Prod.mk.eta (p := o.source.request _ _ _), hr]
    · rw [← Prod.mk.eta (p := o'.source.request _ _ _), hr]

theorem findOrExtend (h : Paired k o o') (hv : o.map.Valid) (need : Nat) :
    k.Corresponds (Paired k) id (· + k.shift) (o.findOrExtend need) (o'.findOrExtend need) := by
  unfold Outline.findOrExtend
  rw [h.map, h.config, MemoryMap.firstFit_shift]
  rcases o.map.firstFit need with _ | bp
  · exact h.extend hv _
  · exact .ok (x := bp) h

theorem allocate (h : Paired k o o') (hv : o.map.Valid) (size : Nat) :
    k.Corresponds (Paired k) (k.base + ·) (k.base' + k.shift + ·) (o.allocate size)
      (o'.allocate size) := by
  by_cases h0 : size = 0
  · simp only [Outline.allocate, if_pos h0]
    exact .error h
  rcases hneed : blockSize? size with _ | need
  · simp only [Outline.allocate, if_neg h0, hneed]
    exact .error h
  obtain ⟨h32, h16, -⟩ := blockSize?_spec hneed
  have hv' := map_findOrExtend_valid hv need
  rw [allocate_eq_andThen o h0 hneed, allocate_eq_andThen o' h0 hneed]
  refine (h.findOrExtend hv need).andThen fun bp hx h => ?_
  obtain ⟨b, hb, -, rfl, hs⟩ := mem_of_findOrExtend hv hx
  simp only [id, h.base, h.address_eq]
  exact .ok (h.place (hv'.stop_place hb h32 h16 hs))

theorem allocateZeroed (h : Paired k o o') (hv : o.map.Valid) (count size : Nat) :
    k.Corresponds (Paired k) (k.base + ·) (k.base' + k.shift + ·) (o.allocateZeroed count size)
      (o'.allocateZeroed count size) := by
  unfold Outline.allocateZeroed
  split
  · exact .error h
  · exact h.allocate hv _

/-! ### Resizing -/

theorem growInPlace (h : Paired k o o') (hv : o.map.Valid) (hb : b ∈ o.map.blocks)
    (ha : b.allocated = true) (hn : 32 ≤ need) (hn' : 16 ∣ need) :
    k.Corresponds (Paired k) id id (o.growInPlace b.offset need)
      (o'.growInPlace (b.offset + k.shift) need) := by
  have hgap : (o'.map.gapAt (b.offset + k.shift)).joinNext =
      (o.map.gapAt b.offset).joinNext.shift k.shift := by
    rw [h.map, MemoryMap.gapAt_shift, Gap.joinNext_shift]
  have hsize := congrArg Gap.size hgap
  change _ = (o.map.gapAt b.offset).joinNext.size at hsize
  by_cases hfit : need ≤ (o.map.gapAt b.offset).joinNext.size
  · simp only [Outline.growInPlace, hsize, if_pos hfit]
    exact .ok (h.absorb (hv.stop_absorb hb hn hn' hfit))
  rcases hempty : (o.map.gapAt b.offset).joinNext.after with _ | ⟨c, cs⟩
  · have hempty' : (o'.map.gapAt (b.offset + k.shift)).joinNext.after = [] := by
      rw [hgap, Gap.shift, hempty]; rfl
    rw [growInPlace_eq_andThen o hfit hempty,
      growInPlace_eq_andThen o' (by rwa [hsize]) hempty', hsize, h.config]
    have hle := Nat.le_max_left (need - (o.map.gapAt b.offset).joinNext.size) o.config.chunkSize
    generalize max (need - (o.map.gapAt b.offset).joinNext.size) o.config.chunkSize = n at hle ⊢
    refine (h.extend hv n).andThen fun x hx h => ?_
    have hroom := le_joinNext_of_extend hv hb ha hempty hle hx
    have hb' := (extends_extend hv n).mem_blocks hb ha
    exact .ok (h.absorb ((map_extend_valid hv n).stop_absorb hb' hn hn' hroom))
  · have hafter : (o'.map.gapAt (b.offset + k.shift)).joinNext.after.isEmpty = false := by
      rw [hgap, Gap.shift, hempty]; rfl
    simp only [Outline.growInPlace, hsize, if_neg hfit, hafter, hempty, List.isEmpty_cons,
      Bool.false_eq_true, if_false]
    exact .ok h

theorem move (h : Paired k o o') (hv : o.map.Valid) (hb : b ∈ o.map.blocks)
    (ha : b.allocated = true) (size : Nat) :
    k.Corresponds (Paired k) (k.base + ·) (k.base' + k.shift + ·) (o.move b.offset size)
      (o'.move (b.offset + k.shift) size) := by
  obtain ⟨hv', hb'⟩ := mem_allocate hv hb ha size
  rw [move_eq_andThen, move_eq_andThen]
  exact (h.allocate hv size).andThen fun x _ h => .ok (h.release (hv'.stop_release hb'))

theorem resize (h : Paired k o o') (hv : o.map.Valid) (hb : b ∈ o.map.blocks)
    (ha : b.allocated = true) (size : Nat) :
    k.Corresponds (Paired k) (k.base + ·) (k.base' + k.shift + ·) (o.resize b.offset size)
      (o'.resize (b.offset + k.shift) size) := by
  rcases hneed : blockSize? size with _ | need
  · simp only [Outline.resize, hneed]
    exact .error h
  obtain ⟨h32, h16, -⟩ := blockSize?_spec hneed
  have hsize : (o'.map.gapAt (b.offset + k.shift)).size = (o.map.gapAt b.offset).size := by
    rw [h.map, MemoryMap.gapAt_shift]; rfl
  by_cases hle : need ≤ (o.map.gapAt b.offset).size
  · simp only [Outline.resize, hneed, hsize, if_pos hle, h.base, h.address_eq]
    exact .ok (h.countReallocation.trim (hv.stop_trim hb h32 h16)).countInPlace
  rw [resize_eq_andThen o hneed hle, resize_eq_andThen o' hneed (by rwa [hsize]), h.base,
    h.address_eq]
  have hcases := growInPlace_cases (o := o.countReallocation) hv hb ha need
  refine (h.countReallocation.growInPlace hv hb ha h32 h16).andThen fun grown hx h => ?_
  cases grown with
  | true => exact .ok h.countInPlace
  | false =>
    -- where there is no room, `move` starts from the outline that is there
    have hsame : (o.countReallocation.growInPlace b.offset need).2 = o.countReallocation := by
      rcases hcases with ⟨e, u, hg, -⟩ | hg | ⟨u, hg, -⟩ <;> rw [hg] at hx ⊢ <;> cases hx
    refine h.move ?_ ?_ ha size <;> rw [hsame]
    exacts [hv, hb]

end Paired

end Outline

/-! ### Calls -/

/-- The same call at `base`, where its pointer is an offset. -/
def Call.shift (base : Nat) : Call → Call
  | allocate size => allocate size
  | allocateZeroed count size => allocateZeroed count size
  | free x => free (x.map (base + ·))
  | reallocate x size => reallocate (x.map (base + ·)) size

theorem Call.handed_shift (base : Nat) (c : Call) :
    (c.shift base).handed = c.handed.map (base + ·) := by
  cases c <;> rfl

theorem Call.paired {k : Pairing} {o o' : Outline} (h : Outline.Paired k o o') (hv : o.map.Valid)
    (c : Call) (hc : (c.shift k.base).Valid o) :
    k.Corresponds (Outline.Paired k) (Option.map (k.base + ·)) (Option.map (k.base' + k.shift + ·))
      ((c.shift k.base).outline o) ((c.shift (k.base' + k.shift)).outline o') := by
  have hblock : ∀ x ∈ c.handed, ∃ b ∈ o.map.blocks, b.allocated = true ∧ x = b.offset := by
    intro x hx
    obtain ⟨b, hb, he⟩ := hc (k.base + x) (by rw [handed_shift, hx]; rfl)
    obtain ⟨hb, ha⟩ := Block.mem_live.1 hb
    rw [h.base] at he
    exact ⟨b, hb, ha, Nat.add_left_cancel he⟩
  have hoffset : ∀ x, k.base + x - o.base = x ∧ k.base' + k.shift + x - o'.base = x + k.shift := by
    intro x
    rw [h.base, h.base']
    omega
  cases c with
  | allocate size => exact (h.allocate hv size).map_some
  | allocateZeroed count size => exact (h.allocateZeroed hv count size).map_some
  | free x =>
    rcases x with _ | x
    · exact .ok (x := none) h
    obtain ⟨b, hb, ha, rfl⟩ := hblock x rfl
    simp only [shift, outline, Outline.free, Option.map_some, hoffset]
    exact .ok (x := none) (h.release (hv.stop_release hb))
  | reallocate x size =>
    rcases x with _ | x
    · exact (h.allocate hv size).map_some
    obtain ⟨b, hb, ha, rfl⟩ := hblock x rfl
    simp only [shift, outline, Outline.reallocate, Outline.free, Option.map_some, hoffset]
    split
    · exact .ok (x := none) (h.release (hv.stop_release hb))
    · exact (h.resize hv hb ha size).map_some

/-! ### New heaps -/

namespace Provider

open Pairing (andThen)

/-- Arenas without blocks that correspond. -/
structure Paired (k : Pairing) (p p' : Provider) : Prop where
  base : p.arena.base = k.base
  base' : p'.arena.base = k.base'
  size : p'.arena.size = p.arena.size + k.shift
  source : k.Related p.arena.size p.source p'.source

variable {k : Pairing} {p p' : Provider}

theorem grow_of_request_error {n : Nat} {e : Error}
    (h : (p.source.request p.arena.base p.arena.size n).2 = .error e) : (p.grow n).2 = .error e := by
  obtain ⟨a, source⟩ := p
  simp only at h
  rcases hr : source.request a.base a.size n with ⟨t, r⟩
  rw [hr] at h
  obtain rfl : r = .error e := h
  simp only [Provider.grow, hr]

theorem Paired.grow (h : Paired k p p') (n : Nat) :
    k.Corresponds (Paired k) id (· + k.shift) (p.grow n).swap (p'.grow n).swap := by
  have hr := k.request h.source n
  rw [← h.base, ← h.base', ← h.size] at hr
  obtain ⟨a, source⟩ := p
  obtain ⟨a', source'⟩ := p'
  obtain ⟨hb, hb', hs, -⟩ := h
  simp only at hb hb' hs
  rcases hr with ⟨t, t', hr, hr', ht⟩ | ⟨e, t, t', hr, hr', ht⟩ | ⟨e, he, hr⟩
  · simp only [Provider.grow, hr, hr', Prod.swap_prod_mk]
    rw [hs]
    refine .ok (x := a.size) ⟨hb, hb', ?_, ht⟩
    simp only [Arena.extend, hs]
    omega
  · simp only [Provider.grow, hr, hr', Prod.swap_prod_mk]
    exact .error ⟨hb, hb', hs, ht⟩
  · exact .refused he (hr.imp grow_of_request_error grow_of_request_error)

theorem primed_eq_andThen (p : Provider) (h : p.arena.size < ceilAligned p.arena.size) :
    p.primed.swap = andThen (p.grow (ceilAligned p.arena.size - p.arena.size)).swap
      fun _ q => (q.grow prologueSize).swap := by
  rw [primed_of_lt h]
  rcases p.grow (ceilAligned p.arena.size - p.arena.size) with ⟨_, _ | _⟩ <;> rfl

theorem Paired.primed (h : Paired k p p') (h16 : alignment ∣ k.shift) :
    k.Corresponds (Paired k) id (· + k.shift) p.primed.swap p'.primed.swap := by
  have hceil : ceilAligned p'.arena.size = ceilAligned p.arena.size + k.shift := by
    rw [h.size]
    simp only [ceilAligned, alignment] at *
    omega
  by_cases hlt : p.arena.size < ceilAligned p.arena.size
  · have hlt' : p'.arena.size < ceilAligned p'.arena.size := by rw [hceil, h.size]; omega
    rw [primed_eq_andThen p hlt, primed_eq_andThen p' hlt', hceil, h.size, Nat.add_sub_add_right]
    exact (h.grow _).andThen fun _ _ h => h.grow prologueSize
  · have hlt' : ¬p'.arena.size < ceilAligned p'.arena.size := by rw [hceil, h.size]; omega
    rw [Provider.primed_of_not_lt hlt, Provider.primed_of_not_lt hlt']
    exact h.grow prologueSize

end Provider

namespace Outline

variable {k : Pairing} {p p' : Provider} {y y' : Provider × Except Error Nat}

theorem empty_paired (h : Provider.Paired k p p') (config : Config) :
    Paired k (empty p config) (empty p' config) :=
  ⟨h.base, h.base', by rw [empty, empty, h.size]; rfl, rfl, rfl, h.source⟩

/-- First chunks behind prologues that correspond. -/
theorem firstChunk_paired
    (h : k.Corresponds (Provider.Paired k) id (· + k.shift) y.swap y'.swap)
    (hy : ∀ q bp, y = (q, .ok bp) → 32 ≤ q.arena.size ∧ 16 ∣ q.arena.size) (config : Config) :
    (∃ e, firstChunk config y = .error e ∧ firstChunk config y' = .error e) ∨
    (∃ o o', firstChunk config y = .ok o ∧ firstChunk config y' = .ok o' ∧ Paired k o o') ∨
    ∃ e, k.Refusal e ∧ (firstChunk config y = .error e ∨ firstChunk config y' = .error e) := by
  obtain ⟨q, r⟩ := y
  obtain ⟨q', r'⟩ := y'
  rw [Prod.swap_prod_mk, Prod.swap_prod_mk] at h
  cases h with
  | error => exact .inl ⟨_, rfl, rfl⟩
  | refused he h =>
    refine .inr (.inr ⟨_, he, h.imp ?_ ?_⟩) <;> rintro rfl <;> rfl
  | @ok x _ _ h =>
    obtain ⟨h32, h16⟩ := hy q x rfl
    have hx := (empty_paired h config).extend (empty_map_valid h32 h16) config.chunkSize
    simp only [firstChunk]
    generalize (empty q config).extend config.chunkSize = z at hx ⊢
    generalize (empty q' config).extend config.chunkSize = z' at hx ⊢
    cases hx with
    | error => exact .inl ⟨_, rfl, rfl⟩
    | ok h => exact .inr (.inl ⟨_, _, rfl, rfl, h⟩)
    | refused he h =>
      obtain ⟨_, _⟩ := z
      obtain ⟨_, _⟩ := z'
      refine .inr (.inr ⟨_, he, h.imp ?_ ?_⟩) <;> rintro rfl <;> rfl

/-- New heaps over providers that correspond. -/
theorem create_paired (h : Provider.Paired k p p') (h16 : alignment ∣ k.shift) (config : Config) :
    (∃ e, create p config = .error e ∧ create p' config = .error e) ∨
    (∃ o o', create p config = .ok o ∧ create p' config = .ok o' ∧ Paired k o o') ∨
    ∃ e, k.Refusal e ∧ (create p config = .error e ∨ create p' config = .error e) :=
  firstChunk_paired (h.primed h16) (fun _ _ => Provider.primed_spec) config

end Outline

end SegregatedFit
