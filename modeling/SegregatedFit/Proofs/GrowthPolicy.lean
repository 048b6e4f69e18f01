import SegregatedFit.Proofs.Requests
import SegregatedFit.Proofs.Totality

/-!
# When the arena grows

An allocation asks the source for bytes only where no free block of the heap is large enough, and
then once, for a chunk or for as much as it needs, whichever is more; a refusal is its own error
(`Session.Reachable.growthPolicy`). That the search of the chains misses no block is
`MemoryMap.Valid.firstFit_eq_none_iff`. A resize that moves its block comes to the allocation only
after a growth in place that asked for nothing (`HeapM.requests_grow_or_move`), so it asks once at
most, too.

What was asked for is read off the reports of a call, and `HeapM.Asks` makes sure of those.
-/

namespace SegregatedFit

/-! ### Size classes -/

theorem sizeClass_mono {n k : Nat} (h : n ≤ k) : sizeClass n ≤ sizeClass k := by
  by_cases hk : (sizeClass k).val < classCount - 1
  · exact (sizeClass_le_iff hk).2 (Nat.le_trans h ((sizeClass_le_iff hk).1 (Nat.le_refl _)))
  · have := (sizeClass n).isLt
    exact Fin.le_def.2 (by omega)

/-- A search for `n` bytes leaves out the classes below that of `n`. -/
theorem mem_classes_iff {c : SizeClass} {n : Nat} :
    c ∈ (List.finRange classCount).drop (sizeClass n).val ↔ sizeClass n ≤ c := by
  rw [List.mem_drop_iff_getElem]
  constructor
  · rintro ⟨i, hi, rfl⟩
    rw [List.getElem_finRange]
    exact Nat.le_add_right ..
  · intro hc
    refine ⟨c.val - (sizeClass n).val, ?_, ?_⟩
    · have := c.isLt
      rw [List.length_finRange]
      omega
    · rw [List.getElem_finRange]
      exact Fin.ext (Nat.add_sub_cancel' hc)

namespace MemoryMap

variable {m : MemoryMap} {n : Nat}

/-- First fit misses no block. -/
theorem Valid.firstFit_eq_none_iff (hv : m.Valid) :
    m.firstFit n = none ↔ ∀ b ∈ m.blocks, b.allocated = false → b.size < n := by
  constructor
  · intro h b hb hf
    by_contra hle
    have hmem := mem_classes_iff.2 (sizeClass_mono (Nat.le_of_not_lt hle))
    have hnone := List.findSome?_eq_none_iff.1 h _ hmem
    have := List.find?_eq_none.1 hnone _ (hv.mem_chains hb hf)
    rw [hv.gapAt_size hb] at this
    simp at this
    omega
  · intro h
    rcases hx : m.firstFit n with _ | x
    · rfl
    · obtain ⟨b, hb, hf, -, hle⟩ := hv.mem_of_firstFit hx
      exact absurd hle (Nat.not_le.2 (h b hb hf))

end MemoryMap

/-! ### Chunks -/

namespace Config

variable {config : Config}

/-- A chunk is a block, and no word overflows when it is asked for. -/
theorem chunkSize_of_validate (h : config.validate.run = .ok (.ok ())) :
    32 ≤ config.chunkSize ∧ 16 ∣ config.chunkSize ∧ config.chunkSize < Word.limit := by
  rw [validate] at h
  split at h
  · cases h
  · next hc =>
    simp only [minBlockSize, alignment, not_or, not_not] at hc
    rcases ha : Word.add prologueSize config.chunkSize with fault | needed
    · rw [ha] at h
      cases h
    · obtain ⟨hlt, -⟩ := Word.add_eq_ok_iff.1 ha
      exact ⟨Nat.le_of_not_lt hc.1, Nat.dvd_of_mod_eq_zero hc.2, by omega⟩

end Config

/-! ### Meters -/

namespace Provider

variable {p : Provider} {refuse : Nat → Option Error} {k : Nat} {granted : List Nat}
  {inner : Source}

/-- A meter counts every request, and notes those that are granted. -/
theorem grow_metered (h : p.source = .metered refuse k granted inner) (n : Nat) :
    ∃ granted' inner', (p.grow n).1.source = .metered refuse (k + 1) granted' inner' ∧
      ∀ x, (p.grow n).2 = .ok x → granted' = granted ++ [n] := by
  obtain ⟨a, source⟩ := p
  obtain rfl : source = _ := h
  rw [grow, Source.request]
  rcases refuse k with _ | e
  · rcases inner.request a.base a.size n with ⟨t, e | ⟨⟩⟩
    · exact ⟨granted, t, rfl, by rintro _ ⟨⟩⟩
    · exact ⟨_, t, rfl, fun _ _ => rfl⟩
  · exact ⟨granted, inner, rfl, by rintro _ ⟨⟩⟩

theorem asked_metered (h : p.source = .metered refuse k granted inner) (ns : List Nat) :
    ∃ granted' inner', (p.asked ns).source = .metered refuse (k + ns.length) granted' inner' := by
  induction ns generalizing p k granted inner with
  | nil => exact ⟨granted, inner, h⟩
  | cons n ns ih =>
    obtain ⟨granted', inner', hgrow, -⟩ := grow_metered h n
    rw [List.length_cons, Nat.add_comm ns.length, ← Nat.add_assoc]
    exact ih hgrow

end Provider

/-! ### What an allocation asks for -/

namespace HeapM

variable {h : Heap} {n need : Nat} {fit : Option Nat}

/-- The requests of an extension by `bytes`. -/
def extension (bytes : Nat) : List Nat :=
  ((alignUp? bytes).map (max · minBlockSize)).toList

theorem requests_extend {bytes : Nat} {out : Outcome Nat} (hr : (extend bytes).run h = .ok out) :
    requests out.events = extension bytes := by
  rcases extend_cases hr with ⟨hk, rfl⟩ | ⟨k, q, hk, ⟨e, -, rfl⟩ |
    ⟨x, bp, k', merged, size, -, rfl, hmerged, -⟩⟩ <;> rw [extension, hk]
  · rfl
  · rfl
  · rw [requests, List.filterMap_cons, hmerged]; rfl

theorem requests_findOrExtend {out : Outcome Nat} (hfit : h.pool.firstFit need = .ok fit)
    (hr : (findOrExtend need).run h = .ok out) :
    requests out.events = match fit with
      | some _ => []
      | none => extension (max need h.config.chunkSize) := by
  obtain ⟨out₁, hr₁, rfl⟩ := exists_run_of_bind (run_ask (by rw [hfit]; rfl)) hr
  rcases fit with _ | bp
  · obtain ⟨out₂, hr₂, rfl⟩ := exists_run_of_bind (run_ask (a := h.config) rfl) hr₁
    exact requests_extend hr₂
  · cases hr₁
    rfl

/-- What is asked for after `x` is left out of account, where nothing is. -/
theorem requests_bind {α β : Type} {x : HeapM α} {f : α → HeapM β} (hf : ∀ a, Asks 0 (f a))
    {out : Outcome β} (hr : (x >>= f).run h = .ok out) :
    ∃ out₁, x.run h = .ok out₁ ∧ requests out.events = requests out₁.events := by
  rcases run_bind_eq_ok hr with ⟨e, k, l, hr₁, rfl⟩ | ⟨a, k, l, out₂, hr₁, hr₂, rfl⟩
  · exact ⟨_, hr₁, rfl⟩
  · refine ⟨_, hr₁, ?_⟩
    rw [Outcome.after, requests_append, ((hf a).asked hr₂).requests_eq_nil, List.append_nil]

theorem requests_allocate {out : Outcome Nat} (hfit : h.pool.firstFit (neededSize n) = .ok fit)
    (hr : (allocate n).run h = .ok out) :
    requests out.events = if 0 < n ∧ neededSize n < Word.limit ∧ fit = none then
      extension (max (neededSize n) h.config.chunkSize) else [] := by
  by_cases h0 : n = 0
  · rw [allocate, if_pos h0] at hr
    cases hr
    rw [if_neg (fun h => absurd h0 (Nat.ne_of_gt h.1))]; rfl
  rw [allocate, if_neg h0, blockSize, blockSize?_eq] at hr
  by_cases hlt : neededSize n < Word.limit
  · rw [if_pos hlt] at hr
    obtain ⟨out₁, hr₁, rfl⟩ := exists_run_of_bind (a := neededSize n) (k := h) (l := []) rfl hr
    obtain ⟨out₂, hr₂, heq⟩ := requests_bind (fun bp => .place bp (neededSize n) n) hr₁
    refine heq.trans ((requests_findOrExtend hfit hr₂).trans ?_)
    rcases fit with _ | bp
    · rw [if_pos ⟨Nat.pos_of_ne_zero h0, hlt, rfl⟩]
    · rw [if_neg (fun h => Option.some_ne_none bp h.2.2)]
  · rw [if_neg hlt] at hr
    cases hr
    rw [if_neg (fun h => hlt h.2.1)]; rfl

end HeapM

/-! ### How an allocation ends -/

theorem HeapM.extension_eq {n : Nat} (h32 : 32 ≤ n) (h16 : 16 ∣ n) (hlt : n < Word.limit) :
    extension n = [n] := by
  rw [extension, alignUp?_block h32 h16 hlt]
  rfl

/-- A chunk is large enough for a block, and what is asked for is a block, too. -/
theorem Config.growth_spec {config : Config} (hc : config.validate.run = .ok (.ok ())) {k : Nat}
    (h16 : 16 ∣ k) (hlt : k < Word.limit) : 32 ≤ max k config.chunkSize ∧
      16 ∣ max k config.chunkSize ∧ max k config.chunkSize < Word.limit := by
  obtain ⟨h32, hc16, hclt⟩ := chunkSize_of_validate hc
  exact ⟨Nat.le_trans h32 (Nat.le_max_right ..), by omega, by omega⟩

theorem Source.request_buffer_eq_error_iff {capacity base size n : Nat} {e : Error} :
    ((Source.buffer capacity).request base size n).2 = .error e ↔
      capacity - size < n ∧ e = .outOfMemory n (capacity - size) := by
  rw [request]
  split
  · next hle => simp [Nat.not_lt.2 hle]
  · next hle => simp [Nat.lt_of_not_le hle, eq_comm]

theorem Provider.grow_eq_error_iff {p : Provider} {n : Nat} {e : Error} :
    (p.grow n).2 = .error e ↔ (p.source.request p.arena.base p.arena.size n).2 = .error e := by
  obtain ⟨a, source⟩ := p
  rw [grow]
  rcases source.request a.base a.size n with ⟨t, e' | ⟨⟩⟩ <;> simp

namespace Outline

variable {o : Outline} {source : Source} {n : Nat} {e : Error}

/-- A size that a block may have is asked for as it is. -/
theorem extend_of_refused (h32 : 32 ≤ n) (h16 : 16 ∣ n) (hlt : n < Word.limit)
    (hr : o.source.request o.base o.map.stop n = (source, .error e)) :
    o.extend n = (.error e, { o with source }) := by
  obtain ⟨k, hk, hmax⟩ := Option.map_eq_some_iff.1 (alignUp?_block h32 h16 hlt)
  simp only [extend, hk, hmax, hr]

theorem extend_of_granted (h32 : 32 ≤ n) (h16 : 16 ∣ n) (hlt : n < Word.limit)
    (hr : o.source.request o.base o.map.stop n = (source, .ok ())) :
    o.extend n = (.ok (o.map.added n).joinPrev.offset,
      { o with source, map := o.map.grow n, stats := o.stats.extended }) := by
  obtain ⟨k, hk, hmax⟩ := Option.map_eq_some_iff.1 (alignUp?_block h32 h16 hlt)
  simp only [extend, hk, hmax, hr]

theorem error_allocate_iff (hc : o.config.validate.run = .ok (.ok ())) :
    (o.allocate n).1 = .error e ↔ n = 0 ∧ e = .zeroSize ∨
      0 < n ∧ Word.limit ≤ neededSize n ∧ e = .sizeOverflow ∨
      0 < n ∧ neededSize n < Word.limit ∧ o.map.firstFit (neededSize n) = none ∧
        (o.source.request o.base o.map.stop (max (neededSize n) o.config.chunkSize)).2 =
          .error e := by
  by_cases h0 : n = 0
  · subst h0
    simp [allocate, eq_comm]
  rw [allocate, if_neg h0, blockSize?_eq]
  by_cases hlt : neededSize n < Word.limit
  · rw [if_pos hlt]
    rcases hfit : o.map.firstFit (neededSize n) with _ | x
    · obtain ⟨h32, h16, hklt⟩ := Config.growth_spec hc (neededSize_aligned n) hlt
      simp only [findOrExtend, hfit]
      rcases hr : o.source.request o.base o.map.stop (max (neededSize n) o.config.chunkSize) with
        ⟨t, e' | ⟨⟩⟩
      · rw [extend_of_refused h32 h16 hklt hr]
        simp [h0, hlt, Nat.not_le.2 hlt, Nat.pos_of_ne_zero h0]
      · rw [extend_of_granted h32 h16 hklt hr]
        simp [h0, hlt, Nat.not_le.2 hlt, Nat.pos_of_ne_zero h0]
    · simp [findOrExtend, hfit, h0, Nat.not_le.2 hlt]
  · rw [if_neg hlt]
    simp [h0, hlt, Nat.le_of_not_lt hlt, Nat.pos_of_ne_zero h0, eq_comm]

end Outline

/-! ### What a resize asks for -/

/-- Where the heap did not change and the operation did not stop, nothing was asked. -/
theorem Outcome.Asked.quiet {α : Type} {n : Nat} {h : Heap} {a : α} {l : List Event}
    (ho : (Outcome.mk (.ok a) h l).Asked n h) : requests l = [] := by
  have hgranted : requests l = grants l := ho.granted a rfl
  have hsize : h.size = h.size + (grants l).sum := ho.size
  rw [hgranted]
  rcases hl : grants l with _ | ⟨k, ks⟩
  · rfl
  · have hge : 32 ≤ k := ho.grant_ge k (by rw [hl]; exact List.mem_cons_self)
    rw [hl, List.sum_cons] at hsize
    omega

namespace HeapM

variable {h : Heap} {o : Outline} {b : Block} {need size : Nat} {old : Tag}

/-- Growing in place asks for bytes where the block is the last one, but for a free block after it,
and the two have too little. -/
theorem requests_growInPlace (ho : o.Outlines h) (hb : b ∈ o.map.blocks) (ha : b.allocated = true)
    (hold : old.size = b.size) {out : Outcome Bool}
    (hr : (growInPlace b.offset old need).run h = .ok out) :
    requests out.events =
      if (o.map.gapAt b.offset).joinNext.size < need ∧
          (o.map.gapAt b.offset).joinNext.after = [] then
        extension (max (need - (o.map.gapAt b.offset).joinNext.size) o.config.chunkSize)
      else [] := by
  rw [run_growInPlace ho hb ha hold] at hr
  split_ifs at hr with hfit hempty
  · rw [if_neg (fun h => Nat.not_lt.2 hfit h.1)]
    exact ((Asks.takeNext ..).asked hr).requests_eq_nil
  · rw [if_pos ⟨Nat.lt_of_not_le hfit, hempty⟩]
    obtain ⟨_, hr₁, heq⟩ := requests_bind (fun _ => .step (.header _) fun nextTag =>
      .step (.ofChecked _) fun available => .takeNext ..) hr
    exact heq.trans (requests_extend hr₁)
  · cases hr
    rw [if_neg (fun h => hempty h.2)]
    rfl

/-- A block that moves has asked for nothing when it was tried to grow it in place. -/
theorem requests_grow_or_move (ho : o.Outlines h) (hb : b ∈ o.map.blocks) (ha : b.allocated = true)
    (hold : old = ⟨b.size, true, flagAfter true (o.map.gapAt b.offset).before⟩) (h16 : 16 ∣ need)
    (hlt : b.size < need) {inPlace : HeapM Nat} (hin : Asks 0 inPlace) {out : Outcome Nat}
    (hr : (growInPlace b.offset old need >>= fun grown =>
      if grown then inPlace else move b.offset old size).run h = .ok out) :
    (requests out.events).length ≤ 1 := by
  rcases grow_or_move_cases ho hb ha hold h16 hlt hr with
    ⟨e, k, l, -, hr₁, rfl⟩ | ⟨k, l, out', -, hr₁, hr₂, rfl⟩ | ⟨l, out', -, hr₁, hr₂, rfl⟩ <;>
    have hasked := (Asks.growInPlace ..).asked hr₁
  · exact hasked.atMost
  · rw [Outcome.after, requests_append, List.length_append]
    exact Nat.add_le_add hasked.atMost (hin.asked hr₂).atMost
  · rw [Outcome.after, requests_append, hasked.quiet, List.nil_append]
    exact ((Asks.move ..).asked hr₂).atMost

theorem requests_resize (ho : o.Outlines h) (hb : b ∈ o.map.blocks) (ha : b.allocated = true)
    {out : Outcome Nat} (hr : (resize (o.base + b.offset) size).run h = .ok out) :
    (requests out.events).length ≤ 1 := by
  rcases resize_cases ho hb ha hr with ⟨-, rfl⟩ | ⟨need, old, hneed, hold, ho₁, hr₁⟩
  · exact Nat.zero_le 1
  obtain ⟨-, h16, -⟩ := blockSize?_spec hneed
  split_ifs at hr₁ with hle
  · refine Nat.le_succ_of_le (Asks.asked (n := 0) ?_ hr₁).atMost
    exact .step (.shrink ..) fun _ => .step .recordInPlace fun _ => .step (.emit rfl) fun _ =>
      .pure _
  · rw [hold] at hle
    exact requests_grow_or_move ho₁ hb ha hold h16 (Nat.lt_of_not_le hle)
      (.step .recordInPlace fun _ => .step (.emit rfl) fun _ => .pure _) hr₁

theorem requests_reallocate (ho : o.Outlines h) {address : Option Nat}
    (hc : (Call.reallocate address size).Valid o) {out : Outcome (Option Nat)}
    (hr : (reallocate address size).run h = .ok out) : (requests out.events).length ≤ 1 := by
  rcases address with _ | address
  · exact (((Asks.allocate size).bind fun _ => .pure _).asked hr).atMost
  obtain ⟨b, hb, rfl⟩ := hc address rfl
  obtain ⟨hb, ha⟩ := Block.mem_live.1 hb
  rw [reallocate] at hr
  split_ifs at hr with h0
  · refine Nat.le_succ_of_le (Asks.asked (n := 0) ?_ hr).atMost
    exact .step (.free _) fun _ => .pure none
  · obtain ⟨out₁, hr₁, heq⟩ := requests_bind (fun _ => .pure _) hr
    rw [heq]
    exact requests_resize ho hb ha hr₁

end HeapM

/-! ### The policy -/

/-- The source was asked for just `ns`, one after another, and all of that was reported. -/
structure Outcome.Requested {α : Type} (out : Outcome α) (ns : List Nat) (h : Heap) : Prop where
  reported : requests out.events = ns
  provider : (h.provider.asked ns).Akin out.heap.provider
  /-- A meter has counted as many requests. -/
  metered : ∀ refuse k granted inner, h.provider.source = .metered refuse k granted inner →
    ∃ granted' inner', out.heap.provider.source = .metered refuse (k + ns.length) granted' inner'

theorem Outcome.Asked.requested {α : Type} {out : Outcome α} {ns : List Nat} {h : Heap} {n : Nat}
    (ho : out.Asked n h) (hns : requests out.events = ns) : out.Requested ns h := by
  subst hns
  refine ⟨rfl, ho.provider, fun refuse k granted inner hs => ?_⟩
  rw [ho.provider.source]
  exact Provider.asked_metered hs _

/-- Some free block has at least `need` bytes. -/
def Heap.Fits (h : Heap) (need : Nat) : Prop :=
  ∃ bs, h.blocks = .ok bs ∧ ∃ b ∈ bs, b.allocated = false ∧ need ≤ b.size

/-- How a request for `n` bytes is served. -/
structure Outcome.Serves (out : Outcome (Option Nat)) (n : Nat) (h : Heap) : Prop where
  once : 0 < n → neededSize n < Word.limit → ¬h.Fits (neededSize n) →
    out.Requested [max (neededSize n) h.config.chunkSize] h
  never : n = 0 ∨ Word.limit ≤ neededSize n ∨ h.Fits (neededSize n) → out.Requested [] h
  error_iff : ∀ e, out.result = .error e ↔ n = 0 ∧ e = .zeroSize ∨
    0 < n ∧ Word.limit ≤ neededSize n ∧ e = .sizeOverflow ∨
    0 < n ∧ neededSize n < Word.limit ∧ ¬h.Fits (neededSize n) ∧
      (h.provider.grow (max (neededSize n) h.config.chunkSize)).2 = .error e
  /-- A buffer refuses what it has no room for. -/
  buffer : ∀ capacity, h.provider.source = .buffer capacity → 0 < n → neededSize n < Word.limit →
    ∀ e, out.result = .error e ↔ ¬h.Fits (neededSize n) ∧
      capacity - h.size < max (neededSize n) h.config.chunkSize ∧
      e = .outOfMemory (max (neededSize n) h.config.chunkSize) (capacity - h.size)

/-- Where no block is large enough, the provider decides. -/
theorem Outcome.Serves.error_iff_of_not_fits {out : Outcome (Option Nat)} {n : Nat} {h : Heap}
    {e : Error} (ho : out.Serves n h) (h0 : 0 < n) (hlt : neededSize n < Word.limit)
    (hfits : ¬h.Fits (neededSize n)) : out.result = .error e ↔
      (h.provider.grow (max (neededSize n) h.config.chunkSize)).2 = .error e := by
  rw [ho.error_iff]
  constructor
  · rintro (⟨rfl, -⟩ | ⟨-, hle, -⟩ | ⟨-, -, -, hgrow⟩)
    · exact absurd h0 (Nat.lt_irrefl 0)
    · exact absurd hlt (Nat.not_lt.2 hle)
    · exact hgrow
  · exact fun hgrow => .inr (.inr ⟨h0, hlt, hfits, hgrow⟩)

namespace Session

/-- When the source is asked for bytes, and when a call fails. -/
structure GrowthPolicy (s : Session) : Prop where
  /-- Until there were as many calls as there are words, there is an outcome to speak of. -/
  answered : s.calls < Word.limit → ∀ c : Call, (∀ address ∈ c.handed, address ∈ s.pointers) →
    ∃ out, c.perform.run s.heap = .ok out
  allocate : ∀ n out, (Call.allocate n).perform.run s.heap = .ok out → out.Serves n s.heap
  allocateZeroed : ∀ count size out,
    (Call.allocateZeroed count size).perform.run s.heap = .ok out →
      if count * size < Word.limit then out.Serves (count * size) s.heap
      else out.result = .error .sizeOverflow ∧ out.Requested [] s.heap
  free : ∀ address out, (Call.free address).perform.run s.heap = .ok out → out.Requested [] s.heap
  reallocate : ∀ address size out, (∀ p ∈ address, p ∈ s.pointers) →
    (Call.reallocate address size).perform.run s.heap = .ok out →
      ∃ ns, ns.length ≤ 1 ∧ out.Requested ns s.heap

/-- The configuration is the one that was accepted. -/
theorem Reachable.config_valid {s : Session} (hs : s.Reachable) :
    s.heap.config.validate.run = .ok (.ok ()) := by
  induction hs with
  | @start p config h events hp hc =>
    obtain ⟨o, hy, ho⟩ := outlined_start hp hc
    obtain ⟨q, bp, x, -, hx⟩ := Outline.create_eq_ok hy
    rcases (Outline.empty q config).extend_cases config.chunkSize with
      ⟨e, source, hext, -⟩ | ⟨n, source, -, -, -, -, hext⟩ <;> rw [hx] at hext <;> cases hext
    rw [ho.outlines.config]
    exact Heap.validate_of_create hc
  | step _ hm ih =>
    cases hm with
    | call hc hr =>
      rw [(Call.asks_perform _).asked hr |>.config]
      exact ih
    | write => exact ih
    | moveEnd => exact ih

namespace Outlined

variable {s : Session} {o : Outline} {n need : Nat}

theorem fits_iff (h : s.Outlined o) : s.heap.Fits need ↔ o.map.firstFit need ≠ none := by
  rw [Ne, h.outlines.valid.map.firstFit_eq_none_iff]
  simp only [Heap.Fits, h.blocks_eq, Except.ok.injEq, exists_eq_left', not_forall, not_lt,
    exists_prop]

theorem refused_iff (h : s.Outlined o) {e : Error} :
    (s.heap.provider.grow n).2 = .error e ↔ (o.source.request o.base o.map.stop n).2 = .error e := by
  have hsize : s.heap.provider.arena.size = o.map.stop := h.size_eq
  have hbase : s.heap.provider.arena.base = o.base := h.outlines.base
  rw [Provider.grow_eq_error_iff, hsize, hbase, h.outlines.source]

theorem error_iff (h : s.Outlined o) (hc : s.heap.config.validate.run = .ok (.ok ())) {e : Error} :
    (o.allocate n).1 = .error e ↔ n = 0 ∧ e = .zeroSize ∨
      0 < n ∧ Word.limit ≤ neededSize n ∧ e = .sizeOverflow ∨
      0 < n ∧ neededSize n < Word.limit ∧ ¬s.heap.Fits (neededSize n) ∧
        (s.heap.provider.grow (max (neededSize n) s.heap.config.chunkSize)).2 = .error e := by
  rw [h.refused_iff, h.fits_iff, h.outlines.config, not_not]
  exact Outline.error_allocate_iff (h.outlines.config ▸ hc)

/-- An allocation serves, and so does what asks for nothing else. -/
theorem serves (h : s.Outlined o) (hc : s.heap.config.validate.run = .ok (.ok ())) {k : Nat}
    {out : Outcome (Option Nat)} {out' : Outcome Nat} (hasked : out.Asked k s.heap)
    (hres : out.result = (o.allocate n).1.map some) (hr : (HeapM.allocate n).run s.heap = .ok out')
    (hreq : requests out.events = requests out'.events) : out.Serves n s.heap := by
  have hfit := h.outlines.describes.firstFit_eq (n := neededSize n) h.outlines.valid.map
  have hns := hreq.trans (HeapM.requests_allocate hfit hr)
  have herror : ∀ e, out.result = .error e ↔ (o.allocate n).1 = .error e := by
    intro e
    rw [hres]
    exact ⟨Except.eq_error_of_map, fun he => by rw [he]; rfl⟩
  refine ⟨?_, ?_, fun e => (herror e).trans (h.error_iff hc), ?_⟩
  · intro h0 hlt hfits
    refine hasked.requested (hns.trans ?_)
    obtain ⟨h32, h16, hklt⟩ := Config.growth_spec hc (neededSize_aligned n) hlt
    rw [if_pos ⟨h0, hlt, not_not.1 (mt h.fits_iff.2 hfits)⟩, HeapM.extension_eq h32 h16 hklt]
  · intro hor
    refine hasked.requested (hns.trans (if_neg ?_))
    rintro ⟨h0, hlt, hnone⟩
    rcases hor with rfl | hle | hfits
    · exact absurd h0 (Nat.lt_irrefl 0)
    · exact absurd hlt (Nat.not_lt.2 hle)
    · exact h.fits_iff.1 hfits hnone
  · intro capacity hs h0 hlt e
    rw [herror e, h.error_iff hc, Provider.grow_eq_error_iff, hs, Source.request_buffer_eq_error_iff]
    constructor
    · rintro (⟨rfl, -⟩ | ⟨-, hle, -⟩ | ⟨-, -, hrest⟩)
      · exact absurd h0 (Nat.lt_irrefl 0)
      · exact absurd hlt (Nat.not_lt.2 hle)
      · exact hrest
    · exact fun hrest => .inr (.inr ⟨h0, hlt, hrest⟩)

end Outlined

/-- Bytes are asked for only where no free block is large enough, and once. -/
theorem Reachable.growthPolicy {s : Session} (hs : s.Reachable) : s.GrowthPolicy := by
  obtain ⟨o, h⟩ := hs.outlined
  have hc := hs.config_valid
  refine ⟨fun hn c hv => h.call_exists hn hv, ?_, ?_, ?_, ?_⟩
  · intro n out hr
    obtain ⟨hres, -⟩ := h.call (by rintro _ ⟨⟩) hr
    obtain ⟨out₁, hr₁, hreq⟩ := HeapM.requests_bind (fun _ => .pure _) hr
    exact h.serves hc ((Call.asks_perform _).asked hr) hres hr₁ hreq
  · intro count size out hr
    obtain ⟨hres, -⟩ := h.call (by rintro _ ⟨⟩) hr
    have hasked := (Call.asks_perform _).asked hr
    obtain ⟨out₁, hr₁, hreq⟩ := HeapM.requests_bind (fun _ => .pure _) hr
    rw [HeapM.allocateZeroed] at hr₁
    rw [Call.outline, Outline.allocateZeroed] at hres
    by_cases hlt : count * size < Word.limit
    · rw [if_neg (Nat.not_le.2 hlt)] at hr₁ hres
      rw [if_pos hlt]
      obtain ⟨out₂, hr₂, hreq₂⟩ := HeapM.requests_bind (fun address =>
        .step (.offsetOf address) fun bp => .step (.updateArena fun a => .clear (.refl a)) fun _ =>
        .pure address) hr₁
      exact h.serves hc hasked hres hr₂ (hreq.trans hreq₂)
    · rw [if_pos (Nat.le_of_not_lt hlt)] at hr₁ hres
      rw [if_neg hlt]
      cases hr₁
      exact ⟨hres, hasked.requested hreq⟩
  · intro address out hr
    have hnone : out.Asked 0 s.heap := HeapM.Asks.asked (.step (.free address) fun _ => .pure none) hr
    exact hnone.requested hnone.requests_eq_nil
  · intro address size out hv hr
    exact ⟨_, HeapM.requests_reallocate h.outlines (h.valid_call hv) hr,
      ((Call.asks_perform _).asked hr).requested rfl⟩

theorem pair_grown : pair.map (fun s => (s.calls, s.heap.config.chunkSize,
    (s.heap.provider.grow 64).2, (s.heap.provider.grow 112).2)) =
    some (2, 64, .ok 160, .error (.outOfMemory 112 96)) := by
  decide +kernel

/-- Its free block has 48 bytes. -/
theorem pair_not_fits {s : Session} {n : Nat} (hs : pair = some s) (hn : 48 < n) :
    ¬s.heap.Fits n := by
  obtain ⟨t, ht, -, -, hblocks, -⟩ := exists_pair
  obtain rfl : s = t := Option.some.inj (hs.symm.trans ht)
  rintro ⟨bs, hbs, b, hb, hfree, hle⟩
  cases hblocks.symm.trans hbs
  simp only [List.mem_cons, List.not_mem_nil, or_false] at hb
  rcases hb with rfl | rfl | rfl
  · cases hfree
  · cases hfree
  · replace hle : n ≤ 48 := hle
    omega

/-- For a block of 64 bytes the heap grows by a chunk, and for one of 112 by more than the buffer has
left. -/
theorem growthPolicy_pair : ∃ s out out', pair = some s ∧ s.Reachable ∧ s.GrowthPolicy ∧
    (Call.allocate 50).perform.run s.heap = .ok out ∧ (∀ e, out.result ≠ .error e) ∧
    out.Requested [64] s.heap ∧
    (Call.allocate 100).perform.run s.heap = .ok out' ∧
    out'.result = .error (.outOfMemory 112 96) ∧ out'.Requested [112] s.heap := by
  obtain ⟨s, hs, hgrown⟩ := Option.map_eq_some_iff.1 pair_grown
  simp only [Prod.mk.injEq] at hgrown
  obtain ⟨hcalls, hchunk, hgranted, hrefused⟩ := hgrown
  have hr := reachable_of_pair hs
  have hpolicy := Reachable.growthPolicy hr
  have hlt : s.calls < Word.limit := by rw [hcalls]; decide
  have h64 : neededSize 50 = 64 := by decide
  have h112 : neededSize 100 = 112 := by decide
  have hfits : ¬s.heap.Fits (neededSize 50) := pair_not_fits hs (by rw [h64]; decide)
  have hfits' : ¬s.heap.Fits (neededSize 100) := pair_not_fits hs (by rw [h112]; decide)
  obtain ⟨out, hout⟩ := hpolicy.answered hlt (.allocate 50) (by rintro _ ⟨⟩)
  obtain ⟨out', hout'⟩ := hpolicy.answered hlt (.allocate 100) (by rintro _ ⟨⟩)
  have hserves := hpolicy.allocate 50 out hout
  have hserves' := hpolicy.allocate 100 out' hout'
  have honce := hserves.once (by decide) (by decide) hfits
  have honce' := hserves'.once (by decide) (by decide) hfits'
  rw [h64, hchunk] at honce
  rw [h112, hchunk] at honce'
  refine ⟨s, out, out', hs, hr, hpolicy, hout, fun e he => ?_, honce, hout', ?_, honce'⟩
  · rw [hserves.error_iff_of_not_fits (by decide) (by decide) hfits, h64, hchunk, Nat.max_self,
      hgranted] at he
    cases he
  · rw [hserves'.error_iff_of_not_fits (by decide) (by decide) hfits', h112, hchunk]
    exact hrefused

end Session

end SegregatedFit
