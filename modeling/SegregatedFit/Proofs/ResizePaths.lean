import SegregatedFit.Proofs.Accounting
import SegregatedFit.Proofs.GrowthPolicy
import SegregatedFit.Proofs.Merging
import SegregatedFit.Proofs.Pairing
import SegregatedFit.Proofs.Zeroing

/-!
# The four ways to resize

Which way a resize takes is decided by the size of its block, by the free block after it and by
whether the arena ends behind them. A block that is large enough gives up its tail, one that is
large enough together with the free block after it takes what it needs of that, and the last one
has the arena grow first. Only a block that allocated blocks keep from growing moves, and then it is
an allocation and a release (`Session.Reachable.resizes`).
-/

namespace SegregatedFit

/-! ### Maps -/

/-- `total` bytes at `x` of which `need` are asked for. What is left over is a free block if it is
large enough for one. -/
def Block.carved (x total need : Nat) : List Block :=
  if minBlockSize ≤ total - need then [⟨x, need, true⟩, ⟨x + need, total - need, false⟩]
  else [⟨x, total, true⟩]

theorem Gap.blocks_fillAllocated (g : Gap) (need : Nat) : (g.fillAllocated need).blocks =
    g.before ++ (Block.carved g.offset g.size need ++ g.after) := by
  unfold fillAllocated Block.carved
  split
  · simp [Gap.split, Gap.fillFree]
  · rfl

namespace Vicinity

/-- Bytes of the block and of the free block after it. -/
def room (v : Vicinity) : Nat := v.block.size + Block.totalSize v.next.toList

/-- The blocks, with `bs` in place of the block and the free block after it. -/
def replaced (v : Vicinity) (bs : List Block) : List Block :=
  v.before ++ (v.prev.toList ++ (bs ++ v.after))

variable {v : Vicinity} {m : MemoryMap} {need n : Nat}

theorem blocks_eq (v : Vicinity) : v.blocks =
    (v.before ++ v.prev.toList) ++ v.block :: (v.next.toList ++ v.after) := by
  simp [blocks, run]

namespace Maximal

theorem joinNext_eq (hmax : v.Maximal) {g : Gap} (hg : g.after = v.next.toList ++ v.after) :
    ∃ l, g.joinNext = ⟨g.first, g.before, g.offset, g.size + Block.totalSize v.next.toList,
      v.after, l⟩ := by
  rcases hn : v.next with _ | y <;> rw [hn] at hg
  · have hafter : g.after = v.after := hg
    rw [Gap.joinNext_of_allocated (by rw [hafter]; exact hmax.after), ← hafter]
    exact ⟨g.chains, rfl⟩
  · exact ⟨_, Gap.joinNext_of_free hg (hmax.next y hn)⟩

/-- The block with the free block after it, as a gap. -/
theorem joinNext_gapAt (hmax : v.Maximal) (hv : m.Valid) (hm : m.blocks = v.blocks) :
    ∃ l, (m.gapAt v.block.offset).joinNext =
      ⟨m.first, v.before ++ v.prev.toList, v.block.offset, v.room, v.after, l⟩ := by
  rw [hv.gapAt_eq (hm.trans v.blocks_eq)]
  exact hmax.joinNext_eq rfl

theorem size_joinNext (hmax : v.Maximal) (hv : m.Valid) (hm : m.blocks = v.blocks) :
    (m.gapAt v.block.offset).joinNext.size = v.room := by
  obtain ⟨l, hj⟩ := hmax.joinNext_gapAt hv hm
  rw [hj]

theorem after_joinNext (hmax : v.Maximal) (hv : m.Valid) (hm : m.blocks = v.blocks) :
    (m.gapAt v.block.offset).joinNext.after = v.after := by
  obtain ⟨l, hj⟩ := hmax.joinNext_gapAt hv hm
  rw [hj]

theorem room_aligned (hmax : v.Maximal) (hv : m.Valid) (hm : m.blocks = v.blocks) :
    16 ∣ v.room := by
  rw [← hmax.size_joinNext hv hm]
  exact (hv.gapAt (by rw [hm, v.blocks_eq]; simp)).joinNext.size_aligned

theorem blocks_absorb (hmax : v.Maximal) (hv : m.Valid) (hm : m.blocks = v.blocks) :
    (m.absorb v.block.offset need).blocks =
      v.replaced (Block.carved v.block.offset v.room need) := by
  obtain ⟨l, hj⟩ := hmax.joinNext_gapAt hv hm
  rw [MemoryMap.absorb, hj, Gap.blocks_fillAllocated, replaced, List.append_assoc]

/-- The tail joins the free block after it. -/
theorem blocks_trim (hmax : v.Maximal) (hv : m.Valid) (hm : m.blocks = v.blocks)
    (hle : need ≤ v.block.size) (hr : minBlockSize ≤ v.block.size - need) :
    (m.trim v.block.offset need).blocks = v.replaced
      [⟨v.block.offset, need, true⟩, ⟨v.block.offset + need, v.room - need, false⟩] := by
  have hgap := hv.gapAt_eq (hm.trans v.blocks_eq)
  obtain ⟨l, hj⟩ := hmax.joinNext_eq (g := (m.gapAt v.block.offset).split need) (by rw [hgap]; rfl)
  have hroom : v.block.size - need + Block.totalSize v.next.toList = v.room - need := by
    rw [room]; omega
  rw [MemoryMap.trim, if_pos (by rw [hgap]; exact hr), Gap.fillMerged,
    Gap.joinPrev_of_allocated Gap.split_before, hj, hgap]
  simp [Gap.fillFree, Gap.split, replaced, hroom]

/-- What the arena grows by behind the block is there for it. -/
theorem blocks_absorb_grow (hmax : v.Maximal) (hv : m.Valid) (hm : m.blocks = v.blocks)
    (hlast : v.after = []) (h32 : 32 ≤ n) (h16 : 16 ∣ n) :
    ((m.grow n).absorb v.block.offset need).blocks =
      v.replaced (Block.carved v.block.offset (v.room + n) need) := by
  obtain ⟨l, hj⟩ := hmax.joinNext_gapAt hv hm
  obtain ⟨d, hd, hblocks, hsize⟩ := hv.blocks_grow_behind (n := n) (hm.trans v.blocks_eq)
    hmax.block (by rw [hj]; exact hlast)
  rw [hj] at hsize
  have hmax' : Maximal { v with next := some d, after := [] } :=
    ⟨hmax.block, hmax.prev, by rintro _ ⟨⟩; exact hd, hmax.before, nofun⟩
  have h : ((m.grow n).absorb v.block.offset need).blocks = _ :=
    hmax'.blocks_absorb (hv.grow h32 h16)
      (hblocks.trans (blocks_eq { v with next := some d, after := [] }).symm)
  simp only [replaced, room, Option.toList_some, Block.totalSize, Nat.add_zero, hsize] at h
  rw [h, replaced, hlast]
  rfl

end Maximal

end Vicinity

/-! ### Outlines -/

namespace Outline

open Pairing (andThen andThen_of_error)

variable {o : Outline} {bp size need n : Nat} {e : Error}

/-! How many reallocations are counted makes no difference to an allocation. -/

theorem extend_countReallocation (o : Outline) (n : Nat) :
    o.countReallocation.extend n = ((o.extend n).1, (o.extend n).2.countReallocation) := by
  unfold extend
  rcases alignUp? n with _ | k
  · rfl
  simp only [countReallocation]
  rcases o.source.request o.base o.map.stop (max k minBlockSize) with ⟨source, e | ⟨⟩⟩ <;> rfl

theorem findOrExtend_countReallocation (o : Outline) (need : Nat) :
    o.countReallocation.findOrExtend need =
      ((o.findOrExtend need).1, (o.findOrExtend need).2.countReallocation) := by
  have hfit : o.countReallocation.map.firstFit need = o.map.firstFit need := rfl
  unfold findOrExtend
  rw [hfit]
  rcases o.map.firstFit need with _ | bp
  · exact o.extend_countReallocation _
  · rfl

theorem allocate_countReallocation (o : Outline) (size : Nat) :
    o.countReallocation.allocate size =
      ((o.allocate size).1, (o.allocate size).2.countReallocation) := by
  unfold allocate
  split
  · rfl
  rcases blockSize? size with _ | need
  · rfl
  simp only [findOrExtend_countReallocation]
  rcases o.findOrExtend need with ⟨e | bp, o'⟩ <;> rfl

/-! Which way a resize takes. -/

theorem resize_of_fit (hneed : blockSize? size = some need) (hlt : ¬need ≤ (o.map.gapAt bp).size)
    (hfit : need ≤ (o.map.gapAt bp).joinNext.size) :
    o.resize bp size = (.ok (o.base + bp), (o.countReallocation.absorb bp need).countInPlace) := by
  have hg : o.countReallocation.growInPlace bp need =
      (.ok true, o.countReallocation.absorb bp need) := if_pos hfit
  rw [resize_eq_andThen o hneed hlt, hg]
  rfl

theorem resize_of_refused (hneed : blockSize? size = some need)
    (hlt : ¬need ≤ (o.map.gapAt bp).size) (hfit : ¬need ≤ (o.map.gapAt bp).joinNext.size)
    (hlast : (o.map.gapAt bp).joinNext.after = [])
    (hn : n = max (need - (o.map.gapAt bp).joinNext.size) o.config.chunkSize)
    (hx : (o.extend n).1 = .error e) : (o.resize bp size).1 = .error e := by
  subst hn
  rw [resize_eq_andThen o hneed hlt, growInPlace_eq_andThen o.countReallocation hfit hlast]
  refine andThen_of_error (andThen_of_error ?_)
  rw [extend_countReallocation]
  exact hx

theorem resize_of_granted (hneed : blockSize? size = some need)
    (hlt : ¬need ≤ (o.map.gapAt bp).size) (hfit : ¬need ≤ (o.map.gapAt bp).joinNext.size)
    (hlast : (o.map.gapAt bp).joinNext.after = [])
    (hn : n = max (need - (o.map.gapAt bp).joinNext.size) o.config.chunkSize) {x : Nat}
    {o' : Outline} (hx : o.extend n = (.ok x, o')) :
    (o.resize bp size).1 = .ok (o.base + bp) ∧
      (o.resize bp size).2.map = o'.map.absorb bp need := by
  subst hn
  rw [resize_eq_andThen o hneed hlt, growInPlace_eq_andThen o.countReallocation hfit hlast,
    extend_countReallocation]
  simp only [countReallocation, hx]
  exact ⟨rfl, rfl⟩

theorem growInPlace_eq_false_iff : (o.growInPlace bp need).1 = .ok false ↔
    ¬need ≤ (o.map.gapAt bp).joinNext.size ∧ (o.map.gapAt bp).joinNext.after ≠ [] := by
  by_cases hfit : need ≤ (o.map.gapAt bp).joinNext.size
  · simp [growInPlace, hfit]
  by_cases hlast : (o.map.gapAt bp).joinNext.after = []
  · rw [growInPlace_eq_andThen o hfit hlast]
    rcases o.extend _ with ⟨e | x, o'⟩ <;> simp [andThen, hlast]
  · simp [growInPlace, hfit, hlast]

theorem resize_of_blocked (hneed : blockSize? size = some need)
    (hlt : ¬need ≤ (o.map.gapAt bp).size) (hfit : ¬need ≤ (o.map.gapAt bp).joinNext.size)
    (hblocked : (o.map.gapAt bp).joinNext.after ≠ []) :
    (o.resize bp size).1 = (o.allocate size).1 ∧
      ∀ address, (o.allocate size).1 = .ok address →
        (o.resize bp size).2.map = (o.allocate size).2.map.release bp := by
  have hempty : (o.map.gapAt bp).joinNext.after.isEmpty = false := by simpa using hblocked
  have hg : o.countReallocation.growInPlace bp need = (.ok false, o.countReallocation) := by
    simp [growInPlace, countReallocation, hfit, hempty]
  have hr : o.resize bp size = o.countReallocation.move bp size := by
    rw [resize_eq_andThen o hneed hlt, hg]
    rfl
  rw [hr, move_eq_andThen, allocate_countReallocation]
  rcases o.allocate size with ⟨e | address, o'⟩
  · exact ⟨rfl, by rintro _ ⟨⟩⟩
  · exact ⟨rfl, fun _ _ => rfl⟩

end Outline

/-! ### What a resize asks for and leaves -/

namespace HeapM

variable {h : Heap} {o : Outline} {b : Block} {size need : Nat} {out : Outcome Nat}

/-- A block that does not move has asked for what it lacked. -/
theorem requests_of_stays (ho : o.Outlines h) (hb : b ∈ o.map.blocks) (ha : b.allocated = true)
    (hneed : blockSize? size = some need)
    (hstays : need ≤ (o.map.gapAt b.offset).joinNext.size ∨
      (o.map.gapAt b.offset).joinNext.after = [])
    (hr : (resize (o.base + b.offset) size).run h = .ok out) :
    requests out.events = if (o.map.gapAt b.offset).joinNext.size < need then
      extension (max (need - (o.map.gapAt b.offset).joinNext.size) o.config.chunkSize) else [] := by
  obtain ⟨need', old, hneed', hold, ho₁, hr₁⟩ :=
    (resize_cases ho hb ha hr).resolve_left fun hnone => by rw [hneed] at hnone; cases hnone.1
  obtain rfl : need = need' := Option.some.inj (hneed.symm.trans hneed')
  have hsize : old.size = b.size := by rw [hold]
  rw [hsize] at hr₁
  split_ifs at hr₁ with hle
  · have hroom := Gap.size_joinNext (g := o.map.gapAt b.offset)
    rw [ho.valid.map.gapAt_size hb] at hroom
    rw [if_neg (by omega)]
    refine Outcome.Asked.requests_eq_nil (Asks.asked ?_ hr₁)
    exact .step (.shrink ..) fun _ => .step .recordInPlace fun _ => .step (.emit rfl) fun _ =>
      .pure _
  obtain ⟨-, h16, -⟩ := blockSize?_spec hneed
  have hiff : (o.map.gapAt b.offset).joinNext.size < need ∧
      (o.map.gapAt b.offset).joinNext.after = [] ↔ (o.map.gapAt b.offset).joinNext.size < need :=
    and_iff_left_of_imp fun hlt => hstays.resolve_left (Nat.not_le.2 hlt)
  have hgrow : ∀ {r k l}, (growInPlace b.offset old need).run (h.recount 1) = .ok ⟨r, k, l⟩ →
      requests l = if (o.map.gapAt b.offset).joinNext.size < need then
        extension (max (need - (o.map.gapAt b.offset).joinNext.size) o.config.chunkSize)
      else [] := fun hr =>
    (requests_growInPlace ho₁ hb ha hsize hr).trans (if_congr hiff rfl rfl)
  rcases grow_or_move_cases ho₁ hb ha hold h16 (Nat.lt_of_not_le hle) hr₁ with
    ⟨e, k, l, -, hr₂, rfl⟩ | ⟨k, l, out', -, hr₂, hr₃, rfl⟩ | ⟨l, out', hfalse, -⟩
  · exact hgrow hr₂
  · have hquiet : out'.Asked 0 k := Asks.asked (.step .recordInPlace fun _ =>
      .step (.emit rfl) fun _ => .pure _) hr₃
    rw [Outcome.after, requests_append, hgrow hr₂, hquiet.requests_eq_nil, List.append_nil]
  · obtain ⟨hlt, hblocked⟩ := Outline.growInPlace_eq_false_iff.1 hfalse
    exact absurd hstays (not_or.2 ⟨hlt, hblocked⟩)

/-- A block that moves is allocated like any other. -/
theorem allocate_of_moves (ho : o.Outlines h) (hb : b ∈ o.map.blocks) (ha : b.allocated = true)
    (hneed : blockSize? size = some need)
    (hfit : ¬need ≤ (o.map.gapAt b.offset).joinNext.size)
    (hblocked : (o.map.gapAt b.offset).joinNext.after ≠ [])
    (hr : (resize (o.base + b.offset) size).run h = .ok out) :
    ∃ out₁, (allocate size).run h = .ok out₁ := by
  obtain ⟨need', old, hneed', hold, ho₁, hr₁⟩ :=
    (resize_cases ho hb ha hr).resolve_left fun hnone => by rw [hneed] at hnone; cases hnone.1
  obtain rfl : need = need' := Option.some.inj (hneed.symm.trans hneed')
  have hsize : old.size = b.size := by rw [hold]
  obtain ⟨-, h16, -⟩ := blockSize?_spec hneed
  have hroom := Gap.size_joinNext (g := o.map.gapAt b.offset)
  rw [ho.valid.map.gapAt_size hb] at hroom
  rw [hsize, if_neg (by omega)] at hr₁
  have hfalse : (o.countReallocation.growInPlace b.offset need).1 = .ok false :=
    Outline.growInPlace_eq_false_iff.2 ⟨hfit, hblocked⟩
  rcases grow_or_move_cases ho₁ hb ha hold h16 (by omega) hr₁ with
    ⟨e, k, l, he, -⟩ | ⟨k, l, out', htrue, -⟩ | ⟨l, out', -, -, hr₂, -⟩
  · rw [hfalse] at he
    cases he
  · rw [hfalse] at htrue
    cases htrue
  · -- the move begins with the allocation, on a heap that has counted one more reallocation
    rcases run_bind_eq_ok hr₂ with ⟨_, _, _, hr₃, -⟩ | ⟨_, _, _, _, hr₃, -⟩ <;>
      obtain ⟨out₁, hr₄, -⟩ := (Uncounting.allocate size).down hr₃ <;> exact ⟨out₁, hr₄⟩

/-- Where there is no tail to give up, only statistics change. -/
theorem heap_of_kept (ho : o.Outlines h) (hb : b ∈ o.map.blocks) (ha : b.allocated = true)
    (hneed : blockSize? size = some need) (hle : need ≤ b.size)
    (hlt : b.size - need < minBlockSize)
    (hr : (resize (o.base + b.offset) size).run h = .ok out) :
    out.heap = h.withStats h.stats.reallocated.keptInPlace := by
  obtain ⟨need', old, hneed', hold, ho₁, hr₁⟩ :=
    (resize_cases ho hb ha hr).resolve_left fun hnone => by rw [hneed] at hnone; cases hnone.1
  obtain rfl : need = need' := Option.some.inj (hneed.symm.trans hneed')
  have hsize : old.size = b.size := by rw [hold]
  have hkept : (h.recount 1).stats.inPlaceReallocs + 1 < Word.limit := by
    have hinPlace := ho.valid.inPlace
    have hreallocs : o.stats.reallocs + 1 < Word.limit := ho₁.valid.reallocs_lt
    show h.stats.inPlaceReallocs + 1 < Word.limit
    rw [ho.stats]
    omega
  rw [if_pos (by rw [hsize]; exact hle)] at hr₁
  rw [run_bind_of_read (run_shrink_of_lt (by rw [hsize]; exact hle) (by rw [hsize]; exact hlt)),
    run_bind_of_read (run_updateStats (Stats.recordInPlace_eq hkept))] at hr₁
  cases hr₁
  rfl

end HeapM

/-! ### Sessions -/

namespace Session

variable {s : Session} {o : Outline} {v : Vicinity} {b : Block} {n need p : Nat}
  {out : Outcome (Option Nat)}

/-- What comes of resizing the block of the vicinity to a payload of `n` bytes. -/
structure Resizes (s : Session) (v : Vicinity) (n : Nat) (out : Outcome (Option Nat)) : Prop where
  /-- The tail is given up and joins the free block after it, or there is none and nothing in the
  arena changes. -/
  shrinks : neededSize n ≤ v.block.size →
    out.result = .ok (some (s.heap.address v.block.offset)) ∧ out.Requested [] s.heap ∧
    if minBlockSize ≤ v.block.size - neededSize n then
      out.heap.blocks = .ok (v.replaced [⟨v.block.offset, neededSize n, true⟩,
        ⟨v.block.offset + neededSize n, v.room - neededSize n, false⟩])
    else out.heap = s.heap.withStats s.heap.stats.reallocated.keptInPlace
  absorbs : v.block.size < neededSize n → neededSize n ≤ v.room →
    out.result = .ok (some (s.heap.address v.block.offset)) ∧ out.Requested [] s.heap ∧
    out.heap.blocks =
      .ok (v.replaced (Block.carved v.block.offset v.room (neededSize n)))
  /-- The last block grows with the arena. -/
  grows : v.room < neededSize n → v.after = [] →
    ∀ k, k = max (neededSize n - v.room) s.heap.config.chunkSize →
      out.Requested [k] s.heap ∧
      (∀ e, (s.heap.provider.grow k).2 = .error e → out.result = .error e) ∧
      ∀ x, (s.heap.provider.grow k).2 = .ok x →
        out.result = .ok (some (s.heap.address v.block.offset)) ∧
        out.heap.blocks =
          .ok (v.replaced (Block.carved v.block.offset (v.room + k) (neededSize n)))
  /-- A block before another one moves: the result is that of an allocation, after which it is
  freed. -/
  moves : v.room < neededSize n → v.after ≠ [] →
    ∃ s₁, Step s (.call (.allocate n) out.result) s₁ ∧
      ∀ q, out.result = .ok (some q) → q ≠ s.heap.address v.block.offset ∧
        ∃ w : Vicinity, w.block = v.block ∧ s₁.heap.Merges w out.heap
  others : ∀ x k, x ≠ v.block.offset → s.heap.Allocated x k → out.heap.Allocated x k

namespace Outlined

/-- A resize of a block that is in use, as one of an outline. -/
theorem resize_outline (h : s.Outlined o) (hb : b ∈ o.map.live) (hn : 0 < n)
    (hr : (Call.reallocate (some (o.base + b.offset)) n).perform.run s.heap = .ok out) :
    out.result = (o.resize b.offset n).1.map some ∧
      ∃ t : Session, t.heap = out.heap ∧ t.Outlined (o.resize b.offset n).2 := by
  have hheld : ∀ p ∈ (Call.reallocate (some (o.base + b.offset)) n).handed, p ∈ s.pointers := by
    rintro _ ⟨⟩
    exact h.mem_pointers hb
  obtain ⟨hres, -, ht⟩ := h.call hheld hr
  rw [Call.outline, Outline.reallocate, if_neg (Nat.ne_of_gt hn),
    Nat.add_sub_cancel_left] at hres ht
  exact ⟨hres, _, rfl, ht⟩

theorem resize_run (hn : 0 < n)
    (hr : (Call.reallocate (some p) n).perform.run s.heap = .ok out) :
    ∃ out₁, (HeapM.resize p n).run s.heap = .ok out₁ ∧
      out = ⟨out₁.result.map some, out₁.heap, out₁.events⟩ := by
  rw [Call.perform, HeapM.reallocate] at hr
  simp only [if_neg (Nat.ne_of_gt hn), HeapM.run_map] at hr
  rcases hr₁ : (HeapM.resize p n).run s.heap with fault | out₁ <;> rw [hr₁] at hr <;> cases hr
  exact ⟨out₁, rfl, rfl⟩

/-- No call touches the block of another pointer. -/
theorem allocated_of_call {c : Call} (h : s.Outlined o)
    (hc : ∀ address ∈ c.handed, address ∈ s.pointers) (hr : c.perform.run s.heap = .ok out)
    {x k : Nat} (hne : c.handed ≠ some (o.base + x)) (hx : s.heap.Allocated x k) :
    out.heap.Allocated x k := by
  have hcv := h.valid_call hc
  obtain ⟨-, -, h'⟩ := h.call hc hr
  have hb := h.allocated_iff.1 hx
  refine h'.allocated_iff.2 ?_
  rcases hres : (c.outline o).1 with e | r
  · have hlive := (Call.effect h.outlines.valid.map hcv).live
    rw [hres] at hlive
    exact hlive.mem_iff.2 hb
  · exact (h.live_outline hcv hres).1 _ hb hne

/-- A new pointer is none of those in use. -/
theorem not_mem_pointers {t : Session} (h : s.Outlined o)
    (hstep : Step s (.call (.allocate n) (.ok (some p))) t) : p ∉ s.pointers := by
  have hnodup := (h.step_call hstep).2.nodup_pointers
  obtain ⟨-, out, -, -, rfl⟩ := step_call_iff.1 hstep
  have hheld : answered s.held (.allocate n) (.ok (some p)) = (p, n) :: s.held :=
    congrArg (List.cons _) (List.filter_eq_self.2 (by simp [Call.handed]))
  rw [Session.pointers, hheld] at hnodup
  exact (List.nodup_cons.1 hnodup).1

theorem mem_live (h : o.map.blocks = v.blocks) (hmax : v.Maximal) : v.block ∈ o.map.live :=
  Block.mem_live.2 ⟨by rw [h, v.blocks_eq]; simp, hmax.block⟩

section

variable (h : s.Outlined o) (hmax : v.Maximal) (hblocks : o.map.blocks = v.blocks) (hn : 0 < n)
  (hneed : blockSize? n = some need)
  (hr : (Call.reallocate (some (o.base + v.block.offset)) n).perform.run s.heap = .ok out)
include h hmax hblocks hn hneed hr

theorem requests_of_stays (hstays : need ≤ v.room ∨ v.after = []) :
    requests out.events = if v.room < need then
      HeapM.extension (max (need - v.room) s.heap.config.chunkSize) else [] := by
  have hv := h.outlines.valid.map
  obtain ⟨hmem, ha⟩ := Block.mem_live.1 (mem_live hblocks hmax)
  obtain ⟨out₁, hr₁, rfl⟩ := resize_run hn hr
  rw [← hmax.size_joinNext hv hblocks, ← hmax.after_joinNext hv hblocks] at hstays
  rw [← hmax.size_joinNext hv hblocks, h.outlines.config]
  exact HeapM.requests_of_stays h.outlines hmem ha hneed hstays hr₁

theorem resize_shrinks (hle : need ≤ v.block.size) :
    out.result = .ok (some (o.base + v.block.offset)) ∧
    if minBlockSize ≤ v.block.size - need then
      out.heap.blocks = .ok (v.replaced [⟨v.block.offset, need, true⟩,
        ⟨v.block.offset + need, v.room - need, false⟩])
    else out.heap = s.heap.withStats s.heap.stats.reallocated.keptInPlace := by
  have hb := mem_live hblocks hmax
  obtain ⟨hmem, ha⟩ := Block.mem_live.1 hb
  have hz := h.outlines.valid.map.gapAt_size hmem
  obtain ⟨hres, t, ht, hto⟩ := h.resize_outline hb hn hr
  have hresize : o.resize v.block.offset n = (.ok (o.base + v.block.offset),
      (o.countReallocation.trim v.block.offset need).countInPlace) := by
    simp only [Outline.resize, hneed, hz, if_pos hle]
  rw [hresize] at hres hto
  refine ⟨hres, ?_⟩
  split
  · next hr' =>
    rw [← ht, hto.blocks_eq]
    exact congrArg _ (hmax.blocks_trim h.outlines.valid.map hblocks hle hr')
  · next hr' =>
    obtain ⟨out₁, hr₁, rfl⟩ := resize_run hn hr
    exact HeapM.heap_of_kept h.outlines hmem ha hneed hle (Nat.lt_of_not_le hr') hr₁

theorem resize_absorbs (hlt : v.block.size < need) (hfit : need ≤ v.room) :
    out.result = .ok (some (o.base + v.block.offset)) ∧
    out.heap.blocks = .ok (v.replaced (Block.carved v.block.offset v.room need)) := by
  have hb := mem_live hblocks hmax
  have hv := h.outlines.valid.map
  have hz := hv.gapAt_size (Block.mem_live.1 hb).1
  have hroom := hmax.size_joinNext hv hblocks
  obtain ⟨hres, t, ht, hto⟩ := h.resize_outline hb hn hr
  rw [Outline.resize_of_fit hneed (by omega) (by omega)] at hres hto
  refine ⟨hres, ?_⟩
  rw [← ht, hto.blocks_eq]
  exact congrArg _ (hmax.blocks_absorb hv hblocks)

theorem resize_grows (hc : s.heap.config.validate.run = .ok (.ok ())) (hlt : v.room < need)
    (hlast : v.after = []) {k : Nat} (hk : k = max (need - v.room) s.heap.config.chunkSize) :
    requests out.events = [k] ∧
    (∀ e, (s.heap.provider.grow k).2 = .error e → out.result = .error e) ∧
    ∀ x, (s.heap.provider.grow k).2 = .ok x →
      out.result = .ok (some (o.base + v.block.offset)) ∧
      out.heap.blocks = .ok (v.replaced (Block.carved v.block.offset (v.room + k) need)) := by
  have hb := mem_live hblocks hmax
  have hv := h.outlines.valid.map
  have hz := hv.gapAt_size (Block.mem_live.1 hb).1
  have hroom := hmax.size_joinNext hv hblocks
  have hle : v.block.size ≤ v.room := Nat.le_add_right ..
  have hlast' := (hmax.after_joinNext hv hblocks).trans hlast
  obtain ⟨-, hneed16, -⟩ := blockSize?_spec hneed
  obtain ⟨h32, h16, hklt⟩ := Config.growth_spec hc
    (Nat.dvd_sub hneed16 (hmax.room_aligned hv hblocks))
    (Nat.lt_of_le_of_lt (Nat.sub_le ..) (blockSize?_lt hneed))
  have hreq := requests_of_stays h hmax hblocks hn hneed hr (.inr hlast)
  rw [if_pos hlt, HeapM.extension_eq h32 h16 hklt] at hreq
  rw [← hk] at h32 h16 hklt hreq
  have hk' : k = max (need - (o.map.gapAt v.block.offset).joinNext.size) o.config.chunkSize := by
    rw [hk, hroom, h.outlines.config]
  obtain ⟨hres, t, ht, hto⟩ := h.resize_outline hb hn hr
  refine ⟨hreq, ?_, ?_⟩
  · intro e he
    have hext := Outline.extend_of_refused h32 h16 hklt (Prod.ext rfl (h.refused_iff.1 he))
    rw [hres, Outline.resize_of_refused hneed (by omega) (by omega) hlast' hk' (by rw [hext])]
    rfl
  · intro x hx
    have hgranted : (o.source.request o.base o.map.stop k).2 = .ok () := by
      rcases hq : (o.source.request o.base o.map.stop k).2 with e | ⟨⟩
      · rw [h.refused_iff.2 hq] at hx
        cases hx
      · rfl
    have hext := Outline.extend_of_granted h32 h16 hklt (Prod.ext rfl hgranted)
    obtain ⟨hok, hmap⟩ := Outline.resize_of_granted hneed (by omega) (by omega) hlast' hk' hext
    rw [← ht, hto.blocks_eq, hres, hok, hmap]
    exact ⟨rfl, congrArg _ (hmax.blocks_absorb_grow hv hblocks hlast h32 h16)⟩

theorem resize_moves (hlt : v.room < need) (hblocked : v.after ≠ []) :
    ∃ s₁, Step s (.call (.allocate n) out.result) s₁ ∧
      ∀ q, out.result = .ok (some q) → q ≠ o.base + v.block.offset ∧
        ∃ w : Vicinity, w.block = v.block ∧ s₁.heap.Merges w out.heap := by
  have hb := mem_live hblocks hmax
  have hv := h.outlines.valid.map
  obtain ⟨hmem, ha⟩ := Block.mem_live.1 hb
  have hz := hv.gapAt_size hmem
  have hroom := hmax.size_joinNext hv hblocks
  have hle : v.block.size ≤ v.room := Nat.le_add_right ..
  have hfit : ¬need ≤ (o.map.gapAt v.block.offset).joinNext.size := by omega
  have hblocked' : (o.map.gapAt v.block.offset).joinNext.after ≠ [] := by
    rwa [hmax.after_joinNext hv hblocks]
  obtain ⟨hres, t, ht, hto⟩ := h.resize_outline hb hn hr
  obtain ⟨hfst, hmap⟩ := Outline.resize_of_blocked hneed (by omega) hfit hblocked'
  obtain ⟨_, hr₁, -⟩ := resize_run hn hr
  obtain ⟨out₁, hr₂⟩ := HeapM.allocate_of_moves h.outlines hmem ha hneed hfit hblocked' hr₁
  have hrun : (Call.allocate n).perform.run s.heap =
      .ok ⟨out₁.result.map some, out₁.heap, out₁.events⟩ := by
    rw [Call.perform, HeapM.run_map, hr₂]
    rfl
  have hstep : Step s (.call (.allocate n) (out₁.result.map some)) _ :=
    .call (by rintro _ ⟨⟩) hrun
  obtain ⟨hres₁, h₁⟩ := h.step_call hstep
  have hresult : out₁.result.map some = out.result := by
    rw [hres₁, hres, hfst]
    rfl
  rw [hresult] at hstep h₁
  refine ⟨_, hstep, fun q hq => ⟨?_, ?_⟩⟩
  · rintro rfl
    rw [hq] at hstep
    exact h.not_mem_pointers hstep (h.mem_pointers hb)
  · have hok : (o.allocate n).1 = .ok q :=
      Except.eq_ok_of_map_some (by rw [← hfst, ← hres, hq])
    have hmem' := (Outline.mem_allocate hv hmem ha n).2
    obtain ⟨w, hw, hmerges⟩ := h₁.merges_release hto (Block.mem_live.2 ⟨hmem', ha⟩) (hmap q hok)
    exact ⟨w, hw, ht ▸ hmerges⟩

end

end Outlined

/-- How a resize goes is decided by the size of the block and by what is after it. -/
theorem Reachable.resizes (hs : s.Reachable) (hp : p ∈ s.pointers) (hn : 0 < n)
    (hlt : neededSize n < Word.limit) :
    ∃ v : Vicinity, v.Maximal ∧ s.heap.blocks = .ok v.blocks ∧
      p = s.heap.address v.block.offset ∧
      (s.calls < Word.limit → ∃ out, (Call.reallocate (some p) n).perform.run s.heap = .ok out) ∧
      ∀ out, (Call.reallocate (some p) n).perform.run s.heap = .ok out → s.Resizes v n out := by
  obtain ⟨o, h⟩ := hs.outlined
  have hv := h.outlines.valid.map
  obtain ⟨b, hb, rfl⟩ := h.exists_block hp
  obtain ⟨hmem, ha⟩ := Block.mem_live.1 hb
  obtain ⟨v, rfl, hmax, hblocks, -⟩ := hv.release_eq hmem ha
  have hneed : blockSize? n = some (neededSize n) := by rw [blockSize?_eq, if_pos hlt]
  have hheld : ∀ q ∈ (Call.reallocate (some (o.base + v.block.offset)) n).handed,
      q ∈ s.pointers := by
    rintro _ ⟨⟩
    exact hp
  have haddress : s.heap.address v.block.offset = o.base + v.block.offset :=
    congrArg (· + v.block.offset) h.outlines.base
  refine ⟨v, hmax, hblocks ▸ h.blocks_eq, haddress.symm, fun hcalls => h.call_exists hcalls hheld,
    fun out hr => ?_⟩
  have hasked := (Call.asks_perform _).asked hr
  have hstays := h.requests_of_stays hmax hblocks hn hneed hr
  have hroom : v.block.size ≤ v.room := Nat.le_add_right ..
  refine ⟨?_, ?_, ?_, ?_, ?_⟩
  · intro hle
    rw [haddress]
    obtain ⟨hres, hheap⟩ := h.resize_shrinks hmax hblocks hn hneed hr hle
    refine ⟨hres, hasked.requested ?_, hheap⟩
    rw [hstays (.inl (Nat.le_trans hle hroom)), if_neg (by omega)]
  · intro hlt hfit
    rw [haddress]
    obtain ⟨hres, hheap⟩ := h.resize_absorbs hmax hblocks hn hneed hr hlt hfit
    refine ⟨hres, hasked.requested ?_, hheap⟩
    rw [hstays (.inl hfit), if_neg (by omega)]
  · intro hlt hlast k hk
    rw [haddress]
    obtain ⟨hreq, hrest⟩ := h.resize_grows hmax hblocks hn hneed hr hs.config_valid hlt hlast hk
    exact ⟨hasked.requested hreq, hrest⟩
  · rw [haddress]
    exact h.resize_moves hmax hblocks hn hneed hr
  · intro x k hne
    refine h.allocated_of_call hheld hr fun hx => hne ?_
    exact (Nat.add_left_cancel (Option.some.inj hx)).symm

theorem resizes_small : ∃ s v out, small = some s ∧ 4160 ∈ s.pointers ∧
    0 < 50 ∧ neededSize 50 < Word.limit ∧ 4160 = s.heap.address v.block.offset ∧
    (Call.reallocate (some 4160) 50).perform.run s.heap = .ok out ∧ s.Resizes v 50 out := by
  obtain ⟨s, hs, hheld⟩ := Option.map_eq_some_iff.1 small_held
  have hp : 4160 ∈ s.pointers := by rw [pointers, (Prod.mk.inj hheld).1]; decide
  have hcalls : s.calls < Word.limit := by rw [(Prod.mk.inj hheld).2]; decide
  have hlt : neededSize 50 < Word.limit := by decide
  obtain ⟨v, -, -, haddress, hanswered, hresizes⟩ :=
    Reachable.resizes (reachable_of_small hs) hp (by decide) hlt
  obtain ⟨out, hr⟩ := hanswered hcalls
  exact ⟨s, v, out, hs, hp, by decide, hlt, haddress, hr, hresizes out hr⟩

end Session

end SegregatedFit
