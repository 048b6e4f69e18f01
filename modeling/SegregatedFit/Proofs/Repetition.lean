import SegregatedFit.Proofs.Fragmentation
import SegregatedFit.Proofs.ResizePaths

/-!
# Asking again for the same size

A block is snug for what was asked for last, whatever happened to others since. So a resize to that
size finds the block large enough and no tail that could be split off: it gives the pointer back and
changes two counters (`Session.Reachable.repeats`). Any looser bound on what a placement may leave
over would let it split, and a block that were too small would have to grow or to move.
-/

namespace SegregatedFit

/-- A snug block has what is needed, and no tail that is a block. -/
theorem Block.Snug.bounds {b : Block} {n : Nat} (h : b.Snug n) :
    neededSize n ≤ b.size ∧ b.size - neededSize n < minBlockSize := by
  rw [Block.Snug, alignment] at h
  rw [minBlockSize]
  omega

/-- No pointer is handed out for a request of no bytes. -/
theorem Call.requested_pos {o : Outline} {c : Call} {p : Nat}
    (h : (c.outline o).1 = .ok (some p)) : 0 < c.requested := by
  have hallocate : ∀ size, (o.allocate size).1.map some = .ok (some p) → 0 < size := by
    intro size hs
    by_contra h0
    rw [Outline.allocate, if_pos (Nat.eq_zero_of_not_pos h0)] at hs
    cases hs
  cases c with
  | allocate size => exact hallocate size h
  | allocateZeroed count size =>
    simp only [outline, Outline.allocateZeroed] at h
    split_ifs at h
    · cases h
    · exact hallocate _ h
  | free address => cases h
  | reallocate address size =>
    rcases address with _ | address
    · exact hallocate size h
    · by_contra h0
      rw [outline, Outline.reallocate, if_pos (show size = 0 from Nat.eq_zero_of_not_pos h0)] at h
      cases h

namespace Session

variable {s s₁ t : Session} {o : Outline} {c : Call} {m : Move} {ms : List Move} {p n : Nat}

/-! ### What is held -/

theorem Reachable.held_pos (hs : s.Reachable) : ∀ e ∈ s.held, 0 < e.2 := by
  induction hs with
  | start => exact List.forall_mem_nil _
  | @step s s' m hs hm ih =>
    cases hm with
    | @call c out hc hr =>
      obtain ⟨o, ho⟩ := hs.outlined
      obtain ⟨hres, -⟩ := ho.call hc hr
      show ∀ e ∈ answered s.held c out.result, 0 < e.2
      intro e he
      rcases hout : out.result with e' | _ | address <;> rw [hout] at he hres
      · exact ih e he
      · exact ih e (List.mem_filter.1 he).1
      · rcases List.mem_cons.1 he with rfl | he
        · exact Call.requested_pos hres.symm
        · exact ih e (List.mem_filter.1 he).1
    | write => exact ih
    | moveEnd => exact ih

/-- The move is no call that takes the pointer and succeeds. -/
def Move.Spares (p : Nat) (m : Move) : Prop :=
  ∀ c r, m = .call c (.ok r) → c.handed ≠ some p

theorem Step.held (h : Step s m t) (hm : m.Spares p) (he : (p, n) ∈ s.held) : (p, n) ∈ t.held := by
  cases h with
  | @call c out hc hr =>
    show (p, n) ∈ answered s.held c out.result
    rcases hout : out.result with e | r
    · exact he
    have hkept : (p, n) ∈ s.held.filter fun e => some e.1 ≠ c.handed := by
      refine List.mem_filter.2 ⟨he, decide_eq_true fun heq => ?_⟩
      exact hm c r (by rw [hout]) heq.symm
    rcases r with _ | address
    · exact hkept
    · exact List.mem_cons_of_mem _ hkept
  | write => exact he
  | moveEnd => exact he

/-- What was asked for is on record until the pointer is handed in. -/
theorem Run.held (h : Run s ms t) (hms : ∀ m ∈ ms, m.Spares p) (he : (p, n) ∈ s.held) :
    (p, n) ∈ t.held := by
  induction h with
  | nil => exact he
  | cons hm _ ih =>
    exact ih (fun m h => hms m (List.mem_cons_of_mem _ h)) (hm.held (hms _ List.mem_cons_self) he)

theorem Step.held_of_ok (h : Step s (.call c (.ok (some p))) t) : (p, c.requested) ∈ t.held := by
  obtain ⟨-, out, -, -, rfl⟩ := step_call_iff.1 h
  exact List.mem_cons_self

/-! ### Resizing to the same size -/

/-- Resizing the block of `p` to `n` bytes gives `p` back. Nothing changes but two counters. -/
structure Repeats (s : Session) (p n : Nat) : Prop where
  answered : s.calls < Word.limit →
    ∃ out, (Call.reallocate (some p) n).perform.run s.heap = .ok out
  kept : ∀ out, (Call.reallocate (some p) n).perform.run s.heap = .ok out →
    out.result = .ok (some p) ∧ out.Requested [] s.heap ∧
      out.heap = s.heap.withStats s.heap.stats.reallocated.keptInPlace

theorem Reachable.repeats_of_held (hs : s.Reachable) (he : (p, n) ∈ s.held) : s.Repeats p n := by
  obtain ⟨o, h, hsnug⟩ := hs.outlined_snug
  have hv := h.outlines.valid.map
  have hp : p ∈ s.pointers := List.mem_map_of_mem he
  obtain ⟨b, hb, rfl⟩ := h.exists_block hp
  obtain ⟨hmem, ha⟩ := Block.mem_live.1 hb
  have hb' : b.Snug n := hsnug _ he b hb rfl
  obtain ⟨hle, hrest⟩ := hb'.bounds
  obtain ⟨v, rfl, hmax, hblocks, -⟩ := hv.release_eq hmem ha
  have hneed : blockSize? n = some (neededSize n) := by
    have hend := (hv.tiles.bounds hmem).2.1
    have hstop := h.outlines.describes.stop_lt
    rw [blockSize?_eq, if_pos (by omega)]
  have hheld : ∀ q ∈ (Call.reallocate (some (o.base + v.block.offset)) n).handed,
      q ∈ s.pointers := by
    rintro _ ⟨⟩
    exact hp
  refine ⟨fun hcalls => h.call_exists hcalls hheld, fun out hr => ?_⟩
  have hn := hs.held_pos _ he
  have hroom : v.block.size ≤ v.room := Nat.le_add_right ..
  obtain ⟨hres, hheap⟩ := h.resize_shrinks hmax hblocks hn hneed hr hle
  have hreq := h.requests_of_stays hmax hblocks hn hneed hr (.inl (Nat.le_trans hle hroom))
  rw [if_neg (by omega)] at hreq
  rw [if_neg (by omega)] at hheap
  exact ⟨hres, ((Call.asks_perform _).asked hr).requested hreq, hheap⟩

/-- Asking for what was asked for last changes nothing, now or after any moves that leave the block
alone. -/
theorem Reachable.repeats (hs : s.Reachable) :
    (∀ p n, (p, n) ∈ s.held → s.Repeats p n) ∧
    ∀ c p s₁ ms t, Step s (.call c (.ok (some p))) s₁ → Run s₁ ms t → (∀ m ∈ ms, m.Spares p) →
      t.Repeats p c.requested := by
  refine ⟨fun p n he => hs.repeats_of_held he, fun c p s₁ ms t h hrun hms => ?_⟩
  exact ((hs.step h).run hrun).repeats_of_held (hrun.held hms h.held_of_ok)

theorem repeats_small : ∃ s s₁, small = some s ∧ s.Reachable ∧ (4160, 40) ∈ s.held ∧
    s.calls < Word.limit ∧ s.Repeats 4160 40 ∧
    Step s (.call (.allocate 10) (.ok (some 4128))) s₁ ∧ s₁.Repeats 4128 10 := by
  obtain ⟨s, hs, hheld⟩ := Option.map_eq_some_iff.1 small_held
  obtain ⟨s', hs', hresult⟩ := Option.map_eq_some_iff.1 small_allocated
  obtain rfl : s = s' := Option.some.inj (hs.symm.trans hs')
  have hr := reachable_of_small hs
  have he : (4160, 40) ∈ s.held := by
    rw [(Prod.mk.inj hheld).1]
    exact List.mem_cons_self
  have hcalls : s.calls < Word.limit := by
    rw [(Prod.mk.inj hheld).2]
    decide
  rcases hrun : (Call.allocate 10).perform.run s.heap with fault | ⟨r, h', l⟩ <;>
    rw [hrun] at hresult <;> cases hresult
  have hstep := Step.call (s := s) (c := .allocate 10) (by rintro _ ⟨⟩) hrun
  obtain ⟨hall, hafter⟩ := Reachable.repeats hr
  exact ⟨s, _, hs, hr, he, hcalls, hall 4160 40 he, hstep,
    hafter _ 4128 _ [] _ hstep .nil (List.forall_mem_nil _)⟩

end Session

end SegregatedFit
