import SegregatedFit.Proofs.Atomicity
import SegregatedFit.Proofs.Contents
import SegregatedFit.Proofs.RoundTrip
import SegregatedFit.Proofs.Totality

/-!
# Zeroed memory

Asking for zeroed memory is asking for memory and clearing it. `allocateZeroed` comes to the same
result as `allocate` for the product, if that is a word, and the two leave heaps behind that differ
in the bytes of the new payload only: there the links and the footer of the free block that was
there are gone, and so is what was written before it (`Session.Reachable.zeroes`).
-/

namespace SegregatedFit

/-- `h'` is `h` but for the first `n` bytes of the allocated block at `x`, which are zero. -/
structure Heap.Cleared (h h' : Heap) (x n : Nat) : Prop where
  inside : ∃ bs, h.blocks = .ok bs ∧ ∃ b ∈ bs, b.allocated = true ∧ b.offset = x ∧ n + 8 ≤ b.size
  byte : ∀ i, h'.arena.byte i = if x ≤ i ∧ i < x + n then 0 else h.arena.byte i
  layout : h.SameLayout h'
  chains : ∀ c k, Concur (h.pool.chain c k) (h'.pool.chain c k)
  base : h'.arena.base = h.arena.base
  /-- What is not in the arena is as it was. -/
  rest : h' = { h with provider := { h.provider with arena := h'.arena } }

namespace HeapM

variable {count size : Nat} {h : Heap}

theorem allocateZeroed_eq (hlt : count * size < Word.limit) :
    allocateZeroed count size = (do
      let address ← allocate (count * size)
      let bp ← offsetOf address
      updateArena (·.clear bp (count * size))
      pure address) := by
  rw [allocateZeroed, if_neg (Nat.not_le.2 hlt)]

/-- Another form of the result makes no difference to the heap. -/
theorem run_map {α β : Type} (x : HeapM α) (f : α → β) (h : Heap) :
    (x >>= fun a => pure (f a)).run h =
      (x.run h).map fun out => ⟨out.result.map f, out.heap, out.events⟩ := by
  rcases hx : x.run h with fault | ⟨e | a, k, l⟩
  · rw [run_bind_of_fault hx]; rfl
  · rw [run_bind_of_error hx]; rfl
  · rw [run_bind_of_ok hx]
    show Except.ok (Outcome.mk (Except.ok (f a)) k (l ++ [])) = _
    rw [List.append_nil]; rfl

end HeapM

namespace Session

variable {s s₁ t : Session} {o : Outline} {b : Block} {count size n p : Nat}
  {r : Except Error (Option Nat)}

/-- How asking for `count * size` zeroed bytes compares with asking for as many bytes. -/
structure Zeroes (s : Session) (count size : Nat) : Prop where
  overflow : Word.limit ≤ count * size →
    Step s (.call (.allocateZeroed count size) (.error .sizeOverflow))
      { s with calls := s.calls + 1 }
  result : count * size < Word.limit → ∀ r,
    (∃ t, Step s (.call (.allocateZeroed count size) r) t) ↔
      ∃ s₁, Step s (.call (.allocate (count * size)) r) s₁
  failed : count * size < Word.limit → ∀ e s₁ t,
    Step s (.call (.allocate (count * size)) (.error e)) s₁ →
    Step s (.call (.allocateZeroed count size) (.error e)) t → t = s₁
  cleared : count * size < Word.limit → ∀ p s₁ t,
    Step s (.call (.allocate (count * size)) (.ok (some p))) s₁ →
    Step s (.call (.allocateZeroed count size) (.ok (some p))) t →
      t.held = s₁.held ∧ s₁.heap.Cleared t.heap (p - s₁.heap.arena.base) (count * size)
  answered : s.calls < Word.limit → ∃ r t, Step s (.call (.allocateZeroed count size) r) t

theorem step_zeroed_of_run {h : Heap} {r : Except Error Nat} {l : List Event}
    (hrun : (HeapM.allocateZeroed count size).run s.heap = .ok ⟨r, h, l⟩) :
    Step s (.call (.allocateZeroed count size) (r.map some))
      ⟨h, answered s.held (.allocateZeroed count size) (r.map some), s.calls + 1⟩ := by
  refine step_call_iff.2 ⟨by rintro _ ⟨⟩, ⟨r.map some, h, l⟩, ?_, rfl, rfl⟩
  rw [Call.perform, HeapM.run_map, hrun]
  rfl

/-- Where asking for zeroed memory is answered, so is asking for memory. -/
theorem Step.allocate_exists (h : Step s (.call (.allocateZeroed count size) r) t)
    (hlt : count * size < Word.limit) :
    ∃ out, (Call.allocate (count * size)).perform.run s.heap = .ok out := by
  obtain ⟨-, out, hrun, -⟩ := step_call_iff.1 h
  rw [Call.perform, HeapM.run_map, HeapM.allocateZeroed_eq hlt] at hrun
  rw [Call.perform, HeapM.run_map]
  rcases hr : (HeapM.allocate (count * size)).run s.heap with fault | out'
  · rw [HeapM.run_bind_of_fault hr] at hrun
    cases hrun
  · exact ⟨_, rfl⟩

namespace Outlined

theorem cleared (h : s.Outlined o) (hb : b ∈ o.map.live) (hn : n + 8 ≤ b.size) :
    s.heap.Cleared (s.heap.fill b.offset n fun _ => 0) b.offset n := by
  have hin : 0 + n ≤ b.size - 8 := by omega
  have hw := h.write (f := fun _ => 0) hb hin
  have hbyte := h.byte_fill (f := fun _ => 0) hb hin
  rw [Nat.add_zero] at hw hbyte
  have hlayout := h.sameLayout_of_blocks_eq hw rfl rfl
  obtain ⟨hmem, ha⟩ := Block.mem_live.1 hb
  exact ⟨⟨_, h.blocks_eq, b, hmem, ha, rfl, hn⟩, hbyte, hlayout,
    fun c k => ⟨_, h.lists c k, hw.lists c k⟩, Arena.base_fill, rfl⟩

/-- Clearing the payload at an offset is writing zeros to it. -/
theorem run_clear (h : s.Outlined o) (hb : b ∈ o.map.live) (hn : n + 8 ≤ b.size) :
    (HeapM.updateArena (·.clear b.offset n)).run s.heap =
      .ok ⟨.ok (), s.heap.fill b.offset n fun _ => 0, []⟩ := by
  have hbb := h.outlines.valid.map.tiles.bounds (Block.mem_live.1 hb).1
  have hsize : s.heap.arena.size = o.map.stop := h.outlines.describes.size
  have hlt := h.outlines.describes.stop_lt
  have hmin : min n (s.heap.arena.size - b.offset) = n := by omega
  refine HeapM.run_updateArena (a := s.heap.arena.fillClipped b.offset n fun _ => 0) ?_
  rw [Arena.clear, Arena.checkRange_of_le (by omega) (by omega), Arena.fillClipped, hmin]
  rfl

/-- What asking for memory comes to, asking for zeroed memory comes to. -/
theorem step_zeroed (h : s.Outlined o) (hlt : count * size < Word.limit)
    (hstep : Step s (.call (.allocate (count * size)) r) s₁) :
    ∃ t, Step s (.call (.allocateZeroed count size) r) t ∧ t.held = s₁.held ∧
      (∀ e, r = .error e → t = s₁) ∧
      ∀ p, r = .ok (some p) →
        s₁.heap.Cleared t.heap (p - s₁.heap.arena.base) (count * size) := by
  obtain ⟨-, h₁⟩ := h.step_call hstep
  obtain ⟨-, out, hrun, rfl, rfl⟩ := step_call_iff.1 hstep
  rw [Call.perform, HeapM.run_map] at hrun
  rcases hr : (HeapM.allocate (count * size)).run s.heap with fault | ⟨e | p, k, l⟩ <;>
    rw [hr] at hrun <;> cases hrun
  · have hrun' : (HeapM.allocateZeroed count size).run s.heap = .ok ⟨.error e, k, l⟩ := by
      rw [HeapM.allocateZeroed_eq hlt]
      exact HeapM.run_bind_of_error hr
    exact ⟨_, step_zeroed_of_run hrun', rfl, fun _ _ => rfl, by rintro _ ⟨⟩⟩
  · obtain ⟨b, hb, hp⟩ := h₁.exists_block (List.mem_cons_self : p ∈ _)
    have hroom : count * size + 8 ≤ b.size := h₁.pointers.room _ List.mem_cons_self b hb hp
    have hoff : (HeapM.offsetOf p).run k = .ok ⟨.ok b.offset, k, []⟩ := by
      rw [hp]
      exact HeapM.run_offsetOf_block h₁.outlines (Block.mem_live.1 hb).1
    have hclear : (HeapM.updateArena (·.clear b.offset (count * size))).run k =
        .ok ⟨.ok (), k.fill b.offset (count * size) fun _ => 0, []⟩ := h₁.run_clear hb hroom
    have hbase : k.arena.base = (Call.outline o (.allocate (count * size))).2.base :=
      h₁.outlines.base
    have hrun' : (HeapM.allocateZeroed count size).run s.heap =
        .ok ⟨.ok p, k.fill b.offset (count * size) fun _ => 0, l⟩ := by
      rw [HeapM.allocateZeroed_eq hlt, HeapM.run_bind_of_ok hr, HeapM.run_bind_of_ok hoff,
        HeapM.run_bind_of_ok hclear]
      show Except.ok (Outcome.mk (Except.ok p) _ (l ++ [])) = _
      rw [List.append_nil]
      rfl
    refine ⟨_, step_zeroed_of_run hrun', rfl, by rintro _ ⟨⟩, ?_⟩
    rintro _ ⟨⟩
    show k.Cleared _ (p - k.arena.base) _
    rw [hp, hbase, Nat.add_sub_cancel_left]
    exact h₁.cleared hb hroom

end Outlined

/-- Zeroed memory is memory that was asked for and then cleared. -/
theorem Reachable.zeroes (hs : s.Reachable) (count size : Nat) : s.Zeroes count size := by
  obtain ⟨o, ho⟩ := hs.outlined
  refine ⟨?_, ?_, ?_, ?_, ?_⟩
  · intro hlim
    exact step_zeroed_of_run (r := .error .sizeOverflow) (l := [])
      (by rw [HeapM.allocateZeroed, if_pos hlim]; rfl)
  · intro hlt r
    constructor
    · rintro ⟨t, ht⟩
      obtain ⟨out, hout⟩ := ht.allocate_exists hlt
      obtain ⟨t', ht', -⟩ := ho.step_zeroed hlt (.call (by rintro _ ⟨⟩) hout)
      obtain ⟨rfl, -⟩ := ht.call_unique ht'
      exact ⟨_, .call (by rintro _ ⟨⟩) hout⟩
    · rintro ⟨s₁, h₁⟩
      obtain ⟨t, ht, -⟩ := ho.step_zeroed hlt h₁
      exact ⟨t, ht⟩
  · intro hlt e s₁ t h₁ ht
    obtain ⟨t', ht', -, hsame, -⟩ := ho.step_zeroed hlt h₁
    rw [(ht.call_unique ht').2, hsame e rfl]
  · intro hlt p s₁ t h₁ ht
    obtain ⟨t', ht', hheld, -, hcleared⟩ := ho.step_zeroed hlt h₁
    obtain ⟨-, rfl⟩ := ht.call_unique ht'
    exact ⟨hheld, hcleared p rfl⟩
  · intro hcalls
    obtain ⟨out, hout⟩ := ho.call_exists hcalls (c := .allocateZeroed count size) nofun
    exact ⟨_, _, .call nofun hout⟩

theorem zeroes_small : ∃ s s₁ t, small = some s ∧ s.Zeroes 5 2 ∧
    Step s (.call (.allocate (5 * 2)) (.ok (some 4128))) s₁ ∧
    Step s (.call (.allocateZeroed 5 2) (.ok (some 4128))) t ∧
    s₁.heap.Cleared t.heap (4128 - s₁.heap.arena.base) (5 * 2) := by
  obtain ⟨s, hs, hresult⟩ := Option.map_eq_some_iff.1 small_allocated
  rcases hrun : (Call.allocate 10).perform.run s.heap with fault | ⟨r, h', l⟩ <;>
    rw [hrun] at hresult <;> cases hresult
  have hstep := Step.call (s := s) (c := .allocate (5 * 2)) (by rintro _ ⟨⟩) hrun
  have hzeroes := Reachable.zeroes (reachable_of_small hs) 5 2
  have hlt : 5 * 2 < Word.limit := by decide
  obtain ⟨t, ht⟩ := (hzeroes.result hlt _).2 ⟨_, hstep⟩
  exact ⟨s, _, t, hs, hzeroes, hstep, ht, (hzeroes.cleared hlt _ _ _ hstep ht).2⟩

end Session

end SegregatedFit
