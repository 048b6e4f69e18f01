import SegregatedFit.Proofs.Session

/-!
# Every call is answered

On a session that made fewer calls than there are words, every call that may be made comes to a
result, and every question is answered: no sum or difference leaves the words, no byte outside the
arena is looked for, the search of the chains ends, and no pointer in use is taken for a foreign one
(`Session.Reachable.responsive`).
-/

namespace SegregatedFit

namespace Session

/-- Nothing that may be asked of the session faults. -/
structure Responsive (s : Session) : Prop where
  calls : ∀ c : Call, (∀ p ∈ c.handed, p ∈ s.pointers) →
    ∃ out, c.perform.run s.heap = .ok out ∧ (∀ e, out.result = .error e → ¬e.Foreign) ∧
      ∀ p, out.result = .ok (some p) → p < Word.limit
  usableSize : ∀ p : Option Nat, (∀ q ∈ p, q ∈ s.pointers) →
    ∃ u, (s.heap.usableSize p).run = .ok (.ok u)
  blocks : ∃ bs, s.heap.blocks = .ok bs
  freeBytes : ∃ n, s.heap.freeBytes = .ok n ∧ n < Word.limit
  address : s.heap.address s.heap.size < Word.limit

namespace Outlined

variable {s : Session} {o : Outline} {c : Call}

/-- There is no room for as many allocations as there are words. -/
theorem allocs_lt (h : s.Outlined o) (hn : s.calls < Word.limit) :
    o.stats.allocs + 1 < Word.limit := by
  have hle := h.allocs
  have hfull := h.full
  have hlive := h.outlines.valid.liveBytes_lt
  rw [h.outlines.valid.live] at hlive
  rw [Word.limit_eq] at *
  omega

theorem call_exists (h : s.Outlined o) (hn : s.calls < Word.limit)
    (hc : ∀ p ∈ c.handed, p ∈ s.pointers) : ∃ out, c.perform.run s.heap = .ok out := by
  have hallocs : Word.limit ≤ o.stats.allocs + 1 → False := by
    have := h.allocs_lt hn
    omega
  have hreallocs : Word.limit ≤ o.stats.reallocs + 1 → False := by
    have := h.reallocs
    rw [Word.limit_eq] at *
    omega
  rcases c.follows h.outlines (h.valid_call hc) hallocs fun _ => hreallocs with
    ⟨hf, -⟩ | ⟨h', events, hx, -⟩
  · cases hf
  · exact ⟨_, hx⟩

theorem responsive_of_lt (h : s.Outlined o) (hn : s.calls < Word.limit) : s.Responsive := by
  have hv := h.outlines.valid
  have hbase : s.heap.arena.base = o.base := h.outlines.base
  have hsize : s.heap.size = o.map.stop := h.outlines.describes.size
  have haddress := hv.addressable
  refine ⟨?_, ?_, ⟨_, h.blocks_eq⟩, ?_, ?_⟩
  · intro c hc
    obtain ⟨out, hout⟩ := h.call_exists hn hc
    obtain ⟨hres, -, h'⟩ := h.call hc hout
    refine ⟨out, hout, ?_, ?_⟩
    · intro e he
      exact Call.error_of_outline hv.map hv.source (h.valid_call hc) (hres.symm.trans he)
    · intro p hp
      have hmem : p ∈ Session.pointers ⟨out.heap, answered s.held c out.result, s.calls + 1⟩ := by
        rw [hp]; exact List.mem_cons_self
      obtain ⟨b, hb, rfl⟩ := h'.exists_block hmem
      have hb' := h'.outlines.valid.map.tiles.bounds (Block.mem_live.1 hb).1
      have := h'.outlines.valid.addressable
      omega
  · intro p hp
    rcases p with _ | p
    · exact ⟨0, rfl⟩
    · obtain ⟨b, hb, rfl⟩ := h.exists_block (hp p rfl)
      exact ⟨_, h.usableSize_eq hb⟩
  · refine ⟨_, by rw [Heap.freeBytes, h.blocks_eq]; rfl, ?_⟩
    have hle := Block.totalSize_filter_le (fun b => !b.allocated) o.map.blocks
    unfold MemoryMap.stop at haddress
    omega
  · rw [Heap.address, hbase, hsize]; exact haddress

end Outlined

/-- Valid use always comes to a result. -/
theorem Reachable.responsive {s : Session} (hs : s.Reachable) (hn : s.calls < Word.limit) :
    s.Responsive := by
  obtain ⟨o, h⟩ := hs.outlined
  exact h.responsive_of_lt hn

theorem responsive_small : ∃ s, small = some s ∧ s.calls < Word.limit ∧ s.Responsive := by
  obtain ⟨s, hs, hheld⟩ := Option.map_eq_some_iff.1 small_held
  have hn : s.calls < Word.limit := by rw [(Prod.mk.inj hheld).2]; decide
  exact ⟨s, hs, hn, Reachable.responsive (reachable_of_small hs) hn⟩

end Session

end SegregatedFit
