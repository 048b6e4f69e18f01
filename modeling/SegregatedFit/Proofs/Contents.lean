import SegregatedFit.Proofs.Session

/-!
# What payloads hold

No call touches a payload other than that of its own pointer, and a resized payload keeps what it
has room for (`Session.Undisturbed`). So a byte can be followed through a run: `carry` says at which
pointer it is after some moves, if it was not overwritten, freed or cut off, and there it is found
unchanged (`Session.Run.reads`).
-/

namespace SegregatedFit

/-- The byte at an address. -/
def Heap.load (h : Heap) (address : Nat) : UInt8 := h.arena.byte (address - h.arena.base)

namespace Session

/-- The payload at `p` has a byte `i`, which is `v`. -/
def Reads (s : Session) (p i : Nat) (v : UInt8) : Prop :=
  p ∈ s.pointers ∧ (∃ u, (s.heap.usableSize (some p)).run = .ok (.ok u) ∧ i < u) ∧
    s.heap.load (p + i) = v

/-- The pointer at which byte `i` of the payload at `p` is after a move. -/
def Move.carry (p i : Nat) : Move → Option Nat
  | call _ (.error _) => some p
  | call c (.ok r) => if c.handed = some p then (if i < c.requested then r else none) else some p
  | write q j n _ => if p = q ∧ j ≤ i ∧ i < j + n then none else some p
  | moveEnd _ => some p

/-- The same after several moves. -/
def carry (p i : Nat) : List Move → Option Nat
  | [] => some p
  | m :: ms => (m.carry p i).bind fun q => carry q i ms

variable {s s' : Session} {o : Outline} {b : Block} {c : Call} {i p q : Nat} {v : UInt8}

theorem Outlined.load_eq (h : s.Outlined o) (b : Block) (i : Nat) :
    s.heap.load (o.base + b.offset + i) = s.heap.arena.byte (b.offset + i) := by
  rw [Heap.load, h.outlines.base, Nat.add_assoc, Nat.add_sub_cancel_left]

theorem Outlined.reads_iff (h : s.Outlined o) (hb : b ∈ o.map.live) :
    s.Reads (o.base + b.offset) i v ↔ i < b.size - 8 ∧ s.heap.arena.byte (b.offset + i) = v := by
  rw [Reads, h.load_eq, h.usableSize_eq hb]
  constructor
  · rintro ⟨-, ⟨u, hu, hi⟩, hv⟩
    cases hu
    exact ⟨hi, hv⟩
  · exact fun ⟨hi, hv⟩ => ⟨h.mem_pointers hb, ⟨_, rfl, hi⟩, hv⟩

/-! ### Calls -/

/-- A call that is answered takes no block but its own, and gives one with room for the request. -/
theorem Outlined.live_outline (h : s.Outlined o) (hc : c.Valid o) {address : Option Nat}
    (hr : (c.outline o).1 = .ok address) :
    (∀ b ∈ o.map.live, c.handed ≠ some (o.base + b.offset) → b ∈ (c.outline o).2.map.live) ∧
      ∀ q, address = some q → ∃ b ∈ (c.outline o).2.map.live,
        q = (c.outline o).2.base + b.offset ∧ c.requested + 8 ≤ b.size := by
  have he := Call.effect h.outlines.valid.map hc
  have hlive := he.live
  rw [hr] at hlive
  obtain ⟨rest, hin, hout⟩ := hlive
  have hrest : ∀ b ∈ o.map.live, c.handed ≠ some (o.base + b.offset) → b ∈ rest := by
    intro b hb hne
    rcases hh : c.handed with _ | p <;> rw [hh] at hin hne
    · exact hin.mem_iff.1 hb
    · obtain ⟨d, rfl, -, hp⟩ := hin
      rcases List.mem_cons.1 (hp.mem_iff.1 hb) with rfl | hb
      · exact absurd rfl hne
      · exact hb
  rcases address with _ | q
  · exact ⟨fun b hb hne => hout.mem_iff.2 (hrest b hb hne), nofun⟩
  obtain ⟨d, rfl, hroom, hp⟩ := hout
  constructor
  · intro b hb hne
    exact hp.mem_iff.2 (List.mem_cons_of_mem d (hrest b hb hne))
  rintro _ ⟨⟩
  exact ⟨d, hp.mem_iff.2 List.mem_cons_self, by rw [he.base], hroom⟩

theorem eq_reallocate (hp : c.handed = some p) (hr : (c.outline o).1 = .ok (some q)) :
    c = .reallocate (some p) c.requested := by
  cases c with
  | allocate size => cases hp
  | allocateZeroed count size => cases hp
  | free address => cases hr
  | reallocate address size =>
    obtain rfl : address = some p := hp
    rfl

theorem Outlined.reads_call {out : Outcome (Option Nat)} (h : s.Outlined o)
    (hc : ∀ address ∈ c.handed, address ∈ s.pointers) (hr : c.perform.run s.heap = .ok out)
    (hread : s.Reads p i v) (hq : (Move.call c out.result).carry p i = some q) :
    Reads ⟨out.heap, answered s.held c out.result, s.calls + 1⟩ q i v := by
  obtain ⟨hres, hframe, h'⟩ := h.call hc hr
  have hcv := h.valid_call hc
  have he := Call.effect h.outlines.valid.map hcv
  obtain ⟨b, hb, rfl⟩ := h.exists_block hread.1
  obtain ⟨hi, hv⟩ := (h.reads_iff hb).1 hread
  have hold : b.Holds (b.offset + i) :=
    ⟨(Block.mem_live.1 hb).2, Nat.le_add_right .., by omega⟩
  -- a block that is still there reads as before if its byte was not changed
  have hstay (hb' : b ∈ (c.outline o).2.map.live)
      (hbyte : out.heap.arena.byte (b.offset + i) = s.heap.arena.byte (b.offset + i)) :
      Reads ⟨out.heap, answered s.held c out.result, s.calls + 1⟩ (o.base + b.offset) i v := by
    rw [← he.base]
    exact (h'.reads_iff hb').2 ⟨hi, hbyte.trans hv⟩
  rcases hresult : out.result with e | r <;> rw [hresult] at hq hres hframe
  · obtain rfl := Option.some.inj hq
    have hlive := he.live
    rw [← hres] at hlive
    rw [← hresult]
    exact hstay (hlive.mem_iff.2 hb) (hframe.failed e rfl _ (MemoryMap.kept_iff.2 (.inr ⟨b, hb, hold⟩)))
  obtain ⟨hothers, hown⟩ := h.live_outline hcv hres.symm
  rw [← hresult]
  by_cases hh : c.handed = some (o.base + b.offset)
  · simp only [Move.carry, if_pos hh] at hq
    split at hq
    · next hlt =>
      obtain rfl := hq
      obtain ⟨d, hd, rfl, hroom⟩ := hown q rfl
      have hcopied := hframe.copied b hb c.requested (eq_reallocate hh hres.symm) _ rfl i (by omega)
      refine (h'.reads_iff hd).2 ⟨by omega, Eq.trans ?_ hv⟩
      rw [← hcopied, he.base, Nat.add_sub_cancel_left]
    · cases hq
  · simp only [Move.carry, if_neg hh] at hq
    obtain rfl := Option.some.inj hq
    exact hstay (hothers b hb hh) (hframe.others _ (.inr ⟨b, hb, hold, hh⟩))

/-! ### Other moves -/

variable {j n : Nat} {f : Nat → UInt8}

/-- What the holder of a pointer writes is found there, and nowhere else. -/
theorem Outlined.byte_fill (h : s.Outlined o) (hb : b ∈ o.map.live) (hn : j + n ≤ b.size - 8)
    (k : Nat) : (s.heap.fill (b.offset + j) n f).arena.byte k =
      if b.offset + j ≤ k ∧ k < b.offset + j + n then f (k - (b.offset + j))
      else s.heap.arena.byte k := by
  have hbb := h.outlines.valid.map.tiles.bounds (Block.mem_live.1 hb).1
  have hsize : s.heap.arena.size = o.map.stop := h.outlines.describes.size
  have hmin : min n (s.heap.arena.size - (b.offset + j)) = n := by omega
  have hfill : (s.heap.fill (b.offset + j) n f).arena = s.heap.arena.fill (b.offset + j) n f := by
    show s.heap.arena.fill _ (min n (s.heap.arena.size - (b.offset + j))) f = _
    rw [hmin]
  rw [hfill, Arena.byte_fill]

theorem Outlined.reads_write (h : s.Outlined o) (hb : b ∈ o.map.live) (hn : j + n ≤ b.size - 8)
    (hread : s.Reads p i v) (hq : (Move.write (o.base + b.offset) j n f).carry p i = some q) :
    Reads { s with heap := s.heap.fill (b.offset + j) n f } q i v := by
  obtain ⟨d, hd, rfl⟩ := h.exists_block hread.1
  obtain ⟨hi, hv⟩ := (h.reads_iff hd).1 hread
  simp only [Move.carry, Nat.add_left_cancel_iff] at hq
  split at hq
  · cases hq
  next hout =>
  obtain rfl := Option.some.inj hq
  refine ((h.write hb hn).reads_iff hd).2 ⟨hi, Eq.trans ?_ hv⟩
  show (s.heap.fill (b.offset + j) n f).arena.byte _ = _
  rw [h.byte_fill hb hn, if_neg fun hin => ?_]
  have htiles := h.outlines.valid.map.tiles
  rcases htiles.eq_or_apart (Block.mem_live.1 hb).1 (Block.mem_live.1 hd).1 with rfl | hapart
  · exact hout ⟨rfl, by omega, by omega⟩
  · omega

theorem Step.reads {m : Move} (h : s.Outlined o) (hm : Step s m s') (hread : s.Reads p i v)
    (hq : m.carry p i = some q) : s'.Reads q i v := by
  cases hm with
  | call hc hr => exact h.reads_call hc hr hread hq
  | write ha hu hn =>
    obtain ⟨b, hb, rfl, rfl⟩ := h.exists_payload ha hu
    have hbase : s.heap.arena.base = o.base := h.outlines.base
    simp only [hbase, Nat.add_sub_cancel_left]
    exact h.reads_write hb hn hread hq
  | moveEnd hd =>
    obtain rfl := Option.some.inj hq
    obtain ⟨b, hb, rfl⟩ := h.exists_block hread.1
    obtain ⟨hi, hv⟩ := (h.reads_iff hb).1 hread
    refine ((h.moveEnd hd).reads_iff hb).2 ⟨hi, Eq.trans ?_ hv⟩
    refine (Provider.moveEnd_spec hd).2.byte _ ?_
    have := h.outlines.valid.map.tiles.bounds (Block.mem_live.1 hb).1
    have hsize : s.heap.provider.arena.size = o.map.stop := h.outlines.describes.size
    show ¬s.heap.provider.arena.size ≤ _
    omega

/-- A byte is where a run carries it. -/
theorem Run.reads {ms : List Move} (h : s.Outlined o) (hr : Run s ms s')
    (hread : s.Reads p i v) (hq : carry p i ms = some q) : s'.Reads q i v := by
  induction hr generalizing o p with
  | nil => obtain rfl := Option.some.inj hq; exact hread
  | cons hm _ ih =>
    obtain ⟨r, hmr, hq⟩ := Option.bind_eq_some_iff.1 hq
    obtain ⟨o', h'⟩ := h.step hm
    exact ih h' (Step.reads h hm hread hmr) hq

/-! ### Payloads of a reachable session -/

/-- What a call with the result `r` leaves of the payloads: all bytes of those that it does not own,
and of one that it resizes the bytes that both sizes have. -/
structure Undisturbed (s : Session) (c : Call) (r : Except Error (Option Nat)) (s' : Session) :
    Prop where
  others : ∀ p ∈ s.pointers, c.handed ≠ some p →
    ∃ u, (s.heap.usableSize (some p)).run = .ok (.ok u) ∧
      ∀ i < u, s'.heap.load (p + i) = s.heap.load (p + i)
  resized : ∀ p n q, c = .reallocate (some p) n → r = .ok (some q) →
    ∃ u, (s.heap.usableSize (some p)).run = .ok (.ok u) ∧
      ∀ i < min u n, s'.heap.load (q + i) = s.heap.load (p + i)

theorem Step.handed {r : Except Error (Option Nat)} (hm : Step s (.call c r) s') :
    ∀ p ∈ c.handed, p ∈ s.pointers := by
  cases hm with
  | call hc hr => exact hc

theorem Outlined.undisturbed_call {r : Except Error (Option Nat)} (h : s.Outlined o)
    (hm : Step s (.call c r) s') : Undisturbed s c r s' := by
  have hread (b : Block) (hb : b ∈ o.map.live) (i : Nat) (hi : i < b.size - 8) :
      s.Reads (o.base + b.offset) i (s.heap.load (o.base + b.offset + i)) :=
    (h.reads_iff hb).2 ⟨hi, (h.load_eq b i).symm⟩
  constructor
  · intro p hp hne
    obtain ⟨b, hb, rfl⟩ := h.exists_block hp
    refine ⟨_, h.usableSize_eq hb, ?_⟩
    intro i hi
    refine (Step.reads h hm (hread b hb i hi) ?_).2.2
    rcases r with e | r
    · rfl
    · exact if_neg hne
  · rintro p n q rfl rfl
    obtain ⟨b, hb, rfl⟩ := h.exists_block (hm.handed p rfl)
    refine ⟨_, h.usableSize_eq hb, ?_⟩
    intro i hi
    have hin : i < n := by omega
    refine (Step.reads h hm (hread b hb i (by omega)) ?_).2.2
    simp only [Move.carry, Call.handed, Call.requested, if_true]
    exact if_pos hin

/-- Live data is never disturbed, and what the holder of a pointer wrote is read back wherever the
following moves carry it. -/
theorem Reachable.undisturbed (hs : s.Reachable) :
    (∀ c r s', Step s (.call c r) s' → Undisturbed s c r s') ∧
    ∀ p j n f s₁ ms s' i q, Step s (.write p j n f) s₁ → Run s₁ ms s' → j ≤ i → i < j + n →
      carry p i ms = some q → q ∈ s'.pointers ∧ s'.heap.load (q + i) = f (i - j) := by
  obtain ⟨o, h⟩ := hs.outlined
  constructor
  · intro c r s' hm
    exact h.undisturbed_call hm
  intro p j n f s₁ ms s' i q hm hr hj hn hq
  cases hm with
  | write ha hu hn' =>
    obtain ⟨b, hb, rfl⟩ := h.exists_block ha
    rw [h.usableSize_eq hb] at hu
    cases hu
    have hbase : s.heap.arena.base = o.base := h.outlines.base
    simp only [hbase, Nat.add_sub_cancel_left] at hr
    have h₁ := h.write (f := f) hb hn'
    have hread : Reads _ (o.base + b.offset) i (f (i - j)) := (h₁.reads_iff hb).2 ⟨by omega, by
      show (s.heap.fill (b.offset + j) n f).arena.byte _ = _
      rw [h.byte_fill hb hn', if_pos (by omega), Nat.add_sub_add_left]⟩
    have hread' := Run.reads h₁ hr hread hq
    exact ⟨hread'.1, hread'.2.2⟩

theorem small_resized : small.map (fun s => ((s.heap.usableSize (some 4160)).run,
      ((Call.reallocate (some 4160) 8).perform.run s.heap).map (·.result))) =
    some (.ok (.ok 40), .ok (.ok (some 4160))) := by
  decide +kernel

theorem undisturbed_small : ∃ s s₁ s₂, small = some s ∧
    Step s (.call (.reallocate (some 4160) 8) (.ok (some 4160))) s₁ ∧
    Undisturbed s (.reallocate (some 4160) 8) (.ok (some 4160)) s₁ ∧
    Step s (.write 4160 3 2 fun _ => 7) s₂ ∧ s₂.heap.load 4164 = 7 := by
  obtain ⟨s, hs, hresult⟩ := Option.map_eq_some_iff.1 small_resized
  obtain ⟨hu, hcall⟩ := Prod.mk.inj hresult
  have hheld := small_held
  rw [hs] at hheld
  have hp : 4160 ∈ s.pointers := by
    rw [pointers, (Prod.mk.inj (Option.some.inj hheld)).1]; decide
  rcases hrun : (Call.reallocate (some 4160) 8).perform.run s.heap with fault | ⟨r, h, events⟩ <;>
    rw [hrun] at hcall <;> cases hcall
  obtain ⟨hundisturbed, hread⟩ := Reachable.undisturbed (reachable_of_small hs)
  have hm : Step s (.call (.reallocate (some 4160) 8) (.ok (some 4160))) _ :=
    .call (by rintro _ ⟨⟩; exact hp) hrun
  have hw : Step s (.write 4160 3 2 fun _ => 7) _ := .write hp hu (by decide)
  exact ⟨s, _, _, hs, hm, hundisturbed _ _ _ hm, hw,
    (hread _ _ _ _ _ [] _ 4 4160 hw .nil (by decide) (by decide) rfl).2⟩

end Session

end SegregatedFit
