import SegregatedFit.Proofs.Canonical
import SegregatedFit.Proofs.GrowthPolicy

/-!
# Internal fragmentation

A request for `n` bytes needs a block of `neededSize n` bytes, the least size that is `Adequate`. The
block that serves it is split if the rest is a block, and all sizes are multiples of 16, so it has at
most 16 bytes more: it is `Block.Snug`. No call changes the size of a block but of the one handed in,
so blocks stay snug for as long as they are held (`Session.Reachable.outlined_snug`).
-/

namespace SegregatedFit

/-! ### Sizes -/

/-- Sizes of blocks with room for `n` bytes. -/
def Adequate (n : Nat) : Set Nat :=
  {a | alignment ∣ a ∧ minBlockSize ≤ a ∧ n + wordSize ≤ a}

theorem isLeast_neededSize (n : Nat) : IsLeast (Adequate n) (neededSize n) := by
  refine ⟨⟨?_, Nat.le_max_left .., Nat.le_trans (le_ceilAligned _) (Nat.le_max_right ..)⟩, ?_⟩
  · rw [neededSize, Nat.max_comm]
    exact dvd_max_minBlockSize (dvd_ceilAligned _)
  · rintro a ⟨hdvd, hmin, hroom⟩
    exact Nat.max_le.2 ⟨hmin, (ceilAligned_le_iff hdvd).2 hroom⟩

/-- The block has the size that `n` bytes need, or one unit more. -/
def Block.Snug (b : Block) (n : Nat) : Prop :=
  b.size = neededSize n ∨ b.size = neededSize n + alignment

/-- What is not split off is no block. -/
theorem Gap.Valid.snug_placed {g : Gap} {x n need : Nat} (hv : g.Valid)
    (hn : blockSize? n = some need) (hle : need ≤ g.size) :
    (⟨x, g.placed need, true⟩ : Block).Snug n := by
  obtain ⟨-, h16, -⟩ := blockSize?_spec hn
  have hg := hv.size_aligned
  rw [Block.Snug, ← blockSize?_eq_some hn, placed, alignment, minBlockSize]
  split
  · exact .inl rfl
  · simp only; omega

/-! ### The block that is handed out -/

namespace Outline

variable {o : Outline} {b : Block} {size need address : Nat}

/-- The pointer leads to a block that is snug for `n` bytes. -/
def LeadsTo (o : Outline) (address n : Nat) : Prop :=
  ∃ b ∈ o.map.live, address = o.base + b.offset ∧ b.Snug n

theorem leadsTo_allocate (hv : o.map.Valid) (h : (o.allocate size).1 = .ok address) :
    (o.allocate size).2.LeadsTo address size := by
  rcases allocate_cases hv size with ⟨e, o', hx, -⟩ |
    ⟨need, o', b, hneed, -, hx, hext, hv', hb, hf, hs⟩ <;> rw [hx] at h ⊢ <;> cases h
  refine ⟨_, (hv'.live_place hb hf).mem_iff.2 List.mem_cons_self, ?_,
    (hv'.gapAt hb).snug_placed hneed (by rw [hv'.gapAt_size hb]; exact hs)⟩
  show o.base + b.offset = o'.base + b.offset
  rw [hext.base]

theorem leadsTo_move (hv : o.map.Valid) (hb : b ∈ o.map.blocks) (ha : b.allocated = true)
    (h : (o.move b.offset size).1 = .ok address) :
    (o.move b.offset size).2.LeadsTo address size := by
  have hlead := fun address (hx : (o.allocate size).1 = .ok address) => leadsTo_allocate hv hx
  unfold move at h ⊢
  rcases allocate_cases hv size with ⟨e, o', hx, -⟩ |
    ⟨need, o', c, hneed, -, hx, hext, hv', hc, hf, hs⟩ <;> rw [hx] at h hlead ⊢ <;> cases h
  obtain ⟨h32, h16, -⟩ := blockSize?_spec hneed
  have hplaced := hv'.live_place (n := need) hc hf
  rw [hext.live] at hplaced
  have hrel := (hv.live_release_of_perm (hv'.place hc hf h32 h16) hb ha hplaced).2
  refine ⟨_, hrel.mem_iff.2 List.mem_cons_self, ?_,
    (hv'.gapAt hc).snug_placed hneed (by rw [hv'.gapAt_size hc]; exact hs)⟩
  show o.base + c.offset = o'.base + c.offset
  rw [hext.base]

theorem leadsTo_resize (hv : o.map.Valid) (hb : b ∈ o.map.blocks) (ha : b.allocated = true)
    (h : (o.resize b.offset size).1 = .ok address) :
    (o.resize b.offset size).2.LeadsTo address size := by
  unfold resize at h ⊢
  rcases hneed : blockSize? size with _ | need <;> simp only [hneed] at h ⊢
  · cases h
  by_cases hle : need ≤ (o.map.gapAt b.offset).size
  · rw [if_pos hle] at h ⊢
    cases h
    exact ⟨_, (hv.live_trim hb ha).mem_iff.2 List.mem_cons_self, rfl,
      (hv.gapAt hb).snug_placed hneed hle⟩
  rw [if_neg hle] at h ⊢
  rcases growInPlace_cases (o := o.countReallocation) hv hb ha need with
    ⟨e, o', hx, -⟩ | hx | ⟨o', hx, hext, hv', hs⟩ <;> simp only [hx] at h ⊢
  · cases h
  · exact leadsTo_move (o := o.countReallocation) hv hb ha h
  · cases h
    have hb' := hext.mem_blocks hb ha
    refine ⟨_, (hv'.live_absorb hb').mem_iff.2 List.mem_cons_self, ?_,
      (hv'.gapAt hb').joinNext.snug_placed hneed hs⟩
    show o.base + b.offset = o'.base + b.offset
    rw [show o'.base = o.base from hext.base]

end Outline

theorem Call.leadsTo {o : Outline} {c : Call} {address : Nat} (hv : o.map.Valid) (hc : c.Valid o)
    (h : (c.outline o).1 = .ok (some address)) :
    (c.outline o).2.LeadsTo address c.requested := by
  cases c with
  | allocate size => exact Outline.leadsTo_allocate hv (Except.eq_ok_of_map_some h)
  | allocateZeroed count size =>
    simp only [outline, Outline.allocateZeroed] at h ⊢
    split_ifs at h ⊢
    · cases h
    · exact Outline.leadsTo_allocate hv (Except.eq_ok_of_map_some h)
  | free address => cases h
  | reallocate handed size =>
    rcases handed with _ | handed
    · exact Outline.leadsTo_allocate hv (Except.eq_ok_of_map_some h)
    obtain ⟨b, hb, rfl⟩ := hc handed rfl
    obtain ⟨hb, ha⟩ := Block.mem_live.1 hb
    simp only [outline, Outline.reallocate, Nat.add_sub_cancel_left] at h ⊢
    split_ifs at h ⊢
    · cases h
    · exact Outline.leadsTo_resize hv hb ha (Except.eq_ok_of_map_some h)

/-! ### Sessions -/

namespace Session

variable {s t : Session} {o : Outline} {c : Call} {r : Except Error (Option Nat)}

/-- All blocks are snug for what was asked for last. -/
def Snug (s : Session) (o : Outline) : Prop :=
  ∀ e ∈ s.held, ∀ b ∈ o.map.live, e.1 = o.base + b.offset → b.Snug e.2

namespace Outlined

/-- All blocks but the one that a call hands out were there before. -/
theorem mem_live_of_step (h : s.Outlined o) (hstep : Step s (.call c r) t) {b : Block}
    (hb : b ∈ (c.outline o).2.map.live) (hne : r ≠ .ok (some (o.base + b.offset))) :
    b ∈ o.map.live := by
  obtain ⟨hc, -⟩ := step_call_iff.1 hstep
  obtain ⟨hr, -⟩ := h.step_call hstep
  have heff := (Call.effect h.outlines.valid.map (h.valid_call hc)).live
  rw [← hr] at heff
  rcases r with e' | address
  · exact heff.mem_iff.1 hb
  obtain ⟨rest, hin, hout⟩ := heff
  have hrest : rest ⊆ o.map.live := by
    rcases hh : c.handed with _ | q <;> rw [hh] at hin
    · exact (List.Perm.symm hin).subset
    · obtain ⟨d, -, -, hp⟩ := hin
      exact fun x hx => hp.mem_iff.2 (List.mem_cons_of_mem d hx)
  rcases address with _ | address
  · exact hrest (List.Perm.mem_iff hout |>.1 hb)
  · obtain ⟨d, rfl, -, hp⟩ := hout
    rcases List.mem_cons.1 (hp.mem_iff.1 hb) with rfl | hb
    · exact absurd rfl hne
    · exact hrest hb

theorem snug_call (h : s.Outlined o) (hs : s.Snug o) (hstep : Step s (.call c r) t) :
    t.Snug (c.outline o).2 := by
  obtain ⟨hr, ht⟩ := h.step_call hstep
  obtain ⟨hc, out, -, -, rfl⟩ := step_call_iff.1 hstep
  have hcv := h.valid_call hc
  have hbase : (c.outline o).2.base = o.base := (Call.effect h.outlines.valid.map hcv).base
  have hnodup := ht.nodup_pointers
  intro e he b hb hoff
  rw [hbase] at hoff
  have hold : e ∈ s.held → r ≠ .ok (some e.1) → b.Snug e.2 := by
    intro he hne
    rw [hoff] at hne
    exact hs e he b (h.mem_live_of_step hstep hb hne) hoff
  rcases r with e' | _ | address
  · exact hold he nofun
  · exact hold (List.mem_filter.1 he).1 nofun
  rcases List.mem_cons.1 he with rfl | he'
  · obtain ⟨d, hd, hde, hsnug⟩ := Call.leadsTo h.outlines.valid.map hcv hr.symm
    have hdb : d.offset = b.offset := by simp only at hoff; omega
    rwa [ht.outlines.valid.map.tiles.eq_of_offset_eq (Block.mem_live.1 hb).1
      (Block.mem_live.1 hd).1 hdb.symm]
  · refine hold (List.mem_filter.1 he').1 ?_
    intro heq
    obtain rfl : address = e.1 := Option.some.inj (Except.ok.inj heq)
    exact absurd (List.mem_map_of_mem (f := Prod.fst) he') (List.nodup_cons.1 hnodup).1

end Outlined

/-- Blocks stay snug, whatever happens to others. -/
theorem Reachable.outlined_snug (hs : s.Reachable) : ∃ o, s.Outlined o ∧ s.Snug o := by
  induction hs with
  | start hp hc =>
    obtain ⟨o, -, ho⟩ := outlined_start hp hc
    exact ⟨o, ho, List.forall_mem_nil _⟩
  | step _ hm ih =>
    obtain ⟨o, ho, hsnug⟩ := ih
    cases hm with
    | call hc hr =>
      have hstep := Step.call hc hr
      exact ⟨_, (ho.step_call hstep).2, ho.snug_call hsnug hstep⟩
    | write ha hu hn => exact ⟨o, ho.step_write ha hu hn, hsnug⟩
    | moveEnd hd => exact ⟨_, ho.moveEnd hd, hsnug⟩

/-- How many bytes the blocks of pointers in use may have, and how many are needed, if that is a
word. -/
theorem Reachable.fragmentation (hs : s.Reachable) :
    (∀ address n, (address, n) ∈ s.held → ∃ x size a, address = s.heap.address x ∧
      s.heap.Allocated x size ∧ IsLeast (Adequate n) a ∧ (size = a ∨ size = a + alignment)) ∧
    ∀ n, ∃ a, IsLeast (Adequate n) a ∧ ∀ h, (HeapM.blockSize n).run h =
      .ok ⟨if a < Word.limit then .ok a else .error .sizeOverflow, h, []⟩ := by
  obtain ⟨o, ho, hsnug⟩ := hs.outlined_snug
  constructor
  · intro address n he
    obtain ⟨b, hb, haddress⟩ := ho.exists_block (List.mem_map_of_mem he)
    refine ⟨b.offset, b.size, neededSize n, ?_, ?_, isLeast_neededSize n, hsnug _ he b hb haddress⟩
    · exact haddress.trans (congrArg (· + b.offset) ho.outlines.base.symm)
    · rw [ho.allocated_iff, ← (Block.mem_live.1 hb).2]; exact hb
  · refine fun n => ⟨neededSize n, isLeast_neededSize n, fun h => ?_⟩
    rw [HeapM.blockSize, blockSize?_eq]
    split_ifs <;> rfl

/-- What is left is the block for 40 bytes. -/
theorem fragmentation_small : ∃ s, small = some s ∧ ∃ x size a, 4160 = s.heap.address x ∧
    s.heap.Allocated x size ∧ IsLeast (Adequate 40) a ∧ (size = a ∨ size = a + alignment) := by
  obtain ⟨s, hs, hheld⟩ := Option.map_eq_some_iff.1 small_held
  have hmem : (4160, 40) ∈ s.held := by
    rw [(Prod.mk.inj hheld).1]
    exact List.mem_cons_self
  exact ⟨s, hs, (Reachable.fragmentation (reachable_of_small hs)).1 4160 40 hmem⟩

end Session

end SegregatedFit
