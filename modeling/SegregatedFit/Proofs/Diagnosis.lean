import SegregatedFit.Proofs.Validation

/-!
# Checking any heap whatsoever

The check of a heap comes to an answer whatever bytes are in the arena and whatever the heads of the
chains are (`Heap.LaidOut.check_exists`): no sum or difference leaves the words, no word outside the
arena is looked for, and both walks end. Only the place of the prologue and the size of the arena,
which no byte can change, have to be as `Heap.create` gives them.

A block is looked at if it starts inside the arena, and its footer if it ends there, give or take the
word that ends the arena (`le_of_endsInside`). The walk over the blocks goes up with every step
(`checkBlocksFrom_exists`); the walk along a chain meets new blocks only, for which there is no more
room than the arena has bytes (`checkChainFrom_exists`).
-/

namespace SegregatedFit

theorem bind_exists {α β : Type} {x : Except Fault α} {f : α → Except Fault β}
    (hx : ∃ a, x = .ok a) (hf : ∀ a, x = .ok a → ∃ b, f a = .ok b) : ∃ b, (x >>= f) = .ok b := by
  obtain ⟨a, ha⟩ := hx
  obtain ⟨b, hb⟩ := hf a ha
  exact ⟨b, bind_eq_ok_iff.2 ⟨a, ha, hb⟩⟩

theorem ite_exists {α : Type} {c : Prop} [Decidable c] {x y : Except Fault α}
    (hx : c → ∃ a, x = .ok a) (hy : ¬c → ∃ a, y = .ok a) : ∃ a, (if c then x else y) = .ok a := by
  split
  · next hc => exact hx hc
  · next hc => exact hy hc

namespace Heap

/-- Where `create` puts things, whatever is in the bytes: the prologue lies inside the arena, and the
addresses stay away from the last words. -/
structure LaidOut (h : Heap) : Prop where
  start_ge : 2 * wordSize ≤ h.start
  firstBlock_le : h.firstBlock ≤ h.size
  addressable : h.arena.base + h.size < Source.signedLimit

variable {h : Heap} {bp z fuel : Nat} {t : Tag} {p : Bool} {q : Option Nat} {c : SizeClass}

namespace LaidOut

theorem size_lt (hl : h.LaidOut) : h.arena.base + h.size + 16 < Word.limit := by
  have hlt := hl.addressable
  have hgap : Source.signedLimit + 16 ≤ Word.limit := by decide
  omega

theorem header_exists (hl : h.LaidOut) (hb : 8 ≤ bp) (hs : bp ≤ h.size) :
    ∃ t, h.arena.header bp = .ok t := by
  have := hl.size_lt
  exact ⟨_, Arena.header_of_le hb hs (by show h.size < _; omega)⟩

theorem readWord_exists (hl : h.LaidOut) (hs : bp + 8 ≤ h.size) :
    ∃ w, h.arena.readWord bp = .ok w := by
  have := hl.size_lt
  exact ⟨_, Arena.readWord_of_le hs (by omega)⟩

/-! ### Single checks -/

theorem checkPrologue_exists (hl : h.LaidOut) : ∃ vs, h.checkPrologue = .ok vs := by
  have hstart := hl.start_ge
  have hroom := hl.firstBlock_le
  simp only [wordSize, firstBlock] at hstart hroom
  refine bind_exists (hl.header_exists (by omega) (by omega)) fun t _ => ?_
  refine bind_exists (hl.readWord_exists (by omega)) fun w _ => ?_
  exact ite_exists (fun _ => ⟨_, rfl⟩) fun _ => ⟨_, rfl⟩

theorem checkEpilogue_exists (hb : 8 ≤ bp) (hs : 8 ≤ h.size) :
    ∃ vs, h.checkEpilogue bp t p = .ok vs := by
  refine bind_exists ⟨_, Word.sub_of_le hb⟩ fun pos _ => ?_
  exact bind_exists ⟨_, Word.sub_of_le hs⟩ fun last _ => ⟨_, rfl⟩

theorem endsInside_exists (hb : 16 ≤ bp) : ∃ inside, h.endsInside bp z = .ok inside := by
  refine bind_exists ⟨_, Word.sub_of_le ?_⟩ fun stop _ => ⟨_, rfl⟩
  simp only [Word.addSaturating, Word.limit_eq, wordSize]
  omega

/-- What is said to end inside the arena does so, or ends with the word after it. -/
theorem le_of_endsInside (hl : h.LaidOut) (hb : 16 ≤ bp) (hs : bp ≤ h.size)
    (hi : h.endsInside bp z = .ok true) : bp + z ≤ h.size + 8 := by
  have hlt := hl.size_lt
  obtain ⟨stop, hstop, hle⟩ := bind_eq_ok_iff.1 hi
  obtain ⟨-, rfl⟩ := Word.sub_eq_ok_iff.1 hstop
  replace hle := of_decide_eq_true (Except.ok.inj hle)
  simp only [lastAddress, Word.addSaturating, wordSize] at hle
  omega

theorem checkHeader_exists (hl : h.LaidOut) (hs : bp ≤ h.size) :
    ∃ vs, h.checkHeader bp t p = .ok vs := by
  have := hl.size_lt
  exact bind_exists ⟨_, Word.add_of_lt (by omega)⟩ fun address _ => ⟨_, rfl⟩

/-- The footer of a block that ends with the word after the arena is the last word but one. -/
theorem checkFree_exists (hl : h.LaidOut) (hb : 16 ≤ bp) (ht : h.arena.header bp = .ok t)
    (hz : bp + t.size ≤ h.size + 8) : ∃ vs, h.checkFree bp t q = .ok vs := by
  have hlt := hl.size_lt
  refine ite_exists (fun _ => ⟨_, rfl⟩) fun hbig => ?_
  have hpos : h.arena.footerPos bp = .ok (bp + t.size - 16) := by
    rw [Arena.footerPos, ht, ok_bind, Arena.footerPosOf_eq (by omega) (by omega)]
  have hfooter : ∃ footer, h.arena.footer bp = .ok footer := by
    rw [Arena.footer, hpos, ok_bind]
    exact bind_exists (hl.readWord_exists (by omega)) fun w _ => ⟨_, rfl⟩
  exact bind_exists hfooter fun footer _ => ite_exists (fun _ => ⟨_, rfl⟩) fun _ => ⟨_, rfl⟩

/-! ### The walk over the blocks -/

/-- The offset goes up with every block, and behind the end of the arena the walk ends. -/
theorem checkBlocksFrom_exists (hl : h.LaidOut) (hb : 16 ≤ bp) (hs : bp ≤ h.size + 8)
    (hf : h.size + 8 < fuel + bp) : ∃ report, h.checkBlocksFrom fuel bp p q = .ok report := by
  induction fuel generalizing bp p q with
  | zero => omega
  | succ fuel ih =>
    rw [checkBlocksFrom]
    refine ite_exists (fun _ => ⟨_, rfl⟩) fun hin => ?_
    have hin : bp ≤ h.size := Nat.le_of_not_lt hin
    refine bind_exists (hl.header_exists (by omega) hin) fun t ht => ?_
    refine ite_exists (fun _ => ?_) fun hz => ?_
    · exact bind_exists (checkEpilogue_exists (by omega) (by omega)) fun vs _ => ⟨_, rfl⟩
    refine bind_exists (endsInside_exists hb) fun inside hi => ?_
    refine ite_exists (fun _ => ⟨_, rfl⟩) fun htrue => ?_
    obtain rfl : inside = true := by simpa using htrue
    have hle := hl.le_of_endsInside hb hin hi
    have hlt := hl.size_lt
    refine bind_exists (hl.checkHeader_exists hin) fun own _ => ?_
    have hrest : ∀ asFree : List Violation, ∃ report, (do
        let next ← Word.add bp t.size
        let rest ← h.checkBlocksFrom fuel next t.allocated (if t.allocated then none else some bp)
        pure ⟨own ++ asFree ++ rest.violations, if t.allocated then rest.free else bp :: rest.free⟩
          : Except Fault BlockReport) = .ok report := by
      intro asFree
      refine bind_exists ⟨_, Word.add_of_lt (by omega)⟩ fun next hnext => ?_
      obtain ⟨-, rfl⟩ := Word.add_eq_ok_iff.1 hnext
      exact bind_exists (ih (by omega) hle (by omega)) fun rest _ => ⟨_, rfl⟩
    exact ite_exists (fun _ => hrest []) fun _ =>
      bind_exists (hl.checkFree_exists hb ht hle) fun asFree _ => hrest asFree

theorem checkBlocks_exists (hl : h.LaidOut) : ∃ report, h.checkBlocks = .ok report := by
  have hfirst : 16 ≤ h.firstBlock := Nat.le_add_left ..
  have hroom := hl.firstBlock_le
  refine bind_exists hl.checkPrologue_exists fun prologue _ => ?_
  exact bind_exists (hl.checkBlocksFrom_exists hfirst (by omega) (by omega)) fun report _ => ⟨_, rfl⟩

/-! ### The walk along a chain -/

theorem checkMember_exists (hl : h.LaidOut) (hb : 8 ≤ bp) (hs : bp + 16 ≤ h.size) (prev : Nat) :
    ∃ vs, h.checkMember c bp prev = .ok vs := by
  have hlt := hl.size_lt
  refine bind_exists (hl.header_exists hb (by omega)) fun t _ => ?_
  exact bind_exists ⟨_, Arena.prevFree_of_le hs (by show h.size < _; omega)⟩ fun back _ => ⟨_, rfl⟩

/-- The blocks met are different ones, and each has room for two links. -/
theorem checkChainFrom_exists (hl : h.LaidOut) {x prev : Nat} {met listed : List Nat}
    (hd : met.Nodup) (hm : ∀ y ∈ met, y < h.size) (hf : h.size < fuel + met.length) :
    ∃ report, h.checkChainFrom c fuel x prev met listed = .ok report := by
  induction fuel generalizing x prev met listed with
  | zero =>
    have := Pool.length_le_of_nodup hd hm
    omega
  | succ fuel ih =>
    rw [checkChainFrom]
    refine ite_exists (fun _ => ⟨_, rfl⟩) fun _ => ite_exists (fun _ => ⟨_, rfl⟩) fun hin => ?_
    refine ite_exists (fun _ => ⟨_, rfl⟩) fun hnew => ?_
    have hlt := hl.size_lt
    have hfirst : 16 ≤ h.firstBlock := Nat.le_add_left ..
    have hroom : x + 16 ≤ h.size := by
      simp only [Word.addSaturating, wordSize, not_or] at hin
      omega
    refine bind_exists (hl.checkMember_exists (by omega) hroom prev) fun own _ => ?_
    refine bind_exists (hl.readWord_exists (by omega)) fun next _ => ?_
    refine bind_exists (ih (List.nodup_cons.2 ⟨hnew, hd⟩) ?_ ?_) fun rest _ => ⟨_, rfl⟩
    · intro y hy
      rcases List.mem_cons.1 hy with rfl | hy
      · omega
      · exact hm y hy
    · rw [List.length_cons]; omega

theorem checkChains_exists (hl : h.LaidOut) (cs : List SizeClass) (listed : List Nat) :
    ∃ report, h.checkChains cs listed = .ok report := by
  induction cs generalizing listed with
  | nil => exact ⟨_, rfl⟩
  | cons c cs ih =>
    refine bind_exists (hl.checkChainFrom_exists .nil nofun (Nat.lt_succ_self _)) fun report _ => ?_
    exact bind_exists (ih report.listed) fun rest _ => ⟨_, rfl⟩

/-! ### The whole heap -/

theorem violations_exists (hl : h.LaidOut) : ∃ vs, h.violations = .ok vs := by
  refine bind_exists hl.checkBlocks_exists fun blocks _ => ?_
  exact bind_exists (hl.checkChains_exists _ _) fun chains _ => ⟨_, rfl⟩

end LaidOut

end Heap

theorem HeapM.run_reportViolations (label : String) (vs : List Violation) (h : Heap) :
    (reportViolations label vs).run h = .ok ⟨.ok (), h, vs.map (.checkFailed label)⟩ := by
  induction vs with
  | nil => rfl
  | cons v vs ih =>
    have hemit : (emit (.checkFailed label v)).run h = .ok ⟨.ok (), h, [.checkFailed label v]⟩ := rfl
    rw [reportViolations, run_bind_of_ok hemit, ih]
    rfl

namespace Heap

/-- The check of a heap lists and reports violations and leaves the heap alone, whatever bytes it
finds and wherever the heads of the chains lead. -/
theorem LaidOut.check_exists {h : Heap} (hl : h.LaidOut) (label : String) :
    ∃ vs, h.violations = .ok vs ∧
      (HeapM.check label).run h = .ok ⟨.ok vs, h, vs.map (.checkFailed label)⟩ := by
  obtain ⟨vs, hvs⟩ := hl.violations_exists
  refine ⟨vs, hvs, ?_⟩
  have hask : (HeapM.ask fun h => (h.violations : Except Fault (List Violation))).run h =
      .ok ⟨.ok vs, h, []⟩ := HeapM.run_ask (by rw [hvs]; rfl)
  rw [HeapM.check, HeapM.run_bind_of_ok hask,
    HeapM.run_bind_of_ok (HeapM.run_reportViolations label vs h)]
  simp [HeapM.run, pure, HeapM.pure, Except.map, Outcome.after]

/-- Every word is 40, and so is every head: free blocks of 40 bytes lead behind the end of the arena,
and all chains are one cycle. -/
def scrambled : Heap :=
  ⟨⟨(Arena.empty 20480 ⟨1280, rfl⟩ |>.extend 128).fill 0 128 fun i => if i % 8 = 0 then 40 else 0,
    .buffer 128⟩, {}, ⟨.replicate classCount 40⟩, 16, {}⟩

theorem check_scrambled : scrambled.LaidOut ∧ ∃ vs, scrambled.violations = .ok vs ∧
    (HeapM.check "scrambled").run scrambled =
      .ok ⟨.ok vs, scrambled, vs.map (.checkFailed "scrambled")⟩ := by
  have hl : scrambled.LaidOut := by
    refine ⟨by decide, ?_, ?_⟩
    · show 32 ≤ scrambled.provider.arena.size
      rw [scrambled, Arena.size_fill]
      decide
    · show scrambled.provider.arena.base + scrambled.provider.arena.size < _
      rw [scrambled, Arena.size_fill, Arena.base_fill]
      decide
  exact ⟨hl, hl.check_exists "scrambled"⟩

end Heap

/-- Whatever is written over the bytes and the heads of a heap in use, it is still laid out so. -/
theorem Session.Reachable.laidOut {s : Session} {h : Heap} (hs : s.Reachable)
    (hstart : h.start = s.heap.start) (hbase : h.arena.base = s.heap.arena.base)
    (hsize : h.size = s.heap.size)
    (hlt : s.heap.arena.base + s.heap.size < Source.signedLimit) : h.LaidOut := by
  obtain ⟨o, ho⟩ := hs.outlined
  have hfirst : s.heap.firstBlock = o.map.first := ho.outlines.first
  have hstop : s.heap.size = o.map.stop := ho.size_eq
  have h32 := ho.outlines.valid.map.first_ge
  have hle := ho.outlines.valid.map.tiles.le
  simp only [Heap.firstBlock, wordSize] at hfirst
  refine ⟨?_, ?_, by rw [hbase, hsize]; exact hlt⟩ <;>
    simp only [Heap.firstBlock, wordSize, hstart, hsize] <;> omega

end SegregatedFit
