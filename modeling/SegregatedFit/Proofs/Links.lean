import SegregatedFit.Pool.Chain
import SegregatedFit.Proofs.Bytes

/-!
# Chains as lists

The chains of a pool are given by one list of offsets per class: `Pool.Chained p l` says that heads
and links of `p` spell out the lists `l`. Inserting pushes to the front of a list and removing
erases from it (`insert_exists`, `remove_exists`), as long as no two listed blocks share a header
or link word (`Chains.Spread`); only link words of listed blocks change. A search of the chains is
a search of the lists (`firstFit_eq`).
-/

namespace SegregatedFit

namespace Arena

/-- The blocks of a list are linked both ways; the first follows `prev`, `next` follows the last. -/
def Linked (a : Arena) : (prev : Nat) → List Nat → (next : Nat) → Prop
  | _, [], _ => True
  | prev, x :: xs, next =>
    a.word x = xs.headD next ∧ a.word (x + 8) = prev ∧ a.Linked x xs next

variable {a a' : Arena} {p q n x : Nat} {xs ys : List Nat}

/-- What a list says about links. -/
theorem Linked.word_eq (h : a.Linked p xs n) (h' : a'.Linked p xs n) :
    ∀ x ∈ xs, a'.word x = a.word x ∧ a'.word (x + 8) = a.word (x + 8) := by
  induction xs generalizing p with
  | nil => nofun
  | cons y ys ih =>
    intro x hx
    rcases List.mem_cons.1 hx with rfl | hx
    · exact ⟨h'.1.trans h.1.symm, h'.2.1.trans h.2.1.symm⟩
    · exact ih h.2.2 h'.2.2 x hx

theorem linked_append :
    a.Linked p (xs ++ ys) n ↔ a.Linked p xs (ys.headD n) ∧ a.Linked (xs.getLastD p) ys n := by
  induction xs generalizing p with
  | nil => simp [Linked]
  | cons x xs ih =>
    have hh : (xs ++ ys).headD n = xs.headD (ys.headD n) := by cases xs <;> rfl
    simp only [List.cons_append, Linked, ih, hh, List.getLastD_cons, and_assoc]

theorem Linked.congr (h : a.Linked p xs n)
    (hw : ∀ x ∈ xs, a'.word x = a.word x ∧ a'.word (x + 8) = a.word (x + 8)) :
    a'.Linked p xs n := by
  induction xs generalizing p with
  | nil => trivial
  | cons x xs ih =>
    obtain ⟨h1, h2, h3⟩ := h
    obtain ⟨w1, w2⟩ := hw x List.mem_cons_self
    exact ⟨w1.trans h1, w2.trans h2, ih h3 fun y hy => hw y (List.mem_cons_of_mem x hy)⟩

@[simp] theorem linked_extend {k : Nat} : (a.extend k).Linked p xs n ↔ a.Linked p xs n := by
  induction xs generalizing p with
  | nil => rfl
  | cons x xs ih => rw [Linked, Linked, ih]; rfl

theorem Linked.set_prev (h : a.Linked p (x :: xs) n) (hw : a'.word x = a.word x)
    (hq : a'.word (x + 8) = q)
    (hs : ∀ y ∈ xs, a'.word y = a.word y ∧ a'.word (y + 8) = a.word (y + 8)) :
    a'.Linked q (x :: xs) n :=
  ⟨hw.trans h.1, hq, h.2.2.congr hs⟩

theorem Linked.set_next (h : a.Linked p (xs ++ [x]) n) (hq : a'.word x = q)
    (hw : a'.word (x + 8) = a.word (x + 8))
    (hs : ∀ y ∈ xs, a'.word y = a.word y ∧ a'.word (y + 8) = a.word (y + 8)) :
    a'.Linked p (xs ++ [x]) q := by
  obtain ⟨h1, h2⟩ := linked_append.1 h
  exact linked_append.2 ⟨h1.congr hs, hq, hw.trans h2.2.1, trivial⟩

end Arena

/-! ### Lists of offsets -/

/-- The blocks of each chain, in order. -/
abbrev Chains := SizeClass → List Nat

namespace Chains

/-- `x` goes to the front of class `c`. -/
def push (l : Chains) (c : SizeClass) (x : Nat) : Chains :=
  fun d => if d = c then x :: l d else l d

/-- `x` leaves its class. -/
def drop (l : Chains) (x : Nat) : Chains :=
  fun d => (l d).erase x

/-- Headers and links of all listed blocks are below `size` and apart from each other. -/
structure Spread (l : Chains) (size : Nat) : Prop where
  nodup : ∀ c, (l c).Nodup
  inside : ∀ c, ∀ x ∈ l c, 8 ≤ x ∧ x + 16 ≤ size
  apart : ∀ c d, ∀ x ∈ l c, ∀ y ∈ l d, (c = d ∧ x = y) ∨ x + 24 ≤ y ∨ y + 24 ≤ x

/-- The bytes of the link words. -/
def LinkByte (l : Chains) (k : Nat) : Prop :=
  ∃ c, ∃ x ∈ l c, x ≤ k ∧ k < x + 16

variable {l : Chains} {c d : SizeClass} {x y z : Nat}

@[simp] theorem push_self : l.push c x c = x :: l c := if_pos rfl

theorem push_of_ne (h : d ≠ c) : l.push c x d = l d := if_neg h

theorem mem_push : y ∈ l.push c x d ↔ (d = c ∧ y = x) ∨ y ∈ l d := by
  by_cases h : d = c
  · subst h; simp
  · simp [push_of_ne h, h]

theorem drop_of_not_mem (h : x ∉ l d) : l.drop x d = l d := List.erase_of_not_mem h

theorem drop_eq_self (h : ∀ d, x ∉ l d) : l.drop x = l := funext fun d => drop_of_not_mem (h d)

theorem mem_drop (hn : (l d).Nodup) : y ∈ l.drop x d ↔ y ≠ x ∧ y ∈ l d := hn.mem_erase_iff

theorem Spread.of_push (h : (l.push c x).Spread z) : l.Spread z := by
  have hm : ∀ {d y}, y ∈ l d → y ∈ l.push c x d := fun h => mem_push.2 (.inr h)
  refine ⟨?_, fun d y hy => h.inside d y (hm hy), fun d e y hy w hw =>
    h.apart d e y (hm hy) w (hm hw)⟩
  intro d
  have := h.nodup d
  by_cases hd : d = c
  · subst hd; rw [push_self] at this; exact this.of_cons
  · rwa [push_of_ne hd] at this

theorem Spread.apart_of_ne (h : l.Spread z) (hx : x ∈ l c) (hy : y ∈ l d) (hne : x ≠ y) :
    x + 24 ≤ y ∨ y + 24 ≤ x := by
  rcases h.apart c d x hx y hy with ⟨-, h⟩ | h
  · exact absurd h hne
  · exact h

theorem Spread.ne_nil (h : l.Spread z) (hx : x ∈ l c) : x ≠ nil := by
  have := (h.inside c x hx).1
  simp only [nil]; omega

theorem Spread.not_mem_of_push (h : (l.push c x).Spread z) (d : SizeClass) : x ∉ l d := by
  intro hx
  rcases h.apart c d x (by simp) x (mem_push.2 (.inr hx)) with ⟨rfl, -⟩ | h'
  · have := h.nodup c
    rw [push_self] at this
    exact (List.nodup_cons.1 this).1 hx
  · omega

theorem Spread.class_eq (h : l.Spread z) (hx : x ∈ l c) (hy : x ∈ l d) : c = d := by
  rcases h.apart c d x hx x hy with ⟨h, -⟩ | h
  · exact h
  · omega

theorem Spread.pairwise (h : l.Spread z) (c : SizeClass) :
    (l c).Pairwise fun x y => x + 24 ≤ y ∨ y + 24 ≤ x := by
  refine List.Pairwise.imp_of_mem ?_ (h.nodup c)
  intro x y hx hy hne
  exact h.apart_of_ne hx hy hne

theorem Spread.headD_lt (h : l.Spread z) (hz : z < Word.limit) {xs : List Nat} (hs : xs ⊆ l c) :
    xs.headD nil < Word.limit := by
  cases xs with
  | nil => simp [Word.limit_eq]
  | cons x xs =>
    have := h.inside c x (hs List.mem_cons_self)
    simp only [List.headD_cons]; omega

theorem Spread.drop_eq (h : l.Spread z) {xs ys : List Nat} (hl : l c = xs ++ x :: ys) :
    l.drop x c = xs ++ ys := by
  have hn := h.nodup c
  rw [hl] at hn
  have hx : x ∉ xs := fun hx => (List.nodup_append.1 hn).2.2 x hx x List.mem_cons_self rfl
  rw [drop, hl, List.erase_append_right _ hx, List.erase_cons_head]

end Chains

namespace Pool

variable {p : Pool} {l : Chains} {c : SizeClass} {t : Tag} {x : Nat}

/-- Heads and links spell out the lists `l`. -/
structure Chained (p : Pool) (l : Chains) : Prop where
  head : ∀ c, p.index.head c = (l c).headD nil
  linked : ∀ c, p.arena.Linked nil (l c) nil

theorem Chained.congr {a a' : Arena} {ix : FreeIndex} {s : Nat → Prop} (h : Chained ⟨a, ix⟩ l)
    (hc : Arena.Changed s a a') (hs : ∀ k, l.LinkByte k → ¬s k) : Chained ⟨a', ix⟩ l := by
  refine ⟨h.head, fun c => (h.linked c).congr fun x hx => ⟨?_, ?_⟩⟩
  · exact hc.word fun k _ _ => hs k ⟨c, x, hx, by omega, by omega⟩
  · exact hc.word fun k _ _ => hs k ⟨c, x, hx, by omega, by omega⟩

/-! ### Inserting and removing -/

/-- The first block of a list, if there is one, is made to follow `w`. -/
theorem follow_exists {a : Arena} {ys : List Nat} {q w : Nat} (h : a.Linked q ys nil)
    (hin : ∀ y ∈ ys, y ≠ nil ∧ y + 16 ≤ a.size)
    (hap : ys.Pairwise fun y z => y + 24 ≤ z ∨ z + 24 ≤ y) (ha : a.size < Word.limit)
    (hw : w < Word.limit) :
    ∃ a', (∀ f : Arena → Except Fault Pool,
        (if ys.headD nil = nil then f a else a.setPrevFree (ys.headD nil) w >>= f) = f a') ∧
      Arena.Changed (fun k => ∃ y ∈ ys, y + 8 ≤ k ∧ k < y + 16) a a' ∧ a'.Linked w ys nil := by
  cases ys with
  | nil => exact ⟨a, fun f => if_pos rfl, .refl _ _, trivial⟩
  | cons y ys =>
    obtain ⟨hy0, hy⟩ := hin y List.mem_cons_self
    obtain ⟨a', h', hc, hwy⟩ := Arena.setPrevFree_exists (a := a) (b := y) (w := w) hy ha hw
    refine ⟨a', ?_, hc.mono fun k hk => ⟨y, List.mem_cons_self, hk⟩, ?_⟩
    · intro f
      rw [List.headD_cons, if_neg hy0, h', ok_bind]
    · refine h.set_prev (hc.word fun k _ _ => by omega) hwy ?_
      intro z hz
      have := List.rel_of_pairwise_cons hap hz
      exact ⟨hc.word fun k _ _ => by omega, hc.word fun k _ _ => by omega⟩

theorem insert_exists (hc : p.Chained l) (hl : (l.push c x).Spread p.arena.size)
    (ha : p.arena.size < Word.limit) (ht : p.arena.header x = .ok t) (htc : sizeClass t.size = c) :
    ∃ p', p.insert x = .ok p' ∧ p'.Chained (l.push c x) ∧
      Arena.Changed (l.push c x).LinkByte p.arena p'.arena := by
  obtain ⟨a, ix⟩ := p
  replace ha : a.size < Word.limit := ha
  replace hl : (l.push c x).Spread a.size := hl
  have hxin : x + 16 ≤ a.size := (hl.inside c x (by simp)).2
  have hl' := hl.of_push
  have hap : ∀ d, ∀ y ∈ l d, x + 24 ≤ y ∨ y + 24 ≤ x := fun d y hy =>
    hl.apart_of_ne (c := c) (d := d) (by simp) (Chains.mem_push.2 (.inr hy))
      fun h => hl.not_mem_of_push d (h ▸ hy)
  have hhead : ix.head c = (l c).headD nil := hc.head c
  -- the old first block points back to `x`
  obtain ⟨a1, h1, c1, w1⟩ := follow_exists (w := x) (hc.linked c)
    (fun y hy => ⟨hl'.ne_nil hy, (hl'.inside c y hy).2⟩) (hl'.pairwise c) ha (by omega)
  have hsz1 : a1.size = a.size := c1.size
  have hheadlt : ix.head c < Word.limit := by
    rw [hhead]
    exact hl'.headD_lt ha fun _ h => h
  obtain ⟨a2, h2, c2, w2⟩ := Arena.setNextFree_exists (a := a1) (b := x) (w := ix.head c)
    (by omega) (by omega) hheadlt
  obtain ⟨a3, h3, c3, w3⟩ := Arena.setPrevFree_exists (a := a2) (b := x) (w := nil)
    (by rw [c2.size]; omega) (by rw [c2.size]; omega) (by simp [Word.limit_eq])
  refine ⟨⟨a3, ix.setHead c x⟩, ?_, ⟨?_, ?_⟩, ?_⟩
  · subst htc
    simp only [insert, ht, ok_bind, hhead]
    refine (h1 _).trans ?_
    rw [← hhead, h2, ok_bind, h3, ok_bind, pure_eq_ok]
  · intro d
    by_cases hd : d = c
    · subst hd; simp
    · simp [FreeIndex.head_setHead, hd, Chains.push_of_ne hd, hc.head d]
  · -- the words of other blocks are out of reach of the last two writes
    intro d
    have hfar : ∀ d, ∀ y ∈ l d, a3.word y = a1.word y ∧ a3.word (y + 8) = a1.word (y + 8) := by
      intro d y hy
      have := hap d y hy
      exact ⟨(c3.word fun k _ _ => by omega).trans (c2.word fun k _ _ => by omega),
        (c3.word fun k _ _ => by omega).trans (c2.word fun k _ _ => by omega)⟩
    by_cases hd : d = c
    · subst hd
      rw [Chains.push_self]
      refine ⟨?_, w3, w1.congr (hfar _)⟩
      rw [c3.word fun k _ _ => by omega, w2, hhead]
    · rw [Chains.push_of_ne hd]
      refine (hc.linked d).congr ?_
      intro y hy
      have key : ∀ i, i = y ∨ i = y + 8 → a1.word i = a.word i := fun i hi =>
        c1.word fun k _ _ ⟨z, hz, _, _⟩ => by
          have := hl'.apart_of_ne hy hz fun h => hd (hl'.class_eq (h ▸ hy) hz)
          omega
      obtain ⟨f1, f2⟩ := hfar d y hy
      exact ⟨f1.trans (key _ (.inl rfl)), f2.trans (key _ (.inr rfl))⟩
  · refine ((c1.mono ?_).trans (c2.mono ?_)).trans (c3.mono ?_)
    · rintro k ⟨y, hy, hk, hk'⟩
      exact ⟨c, y, Chains.mem_push.2 (.inr hy), by omega, hk'⟩
    · exact fun k hk => ⟨c, x, by simp, hk.1, by omega⟩
    · exact fun k hk => ⟨c, x, by simp, by omega, hk.2⟩

/-- One half of a removal: the link of the block before `x`, or the head of the class if there is
none, skips `x`. -/
theorem skip_exists {a : Arena} {ix : FreeIndex} {xs ys : List Nat}
    (hc : Chained ⟨a, ix⟩ l) (hl : l.Spread a.size) (ha : a.size < Word.limit)
    (hlc : l c = xs ++ x :: ys) :
    ∃ a1 ix1, (∀ f : Arena × FreeIndex → Except Fault Pool,
        (if xs.getLastD nil = nil then pure (a, ix.setHead c (ys.headD nil)) >>= f
          else a.setNextFree (xs.getLastD nil) (ys.headD nil) >>= fun a => pure (a, ix) >>= f) =
            f (a1, ix1)) ∧
      Arena.Changed (fun k => ∃ y ∈ xs, y ≤ k ∧ k < y + 8) a a1 ∧
      (∀ d, ix1.head d = (l.drop x d).headD nil) ∧ a1.Linked nil xs (ys.headD nil) := by
  have hlk := (Arena.linked_append.1 (hlc ▸ hc.linked c)).1
  have hsub : ys ⊆ l c := fun y hy => by simp [hlc, hy]
  have hnext : ys.headD nil < Word.limit := hl.headD_lt ha hsub
  have hdrop : l.drop x c = xs ++ ys := hl.drop_eq hlc
  have hother : ∀ d, d ≠ c → l.drop x d = l d := fun d hd =>
    Chains.drop_of_not_mem fun h => hd (hl.class_eq h (d := c) (by simp [hlc]))
  rcases List.eq_nil_or_concat xs with rfl | ⟨zs, z, rfl⟩
  · refine ⟨a, ix.setHead c (ys.headD nil), ?_, .refl _ _, ?_, trivial⟩
    · intro f
      rw [List.getLastD_nil, if_pos rfl, pure_eq_ok, ok_bind]
    · intro d
      by_cases hd : d = c
      · subst hd; simp [hdrop]
      · rw [FreeIndex.head_setHead, if_neg hd, hother d hd]; exact hc.head d
  · rw [List.concat_eq_append] at *
    have hz : z ∈ l c := by simp [hlc]
    obtain ⟨a1, h1, c1, w1⟩ := Arena.setNextFree_exists (a := a) (b := z) (w := ys.headD nil)
      (by have := hl.inside c z hz; omega) ha hnext
    refine ⟨a1, ix, ?_, c1.mono fun k hk => ⟨z, by simp, hk⟩, ?_, ?_⟩
    · intro f
      have hlast : (zs ++ [z]).getLastD nil = z := by simp
      rw [hlast, if_neg (hl.ne_nil hz), h1, ok_bind, pure_eq_ok, ok_bind]
    · intro d
      by_cases hd : d = c
      · subst hd
        rw [hdrop, hc.head d, hlc]
        rcases zs with _ | ⟨w, zs⟩ <;> simp
      · rw [hother d hd]; exact hc.head d
    · refine hlk.set_next w1 (c1.word fun k _ _ => by omega) ?_
      intro y hy
      have hn := hl.nodup c
      rw [hlc] at hn
      have hne : y ≠ z := by
        intro h
        subst h
        exact (List.nodup_append.1 (List.nodup_append.1 hn).1).2.2 y hy y (by simp) rfl
      have := hl.apart_of_ne (x := y) (c := c) (by simp [hlc, hy]) hz hne
      exact ⟨c1.word fun k _ _ => by omega, c1.word fun k _ _ => by omega⟩

theorem remove_exists (hc : p.Chained l) (hl : l.Spread p.arena.size)
    (ha : p.arena.size < Word.limit) (hx : x ∈ l c) (ht : p.arena.header x = .ok t)
    (htc : sizeClass t.size = c) :
    ∃ p', p.remove x = .ok p' ∧ p'.Chained (l.drop x) ∧
      Arena.Changed l.LinkByte p.arena p'.arena := by
  obtain ⟨a, ix⟩ := p
  replace ha : a.size < Word.limit := ha
  replace hl : l.Spread a.size := hl
  obtain ⟨xs, ys, hlc⟩ := List.append_of_mem hx
  obtain ⟨-, hnx, hpv, hys⟩ := Arena.linked_append.1 (hlc ▸ hc.linked c)
  replace hnx : a.word x = ys.headD nil := hnx
  replace hpv : a.word (x + 8) = xs.getLastD nil := hpv
  have hin := hl.inside c x hx
  have hnext : a.nextFree x = .ok (ys.headD nil) := by
    rw [← hnx, Arena.nextFree_of_le (by omega) ha]
  have hprev : a.prevFree x = .ok (xs.getLastD nil) := by
    rw [← hpv, Arena.prevFree_of_le (by omega) ha]
  obtain ⟨a1, ix1, h1, c1, hd1, l1⟩ := skip_exists hc hl ha hlc
  have hn := hl.nodup c
  rw [hlc] at hn
  -- `x` and its neighbours are different blocks
  have hxs : ∀ y ∈ xs, y ≠ x ∧ ∀ z ∈ ys, y ≠ z := fun y hy =>
    ⟨fun h => (List.nodup_append.1 hn).2.2 y hy x (by simp) h,
      fun z hz h => (List.nodup_append.1 hn).2.2 y hy z (by simp [hz]) h⟩
  have hmx : ∀ y ∈ xs, y ∈ l c := fun y hy => by simp [hlc, hy]
  have hmy : ∀ y ∈ ys, y ∈ l c := fun y hy => by simp [hlc, hy]
  have hlast : xs.getLastD nil < Word.limit := by
    rw [← hpv]; exact Arena.word_lt a _
  have hys1 : a1.Linked x ys nil := hys.congr fun y hy =>
    ⟨c1.word fun k _ _ ⟨z, hz, _, _⟩ => by
        have := hl.apart_of_ne (hmx z hz) (hmy y hy) ((hxs z hz).2 y hy); omega,
      c1.word fun k _ _ ⟨z, hz, _, _⟩ => by
        have := hl.apart_of_ne (hmx z hz) (hmy y hy) ((hxs z hz).2 y hy); omega⟩
  -- the link of the block after `x`, if there is one, skips `x` too
  have hpw : ys.Pairwise fun y z => y + 24 ≤ z ∨ z + 24 ≤ y := by
    have := hl.pairwise c
    rw [hlc] at this
    exact (List.pairwise_cons.1 (List.pairwise_append.1 this).2.1).2
  obtain ⟨a2, h2, c2, l2⟩ := follow_exists hys1
    (fun y hy => ⟨hl.ne_nil (hmy y hy), c1.size ▸ (hl.inside c y (hmy y hy)).2⟩) hpw
    (c1.size ▸ ha) hlast
  refine ⟨⟨a2, ix1⟩, ?_, ⟨hd1, ?_⟩, ?_⟩
  · subst htc
    simp only [remove, ht, ok_bind, hprev, hnext]
    refine (h1 _).trans ?_
    exact h2 _
  · intro d
    by_cases hd : d = c
    · subst hd
      rw [hl.drop_eq hlc]
      refine Arena.linked_append.2 ⟨l1.congr ?_, l2⟩
      intro y hy
      have hw : ∀ i, i = y ∨ i = y + 8 → a2.word i = a1.word i := fun i hi =>
        c2.word fun k _ _ ⟨z, hz, _, _⟩ => by
          have := hl.apart_of_ne (hmx y hy) (hmy z hz) ((hxs y hy).2 z hz); omega
      exact ⟨hw _ (.inl rfl), hw _ (.inr rfl)⟩
    · have hxd : x ∉ l d := fun h => hd (hl.class_eq h hx)
      rw [Chains.drop_of_not_mem hxd]
      refine (hc.linked d).congr ?_
      intro y hy
      have hw : ∀ i, i = y ∨ i = y + 8 → a2.word i = a.word i := by
        intro i hi
        have hap : ∀ z ∈ l c, y + 24 ≤ z ∨ z + 24 ≤ y := fun z hz =>
          hl.apart_of_ne hy hz fun h => hd (hl.class_eq (h ▸ hy) hz)
        exact (c2.word fun k _ _ ⟨z, hz, _, _⟩ => by have := hap z (hmy z hz); omega).trans
          (c1.word fun k _ _ ⟨z, hz, _, _⟩ => by have := hap z (hmx z hz); omega)
      exact ⟨hw _ (.inl rfl), hw _ (.inr rfl)⟩
  · refine (c1.mono ?_).trans (c2.mono ?_)
    · rintro k ⟨y, hy, hk, hk'⟩
      exact ⟨c, y, hmx y hy, hk, by omega⟩
    · rintro k ⟨y, hy, hk, hk'⟩
      exact ⟨c, y, hmy y hy, by omega, hk'⟩

/-! ### Searching -/

/-- The links lead from `x` through the blocks of the list to the null link. -/
def Leads (a : Arena) : (x : Nat) → List Nat → Prop
  | x, [] => x = nil
  | x, y :: ys => x = y ∧ y ≠ nil ∧ Leads a (a.word y) ys

/-- The size in the header at `x`. -/
def sizeAt (a : Arena) (x : Nat) : Nat := (Tag.unpack (a.word (x - 8))).size

variable {a : Arena} {xs : List Nat} {n q k : Nat}

theorem leads_of_linked (h : a.Linked q xs nil) (h0 : ∀ y ∈ xs, y ≠ nil) :
    Leads a (xs.headD nil) xs := by
  induction xs generalizing q with
  | nil => rfl
  | cons y ys ih =>
    obtain ⟨h1, -, h3⟩ := h
    refine ⟨rfl, h0 y (by simp), ?_⟩
    rw [h1]
    exact ih h3 fun z hz => h0 z (by simp [hz])

theorem chainFrom_eq (h : Leads a x xs) (hin : ∀ y ∈ xs, y + 8 ≤ a.size)
    (ha : a.size < Word.limit) (k : Nat) : chainFrom a k x = .ok (xs.take k) := by
  induction k generalizing x xs with
  | zero => rfl
  | succ k ih =>
    rcases xs with _ | ⟨y, ys⟩
    · exact if_pos h
    · obtain ⟨rfl, h0, h⟩ := h
      rw [chainFrom, if_neg h0, Arena.nextFree_of_le (hin x (by simp)) ha, ok_bind,
        ih h fun z hz => hin z (by simp [hz])]
      rfl

theorem Chained.leads {z : Nat} (h : p.Chained l) (hl : l.Spread z) (c : SizeClass) :
    Leads p.arena (p.index.head c) (l c) := by
  rw [h.head]
  exact leads_of_linked (h.linked c) fun y hy => hl.ne_nil hy

/-- Following a chain gives its list. -/
theorem Chained.chain_eq (h : p.Chained l) (hl : l.Spread p.arena.size)
    (ha : p.arena.size < Word.limit) (c : SizeClass) (k : Nat) :
    p.chain c k = .ok ((l c).take k) := by
  refine chainFrom_eq (h.leads hl c) (fun y hy => ?_) ha k
  have := hl.inside c y hy
  omega

theorem searchChain_eq (h : Leads a x xs) (hin : ∀ y ∈ xs, 8 ≤ y ∧ y + 8 ≤ a.size)
    (ha : a.size < Word.limit) (hf : xs.length ≤ k) :
    searchChain a n k x = .ok (xs.find? fun y => n ≤ sizeAt a y) := by
  induction xs generalizing x k with
  | nil =>
    obtain rfl : x = nil := h
    cases k <;> rfl
  | cons y ys ih =>
    obtain ⟨rfl, h0, h⟩ := h
    obtain ⟨f, rfl⟩ : ∃ f, k = f + 1 := ⟨k - 1, by simp at hf; omega⟩
    obtain ⟨h8, hs⟩ := hin x (by simp)
    have ih := ih h (fun z hz => hin z (by simp [hz])) (k := f) (by simpa using hf)
    rw [searchChain, if_neg h0, Arena.nextFree_of_le hs ha, ok_bind,
      Arena.header_of_le h8 (by omega) ha, ok_bind, List.find?_cons]
    by_cases hn : n ≤ sizeAt a x
    · simp only [hn, decide_true]
      exact if_pos hn
    · simp only [hn, decide_false]
      exact (if_neg hn).trans ih

theorem length_le_of_nodup (hn : xs.Nodup) (h : ∀ y ∈ xs, y < n) : xs.length ≤ n := by
  rw [← List.toFinset_card_of_nodup hn, ← Finset.card_range n]
  exact Finset.card_le_card fun y hy => Finset.mem_range.2 (h y (List.mem_toFinset.1 hy))

/-- First fit finds the first large enough block, class by class, each class from its front. -/
theorem firstFit_eq (hl : ∀ c, Leads p.arena (p.index.head c) (l c)) (hn : ∀ c, (l c).Nodup)
    (hin : ∀ c, ∀ y ∈ l c, 8 ≤ y ∧ y + 8 ≤ p.arena.size) (ha : p.arena.size < Word.limit) :
    p.firstFit n = .ok (((List.finRange classCount).drop (sizeClass n).val).findSome? fun c =>
      (l c).find? fun y => n ≤ sizeAt p.arena y) := by
  unfold firstFit
  generalize (List.finRange classCount).drop (sizeClass n).val = cs
  induction cs with
  | nil => rfl
  | cons c cs ih =>
    have hlen := length_le_of_nodup (hn c) fun y hy =>
      show y < p.arena.size by have := hin c y hy; omega
    rw [searchClasses, searchChain_eq (hl c) (hin c) ha hlen, ok_bind, List.findSome?_cons]
    cases (l c).find? fun y => n ≤ sizeAt p.arena y with
    | some y => rfl
    | none => exact ih

end Pool

end SegregatedFit
