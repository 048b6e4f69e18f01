import SegregatedFit.Proofs.Links

/-!
# Free blocks in plain sequences

`Pool.Reached p l` are the pools that insertions and removals lead to, in any order and number, with
what the same calls make of plain sequences: an inserted block goes to the front of its class's, a
removed one is cut out of the one that has it. Others may write to the arena as long as they leave
headers and links of listed blocks alone. The chains of such a pool are the sequences, every further
call succeeds, and no byte changes but in links (`Pool.Reached.refines`).
-/

namespace SegregatedFit

/-! ### Sequences -/

namespace Chains

variable {l : Chains} {c : SizeClass} {x k z : Nat} {xs ys : List Nat}

theorem push_eq_update : l.push c x = Function.update l c (x :: l c) := by
  funext d
  by_cases hd : d = c
  · subst hd
    rw [push_self, Function.update_self]
  · rw [push_of_ne hd, Function.update_of_ne hd]

theorem Spread.drop_eq_update (h : l.Spread z) (hl : l c = xs ++ x :: ys) :
    l.drop x = Function.update l c (xs ++ ys) := by
  funext d
  by_cases hd : d = c
  · subst hd
    rw [h.drop_eq hl, Function.update_self]
  · rw [Function.update_of_ne hd]
    exact drop_of_not_mem fun hx => hd (h.class_eq hx (d := c) (by simp [hl]))

theorem mem_of_mem_drop {d : SizeClass} (h : k ∈ l.drop x d) : k ∈ l d := List.mem_of_mem_erase h

theorem Spread.drop (h : l.Spread z) (x : Nat) : (l.drop x).Spread z where
  nodup c := (h.nodup c).erase x
  inside c y hy := h.inside c y (mem_of_mem_drop hy)
  apart c d y hy w hw := h.apart c d y (mem_of_mem_drop hy) w (mem_of_mem_drop hw)

theorem Spread.push (h : l.Spread z) (hx : 8 ≤ x) (hz : x + 16 ≤ z)
    (hap : ∀ d, ∀ y ∈ l d, x + 24 ≤ y ∨ y + 24 ≤ x) : (l.push c x).Spread z := by
  refine ⟨fun d => ?_, fun d y hy => ?_, fun d e y hy w hw => ?_⟩
  · by_cases hd : d = c
    · subst hd
      rw [push_self]
      refine List.nodup_cons.2 ⟨fun hmem => ?_, h.nodup d⟩
      have := hap d x hmem
      omega
    · rw [push_of_ne hd]
      exact h.nodup d
  · rcases mem_push.1 hy with ⟨-, rfl⟩ | hy
    · exact ⟨hx, hz⟩
    · exact h.inside d y hy
  · rcases mem_push.1 hy with ⟨rfl, rfl⟩ | hy' <;> rcases mem_push.1 hw with ⟨rfl, rfl⟩ | hw'
    · exact .inl ⟨rfl, rfl⟩
    · exact .inr (hap e w hw')
    · exact .inr (hap d y hy').symm
    · exact h.apart d e y hy' w hw'

/-- Headers of listed blocks have no byte in common with their links. -/
theorem Spread.not_linkByte (h : l.Spread z) (hx : x ∈ l c) (hk : x - 8 ≤ k) (hk' : k < x) :
    ¬l.LinkByte k := by
  rintro ⟨d, y, hy, hyk, hky⟩
  have := (h.inside c x hx).1
  have := h.apart_of_ne hx hy (by omega)
  omega

end Chains

namespace Pool

variable {p : Pool} {l : Chains} {c : SizeClass} {x : Nat} {t : Tag} {xs : List Nat}

/-! ### Calls and what they show -/

/-- Header and links of a block at `x` are in the arena, apart from those of all listed blocks. -/
structure Admits (p : Pool) (l : Chains) (x : Nat) : Prop where
  low : 8 ≤ x
  high : x + 16 ≤ p.arena.size
  apart : ∀ c, ∀ y ∈ l c, x + 24 ≤ y ∨ y + 24 ≤ x

/-- Calls led to this pool, and on plain sequences the same calls lead to `l`. -/
inductive Reached : Pool → Chains → Prop
  | start {a : Arena} (ha : a.size < Word.limit) : Reached ⟨a, .empty⟩ fun _ => []
  | insert {p p' : Pool} {l : Chains} {x : Nat} {t : Tag} (h : Reached p l) (hx : p.Admits l x)
      (ht : p.arena.header x = .ok t) (hr : p.insert x = .ok p') :
      Reached p' (Function.update l (sizeClass t.size) (x :: l (sizeClass t.size)))
  | remove {p p' : Pool} {l : Chains} {c : SizeClass} {x : Nat} {xs ys : List Nat}
      (h : Reached p l) (hl : l c = xs ++ x :: ys) (hr : p.remove x = .ok p') :
      Reached p' (Function.update l c (xs ++ ys))
  /-- Others write, and may make the arena larger, but spare headers and links of listed blocks. -/
  | write {a a' : Arena} {index : FreeIndex} {l : Chains} (h : Reached ⟨a, index⟩ l)
      (hs : a.size ≤ a'.size) (ha : a'.size < Word.limit)
      (hk : ∀ c, ∀ x ∈ l c, ∀ k, x - 8 ≤ k → k < x + 16 → a'.byte k = a.byte k) :
      Reached ⟨a', index⟩ l

/-- Read in either direction, the chains are the sequences `l`. -/
structure Shows (p : Pool) (l : Chains) : Prop where
  head : ∀ c, p.index.head c = (l c).headD nil
  /-- The chain yields the sequence, and then it stops. -/
  chain : ∀ c k, p.chain c k = .ok ((l c).take k)
  prevFree : ∀ c xs x ys, l c = xs ++ x :: ys → p.arena.prevFree x = .ok (xs.getLastD nil)

/-- A call for the block at `x` leaves the chains `l`, and no byte changed but in links. -/
structure Leaves (p p' : Pool) (x : Nat) (l : Chains) : Prop where
  shows : p'.Shows l
  changed : Arena.Changed (fun k => l.LinkByte k ∨ x ≤ k ∧ k < x + 16) p.arena p'.arena

/-- The chains are the sequences `l`, and so they are after another call. -/
structure Refines (p : Pool) (l : Chains) : Prop where
  shows : p.Shows l
  insert : ∀ x, p.Admits l x → ∃ t p', p.arena.header x = .ok t ∧ p.insert x = .ok p' ∧
    p.Leaves p' x (Function.update l (sizeClass t.size) (x :: l (sizeClass t.size)))
  remove : ∀ c xs x ys, l c = xs ++ x :: ys → ∃ p', p.remove x = .ok p' ∧
    p.Leaves p' x (Function.update l c (xs ++ ys))

/-! ### Playing insertions -/

instance : Decidable (p.Admits l x) :=
  decidable_of_iff (8 ≤ x ∧ x + 16 ≤ p.arena.size ∧ ∀ c, ∀ y ∈ l c, x + 24 ≤ y ∨ y + 24 ≤ x)
    ⟨fun ⟨h1, h2, h3⟩ => ⟨h1, h2, h3⟩, fun h => ⟨h.low, h.high, h.apart⟩⟩

/-- Inserts blocks one after another, if they may be inserted. -/
def inserts (p : Pool) (l : Chains) : List Nat → Option (Pool × Chains)
  | [] => some (p, l)
  | x :: xs =>
    if p.Admits l x then
      match p.arena.header x, p.insert x with
      | .ok t, .ok p' =>
        p'.inserts (Function.update l (sizeClass t.size) (x :: l (sizeClass t.size))) xs
      | _, _ => none
    else none

theorem Reached.inserts {l' : Chains} (h : Reached p l)
    (hi : p.inserts l xs = some (p', l')) : Reached p' l' := by
  induction xs generalizing p l with
  | nil => cases hi; exact h
  | cons x xs ih =>
    rw [Pool.inserts] at hi
    split at hi
    · next hx =>
      split at hi
      · next t q ht hr => exact ih (h.insert hx ht hr) hi
      · cases hi
    · cases hi

/-- Inserts blocks of an arena into empty chains. -/
def play (a : Arena) (xs : List Nat) : Option (Pool × Chains) :=
  if a.size < Word.limit then inserts ⟨a, .empty⟩ (fun _ => []) xs else none

theorem reached_of_play {a : Arena} (h : play a xs = some (p, l)) : Reached p l := by
  rw [play] at h
  split at h
  · next ha => exact (Reached.start ha).inserts h
  · cases h

/-- Free blocks of 48, 64 and 256 bytes, inserted in that order. -/
def sample : Option (Pool × Chains) :=
  let blocks : Except Fault Arena := do
    let a ← ((Arena.empty 64 ⟨4, rfl⟩).extend 432).markFree 32 48 true
    let a ← a.markFree 80 64 true
    a.markFree 144 256 true
  match blocks with
  | .ok a => play a [32, 80, 144]
  | .error _ => none

theorem reached_sample (h : sample = some (p, l)) : Reached p l := by
  unfold sample at h
  dsimp only at h
  split at h
  · exact reached_of_play h
  · cases h

theorem sample_lists : sample.map (fun q => (q.2 1, q.2 3)) = some ([80, 32], [144]) := by
  decide +kernel

/-! ### The invariant -/

/-- Heads and links spell out the lists, each of which has blocks of its own class only. -/
structure Files (p : Pool) (l : Chains) : Prop where
  addressable : p.arena.size < Word.limit
  spread : l.Spread p.arena.size
  chained : p.Chained l
  class_eq : ∀ c, ∀ x ∈ l c, sizeClass (sizeAt p.arena x) = c

theorem sizeAt_congr {a a' : Arena} (h : ∀ k, x - 8 ≤ k → k < x → a'.byte k = a.byte k)
    (hx : 8 ≤ x) : sizeAt a' x = sizeAt a x := by
  rw [sizeAt, sizeAt, Arena.word_congr fun k hk => h _ (by omega) (by omega)]

/-- Where only links change, blocks keep their sizes. -/
theorem sizeAt_of_changed {a a' : Arena} (hl : l.Spread a.size)
    (hch : Arena.Changed l.LinkByte a a') (hx : x ∈ l c) : sizeAt a' x = sizeAt a x :=
  sizeAt_congr (fun _ hk hk' => hch.byte _ (hl.not_linkByte hx hk hk')) (hl.inside c x hx).1

namespace Files

theorem header (h : p.Files l) (hx : x ∈ l c) :
    ∃ t, p.arena.header x = .ok t ∧ sizeClass t.size = c := by
  have hin := h.spread.inside c x hx
  exact ⟨_, Arena.header_of_le hin.1 (by omega) h.addressable, h.class_eq c x hx⟩

theorem shows (h : p.Files l) : p.Shows l := by
  refine ⟨h.chained.head, h.chained.chain_eq h.spread h.addressable, fun c xs x ys hl => ?_⟩
  have hin := h.spread.inside c x (by simp [hl])
  have hlinked := h.chained.linked c
  rw [hl, Arena.linked_append] at hlinked
  rw [Arena.prevFree_of_le hin.2 h.addressable, hlinked.2.2.1]

theorem start {a : Arena} (ha : a.size < Word.limit) : Files ⟨a, .empty⟩ fun _ => [] where
  addressable := ha
  spread := ⟨fun _ => List.nodup_nil, nofun, nofun⟩
  chained := ⟨fun _ => FreeIndex.head_empty, fun _ => trivial⟩
  class_eq := nofun

theorem insert_exists (h : p.Files l) (hx : p.Admits l x) (ht : p.arena.header x = .ok t) :
    ∃ p', p.insert x = .ok p' ∧ p'.Files (l.push (sizeClass t.size) x) ∧
      Arena.Changed (l.push (sizeClass t.size) x).LinkByte p.arena p'.arena := by
  have hsp := h.spread.push (c := sizeClass t.size) hx.low hx.high hx.apart
  obtain ⟨p', hr, hc, hch⟩ := Pool.insert_exists h.chained hsp h.addressable ht rfl
  refine ⟨p', hr, ⟨by rw [hch.size]; exact h.addressable, by rw [hch.size]; exact hsp, hc, ?_⟩, hch⟩
  intro d y hy
  rw [sizeAt_of_changed hsp hch hy]
  rcases Chains.mem_push.1 hy with ⟨rfl, rfl⟩ | hy
  · rw [Arena.header_of_le hx.low (by have := hx.high; omega) h.addressable] at ht
    rw [sizeAt, Except.ok.inj ht]
  · exact h.class_eq d y hy

theorem remove_exists (h : p.Files l) (hx : x ∈ l c) :
    ∃ p', p.remove x = .ok p' ∧ p'.Files (l.drop x) ∧
      Arena.Changed l.LinkByte p.arena p'.arena := by
  obtain ⟨t, ht, htc⟩ := h.header hx
  obtain ⟨p', hr, hc, hch⟩ := Pool.remove_exists h.chained h.spread h.addressable hx ht htc
  refine ⟨p', hr, ⟨by rw [hch.size]; exact h.addressable, ?_, hc, ?_⟩, hch⟩
  · rw [hch.size]
    exact h.spread.drop x
  · intro d y hy
    have hy := Chains.mem_of_mem_drop hy
    rw [sizeAt_of_changed h.spread hch hy]
    exact h.class_eq d y hy

theorem write {a a' : Arena} {index : FreeIndex} (h : Files ⟨a, index⟩ l) (hs : a.size ≤ a'.size)
    (ha : a'.size < Word.limit)
    (hk : ∀ c, ∀ x ∈ l c, ∀ k, x - 8 ≤ k → k < x + 16 → a'.byte k = a.byte k) :
    Files ⟨a', index⟩ l := by
  refine ⟨ha, ?_, ⟨h.chained.head, fun c => (h.chained.linked c).congr fun x hx => ?_⟩,
    fun c x hx => ?_⟩
  · exact { h.spread with inside := fun c x hx =>
      (h.spread.inside c x hx).imp_right fun hle => Nat.le_trans hle hs }
  · have hx' := hk c x hx
    exact ⟨Arena.word_congr fun k _ => hx' _ (by omega) (by omega),
      Arena.word_congr fun k _ => hx' _ (by omega) (by omega)⟩
  · rw [show sizeAt a' x = sizeAt a x from
      sizeAt_congr (fun k h h' => hk c x hx k h (by omega)) (h.spread.inside c x hx).1]
    exact h.class_eq c x hx

end Files

/-- Whatever calls are made, the chains stay what the sequences say. -/
theorem Reached.files (h : Reached p l) : p.Files l := by
  induction h with
  | start ha => exact .start ha
  | insert _ hx ht hr ih =>
    obtain ⟨p', hr', hfiles, -⟩ := ih.insert_exists hx ht
    obtain rfl := Except.ok.inj (hr.symm.trans hr')
    rwa [← Chains.push_eq_update]
  | @remove p p' l c x xs ys _ hl hr ih =>
    obtain ⟨q, hr', hfiles, -⟩ := ih.remove_exists (c := c) (x := x) (by simp [hl])
    obtain rfl := Except.ok.inj (hr.symm.trans hr')
    rwa [← ih.spread.drop_eq_update hl]
  | write _ hs ha hk ih => exact ih.write hs ha hk

/-- The chains of a pool are plain sequences to those who call it. -/
theorem Reached.refines (h : Reached p l) : p.Refines l := by
  have hfiles := h.files
  refine ⟨hfiles.shows, fun x hx => ?_, fun c xs x ys hl => ?_⟩
  · have ht := Arena.header_of_le hx.low (by have := hx.high; omega) hfiles.addressable
    obtain ⟨p', hr, hfiles', hch⟩ := hfiles.insert_exists hx ht
    rw [Chains.push_eq_update] at hfiles' hch
    exact ⟨_, p', ht, hr, hfiles'.shows, hch.mono fun k hk => .inl hk⟩
  · obtain ⟨p', hr, hfiles', hch⟩ := hfiles.remove_exists (c := c) (x := x) (by simp [hl])
    rw [hfiles.spread.drop_eq_update hl] at hfiles'
    refine ⟨p', hr, hfiles'.shows, hch.mono ?_⟩
    rintro k ⟨d, y, hy, hk⟩
    by_cases hyx : y = x
    · exact .inr (hyx ▸ hk)
    · refine .inl ⟨d, y, ?_, hk⟩
      rw [← hfiles.spread.drop_eq_update hl]
      exact (Chains.mem_drop (hfiles.spread.nodup d)).2 ⟨hyx, hy⟩

theorem refines_sample : ∃ p l, sample = some (p, l) ∧ Reached p l ∧ l 1 = [80, 32] ∧
    p.Refines l := by
  obtain ⟨⟨p, l⟩, hs, hlists⟩ := Option.map_eq_some_iff.1 sample_lists
  have hr := reached_sample hs
  exact ⟨p, l, hs, hr, (Prod.mk.inj hlists).1, Reached.refines hr⟩

end Pool

end SegregatedFit
