import SegregatedFit.Proofs.Atomicity

/-!
# What the provider is asked for

Operations report what they ask the provider for and whether it was granted (`requests`, `grants`).
`HeapM.Asks n x` says that `x` makes at most `n` requests and that its reports are true: afterwards
source and size of the arena are those after just these requests, and as many extensions are counted
as were granted. Where `x` does not stop, all were granted. Every operation asks once at most, apart
from a resize, for which the steps alone show no better bound than two
(`Call.asks_perform`).
-/

namespace SegregatedFit

/-! ### Reports -/

namespace Event

/-- The size that the provider was asked for. -/
def request : Event → Option Nat
  | extended size _ => some size
  | extensionFailed size _ => some size
  | _ => none

/-- The size that the provider granted. -/
def grant : Event → Option Nat
  | extended size _ => some size
  | _ => none

end Event

/-- What was asked for, request by request. -/
def requests (l : List Event) : List Nat := l.filterMap Event.request

/-- What was granted, request by request. -/
def grants (l : List Event) : List Nat := l.filterMap Event.grant

theorem requests_append (l l' : List Event) : requests (l ++ l') = requests l ++ requests l' :=
  List.filterMap_append

theorem grants_append (l l' : List Event) : grants (l ++ l') = grants l ++ grants l' :=
  List.filterMap_append

/-! ### Providers -/

namespace Arena

/-- Only bytes differ. -/
structure Coextensive (a a' : Arena) : Prop where
  base : a'.base = a.base
  size : a'.size = a.size

theorem Coextensive.refl (a : Arena) : Coextensive a a := ⟨rfl, rfl⟩

theorem Coextensive.trans {a a' a'' : Arena} (h : Coextensive a a') (h' : Coextensive a' a'') :
    Coextensive a a'' :=
  ⟨h'.base.trans h.base, h'.size.trans h.size⟩

end Arena

namespace Provider

/-- Only bytes differ. -/
structure Akin (p q : Provider) : Prop where
  source : q.source = p.source
  arena : p.arena.Coextensive q.arena

theorem Akin.refl (p : Provider) : Akin p p := ⟨rfl, .refl _⟩

theorem Akin.trans {p q r : Provider} (h : Akin p q) (h' : Akin q r) : Akin p r :=
  ⟨h'.source.trans h.source, h.arena.trans h'.arena⟩

/-- After requests for `ns`, one after another. -/
def asked (p : Provider) : List Nat → Provider
  | [] => p
  | n :: ns => (p.grow n).1.asked ns

variable {p q : Provider} {n : Nat}

theorem asked_append (p : Provider) (ns ns' : List Nat) :
    p.asked (ns ++ ns') = (p.asked ns).asked ns' := by
  induction ns generalizing p with
  | nil => rfl
  | cons n ns ih => exact ih _

/-- Bytes play no part in a request. -/
theorem Akin.grow (h : Akin p q) (n : Nat) :
    Akin (p.grow n).1 (q.grow n).1 ∧ (q.grow n).2 = (p.grow n).2 := by
  obtain ⟨a, _⟩ := p
  obtain ⟨a', source⟩ := q
  obtain ⟨rfl, hbase, hsize⟩ := h
  simp only at hbase hsize
  simp only [Provider.grow, hbase, hsize]
  rcases source.request a.base a.size n with ⟨t, e | ⟨⟩⟩
  · exact ⟨⟨rfl, hbase, hsize⟩, rfl⟩
  · exact ⟨⟨rfl, hbase, congrArg (· + n) hsize⟩, rfl⟩

theorem Akin.asked (h : Akin p q) (ns : List Nat) : Akin (p.asked ns) (q.asked ns) := by
  induction ns generalizing p q with
  | nil => exact h
  | cons n ns ih => exact ih (h.grow n).1

end Provider

/-! ### Operations that keep the extent of the arena -/

/-- The arena that comes out of `x`, if one does, has the extent of `a`. -/
def Arena.Extent {β : Type} (a : Arena) (arena : β → Arena) (x : Except Fault β) : Prop :=
  ∀ r, x = .ok r → a.Coextensive (arena r)

namespace Arena.Extent

variable {β γ : Type} {a a' : Arena} {f : β → Arena} {g : γ → Arena} {x : Except Fault β}
  {k : β → Except Fault γ} {p : Pool} {b i n w z : Nat} {q : Bool} {t : Tag}

protected theorem pure {r : β} (h : a.Coextensive (f r)) : a.Extent f (pure r) := by
  rintro _ ⟨⟩; exact h

theorem bind (hx : a.Extent f x) (hk : ∀ r, a.Coextensive (f r) → a.Extent g (k r)) :
    a.Extent g (x >>= k) := by
  intro s hs
  obtain ⟨r, hr, hs⟩ := bind_eq_ok_iff.1 hs
  exact hk r (hx r hr) s hs

/-- Reading comes before. -/
theorem read (hk : ∀ r, a.Extent g (k r)) : a.Extent g (x >>= k) := by
  intro s hs
  obtain ⟨r, -, hs⟩ := bind_eq_ok_iff.1 hs
  exact hk r s hs

theorem writeWord (h : a.Coextensive a') : a.Extent id (a'.writeWord i w) :=
  .read fun _ => .pure ⟨base_fill.trans h.base, size_fill.trans h.size⟩

theorem setHeader (h : a.Coextensive a') : a.Extent id (a'.setHeader b t) :=
  .read fun _ => .writeWord h

theorem setFooter (h : a.Coextensive a') : a.Extent id (a'.setFooter b t) :=
  .read fun _ => .writeWord h

theorem markFree (h : a.Coextensive a') : a.Extent id (a'.markFree b z q) :=
  .bind (.setHeader h) fun _ h => .setFooter h

theorem setPrevAllocated (h : a.Coextensive a') : a.Extent id (a'.setPrevAllocated b q) := by
  refine .read fun t => .bind (.setHeader h) fun a'' h => ?_
  split
  · exact .pure h
  · exact .setFooter h

theorem setNextFree (h : a.Coextensive a') : a.Extent id (a'.setNextFree b i) := .writeWord h

theorem setPrevFree (h : a.Coextensive a') : a.Extent id (a'.setPrevFree b i) :=
  .read fun _ => .writeWord h

theorem clear (h : a.Coextensive a') : a.Extent id (a'.clear b n) :=
  .read fun _ => .pure ⟨base_fill.trans h.base, size_fill.trans h.size⟩

theorem copyWithin (h : a.Coextensive a') : a.Extent id (a'.copyWithin b n i) :=
  .read fun _ => .read fun _ => .pure ⟨base_fill.trans h.base, size_fill.trans h.size⟩

theorem insert (h : a.Coextensive p.arena) : a.Extent Pool.arena (p.insert b) := by
  obtain ⟨a', x⟩ := p
  have hrest : ∀ {head : Nat} {x : FreeIndex} {a' : Arena}, a.Coextensive a' →
      a.Extent Pool.arena (do
        let a ← a'.setNextFree b head
        let a ← a.setPrevFree b nil
        pure ⟨a, x⟩) :=
    fun h => .bind (.setNextFree h) fun _ h => .bind (.setPrevFree h) fun _ h => .pure h
  refine .read fun t => ?_
  simp only
  split
  · exact .bind (.pure h) fun _ h => hrest h
  · exact .bind (.setPrevFree h) fun _ h => hrest h

theorem remove (h : a.Coextensive p.arena) : a.Extent Pool.arena (p.remove b) := by
  obtain ⟨a', x⟩ := p
  have hrest : ∀ {next prev : Nat} {x : FreeIndex} {a' : Arena}, a.Coextensive a' →
      a.Extent Pool.arena (do
        let a ← if next = nil then pure a' else a'.setPrevFree next prev
        pure ⟨a, x⟩) := by
    intro next prev x a' h
    simp only
    split
    · exact .pure h
    · exact .bind (.setPrevFree h) fun _ h => .pure h
  refine .read fun t => .read fun prev => .read fun next => ?_
  simp only
  split
  · exact hrest h
  · exact .bind (.setNextFree h) fun _ h => hrest h

theorem coalesce (h : a.Coextensive p.arena) : a.Extent (·.2.arena) (p.coalesce b) := by
  obtain ⟨a', x⟩ := p
  have hmark : ∀ {start size : Nat} {prevAllocated : Bool} {merge : Merge} {p : Pool},
      a.Coextensive p.arena → a.Extent (fun r : Merge × Pool => r.2.arena) (do
        let a ← p.arena.markFree start size prevAllocated
        let after ← Word.add start size
        let a ← a.setPrevAllocated after false
        pure (merge, ⟨a, p.index⟩)) :=
    fun h => .bind (.markFree h) fun _ h => .read fun _ => .bind (.setPrevAllocated h) fun _ h =>
      .pure h
  refine .read fun tag => .read fun next => .read fun nextTag => ?_
  simp only
  split
  · refine .bind (f := fun r : Nat × Nat × Bool × Pool => r.2.2.2.arena) (.pure h) fun r h => ?_
    split
    · exact .bind (f := fun r : Nat × Pool => r.2.arena) (.pure h) fun _ h => hmark h
    · exact .bind (.remove h) fun _ h => .read fun _ =>
        .bind (f := fun r : Nat × Pool => r.2.arena) (.pure h) fun _ h => hmark h
  · refine .read fun prev => .read fun prevTag => .bind (.remove h) fun _ h => .read fun size =>
      .bind (f := fun r : Nat × Nat × Bool × Pool => r.2.2.2.arena) (.pure h) fun r h => ?_
    split
    · exact .bind (f := fun r : Nat × Pool => r.2.arena) (.pure h) fun _ h => hmark h
    · exact .bind (.remove h) fun _ h => .read fun _ =>
        .bind (f := fun r : Nat × Pool => r.2.arena) (.pure h) fun _ h => hmark h

theorem join (h : a.Coextensive p.arena) : a.Extent (·.2.arena) (p.join b) :=
  .bind (.coalesce h) fun _ h => .bind (.insert h) fun _ h => .pure h

theorem mergeFree (h : a.Coextensive p.arena) : a.Extent (·.2.arena) (p.mergeFree b z q) := by
  obtain ⟨a', x⟩ := p
  exact .bind (.markFree h) fun _ h => .join h

theorem adopt (h : a.Coextensive p.arena) : a.Extent (·.2.arena) (p.adopt b z) := by
  obtain ⟨a', x⟩ := p
  exact .read fun _ => .bind (.markFree h) fun _ h => .read fun _ => .bind (.setHeader h)
    fun _ h => .join h

theorem carve (h : a.Coextensive p.arena) : a.Extent Pool.arena (p.carve b z n q) := by
  obtain ⟨a', x⟩ := p
  refine .read fun remainder => ?_
  split
  · exact .bind (.setHeader h) fun _ h => .read fun _ => .bind (.markFree h) fun _ h => .insert h
  · exact .bind (.setHeader h) fun _ h => .read fun _ => .bind (.setPrevAllocated h) fun _ h =>
      .pure h

theorem place (h : a.Coextensive p.arena) : a.Extent Pool.arena (p.place b n) :=
  .read fun _ => .bind (.remove h) fun _ h => .carve h

theorem absorb (h : a.Coextensive p.arena) : a.Extent Pool.arena (p.absorb b i z n q) :=
  .bind (.remove h) fun _ h => .carve h

theorem trim (h : a.Coextensive p.arena) : a.Extent (·.2.arena) (p.trim b t n) := by
  obtain ⟨a', x⟩ := p
  refine .read fun remainder => ?_
  split
  · exact .pure h
  · exact .bind (.setHeader h) fun _ h => .read fun _ => .bind (.mergeFree h) fun _ h => .pure h

end Arena.Extent

/-! ### Operations -/

/-- `out` came of at most `n` requests, all of them reported. -/
structure Outcome.Asked {α : Type} (n : Nat) (h : Heap) (out : Outcome α) : Prop where
  provider : (h.provider.asked (requests out.events)).Akin out.heap.provider
  size : out.heap.size = h.size + (grants out.events).sum
  /-- No grant is smaller than a block. -/
  grant_ge : ∀ k ∈ grants out.events, 32 ≤ k
  counted : out.heap.stats.heapExtensions = h.stats.heapExtensions + (grants out.events).length
  start : out.heap.start = h.start
  config : out.heap.config = h.config
  atMost : (requests out.events).length ≤ n
  /-- A refusal is an error. -/
  granted : ∀ a, out.result = .ok a → requests out.events = grants out.events

namespace Outcome.Asked

variable {α β : Type} {m n : Nat} {h k : Heap} {out : Outcome α} {out' : Outcome β}

theorem mono (ho : out.Asked m h) (hle : m ≤ n) : out.Asked n h :=
  { ho with atMost := Nat.le_trans ho.atMost hle }

theorem requests_eq_nil (ho : out.Asked 0 h) : requests out.events = [] :=
  List.length_eq_zero_iff.1 (Nat.le_zero.1 ho.atMost)

/-- Nothing was asked. -/
theorem of_provider {r : Except Error α} {l : List Event} (hp : h.provider.Akin k.provider)
    (hc : k.stats.heapExtensions = h.stats.heapExtensions) (hs : k.start = h.start)
    (hg : k.config = h.config) (hl : ∀ e ∈ l, e.request = none) : (Outcome.mk r k l).Asked 0 h := by
  have hreq : requests l = [] := List.filterMap_eq_nil_iff.2 hl
  have hgrant : grants l = [] := by
    refine List.filterMap_eq_nil_iff.2 fun e he => ?_
    have hnone := hl e he
    cases e <;> first | rfl | cases hnone
  refine ⟨by rw [hreq]; exact hp, ?_, by rw [hgrant]; exact List.forall_mem_nil _,
    by rw [hgrant]; exact hc, hs, hg, by rw [hreq]; exact Nat.le_refl 0,
    fun _ _ => hreq.trans hgrant.symm⟩
  rw [hgrant]
  exact hp.arena.size

theorem after {a : α} {l : List Event} (ho : (Outcome.mk (.ok a) k l).Asked m h)
    (ho' : out'.Asked n k) : (out'.after l).Asked (m + n) h := by
  have hgranted : requests l = grants l := ho.granted a rfl
  have hsize : k.size = h.size + (grants l).sum := ho.size
  have hcounted : k.stats.heapExtensions = h.stats.heapExtensions + (grants l).length := ho.counted
  have hatMost : (requests l).length ≤ m := ho.atMost
  refine ⟨?_, ?_, ?_, ?_, ho'.start.trans ho.start, ho'.config.trans ho.config, ?_, ?_⟩ <;>
    simp only [Outcome.after, requests_append, grants_append]
  · rw [Provider.asked_append]
    exact (ho.provider.asked _).trans ho'.provider
  · rw [ho'.size, hsize, List.sum_append, Nat.add_assoc]
  · intro j hj
    exact (List.mem_append.1 hj).elim (ho.grant_ge j) (ho'.grant_ge j)
  · rw [ho'.counted, hcounted, List.length_append, Nat.add_assoc]
  · rw [List.length_append]
    exact Nat.add_le_add hatMost ho'.atMost
  · intro b hb
    rw [hgranted, ho'.granted b hb]

end Outcome.Asked

namespace Stats

theorem heapExtensions_of_recordExtension {s t : Stats} (h : s.recordExtension = .ok t) :
    t.heapExtensions = s.heapExtensions + 1 := by
  obtain ⟨_, hadd, ht⟩ := bind_eq_ok_iff.1 h
  obtain ⟨-, rfl⟩ := Word.add_eq_ok_iff.1 hadd
  cases ht; rfl

end Stats

namespace HeapM

variable {α β : Type} {m n : Nat} {x : HeapM α} {f : α → HeapM β}

/-- `x` makes at most `n` requests, and reports them. -/
structure Asks (n : Nat) (x : HeapM α) : Prop where
  asked : ∀ {h out}, x.run h = .ok out → out.Asked n h

namespace Asks

theorem mono (hx : Asks m x) (hle : m ≤ n) : Asks n x :=
  ⟨fun hr => (hx.asked hr).mono hle⟩

protected theorem pure (a : α) : Asks 0 (pure a : HeapM α) where
  asked := by rintro h _ ⟨⟩; exact .of_provider (.refl _) rfl rfl rfl (List.forall_mem_nil _)

theorem throw (e : Error) : Asks 0 (throw e : HeapM α) where
  asked := by rintro h _ ⟨⟩; exact .of_provider (.refl _) rfl rfl rfl (List.forall_mem_nil _)

theorem emit {e : Event} (he : e.request = none) : Asks 0 (HeapM.emit e) where
  asked := by rintro h _ ⟨⟩; exact .of_provider (.refl _) rfl rfl rfl (by simpa using he)

theorem ask (g : Heap → Fallible α) : Asks 0 (HeapM.ask g) where
  asked {h out} hr := by
    simp only [HeapM.run, HeapM.ask] at hr
    rcases hx : (g h).run with fault | r <;> rw [hx] at hr <;> cases hr
    exact .of_provider (.refl _) rfl rfl rfl (List.forall_mem_nil _)

theorem ofChecked (c : Except Fault α) : Asks 0 (HeapM.ofChecked c) where
  asked {h out} hr := by
    rcases c with fault | a <;> cases hr
    exact .of_provider (.refl _) rfl rfl rfl (List.forall_mem_nil _)

theorem updatePool {g : Pool → Except Fault (α × Pool)}
    (hg : ∀ p : Pool, p.arena.Extent (·.2.arena) (g p)) : Asks 0 (HeapM.updatePool g) where
  asked {h out} hr := by
    obtain ⟨⟨arena, source⟩, config, index, start, stats⟩ := h
    simp only [HeapM.run, HeapM.updatePool] at hr
    rcases hx : g ⟨arena, index⟩ with fault | ⟨a, p⟩ <;> rw [hx] at hr <;> cases hr
    exact .of_provider ⟨rfl, hg ⟨arena, index⟩ _ hx⟩ rfl rfl rfl (List.forall_mem_nil _)

theorem updateArena {g : Arena → Except Fault Arena} (hg : ∀ a : Arena, a.Extent id (g a)) :
    Asks 0 (HeapM.updateArena g) :=
  updatePool fun ⟨a, _⟩ => .bind (hg a) fun _ h => .pure h

theorem updateStats {g : Stats → Except Fault Stats}
    (hg : ∀ s t, g s = .ok t → t.heapExtensions = s.heapExtensions) :
    Asks 0 (HeapM.updateStats g) where
  asked {h out} hr := by
    simp only [HeapM.run, HeapM.updateStats] at hr
    rcases hx : g h.stats with fault | t <;> rw [hx] at hr <;> cases hr
    exact .of_provider (.refl _) (hg _ _ hx) rfl rfl (List.forall_mem_nil _)

theorem bind (hx : Asks m x) (hf : ∀ a, Asks n (f a)) : Asks (m + n) (x >>= f) where
  asked {h out} hr := by
    rcases run_bind_eq_ok hr with ⟨e, k, l, hr₁, rfl⟩ | ⟨a, k, l, out', hr₁, hr₂, rfl⟩
    · have ho := hx.asked hr₁
      exact { ho with atMost := Nat.le_trans ho.atMost (Nat.le_add_right ..), granted := by rintro _ ⟨⟩ }
    · exact (hx.asked hr₁).after ((hf a).asked hr₂)

/-- Nothing is asked before. -/
theorem step (hx : Asks 0 x) (hf : ∀ a, Asks n (f a)) : Asks n (x >>= f) :=
  (hx.bind hf).mono (Nat.le_of_eq (Nat.zero_add n))

theorem header (bp : Nat) : Asks 0 (HeapM.header bp) := ask _

theorem offsetOf (address : Nat) : Asks 0 (HeapM.offsetOf address) := ask _

theorem reportMerge (m : Merge) : Asks 0 (HeapM.reportMerge m) := (emit rfl).step fun _ => .pure _

end Asks

/-! ### Growing -/

theorem run_updatePool_of_fault {h : Heap} {g : Pool → Except Fault (α × Pool)} {fault : Fault}
    (hg : g h.pool = .error fault) : (updatePool g).run h = .error fault := by
  obtain ⟨⟨arena, source⟩, config, index, start, stats⟩ := h
  simp only [run, updatePool, show g ⟨arena, index⟩ = .error fault from hg]

/-- What is left to do when the bytes have been granted. -/
theorem adopt_cases {h : Heap} {x : Nat} {out : Outcome Nat} (hr : (do
      updateStats (·.recordExtension)
      let merge ← updatePool (·.adopt x n)
      let bp ← reportMerge merge
      let heapSize ← ask fun h => pure h.size
      emit (.extended n heapSize)
      pure bp : HeapM Nat).run h = .ok out) :
    ∃ bp k merged size, out = ⟨.ok bp, k, [merged, .extended n size]⟩ ∧ merged.request = none ∧
      h.provider.Akin k.provider ∧ k.stats.heapExtensions = h.stats.heapExtensions + 1 ∧
      k.start = h.start ∧ k.config = h.config := by
  rcases hs : Stats.recordExtension h.stats with fault | s
  · rw [run_bind_of_fault (run_updateStats_of_fault hs)] at hr
    cases hr
  obtain ⟨_, hr₁, rfl⟩ := exists_run_of_bind (run_updateStats hs) hr
  rcases hp : Pool.adopt (h.withStats s).pool x n with fault | ⟨merge, p⟩
  · rw [run_bind_of_fault (run_updatePool_of_fault hp)] at hr₁
    cases hr₁
  obtain ⟨_, hr₂, rfl⟩ := exists_run_of_bind (run_updatePool hp) hr₁
  cases hr₂
  refine ⟨merge.offset, _, _, _, rfl, rfl, ⟨rfl, Arena.Extent.adopt (.refl _) _ hp⟩, ?_, rfl, rfl⟩
  exact Stats.heapExtensions_of_recordExtension hs

/-- An extension asks once, unless what is needed is no word when it is rounded up. -/
theorem extend_cases {h : Heap} {bytes : Nat} {out : Outcome Nat}
    (hr : (extend bytes).run h = .ok out) :
    alignUp? bytes = none ∧ out = ⟨.error .sizeOverflow, h, []⟩ ∨
    ∃ k q, alignUp? bytes = some k ∧
      ((∃ e, h.provider.grow (max k minBlockSize) = (q, .error e) ∧
        out = ⟨.error e, { h with provider := q }, [.extensionFailed (max k minBlockSize) e]⟩) ∨
      ∃ x bp k' merged size, h.provider.grow (max k minBlockSize) = (q, .ok x) ∧
        out = ⟨.ok bp, k', [merged, .extended (max k minBlockSize) size]⟩ ∧
        merged.request = none ∧ q.Akin k'.provider ∧
        k'.stats.heapExtensions = h.stats.heapExtensions + 1 ∧ k'.start = h.start ∧
        k'.config = h.config) := by
  unfold extend growthSize at hr
  rcases hk : alignUp? bytes with _ | k <;> simp only [hk] at hr
  · cases hr
    exact .inl ⟨rfl, rfl⟩
  obtain ⟨_, hr₁, rfl⟩ := exists_run_of_bind (a := max k minBlockSize) (k := h) (l := []) rfl hr
  refine .inr ⟨k, (h.provider.grow (max k minBlockSize)).1, rfl, ?_⟩
  generalize max k minBlockSize = n at hr₁ ⊢
  rcases hg : h.provider.grow n with ⟨q, e | x⟩
  · have hrefused : (tryCatch (grow n) fun e => do
        emit (.extensionFailed n e)
        throw e).run h = .ok ⟨.error e, { h with provider := q }, [.extensionFailed n e]⟩ := by
      rw [run_tryCatch_of_error (run_grow_eq hg)]; rfl
    rw [run_bind_of_error hrefused] at hr₁
    cases hr₁
    exact .inl ⟨e, rfl, rfl⟩
  · obtain ⟨_, hr₂, rfl⟩ := exists_run_of_bind (run_tryCatch_of_ok (run_grow_eq hg)) hr₁
    obtain ⟨bp, k', merged, size, rfl, hk'⟩ := adopt_cases hr₂
    exact .inr ⟨x, bp, k', merged, size, rfl, rfl, hk'⟩

namespace Asks

theorem extend (bytes : Nat) : Asks 1 (HeapM.extend bytes) where
  asked {h out} hr := by
    rcases extend_cases hr with ⟨-, rfl⟩ | ⟨k, q, -, ⟨e, hg, rfl⟩ |
      ⟨x, bp, k', merged, size, hg, rfl, hmerged, hq, hcounted, hs, hc⟩⟩
    · exact Outcome.Asked.mono (.of_provider (.refl _) rfl rfl rfl (List.forall_mem_nil _))
        (Nat.zero_le 1)
    · obtain rfl : (h.provider.grow (max k minBlockSize)).1 = q := by rw [hg]
      exact ⟨.refl _, congrArg Arena.size (Provider.arena_of_grow_error hg),
        show ∀ j ∈ [], 32 ≤ j from List.forall_mem_nil _, rfl, rfl, rfl, Nat.le_refl 1,
        by rintro _ ⟨⟩⟩
    · obtain rfl : (h.provider.grow (max k minBlockSize)).1 = q := by rw [hg]
      have hgrant : merged.grant = none := by cases merged <;> first | rfl | cases hmerged
      have hreq : requests [merged, .extended (max k minBlockSize) size] =
          [max k minBlockSize] := by
        rw [requests, List.filterMap_cons, hmerged]; rfl
      have hgrants : grants [merged, .extended (max k minBlockSize) size] =
          [max k minBlockSize] := by
        rw [grants, List.filterMap_cons, hgrant]; rfl
      refine ⟨by rw [hreq]; exact hq, ?_, ?_, by rw [hgrants]; exact hcounted, hs, hc,
        by rw [hreq]; exact Nat.le_refl 1, fun _ _ => hreq.trans hgrants.symm⟩
      · rw [hgrants]
        refine hq.arena.size.trans ?_
        rw [(Provider.grow_ok hg).2]; rfl
      · rw [hgrants]
        rintro j hj
        obtain rfl := List.mem_singleton.1 hj
        exact Nat.le_max_right ..

theorem findOrExtend (need : Nat) : Asks 1 (HeapM.findOrExtend need) := by
  refine .step (.ask _) fun fit => ?_
  rcases fit with _ | bp
  · exact .step (.ask _) fun config => .extend _
  · exact (Asks.pure bp).mono (Nat.zero_le 1)

theorem blockSize (size : Nat) : Asks 0 (HeapM.blockSize size) := by
  unfold HeapM.blockSize
  split
  · exact .throw _
  · exact .pure _

theorem place (bp need size : Nat) : Asks 0 (do
    HeapM.updatePool fun p => do
      let p ← p.place bp need
      pure ((), p)
    let placed ← HeapM.header bp
    HeapM.updateStats (·.recordAllocation placed.size)
    HeapM.emit (.allocated size need placed.size bp)
    HeapM.ask fun h => pure (h.address bp)) := by
  refine .step (.updatePool fun p => .bind (.place (.refl _)) fun _ h => .pure h) fun _ =>
    .step (.header bp) fun placed => .step (.updateStats fun s t ht => ?_) fun _ =>
    .step (.emit rfl) fun _ => .ask _
  obtain ⟨_, -, ht⟩ := bind_eq_ok_iff.1 ht
  obtain ⟨_, -, ht⟩ := bind_eq_ok_iff.1 ht
  cases ht; rfl

theorem allocate (size : Nat) : Asks 1 (HeapM.allocate size) := by
  unfold HeapM.allocate
  split
  · exact (Asks.throw _).mono (Nat.zero_le 1)
  · exact .step (.blockSize size) fun need => (findOrExtend need).bind fun bp => .place bp need size

theorem allocateZeroed (count size : Nat) : Asks 1 (HeapM.allocateZeroed count size) := by
  unfold HeapM.allocateZeroed
  split
  · exact (Asks.throw _).mono (Nat.zero_le 1)
  · exact (allocate _).bind fun address => .step (.offsetOf address) fun bp =>
      .step (.updateArena fun a => .clear (.refl a)) fun _ => .pure address

theorem freeBlock (bp : Nat) : Asks 0 (HeapM.freeBlock bp) := by
  refine .step (.header bp) fun tag => .step (.updatePool fun p => .mergeFree (.refl _))
    fun merge => .step (.reportMerge merge) fun merged => .step (.updateStats fun s t ht => ?_)
    fun _ => .emit rfl
  obtain ⟨_, -, ht⟩ := bind_eq_ok_iff.1 ht
  obtain ⟨_, -, ht⟩ := bind_eq_ok_iff.1 ht
  cases ht; rfl

theorem free (address : Option Nat) : Asks 0 (HeapM.free address) := by
  rcases address with _ | address
  · exact .pure ()
  · exact .step (.offsetOf address) fun bp => .freeBlock bp

theorem shrink (bp : Nat) (old : Tag) (need : Nat) : Asks 0 (HeapM.shrink bp old need) := by
  refine .step (.updatePool fun p => .trim (.refl _)) fun merge => ?_
  rcases merge with _ | merge
  · exact .pure ()
  refine .step (.reportMerge merge) fun _ => .updateStats fun s t ht => ?_
  obtain ⟨_, -, ht⟩ := bind_eq_ok_iff.1 ht
  cases ht; rfl

theorem takeNext (bp : Nat) (old nextTag : Tag) (available need : Nat) :
    Asks 0 (HeapM.takeNext bp old nextTag available need) := by
  unfold HeapM.takeNext
  split
  · exact .pure _
  refine .step (.updatePool fun p => .read fun next => .bind (.absorb (.refl _)) fun _ h => .pure h)
    fun _ => .step (.header bp) fun grown => .step (.ofChecked _) fun gained =>
    .step (.updateStats fun s t ht => ?_) fun _ => .pure true
  obtain ⟨_, -, ht⟩ := bind_eq_ok_iff.1 ht
  cases ht; rfl

theorem growInPlace (bp : Nat) (old : Tag) (need : Nat) :
    Asks 1 (HeapM.growInPlace bp old need) := by
  refine .step (.ofChecked _) fun next => .step (.header next) fun nextTag =>
    .step (.ofChecked _) fun available => ?_
  split
  · exact (takeNext ..).mono (Nat.zero_le 1)
  have hrest : ∀ after, Asks 1 (do
      let afterTag ← HeapM.header after
      if afterTag.size ≠ 0 then pure false
      else do
        let shortfall ← Word.sub need available
        let config ← HeapM.ask fun h => pure h.config
        let _ ← HeapM.extend (max shortfall config.chunkSize)
        let nextTag ← HeapM.header next
        let available ← Word.add old.size nextTag.size
        HeapM.takeNext bp old nextTag available need) := by
    refine fun after => .step (.header after) fun afterTag => ?_
    split
    · exact (Asks.pure false).mono (Nat.zero_le 1)
    · exact .step (.ofChecked _) fun shortfall => .step (.ask _) fun config =>
        (extend _).bind fun _ => .step (.header next) fun nextTag =>
        .step (.ofChecked _) fun available => .takeNext ..
  split
  · exact .step (.pure next) hrest
  · exact .step (.ofChecked _) hrest

theorem move (bp : Nat) (old : Tag) (size : Nat) : Asks 1 (HeapM.move bp old size) :=
  (allocate size).bind fun address => .step (.offsetOf address) fun _ =>
    .step (.ofChecked _) fun _ => .step (.updateArena fun a => .copyWithin (.refl a)) fun _ =>
    .step (.freeBlock bp) fun _ => .step (.emit rfl) fun _ => .pure address

theorem recordReallocation : Asks 0 (HeapM.updateStats (·.recordReallocation)) := by
  refine .updateStats fun s t ht => ?_
  obtain ⟨_, -, ht⟩ := bind_eq_ok_iff.1 ht
  cases ht; rfl

theorem recordInPlace : Asks 0 (HeapM.updateStats (·.recordInPlace)) := by
  refine .updateStats fun s t ht => ?_
  obtain ⟨_, -, ht⟩ := bind_eq_ok_iff.1 ht
  cases ht; rfl

theorem resize (address size : Nat) : Asks 2 (HeapM.resize address size) := by
  refine .step (.offsetOf address) fun bp => .step (.blockSize size) fun need =>
    .step (.header bp) fun old => .step .recordReallocation fun _ => ?_
  split
  · refine Asks.mono ?_ (Nat.zero_le 2)
    exact .step (.shrink ..) fun _ => .step .recordInPlace fun _ => .step (.emit rfl) fun _ =>
      .pure address
  refine (growInPlace ..).bind (n := 1) fun grown => ?_
  split
  · refine Asks.mono ?_ (Nat.zero_le 1)
    exact .step .recordInPlace fun _ => .step (.emit rfl) fun _ => .pure address
  · exact .move ..

theorem reallocate (address : Option Nat) (size : Nat) :
    Asks 2 (HeapM.reallocate address size) := by
  unfold HeapM.reallocate
  rcases address with _ | address
  · exact ((allocate size).bind fun _ => .pure _).mono (Nat.le_succ 1)
  · simp only
    split
    · exact Asks.mono (.step (.free _) fun _ => .pure none) (Nat.zero_le 2)
    · exact (resize ..).bind fun _ => .pure _

end Asks

end HeapM

theorem Call.asks_perform (c : Call) : HeapM.Asks 2 c.perform := by
  cases c with
  | allocate size => exact ((HeapM.Asks.allocate size).bind fun _ => .pure _).mono (Nat.le_succ 1)
  | allocateZeroed count size =>
    exact ((HeapM.Asks.allocateZeroed count size).bind fun _ => .pure _).mono (Nat.le_succ 1)
  | free address =>
    exact HeapM.Asks.mono (.step (.free address) fun _ => .pure none) (Nat.zero_le 2)
  | reallocate address size => exact .reallocate address size

end SegregatedFit
