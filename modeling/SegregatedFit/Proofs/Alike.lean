import SegregatedFit.Proofs.Pairing

/-!
# Outlines that differ in place

Two sources are alike if they answer the same requests the same way (`Source.Alike`), and two outlines
if they differ at most in their base addresses and have sources that are alike (`Outline.Alike`). They
are paired (`Pairing.alike`), so calls are answered alike, with the same offset or the same error, and
leave outlines behind that are alike; and new heaps are alike (`Outline.alike_create`). Buffers of the
same capacity are alike wherever they are, and so are meters on sources that are alike, if they refuse
the same requests (`Source.alike_buffer`, `Source.Alike.metered`).
-/

namespace SegregatedFit

/-! ### Sources -/

namespace Source

/-- What may happen to a source. -/
inductive Demand where
  /-- The arena asks for `n` bytes. -/
  | request (n : Nat)
  /-- Someone else moves the end of the data segment. -/
  | moveEnd (delta : Int)

/-- How the requests are answered, for an arena at `base` that has `size` bytes at first. -/
def answers (base : Nat) : (size : Nat) → Source → List Demand → List (Except Error Unit)
  | _, _, [] => []
  | size, source, .request n :: ds =>
    match source.request base size n with
    | (source, .ok ()) => .ok () :: answers base (size + n) source ds
    | (source, .error e) => .error e :: answers base size source ds
  | size, source, .moveEnd delta :: ds => answers base size (source.moveEnd delta) ds

/-- The sources of two arenas of the same size give the same answers, whatever happens. -/
def Alike (base base' size : Nat) (source source' : Source) : Prop :=
  ∀ ds, answers base size source ds = answers base' size source' ds

variable {base base' size n : Nat} {source source' : Source}

theorem Alike.request (h : Alike base base' size source source') (n : Nat) :
    (∃ t t', source.request base size n = (t, .ok ()) ∧
      source'.request base' size n = (t', .ok ()) ∧ Alike base base' (size + n) t t') ∨
    ∃ e t t', source.request base size n = (t, .error e) ∧
      source'.request base' size n = (t', .error e) ∧ Alike base base' size t t' := by
  have key := fun ds => h (.request n :: ds)
  simp only [answers] at key
  rcases hr : source.request base size n with ⟨t, e | ⟨⟩⟩ <;>
    rcases hr' : source'.request base' size n with ⟨t', e' | ⟨⟩⟩ <;>
    simp only [hr, hr'] at key
  · obtain ⟨he, -⟩ := List.cons.inj (key [])
    cases he
    exact .inr ⟨e, t, t', rfl, rfl, fun ds => (List.cons.inj (key ds)).2⟩
  · cases (List.cons.inj (key [])).1
  · cases (List.cons.inj (key [])).1
  · exact .inl ⟨t, t', rfl, rfl, fun ds => (List.cons.inj (key ds)).2⟩

theorem Alike.moveEnd (h : Alike base base' size source source') (delta : Int) :
    Alike base base' size (source.moveEnd delta) (source'.moveEnd delta) :=
  fun ds => h (.moveEnd delta :: ds)

theorem alike_refl (source : Source) : Alike base base size source source := fun _ => rfl

section Metered

variable {refuse : Nat → Option Error} {requests : Nat} {granted : List Nat} {e : Error}

theorem request_metered_refused (h : refuse requests = some e) :
    (metered refuse requests granted source).request base size n =
      (metered refuse (requests + 1) granted source, .error e) := by
  rw [request, h]

theorem request_metered_ok {t : Source} (h : refuse requests = none)
    (hr : source.request base size n = (t, .ok ())) :
    (metered refuse requests granted source).request base size n =
      (metered refuse (requests + 1) (granted ++ [n]) t, .ok ()) := by
  rw [request, h]; simp only [hr]

theorem request_metered_error {t : Source} (h : refuse requests = none)
    (hr : source.request base size n = (t, .error e)) :
    (metered refuse requests granted source).request base size n =
      (metered refuse (requests + 1) granted t, .error e) := by
  rw [request, h]; simp only [hr]

end Metered

/-- A buffer does not know where it is. -/
theorem alike_buffer (capacity : Nat) : Alike base base' size (buffer capacity) (buffer capacity) := by
  intro ds
  induction ds generalizing size with
  | nil => rfl
  | cons d ds ih =>
    cases d with
    | request n =>
      simp only [answers, request]
      split <;> simp_all
    | moveEnd delta => exact ih

/-- Meters that refuse the same requests make no difference. -/
theorem Alike.metered (h : Alike base base' size source source') (refuse : Nat → Option Error)
    (requests : Nat) (granted granted' : List Nat) :
    Alike base base' size (metered refuse requests granted source)
      (metered refuse requests granted' source') := by
  intro ds
  induction ds generalizing size source source' requests granted granted' with
  | nil => rfl
  | cons d ds ih =>
    cases d with
    | moveEnd delta => exact ih (h.moveEnd delta) ..
    | request n =>
      rw [answers, answers]
      rcases hk : refuse requests with _ | e
      · rcases h.request n with ⟨t, t', hr, hr', ht⟩ | ⟨e, t, t', hr, hr', ht⟩
        · rw [request_metered_ok hk hr, request_metered_ok hk hr']
          exact congrArg (Except.ok () :: ·) (ih ht ..)
        · rw [request_metered_error hk hr, request_metered_error hk hr']
          exact congrArg (Except.error e :: ·) (ih ht ..)
      · rw [request_metered_refused hk, request_metered_refused hk]
        exact congrArg (Except.error e :: ·) (ih h ..)

end Source

/-! ### Outlines -/

/-- Sources that are alike never differ in their answers. -/
def Pairing.alike (base base' : Nat) : Pairing where
  base := base
  base' := base'
  shift := 0
  Related := Source.Alike base base'
  Refusal _ := False
  request h n := by
    rcases h.request n with h | h
    · exact .inl h
    · exact .inr (.inl h)

theorem MemoryMap.shift_zero (m : MemoryMap) : m.shift 0 = m := by
  have hb : Block.shift 0 = id := rfl
  have hc : Chains.shift 0 m.chains = m.chains := funext fun c => List.map_id (m.chains c)
  rw [shift, hb, hc, List.map_id]
  rfl

namespace Outline

/-- Outlines at `base` and at `base'` that differ at most in their sources, which are alike. -/
inductive Alike (base base' : Nat) : Outline → Outline → Prop
  | intro {map : MemoryMap} {source source' : Source} {config : Config} {stats : Stats}
      (h : Source.Alike base base' map.stop source source') :
      Alike base base' ⟨map, base, source, config, stats⟩ ⟨map, base', source', config, stats⟩

variable {base base' : Nat} {o o' : Outline}

theorem alike_iff_paired : Alike base base' o o' ↔ Paired (.alike base base') o o' := by
  constructor
  · rintro ⟨h⟩
    exact ⟨rfl, rfl, (MemoryMap.shift_zero _).symm, rfl, rfl, h⟩
  · rintro ⟨rfl, rfl, hm, hc, hs, h⟩
    obtain ⟨m, b, source, config, stats⟩ := o
    obtain ⟨m', b', source', config', stats'⟩ := o'
    obtain rfl : m' = m := hm.trans (MemoryMap.shift_zero m)
    cases hc
    cases hs
    exact ⟨h⟩

namespace Alike

theorem map (h : Alike base base' o o') : o'.map = o.map := by cases h; rfl

theorem stats (h : Alike base base' o o') : o'.stats = o.stats := by cases h; rfl

end Alike

end Outline

/-! ### New heaps -/

namespace Provider

/-- As many bytes are given out, and the sources are alike. -/
structure Alike (p p' : Provider) : Prop where
  size : p'.arena.size = p.arena.size
  source : Source.Alike p.arena.base p'.arena.base p.arena.size p.source p'.source

/-- What is in the arena makes no difference. -/
theorem alike_refill (p : Provider) (store : ByteArray) :
    p.Alike { p with arena := { p.arena with store } } :=
  ⟨rfl, Source.alike_refl p.source⟩

end Provider

/-- New heaps over alike providers are alike. -/
theorem Outline.alike_create {p p' : Provider} (h : p.Alike p') (config : Config) :
    (∃ e, create p config = .error e ∧ create p' config = .error e) ∨
    ∃ o o', create p config = .ok o ∧ create p' config = .ok o' ∧
      Alike p.arena.base p'.arena.base o o' := by
  have hp : Provider.Paired (.alike p.arena.base p'.arena.base) p p' := ⟨rfl, rfl, h.size, h.source⟩
  rcases create_paired hp (Nat.dvd_zero _) config with he | ⟨o, o', ho, ho', h⟩ | ⟨e, hf, -⟩
  · exact .inl he
  · exact .inr ⟨o, o', ho, ho', alike_iff_paired.2 h⟩
  · exact hf.elim

end SegregatedFit
