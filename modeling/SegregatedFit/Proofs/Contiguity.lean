import SegregatedFit.Proofs.Session

/-!
# Providers grow contiguously

Whatever is asked of a provider, and whoever else moves the end of its data segment in between, its
arena only grows at the high end, keeps all bytes, and stays inside what the source has given out
(`Provider.Contained`). Which requests the host denies is open. An extension of a data segment that is
of no use has moved its end all the same; together with the moves of others, what counts is where the
segment ends when the next request is made. Once it ends behind the arena, and is not moved back, no
request is granted any more (`Provider.Overtaken`).
-/

namespace SegregatedFit

theorem Source.le_movedEnd {host : Host} {tries stop : Nat} {delta : Int} (h : 0 ≤ delta) :
    stop ≤ movedEnd stop delta host tries := by
  simp only [movedEnd]
  split <;> omega

/-- A host with little to give. -/
def Host.scarce : Host := limited 4096 32768 (by decide)

namespace Provider

/-! ### Uses of a provider -/

inductive Use where
  /-- A request for `n` bytes with its result. -/
  | grow (n : Nat) (result : Except Error Nat)
  /-- Someone else tries to move the end of the data segment. -/
  | moveEnd (delta : Int)

/-- No one takes the arena's memory away. -/
inductive Step : Provider → Use → Provider → Prop
  | grow {p q : Provider} {n : Nat} {r : Except Error Nat} (h : p.grow n = (q, r)) :
      Step p (.grow n r) q
  | moveEnd {p : Provider} {delta : Int}
      (h : ∀ stop ∈ (p.source.moveEnd delta).segmentEnd?, p.arena.base + p.arena.size ≤ stop) :
      Step p (.moveEnd delta) (p.moveEnd delta)

/-- Uses one after another. -/
inductive Run : Provider → List Use → Provider → Prop
  | nil {p : Provider} : Run p [] p
  | cons {p q r : Provider} {u : Use} {us : List Use} (h : Step p u q) (hs : Run q us r) :
      Run p (u :: us) r

/-- No one else moves the end of the data segment down. -/
def Advancing (us : List Use) : Prop := ∀ delta, .moveEnd delta ∈ us → 0 ≤ delta

variable {p q r : Provider} {u : Use} {us : List Use} {n x tries stop capacity : Nat} {delta : Int}
  {host : Host}

/-! ### Growing -/

/-- The arena of `q` starts with that of `p`. -/
structure Continues (p q : Provider) : Prop where
  base : q.arena.base = p.arena.base
  size : p.arena.size ≤ q.arena.size
  byte : ∀ i < p.arena.size, q.arena.byte i = p.arena.byte i

theorem Continues.refl (p : Provider) : Continues p p := ⟨rfl, Nat.le_refl _, fun _ _ => rfl⟩

theorem Continues.trans (h : Continues p q) (h' : Continues q r) : Continues p r :=
  ⟨h'.base.trans h.base, Nat.le_trans h.size h'.size,
    fun i hi => (h'.byte i (Nat.lt_of_lt_of_le hi h.size)).trans (h.byte i hi)⟩

theorem grow_of_buffer (hs : p.source = .buffer capacity) (n : Nat) :
    (p.grow n).1.source = .buffer capacity ∧
      (p.grow n).2 = if n ≤ capacity - p.arena.size then .ok p.arena.size
        else .error (.outOfMemory n (capacity - p.arena.size)) := by
  obtain ⟨a, source⟩ := p
  obtain rfl : source = _ := hs
  simp only [grow, Source.request]
  split_ifs <;> exact ⟨rfl, rfl⟩

/-- The segment is extended, if the host allows it, whether that is of use or not. -/
theorem grow_of_segment (hs : p.source = .dataSegment host tries stop) (n : Nat) :
    (Source.signedLimit ≤ n ∧ p.grow n = (p, .error .sizeOverflow)) ∨
    (∃ reason, n < Source.signedLimit ∧ host.refusal tries (stop + n) = some reason ∧
      p.grow n = (⟨p.arena, .dataSegment host (tries + 1) stop⟩, .error (.provider reason))) ∨
    (n < Source.signedLimit ∧ host.refusal tries (stop + n) = none ∧
      (p.grow n).1.source = .dataSegment host (tries + 1) (stop + n) ∧
      (p.grow n).2 = if stop = p.arena.base + p.arena.size then .ok p.arena.size
        else .error .nonContiguous) := by
  obtain ⟨a, source⟩ := p
  obtain rfl : source = _ := hs
  obtain ⟨hn, h⟩ | ⟨reason, hn, hr, h⟩ | ⟨hn, hr, h⟩ :=
    Source.request_dataSegment host tries stop a.base a.size n
  · exact .inl ⟨hn, by simp only [grow, h]⟩
  · exact .inr (.inl ⟨reason, hn, hr, by simp only [grow, h]⟩)
  · refine .inr (.inr ⟨hn, hr, ?_⟩)
    simp only [grow, h]
    split_ifs <;> exact ⟨rfl, rfl⟩

theorem moveEnd_source (p : Provider) (delta : Int) :
    (p.moveEnd delta).source = p.source.moveEnd delta := by
  rw [moveEnd]
  split <;> rfl

/-! ### What the source has given out -/

/-- The arena lies inside it. -/
def Contained (p : Provider) : Prop :=
  match p.source with
  | .buffer capacity => p.arena.size ≤ capacity
  | .dataSegment _ _ stop => p.arena.base + p.arena.size ≤ stop
  | .metered .. => False

theorem eq_of_reserve {base : Nat} {hb : alignment ∣ base}
    (h : reserve base hb capacity host = .ok p) :
    p = ⟨.empty base hb, .buffer (bufferCapacity capacity)⟩ := by
  simp only [reserve] at h
  split_ifs at h
  exact (Except.ok.inj h).symm

theorem Contained.grow {r : Except Error Nat} (hp : p.Contained) (h : p.grow n = (q, r)) :
    q.Contained := by
  obtain ⟨a, source⟩ := p
  cases source with
  | buffer capacity =>
    replace hp : a.size ≤ capacity := hp
    obtain ⟨hsource, hresult⟩ := grow_of_buffer (p := ⟨a, .buffer capacity⟩) rfl n
    simp only [h] at hsource hresult
    rw [Contained, hsource]
    show q.arena.size ≤ capacity
    split_ifs at hresult <;> rw [hresult] at h
    · rw [(grow_ok h).2]
      show a.size + n ≤ capacity
      omega
    · rw [arena_of_grow_error h]
      exact hp
  | dataSegment host tries stop =>
    replace hp : a.base + a.size ≤ stop := hp
    obtain ⟨-, hg⟩ | ⟨_, -, -, hg⟩ | ⟨-, -, hsource, hresult⟩ :=
      grow_of_segment (p := ⟨a, .dataSegment host tries stop⟩) rfl n
    · cases hg.symm.trans h
      exact hp
    · cases hg.symm.trans h
      exact hp
    simp only [h] at hsource hresult
    rw [Contained, hsource]
    show q.arena.base + q.arena.size ≤ stop + n
    split_ifs at hresult <;> rw [hresult] at h
    · rw [(grow_ok h).2]
      show a.base + (a.size + n) ≤ stop + n
      omega
    · rw [arena_of_grow_error h]
      exact Nat.le_add_right_of_le hp
  | metered => exact hp.elim

theorem Contained.moveEnd (hp : p.Contained)
    (h : ∀ stop ∈ (p.source.moveEnd delta).segmentEnd?, p.arena.base + p.arena.size ≤ stop) :
    (p.moveEnd delta).Contained := by
  have hc := (moveEnd_spec h).2
  obtain ⟨a, source⟩ := p
  cases source with
  | buffer capacity => exact hp
  | dataSegment host tries stop =>
    rw [Contained, moveEnd_source]
    show _ + _ ≤ Source.movedEnd stop delta host tries
    rw [hc.base, hc.size]
    exact h _ rfl
  | metered => exact hp.elim

theorem Contained.step (hp : p.Contained) (h : Step p u q) : q.Contained := by
  cases h with
  | grow h => exact hp.grow h
  | moveEnd h => exact hp.moveEnd h

/-- The segment ends behind the arena. -/
def Overtaken (p : Provider) : Prop :=
  ∃ host tries stop, p.source = .dataSegment host tries stop ∧ p.arena.base + p.arena.size < stop

/-- The bytes that come next would not be the arena's. -/
theorem Overtaken.grow (hp : p.Overtaken) (n : Nat) :
    ∃ e, (p.grow n).2 = .error e ∧ (p.grow n).1.Overtaken := by
  obtain ⟨host, tries, stop, hs, hlt⟩ := hp
  obtain ⟨-, hg⟩ | ⟨_, -, -, hg⟩ | ⟨-, -, hsource, hresult⟩ := grow_of_segment hs n
  · rw [hg]
    exact ⟨_, rfl, host, tries, stop, hs, hlt⟩
  · rw [hg]
    exact ⟨_, rfl, host, tries + 1, stop, rfl, hlt⟩
  · rw [if_neg (Nat.ne_of_gt hlt)] at hresult
    refine ⟨_, hresult, host, tries + 1, stop + n, hsource, ?_⟩
    rw [arena_of_grow_error (Prod.ext rfl hresult)]
    exact Nat.lt_add_right n hlt

theorem Overtaken.step (hp : p.Overtaken) (h : Step p u q) (hu : Advancing [u]) :
    q.Overtaken ∧ q.arena.base = p.arena.base ∧ q.arena.size = p.arena.size := by
  cases h with
  | @grow _ n r h =>
    obtain ⟨e, he, hq⟩ := hp.grow n
    rw [h] at he hq
    simp only at he
    rw [he] at h
    rw [arena_of_grow_error h]
    exact ⟨hq, rfl, rfl⟩
  | @moveEnd delta h =>
    obtain ⟨-, hc⟩ := moveEnd_spec h
    obtain ⟨host, tries, stop, hs, hlt⟩ := hp
    refine ⟨⟨host, tries + 1, Source.movedEnd stop delta host tries,
      by rw [moveEnd_source, hs]; rfl, ?_⟩, hc.base, hc.size⟩
    rw [hc.base, hc.size]
    exact Nat.lt_of_lt_of_le hlt (Source.le_movedEnd (hu delta List.mem_cons_self))

end Provider

end SegregatedFit
