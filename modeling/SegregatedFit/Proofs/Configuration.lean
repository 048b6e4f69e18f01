import SegregatedFit.Proofs.Contiguity
import SegregatedFit.Proofs.GrowthPolicy

/-!
# Which configurations are accepted

A configuration is accepted if its chunk is a block and its capacity holds the prologue and one chunk,
and then a heap comes out of it wherever a buffer of that capacity can be reserved
(`Config.decided_iff`). That is so for all chunk sizes but the last two that are aligned: what is needed
together with the prologue is no word there, and the check faults instead of refusing
(`Config.not_decided`).
-/

namespace SegregatedFit

/-! ### Buffers with room -/

namespace Provider

variable {p : Provider} {capacity n : Nat}

theorem grow_buffer (hs : p.source = .buffer capacity) (hn : n ≤ capacity - p.arena.size) :
    ∃ q, p.grow n = (q, .ok p.arena.size) ∧ q.source = .buffer capacity ∧
      q.arena = p.arena.extend n := by
  obtain ⟨hsource, hresult⟩ := grow_of_buffer hs n
  rw [if_pos hn] at hresult
  have hg : p.grow n = ((p.grow n).1, .ok p.arena.size) := Prod.ext rfl hresult
  exact ⟨_, hg, hsource, (grow_ok hg).2⟩

/-- Padding is granted where there is room for it. -/
theorem primed_of_buffer (hs : p.source = .buffer capacity) (hc : ceilAligned p.arena.size ≤ capacity) :
    ∃ q : Provider, p.primed = q.grow prologueSize ∧ q.source = .buffer capacity ∧
      q.arena.base = p.arena.base ∧ q.arena.size = ceilAligned p.arena.size := by
  have hle := le_ceilAligned p.arena.size
  by_cases hlt : p.arena.size < ceilAligned p.arena.size
  · obtain ⟨q, hq, hqs, hqa⟩ := grow_buffer hs (n := ceilAligned p.arena.size - p.arena.size) (by omega)
    rw [primed_of_lt hlt, hq]
    refine ⟨q, rfl, hqs, by rw [hqa]; rfl, ?_⟩
    rw [hqa]
    exact Nat.add_sub_cancel' hle
  · rw [primed_of_not_lt hlt]
    exact ⟨p, rfl, hs, rfl, by omega⟩

end Provider

namespace Outline

variable {p : Provider} {config : Config} {capacity : Nat}

/-- A heap comes out of a buffer that has room for prologue and chunk behind the used bytes. -/
theorem create_buffer (hs : p.source = .buffer capacity)
    (hv : config.validate.run = .ok (.ok ()))
    (hc : ceilAligned p.arena.size + prologueSize + config.chunkSize ≤ capacity) :
    ∃ o, create p config = .ok o := by
  obtain ⟨h32, h16, hlt⟩ := Config.chunkSize_of_validate hv
  obtain ⟨p', hp', hps, -, hpz⟩ := Provider.primed_of_buffer hs (by omega)
  obtain ⟨q, hq, hqs, hqa⟩ := Provider.grow_buffer hps (n := prologueSize) (by omega)
  have hreq : (empty q config).source.request (empty q config).base (empty q config).map.stop
      config.chunkSize = (.buffer capacity, .ok ()) := by
    show q.source.request q.arena.base (q.arena.size + 0) config.chunkSize = _
    rw [hqs, hqa, Source.request, if_pos (by simp only [Arena.extend]; omega)]
  rw [create, hp', hq, firstChunk, extend_of_granted h32 h16 hlt hreq]
  exact ⟨_, rfl⟩

end Outline

/-! ### Validation -/

namespace Config

variable {c : Config}

/-- The chunk is a block, and the capacity holds the prologue and one chunk. -/
structure Sufficient (c : Config) : Prop where
  chunk_ge : minBlockSize ≤ c.chunkSize
  chunk_dvd : alignment ∣ c.chunkSize
  capacity_ge : c.chunkSize + prologueSize ≤ c.maxHeap

/-- The last two multiples of the alignment that are words: with a prologue, a chunk of such a size is
no word. -/
def Excessive (c : Config) : Prop :=
  c.chunkSize = Word.limit - 2 * alignment ∨ c.chunkSize = Word.limit - alignment

theorem run_validate (c : Config) : c.validate.run =
    if c.chunkSize < minBlockSize ∨ c.chunkSize % alignment ≠ 0 then
      .ok (.error (.invalidConfig (.chunkSize c.chunkSize)))
    else if Word.limit ≤ prologueSize + c.chunkSize then .error .overflow
    else if c.maxHeap < prologueSize + c.chunkSize then
      .ok (.error (.invalidConfig (.maxHeap c.maxHeap c.chunkSize)))
    else .ok (.ok ()) := by
  unfold validate
  split
  · rfl
  · by_cases hlt : prologueSize + c.chunkSize < Word.limit
    · rw [Word.add_of_lt hlt, if_neg (Nat.not_le.2 hlt)]
      show (if c.maxHeap < prologueSize + c.chunkSize then _ else _ : Fallible Unit).run = _
      split <;> rfl
    · rw [Word.add, if_neg hlt, if_pos (Nat.le_of_not_lt hlt)]
      rfl

theorem accepted_iff (hm : c.maxHeap < Word.limit) :
    c.validate.run = .ok (.ok ()) ↔ c.Sufficient := by
  rw [run_validate]
  constructor
  · intro h
    split at h
    · cases h
    next hchunk =>
    split at h
    · cases h
    split at h
    · cases h
    next hmax =>
    simp only [not_or, not_not, Nat.not_lt] at hchunk hmax
    exact ⟨hchunk.1, Nat.dvd_of_mod_eq_zero hchunk.2, by rw [Nat.add_comm]; exact hmax⟩
  · rintro ⟨hge, hdvd, hfits⟩
    rw [if_neg, if_neg, if_neg]
    · omega
    · omega
    · rw [Nat.mod_eq_zero_of_dvd hdvd]
      omega

theorem run_validate_of_excessive (h : c.Excessive) : c.validate.run = .error .overflow := by
  have hchunk : ¬(c.chunkSize < minBlockSize ∨ c.chunkSize % alignment ≠ 0) ∧
      Word.limit ≤ prologueSize + c.chunkSize := by
    simp only [Excessive, Word.limit_eq, alignment, minBlockSize, prologueSize] at *
    omega
  rw [run_validate, if_neg hchunk.1, if_pos hchunk.2]

theorem refused_of_not_sufficient (hw : c.chunkSize < Word.limit) (he : ¬c.Excessive)
    (hs : ¬c.Sufficient) : ∃ flaw, c.validate.run = .ok (.error (.invalidConfig flaw)) := by
  rw [run_validate]
  split_ifs with hchunk hover hmax
  · exact ⟨_, rfl⟩
  · refine absurd ?_ he
    simp only [Excessive, Word.limit_eq, alignment, minBlockSize, prologueSize] at *
    omega
  · exact ⟨_, rfl⟩
  · simp only [not_or, not_not, Nat.not_lt] at hchunk hmax
    exact absurd ⟨hchunk.1, Nat.dvd_of_mod_eq_zero hchunk.2, by rw [Nat.add_comm]; exact hmax⟩ hs

/-! ### Heaps of their own -/

variable {base : Nat} {hb : alignment ∣ base} {host : Host}

/-- Whether a heap can be had is decided by the configuration, if the host reserves the buffer. -/
structure Decided (c : Config) (base : Nat) (hb : alignment ∣ base) (host : Host) : Prop where
  accepted_iff : c.validate.run = .ok (.ok ()) ↔ c.Sufficient
  refused : ¬c.Sufficient → ∃ flaw, c.validate.run = .ok (.error (.invalidConfig flaw))
  answered : ∃ creation, Heap.new base hb c host = .ok creation
  made_iff : ∀ p, Provider.reserve base hb c.maxHeap host = .ok p →
    ((∃ heap events, Heap.new base hb c host = .ok ⟨.ok heap, events⟩) ↔ c.validate.run = .ok (.ok ()))

/-- An accepted configuration suffices for prologue and first chunk. -/
theorem create_of_accepted {p : Provider} (hv : c.validate.run = .ok (.ok ()))
    (hm : c.maxHeap < Word.limit) (hp : Provider.reserve base hb c.maxHeap host = .ok p) (hs : p.Sound) :
    ∃ heap events, Heap.create p c = .ok ⟨.ok heap, events⟩ := by
  have hfits := ((accepted_iff hm).1 hv).capacity_ge
  have hle : c.maxHeap ≤ Provider.bufferCapacity c.maxHeap := Nat.le_max_left ..
  obtain rfl := Provider.eq_of_reserve hp
  have hroom : ceilAligned 0 + prologueSize + c.chunkSize ≤ Provider.bufferCapacity c.maxHeap := by
    rw [show ceilAligned 0 = 0 from rfl]
    omega
  obtain ⟨o, ho⟩ := Outline.create_buffer
    (p := ⟨.empty base hb, .buffer (Provider.bufferCapacity c.maxHeap)⟩) rfl hv hroom
  rcases Heap.create_follows hs hv with ⟨e, events, he, -⟩ | ⟨_, heap, events, -, hx, -⟩
  · rw [ho] at he
    cases he
  · exact ⟨heap, events, hx⟩

/-- Everything is decided but for excessive chunks, with which the check itself faults. -/
theorem decided_iff (hw : c.chunkSize < Word.limit) (hm : c.maxHeap < Word.limit)
    (hs : ∀ p, Provider.reserve base hb c.maxHeap host = .ok p → p.Sound) :
    c.Decided base hb host ↔ ¬c.Excessive := by
  constructor
  · intro hd he
    obtain ⟨creation, hnew⟩ := hd.answered
    rw [Heap.new, run_validate_of_excessive he] at hnew
    cases hnew
  intro he
  have hrefused := refused_of_not_sufficient hw he
  by_cases hsuff : c.Sufficient
  · have hv := (accepted_iff hm).2 hsuff
    rcases hp : Provider.reserve base hb c.maxHeap host with e | p
    · refine ⟨accepted_iff hm, hrefused, ?_, by rw [hp]; rintro _ ⟨⟩⟩
      rw [Heap.new, hv, Heap.reserve, hp]
      exact ⟨_, rfl⟩
    · obtain ⟨heap, events, hx⟩ := create_of_accepted hv hm hp (hs p hp)
      have hnew : ∃ events, Heap.new base hb c host = .ok ⟨.ok heap, events⟩ := by
        rw [Heap.new, hv, Heap.reserve, hp]
        simp only [hx]
        exact ⟨_, rfl⟩
      obtain ⟨events, hnew⟩ := hnew
      exact ⟨accepted_iff hm, hrefused, ⟨_, hnew⟩,
        fun _ _ => ⟨fun _ => hv, fun _ => ⟨heap, events, hnew⟩⟩⟩
  · obtain ⟨flaw, hv⟩ := hrefused hsuff
    have hnew : Heap.new base hb c host = .ok ⟨.error (.invalidConfig flaw), []⟩ := by
      rw [Heap.new, hv]
    refine ⟨accepted_iff hm, hrefused, ⟨_, hnew⟩, fun _ _ => ?_⟩
    rw [hnew, hv]
    simp

/-- Where little can be had, there is a heap of 96 bytes. -/
theorem decided_small :
    (⟨64, 96⟩ : Config).Decided 4096 ⟨256, rfl⟩ .scarce ∧
      ∃ heap events, Heap.new 4096 ⟨256, rfl⟩ ⟨64, 96⟩ .scarce =
        .ok ⟨.ok heap, events⟩ := by
  have hd : (⟨64, 96⟩ : Config).Decided 4096 ⟨256, rfl⟩ .scarce := by
    refine (decided_iff (by decide) (by decide) fun p hp => ?_).2 (by unfold Excessive; decide)
    rw [Provider.eq_of_reserve hp]
    exact ⟨by decide, show 4096 + 96 < Word.limit by decide⟩
  exact ⟨hd, (hd.made_iff _ rfl).2 rfl⟩

/-- Prologue and chunk are more than any capacity, but that is not found out. -/
theorem not_decided : (⟨Word.limit - 32, Word.limit - 1⟩ : Config).validate.run = .error .overflow ∧
    ¬(⟨Word.limit - 32, Word.limit - 1⟩ : Config).Sufficient ∧
    ¬(⟨Word.limit - 32, Word.limit - 1⟩ : Config).Decided 4096 ⟨256, rfl⟩ .ample := by
  have hfault : (⟨Word.limit - 32, Word.limit - 1⟩ : Config).validate.run = .error .overflow :=
    run_validate_of_excessive (.inl rfl)
  have hinsufficient : ¬(⟨Word.limit - 32, Word.limit - 1⟩ : Config).Sufficient := fun h =>
    absurd h.capacity_ge (by decide)
  refine ⟨hfault, hinsufficient, fun h => ?_⟩
  obtain ⟨flaw, hv⟩ := h.refused hinsufficient
  rw [hfault] at hv
  cases hv

end Config

end SegregatedFit
