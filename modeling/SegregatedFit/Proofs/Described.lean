import SegregatedFit.Proofs.MemoryMap

/-!
# Pools and their maps

`MemoryMap.Describes m p` says that headers, footers, links and heads of the pool `p` are those of
the map `m`, and `Gap.Describes` the same of all but a gap. Which bytes matter is known exactly, so
a description survives every change elsewhere: in a gap, and in the payloads of allocated blocks
(`MemoryMap.Describes.congr`). A described heap is walked to its end (`walk_eq`).
-/

namespace SegregatedFit

/-- The header of size zero that ends an arena, as a block. -/
def Block.last (stop : Nat) : Block := ⟨stop, 0, true⟩

/-- Whether the last of the blocks is allocated, or `p` if there are none. -/
def flagAfter (p : Bool) : List Block → Bool
  | [] => p
  | b :: bs => flagAfter b.allocated bs

@[simp] theorem flagAfter_concat (p : Bool) (xs : List Block) (b : Block) :
    flagAfter p (xs ++ [b]) = b.allocated := by
  induction xs generalizing p with
  | nil => rfl
  | cons x xs ih => exact ih x.allocated

theorem flagAfter_append (p : Bool) (xs ys : List Block) :
    flagAfter p (xs ++ ys) = flagAfter (flagAfter p xs) ys := by
  induction xs generalizing p with
  | nil => rfl
  | cons x xs ih => exact ih x.allocated

theorem flagAfter_true {xs : List Block} (h : ∀ x ∈ xs.getLast?, x.allocated = true) :
    flagAfter true xs = true := by
  rcases List.eq_nil_or_concat xs with rfl | ⟨ys, b, rfl⟩
  · rfl
  · rw [List.concat_eq_append] at *
    rw [flagAfter_concat]; exact h b (by simp)

namespace Arena

/-- Every block has its header, and a free one its footer. The block before the first one is
allocated or not, as `p` says. -/
def Tagged (a : Arena) : (p : Bool) → List Block → Prop
  | _, [] => True
  | p, b :: bs =>
    a.word (b.offset - 8) = Tag.pack ⟨b.size, b.allocated, p⟩ ∧
    (b.allocated = false →
      a.word (b.offset + b.size - 16) = Tag.pack ⟨b.size, b.allocated, p⟩) ∧
    a.Tagged b.allocated bs

/-- Byte `k` is in a header, or in the footer of a free block. -/
def TagByte (bs : List Block) (k : Nat) : Prop :=
  ∃ b ∈ bs, b.offset ≤ k + 8 ∧ k < b.offset ∨
    b.allocated = false ∧ b.offset + b.size ≤ k + 16 ∧ k + 8 < b.offset + b.size

variable {a a' : Arena} {p q : Bool} {b : Block} {xs ys bs : List Block} {s : Nat → Prop}
  {k : Nat}

theorem TagByte.mono (h : TagByte xs k) (hs : xs ⊆ ys) : TagByte ys k := by
  obtain ⟨b, hb, hk⟩ := h
  exact ⟨b, hs hb, hk⟩

theorem tagged_append :
    a.Tagged p (xs ++ ys) ↔ a.Tagged p xs ∧ a.Tagged (flagAfter p xs) ys := by
  induction xs generalizing p with
  | nil => simp [Tagged, flagAfter]
  | cons x xs ih => simp only [List.cons_append, Tagged, ih, flagAfter, and_assoc]

theorem tagged_cons : a.Tagged p (b :: bs) ↔
    a.word (b.offset - 8) = Tag.pack ⟨b.size, b.allocated, p⟩ ∧
    (b.allocated = false →
      a.word (b.offset + b.size - 16) = Tag.pack ⟨b.size, b.allocated, p⟩) ∧
    a.Tagged b.allocated bs := Iff.rfl

theorem Tagged.congr (h : a.Tagged p bs) (hc : Changed s a a')
    (hb : ∀ b ∈ bs, 8 ≤ b.offset ∧ (b.allocated = false → 16 ≤ b.size))
    (hs : ∀ k, TagByte bs k → ¬s k) : a'.Tagged p bs := by
  induction bs generalizing p with
  | nil => trivial
  | cons b bs ih =>
    obtain ⟨h1, h2, h3⟩ := h
    obtain ⟨h8, h16⟩ := hb b (by simp)
    refine ⟨?_, ?_, ih h3 (fun c hc => hb c (by simp [hc])) fun k hk =>
      hs k (hk.mono (by simp))⟩
    · rw [hc.word fun k _ _ => hs k ⟨b, by simp, .inl (by omega)⟩, h1]
    · intro hf
      have := h16 hf
      rw [hc.word fun k _ _ => hs k ⟨b, by simp, .inr ⟨hf, by omega, by omega⟩⟩, h2 hf]

@[simp] theorem tagged_extend {n : Nat} : (a.extend n).Tagged p bs ↔ a.Tagged p bs := by
  induction bs generalizing p with
  | nil => rfl
  | cons b bs ih => rw [Tagged, Tagged, ih]; rfl

theorem setPrevAllocated_tagged (h : a.Tagged p (b :: bs)) (hb : 8 ≤ b.offset)
    (hs : b.offset + b.size ≤ a.size) (ha : a.size < Word.limit) (h4 : 4 ∣ b.size)
    (hz : b.allocated = false → 32 ≤ b.size)
    (hbs : ∀ c ∈ bs, b.offset + b.size ≤ c.offset ∧ b.offset + 32 ≤ c.offset ∧
      (c.allocated = false → 32 ≤ c.size)) :
    ∃ a', a.setPrevAllocated b.offset q = .ok a' ∧ a'.Tagged q (b :: bs) ∧
      Changed (TagByte [b]) a a' := by
  obtain ⟨h1, h2, h3⟩ := h
  obtain ⟨a', e, hc, w1, w2⟩ := setPrevAllocated_exists (a := a) (b := b.offset) (p := q)
    (t := ⟨b.size, b.allocated, p⟩) hb (by omega) (by simp only; omega)
    (by simp only; omega) ha h4 (fun hf => by have := hz hf; simp only; omega) h1
  replace hc : Changed (TagByte [b]) a a' := hc.mono fun k hk => by
    refine ⟨b, by simp, ?_⟩
    rcases hk with hk | ⟨hf, hk⟩
    · exact .inl (by omega)
    · have := hz hf
      exact .inr ⟨hf, by simp only at hk; omega⟩
  refine ⟨a', e, ⟨w1, w2, h3.congr hc ?_ ?_⟩, hc⟩
  · intro c hcb
    obtain ⟨-, h8, hz'⟩ := hbs c hcb
    exact ⟨by omega, fun hf => by have := hz' hf; omega⟩
  · rintro k ⟨c, hcb, hk⟩ ⟨d, hd, hk'⟩
    obtain rfl := List.mem_singleton.1 hd
    obtain ⟨hle, h8, hz'⟩ := hbs c hcb
    rcases hk with hk | ⟨hf, hk⟩
    · rcases hk' with hk' | ⟨-, hk'⟩ <;> omega
    · have := hz' hf
      rcases hk' with hk' | ⟨-, hk'⟩ <;> omega

end Arena

/-! ### Who owns which byte -/

open Arena (TagByte Changed)

namespace MemoryMap

variable {m : MemoryMap} {k : Nat}

/-- The blocks and the end of the arena. -/
def allBlocks (m : MemoryMap) : List Block := m.blocks ++ [.last m.stop]

theorem Valid.offset_ge (hv : m.Valid) {b : Block} (hb : b ∈ m.allBlocks) :
    32 ≤ b.offset ∧ (b.allocated = false → 32 ≤ b.size) ∧ b.offset + b.size ≤ m.stop := by
  have := hv.first_ge
  have := hv.tiles.le
  rcases List.mem_append.1 hb with hb | hb
  · have := hv.tiles.bounds hb
    exact ⟨by omega, fun _ => by omega, by omega⟩
  · obtain rfl := List.mem_singleton.1 hb
    exact ⟨by simp only [Block.last]; omega, fun h => by simp [Block.last] at h,
      by simp only [Block.last]; omega⟩

theorem Valid.eq_or_apart (hv : m.Valid) {b c : Block} (hb : b ∈ m.allBlocks)
    (hc : c ∈ m.blocks) :
    b = c ∨ b.offset + b.size ≤ c.offset ∧ b.offset + 32 ≤ c.offset ∨
      c.offset + c.size ≤ b.offset := by
  rcases List.mem_append.1 hb with hb | hb
  · have := hv.tiles.bounds hb
    rcases hv.tiles.eq_or_apart hb hc with h | h | h
    · exact .inl h
    · exact .inr (.inl (by omega))
    · exact .inr (.inr h)
  · obtain rfl := List.mem_singleton.1 hb
    have := hv.tiles.bounds hc
    exact .inr (.inr (by simp only [Block.last]; omega))

theorem Valid.linkByte_iff (hv : m.Valid) : m.chains.LinkByte k ↔
    ∃ b ∈ m.blocks, b.allocated = false ∧ b.offset ≤ k ∧ k < b.offset + 16 := by
  constructor
  · rintro ⟨c, x, hx, hk⟩
    obtain ⟨b, hb, hf, rfl, -⟩ := (hv.lists.mem c x).1 hx
    exact ⟨b, hb, hf, hk⟩
  · rintro ⟨b, hb, hf, hk⟩
    exact ⟨_, _, hv.mem_chains hb hf, hk⟩

theorem Valid.not_linkByte_of_tagByte (hv : m.Valid) (hk : TagByte m.allBlocks k) :
    ¬m.chains.LinkByte k := by
  rw [hv.linkByte_iff]
  rintro ⟨c, hc, hf, hk1, hk2⟩
  obtain ⟨b, hb, hk⟩ := hk
  have hz := (hv.tiles.bounds hc).2.2.1
  rcases hv.eq_or_apart hb hc with rfl | h | h
  · rcases hk with hk | ⟨-, hk⟩ <;> omega
  · rcases hk with hk | ⟨-, hk⟩ <;> omega
  · rcases hk with hk | ⟨hf, hk⟩
    · omega
    · have := (hv.offset_ge hb).2.1 hf; omega

theorem Valid.not_kept_of_tagByte (hv : m.Valid) (hk : TagByte m.allBlocks k) : ¬m.Kept k := by
  obtain ⟨b, hb, hk⟩ := hk
  rintro (h | ⟨c, hc, ha, h1, h2⟩)
  · have hle : m.first ≤ b.offset := by
      rcases List.mem_append.1 hb with hb | hb
      · exact (hv.tiles.bounds hb).1
      · obtain rfl := List.mem_singleton.1 hb
        exact hv.tiles.le
    rcases hk with hk | ⟨hf, hk⟩
    · omega
    · have := (hv.offset_ge hb).2.1 hf; omega
  · have hz := (hv.tiles.bounds hc).2.2.1
    rcases hv.eq_or_apart hb hc with rfl | h | h
    · rcases hk with hk | ⟨hf, hk⟩
      · omega
      · rw [ha] at hf; cases hf
    · rcases hk with hk | ⟨-, hk⟩ <;> omega
    · rcases hk with hk | ⟨hf, hk⟩
      · omega
      · have := (hv.offset_ge hb).2.1 hf; omega

theorem Valid.not_kept_of_linkByte (hv : m.Valid) (hk : m.chains.LinkByte k) : ¬m.Kept k := by
  obtain ⟨b, hb, hf, hk1, hk2⟩ := hv.linkByte_iff.1 hk
  have hbb := hv.tiles.bounds hb
  rintro (h | ⟨c, hc, ha, h1, h2⟩)
  · omega
  · rcases hv.tiles.eq_or_apart hb hc with rfl | h | h
    · rw [ha] at hf; cases hf
    · omega
    · omega

/-! ### Descriptions -/

/-- What the bytes of the pool say is the map. -/
structure Describes (m : MemoryMap) (p : Pool) : Prop where
  size : p.arena.size = m.stop
  stop_lt : m.stop < Word.limit
  tagged : p.arena.Tagged true m.allBlocks
  chained : p.Chained m.chains

variable {a a' : Arena} {x : FreeIndex} {s : Nat → Prop}

theorem Valid.tagged_congr (hv : m.Valid) {bs : List Block} {q : Bool} (h : a.Tagged q bs)
    (hbs : bs ⊆ m.allBlocks) (hc : Changed s a a') (hs : ∀ k, TagByte bs k → ¬s k) :
    a'.Tagged q bs := by
  refine h.congr hc ?_ hs
  intro b hb
  obtain ⟨h1, h2, -⟩ := hv.offset_ge (hbs hb)
  exact ⟨by omega, fun hf => by have := h2 hf; omega⟩

theorem Valid.size_aligned (hv : m.Valid) {b : Block} (hb : b ∈ m.allBlocks) : 16 ∣ b.size := by
  rcases List.mem_append.1 hb with hb | hb
  · exact (hv.tiles.bounds hb).2.2.2
  · obtain rfl := List.mem_singleton.1 hb
    exact ⟨0, rfl⟩

theorem Describes.header_eq {p : Pool} {b : Block} {xs ys : List Block} (hd : m.Describes p)
    (hv : m.Valid) (hb : m.allBlocks = xs ++ b :: ys) :
    p.arena.header b.offset = .ok ⟨b.size, b.allocated, flagAfter true xs⟩ := by
  have hm : b ∈ m.allBlocks := by simp [hb]
  have h := hv.offset_ge hm
  have ht := hd.tagged
  rw [hb] at ht
  refine Arena.header_eq (by omega) (by rw [hd.size]; omega) (by rw [hd.size]; exact hd.stop_lt)
    (Arena.tagged_append.1 ht).2.1 ?_
  exact Nat.dvd_trans ⟨4, rfl⟩ (hv.size_aligned hm)

theorem Valid.lt_stop_of_tagByte (hv : m.Valid) (hk : TagByte m.allBlocks k) : k < m.stop := by
  obtain ⟨b, hb, hk⟩ := hk
  have := hv.offset_ge hb
  rcases hk with hk | ⟨-, hk⟩ <;> omega

theorem Valid.lt_stop_of_linkByte (hv : m.Valid) (hk : m.chains.LinkByte k) : k < m.stop := by
  obtain ⟨b, hb, -, hk⟩ := hv.linkByte_iff.1 hk
  have := hv.tiles.bounds hb
  omega

/-- A description holds as long as only bytes change that are none of the allocator's. -/
theorem Describes.congr (hd : m.Describes ⟨a, x⟩) (hv : m.Valid) (hc : Changed s a a')
    (hs : ∀ k, s k → k < m.stop → m.Kept k) : m.Describes ⟨a', x⟩ :=
  ⟨hc.size.trans hd.size, hd.stop_lt,
    hv.tagged_congr hd.tagged (List.Subset.refl _) hc fun k hk h =>
      hv.not_kept_of_tagByte hk (hs k h (hv.lt_stop_of_tagByte hk)),
    hd.chained.congr hc fun k hk h =>
      hv.not_kept_of_linkByte hk (hs k h (hv.lt_stop_of_linkByte hk))⟩

end MemoryMap

namespace Gap

variable {g : Gap} {q r : Bool} {p : Pool} {a a' : Arena} {x : FreeIndex} {s : Nat → Prop}
  {b : Block} {k : Nat}

/-- What the bytes of the pool say is the map around the gap. The block after the gap is told that
the bytes before it are allocated or not, as `q` says. -/
structure Describes (g : Gap) (q : Bool) (p : Pool) : Prop where
  size : p.arena.size = g.stop
  stop_lt : g.stop < Word.limit
  before : p.arena.Tagged true g.before
  after : p.arena.Tagged q (g.after ++ [.last g.stop])
  chained : p.Chained g.chains

/-- Byte `k` is in the header of the gap or in what may be its payload. -/
def Inside (g : Gap) (k : Nat) : Prop := g.offset ≤ k + 8 ∧ k + 8 < g.offset + g.size

theorem Valid.allBlocks_fillWhole (hv : g.Valid) : g.fillWhole.allBlocks =
    g.before ++ ⟨g.offset, g.size, true⟩ :: (g.after ++ [.last g.stop]) := by
  rw [MemoryMap.allBlocks, hv.stop_fillWhole, Gap.fillWhole, List.append_assoc, List.cons_append]

theorem Valid.before_subset (hv : g.Valid) : g.before ⊆ g.fillWhole.allBlocks := by
  rw [hv.allBlocks_fillWhole]; simp

theorem Valid.after_subset (hv : g.Valid) :
    g.after ++ [.last g.stop] ⊆ g.fillWhole.allBlocks := by
  rw [hv.allBlocks_fillWhole]
  exact fun c hc => List.mem_append_right _ (List.mem_cons_of_mem _ hc)

theorem Valid.offset_ge (hv : g.Valid) : 32 ≤ g.offset ∧ g.offset + g.size ≤ g.stop := by
  have := hv.first_ge
  have := hv.before.le
  have := hv.after.le
  omega

theorem Valid.offset_ge_of_mem_after (hv : g.Valid) (hb : b ∈ g.after ++ [.last g.stop]) :
    g.offset + g.size ≤ b.offset ∧ b.offset + b.size ≤ g.stop ∧
      (b.allocated = false → 32 ≤ b.size) := by
  obtain ⟨-, hf, hle⟩ := hv.fillWhole.offset_ge (hv.after_subset hb)
  rw [hv.stop_fillWhole] at hle
  refine ⟨?_, hle, hf⟩
  rcases List.mem_append.1 hb with hb | hb
  · exact (hv.after.bounds hb).1
  · obtain rfl := List.mem_singleton.1 hb
    exact hv.offset_ge.2

theorem kept_fillWhole : g.fillWhole.Kept k ↔
    g.Kept k ∨ g.offset ≤ k ∧ k + 8 < g.offset + g.size := by
  simp only [MemoryMap.Kept, Kept, fillWhole, Block.held_append, Block.held_cons, Block.Holds]
  tauto

theorem Valid.not_linkByte_of_inside (hv : g.Valid) (hk : g.Inside k) :
    ¬g.chains.LinkByte k := by
  intro h
  by_cases hh : g.offset ≤ k
  · refine hv.fillWhole.not_kept_of_linkByte h (kept_fillWhole.2 (.inr ⟨hh, hk.2⟩))
  · refine hv.fillWhole.not_linkByte_of_tagByte ?_ h
    exact ⟨⟨g.offset, g.size, true⟩, by rw [hv.allBlocks_fillWhole]; simp,
      .inl ⟨hk.1, by simp only; omega⟩⟩

theorem Valid.not_inside_of_tagByte_before (hv : g.Valid) (hk : TagByte g.before k) :
    ¬g.Inside k := by
  obtain ⟨b, hb, hk⟩ := hk
  have := hv.before.bounds hb
  rintro ⟨h1, h2⟩
  rcases hk with hk | ⟨-, hk⟩ <;> omega

theorem Valid.not_inside_of_tagByte_after (hv : g.Valid)
    (hk : TagByte (g.after ++ [.last g.stop]) k) : ¬g.Inside k := by
  obtain ⟨b, hb, hk⟩ := hk
  obtain ⟨ho, -, hz⟩ := hv.offset_ge_of_mem_after hb
  rintro ⟨h1, h2⟩
  rcases hk with hk | ⟨hf, hk⟩
  · omega
  · have := hz hf; omega

theorem Valid.not_kept_of_inside (hv : g.Valid) (hk : g.Inside k) : ¬g.Kept k := by
  rintro (h | ⟨b, hb, -, h1, h2⟩)
  · have := hv.before.le
    obtain ⟨h1, h2⟩ := hk
    omega
  · obtain ⟨h3, h4⟩ := hk
    rcases List.mem_append.1 hb with hb | hb
    · have := hv.before.bounds hb; omega
    · have := hv.after.bounds hb; omega

/-- What is written into the gap does not matter. -/
theorem Describes.congr (hd : g.Describes q ⟨a, x⟩) (hv : g.Valid) (hc : Changed g.Inside a a') :
    g.Describes q ⟨a', x⟩ :=
  ⟨hc.size.trans hd.size, hd.stop_lt,
    hv.fillWhole.tagged_congr hd.before hv.before_subset hc fun _ hk =>
      hv.not_inside_of_tagByte_before hk,
    hv.fillWhole.tagged_congr hd.after hv.after_subset hc fun _ hk =>
      hv.not_inside_of_tagByte_after hk,
    hd.chained.congr hc fun _ hk h => hv.not_linkByte_of_inside h hk⟩

theorem Valid.not_tagByte_after_of_before (hv : g.Valid) (hk : TagByte g.before k) :
    ¬TagByte (g.after ++ [.last g.stop]) k := by
  obtain ⟨b, hb, hk⟩ := hk
  have hb' := hv.before.bounds hb
  have hz := hv.size_ge
  have hlow : k + 8 < g.offset + g.size := by
    rcases hk with hk | ⟨-, hk⟩ <;> omega
  rintro ⟨c, hc, hk'⟩
  obtain ⟨hc', -, hz'⟩ := hv.offset_ge_of_mem_after hc
  rcases hk' with hk' | ⟨hf, hk'⟩
  · omega
  · have := hz' hf; omega

/-- The first block after the gap, be it the last of all, is where the gap ends. -/
theorem Valid.after_eq_cons (hv : g.Valid) :
    ∃ b bs, g.after ++ [.last g.stop] = b :: bs ∧ b.offset = g.offset + g.size ∧ 4 ∣ b.size ∧
      ∀ c ∈ bs, b.offset + b.size ≤ c.offset ∧ b.offset + 32 ≤ c.offset := by
  have ha := hv.after
  rcases h : g.after with _ | ⟨b, bs⟩
  · rw [h] at ha
    exact ⟨.last g.stop, [], rfl, (ha : g.offset + g.size = g.stop).symm, ⟨0, rfl⟩, by simp⟩
  · rw [h] at ha
    obtain ⟨ho, h32, h16, hr⟩ := Tiles.cons_iff.1 ha
    refine ⟨b, bs ++ [.last g.stop], rfl, ho, Nat.dvd_trans ⟨4, rfl⟩ h16, ?_⟩
    intro c hc
    rcases List.mem_append.1 hc with hc | hc
    · have := (hr.bounds hc).1; omega
    · obtain rfl := List.mem_singleton.1 hc
      have := hr.le
      simp only [Block.last]; omega

/-- The block after the gap is told another thing about it. -/
theorem Describes.retag (hd : g.Describes q ⟨a, x⟩) (hv : g.Valid) (r : Bool) :
    ∃ a', a.setPrevAllocated (g.offset + g.size) r = .ok a' ∧ g.Describes r ⟨a', x⟩ ∧
      Changed (TagByte (g.after ++ [.last g.stop])) a a' := by
  have hsz : a.size = g.stop := hd.size
  have hlt := hd.stop_lt
  have hge := hv.offset_ge
  obtain ⟨b, bs, hbs, ho, h4, hfar⟩ := hv.after_eq_cons
  have hbig : ∀ c ∈ b :: bs, c.offset + c.size ≤ g.stop ∧ (c.allocated = false → 32 ≤ c.size) :=
    fun c hc => (hv.offset_ge_of_mem_after (hbs ▸ hc)).2
  have hb := hbig b List.mem_cons_self
  have ht := hd.after
  rw [hbs] at ht
  obtain ⟨a', e, ht', hc⟩ := Arena.setPrevAllocated_tagged (q := r) ht (by omega)
    (by rw [hsz]; exact hb.1) (by rw [hsz]; exact hlt) h4 hb.2 fun c hc =>
      ⟨(hfar c hc).1, (hfar c hc).2, (hbig c (List.mem_cons_of_mem b hc)).2⟩
  replace hc : Changed (TagByte (g.after ++ [.last g.stop])) a a' :=
    hc.mono fun k hk => hk.mono (by rw [hbs]; simp)
  refine ⟨a', ho ▸ e, ⟨hc.size.trans hd.size, hlt, ?_, by rw [hbs]; exact ht', ?_⟩, hc⟩
  · exact hv.fillWhole.tagged_congr hd.before hv.before_subset hc fun _ hk =>
      hv.not_tagByte_after_of_before hk
  · exact hd.chained.congr hc fun k hk h =>
      hv.fillWhole.not_linkByte_of_tagByte (h.mono hv.after_subset) hk

theorem Describes.tagged_fill (hd : g.Describes q p) (b : Block)
    (hw : p.arena.word (b.offset - 8) = Tag.pack ⟨b.size, b.allocated, flagAfter true g.before⟩)
    (hf : b.allocated = false → p.arena.word (b.offset + b.size - 16) =
      Tag.pack ⟨b.size, b.allocated, flagAfter true g.before⟩) (hq : b.allocated = q) :
    p.arena.Tagged true ((g.before ++ b :: g.after) ++ [.last g.stop]) := by
  rw [List.append_assoc, List.cons_append]
  exact Arena.tagged_append.2 ⟨hd.before, hw, hf, hq ▸ hd.after⟩

end Gap

end SegregatedFit
