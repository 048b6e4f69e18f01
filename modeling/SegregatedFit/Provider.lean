import SegregatedFit.Arena
import SegregatedFit.Error
import SegregatedFit.Rounding

/-!
# Memory providers

A provider is an arena together with the source that its bytes come from. `Provider.grow` is the
only way to get more: it adds the bytes at the high end and gives the offset of the first, or it
gives an error and leaves the arena as it is. A source is a buffer of fixed capacity, the data
segment of a process, which others may extend too, or another source behind a meter that counts
requests and refuses chosen ones. What the machine grants, buffers and ends of data segments, is up
to a `Host`. Whatever the source and the host, growth appends (`grow_ok`) and a refusal changes no
byte (`arena_of_grow_error`).
-/

namespace SegregatedFit

/-- How a machine answers when memory is asked of it. -/
structure Host where
  /-- Whether a buffer of this capacity can be had. -/
  reserves (capacity : Nat) : Bool
  /-- Why try `k`, counted from 0, to move the end of the data segment to `target` fails, if it
  does. -/
  refusal (k target : Nat) : Option String
  /-- Where a data segment ends is an address. -/
  addressable {k target : Nat} (h : refusal k target = none) : target < Word.limit

namespace Host

/-- Buffers have up to `capacity` bytes, and the data segment ends below `stop`. -/
def limited (capacity stop : Nat) (hstop : stop ≤ Word.limit) : Host where
  reserves n := decide (n ≤ capacity)
  refusal _ target :=
    if target < stop then none else some "Cannot allocate memory (os error 12)"
  addressable h := by
    split at h
    · next hlt => exact Nat.lt_of_lt_of_le hlt hstop
    · cases h

/-- A machine that has room for whatever is used in practice. -/
def ample : Host := limited (1 <<< 60) (1 <<< 61) (by decide)

end Host

inductive Source where
  /-- A buffer that holds at most `capacity` bytes. -/
  | buffer (capacity : Nat)
  /-- A data segment that ends at the address `stop`, after `tries` tries to move its end. -/
  | dataSegment (host : Host) (tries stop : Nat)
  /-- Refuses request `k`, counted from 0, where `refuse k` is an error. `granted` are the sizes of
  the requests that were granted. -/
  | metered (refuse : Nat → Option Error) (requests : Nat) (granted : List Nat) (inner : Source)

namespace Source

/-- Memory comes and goes in pages of this size. -/
def pageSize : Nat := 4096

/-- From here on a size is no signed word. -/
def signedLimit : Nat := 1 <<< 63

/-- Whether `n` more bytes may follow the `size` bytes of an arena at `base`. The data segment is
extended before its old end is seen to be the wrong one, and stays extended. -/
def request (base size n : Nat) : Source → Source × Except Error Unit
  | buffer capacity =>
    (buffer capacity,
      if n ≤ capacity - size then .ok () else .error (.outOfMemory n (capacity - size)))
  | dataSegment host tries stop =>
    if signedLimit ≤ n then (dataSegment host tries stop, .error .sizeOverflow)
    else
      match host.refusal tries (stop + n) with
      | some reason => (dataSegment host (tries + 1) stop, .error (.provider reason))
      | none =>
        (dataSegment host (tries + 1) (stop + n),
          if stop = base + size then .ok () else .error .nonContiguous)
  | metered refuse requests granted inner =>
    match refuse requests with
    | some e => (metered refuse (requests + 1) granted inner, .error e)
    | none =>
      match inner.request base size n with
      | (inner, .ok ()) => (metered refuse (requests + 1) (granted ++ [n]) inner, .ok ())
      | (inner, .error e) => (metered refuse (requests + 1) granted inner, .error e)

/-- Where a data segment ends after a try to move its end by `delta`. -/
def movedEnd (stop : Nat) (delta : Int) (host : Host := .ample) (tries : Nat := 0) : Nat :=
  let target := (stop : Int) + delta
  if 0 ≤ target ∧ host.refusal tries target.toNat = none then target.toNat else stop

/-- Moves the end of the data segment, if the host allows it. -/
def moveEnd (delta : Int) : Source → Source
  | buffer capacity => buffer capacity
  | dataSegment host tries stop =>
    dataSegment host (tries + 1) (movedEnd stop delta host tries)
  | metered refuse requests granted inner => metered refuse requests granted (inner.moveEnd delta)

def segmentEnd? : Source → Option Nat
  | buffer _ => none
  | dataSegment _ _ stop => some stop
  | metered _ _ _ inner => inner.segmentEnd?

/-- The end of the memory page that `stop` lies in or ends. -/
def ceilPage (stop : Nat) : Nat :=
  (stop + (pageSize - 1)) / pageSize * pageSize

/-- A data segment is not tried, or refused, or moved. -/
theorem request_dataSegment (host : Host) (tries stop base size n : Nat) :
    (signedLimit ≤ n ∧ (dataSegment host tries stop).request base size n =
      (dataSegment host tries stop, .error .sizeOverflow)) ∨
    (∃ reason, n < signedLimit ∧ host.refusal tries (stop + n) = some reason ∧
      (dataSegment host tries stop).request base size n =
        (dataSegment host (tries + 1) stop, .error (.provider reason))) ∨
    (n < signedLimit ∧ host.refusal tries (stop + n) = none ∧
      (dataSegment host tries stop).request base size n =
        (dataSegment host (tries + 1) (stop + n),
          if stop = base + size then .ok () else .error .nonContiguous)) := by
  by_cases hn : signedLimit ≤ n
  · exact .inl ⟨hn, if_pos hn⟩
  · rw [request, if_neg hn]
    cases h : host.refusal tries (stop + n) with
    | some reason => exact .inr (.inl ⟨reason, Nat.lt_of_not_le hn, rfl, rfl⟩)
    | none => exact .inr (.inr ⟨Nat.lt_of_not_le hn, rfl, rfl⟩)

end Source

structure Provider where
  arena : Arena
  source : Source

namespace Provider

/-- Largest capacity that a buffer can be described with. -/
def maxCapacity : Nat := 1 <<< 63 - alignment

/-- The capacity of a buffer for which `capacity` bytes were asked. -/
def bufferCapacity (capacity : Nat) : Nat :=
  max capacity alignment

/-- An empty arena at `base`, over a new buffer of zeros. -/
def reserve (base : Nat) (h : alignment ∣ base) (capacity : Nat) (host : Host := .ample) :
    Except Error Provider :=
  let capacity := bufferCapacity capacity
  if maxCapacity < capacity then .error (.invalidConfig .unreservable)
  else if host.reserves capacity then .ok ⟨.empty base h, .buffer capacity⟩
  else .error (.outOfMemory capacity 0)

/-- An empty arena at the end of the data segment, which has been moved to the next aligned address. -/
def ofSegment (stop : Nat) (host : Host := .ample) (tries : Nat := 0) : Provider :=
  ⟨.empty (ceilAligned stop) (dvd_ceilAligned stop), .dataSegment host tries (ceilAligned stop)⟩

/-- The same arena and source behind a meter. -/
def metered (p : Provider) (refuse : Nat → Option Error) : Provider :=
  { p with source := .metered refuse 0 [] p.source }

/-- Adds `n` bytes and gives the offset of the first. -/
def grow : Provider → Nat → Provider × Except Error Nat
  | ⟨a, source⟩, n =>
    match source.request a.base a.size n with
    | (source, .ok ()) => (⟨a.extend n, source⟩, .ok a.size)
    | (source, .error e) => (⟨a, source⟩, .error e)

/-- Gives all bytes of the arena back to the buffer, with what is in them. -/
def reset (p : Provider) : Provider :=
  { p with arena := { p.arena with size := 0 } }

/-- Another user of the data segment tries to move its end. The pages that lie behind the new end
are given back, and what is in them is lost. -/
def moveEnd (p : Provider) (delta : Int) : Provider :=
  let source := p.source.moveEnd delta
  match source.segmentEnd? with
  | none => ⟨p.arena, source⟩
  | some stop => ⟨p.arena.forget (Source.ceilPage stop - p.arena.base), source⟩

theorem grow_ok {p p' : Provider} {n offset : Nat} (h : p.grow n = (p', .ok offset)) :
    offset = p.arena.size ∧ p'.arena = p.arena.extend n := by
  obtain ⟨a, source⟩ := p
  simp only [grow] at h
  split at h <;> cases h
  exact ⟨rfl, rfl⟩

theorem arena_of_grow_error {p p' : Provider} {n : Nat} {e : Error}
    (h : p.grow n = (p', .error e)) : p'.arena = p.arena := by
  obtain ⟨a, source⟩ := p
  simp only [grow] at h
  split at h <;> cases h
  rfl

end Provider

end SegregatedFit
