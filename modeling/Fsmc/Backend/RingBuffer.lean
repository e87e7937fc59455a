/-
# Fsmc.Backend.RingBuffer — the ring buffer between one producer and one consumer.

Both sides are programs whose steps are single loads, stores and slot accesses, interleaved in any order. The
counters wrap at their width, and each side decides by a copy of the other's counter that may be stale. The
buffer is nevertheless a bounded queue: what the consumer takes is a prefix of what the producer put in.
-/
import Mathlib.Data.List.Infix
import Fsmc.Lib.Runs
import Fsmc.Lib.WrappingCounter

namespace Fsmc.Backend

/-- The width of the counters and the capacity, a power of two. -/
structure RingLayout where
  width : ℕ
  capacityBits : ℕ
  one_le : 1 ≤ capacityBits
  fits : capacityBits < width

def RingLayout.capacity (L : RingLayout) : ℕ := 2 ^ L.capacityBits

/-- A slot of the storage: without an object, or with one, which may have been moved from. -/
inductive Slot (α : Type) where
  | raw
  | live (value : α)
  | moved

/-- What a step may do that the language does not define. -/
inductive RingFault where
  | constructOverLive | readUnconstructed | destroyUnconstructed
  deriving DecidableEq, Repr

/-- Where the producer is in `emplace`, with its local variables. -/
inductive Producer (w : ℕ) (α : Type) where
  | idle
  | headLoaded (value : α) (head : BitVec w)
  | tailLoaded (value : α) (head tail : BitVec w)
  | constructed (value : α) (head : BitVec w)

/-- Where the consumer is in `pop` or `clear`, with its local variables. -/
inductive Consumer (w : ℕ) where
  | idle
  | popTailLoaded (tail : BitVec w)
  | popHeadLoaded (tail head : BitVec w)
  | popMoved (tail : BitVec w)
  | popDestroyed (tail : BitVec w)
  | clearHeadLoaded (head : BitVec w)
  | clearing (head tail : BitVec w)

/-- The buffer with both sides, and the history: the accepted values, the popped and cleared ones, and how many
objects were constructed and destroyed. -/
structure Ring (L : RingLayout) (α : Type) where
  head : BitVec L.width
  tail : BitVec L.width
  slots : ℕ → Slot α
  producer : Producer L.width α
  consumer : Consumer L.width
  accepted : List α
  consumed : List α
  built : ℕ
  destroyed : ℕ
  faults : List RingFault

/-- Which side takes the next step. A side that is idle may begin an operation. -/
inductive RingChoice (α : Type) where
  | push (value : α)
  | produce
  | pop
  | clear
  | consume

namespace Ring

variable {L : RingLayout} {α : Type}

/-- `get_slot`, with `IndexMask`. -/
def getSlot (index : BitVec L.width) : ℕ := (index &&& BitVec.ofNat L.width (L.capacity - 1)).toNat

/-- An empty buffer, before any operation. -/
def empty : Ring L α := ⟨0, 0, fun _ => .raw, .idle, .idle, [], [], 0, 0, []⟩

/-- Construct an object in a slot. -/
def construct (s : Ring L α) (slot : ℕ) (value : α) : Ring L α :=
  { s with
    slots := Function.update s.slots slot (.live value)
    built := s.built + 1
    faults := match s.slots slot with
      | .raw => s.faults
      | _ => s.faults ++ [.constructOverLive] }

/-- Destroy the object in a slot. -/
def destroy (s : Ring L α) (slot : ℕ) : Ring L α :=
  { s with
    slots := Function.update s.slots slot .raw
    destroyed := s.destroyed + 1
    faults := match s.slots slot with
      | .raw => s.faults ++ [.destroyUnconstructed]
      | _ => s.faults }

/-- Take the value out of a slot. -/
def take (s : Ring L α) (slot : ℕ) : Ring L α :=
  match s.slots slot with
  | .live value => { s with slots := Function.update s.slots slot .moved, consumed := s.consumed ++ [value] }
  | _ => { s with faults := s.faults ++ [.readUnconstructed] }

/-- The next step of `emplace`. -/
def produce (s : Ring L α) : Ring L α :=
  match s.producer with
  | .idle => s
  | .headLoaded value head => { s with producer := .tailLoaded value head s.tail }
  | .tailLoaded value head tail =>
    if L.capacity ≤ (head - tail).toNat then { s with producer := .idle }
    else { s.construct (getSlot head) value with producer := .constructed value head }
  | .constructed value head =>
    { s with head := head + 1, accepted := s.accepted ++ [value], producer := .idle }

/-- The next step of `pop` or `clear`. -/
def consume (s : Ring L α) : Ring L α :=
  match s.consumer with
  | .idle => s
  | .popTailLoaded tail => { s with consumer := .popHeadLoaded tail s.head }
  | .popHeadLoaded tail head =>
    if tail = head then { s with consumer := .idle }
    else { s.take (getSlot tail) with consumer := .popMoved tail }
  | .popMoved tail => { s.destroy (getSlot tail) with consumer := .popDestroyed tail }
  | .popDestroyed tail => { s with tail := tail + 1, consumer := .idle }
  | .clearHeadLoaded head => { s with consumer := .clearing head s.tail }
  | .clearing head tail =>
    if tail = head then { s with tail := head, consumer := .idle }
    else { (s.take (getSlot tail)).destroy (getSlot tail) with consumer := .clearing head (tail + 1) }

def step (s : Ring L α) : RingChoice α → Ring L α
  | .push value =>
    match s.producer with
    | .idle => { s with producer := .headLoaded value s.head }
    | _ => s
  | .produce => s.produce
  | .pop =>
    match s.consumer with
    | .idle => { s with consumer := .popTailLoaded s.tail }
    | _ => s
  | .clear =>
    match s.consumer with
    | .idle => { s with consumer := .clearHeadLoaded s.head }
    | _ => s
  | .consume => s.consume

/-! ## The invariant -/

/-- The values that the producer has constructed, whether or not the consumer can see them. -/
def written (s : Ring L α) : List α :=
  match s.producer with
  | .constructed value _ => s.accepted ++ [value]
  | _ => s.accepted

/-- The number that a wrapped counter stands for. -/
abbrev counter (n : ℕ) : BitVec L.width := BitVec.ofNat L.width n

/-- What the producer knows: its head is current, and its copy of the tail is one that the tail once had. -/
def ProducerKnows (s : Ring L α) (taken : ℕ) : Prop :=
  match s.producer with
  | .idle => True
  | .headLoaded _ head => head = counter s.accepted.length
  | .tailLoaded _ head tail =>
    head = counter s.accepted.length ∧
      ∃ old, old ≤ taken ∧ s.accepted.length ≤ old + L.capacity ∧ tail = counter old
  | .constructed _ head => head = counter s.accepted.length

/-- What the consumer knows: its tail is current, and its copy of the head is one that the head once had. -/
def ConsumerKnows (s : Ring L α) (taken : ℕ) : Prop :=
  match s.consumer with
  | .idle => s.consumed.length = taken ∧ s.destroyed = taken
  | .popTailLoaded tail => s.consumed.length = taken ∧ s.destroyed = taken ∧ tail = counter taken
  | .popHeadLoaded tail head =>
    s.consumed.length = taken ∧ s.destroyed = taken ∧ tail = counter taken ∧
      ∃ old, taken ≤ old ∧ old ≤ s.accepted.length ∧ head = counter old
  | .popMoved tail => s.consumed.length = taken + 1 ∧ s.destroyed = taken ∧ tail = counter taken
  | .popDestroyed tail => s.consumed.length = taken + 1 ∧ s.destroyed = taken + 1 ∧ tail = counter taken
  | .clearHeadLoaded head =>
    s.consumed.length = taken ∧ s.destroyed = taken ∧
      ∃ old, taken ≤ old ∧ old ≤ s.accepted.length ∧ head = counter old
  | .clearing head tail =>
    s.consumed.length = s.destroyed ∧ tail = counter s.destroyed ∧
      ∃ old, s.destroyed ≤ old ∧ old ≤ s.accepted.length ∧ head = counter old

/-- What the counters, the slots and the history have to do with each other; the tail stands for a number of
its own. -/
structure Contents (s : Ring L α) (taken : ℕ) : Prop where
  head : s.head = counter s.accepted.length
  tail : s.tail = counter taken
  taken_le : taken ≤ s.destroyed
  destroyed_le : s.destroyed ≤ s.consumed.length
  built : s.built = s.written.length
  window : s.written.length ≤ taken + L.capacity
  isPrefix : s.consumed <+: s.accepted
  faults : s.faults = []
  live : ∀ i, s.consumed.length ≤ i → ∀ value, s.written[i]? = some value →
    s.slots (i % L.capacity) = .live value
  moved : ∀ i, s.destroyed ≤ i → i < s.consumed.length → s.slots (i % L.capacity) = .moved
  raw : ∀ i, s.written.length ≤ i → i < s.destroyed + L.capacity → s.slots (i % L.capacity) = .raw

/-- The invariant of every interleaving. -/
structure Inv (s : Ring L α) (taken : ℕ) : Prop extends s.Contents taken where
  producerKnows : s.ProducerKnows taken
  consumerKnows : s.ConsumerKnows taken

theorem getSlot_counter (n : ℕ) : getSlot (counter (L := L) n) = n % L.capacity :=
  WrappingCounter.toNat_and_mask L.fits.le n

theorem capacity_lt (L : RingLayout) : L.capacity < 2 ^ L.width :=
  Nat.pow_lt_pow_right (by decide) L.fits

theorem inv_empty : (empty : Ring L α).Inv 0 where
  head := rfl
  tail := rfl
  taken_le := le_rfl
  destroyed_le := le_rfl
  built := rfl
  window := Nat.zero_le _
  isPrefix := List.prefix_rfl
  faults := rfl
  live := by simp [empty, written]
  moved := by simp [empty]
  raw := fun _ _ _ => rfl
  producerKnows := trivial
  consumerKnows := ⟨rfl, rfl⟩

theorem accepted_prefix_written (s : Ring L α) : s.accepted <+: s.written := by
  unfold written
  split
  · exact List.prefix_append _ _
  · exact List.prefix_rfl

namespace Contents

variable {s : Ring L α} {taken : ℕ} (h : s.Contents taken)

include h

theorem consumed_le_written : s.consumed.length ≤ s.written.length :=
  (h.isPrefix.trans s.accepted_prefix_written).length_le

theorem slot_raw (hroom : s.written.length < taken + L.capacity) :
    s.slots (s.written.length % L.capacity) = .raw := by
  have htaken := h.taken_le
  exact h.raw _ le_rfl (by omega)

theorem slot_live {value : α} (hnext : s.accepted[s.consumed.length]? = some value) :
    s.slots (s.consumed.length % L.capacity) = .live value := by
  obtain ⟨rest, hrest⟩ := s.accepted_prefix_written
  refine h.live _ le_rfl value ?_
  rw [← hrest]
  exact (List.getElem?_append_left (List.getElem?_eq_some_iff.mp hnext).1).trans hnext

theorem take_eq {value : α} (hnext : s.accepted[s.consumed.length]? = some value) :
    s.take (s.consumed.length % L.capacity) =
      { s with
        slots := Function.update s.slots (s.consumed.length % L.capacity) .moved
        consumed := s.consumed ++ [value] } := by
  unfold take
  rw [h.slot_live hnext]

theorem take (hlt : s.consumed.length < s.accepted.length) :
    (s.take (s.consumed.length % L.capacity)).Contents taken := by
  have hnext : s.accepted[s.consumed.length]? = some s.accepted[s.consumed.length] :=
    List.getElem?_eq_getElem hlt
  have hwritten := h.consumed_le_written
  have hwindow := h.window
  have htaken := h.taken_le
  have hdestroyed := h.destroyed_le
  have haccepted := s.accepted_prefix_written.length_le
  rw [h.take_eq hnext]
  refine { h with destroyed_le := ?_, isPrefix := ?_, live := ?_, moved := ?_, raw := ?_ }
  · rw [List.length_append]
    exact hdestroyed.trans (Nat.le_add_right _ _)
  · obtain ⟨rest, hrest⟩ := h.isPrefix
    have htail : rest = s.accepted[s.consumed.length] :: rest.tail := by
      cases rest with
      | nil =>
        rw [List.append_nil] at hrest
        rw [hrest] at hlt
        omega
      | cons v rest =>
        have hv : s.accepted[s.consumed.length]? = some v := by
          rw [← hrest, List.getElem?_append_right le_rfl, Nat.sub_self]
          rfl
        rw [hnext, Option.some_inj] at hv
        rw [hv]
        rfl
    refine ⟨rest.tail, ?_⟩
    rw [List.append_assoc, List.singleton_append, ← htail]
    exact hrest
  · intro i hi value hvalue
    have hi' : s.consumed.length + 1 ≤ i := by simpa using hi
    have hlt' : i < s.written.length := (List.getElem?_eq_some_iff.mp hvalue).1
    -- A later value is in another slot of the window.
    have hslot := WrappingCounter.mod_ne (c := L.capacity) (d := taken) (i := i) (j := s.consumed.length)
      (by omega) (by omega) (by omega)
    show Function.update s.slots _ _ _ = _
    rw [Function.update_of_ne hslot]
    exact h.live i (by omega) value hvalue
  · intro i hi hi'
    have hlt' : i < s.consumed.length + 1 := by simpa using hi'
    show Function.update s.slots _ _ _ = _
    rcases Nat.lt_succ_iff_lt_or_eq.mp hlt' with hbefore | rfl
    · have hslot := WrappingCounter.mod_ne (c := L.capacity) (d := taken) (i := i) (j := s.consumed.length)
        (by have : s.destroyed ≤ i := hi; omega) (by omega) (by omega)
      rw [Function.update_of_ne hslot]
      exact h.moved i hi hbefore
    · exact Function.update_self _ _ _
  · intro i hi hi'
    have hge : s.written.length ≤ i := hi
    have hlt' : i < s.destroyed + L.capacity := hi'
    have hslot := WrappingCounter.mod_ne (c := L.capacity) (d := s.destroyed) (i := i)
      (j := s.consumed.length) (by omega) (by omega) (by omega)
    show Function.update s.slots _ _ _ = _
    rw [Function.update_of_ne hslot]
    exact h.raw i hge hlt'

theorem take_frame (hlt : s.consumed.length < s.accepted.length) :
    (s.take (s.consumed.length % L.capacity)).consumed.length = s.consumed.length + 1 ∧
      (s.take (s.consumed.length % L.capacity)).destroyed = s.destroyed ∧
      (s.take (s.consumed.length % L.capacity)).accepted = s.accepted ∧
      (s.take (s.consumed.length % L.capacity)).producer = s.producer := by
  rw [h.take_eq (List.getElem?_eq_getElem hlt)]
  exact ⟨List.length_append, rfl, rfl, rfl⟩

/-- Destroying the oldest object frees its slot for the next turn of the ring. -/
theorem destroy (hlt : s.destroyed < s.consumed.length) : (s.destroy (s.destroyed % L.capacity)).Contents taken := by
  have hwritten := h.consumed_le_written
  have hwindow := h.window
  have htaken := h.taken_le
  have hslot := h.moved s.destroyed le_rfl hlt
  unfold Ring.destroy
  rw [hslot]
  refine { h with taken_le := ?_, destroyed_le := hlt, live := ?_, moved := ?_, raw := ?_ }
  · exact htaken.trans (Nat.le_succ _)
  · intro i hi value hvalue
    have hge : s.consumed.length ≤ i := hi
    have hlt' : i < s.written.length := (List.getElem?_eq_some_iff.mp hvalue).1
    have hne := WrappingCounter.mod_ne (c := L.capacity) (d := taken) (i := i) (j := s.destroyed)
      (by omega) (by omega) (by omega)
    show Function.update s.slots _ _ _ = _
    rw [Function.update_of_ne hne]
    exact h.live i hge value hvalue
  · intro i hi hi'
    have hge : s.destroyed + 1 ≤ i := hi
    have hlt' : i < s.consumed.length := hi'
    have hne := WrappingCounter.mod_ne (c := L.capacity) (d := taken) (i := i) (j := s.destroyed)
      (by omega) (by omega) (by omega)
    show Function.update s.slots _ _ _ = _
    rw [Function.update_of_ne hne]
    exact h.moved i (by omega) hlt'
  · intro i hi hi'
    have hge : s.written.length ≤ i := hi
    have hlt' : i < s.destroyed + 1 + L.capacity := hi'
    show Function.update s.slots _ _ _ = _
    -- The slot that is freed is the one of the number a whole ring later.
    by_cases heq : i % L.capacity = s.destroyed % L.capacity
    · rw [heq, Function.update_self]
    · have hne : i ≠ s.destroyed + L.capacity := by
        rintro rfl
        exact heq (Nat.add_mod_right _ _)
      rw [Function.update_of_ne heq]
      exact h.raw i hge (by omega)

theorem storeTail : Contents { s with tail := counter s.destroyed } s.destroyed := by
  have htaken := h.taken_le
  have hwindow := h.window
  exact { h with
    tail := rfl
    taken_le := le_rfl
    window := by
      show s.written.length ≤ s.destroyed + L.capacity
      omega }

end Contents

theorem ProducerKnows.mono {s : Ring L α} {taken later : ℕ} (h : s.ProducerKnows taken) (hle : taken ≤ later) :
    s.ProducerKnows later := by
  unfold ProducerKnows at h ⊢
  split <;> rename_i heq <;> rw [heq] at h
  · trivial
  · exact h
  · obtain ⟨hhead, old, hold, hroom, htail⟩ := h
    exact ⟨hhead, old, hold.trans hle, hroom, htail⟩
  · exact h

theorem ProducerKnows.congr {s s' : Ring L α} {taken : ℕ} (h : s.ProducerKnows taken)
    (hproducer : s'.producer = s.producer) (haccepted : s'.accepted = s.accepted) : s'.ProducerKnows taken := by
  unfold ProducerKnows at h ⊢
  rwa [hproducer, haccepted]

theorem ConsumerKnows.mono {s s' : Ring L α} {taken : ℕ} (h : s.ConsumerKnows taken)
    (hconsumer : s'.consumer = s.consumer) (hconsumed : s'.consumed = s.consumed)
    (hdestroyed : s'.destroyed = s.destroyed) (haccepted : s.accepted.length ≤ s'.accepted.length) :
    s'.ConsumerKnows taken := by
  unfold ConsumerKnows at h ⊢
  rw [hconsumer, hconsumed, hdestroyed]
  split <;> rename_i heq <;> rw [heq] at h
  · exact h
  · exact h
  · obtain ⟨hlength, hgone, htail, old, hle, hold, hhead⟩ := h
    exact ⟨hlength, hgone, htail, old, hle, hold.trans haccepted, hhead⟩
  · exact h
  · exact h
  · obtain ⟨hlength, hgone, old, hle, hold, hhead⟩ := h
    exact ⟨hlength, hgone, old, hle, hold.trans haccepted, hhead⟩
  · obtain ⟨hlength, htail, old, hle, hold, hhead⟩ := h
    exact ⟨hlength, htail, old, hle, hold.trans haccepted, hhead⟩

namespace Inv

variable {s : Ring L α} {taken : ℕ} (h : s.Inv taken)

include h

/-! ## The steps of the producer -/

variable {head : BitVec L.width}

theorem construct {value : α} (hwritten : s.written = s.accepted)
    (hhead : head = counter s.accepted.length) (hroom : s.accepted.length < taken + L.capacity) :
    Inv { s.construct (getSlot head) value with producer := .constructed value head } taken := by
  have hslot : s.slots (s.accepted.length % L.capacity) = .raw := by
    rw [← hwritten] at hroom ⊢
    exact h.slot_raw hroom
  have hconsumed := h.isPrefix.length_le
  have htaken := h.taken_le
  have hdestroyed := h.destroyed_le
  rw [hhead, getSlot_counter]
  unfold Ring.construct
  rw [hslot]
  refine { h with
    built := ?_, window := ?_, live := ?_, moved := ?_, raw := ?_, producerKnows := ?_ }
  · show s.built + 1 = (s.accepted ++ [value]).length
    rw [h.built, hwritten, List.length_append]
    rfl
  · show (s.accepted ++ [value]).length ≤ taken + L.capacity
    rw [List.length_append, List.length_singleton]
    exact hroom
  · intro i hi v hv
    have hge : s.consumed.length ≤ i := hi
    have hget : (s.accepted ++ [value])[i]? = some v := hv
    show Function.update s.slots _ _ _ = _
    rcases Nat.lt_or_ge i s.accepted.length with hlt | hlast
    · have hne := WrappingCounter.mod_ne (c := L.capacity) (d := taken) (i := i) (j := s.accepted.length)
        (by omega) (by omega) (by omega)
      rw [Function.update_of_ne hne]
      refine h.live i hge v ?_
      rw [hwritten, ← hget, List.getElem?_append_left hlt]
    · have hend := (List.getElem?_eq_some_iff.mp hget).1
      rw [List.length_append, List.length_singleton] at hend
      obtain rfl : i = s.accepted.length := by omega
      rw [List.getElem?_append_right le_rfl, Nat.sub_self] at hget
      have hvalue : value = v := Option.some_inj.mp hget
      rw [Function.update_self, hvalue]
  · intro i hi hi'
    have hge : s.destroyed ≤ i := hi
    have hlt : i < s.consumed.length := hi'
    have hne := WrappingCounter.mod_ne (c := L.capacity) (d := taken) (i := i) (j := s.accepted.length)
      (by omega) (by omega) (by omega)
    show Function.update s.slots _ _ _ = _
    rw [Function.update_of_ne hne]
    exact h.moved i hge hlt
  · intro i hi hi'
    have hge : (s.accepted ++ [value]).length ≤ i := hi
    have hlt : i < s.destroyed + L.capacity := hi'
    rw [List.length_append, List.length_singleton] at hge
    have hne := WrappingCounter.mod_ne (c := L.capacity) (d := s.destroyed) (i := i) (j := s.accepted.length)
      (by omega) (by omega) (by omega)
    show Function.update s.slots _ _ _ = _
    rw [Function.update_of_ne hne]
    refine h.raw i ?_ hlt
    rw [hwritten]
    omega
  · exact rfl

theorem storeHead {value : α} (hproducer : s.producer = .constructed value head) :
    Inv { s with head := head + 1, accepted := s.accepted ++ [value], producer := .idle } taken := by
  have hwritten : s.written = s.accepted ++ [value] := by
    unfold written
    rw [hproducer]
  have hknows : head = counter s.accepted.length := by
    have hknows := h.producerKnows
    unfold ProducerKnows at hknows
    rwa [hproducer] at hknows
  exact { h with
    head := by
      show head + 1 = counter (s.accepted ++ [value]).length
      rw [hknows, List.length_append]
      exact WrappingCounter.ofNat_succ _
    built := h.built.trans (congrArg List.length hwritten)
    window := by
      have hwindow := h.window
      rwa [hwritten] at hwindow
    isPrefix := h.isPrefix.trans (List.prefix_append _ _)
    live := by
      have hlive := h.live
      rwa [hwritten] at hlive
    raw := by
      have hraw := h.raw
      rwa [hwritten] at hraw
    producerKnows := trivial
    consumerKnows := h.consumerKnows.mono rfl rfl rfl (List.prefix_append _ _).length_le }

theorem setProducer {producer : Producer L.width α}
    (hwritten : Ring.written { s with producer := producer } = s.written)
    (hknows : ProducerKnows { s with producer := producer } taken) :
    Inv { s with producer := producer } taken :=
  { h with
    built := h.built.trans (congrArg List.length hwritten.symm)
    window := by rw [hwritten]; exact h.window
    live := by rw [hwritten]; exact h.live
    raw := by rw [hwritten]; exact h.raw
    producerKnows := hknows }

theorem produce : s.produce.Inv taken := by
  have hknows := h.producerKnows
  have hwindow := h.window
  unfold ProducerKnows at hknows
  unfold Ring.produce
  split <;> rename_i heq <;> rw [heq] at hknows
  · exact h
  · -- The copy of the tail that is loaded here is current.
    have hwritten : s.written = s.accepted := by unfold written; rw [heq]
    rw [hwritten] at hwindow
    exact h.setProducer hwritten.symm ⟨hknows, taken, le_rfl, hwindow, h.tail⟩
  · -- The copy may be stale, but a stale tail only hides free slots.
    have hwritten : s.written = s.accepted := by unfold written; rw [heq]
    rw [hwritten] at hwindow
    obtain ⟨hhead, old, hold, hroom, htail⟩ := hknows
    split
    · exact h.setProducer hwritten.symm trivial
    · rename_i hspace
      rw [hhead, htail] at hspace
      have hlt : s.accepted.length < taken + L.capacity := by
        by_contra hfull
        refine hspace ?_
        have hcapacity := capacity_lt L
        rw [WrappingCounter.toNat_sub (by omega) (by omega)]
        omega
      exact h.construct hwritten hhead hlt
  · exact h.storeHead heq

/-! ## The steps of the consumer -/

theorem setConsumer {consumer : Consumer L.width} (hknows : ConsumerKnows { s with consumer := consumer } taken) :
    Inv { s with consumer := consumer } taken :=
  { h with consumerKnows := hknows }

/-- Local copies of the two counters differ if and only if there is something between them. -/
theorem copies_eq_iff {seen old : ℕ} (hseen : taken ≤ seen) (hle : seen ≤ old)
    (hold : old ≤ s.accepted.length) : counter (L := L) seen = counter old ↔ seen = old := by
  have hwindow := h.window
  have haccepted := s.accepted_prefix_written.length_le
  have hcapacity := capacity_lt L
  exact WrappingCounter.ofNat_eq_iff hle (by omega)

theorem consume : ∃ later, taken ≤ later ∧ s.consume.Inv later := by
  have hknows := h.consumerKnows
  unfold ConsumerKnows at hknows
  unfold Ring.consume
  cases heq : s.consumer with
  | idle => exact ⟨taken, le_rfl, h⟩
  | popTailLoaded tail =>
    -- `pop` loads the head; it is current.
    rw [heq] at hknows
    dsimp only
    obtain ⟨hlength, hgone, htail⟩ := hknows
    have hle : taken ≤ s.accepted.length := hlength ▸ h.isPrefix.length_le
    exact ⟨taken, le_rfl, h.setConsumer ⟨hlength, hgone, htail, _, hle, le_rfl, h.head⟩⟩
  | popHeadLoaded tail head =>
    -- `pop` compares, and takes the value if there is one.
    rw [heq] at hknows
    dsimp only
    obtain ⟨hlength, hgone, htail, old, hle, hold, hhead⟩ := hknows
    split
    · exact ⟨taken, le_rfl, h.setConsumer ⟨hlength, hgone⟩⟩
    · rename_i hne
      rw [htail, hhead, h.copies_eq_iff le_rfl hle hold] at hne
      have hlt : s.consumed.length < s.accepted.length := by omega
      obtain ⟨hmore, hsame, haccepted, hproducer⟩ := h.toContents.take_frame hlt
      have hslot : getSlot tail = s.consumed.length % L.capacity := by rw [htail, getSlot_counter, hlength]
      rw [hslot]
      exact ⟨taken, le_rfl, { h.toContents.take hlt with
        producerKnows := h.producerKnows.congr hproducer haccepted
        consumerKnows := ⟨hmore.trans (congrArg (· + 1) hlength), hsame.trans hgone, htail⟩ }⟩
  | popMoved tail =>
    -- `pop` destroys the object that it has moved from.
    rw [heq] at hknows
    dsimp only
    obtain ⟨hlength, hgone, htail⟩ := hknows
    have hdestroyed := h.toContents.destroy (by omega)
    have hslot : getSlot tail = s.destroyed % L.capacity := by rw [htail, getSlot_counter, hgone]
    rw [hslot]
    exact ⟨taken, le_rfl, { hdestroyed with
      producerKnows := h.producerKnows
      consumerKnows := ⟨hlength, congrArg (· + 1) hgone, htail⟩ }⟩
  | popDestroyed tail =>
    -- `pop` stores the tail.
    rw [heq] at hknows
    dsimp only
    obtain ⟨hlength, hgone, htail⟩ := hknows
    have hstored := h.toContents.storeTail
    have hnext : tail + 1 = counter s.destroyed := by
      rw [htail, hgone]
      exact WrappingCounter.ofNat_succ _
    rw [hnext]
    exact ⟨s.destroyed, h.taken_le, { hstored with
      producerKnows := h.producerKnows.mono h.taken_le
      consumerKnows := ⟨hlength.trans hgone.symm, rfl⟩ }⟩
  | clearHeadLoaded head =>
    -- `clear` loads the tail.
    rw [heq] at hknows
    dsimp only
    obtain ⟨hlength, hgone, old, hle, hold, hhead⟩ := hknows
    rw [← hgone] at hle
    exact ⟨taken, le_rfl, h.setConsumer
      ⟨hlength.trans hgone.symm, h.tail.trans (congrArg counter hgone.symm), old, hle, hold, hhead⟩⟩
  | clearing head tail =>
    -- `clear` destroys up to the head that it has loaded, and then stores that head.
    rw [heq] at hknows
    dsimp only
    obtain ⟨hlength, htail, old, hle, hold, hhead⟩ := hknows
    split
    · rename_i hend
      rw [htail, hhead, h.copies_eq_iff h.taken_le hle hold] at hend
      rw [hhead, ← hend]
      exact ⟨s.destroyed, h.taken_le, { h.toContents.storeTail with
        producerKnows := h.producerKnows.mono h.taken_le
        consumerKnows := ⟨hlength, rfl⟩ }⟩
    · rename_i hne
      rw [htail, hhead, h.copies_eq_iff h.taken_le hle hold] at hne
      have hlt : s.consumed.length < s.accepted.length := by omega
      obtain ⟨hmore, hsame, haccepted, hproducer⟩ := h.toContents.take_frame hlt
      have hdestroyed := (h.toContents.take hlt).destroy (by omega)
      have hslot : getSlot tail = s.consumed.length % L.capacity := by rw [htail, getSlot_counter, hlength]
      have hgone : (s.take (s.consumed.length % L.capacity)).destroyed % L.capacity =
          s.consumed.length % L.capacity := by rw [hsame, hlength]
      have hnext : tail + 1 = counter (s.destroyed + 1) := htail ▸ WrappingCounter.ofNat_succ _
      rw [hgone] at hdestroyed
      rw [hslot]
      refine ⟨taken, le_rfl, { hdestroyed with
        producerKnows := h.producerKnows.congr hproducer haccepted
        consumerKnows := ⟨?_, ?_, old, ?_, ?_, hhead⟩ }⟩
      · exact hmore.trans (congrArg (· + 1) (hlength.trans hsame.symm))
      · exact hnext.trans (congrArg (fun n => counter (n + 1)) hsame.symm)
      · show (s.take _).destroyed + 1 ≤ old
        omega
      · show old ≤ (s.take _).accepted.length
        rw [haccepted]
        exact hold

end Inv

/-! ## Every interleaving -/

/-- A step of either side keeps the invariant, and the tail does not go back. -/
theorem Inv.step {s : Ring L α} {taken : ℕ} (h : s.Inv taken) (choice : RingChoice α) :
    ∃ later, taken ≤ later ∧ (s.step choice).Inv later := by
  cases choice with
  | push value =>
    unfold Ring.step
    dsimp only
    split
    · rename_i heq
      have hwritten : s.written = s.accepted := by unfold written; rw [heq]
      exact ⟨taken, le_rfl, h.setProducer hwritten.symm h.head⟩
    · exact ⟨taken, le_rfl, h⟩
  | produce => exact ⟨taken, le_rfl, h.produce⟩
  | pop =>
    unfold Ring.step
    dsimp only
    split
    · rename_i heq
      have hknows := h.consumerKnows
      unfold ConsumerKnows at hknows
      rw [heq] at hknows
      exact ⟨taken, le_rfl, h.setConsumer ⟨hknows.1, hknows.2, h.tail⟩⟩
    · exact ⟨taken, le_rfl, h⟩
  | clear =>
    unfold Ring.step
    dsimp only
    split
    · rename_i heq
      have hknows := h.consumerKnows
      unfold ConsumerKnows at hknows
      rw [heq] at hknows
      have hle : taken ≤ s.accepted.length := hknows.1 ▸ h.isPrefix.length_le
      exact ⟨taken, le_rfl, h.setConsumer ⟨hknows.1, hknows.2, _, hle, le_rfl, h.head⟩⟩
    · exact ⟨taken, le_rfl, h⟩
  | consume => exact h.consume

theorem inv_run (choices : List (RingChoice α)) : ∃ taken, (choices.foldl step (empty : Ring L α)).Inv taken := by
  have hstep : ∀ (s : Ring L α) (choice : RingChoice α), (∃ taken, s.Inv taken) →
      ∃ later, (s.step choice).Inv later := by
    rintro s choice ⟨taken, h⟩
    obtain ⟨later, -, hlater⟩ := h.step choice
    exact ⟨later, hlater⟩
  exact Runs.run_invariant hstep choices empty ⟨0, inv_empty⟩

/-- In every interleaving, what was popped and cleared is a prefix of what was accepted, no step reads or
destroys where there is no object or constructs where there is one, and there are never more objects than
slots. -/
theorem isBoundedQueue (choices : List (RingChoice α)) :
    (choices.foldl step (empty : Ring L α)).consumed <+: (choices.foldl step (empty : Ring L α)).accepted ∧
      (choices.foldl step (empty : Ring L α)).faults = [] ∧
      (choices.foldl step (empty : Ring L α)).built ≤
        (choices.foldl step (empty : Ring L α)).destroyed + L.capacity := by
  obtain ⟨taken, h⟩ := inv_run (L := L) choices
  refine ⟨h.isPrefix, h.faults, ?_⟩
  have htaken := h.taken_le
  have hwindow := h.window
  rw [h.built]
  omega

end Ring

end Fsmc.Backend
