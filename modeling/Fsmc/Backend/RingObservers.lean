/-
# Fsmc.Backend.RingObservers — a third thread that asks for the occupancy of the ring buffer.

An observer loads the two counters one after the other while both sides go on. Where it loads the head first, the
consumer may overtake the copy, and the difference wraps to a huge number. Where it loads the tail first, the copy
counts elements that are gone by then. Between loads that nothing overtakes, what it returns is sane.
-/
import Fsmc.Backend.RingBuffer

namespace Fsmc.Backend

/-- The calls of an observer. The language leaves open which operand `full` and `empty` load first; `size` loads
the head first. -/
inductive ObserverCall where
  | size
  | full (headFirst : Bool)
  | empty (headFirst : Bool)
  deriving DecidableEq, Repr

def ObserverCall.headFirst : ObserverCall → Bool
  | size => true
  | full headFirst => headFirst
  | empty headFirst => headFirst

namespace Ring

variable {L : RingLayout} {α : Type} {s : Ring L α} {taken : ℕ}

/-- How many elements the buffer holds. -/
def occupancy (s : Ring L α) : ℕ := (s.head - s.tail).toNat

/-- How many elements have left the buffer so far. -/
def removed (s : Ring L α) : ℕ := s.accepted.length - s.occupancy

theorem Inv.taken_le_accepted (h : s.Inv taken) : taken ≤ s.accepted.length :=
  (h.taken_le.trans h.destroyed_le).trans h.isPrefix.length_le

theorem Inv.accepted_le (h : s.Inv taken) : s.accepted.length ≤ taken + L.capacity :=
  s.accepted_prefix_written.length_le.trans h.window

theorem Inv.occupancy_eq (h : s.Inv taken) : s.occupancy = s.accepted.length - taken := by
  have hle := h.accepted_le
  have hcapacity := capacity_lt L
  unfold occupancy
  rw [h.head, h.tail]
  exact WrappingCounter.toNat_sub h.taken_le_accepted (by omega)

theorem Inv.removed_eq (h : s.Inv taken) : s.removed = taken := by
  have hle := h.taken_le_accepted
  rw [removed, h.occupancy_eq]
  omega

theorem accepted_take (slot : ℕ) : (s.take slot).accepted = s.accepted := by
  unfold take
  split <;> rfl

theorem accepted_step (s : Ring L α) (choice : RingChoice α) :
    s.accepted.length ≤ (s.step choice).accepted.length := by
  cases choice with
  | push value =>
    unfold step
    dsimp only
    split <;> exact le_rfl
  | produce =>
    show _ ≤ s.produce.accepted.length
    unfold produce
    split
    · exact le_rfl
    · exact le_rfl
    · split <;> exact le_rfl
    · show _ ≤ (s.accepted ++ [_]).length
      rw [List.length_append]
      exact Nat.le_add_right _ _
  | pop =>
    unfold step
    dsimp only
    split <;> exact le_rfl
  | clear =>
    unfold step
    dsimp only
    split <;> exact le_rfl
  | consume =>
    show _ ≤ s.consume.accepted.length
    unfold consume
    split
    · exact le_rfl
    · exact le_rfl
    · split
      · exact le_rfl
      · exact (congrArg List.length (s.accepted_take _)).ge
    · exact le_rfl
    · exact le_rfl
    · exact le_rfl
    · split
      · exact le_rfl
      · exact (congrArg List.length (s.accepted_take _)).ge

end Ring

/-- A call between its loads: the counter that it has loaded, and, for the history, the buffer at that moment and
whether it has been full since. -/
structure Pending (L : RingLayout) (α : Type) where
  call : ObserverCall
  loaded : BitVec L.width
  since : Ring L α
  wasFull : Bool

/-- What a call returned; for `full`, also whether the buffer was full at some moment during the call. -/
inductive Observation where
  | size (elements : ℕ)
  | full (result wasFull : Bool)
  | empty (result : Bool)
  deriving DecidableEq, Repr

/-- A size is one that the buffer can have, and a buffer that is reported as full was full. -/
def Observation.Sane (capacity : ℕ) : Observation → Prop
  | size elements => elements ≤ capacity
  | full result wasFull => result = true → wasFull = true
  | empty _ => True

instance (capacity : ℕ) : DecidablePred (Observation.Sane capacity)
  | .size _ => inferInstanceAs (Decidable (_ ≤ _))
  | .full _ _ => inferInstanceAs (Decidable (_ → _))
  | .empty _ => isTrue trivial

/-- The buffer with an observer, and what it has returned. -/
structure ObservedRing (L : RingLayout) (α : Type) where
  ring : Ring L α := Ring.empty
  pending : Option (Pending L α) := none
  observations : List Observation := []

/-- A step of one of the sides, the first load of a call, or its second one. -/
inductive ObservedChoice (α : Type) where
  | ring (choice : RingChoice α)
  | begin (call : ObserverCall)
  | finish

namespace ObservedRing

variable {L : RingLayout} {α : Type}

/-- The counters as a call sees them at its second load. -/
def seen (p : Pending L α) (s : Ring L α) : BitVec L.width × BitVec L.width :=
  if p.call.headFirst then (p.loaded, s.tail) else (s.head, p.loaded)

/-- What `size`, `full` and `empty` return. -/
def observe (p : Pending L α) (s : Ring L α) : Observation :=
  match p.call with
  | .size => .size ((seen p s).1 - (seen p s).2).toNat
  | .full _ => .full (decide (L.capacity ≤ ((seen p s).1 - (seen p s).2).toNat)) p.wasFull
  | .empty _ => .empty ((seen p s).1 == (seen p s).2)

def step (o : ObservedRing L α) : ObservedChoice α → ObservedRing L α
  | .ring choice =>
    { o with
      ring := o.ring.step choice
      pending := o.pending.map fun p =>
        { p with wasFull := p.wasFull || (o.ring.step choice).occupancy == L.capacity } }
  | .begin call =>
    match o.pending with
    | some _ => o
    | none =>
      { o with
        pending := some
          ⟨call, if call.headFirst then o.ring.head else o.ring.tail, o.ring, o.ring.occupancy == L.capacity⟩ }
  | .finish =>
    match o.pending with
    | some p => { o with pending := none, observations := o.observations ++ [observe p o.ring] }
    | none => o

/-- Nothing overtakes the copy of a call: where the head was loaded first, no more elements are removed until the
second load than the buffer held; where the tail was, none is removed or fewer are added than there was room for. -/
def NotOvertaken (p : Pending L α) (s : Ring L α) : Prop :=
  (p.call.headFirst = true → s.removed - p.since.removed ≤ p.since.occupancy) ∧
    (p.call.headFirst = false → s.removed = p.since.removed ∨
      s.accepted.length - p.since.accepted.length < L.capacity - p.since.occupancy)

instance (p : Pending L α) (s : Ring L α) : Decidable (NotOvertaken p s) :=
  inferInstanceAs (Decidable ((_ → _ ≤ _) ∧ (_ → _ ∨ _)))

/-- The condition on a step: a second load is not overtaken. -/
def StepQuiet (o : ObservedRing L α) : ObservedChoice α → Prop
  | .finish =>
    match o.pending with
    | some p => NotOvertaken p o.ring
    | none => True
  | _ => True

instance (o : ObservedRing L α) : ∀ choice, Decidable (o.StepQuiet choice)
  | .ring _ => isTrue trivial
  | .begin _ => isTrue trivial
  | .finish =>
    match h : o.pending with
    | some p => decidable_of_iff (NotOvertaken p o.ring) (by unfold StepQuiet; rw [h])
    | none => isTrue (by unfold StepQuiet; rw [h]; trivial)

/-- What is known of a pending call. -/
structure Follows (p : Pending L α) (s : Ring L α) (taken : ℕ) : Prop where
  loaded : p.loaded = if p.call.headFirst then p.since.head else p.since.tail
  accepted : p.since.accepted.length ≤ s.accepted.length
  before : ∃ old, old ≤ taken ∧ p.since.Inv old
  sinceFull : p.since.occupancy = L.capacity → p.wasFull = true
  nowFull : s.occupancy = L.capacity → p.wasFull = true

/-- The invariant of every interleaving with an observer. -/
structure Inv (o : ObservedRing L α) : Prop where
  ring : ∃ taken, o.ring.Inv taken ∧ ∀ p, o.pending = some p → Follows p o.ring taken
  allSane : ∀ r ∈ o.observations, r.Sane L.capacity

theorem Follows.sane {p : Pending L α} {s : Ring L α} {taken : ℕ} (h : Follows p s taken) (hs : s.Inv taken)
    (hquiet : NotOvertaken p s) : (observe p s).Sane L.capacity := by
  obtain ⟨old, hold, hsince⟩ := h.before
  have hcapacity := Ring.capacity_lt L
  have hnow := hs.accepted_le
  have hthen := hsince.accepted_le
  have hheld := hs.taken_le_accepted
  have hheld' := hsince.taken_le_accepted
  have haccepted := h.accepted
  have hloaded := h.loaded
  have hsinceFull := h.sinceFull
  have hnowFull := h.nowFull
  unfold NotOvertaken at hquiet
  rw [hs.removed_eq, hsince.removed_eq, hsince.occupancy_eq] at hquiet
  rw [hsince.occupancy_eq] at hsinceFull
  rw [hs.occupancy_eq] at hnowFull
  have hdifference : p.call.headFirst = true →
      ((seen p s).1 - (seen p s).2).toNat = p.since.accepted.length - taken := by
    intro hfirst
    have hovertaken := hquiet.1 hfirst
    rw [if_pos hfirst] at hloaded
    unfold seen
    rw [if_pos hfirst, hloaded, hsince.head, hs.tail]
    exact WrappingCounter.toNat_sub (by omega) (by omega)
  cases hcall : p.call with
  | empty headFirst =>
    unfold observe
    rw [hcall]
    trivial
  | size =>
    have heq := hdifference (by rw [hcall]; rfl)
    unfold observe
    rw [hcall]
    show ((seen p s).1 - (seen p s).2).toNat ≤ L.capacity
    omega
  | full headFirst =>
    unfold observe
    rw [hcall]
    intro hresult
    have hge : L.capacity ≤ ((seen p s).1 - (seen p s).2).toNat := of_decide_eq_true hresult
    cases headFirst with
    | true =>
      -- the head was loaded first: the buffer was full then
      rw [hdifference (by rw [hcall]; rfl)] at hge
      exact hsinceFull (by omega)
    | false =>
      have hlast : p.call.headFirst = false := by rw [hcall]; rfl
      have hfirst : ¬p.call.headFirst = true := ne_true_of_eq_false hlast
      rw [if_neg hfirst] at hloaded
      rcases hquiet.2 hlast with hnone | hfew
      · -- nothing was removed: the buffer is full at the second load
        have heq : ((seen p s).1 - (seen p s).2).toNat = s.accepted.length - old := by
          unfold seen
          rw [if_neg hfirst, hloaded, hsince.tail, hs.head]
          exact WrappingCounter.toNat_sub (by omega) (by omega)
        exact hnowFull (by omega)
      · have heq : ((seen p s).1 - (seen p s).2).toNat = s.accepted.length - old := by
          unfold seen
          rw [if_neg hfirst, hloaded, hsince.tail, hs.head]
          exact WrappingCounter.toNat_sub (by omega) (by omega)
        omega

theorem Inv.step {o : ObservedRing L α} (h : o.Inv) (choice : ObservedChoice α) (hquiet : o.StepQuiet choice) :
    (o.step choice).Inv := by
  obtain ⟨taken, hring, hfollows⟩ := h.ring
  cases choice with
  | ring choice =>
    obtain ⟨later, hle, hlater⟩ := hring.step choice
    refine ⟨⟨later, hlater, fun p hp => ?_⟩, h.allSane⟩
    obtain ⟨p', hp', rfl⟩ := Option.map_eq_some_iff.mp hp
    have hf := hfollows p' hp'
    obtain ⟨old, hold, hsince⟩ := hf.before
    refine ⟨hf.loaded, hf.accepted.trans (o.ring.accepted_step choice), ⟨old, hold.trans hle, hsince⟩, ?_, ?_⟩
    · intro hfull
      show (p'.wasFull || _) = true
      rw [hf.sinceFull hfull, Bool.true_or]
    · intro hfull
      have hnow : (o.ring.step choice).occupancy = L.capacity := hfull
      show (p'.wasFull || (o.ring.step choice).occupancy == L.capacity) = true
      rw [beq_iff_eq.mpr hnow, Bool.or_true]
  | begin call =>
    cases hpending : o.pending with
    | some p =>
      have heq : o.step (.begin call) = o := by
        unfold ObservedRing.step
        rw [hpending]
      rw [heq]
      exact h
    | none =>
      have heq : o.step (.begin call) =
          { o with
            pending := some ⟨call, if call.headFirst then o.ring.head else o.ring.tail, o.ring,
              o.ring.occupancy == L.capacity⟩ } := by
        unfold ObservedRing.step
        rw [hpending]
      rw [heq]
      refine ⟨⟨taken, hring, fun p hp => ?_⟩, h.allSane⟩
      obtain rfl := Option.some.inj hp
      exact ⟨rfl, le_rfl, ⟨taken, le_rfl, hring⟩, beq_iff_eq.mpr, beq_iff_eq.mpr⟩
  | finish =>
    cases hpending : o.pending with
    | none =>
      have heq : o.step .finish = o := by
        unfold ObservedRing.step
        rw [hpending]
      rw [heq]
      exact h
    | some p =>
      have heq : o.step .finish =
          { o with pending := none, observations := o.observations ++ [observe p o.ring] } := by
        unfold ObservedRing.step
        rw [hpending]
      have hnot : NotOvertaken p o.ring := by
        unfold StepQuiet at hquiet
        rw [hpending] at hquiet
        exact hquiet
      rw [heq]
      refine ⟨⟨taken, hring, nofun⟩, fun r hr => ?_⟩
      rcases List.mem_append.mp hr with hr | hr
      · exact h.allSane r hr
      · rw [List.mem_singleton.mp hr]
        exact (hfollows p hpending).sane hring hnot

end ObservedRing

/-- **Observers are sane** in every interleaving in which nothing overtakes their copies. -/
theorem observers_sane {L : RingLayout} {α : Type} (choices : List (ObservedChoice α))
    (hquiet : Runs.Along ObservedRing.step ObservedRing.StepQuiet ({} : ObservedRing L α) choices) :
    ∀ r ∈ (choices.foldl ObservedRing.step ({} : ObservedRing L α)).observations, r.Sane L.capacity := by
  have hstart : ({} : ObservedRing L α).Inv := ⟨⟨0, Ring.inv_empty, nofun⟩, List.forall_mem_nil _⟩
  have hstep : ∀ (o : ObservedRing L α) (choice : ObservedChoice α), o.Inv → o.StepQuiet choice →
      (o.step choice).Inv := fun o choice h hquiet => h.step choice hquiet
  exact (Runs.along_invariant hstep choices _ hstart hquiet).allSane

/-- Counters of 64 bits and room for two elements. -/
def twoSlots : RingLayout := ⟨64, 1, by decide, by decide⟩

/-- The steps of a push, and those of a pop. -/
def pushed (value : ℕ) : List (ObservedChoice ℕ) := [.ring (.push value), .ring .produce, .ring .produce, .ring .produce]

def popped : List (ObservedChoice ℕ) :=
  [.ring .pop, .ring .consume, .ring .consume, .ring .consume, .ring .consume]

/-- An observer that is not overtaken: as much is added as is removed. -/
def quietRun : List (ObservedChoice ℕ) := pushed 5 ++ (.begin .size :: (pushed 6 ++ popped ++ [.finish]))

theorem quietRun_observers_sane :
    Runs.Along ObservedRing.step ObservedRing.StepQuiet ({} : ObservedRing twoSlots ℕ) quietRun ∧
      ∀ r ∈ (quietRun.foldl ObservedRing.step ({} : ObservedRing twoSlots ℕ)).observations,
        r.Sane twoSlots.capacity := by
  have hquiet : Runs.Along ObservedRing.step ObservedRing.StepQuiet ({} : ObservedRing twoSlots ℕ) quietRun := by
    decide
  exact ⟨hquiet, observers_sane quietRun hquiet⟩

/-- An element passes through the buffer between the two loads of a call. -/
def overtakingRun (call : ObserverCall) : List (ObservedChoice ℕ) := .begin call :: (pushed 5 ++ popped ++ [.finish])

/-- **A stale head**: the size of a buffer of two elements is huge. -/
theorem stale_head_not_sane : ¬∀ choices : List (ObservedChoice ℕ), ∀ r ∈ (choices.foldl ObservedRing.step
      ({} : ObservedRing twoSlots ℕ)).observations, r.Sane twoSlots.capacity := by
  intro h
  have hmem : Observation.size (2 ^ 64 - 1) ∈ ((overtakingRun .size).foldl
      ObservedRing.step ({} : ObservedRing twoSlots ℕ)).observations := by decide
  exact absurd (h _ _ hmem) (by decide)

example : ((overtakingRun (.full true)).foldl ObservedRing.step ({} : ObservedRing twoSlots ℕ)).observations =
    [.full true false] := by decide

end Fsmc.Backend
