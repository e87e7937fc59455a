/-
# Fsmc.Lib.Deferral — machines that hold events back.

An event that a machine cannot take and declares as deferred waits in a queue. After each event from
outside, the waiting events that are no longer held back are delivered in the order of their arrival. A
machine that never holds an event back is a plain one.
-/
import Mathlib.Data.List.Induction
import Mathlib.Order.Basic
import Mathlib.Order.Nat

namespace Fsmc.Lib.Deferral

variable {C E : Type*} [DecidableEq E]

/-- A machine: the configuration after an event that it takes, and the events that it declares as
deferred. -/
structure Machine (C E : Type*) where
  take : C → E → Option C
  deferred : C → E → Bool

variable (m : Machine C E)

/-- An event is held back: it is declared as deferred and the machine does not take it. -/
def Machine.keeps (c : C) (e : E) : Bool := m.deferred c e && (m.take c e).isNone

/-- Deliver an event; one that the machine does not take is discarded. -/
def Machine.deliver (c : C) (e : E) : C := (m.take c e).getD c

/-- Deliver what is no longer held back. Each turn removes an event from the queue, so that its length
is enough fuel. -/
def Machine.recall : Nat → C × List E → C × List E
  | 0, s => s
  | n + 1, s =>
    match s.2.find? fun e => !m.keeps s.1 e with
    | none => s
    | some e => Machine.recall n (m.deliver s.1 e, s.2.erase e)

/-- An event from outside waits or is delivered. -/
def Machine.arrive (s : C × List E) (e : E) : C × List E :=
  if m.keeps s.1 e then (s.1, s.2 ++ [e]) else (m.deliver s.1 e, s.2)

/-- Receive an event from outside. -/
def Machine.receive (s : C × List E) (e : E) : C × List E :=
  m.recall (m.arrive s e).2.length (m.arrive s e)

/-- Receive events, with nothing waiting at first. -/
def Machine.run (c : C) (es : List E) : C × List E := es.foldl m.receive (c, [])

/-- No waiting event can be taken. -/
def Machine.Quiet (s : C × List E) : Prop := ∀ e ∈ s.2, m.take s.1 e = none

variable {m}

omit [DecidableEq E] in
theorem Machine.arrive_fst (s : C × List E) (e : E) : (m.arrive s e).1 = m.deliver s.1 e := by
  unfold Machine.arrive
  split
  · rename_i h
    have hnone : m.take s.1 e = none := by
      unfold Machine.keeps at h
      simp only [Bool.and_eq_true, Option.isNone_iff_eq_none] at h
      exact h.2
    simp [Machine.deliver, hnone]
  · rfl

/-! ## Recalling -/

theorem Machine.recall_fst_of_quiet (n : Nat) : ∀ s : C × List E, m.Quiet s → (m.recall n s).1 = s.1 := by
  induction n with
  | zero => exact fun s _ => rfl
  | succ n ih =>
    intro s hquiet
    unfold Machine.recall
    cases hfind : s.2.find? fun e => !m.keeps s.1 e with
    | none => rfl
    | some e =>
      have hstay : m.deliver s.1 e = s.1 := by
        simp [Machine.deliver, hquiet e (List.mem_of_find?_eq_some hfind)]
      show (m.recall n (m.deliver s.1 e, s.2.erase e)).1 = s.1
      rw [hstay]
      exact ih _ fun x hx => hquiet x (List.mem_of_mem_erase hx)

section Growing

variable {size : C → Nat} (hsize : ∀ c e c', m.take c e = some c' → size c < size c')

include hsize

theorem Machine.size_le_recall (n : Nat) : ∀ s : C × List E, size s.1 ≤ size (m.recall n s).1 := by
  induction n with
  | zero => exact fun s => le_rfl
  | succ n ih =>
    intro s
    unfold Machine.recall
    cases s.2.find? fun e => !m.keeps s.1 e with
    | none => exact le_rfl
    | some e =>
      have hdeliver : size s.1 ≤ size (m.deliver s.1 e) := by
        unfold Machine.deliver
        cases htake : m.take s.1 e with
        | none => exact le_rfl
        | some c' => exact (hsize _ _ _ htake).le
      exact hdeliver.trans (ih (m.deliver s.1 e, s.2.erase e))

theorem Machine.size_lt_recall (n : Nat) : ∀ s : C × List E, s.2.length ≤ n →
    (∃ e ∈ s.2, m.take s.1 e ≠ none) → size s.1 < size (m.recall n s).1 := by
  induction n with
  | zero =>
    rintro s hlen ⟨e, he, _⟩
    rw [List.length_eq_zero_iff.mp (Nat.le_zero.mp hlen)] at he
    exact absurd he (by simp)
  | succ n ih =>
    rintro s hlen ⟨e, he, htake⟩
    unfold Machine.recall
    have hfree : (!m.keeps s.1 e) = true := by
      unfold Machine.keeps
      simp [Option.isSome_iff_ne_none, htake]
    cases hfind : s.2.find? fun e => !m.keeps s.1 e with
    | none => exact absurd hfree (List.find?_eq_none.mp hfind e he)
    | some e₀ =>
      have hmem : e₀ ∈ s.2 := List.mem_of_find?_eq_some hfind
      show size s.1 < size (m.recall n (m.deliver s.1 e₀, s.2.erase e₀)).1
      cases htake₀ : m.take s.1 e₀ with
      | some c' =>
        have hdeliver : m.deliver s.1 e₀ = c' := by simp [Machine.deliver, htake₀]
        rw [hdeliver]
        exact (hsize _ _ _ htake₀).trans_le (Machine.size_le_recall hsize n (c', s.2.erase e₀))
      | none =>
        have hdeliver : m.deliver s.1 e₀ = s.1 := by simp [Machine.deliver, htake₀]
        have hne : e ≠ e₀ := fun heq => htake (heq ▸ htake₀)
        rw [hdeliver]
        apply ih (s.1, s.2.erase e₀)
        · show (s.2.erase e₀).length ≤ n
          rw [List.length_erase_of_mem hmem]
          omega
        · exact ⟨e, (List.mem_erase_of_ne hne).mpr he, htake⟩

theorem Machine.recall_fst_eq_iff (s : C × List E) : (m.recall s.2.length s).1 = s.1 ↔ m.Quiet s := by
  refine ⟨fun h => ?_, Machine.recall_fst_of_quiet _ s⟩
  intro e he
  by_contra htake
  have hlt := Machine.size_lt_recall hsize _ s le_rfl ⟨e, he, htake⟩
  rw [h] at hlt
  exact lt_irrefl _ hlt

end Growing

/-! ## Runs -/

theorem Machine.run_append_singleton (c : C) (es : List E) (e : E) :
    m.run c (es ++ [e]) = m.receive (m.run c es) e := by
  unfold Machine.run
  rw [List.foldl_append]
  rfl

theorem Machine.run_of_never (hnever : ∀ c e, m.deferred c e = false) (c : C) (es : List E) :
    m.run c es = (es.foldl m.deliver c, []) := by
  induction es using List.reverseRecOn with
  | nil => rfl
  | append_singleton es e ih =>
    rw [Machine.run_append_singleton, ih, List.foldl_append]
    simp [Machine.receive, Machine.arrive, Machine.keeps, hnever, Machine.recall]

/-- Delivering every event when it arrives does the same as holding events back, all along, exactly if
no event is ever recalled that can be taken. -/
theorem Machine.deliver_agrees_iff {size : C → Nat}
    (hsize : ∀ c e c', m.take c e = some c' → size c < size c') (c : C) (es : List E) :
    (∀ pre, pre <+: es → pre.foldl m.deliver c = (m.run c pre).1) ↔
      ∀ pre e post, es = pre ++ e :: post → m.Quiet (m.arrive (m.run c pre) e) := by
  have hstep : ∀ pre e, pre.foldl m.deliver c = (m.run c pre).1 →
      ((pre ++ [e]).foldl m.deliver c = (m.run c (pre ++ [e])).1 ↔
        m.Quiet (m.arrive (m.run c pre) e)) := by
    intro pre e hpre
    rw [← Machine.recall_fst_eq_iff hsize, Machine.arrive_fst, Machine.run_append_singleton,
      List.foldl_append, hpre]
    exact eq_comm
  constructor
  · rintro h pre e post rfl
    have hpre := h pre (List.prefix_append _ _)
    exact (hstep pre e hpre).mp (h (pre ++ [e]) ⟨post, by simp⟩)
  · intro h pre
    induction pre using List.reverseRecOn with
    | nil => exact fun _ => rfl
    | append_singleton pre e ih =>
      rintro ⟨post, rfl⟩
      have hpre := ih ⟨e :: post, by simp⟩
      exact (hstep pre e hpre).mpr (h pre e post (by simp))

end Fsmc.Lib.Deferral
