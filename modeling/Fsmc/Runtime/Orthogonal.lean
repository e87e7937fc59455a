/-
# Fsmc.Runtime.Orthogonal — the synchronous composition of regions.

A composite with orthogonal regions is in one state of each region. On an event every region takes the
transition chosen for its own state, or stays; a chosen transition that leads out of the composite leaves
it, and is then the only one that is taken.
-/
import Fsmc.Runtime.MacroStep

namespace Fsmc.Runtime

open Fsmc.Ir

inductive Place where
  | inside (tup : List String)
  | outside (state : String)
  deriving DecidableEq

section Regions

variable (ir : FsmIr) (event : String) (g : GuardValuation)

/-- Where a region goes from a state. -/
def regionNext (s : String) : String :=
  match chosen ir s event g with
  | none => s
  | some t => nextState s t

/-- What a region executes when it leaves its state. -/
def regionExit (s : String) : Observation :=
  match chosen ir s event g with
  | none => 1
  | some t => if t.kind = .internal then 1 else observeExit ir s

/-- What the transition of a region executes. -/
def regionEffect (s : String) : Observation :=
  match chosen ir s event g with
  | none => 1
  | some t => observeEffect t

/-- What a region executes when it enters its next state. -/
def regionEntry (s : String) : Observation :=
  match chosen ir s event g with
  | none => 1
  | some t => if t.kind = .internal then 1 else observeEntry ir t.target

/-- What the regions execute together. -/
def observeMoves (tup : List String) : Observation :=
  (tup.map (regionExit ir event g)).prod * (tup.map (regionEffect ir event g)).prod *
    (tup.map (regionEntry ir event g)).prod

end Regions

/-- A step of the composition of regions whose states are the members. -/
inductive Composed (ir : FsmIr) (members : List String) (v : GuardHistory) :
    List String × Observation → String → Place × Observation → Prop where
  | leave {tup : List String} {w : Observation} {event s : String} {t : TransitionEdge} :
      s ∈ tup → chosen ir s event (v w) = some t → t.target ∉ members →
      Composed ir members v (tup, w) event (.outside t.target,
        w * ((tup.map (observeExit ir)).prod * observeEffect t * observeEntry ir t.target))
  | move {tup : List String} {w : Observation} {event : String} :
      (∀ s ∈ tup, ∀ t, chosen ir s event (v w) = some t → t.target ∈ members) →
      Composed ir members v (tup, w) event (.inside (tup.map (regionNext ir event (v w))),
        w * observeMoves ir event (v w) tup)

/-- A run of the composition, up to where it leaves the composite; the events that are left over come
last. -/
inductive Follows (ir : FsmIr) (members : List String) (v : GuardHistory) :
    List String × Observation → List String → Place × Observation → List String → Prop where
  | done {tup : List String} {w : Observation} :
      Follows ir members v (tup, w) [] (.inside tup, w) []
  | leave {c : List String × Observation} {event s : String} {events : List String}
      {w : Observation} : Composed ir members v c event (.outside s, w) →
      Follows ir members v c (event :: events) (.outside s, w) events
  | step {c c' : List String × Observation} {event : String} {events rest : List String}
      {r : Place × Observation} : Composed ir members v c event (.inside c'.1, c'.2) →
      Follows ir members v c' events r rest → Follows ir members v c (event :: events) r rest

variable {members : List String}

variable {v : GuardHistory} {w w' : Observation} {tup : List String}

theorem Composed.inside_inv {ir : FsmIr}
    {tup tup' : List String} {event : String}
    (h : Composed ir members v (tup, w) event (.inside tup', w')) :
    tup' = tup.map (regionNext ir event (v w)) := by
  cases h
  rfl

theorem Composed.outside_inv {ir : FsmIr}
    {event s : String}
    (h : Composed ir members v (tup, w) event (.outside s, w')) :
    ∃ t ∈ ir.transitions, t.target ∉ members := by
  cases h with
  | leave _ hchosen hout => exact ⟨_, List.mem_of_mem_filter (List.argmin_mem hchosen), hout⟩

theorem Composed.stay {ir : FsmIr}
    {w : Observation} {event : String} (h : ∀ s ∈ tup, chosen ir s event (v w) = none) :
    Composed ir members v (tup, w) event (.inside tup, w) := by
  have hnext : tup.map (regionNext ir event (v w)) = tup := by
    have hself : ∀ s ∈ tup, regionNext ir event (v w) s = s := by
      intro s hs
      unfold regionNext
      rw [h s hs]
    rw [List.map_congr_left hself, List.map_id']
  have hone : ∀ f : String → Observation, (∀ s, chosen ir s event (v w) = none → f s = 1) →
      (tup.map f).prod = 1 := by
    intro f hf
    apply List.prod_eq_one
    intro x hx
    obtain ⟨s, hs, rfl⟩ := List.mem_map.mp hx
    exact hf s (h s hs)
  have hmoves : observeMoves ir event (v w) tup = 1 := by
    unfold observeMoves
    rw [hone (regionExit ir event (v w)), hone (regionEffect ir event (v w)),
      hone (regionEntry ir event (v w)), mul_one, mul_one]
    · intro s hs
      simp [regionEntry, hs]
    · intro s hs
      simp [regionEffect, hs]
    · intro s hs
      simp [regionExit, hs]
  have hstep : Composed ir members v (tup, w) event
      (.inside (tup.map (regionNext ir event (v w))), w * observeMoves ir event (v w) tup) := by
    apply Composed.move
    intro s hs t ht
    rw [h s hs] at ht
    exact absurd ht (by simp)
  rwa [hnext, hmoves, mul_one] at hstep

end Fsmc.Runtime
