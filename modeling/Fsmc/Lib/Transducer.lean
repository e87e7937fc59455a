/-
# Fsmc.Lib.Transducer — systems that answer every operation, or stop.

An operation gives an answer and the next state. Two systems whose single operations agree under a view of the
states give the same answers over every run, stop at the same operation, and end in states that agree.
-/
import Mathlib.Data.List.Basic

namespace Fsmc.Transducer

variable {S T A O : Type*}

/-- The answers to a list of operations, with the state after them; none where the system stops. -/
def run (step : S → A → Option (O × S)) : S → List A → Option (List O × S)
  | s, [] => some ([], s)
  | s, a :: as => (step s a).bind fun r => (run step r.2 as).map fun q => (r.1 :: q.1, q.2)

variable {step : S → A → Option (O × S)} {step' : T → A → Option (O × T)} {Inv : S → Prop}

@[simp] theorem run_nil (s : S) : run step s ([] : List A) = some ([], s) := rfl

theorem run_cons (s : S) (a : A) (as : List A) :
    run step s (a :: as) = (step s a).bind fun r => (run step r.2 as).map fun q => (r.1 :: q.1, q.2) := rfl

theorem run_invariant (hkeep : ∀ s a r, Inv s → step s a = some r → Inv r.2) :
    ∀ (as : List A) (s : S) (q : List O × S), Inv s → run step s as = some q → Inv q.2
  | [], s, q, hs, hq => by
    obtain rfl := Option.some.inj hq
    exact hs
  | a :: as, s, q, hs, hq => by
    rw [run_cons, Option.bind_eq_some_iff] at hq
    obtain ⟨r, hr, hq⟩ := hq
    obtain ⟨q', hq', rfl⟩ := Option.map_eq_some_iff.mp hq
    exact run_invariant hkeep as r.2 q' (hkeep s a r hs hr) hq'

theorem run_view {view : S → T} (hkeep : ∀ s a r, Inv s → step s a = some r → Inv r.2)
    (hstep : ∀ s a, Inv s → (step s a).map (Prod.map id view) = step' (view s) a) :
    ∀ (as : List A) (s : S), Inv s → (run step s as).map (Prod.map id view) = run step' (view s) as
  | [], _, _ => rfl
  | a :: as, s, hs => by
    rw [run_cons, run_cons, ← hstep s a hs]
    cases hr : step s a with
    | none => rfl
    | some r =>
      have ih := run_view hkeep hstep as r.2 (hkeep s a r hs hr)
      show ((run step r.2 as).map fun q => (r.1 :: q.1, q.2)).map (Prod.map id view) =
        (run step' (view r.2) as).map fun q => (r.1 :: q.1, q.2)
      rw [← ih, Option.map_map, Option.map_map]
      rfl

end Fsmc.Transducer
