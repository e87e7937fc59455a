/-
# Fsmc.Lib.Loop — the `while (changed)` loop, with its proof rules.

Fixpoint code in an imperative language is usually written as

    changed = true;
    while (changed) { changed = false; <one pass, setting changed when it does something> }

`whileChanged` is that loop over an explicit pass function which returns the new state together with
the flag. It is `none` while the loop is still running, so "the loop terminates" is a statement about
the model and not an assumption of it. The rules below are the ones a client needs: an invariant rule,
the exit condition, and termination from a measure.
-/
import Mathlib.Data.List.Basic

namespace Fsmc.Lib

variable {σ : Type*}

/-- `whileChanged pass n s` runs `pass` from `s` until a pass reports no change, at most `n` times. -/
def whileChanged (pass : σ → σ × Bool) : Nat → σ → Option σ
  | 0, _ => none
  | n + 1, s =>
    match pass s with
    | (s', true) => whileChanged pass n s'
    | (s', false) => some s'

theorem whileChanged_succ (pass : σ → σ × Bool) (n : Nat) (s : σ) : whileChanged pass (n + 1) s =
      if (pass s).2 = true then whileChanged pass n (pass s).1 else some (pass s).1 := by
  rcases h : pass s with ⟨s', changed⟩
  cases changed <;> simp [whileChanged, h]

/-- **Invariant and exit rule.** What every pass preserves holds of the state in which the loop made
its last pass, and that pass reported no change. -/
theorem whileChanged_spec {pass : σ → σ × Bool} (I : σ → Prop)
    (hpass : ∀ s, I s → I (pass s).1) {n : Nat} {s r : σ} (hs : I s)
    (h : whileChanged pass n s = some r) :
    ∃ last, I last ∧ (pass last).2 = false ∧ (pass last).1 = r := by
  induction n generalizing s with
  | zero => simp [whileChanged] at h
  | succ n ih =>
    rw [whileChanged_succ] at h
    by_cases hc : (pass s).2 = true
    · rw [if_pos hc] at h
      exact ih (hpass s hs) h
    · rw [if_neg hc] at h
      exact ⟨s, hs, by simpa using hc, Option.some.inj h⟩

/-- **Termination rule.** When every pass that reports a change lowers a measure, the loop ends within
as many passes as the measure allows. -/
theorem whileChanged_isSome {pass : σ → σ × Bool} (I : σ → Prop) (m : σ → Nat) (hpass : ∀ s, I s → I (pass s).1)
    (hm : ∀ s, I s → (pass s).2 = true → m (pass s).1 < m s) {n : Nat} {s : σ} (hs : I s)
    (hn : m s < n) : (whileChanged pass n s).isSome = true := by
  induction n generalizing s with
  | zero => exact absurd hn (Nat.not_lt_zero _)
  | succ n ih =>
    rw [whileChanged_succ]
    by_cases hc : (pass s).2 = true
    · rw [if_pos hc]
      have hlt := hm s hs hc
      exact ih (hpass s hs) (by omega)
    · rw [if_neg hc]
      rfl

/-! ## A pass over a list that may fail -/

variable {α : Type*}

theorem foldlM_option_inv {f : σ → α → Option σ} {l : List α} (I : σ → Prop)
    (hstep : ∀ s, I s → ∀ a ∈ l, ∀ s', f s a = some s' → I s') {s r : σ} (hs : I s)
    (h : l.foldlM f s = some r) : I r := by
  induction l generalizing s with
  | nil =>
    obtain rfl := Option.some.inj h
    exact hs
  | cons a l ih =>
    rw [List.foldlM_cons] at h
    cases hf : f s a with
    | none =>
      rw [hf] at h
      exact absurd h (by simp)
    | some s' =>
      rw [hf] at h
      have hs' : I s' := hstep s hs a List.mem_cons_self s' hf
      exact ih (fun s hs b hb => hstep s hs b (List.mem_cons_of_mem a hb)) hs' h

/-! ## A pass over a list whose steps meet a condition -/

/-- Each step of a pass meets a condition on the element and on the state before the step. -/
def Meets (ok : σ → α → Prop) (f : σ → α → σ) : List α → σ → Prop
  | [], _ => True
  | a :: l, s => ok s a ∧ Meets ok f l (f s a)

theorem foldl_inv_of_meets_from {ok : σ → α → Prop} {f : σ → α → σ} (I : List α → σ → Prop)
    {l : List α} (hstep : ∀ done s, ∀ a ∈ l, I done s → ok s a → I (done ++ [a]) (f s a))
    {done : List α} {s : σ} (hmeets : Meets ok f l s) (hs : I done s) : I (done ++ l) (l.foldl f s) := by
  induction l generalizing done s with
  | nil =>
    rw [List.append_nil]
    exact hs
  | cons a l ih =>
    have hnext := ih (fun done s b hb => hstep done s b (List.mem_cons_of_mem a hb)) hmeets.2
      (hstep done s a List.mem_cons_self hs hmeets.1)
    rwa [List.append_assoc] at hnext

/-- What every step that meets the condition keeps, with the elements so far, holds after the pass. -/
theorem foldl_inv_of_meets {ok : σ → α → Prop} {f : σ → α → σ} (I : List α → σ → Prop) {l : List α}
    (hstep : ∀ done s, ∀ a ∈ l, I done s → ok s a → I (done ++ [a]) (f s a)) {s : σ}
    (hmeets : Meets ok f l s) (hs : I [] s) : I l (l.foldl f s) :=
  foldl_inv_of_meets_from I hstep hmeets hs

/-! ## A measure for sets that grow inside a finite universe -/

/-- How many entries of `univ` lack the property `p`. -/
def missing (univ : List α) (p : α → Prop) [DecidablePred p] : Nat :=
  univ.countP fun x => decide (¬ p x)

theorem missing_le_length (univ : List α) (p : α → Prop) [DecidablePred p] : missing univ p ≤ univ.length :=
  List.countP_le_length

theorem missing_mono {univ : List α} {p q : α → Prop} [DecidablePred p] [DecidablePred q]
    (hpq : ∀ x, p x → q x) : missing univ q ≤ missing univ p :=
  List.countP_mono_left fun x _ hx => by
    simp only [decide_eq_true_eq] at hx ⊢
    exact fun hp => hx (hpq x hp)

theorem missing_lt {univ : List α} {p q : α → Prop} [DecidablePred p] [DecidablePred q] {x : α}
    (hpq : ∀ x, p x → q x) (hx : x ∈ univ) (hp : ¬ p x) (hq : q x) :
    missing univ q < missing univ p := by
  induction univ with
  | nil => exact absurd hx (List.not_mem_nil)
  | cons y univ ih =>
    have hle : missing univ q ≤ missing univ p := missing_mono hpq
    simp only [missing, List.countP_cons] at hle ih ⊢
    rcases List.mem_cons.mp hx with rfl | hx
    · simp only [hp, hq, not_true_eq_false, not_false_eq_true, decide_false, decide_true]
      simp only [reduceIte, Bool.false_eq_true]
      omega
    · have hlt := ih hx
      have hy : decide (¬ q y) = true → decide (¬ p y) = true := by
        simp only [decide_eq_true_eq]
        exact fun h hpy => h (hpq y hpy)
      by_cases hqy : decide (¬ q y) = true
      · rw [if_pos hqy, if_pos (hy hqy)]
        omega
      · rw [if_neg hqy]
        omega

end Fsmc.Lib
