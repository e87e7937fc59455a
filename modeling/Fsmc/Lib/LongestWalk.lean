/-
# Fsmc.Lib.LongestWalk — the longest walk in an acyclic graph, by a recursion with a memo.

The longest walk from a vertex is one step longer than the longest from any of its successors. The recursion
remembers what it computed; it ends because walks are shorter than the number of vertices where there is no cycle.
-/
import Fsmc.Lib.CycleSearch
import Mathlib.Data.List.Chain
import Mathlib.Data.List.Perm.Subperm
import Mathlib.Order.Bounds.Basic

namespace Fsmc.Lib.LongestWalk

open Relation

variable {α : Type*}

/-! ## Walks -/

/-- A walk of `n` steps from a vertex. -/
def HasWalk (R : α → α → Prop) (u : α) (n : ℕ) : Prop := ∃ l, List.IsChain R (u :: l) ∧ l.length = n

theorem hasWalk_zero (R : α → α → Prop) (u : α) : HasWalk R u 0 := ⟨[], .singleton u, rfl⟩

variable {R : α → α → Prop}

theorem hasWalk_succ {u : α} {n : ℕ} : HasWalk R u (n + 1) ↔ ∃ v, R u v ∧ HasWalk R v n := by
  constructor
  · rintro ⟨l, hchain, hlen⟩
    cases l with
    | nil => cases hlen
    | cons v l =>
      obtain ⟨huv, hrest⟩ := List.isChain_cons_cons.mp hchain
      exact ⟨v, huv, l, hrest, by simpa using hlen⟩
  · rintro ⟨v, huv, l, hrest, rfl⟩
    exact ⟨v :: l, List.isChain_cons_cons.mpr ⟨huv, hrest⟩, rfl⟩

/-- Where a relation has no cycle, a walk does not come back to a vertex. -/
theorem nodup_of_isChain (hacyclic : ∀ x, ¬ TransGen R x x) {l : List α} (h : List.IsChain R l) : l.Nodup := by
  have hpairwise : l.Pairwise (TransGen R) := List.isChain_iff_pairwise.mp (h.imp fun _ _ => TransGen.single)
  refine hpairwise.imp ?_
  rintro a b hab rfl
  exact hacyclic a hab

theorem HasWalk.lt_length (hacyclic : ∀ x, ¬ TransGen R x x) {univ : List α}
    (hclosed : ∀ x ∈ univ, ∀ y, R x y → y ∈ univ) {u : α} (hu : u ∈ univ) {n : ℕ} (h : HasWalk R u n) :
    n < univ.length := by
  obtain ⟨l, hchain, rfl⟩ := h
  have hsub : u :: l ⊆ univ :=
    hchain.induction (· ∈ univ) _ (fun _ _ hstep hx => hclosed _ hx _ hstep) fun _ => hu
  exact (List.subperm_of_subset (nodup_of_isChain hacyclic hchain) hsub).length_le

theorem mapM_eq_some {α β : Type*} {f : α → Option β} {g : α → β} {l : List α} (h : ∀ a ∈ l, f a = some (g a)) :
    l.mapM f = some (l.map g) := by
  induction l with
  | nil => rfl
  | cons a l ih =>
    rw [List.mapM_cons, h a List.mem_cons_self, ih fun b hb => h b (List.mem_cons_of_mem _ hb)]
    rfl

/-- The longest walks from a vertex have `k` steps. -/
def Longest (R : α → α → Prop) (u : α) (k : ℕ) : Prop := IsGreatest {n | HasWalk R u n} k

/-! ## The recursion -/

/-- What was computed so far. -/
abbrev Memo (α : Type*) := α → Option ℕ

/-- Compute one more length, increased by `d`, and keep the greatest. -/
def improve (d : ℕ) (call : α → Memo α → Option (ℕ × Memo α)) (best : ℕ × Memo α) (v : α) :
    Option (ℕ × Memo α) :=
  (call v best.2).map fun r => (max best.1 (d + r.1), r.2)

/-- The greatest of the lengths computed for some vertices, each increased by `d`. -/
def greatest (d : ℕ) (call : α → Memo α → Option (ℕ × Memo α)) (vs : List α) (memo : Memo α) :
    Option (ℕ × Memo α) :=
  vs.foldlM (improve d call) (0, memo)

variable [DecidableEq α] (succ : α → List α)

/-- The length of the longest walk from a vertex; there is no result if the number of nested calls does not
suffice. -/
def longest : ℕ → α → Memo α → Option (ℕ × Memo α)
  | 0, _, _ => none
  | n + 1, u, memo =>
    match memo u with
    | some k => some (k, memo)
    | none => (greatest 1 (longest n) (succ u) memo).map fun r => (r.1, Function.update r.2 u (some r.1))

variable {succ}

/-- Everything in the memo is right. -/
def Correct (R : α → α → Prop) (memo : Memo α) : Prop := ∀ x k, memo x = some k → Longest R x k

/-- A call gives the length of the longest walk, and adds only what is right. -/
def Computes (R : α → α → Prop) (call : α → Memo α → Option (ℕ × Memo α)) (v : α) : Prop :=
  ∀ memo, Correct R memo → ∃ k memo', call v memo = some (k, memo') ∧ Longest R v k ∧ Correct R memo'

omit [DecidableEq α] in
theorem Longest.unique {u : α} {k k' : ℕ} (h : Longest R u k) (h' : Longest R u k') : k = k' :=
  IsGreatest.unique h h'

omit [DecidableEq α] in
theorem greatest_spec {d : ℕ} {call : α → Memo α → Option (ℕ × Memo α)} {vs : List α}
    (hcall : ∀ v ∈ vs, Computes R call v) {memo : Memo α} (hmemo : Correct R memo) :
    ∃ m memo', greatest d call vs memo = some (m, memo') ∧ Correct R memo' ∧
      (m = 0 ∨ ∃ v ∈ vs, ∃ k, Longest R v k ∧ m = d + k) ∧ ∀ v ∈ vs, ∀ k, Longest R v k → d + k ≤ m := by
  have hfold : ∀ (vs : List α), (∀ v ∈ vs, Computes R call v) → ∀ (best : ℕ) (memo : Memo α), Correct R memo →
      ∃ m memo', vs.foldlM (improve d call) (best, memo) = some (m, memo') ∧ Correct R memo' ∧
        (m = best ∨ ∃ v ∈ vs, ∃ k, Longest R v k ∧ m = d + k) ∧ best ≤ m ∧
          ∀ v ∈ vs, ∀ k, Longest R v k → d + k ≤ m := by
    intro vs
    induction vs with
    | nil =>
      intro _ best memo hmemo
      exact ⟨best, memo, rfl, hmemo, Or.inl rfl, le_rfl, by simp⟩
    | cons v vs ih =>
      intro hcall best memo hmemo
      obtain ⟨k, memo₁, hv, hk, hmemo₁⟩ := hcall v List.mem_cons_self memo hmemo
      obtain ⟨m, memo₂, hrest, hmemo₂, hwhich, hbest, hmost⟩ :=
        ih (fun w hw => hcall w (List.mem_cons_of_mem _ hw)) (max best (d + k)) memo₁ hmemo₁
      refine ⟨m, memo₂, ?_, hmemo₂, ?_, by omega, ?_⟩
      · have himprove : improve d call (best, memo) v = some (max best (d + k), memo₁) := by
          unfold improve
          rw [hv]
          rfl
        rw [List.foldlM_cons, himprove]
        exact hrest
      · rcases hwhich with rfl | ⟨w, hw, hlongest⟩
        · rcases le_total best (d + k) with hle | hle
          · exact Or.inr ⟨v, List.mem_cons_self, k, hk, max_eq_right hle⟩
          · exact Or.inl (max_eq_left hle)
        · exact Or.inr ⟨w, List.mem_cons_of_mem _ hw, hlongest⟩
      · intro w hw k' hk'
        rcases List.mem_cons.mp hw with rfl | hw
        · rw [hk'.unique hk]
          omega
        · exact hmost w hw k' hk'
  obtain ⟨m, memo', hm, hmemo', hwhich, -, hmost⟩ := hfold vs hcall 0 memo hmemo
  exact ⟨m, memo', hm, hmemo', hwhich, hmost⟩

theorem longest_computes : ∀ (n : ℕ) (u : α), (∀ m, HasWalk (SuccStep succ) u m → m < n) →
    Computes (SuccStep succ) (longest succ n) u
  | 0, u, hshort => fun _ _ => absurd (hshort 0 (hasWalk_zero _ u)) (Nat.not_lt_zero 0)
  | n + 1, u, hshort => by
    intro memo hmemo
    cases hknown : memo u with
    | some k => exact ⟨k, memo, by rw [longest, hknown], hmemo u k hknown, hmemo⟩
    | none =>
      have hcall : ∀ v ∈ succ u, Computes (SuccStep succ) (longest succ n) v := by
        intro v hv
        refine longest_computes n v fun m hm => ?_
        have := hshort (m + 1) (hasWalk_succ.mpr ⟨v, hv, hm⟩)
        omega
      obtain ⟨k, memo', hk, hmemo', hwhich, hmost⟩ := greatest_spec (d := 1) hcall hmemo
      have hlongest : Longest (SuccStep succ) u k := by
        constructor
        · rcases hwhich with rfl | ⟨v, hv, k, hlongest, rfl⟩
          · exact hasWalk_zero _ u
          · rw [Nat.add_comm]
            exact hasWalk_succ.mpr ⟨v, hv, hlongest.1⟩
        · intro m hm
          cases m with
          | zero => exact Nat.zero_le k
          | succ m =>
            obtain ⟨v, hv, hwalk⟩ := hasWalk_succ.mp hm
            obtain ⟨kv, _, _, hkv, _⟩ := hcall v hv memo hmemo
            have hle := hkv.2 hwalk
            have := hmost v hv kv hkv
            omega
      refine ⟨k, Function.update memo' u (some k), ?_, hlongest, ?_⟩
      · rw [longest, hknown]
        dsimp only
        rw [hk]
        rfl
      · intro x k' hx
        by_cases hxu : x = u
        · subst hxu
          rw [Function.update_self] at hx
          exact Option.some.inj hx ▸ hlongest
        · rw [Function.update_of_ne hxu] at hx
          exact hmemo' x k' hx

/-- The greatest of the lengths computed from the roots is that of the longest walk, if every step starts at a
root. -/
theorem greatest_longest_spec [Nonempty α] {univ roots : List α}
    (hclosed : ∀ x ∈ univ, ∀ y, SuccStep succ x y → y ∈ univ) (hroots : ∀ r ∈ roots, r ∈ univ)
    (hsources : ∀ x y, SuccStep succ x y → x ∈ roots) (hacyclic : ∀ x, ¬ TransGen (SuccStep succ) x x) :
    ∃ m memo, greatest 0 (longest succ univ.length) roots (fun _ => none) = some (m, memo) ∧
      IsGreatest {n | ∃ x, HasWalk (SuccStep succ) x n} m := by
  have hcall : ∀ r ∈ roots, Computes (SuccStep succ) (longest succ univ.length) r := fun r hr =>
    longest_computes _ r fun m hm => hm.lt_length hacyclic hclosed (hroots r hr)
  have hempty : Correct (SuccStep succ) (fun _ => none) := fun _ _ h => absurd h (by simp)
  obtain ⟨m, memo, hm, -, hwhich, hmost⟩ := greatest_spec (d := 0) hcall hempty
  refine ⟨m, memo, hm, ?_, ?_⟩
  · rcases hwhich with rfl | ⟨r, -, k, hk, rfl⟩
    · exact ⟨Classical.arbitrary α, hasWalk_zero _ _⟩
    · exact ⟨r, by simpa using hk.1⟩
  · rintro n ⟨x, hn⟩
    cases n with
    | zero => exact Nat.zero_le m
    | succ n =>
      obtain ⟨y, hxy, -⟩ := hasWalk_succ.mp hn
      have hx : x ∈ roots := hsources x y hxy
      obtain ⟨k, _, _, hk, _⟩ := hcall x hx _ hempty
      have hle := hk.2 hn
      have := hmost x hx k hk
      omega

end Fsmc.Lib.LongestWalk
