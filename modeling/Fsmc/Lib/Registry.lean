/-
# Fsmc.Lib.Registry — tables that new keys are appended to.

A key that no entry has gets an entry at the end of the table, and a key that an entry has changes nothing.
-/
import Mathlib.Data.List.Basic

namespace Fsmc.Lib.Registry

variable {α κ : Type*} [DecidableEq κ]

/-- An entry is made for a key that has none. -/
def register (key : α → κ) (make : κ → α) (table : List α) (k : κ) : List α :=
  if k ∈ table.map key then table else table ++ [make k]

/-- The keys that are not known, each at its first place. -/
def missing : List κ → List κ → List κ
  | _, [] => []
  | known, k :: ks => if k ∈ known then missing known ks else k :: missing (known ++ [k]) ks

theorem missing_cons (known : List κ) (k : κ) (ks : List κ) :
    missing known (k :: ks) = if k ∈ known then missing known ks else k :: missing (known ++ [k]) ks := rfl

variable {key : α → κ} {make : κ → α}

theorem foldl_register (hmake : ∀ k, key (make k) = k) (ks : List κ) : ∀ table : List α,
    ks.foldl (register key make) table = table ++ (missing (table.map key) ks).map make := by
  induction ks with
  | nil => simp [missing]
  | cons k ks ih =>
    intro table
    rw [List.foldl_cons, ih, missing_cons]
    unfold register
    by_cases hk : k ∈ table.map key
    · rw [if_pos hk, if_pos hk]
    · rw [if_neg hk, if_neg hk]
      simp [hmake]

theorem missing_eq_nil {known ks : List κ} (h : ∀ k ∈ ks, k ∈ known) : missing known ks = [] := by
  induction ks with
  | nil => rfl
  | cons k ks ih =>
    rw [missing_cons, if_pos (h k List.mem_cons_self)]
    exact ih fun k' hk' => h k' (List.mem_cons_of_mem _ hk')

variable {ks : List κ}

theorem missing_congr : ∀ {known known' : List κ}, (∀ k, k ∈ known ↔ k ∈ known') →
    missing known ks = missing known' ks := by
  induction ks with
  | nil => exact fun _ => rfl
  | cons k ks ih =>
    intro known known' h
    rw [missing_cons, missing_cons]
    by_cases hk : k ∈ known
    · rw [if_pos hk, if_pos ((h k).mp hk), ih h]
    · rw [if_neg hk, if_neg fun hk' => hk ((h k).mpr hk')]
      have happend : ∀ k', k' ∈ known ++ [k] ↔ k' ∈ known' ++ [k] := by
        intro k'
        rw [List.mem_append, List.mem_append, h k']
      rw [ih happend]

theorem mem_keys_foldl_iff (hmake : ∀ k, key (make k) = k) {k : κ} : ∀ {table : List α},
    k ∈ (ks.foldl (register key make) table).map key ↔ k ∈ table.map key ∨ k ∈ ks := by
  induction ks with
  | nil => simp
  | cons k' ks ih =>
    intro table
    rw [List.foldl_cons, ih, List.mem_cons]
    unfold register
    by_cases hk' : k' ∈ table.map key
    · rw [if_pos hk']
      constructor
      · exact fun h => h.imp_right Or.inr
      · rintro (h | rfl | h)
        exacts [Or.inl h, Or.inl hk', Or.inr h]
    · rw [if_neg hk', List.map_append, List.mem_append, List.map_singleton, hmake, List.mem_singleton, or_assoc]

theorem mem_keys_foldl (hmake : ∀ k, key (make k) = k) {k : κ} (hk : k ∈ ks)
    (table : List α) : k ∈ (ks.foldl (register key make) table).map key :=
  (mem_keys_foldl_iff hmake).mpr (Or.inr hk)

theorem foldl_register_of_mem (hmake : ∀ k, key (make k) = k) {table : List α}
    (h : ∀ k ∈ ks, k ∈ table.map key) : ks.foldl (register key make) table = table := by
  rw [foldl_register hmake, missing_eq_nil h, List.map_nil, List.append_nil]

end Fsmc.Lib.Registry
