/-
# Fsmc.Cpp.Search — what searching a text finds.

A text is found where it occurs. A character that it does not have separates its occurrences from each
other, so what is found in a text of several parts is found in one of them.
-/
import Fsmc.Cpp.Text

namespace Fsmc.Cpp

variable {p text : List Char} {c : Char}

theorem findSub_isSome_iff : (findSub p text).isSome = true ↔ p <:+: text := by
  induction text with
  | nil =>
    rw [findSub, List.infix_nil]
    cases p with
    | nil => decide
    | cons c p => simp [List.isPrefixOf]
  | cons c text ih =>
    rw [findSub, List.infix_cons_iff, ← ih, ← List.isPrefixOf_iff_prefix]
    by_cases hstart : p.isPrefixOf (c :: text) = true
    · simp [hstart]
    · simp [hstart]

theorem findSub_eq_none_iff : findSub p text = none ↔ ¬ p <:+: text := by
  rw [← findSub_isSome_iff, Bool.not_eq_true, Option.isSome_eq_false_iff, Option.isNone_iff_eq_none]

theorem infix_split {p a b : List Char} (hc : c ∉ p) (h : p <:+: a ++ c :: b) : p <:+: a ∨ p <:+: b := by
  induction a with
  | nil =>
    rw [List.nil_append, List.infix_cons_iff] at h
    rcases h with hstart | hocc
    · rcases List.prefix_cons_iff.mp hstart with rfl | ⟨t, rfl, -⟩
      · exact Or.inl List.nil_infix
      · exact absurd List.mem_cons_self hc
    · exact Or.inr hocc
  | cons x a ih =>
    rw [List.cons_append, List.infix_cons_iff] at h
    rcases h with hstart | hocc
    · exact Or.inl (prefix_of_prefix_append (a := x :: a) hstart hc).isInfix
    · exact (ih hocc).imp_left fun hocc => hocc.trans (List.suffix_cons x a).isInfix

theorem infix_append_cons_iff {p a b : List Char} (hc : c ∉ p) :
    p <:+: a ++ c :: b ↔ p <:+: a ∨ p <:+: b := by
  constructor
  · exact infix_split hc
  · rintro (h | h)
    · exact h.trans (List.prefix_append a _).isInfix
    · exact h.trans ((List.suffix_cons c b).trans (List.suffix_append a _)).isInfix

theorem findSub_separated {p a rest : List Char} (hp : p ≠ []) (hc : c ∉ p) (h : ¬ p <:+: a) :
    findSub p (a ++ c :: (p ++ rest)) = some (a.length + 1) := by
  induction a with
  | nil =>
    have hskip : p.isPrefixOf (c :: (p ++ rest)) = false := by
      rw [Bool.eq_false_iff, Ne, List.isPrefixOf_iff_prefix]
      intro hstart
      rcases List.prefix_cons_iff.mp hstart with hnil | ⟨t, rfl, -⟩
      · exact hp hnil
      · exact hc List.mem_cons_self
    have hfind : findSub p ([] ++ (p ++ rest)) = some 0 := findSub_append hp (List.forall_mem_nil _)
    rw [List.nil_append] at hfind
    rw [List.nil_append, findSub, hskip, hfind]
    rfl
  | cons x a ih =>
    have hskip : p.isPrefixOf (x :: (a ++ c :: (p ++ rest))) = false := by
      rw [Bool.eq_false_iff, Ne, List.isPrefixOf_iff_prefix]
      intro hstart
      exact h (prefix_of_prefix_append (a := x :: a) hstart hc).isInfix
    have htail : ¬ p <:+: a := fun hocc => h (hocc.trans (List.suffix_cons x a).isInfix)
    rw [List.cons_append, findSub, hskip, ih htail]
    rfl

theorem findSub_le {p u rest : List Char} : ∃ n ≤ u.length, findSub p (u ++ (p ++ rest)) = some n := by
  induction u with
  | nil =>
    refine ⟨0, le_rfl, ?_⟩
    rw [List.nil_append]
    cases p with
    | nil => cases rest <;> rfl
    | cons c p => simp [findSub]
  | cons x u ih =>
    obtain ⟨n, hle, hn⟩ := ih
    rw [List.cons_append, findSub]
    split
    · exact ⟨0, Nat.zero_le _, rfl⟩
    · exact ⟨n + 1, Nat.succ_le_succ hle, by rw [hn]; rfl⟩

end Fsmc.Cpp
