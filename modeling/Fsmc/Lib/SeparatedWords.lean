/-
# Fsmc.Lib.SeparatedWords — words joined with a separator that may occur in them.

One word is chosen from each of several lists, and the words are joined. Two choices give the same text only if a
word of one goes on, behind a separator, where the word of the other ends, and the words behind them make up for
the difference; whether that can happen is decided list by list. So is whether a text is such a choice.
-/
import Fsmc.Lib.Cartesian

namespace Fsmc.Lib.SeparatedWords

open Fsmc.Lib.Cartesian

variable {α : Type*} [DecidableEq α] (sep : α)

/-! ## Deciding -/

/-- What follows a word and a separator, in a text that begins so. -/
def beyond (w text : List α) : Option (List α) :=
  if w ++ [sep] <+: text then some (text.drop (w.length + 1)) else none

/-- Some choice is also `front`, a separator and some choice. -/
def overlaps : List α → List (List (List α)) → Bool
  | _, [] => false
  | front, words :: rest =>
    words.any fun a => words.any fun b =>
      decide (a = front ++ sep :: b) ||
        (beyond sep (front ++ sep :: b) a).any (fun w => overlaps w rest) ||
          (beyond sep a (front ++ sep :: b)).any fun w => overlaps w rest

/-- Two choices give the same text. -/
def collides : List (List (List α)) → Bool
  | [] => false
  | words :: rest =>
    (words.any fun a => words.any fun b => (beyond sep b a).any fun w => overlaps sep w rest) || collides rest

/-- A text is a choice. -/
def spells : List α → List (List (List α)) → Bool
  | text, [] => decide (text = [])
  | text, [words] => decide (text ∈ words)
  | text, words :: more :: rest => words.any fun a => (beyond sep a text).any fun w => spells w (more :: rest)

variable {sep}

theorem beyond_eq_some {w text rest : List α} : beyond sep w text = some rest ↔ text = w ++ sep :: rest := by
  unfold beyond
  constructor
  · intro h
    split at h
    · next hstart =>
        obtain ⟨tail, rfl⟩ := hstart
        obtain rfl := Option.some.inj h
        simp [List.drop_append]
    · cases h
  · rintro rfl
    have hstart : w ++ [sep] <+: w ++ sep :: rest := ⟨rest, by simp⟩
    rw [if_pos hstart]
    simp [List.drop_append]

theorem any_beyond {w text : List α} {p : List α → Bool} :
    (beyond sep w text).any p = true ↔ ∃ rest, text = w ++ sep :: rest ∧ p rest = true := by
  rw [Option.any_eq_true]
  simp only [beyond_eq_some]

/-! ## Joined words -/

omit [DecidableEq α] in
theorem front_intercalate (front a : List α) (tail : List (List α)) :
    front ++ sep :: [sep].intercalate (a :: tail) = [sep].intercalate ((front ++ sep :: a) :: tail) := by
  cases tail with
  | nil => simp
  | cons b tail => simp [List.append_assoc]

omit [DecidableEq α] in
/-- How two texts of the same number of words can be equal. -/
theorem intercalate_cons_eq_iff {a b : List α} {r r' : List (List α)} (hlen : r.length = r'.length) :
    [sep].intercalate (a :: r) = [sep].intercalate (b :: r') ↔
      (a = b ∧ [sep].intercalate r = [sep].intercalate r') ∨
        (∃ w, a = b ++ sep :: w ∧ [sep].intercalate r' = w ++ sep :: [sep].intercalate r) ∨
          (∃ w, b = a ++ sep :: w ∧ [sep].intercalate r = w ++ sep :: [sep].intercalate r') := by
  by_cases hr : r = []
  · subst hr
    obtain rfl : r' = [] := List.length_eq_zero_iff.mp hlen.symm
    simp
  · have hr' : r' ≠ [] := by
      rintro rfl
      exact hr (List.length_eq_zero_iff.mp hlen)
    rw [List.intercalate_cons_of_ne_nil hr, List.intercalate_cons_of_ne_nil hr', List.append_assoc, List.append_assoc]
    show a ++ sep :: [sep].intercalate r = b ++ sep :: [sep].intercalate r' ↔ _
    constructor
    · intro h
      rcases List.append_eq_append_iff.mp h with ⟨w, rfl, hw⟩ | ⟨w, rfl, hw⟩
      · cases w with
        | nil => exact Or.inl ⟨by simp, by simpa using hw⟩
        | cons c w =>
          obtain ⟨rfl, hrest⟩ := List.cons.inj hw
          exact Or.inr (Or.inr ⟨w, rfl, hrest⟩)
      · cases w with
        | nil => exact Or.inl ⟨by simp, by simpa [eq_comm] using hw⟩
        | cons c w =>
          obtain ⟨rfl, hrest⟩ := List.cons.inj hw
          exact Or.inr (Or.inl ⟨w, rfl, hrest⟩)
    · rintro (⟨rfl, heq⟩ | ⟨w, rfl, heq⟩ | ⟨w, rfl, heq⟩) <;> simp [heq, List.append_assoc]

/-! ## What is decided -/

theorem overlaps_iff : ∀ {choices : List (List (List α))} {front : List α}, (∀ words ∈ choices, words ≠ []) →
    (overlaps sep front choices = true ↔ ∃ r ∈ product choices, ∃ r' ∈ product choices,
      [sep].intercalate r = front ++ sep :: [sep].intercalate r')
  | [], front, _ => by simp [overlaps, product]
  | words :: rest, front, hne => by
    have hrest : ∀ words ∈ rest, words ≠ [] := fun l hl => hne l (List.mem_cons_of_mem _ hl)
    obtain ⟨tail, htail⟩ := List.exists_mem_of_ne_nil _ (product_ne_nil hrest)
    unfold overlaps
    simp only [List.any_eq_true, Bool.or_eq_true, decide_eq_true_eq, any_beyond, overlaps_iff hrest]
    constructor
    · rintro ⟨a, ha, b, hb, (heq | ⟨w, hw, r, hr, r', hr', heq⟩) | ⟨w, hw, r, hr, r', hr', heq⟩⟩
      · refine ⟨a :: tail, cons_mem_product.mpr ⟨ha, htail⟩, b :: tail, cons_mem_product.mpr ⟨hb, htail⟩, ?_⟩
        rw [front_intercalate, heq]
      · refine ⟨a :: r', cons_mem_product.mpr ⟨ha, hr'⟩, b :: r, cons_mem_product.mpr ⟨hb, hr⟩, ?_⟩
        have hlen := (length_of_mem_product hr').trans (length_of_mem_product hr).symm
        rw [front_intercalate]
        exact (intercalate_cons_eq_iff hlen).mpr (Or.inr (Or.inl ⟨w, hw, heq⟩))
      · refine ⟨a :: r, cons_mem_product.mpr ⟨ha, hr⟩, b :: r', cons_mem_product.mpr ⟨hb, hr'⟩, ?_⟩
        have hlen := (length_of_mem_product hr).trans (length_of_mem_product hr').symm
        rw [front_intercalate]
        exact (intercalate_cons_eq_iff hlen).mpr (Or.inr (Or.inr ⟨w, hw, heq⟩))
    · rintro ⟨_, hmem, _, hmem', heq⟩
      obtain ⟨a, ha, r, hr, rfl⟩ := exists_cons_of_mem_product hmem
      obtain ⟨b, hb, r', hr', rfl⟩ := exists_cons_of_mem_product hmem'
      have hlen := (length_of_mem_product hr).trans (length_of_mem_product hr').symm
      rw [front_intercalate] at heq
      refine ⟨a, ha, b, hb, ?_⟩
      rcases (intercalate_cons_eq_iff hlen).mp heq with ⟨hab, -⟩ | ⟨w, hw, hrest⟩ | ⟨w, hw, hrest⟩
      · exact Or.inl (Or.inl hab)
      · exact Or.inl (Or.inr ⟨w, hw, r', hr', r, hr, hrest⟩)
      · exact Or.inr ⟨w, hw, r, hr, r', hr', hrest⟩

theorem collides_iff : ∀ {choices : List (List (List α))}, (∀ words ∈ choices, words ≠ []) →
    (collides sep choices = true ↔ ∃ r ∈ product choices, ∃ r' ∈ product choices,
      r ≠ r' ∧ [sep].intercalate r = [sep].intercalate r')
  | [], _ => by simp [collides, product]
  | words :: rest, hne => by
    have hrest : ∀ words ∈ rest, words ≠ [] := fun l hl => hne l (List.mem_cons_of_mem _ hl)
    unfold collides
    simp only [List.any_eq_true, Bool.or_eq_true, any_beyond, overlaps_iff hrest, collides_iff hrest]
    constructor
    · rintro (⟨a, ha, b, hb, w, hw, r, hr, r', hr', heq⟩ | ⟨r, hr, r', hr', hdiffer, heq⟩)
      · refine ⟨a :: r', cons_mem_product.mpr ⟨ha, hr'⟩, b :: r, cons_mem_product.mpr ⟨hb, hr⟩, ?_, ?_⟩
        · intro hsame
          have hlength := congrArg List.length (List.cons.inj hsame).1
          rw [hw, List.length_append, List.length_cons] at hlength
          omega
        · have hlen := (length_of_mem_product hr').trans (length_of_mem_product hr).symm
          exact (intercalate_cons_eq_iff hlen).mpr (Or.inr (Or.inl ⟨w, hw, heq⟩))
      · obtain ⟨a, ha⟩ := List.exists_mem_of_ne_nil words (hne words List.mem_cons_self)
        refine ⟨a :: r, cons_mem_product.mpr ⟨ha, hr⟩, a :: r', cons_mem_product.mpr ⟨ha, hr'⟩, ?_, ?_⟩
        · exact fun hsame => hdiffer (List.cons.inj hsame).2
        · have hlen := (length_of_mem_product hr).trans (length_of_mem_product hr').symm
          exact (intercalate_cons_eq_iff hlen).mpr (Or.inl ⟨rfl, heq⟩)
    · rintro ⟨_, hmem, _, hmem', hdiffer, heq⟩
      obtain ⟨a, ha, r, hr, rfl⟩ := exists_cons_of_mem_product hmem
      obtain ⟨b, hb, r', hr', rfl⟩ := exists_cons_of_mem_product hmem'
      have hlen := (length_of_mem_product hr).trans (length_of_mem_product hr').symm
      rcases (intercalate_cons_eq_iff hlen).mp heq with ⟨rfl, htails⟩ | ⟨w, hw, htails⟩ | ⟨w, hw, htails⟩
      · exact Or.inr ⟨r, hr, r', hr', fun hsame => hdiffer (congrArg _ hsame), htails⟩
      · exact Or.inl ⟨a, ha, b, hb, w, hw, r', hr', r, hr, htails⟩
      · exact Or.inl ⟨b, hb, a, ha, w, hw, r, hr, r', hr', htails⟩

theorem spells_iff : ∀ {choices : List (List (List α))} {text : List α},
    spells sep text choices = true ↔ ∃ r ∈ product choices, [sep].intercalate r = text
  | [], text => by simp [spells, product, eq_comm]
  | [words], text => by
    unfold spells
    rw [decide_eq_true_eq]
    constructor
    · intro h
      exact ⟨[text], cons_mem_product.mpr ⟨h, List.mem_singleton_self _⟩, by simp⟩
    · rintro ⟨_, hmem, rfl⟩
      obtain ⟨a, ha, r, hr, rfl⟩ := exists_cons_of_mem_product hmem
      obtain rfl := List.mem_singleton.mp hr
      simpa using ha
  | words :: more :: rest, text => by
    unfold spells
    simp only [List.any_eq_true, any_beyond, spells_iff]
    constructor
    · rintro ⟨a, ha, _, rfl, r, hr, rfl⟩
      refine ⟨a :: r, cons_mem_product.mpr ⟨ha, hr⟩, ?_⟩
      obtain ⟨b, -, tail, -, rfl⟩ := exists_cons_of_mem_product hr
      simp
    · rintro ⟨_, hmem, rfl⟩
      obtain ⟨a, ha, r, hr, rfl⟩ := exists_cons_of_mem_product hmem
      refine ⟨a, ha, [sep].intercalate r, ?_, r, hr, rfl⟩
      obtain ⟨b, -, tail, -, rfl⟩ := exists_cons_of_mem_product hr
      simp

end Fsmc.Lib.SeparatedWords
