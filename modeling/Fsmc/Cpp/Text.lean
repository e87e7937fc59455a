/-
# Fsmc.Cpp.Text — the string operations the analyses use.

`std::string` is Lean's `String`; the operations below work on its list of characters. Only ASCII
characters are ever looked for, so bytes and code points give the same answers.
-/
import Mathlib.Data.List.DropRight

namespace Fsmc.Cpp

/-- `std::isspace` in the C locale. -/
def isSpace (c : Char) : Bool :=
  c = ' ' || c = '\t' || c = '\n' || c = '\x0b' || c = '\x0c' || c = '\r'

/-- `trim_str`: without leading and trailing white space. -/
def trimStr (s : String) : String :=
  String.ofList ((s.toList.dropWhile isSpace).rdropWhile isSpace)

def substrFrom (s : String) (pos : Nat) : String := String.ofList (s.toList.drop pos)

def substrTo (s : String) (pos : Nat) : String := String.ofList (s.toList.take pos)

def startsWith (s p : String) : Bool := p.toList.isPrefixOf s.toList

/-- The first position at which `p` occurs. -/
def findSub (p : List Char) : List Char → Option Nat
  | [] => if p.isPrefixOf [] then some 0 else none
  | c :: cs => if p.isPrefixOf (c :: cs) then some 0 else (findSub p cs).map (· + 1)

/-- `s.find(p)`, `none` for `npos`. -/
def find (s p : String) : Option Nat := findSub p.toList s.toList

/-- Whether all characters of a text have a property is asked of the text, and not of the alphabet. -/
instance decidableForallMemChar (p : Char → Prop) [DecidablePred p] (l : List Char) : Decidable (∀ c ∈ l, p c) :=
  List.decidableBAll p l

/-! ## Trimming -/

section Trim

variable {space : Char → Bool} {l : List Char}

theorem rdropWhile_append_cons {c : Char} (hc : space c = false) (a b : List Char) :
    (a ++ c :: b).rdropWhile space = a ++ c :: b.rdropWhile space := by
  induction b using List.reverseRecOn with
  | nil => rw [List.rdropWhile_concat_neg space a c (by simp [hc]), List.rdropWhile_nil]
  | append_singleton b d ih =>
    have hassoc : a ++ c :: (b ++ [d]) = (a ++ c :: b) ++ [d] := by simp
    rw [hassoc]
    by_cases hd : space d = true
    · rw [List.rdropWhile_concat_pos space _ d hd, List.rdropWhile_concat_pos space _ d hd, ih]
    · rw [List.rdropWhile_concat_neg space _ d hd, List.rdropWhile_concat_neg space _ d hd, ← hassoc]

/-- Trimming text without white space at its ends, padded with white space, gives the text back. -/
theorem trim_padded {before after : List Char} (hb : ∀ c ∈ before, space c = true)
    (ha : ∀ c ∈ after, space c = true) (hfirst : ∀ c ∈ l.head?, space c = false)
    (hlast : ∀ c ∈ l.getLast?, space c = false) :
    ((before ++ l ++ after).dropWhile space).rdropWhile space = l := by
  rcases l with _ | ⟨c, l⟩
  · have hall : ∀ c ∈ before ++ [] ++ after, space c = true := by
      intro c hc
      rw [List.append_nil] at hc
      exact (List.mem_append.mp hc).elim (hb c) (ha c)
    rw [List.dropWhile_eq_nil_iff.mpr hall]
    rfl
  · have hc : space c = false := hfirst c (by simp)
    have hdrop : (before ++ (c :: l) ++ after).dropWhile space = (c :: l) ++ after := by
      rw [List.append_assoc, List.dropWhile_append_of_pos hb, List.cons_append,
        List.dropWhile_cons_of_neg (by simp [hc])]
    have hafter : after.reverse.dropWhile space = [] :=
      List.dropWhile_eq_nil_iff.mpr fun c hc => ha c (List.mem_reverse.mp hc)
    rw [hdrop, List.rdropWhile, List.reverse_append, List.dropWhile_append, hafter]
    have hrev : ((c :: l).reverse.dropWhile space) = (c :: l).reverse := by
      rcases hl : (c :: l).reverse with _ | ⟨d, r⟩
      · rfl
      · have hd : space d = false := by
          refine hlast d ?_
          rw [List.getLast?_eq_head?_reverse, hl]
          rfl
        exact List.dropWhile_cons_of_neg (by simp [hd])
    rw [List.isEmpty_nil, if_pos rfl, hrev, List.reverse_reverse]

end Trim

/-- Text that is white space. -/
def IsBlank (s : String) : Prop := ∀ c ∈ s.toList, isSpace c = true

instance (s : String) : Decidable (IsBlank s) :=
  decidable_of_iff (s.toList.all isSpace = true) List.all_eq_true

theorem trimStr_padded {before s after : String} (hb : IsBlank before) (ha : IsBlank after)
    (hfirst : ∀ c ∈ s.toList.head?, isSpace c = false)
    (hlast : ∀ c ∈ s.toList.getLast?, isSpace c = false) :
    trimStr (before ++ s ++ after) = s := by
  unfold trimStr
  rw [String.toList_append, String.toList_append, trim_padded hb ha hfirst hlast,
    String.ofList_toList]

theorem trimStr_eq_self {s : String} (hfirst : ∀ c ∈ s.toList.head?, isSpace c = false)
    (hlast : ∀ c ∈ s.toList.getLast?, isSpace c = false) : trimStr s = s := by
  have hnil : IsBlank "" := fun c hc => absurd hc List.not_mem_nil
  have h := trimStr_padded hnil hnil hfirst hlast
  rwa [String.empty_append, String.append_empty] at h

/-! ## Searching -/

/-- The leftmost occurrence: `p` is found right after a part in which it starts nowhere. -/
theorem findSub_append {p rest : List Char} (hp : p ≠ []) {before : List Char}
    (hno : ∀ c ∈ before, c ∉ p.head?) : findSub p (before ++ (p ++ rest)) = some before.length := by
  induction before with
  | nil =>
    rcases p with _ | ⟨c, p⟩
    · exact absurd rfl hp
    · simp [findSub]
  | cons c before ih =>
    have hno' : ∀ d ∈ before, d ∉ p.head? := fun d hd => hno d (List.mem_cons_of_mem _ hd)
    rw [List.cons_append, findSub, if_neg, ih hno']
    · rfl
    · rcases p with _ | ⟨d, p⟩
      · exact absurd rfl hp
      · have hcd : d ≠ c := fun h => hno c List.mem_cons_self (by simp [h])
        simp [List.isPrefixOf, hcd]

theorem findSub_eq_none {p l : List Char} (h : ∀ r, r <:+ l → p.isPrefixOf r = false) : findSub p l = none := by
  induction l with
  | nil => simp [findSub, h [] (List.suffix_refl _)]
  | cons c l ih =>
    have hl : findSub p l = none := ih fun r hr => h r (hr.trans (List.suffix_cons c l))
    rw [findSub, h _ (List.suffix_refl _), hl]
    rfl

theorem findSub_eq_none_of_notMem {p text : List Char} {c : Char} (hc : c ∈ p) (h : c ∉ text) :
    findSub p text = none := by
  refine findSub_eq_none fun r hr => ?_
  rw [Bool.eq_false_iff]
  intro hprefix
  exact h (hr.subset ((List.isPrefixOf_iff_prefix.mp hprefix).subset hc))

theorem startsWith_eq_false {s p : String} {d : Char} (hd : p.toList.head? = some d)
    (h : s.toList.head? ≠ some d) : startsWith s p = false := by
  unfold startsWith
  rw [Bool.eq_false_iff, Ne, List.isPrefixOf_iff_prefix]
  intro hprefix
  obtain ⟨r, hr⟩ := hprefix
  cases hp : p.toList with
  | nil => simp [hp] at hd
  | cons e p' =>
    rw [hp] at hd hr
    rw [← hr] at h
    exact h (by simpa using hd)

/-- A prefix that does not contain the character where a text goes on is a prefix of its first part. -/
theorem prefix_of_prefix_append {α : Type*} {p a r : List α} {d : α} (h : p <+: a ++ d :: r)
    (hd : d ∉ p) : p <+: a := by
  cases List.prefix_or_prefix_of_prefix h (List.prefix_append a (d :: r)) with
  | inl hpa => exact hpa
  | inr hap =>
    obtain ⟨q, rfl⟩ := hap
    rw [List.prefix_append_right_inj] at h
    cases q with
    | nil => simp
    | cons e q =>
      rw [List.cons_prefix_cons] at h
      exact absurd (by simp [h.1]) hd

theorem find_eq_none {s p : String} {d : Char} (hd : d ∈ p.toList) (h : d ∉ s.toList) : find s p = none := by
  apply findSub_eq_none
  intro r hr
  rw [Bool.eq_false_iff, Ne, List.isPrefixOf_iff_prefix]
  exact fun hp => h (hr.subset (hp.subset hd))

end Fsmc.Cpp
