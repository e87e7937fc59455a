/-
# Fsmc.Cpp.Lines — reading a text piece by piece.

`std::getline` splits a stream at a delimiter, and what a writer ends with the delimiter comes back as it was
(`getlines_flatMap`). Trimming and the number at the end of a name are undone in the same way: by cutting the
text at a character that what has been written does not contain.
-/
import Fsmc.Cpp.Text

namespace Fsmc.Cpp

/-! ## Pieces -/

/-- `std::getline` with a delimiter until it fails, behind the characters of the piece read so far. There is no
empty piece at the end. -/
def getlines (delim : Char) : List Char → List Char → List (List Char)
  | [], cur => if cur = [] then [] else [cur]
  | c :: text, cur => if c = delim then cur :: getlines delim text [] else getlines delim text (cur ++ [c])

section Pieces

variable {delim : Char}

variable {piece rest : List Char}

theorem getlines_append (h : delim ∉ piece) (cur : List Char) :
    getlines delim (piece ++ rest) cur = getlines delim rest (cur ++ piece) := by
  induction piece generalizing cur with
  | nil => rw [List.nil_append, List.append_nil]
  | cons c piece ih =>
    have hc : c ≠ delim := fun heq => h (heq ▸ List.mem_cons_self)
    have hpiece : delim ∉ piece := fun hmem => h (List.mem_cons_of_mem _ hmem)
    rw [List.cons_append, getlines, if_neg hc, ih hpiece, List.append_assoc]
    rfl

theorem getlines_piece (h : delim ∉ piece) :
    getlines delim (piece ++ delim :: rest) [] = piece :: getlines delim rest [] := by
  rw [getlines_append h, getlines, if_pos rfl, List.nil_append]

theorem getlines_flatMap {lines : List (List Char)} (h : ∀ l ∈ lines, delim ∉ l) :
    getlines delim (lines.flatMap (· ++ [delim])) [] = lines := by
  induction lines with
  | nil => rfl
  | cons l lines ih =>
    rw [List.flatMap_cons, List.append_assoc, List.singleton_append,
      getlines_piece (h l List.mem_cons_self), ih fun l' hl' => h l' (List.mem_cons_of_mem _ hl')]

theorem getlines_intercalate {first : List Char} {rest : List (List Char)} (hfirst : delim ∉ first)
    (h : ∀ l ∈ rest, delim ∉ l) (hne : ∀ l ∈ first :: rest, l ≠ []) (hblank : delim ≠ ' ') :
    getlines delim (first ++ rest.flatMap ([delim, ' '] ++ ·)) [] = first :: rest.map (' ' :: ·) := by
  induction rest generalizing first with
  | nil =>
    rw [List.flatMap_nil, getlines_append hfirst, List.nil_append, getlines,
      if_neg (hne first List.mem_cons_self)]
    rfl
  | cons l rest ih =>
    have hl : delim ∉ ' ' :: l := by
      rw [List.mem_cons, not_or]
      exact ⟨hblank, h l List.mem_cons_self⟩
    have hne' : ∀ l' ∈ (' ' :: l) :: rest, l' ≠ [] := by
      intro l' hl'
      rcases List.mem_cons.mp hl' with rfl | hl'
      · exact List.cons_ne_nil _ _
      · exact hne l' (List.mem_cons_of_mem _ (List.mem_cons_of_mem _ hl'))
    rw [List.flatMap_cons, List.append_assoc, List.cons_append, getlines_piece hfirst, List.map_cons]
    congr 1
    exact ih hl (fun l' hl' => h l' (List.mem_cons_of_mem _ hl')) hne'

end Pieces

/-! ## Numbers at the end of a name -/

theorem toDigits_injective {i j : Nat} (h : Nat.toDigits 10 i = Nat.toDigits 10 j) : i = j := by
  have hi := Nat.ofDigitChars_toDigits (b := 10) (n := i) (by omega) (by omega)
  have hj := Nat.ofDigitChars_toDigits (b := 10) (n := j) (by omega) (by omega)
  rw [← hi, ← hj, h]

/-- A number behind an underscore can be read off a text: its digits end at the first underscore from the
right. -/
theorem numbered_injective {a b : String} {i j : Nat} (h : a ++ "_" ++ toString i = b ++ "_" ++ toString j) :
    i = j := by
  have hlist := congrArg String.toList h
  simp only [String.toList_append] at hlist
  have hi : (toString i).toList = Nat.toDigits 10 i := Nat.toList_repr
  have hj : (toString j).toList = Nat.toDigits 10 j := Nat.toList_repr
  have hsep : ("_" : String).toList = ['_'] := rfl
  rw [hi, hj, hsep] at hlist
  have hrev := congrArg List.reverse hlist
  simp only [List.reverse_append, List.reverse_singleton, List.singleton_append] at hrev
  have hnot : ∀ n : Nat, '_' ∉ (Nat.toDigits 10 n).reverse := fun n hmem =>
    Nat.underscore_not_in_toDigits (List.mem_reverse.mp hmem)
  have htake : ∀ (n : Nat) (rest : List Char),
      ((Nat.toDigits 10 n).reverse ++ '_' :: rest).takeWhile (· ≠ '_') =
        (Nat.toDigits 10 n).reverse := by
    intro n rest
    rw [List.takeWhile_append_of_pos]
    · simp
    · intro c hc
      simpa using fun heq : c = '_' => hnot n (heq ▸ hc)
  have hsame := congrArg (List.takeWhile (· ≠ '_')) hrev
  rw [htake, htake] at hsame
  exact toDigits_injective (List.reverse_injective hsame)

end Fsmc.Cpp
