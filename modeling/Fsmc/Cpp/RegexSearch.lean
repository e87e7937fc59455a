/-
# Fsmc.Cpp.RegexSearch — what a search finds.

The first match of a sequence is the first match of its head, followed by the first match of the others behind it,
if there is one. What a pattern matches at all does not depend on the order in which matches are tried.
-/
import Fsmc.Cpp.Regex

namespace Fsmc.Cpp.Regex

/-- The match that is tried first. -/
def First (r : Regex) (text : List Char) (m : Captures) (rest : List Char) : Prop :=
  (r.ends text).head? = some (m, rest)

/-- The texts that a pattern matches. -/
def Matches : Regex → List Char → Prop
  | empty, s => s = []
  | one p, s => ∃ c, s = [c] ∧ p c = true
  | many p, s => ∀ c ∈ s, p c = true
  | seq a b, s => ∃ u v, s = u ++ v ∧ a.Matches u ∧ b.Matches v
  | alt a b, s => a.Matches s ∨ b.Matches s
  | opt a, s => a.Matches s ∨ s = []
  | group _ a, s => a.Matches s

/-- Words, tried in this order. -/
def oneOf (words : List String) : Regex := words.foldr (fun w r => alt (literal w) r) (one fun _ => false)

variable {a b r : Regex} {p : Char → Bool} {text rest rest' s : List Char} {m m' : Captures} {c : Char} {i : ℕ}

/-! ## Texts without a match -/

theorem mem_manyEnds (h : rest ∈ manyEnds p text) : ∃ used, text = used ++ rest ∧ ∀ c ∈ used, p c = true := by
  induction text with
  | nil =>
    rw [manyEnds, List.mem_singleton] at h
    exact ⟨[], h.symm, nofun⟩
  | cons c text ih =>
    rw [manyEnds, List.mem_append] at h
    rcases h with h | h
    · split at h
      · next hc =>
          obtain ⟨used, htext, hused⟩ := ih h
          refine ⟨c :: used, congrArg (c :: ·) htext, fun d hd => ?_⟩
          rcases List.mem_cons.mp hd with rfl | hd
          · exact hc
          · exact hused d hd
      · exact absurd h List.not_mem_nil
    · exact ⟨[], (List.mem_singleton.mp h).symm, nofun⟩

theorem mem_ends : ∀ {r : Regex} {text : List Char} {m : Captures} {rest : List Char}, (m, rest) ∈ r.ends text →
    ∃ used, text = used ++ rest ∧ r.Matches used
  | empty, text, m, rest, h => by
    obtain ⟨-, rfl⟩ := Prod.mk.inj (List.mem_singleton.mp h)
    exact ⟨[], rfl, rfl⟩
  | one p, [], m, rest, h => absurd h List.not_mem_nil
  | one p, c :: text, m, rest, h => by
    rw [ends] at h
    split at h
    · next hc =>
        obtain ⟨-, rfl⟩ := Prod.mk.inj (List.mem_singleton.mp h)
        exact ⟨[c], rfl, c, rfl, hc⟩
    · exact absurd h List.not_mem_nil
  | many p, text, m, rest, h => by
    obtain ⟨rest', hmem, heq⟩ := List.mem_map.mp h
    obtain ⟨-, rfl⟩ := Prod.mk.inj heq
    exact mem_manyEnds hmem
  | seq a b, text, m, rest, h => by
    obtain ⟨⟨m₁, mid⟩, ha, hb⟩ := List.mem_flatMap.mp h
    obtain ⟨⟨m₂, rest'⟩, hmem, heq⟩ := List.mem_map.mp hb
    obtain ⟨-, rfl⟩ := Prod.mk.inj heq
    obtain ⟨u, rfl, hu⟩ := mem_ends (r := a) ha
    obtain ⟨v, rfl, hv⟩ := mem_ends (r := b) hmem
    exact ⟨u ++ v, (List.append_assoc u v _).symm, u, v, rfl, hu, hv⟩
  | alt a b, text, m, rest, h => by
    rcases List.mem_append.mp h with h | h
    · obtain ⟨used, htext, hused⟩ := mem_ends h
      exact ⟨used, htext, Or.inl hused⟩
    · obtain ⟨used, htext, hused⟩ := mem_ends h
      exact ⟨used, htext, Or.inr hused⟩
  | opt a, text, m, rest, h => by
    rcases List.mem_append.mp h with h | h
    · obtain ⟨used, htext, hused⟩ := mem_ends h
      exact ⟨used, htext, Or.inl hused⟩
    · obtain ⟨-, rfl⟩ := Prod.mk.inj (List.mem_singleton.mp h)
      exact ⟨[], rfl, Or.inr rfl⟩
  | group i a, text, m, rest, h => by
    obtain ⟨⟨m', rest'⟩, hmem, heq⟩ := List.mem_map.mp h
    obtain ⟨-, rfl⟩ := Prod.mk.inj heq
    exact mem_ends (r := a) hmem

theorem ends_eq_nil (h : ∀ used rest, text = used ++ rest → ¬r.Matches used) : r.ends text = [] := by
  rw [List.eq_nil_iff_forall_not_mem]
  rintro ⟨m, rest⟩ hmem
  obtain ⟨used, htext, hused⟩ := mem_ends hmem
  exact h used rest htext hused

theorem searchFrom_eq_none (h : ∀ s, s <:+ text → r.ends s = []) : r.searchFrom text = none := by
  induction text with
  | nil =>
    rw [searchFrom, h [] (List.suffix_refl _)]
    rfl
  | cons c text ih =>
    rw [searchFrom, h (c :: text) (List.suffix_refl _)]
    exact ih fun s hs => h s (hs.trans (List.suffix_cons c text))

theorem searchFrom_skip (h : ∀ c ∈ s, ∀ text, r.ends (c :: text) = []) :
    r.searchFrom (s ++ text) = r.searchFrom text := by
  induction s with
  | nil => rfl
  | cons c s ih =>
    rw [List.cons_append, searchFrom, h c List.mem_cons_self]
    exact ih fun d hd => h d (List.mem_cons_of_mem _ hd)

theorem matches_literal (w : String) : (literal w).Matches s ↔ s = w.toList := by
  unfold literal
  generalize w.toList = cs
  induction cs generalizing s with
  | nil => exact Iff.rfl
  | cons c cs ih =>
    constructor
    · rintro ⟨u, v, rfl, ⟨d, rfl, hd⟩, hv⟩
      rw [ih.mp hv, of_decide_eq_true hd]
      rfl
    · rintro rfl
      exact ⟨[c], cs, rfl, ⟨c, rfl, decide_eq_true rfl⟩, ih.mpr rfl⟩

/-! ## The first match -/

theorem First.search (h : First r text m rest) : r.searchFrom text = some m := by
  obtain ⟨more, hmore⟩ := List.head?_eq_some_iff.mp h
  cases text with
  | nil =>
    rw [searchFrom, hmore]
    rfl
  | cons c text => rw [searchFrom, hmore]

theorem First.empty : First .empty text [] text := rfl

theorem First.one (hc : p c = true) : First (.one p) (c :: text) [] text := by
  unfold First ends
  rw [if_pos hc]
  rfl

theorem First.many (hs : ∀ c ∈ s, p c = true) (hrest : ∀ c ∈ rest.head?, p c = false) :
    First (.many p) (s ++ rest) [] rest := by
  have hends : (manyEnds p (s ++ rest)).head? = some rest := by
    induction s with
    | nil =>
      cases rest with
      | nil => rfl
      | cons c rest =>
        show ((if p c then manyEnds p rest else []) ++ [c :: rest]).head? = _
        rw [hrest c rfl]
        rfl
    | cons c s ih =>
      show ((if p c then manyEnds p (s ++ rest) else []) ++ [c :: (s ++ rest)]).head? = _
      rw [if_pos (hs c List.mem_cons_self), List.head?_append, ih fun d hd => hs d (List.mem_cons_of_mem _ hd)]
      rfl
  unfold First ends
  rw [List.head?_map, hends]
  rfl

theorem First.seq (ha : First a text m rest) (hb : First b rest m' rest') :
    First (.seq a b) text (m ++ m') rest' := by
  obtain ⟨more, hmore⟩ := List.head?_eq_some_iff.mp ha
  obtain ⟨more', hmore'⟩ := List.head?_eq_some_iff.mp hb
  unfold First ends
  rw [hmore, List.flatMap_cons]
  dsimp only
  rw [hmore']
  rfl

theorem First.altLeft (ha : First a text m rest) : First (.alt a b) text m rest := by
  unfold First ends
  rw [List.head?_append, ha]
  rfl

theorem First.altRight (ha : a.ends text = []) (hb : First b text m rest) : First (.alt a b) text m rest := by
  unfold First ends
  rwa [ha, List.nil_append]

theorem First.opt (ha : First a text m rest) : First (.opt a) text m rest := by
  unfold First ends
  rw [List.head?_append, ha]
  rfl

theorem First.optNone (ha : a.ends text = []) : First (.opt a) text [] text := by
  unfold First ends
  rw [ha]
  rfl

theorem First.group (ha : First a (s ++ rest) m rest) :
    First (.group i a) (s ++ rest) ((i, String.ofList s) :: m) rest := by
  unfold First ends
  rw [List.head?_map, ha]
  show some ((i, String.ofList ((s ++ rest).take ((s ++ rest).length - rest.length))) :: m, rest) = _
  rw [List.length_append, Nat.add_sub_cancel, List.take_left]

theorem First.literal (w : String) (rest : List Char) : First (.literal w) (w.toList ++ rest) [] rest := by
  unfold Regex.literal
  generalize w.toList = cs
  induction cs with
  | nil => exact First.empty
  | cons c cs ih => exact First.seq (First.one (decide_eq_true rfl)) ih

theorem ends_literal_eq_nil {w : String} (h : ¬w.toList <+: text) : (Regex.literal w).ends text = [] :=
  ends_eq_nil fun used rest htext hused => by
    rw [matches_literal] at hused
    exact h ⟨rest, by rw [htext, hused]⟩

theorem First.oneOf {w : String} : ∀ {words : List String}, w ∈ words →
    (∀ w' ∈ words.takeWhile (· ≠ w), ¬w'.toList <+: w.toList ++ rest) →
    First (.oneOf words) (w.toList ++ rest) [] rest
  | w' :: words, hmem, hbefore => by
    by_cases heq : w' = w
    · subst heq
      exact First.altLeft (First.literal w' rest)
    · have htake : (w' :: words).takeWhile (· ≠ w) = w' :: words.takeWhile (· ≠ w) :=
        List.takeWhile_cons_of_pos (decide_eq_true heq)
      rw [htake] at hbefore
      refine First.altRight (ends_literal_eq_nil (hbefore w' List.mem_cons_self)) ?_
      exact First.oneOf ((List.mem_cons.mp hmem).resolve_left fun h => heq h.symm) fun u hu =>
        hbefore u (List.mem_cons_of_mem _ hu)

theorem matches_oneOf {words : List String} : (oneOf words).Matches s ↔ ∃ w ∈ words, s = w.toList := by
  induction words with
  | nil =>
    constructor
    · rintro ⟨c, -, hc⟩
      cases hc
    · rintro ⟨w, hw, -⟩
      exact absurd hw List.not_mem_nil
  | cons w words ih =>
    have hcons : (∃ w' ∈ w :: words, s = w'.toList) ↔ s = w.toList ∨ ∃ w' ∈ words, s = w'.toList :=
      List.exists_mem_cons_iff _ w words
    rw [hcons, ← ih, ← matches_literal]
    exact Iff.rfl

end Fsmc.Cpp.Regex
