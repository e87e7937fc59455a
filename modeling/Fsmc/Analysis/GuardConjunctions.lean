/-
# Fsmc.Analysis.GuardConjunctions — guards that are conjunctions of comparisons.

From a guard that is a conjunction of comparisons, and of parts in which none is found, the comparisons are read, in
their order and whatever brackets stand around the parts.
-/
import Fsmc.Analysis.GuardSplitting

namespace Fsmc.Analysis.GuardSatisfiability

open Fsmc.Cpp Fsmc.Ir

/-! ## Conjunctions -/

/-- Nothing in a text looks like a comparison of a name with a literal. -/
def Unread (s : List Char) : Prop := ∀ part, part <:+: s → ¬cmpRe.Matches part ∧ ¬boolEqRe.Matches part

/-- A text without blanks around it that is no part of a separator at its ends. -/
structure Enclosed (s : List Char) : Prop where
  first : ∃ c more, s = c :: more ∧ isSpace c = false
  bare : separatorAt false s = none
  ending : Sealed false s

/-- A conjunction of the comparisons of a list and of parts in which none is found, written as a guard of a level. -/
inductive Conjunction : ℕ → Guard → List Char → List Comparison → Prop
  | comparison {c : Comparison} {b b' : List Char} (h : IsComparison c) (hand : NoAnd false c.qualified)
      (hb : ∀ x ∈ b, isSpace x = true) (hb' : ∀ x ∈ b', isSpace x = true) :
      Conjunction 3 c.guard (c.text b b') [c]
  | unread {n : ℕ} {g : Guard} {s : List Char} (h : Writes n g s) (hs : Enclosed s) (hunread : Unread s) :
      Conjunction n g s []
  | parens {g : Guard} {s b b' : List Char} {cs : List Comparison} (h : Conjunction 1 g s cs)
      (hb : ∀ x ∈ b, isSpace x = true) (hb' : ∀ x ∈ b', isSpace x = true) :
      Conjunction 4 g ('(' :: (b ++ (s ++ (b' ++ [')'])))) cs
  | and {g g' : Guard} {s s' b b' : List Char} {cs cs' : List Comparison} (h : Conjunction 2 g s cs)
      (h' : Conjunction 3 g' s' cs') (hb : ∀ x ∈ b, isSpace x = true) (hb' : ∀ x ∈ b', isSpace x = true) :
      Conjunction 2 (.and g g') (s ++ (b ++ '&' :: '&' :: (b' ++ s'))) (cs ++ cs')
  | lower {n : ℕ} {g : Guard} {s : List Char} {cs : List Comparison} (hn : n ≤ 3) (h : Conjunction (n + 1) g s cs) :
      Conjunction n g s cs

variable {cs : List Comparison} {s : List Char}

variable {g : Guard} {n : ℕ} {ops : List String}

theorem Conjunction.holds (h : Conjunction n g s cs)
    {v : Valuation} (hv : g.holds v = true) : ∀ c ∈ cs, c.guard.holds v = true := by
  induction h with
  | comparison _ _ _ _ => exact List.forall_mem_singleton.mpr hv
  | unread _ _ _ => exact List.forall_mem_nil _
  | parens _ _ _ ih => exact ih hv
  | and _ _ _ _ ih ih' =>
    obtain ⟨hleft, hright⟩ := Bool.and_eq_true_iff.mp hv
    exact List.forall_mem_append.mpr ⟨ih hleft, ih' hright⟩
  | lower _ _ ih => exact ih hv

/-! ## Parts in which nothing is found -/

/-- A text that ends in a word. -/
def EndsInWord (s : List Char) : Prop := ∃ more c, s = more ++ [c] ∧ isWordChar c = true

theorem endsInWord_of_forall (hne : s ≠ []) (h : ∀ c ∈ s, isWordChar c = true) : EndsInWord s := by
  obtain ⟨more, c, rfl⟩ := List.eq_nil_or_concat' s |>.resolve_left hne
  exact ⟨more, c, rfl, h c (by simp)⟩

theorem EndsInWord.append (h : EndsInWord s) (front : List Char) : EndsInWord (front ++ s) := by
  obtain ⟨more, c, rfl, hc⟩ := h
  exact ⟨front ++ more, c, (List.append_assoc _ _ _).symm, hc⟩

theorem boolText_chars (v : Bool) :
    (boolText v).toList ≠ [] ∧ ∀ c ∈ (boolText v).toList, isWordChar c = true ∧ c ≠ '&' ∧ c ≠ 'd' := by
  revert v
  decide +kernel

theorem NumberShape.endsInWord (h : NumberShape s) : EndsInWord s := by
  obtain ⟨sign, whole, fraction, suffix, rfl, -, ⟨hne, hwhole⟩, hfraction, hsuffix⟩ := h
  refine EndsInWord.append ?_ sign
  by_cases hletters : suffix = []
  · subst hletters
    rw [List.append_nil]
    rcases hfraction with rfl | ⟨digits, rfl, hdigits, hall⟩
    · rw [List.append_nil]
      exact endsInWord_of_forall hne fun c hc => isWordChar_of_isDigit (hwhole c hc)
    · refine EndsInWord.append ?_ whole
      exact (endsInWord_of_forall hdigits fun c hc => isWordChar_of_isDigit (hall c hc)).append ['.']
  · have hend := endsInWord_of_forall hletters fun c hc => (suffixChar (hsuffix c hc)).1
    exact (hend.append fraction).append whole

theorem matches_comparison_last {value : Regex}
    (hvalue : ∀ v, value.Matches v → EndsInWord v) (h : (comparison ops value).Matches s) : EndsInWord s := by
  obtain ⟨front, name, blanks, w, blanks', v, rfl, -, -, -, -, -, hv⟩ := matches_comparison h
  exact (((((hvalue v hv).append _).append _).append _).append _).append _

theorem infix_of_opening {front part s : List Char} (hfront : ∀ c ∈ front, isOpening c = true)
    (hfirst : ∃ c more, part = c :: more ∧ isWordChar c = true) (h : part <:+: front ++ s) : part <:+: s := by
  obtain ⟨c, more, rfl, hc⟩ := hfirst
  induction front with
  | nil => exact h
  | cons d front ih =>
    rcases List.infix_cons_iff.mp h with hstart | hin
    · have hword := isWordChar_of_isOpening (hfront d List.mem_cons_self)
      rw [← (List.cons_prefix_cons.mp hstart).1, hc] at hword
      cases hword
    · exact ih (fun x hx => hfront x (List.mem_cons_of_mem _ hx)) hin

theorem infix_of_closing {behind part s : List Char} (hbehind : ∀ c ∈ behind, isClosing c = true)
    (hlast : EndsInWord part) (h : part <:+: s ++ behind) : part <:+: s := by
  obtain ⟨more, c, rfl, hc⟩ := hlast
  induction behind using List.reverseRecOn with
  | nil => rwa [List.append_nil] at h
  | append_singleton behind d ih =>
    rw [← List.append_assoc] at h
    rcases List.infix_concat_iff.mp h with hend | hin
    · rcases List.suffix_concat_iff.mp hend with hnil | ⟨front, heq, -⟩
      · exact absurd hnil (by simp)
      · have hcd : [c] = [d] := (List.append_inj' heq rfl).2
        have hword := (isWordChar_of_isClosing (hbehind d (by simp))).1
        rw [← (List.cons.inj hcd).1, hc] at hword
        cases hword
    · exact ih (fun x hx => hbehind x (List.mem_append_left _ hx)) hin

theorem search_eq_none {value : Regex} {t : List Char}
    (h : ∀ part, part <:+: t → ¬(comparison ops value).Matches part) :
    (comparison ops value).search (String.ofList t) = none := by
  unfold Regex.search
  rw [String.toList_ofList]
  refine Regex.searchFrom_eq_none fun u hu => Regex.ends_eq_nil fun used rest hsplit hused => ?_
  refine h used ?_ hused
  exact (List.IsPrefix.isInfix ⟨rest, hsplit.symm⟩).trans hu.isInfix

theorem readClause_of_unread {s t : List Char} (h : Unread s)
    (hsub : ∀ part, part <:+: t → (∃ c more, part = c :: more ∧ isWordChar c = true) → EndsInWord part → part <:+: s) :
    readClause t = none := by
  have hnumber : cmpRe.search (String.ofList t) = none := search_eq_none fun part hpart hmatches =>
    (h part (hsub part hpart (matches_comparison_first hmatches)
      (matches_comparison_last (fun v hv => (numberShape_of_matches hv).endsInWord) hmatches))).1 hmatches
  have htruth : ∀ v, (Regex.oneOf ["true", "false"]).Matches v → EndsInWord v := by
    intro v hv
    obtain ⟨w, hw, rfl⟩ := Regex.matches_oneOf.mp hv
    obtain ⟨v, rfl⟩ : ∃ v, w = boolText v := by
      rcases List.mem_cons.mp hw with rfl | hw
      · exact ⟨true, rfl⟩
      · exact ⟨false, List.mem_singleton.mp hw⟩
    exact endsInWord_of_forall (boolText_chars v).1 fun c hc => ((boolText_chars v).2 c hc).1
  have hequal : boolEqRe.search (String.ofList t) = none := search_eq_none fun part hpart hmatches =>
    (h part (hsub part hpart (matches_comparison_first hmatches) (matches_comparison_last htruth hmatches))).2 hmatches
  unfold readClause
  rw [hnumber, hequal]
  rfl

theorem reads_unread (hs : Enclosed s) (h : Unread s) : Reads s [] := by
  refine Reads.of_sealed hs.first hs.bare hs.ending fun opening hopening done last hsplit closing hclosing => ?_
  have hopening' : ∀ c ∈ opening.reverse, isOpening c = true := fun c hc => hopening c (List.mem_reverse.mp hc)
  have hin : ∀ piece ∈ done ++ [last], piece <:+: opening.reverse ++ s := fun piece hmem =>
    infix_of_mem_split (hsplit ▸ hmem)
  have hdone : done.filterMap readClause = [] := by
    rw [List.filterMap_eq_nil_iff]
    intro piece hmem
    exact readClause_of_unread h fun part hpart hfirst _ =>
      infix_of_opening hopening' hfirst (hpart.trans (hin piece (List.mem_append_left _ hmem)))
  have hlast : readClause (last ++ closing) = none :=
    readClause_of_unread h fun part hpart hfirst hend =>
      infix_of_opening hopening' hfirst ((infix_of_closing hclosing hend hpart).trans (hin last (by simp)))
  rw [hdone, hlast]
  rfl

/-! ## Comparisons -/

theorem Fits.chars {op : Comparator} {l : Literal} (h : Fits op l) : ∀ x ∈ l.text, x ≠ '&' ∧ x ≠ 'd' := by
  cases l with
  | truth v =>
    exact fun x hx => ((boolText_chars v).2 x hx).2
  | number text value =>
    have hnumber : IsNumber text value := h
    obtain ⟨sign, whole, fraction, suffix, htext, hsign, ⟨-, hwhole⟩, hfraction, hsuffix⟩ := hnumber.shape
    have hdigit : ∀ x : Char, x.isDigit = true → x ≠ '&' ∧ x ≠ 'd' := by
      intro x hx
      constructor <;>
        · rintro rfl
          exact absurd hx (by decide)
    intro x hx
    rw [show (Literal.number text value).text = text from rfl, htext, List.mem_append, List.mem_append,
      List.mem_append] at hx
    rcases hx with hx | hx | hx | hx
    · rcases hsign with rfl | ⟨c, rfl, hc⟩
      · exact absurd hx List.not_mem_nil
      · rw [List.mem_singleton.mp hx]
        simp only [Bool.or_eq_true, decide_eq_true_eq] at hc
        rcases hc with rfl | rfl <;> decide
    · exact hdigit x (hwhole x hx)
    · rcases hfraction with rfl | ⟨digits, rfl, -, hall⟩
      · exact absurd hx List.not_mem_nil
      · rcases List.mem_cons.mp hx with rfl | hx
        · decide
        · exact hdigit x (hall x hx)
    · exact (suffixChar (hsuffix x hx)).2.2.2

theorem Fits.endsInWord {op : Comparator} {l : Literal} (h : Fits op l) : EndsInWord l.text := by
  cases l with
  | number text value => exact (show IsNumber text value from h).shape.endsInWord
  | truth v =>
    exact endsInWord_of_forall (boolText_chars v).1 fun c hc => ((boolText_chars v).2 c hc).1

theorem noAnd_of_notMem {afterWord : Bool} {t : List Char} (h : 'd' ∉ t) : NoAnd afterWord t := by
  induction t generalizing afterWord with
  | nil => exact trivial
  | cons c t ih => exact ⟨fun hbad => h (hbad.2.1.subset (by decide)), ih fun hmem => h (List.mem_cons_of_mem _ hmem)⟩

theorem NoAnd.append {afterWord : Bool} {s t : List Char} (h : NoAnd afterWord s) (ht : 'd' ∉ t)
    (hfirst : ∀ x ∈ t.head?, isWordChar x = false) : NoAnd afterWord (s ++ t) := by
  induction s generalizing afterWord with
  | nil => exact noAnd_of_notMem ht
  | cons c s ih =>
    refine ⟨fun ⟨hflag, hand, hnext⟩ => h.1 ⟨hflag, ?_⟩, ih h.2⟩
    replace hand : "and".toList <+: (c :: s) ++ t := hand
    replace hnext : (((c :: s) ++ t).drop 3).head?.any isWordChar = false := hnext
    have hin : "and".toList <+: c :: s := by
      cases t with
      | nil => rwa [List.append_nil] at hand
      | cons d t =>
        refine prefix_of_prefix_append hand fun hmem => ?_
        have hword : ∀ x ∈ "and".toList, isWordChar x = true := by decide
        have hd := hfirst d rfl
        rw [hword d hmem] at hd
        cases hd
    refine ⟨hin, ?_⟩
    obtain ⟨more, hmore⟩ := hin
    rw [← hmore] at hnext ⊢
    rw [List.append_assoc] at hnext
    cases more with
    | nil => rfl
    | cons x more => exact hnext

section Comparison

variable {c : Comparison} {b b' : List Char}

theorem IsComparison.whole (h : IsComparison c) (hand : NoAnd false c.qualified) (hb : ∀ x ∈ b, isSpace x = true)
    (hb' : ∀ x ∈ b', isSpace x = true) : '&' ∉ c.text b b' ∧ NoAnd false (c.text b b') := by
  have htext : c.text b b' = c.qualified ++ (b ++ (c.op.text.toList ++ (b' ++ c.literal.text))) := by
    unfold Comparison.text Comparison.unqualified Comparison.qualified
    rw [List.append_assoc]
  have hblank : ∀ x, isSpace x = true → x ≠ '&' ∧ x ≠ 'd' := by
    intro x hx
    constructor <;>
      · rintro rfl
        exact absurd hx (by decide)
  have hop : ∀ x ∈ c.op.text.toList, x ≠ '&' ∧ x ≠ 'd' := by
    cases c.op <;> decide +kernel
  have hbehind : ∀ x ∈ b ++ (c.op.text.toList ++ (b' ++ c.literal.text)), x ≠ '&' ∧ x ≠ 'd' :=
    List.forall_mem_append.mpr ⟨fun x hx => hblank x (hb x hx), List.forall_mem_append.mpr ⟨hop,
      List.forall_mem_append.mpr ⟨fun x hx => hblank x (hb' x hx), h.literal.chars⟩⟩⟩
  rw [htext]
  refine ⟨fun hmem => ?_, hand.append (fun hmem => (hbehind _ hmem).2 rfl) fun x hx => ?_⟩
  · rcases List.mem_append.mp hmem with hmem | hmem
    · exact absurd (h.isVariable.chars _ hmem) (by decide)
    · exact (hbehind _ hmem).1 rfl
  · exact (ends_name hb c.op (b' ++ c.literal.text)).1 x hx

theorem reads_comparison (h : IsComparison c) (hand : NoAnd false c.qualified) (hb : ∀ x ∈ b, isSpace x = true)
    (hb' : ∀ x ∈ b', isSpace x = true) : Reads (c.text b b') [c.reading] := by
  obtain ⟨hamp, hno⟩ := h.whole hand hb hb'
  obtain ⟨d, ds, hqualified, hd⟩ := h.isVariable.first
  have hfirst : c.text b b' = d :: (ds ++ (b ++ (c.op.text.toList ++ (b' ++ c.literal.text)))) := by
    rw [← List.cons_append, ← hqualified]
    unfold Comparison.text Comparison.unqualified Comparison.qualified
    rw [List.append_assoc]
  have hspace : isSpace d = false := by
    rw [Bool.eq_false_iff]
    intro hspace
    have hword := (isWordChar_of_isSpace hspace).1
    rw [isWordChar_of_first hd] at hword
    cases hword
  have hlast : EndsInWord (c.text b b') :=
    (((h.literal.endsInWord.append b').append c.op.text.toList).append b |>.append c.name).append c.qualifier
  have hsealed : Sealed false (c.text b b') := by
    obtain ⟨more, x, htext, hx⟩ := hlast
    refine ⟨⟨x, by rw [htext, List.getLast?_concat], ?_, ?_⟩, hno.noFinalAnd⟩
    · rw [Bool.eq_false_iff]
      intro hspace
      rw [(isWordChar_of_isSpace hspace).1] at hx
      cases hx
    · rintro rfl
      exact absurd hx (by decide)
  refine Reads.of_sealed ⟨d, _, hfirst, hspace⟩ (separatorAt_whole hamp hno) hsealed ?_
  intro opening hopening done last hsplit closing hclosing
  rw [split_whole hamp hno (by rw [hfirst]; simp)] at hsplit
  obtain ⟨hdone, hlast⟩ :=
    List.append_inj' (show [] ++ [opening.reverse ++ c.text b b'] = done ++ [last] from hsplit) rfl
  rw [← hdone, ← (List.cons.inj hlast).1, List.append_assoc,
    readClause_comparison h (fun x hx => hopening x (List.mem_reverse.mp hx)) hb hb' hclosing]
  rfl

end Comparison

/-! ## What is read from a conjunction -/

theorem Conjunction.reads (h : Conjunction n g s cs) : Reads s (cs.map Comparison.reading) := by
  induction h with
  | comparison h hand hb hb' => exact reads_comparison h hand hb hb'
  | unread _ hs hunread => exact reads_unread hs hunread
  | parens _ hb hb' ih => exact ih.parens hb hb'
  | and _ _ hb hb' ih ih' =>
    rw [List.map_append]
    exact ih.and ih' hb hb'
  | lower _ _ ih => exact ih

/-- The guard of a text, with the comparisons that it is a conjunction of. -/
def Readable (g : Guard) (s : List Char) (cs : List Comparison) : Prop :=
  ∃ b core b', s = b ++ (core ++ b') ∧ (∀ x ∈ b, isSpace x = true) ∧ (∀ x ∈ b', isSpace x = true) ∧
    Conjunction 1 g core cs

theorem Conjunction.readable (h : Conjunction n g s cs)
    (hn : n = 1 ∨ n = 2 ∨ n = 3) : Readable g s cs := by
  have hlevel : Conjunction 1 g s cs := by
    rcases hn with rfl | rfl | rfl
    · exact h
    · exact .lower (by decide) h
    · exact .lower (by decide) (.lower (by decide) h)
  exact ⟨[], s, [], (List.append_nil s).symm, List.forall_mem_nil _, List.forall_mem_nil _, hlevel⟩

/-- **The comparisons are read**, and nothing else. -/
theorem Readable.clauses (h : Readable g s cs) :
    (clauses s).filterMap readClause = cs.map Comparison.reading := by
  obtain ⟨b, s, b', rfl, hb, hb', h⟩ := h
  have hclosing : ∀ x ∈ b', isClosing x = true := fun x hx => by
    unfold isClosing
    rw [hb' x hx]
    rfl
  have hopening : ∀ x ∈ b.reverse ++ [], isOpening x = true := fun x hx => by
    rw [List.append_nil, List.mem_reverse] at hx
    unfold isOpening
    rw [hb x hx]
    rfl
  have hclose : Closes b' := by
    have hboth := Closes.of_closing hclosing (show Closes [] from nofun)
    rwa [List.append_nil] at hboth
  obtain ⟨flag, hflag, hfront⟩ := split_blanks false [] hb (h.reads.bare b' hclose)
  obtain ⟨done, last, hlast, hrest, hread⟩ := h.reads.parts _ hopening
  obtain ⟨flag', hflag'⟩ := hrest b' hclose
  obtain ⟨flag'', -, hend⟩ := split_blanks flag' last.reverse hb' (show separatorAt false [] = none from rfl)
  have htail : split flag'' (b'.reverse ++ last.reverse) [] = [last ++ b'] := by
    rw [← List.reverse_append]
    exact split_nil (List.append_ne_nil_of_left_ne_nil hlast _)
  show (split false [] (b ++ (s ++ b'))).filterMap readClause = _
  rw [hfront, hflag rfl]
  refine hflag'.trans ?_
  unfold readParts
  rw [List.append_nil] at hend
  rw [hend, htail, ← hread b' hclosing, filterMap_cons_toList]
  simp

end Fsmc.Analysis.GuardSatisfiability
