/-
# Fsmc.Analysis.GuardSplitting — how guards are split at their conjunctions.

A text that does not end in the middle of a separator is split in the same way whatever follows it. So a conjunction
is split into what its two sides are split into, whatever brackets stand around them.
-/
import Fsmc.Analysis.ComparisonSearch

namespace Fsmc.Analysis.GuardSatisfiability

open Fsmc.Cpp Fsmc.Ir Fsmc.Lib

/-! ## Splitting -/

theorem suffix_separatorAt {afterWord : Bool} {c : Char} {text rest : List Char}
    (h : separatorAt afterWord (c :: text) = some rest) : rest <:+ text := by
  have hdrop : ∀ n, (((c :: text).dropWhile isSpace).drop (n + 1)).dropWhile isSpace <:+ text := by
    intro n
    refine (List.dropWhile_suffix _).trans ?_
    rcases List.suffix_cons_iff.mp (List.dropWhile_suffix isSpace (l := c :: text)) with heq | hsub
    · rw [heq]
      exact List.drop_suffix n text
    · exact (List.drop_suffix _ _).trans hsub
  unfold separatorAt at h
  dsimp only at h
  split at h
  · rw [← Option.some.inj h]
    exact hdrop 1
  · split at h
    · rw [← Option.some.inj h]
      exact hdrop 2
    · cases h

theorem clausesFrom_eq {n : ℕ} : ∀ {m : ℕ} {afterWord : Bool} {clause text : List Char}, text.length < n →
    text.length < m → clausesFrom n afterWord clause text = clausesFrom m afterWord clause text := by
  induction n with
  | zero => exact fun h => absurd h (Nat.not_lt_zero _)
  | succ n ih =>
    intro m afterWord clause text hn hm
    obtain ⟨m, rfl⟩ : ∃ k, m = k + 1 := ⟨m - 1, by omega⟩
    cases text with
    | nil => rfl
    | cons c text =>
      rw [List.length_cons] at hn hm
      rw [clausesFrom, clausesFrom]
      cases hsep : separatorAt afterWord (c :: text) with
      | none => exact ih (by omega) (by omega)
      | some rest =>
        have hle := (suffix_separatorAt hsep).length_le
        exact congrArg (clause.reverse :: ·) (ih (by omega) (by omega))

/-- The clauses of a text behind characters of a clause. -/
def split (afterWord : Bool) (clause text : List Char) : List (List Char) :=
  clausesFrom (text.length + 1) afterWord clause text

theorem split_nil {afterWord : Bool} {clause : List Char} (h : clause ≠ []) :
    split afterWord clause.reverse [] = [clause] := by
  show (if clause.reverse = [] then [] else [clause.reverse.reverse]) = [clause]
  rw [if_neg (List.reverse_ne_nil_iff.mpr h), List.reverse_reverse]

theorem split_none {afterWord : Bool} {c : Char} {clause text : List Char}
    (h : separatorAt afterWord (c :: text) = none) :
    split afterWord clause (c :: text) = split (isWordChar c) (c :: clause) text := by
  unfold split
  rw [clausesFrom, h]
  rfl

theorem split_some {afterWord : Bool} {c : Char} {clause text rest : List Char}
    (h : separatorAt afterWord (c :: text) = some rest) :
    split afterWord clause (c :: text) = clause.reverse :: split false [] rest := by
  unfold split
  rw [clausesFrom, h]
  have hle := (suffix_separatorAt h).length_le
  exact congrArg (clause.reverse :: ·) (clausesFrom_eq (by rw [List.length_cons]; omega) (by omega))

/-- What may follow a part: nothing, a blank, a bracket or the separator. -/
def Closes (rest : List Char) : Prop := ∀ c ∈ rest.head?, isClosing c = true ∨ c = '&'

theorem Closes.of_closing {blanks rest : List Char} (hblanks : ∀ c ∈ blanks, isClosing c = true) (h : Closes rest) :
    Closes (blanks ++ rest) := by
  cases blanks with
  | nil => exact h
  | cons d blanks =>
    intro c hc
    obtain rfl := Option.some.inj hc
    exact Or.inl (hblanks d List.mem_cons_self)

/-- No suffix at which a word may begin is of a kind; the flag says whether a character of a word stands before the
text. -/
def Nowhere (bad : List Char → Prop) : Bool → List Char → Prop
  | _, [] => True
  | afterWord, c :: s => ¬(afterWord = false ∧ bad (c :: s)) ∧ Nowhere bad (isWordChar c) s

section Nowhere

variable {bad bad' : List Char → Prop} {afterWord : Bool} {s : List Char}

theorem Nowhere.mono (hbad : ∀ t, bad' t → bad t) (h : Nowhere bad afterWord s) : Nowhere bad' afterWord s := by
  induction s generalizing afterWord with
  | nil => exact trivial
  | cons c s ih => exact ⟨fun hc => h.1 ⟨hc.1, hbad _ hc.2⟩, ih h.2⟩

theorem Nowhere.behind {front : List Char} {d : Char} (h : Nowhere bad afterWord (front ++ d :: s)) :
    Nowhere bad (isWordChar d) s := by
  induction front generalizing afterWord with
  | nil => exact h.2
  | cons c front ih => exact ih h.2

theorem Nowhere.dropWhile (h : Nowhere bad afterWord s) :
    s.dropWhile isSpace = s ∨ (s.dropWhile isSpace).length < s.length ∧ Nowhere bad false (s.dropWhile isSpace) := by
  induction s generalizing afterWord with
  | nil => exact Or.inl rfl
  | cons c s ih =>
    cases hc : isSpace c with
    | false => exact Or.inl (List.dropWhile_cons_of_neg (by rw [hc]; decide))
    | true =>
      have hrest : Nowhere bad false s := by
        have hnext := h.2
        rwa [(isWordChar_of_isSpace hc).1] at hnext
      rw [List.dropWhile_cons_of_pos hc]
      rcases ih hrest with hsame | ⟨hlt, hno⟩
      · rw [hsame]
        exact Or.inr ⟨Nat.lt_succ_self _, hrest⟩
      · exact Or.inr ⟨hlt.trans (Nat.lt_succ_self _), hno⟩

end Nowhere

/-- The text begins with `and` as a word. -/
def BeginsWithAnd (s : List Char) : Prop := "and".toList <+: s ∧ (s.drop 3).head?.any isWordChar = false

/-- No `and` stands in a text as a word. -/
abbrev NoAnd : Bool → List Char → Prop := Nowhere BeginsWithAnd

/-- A text does not end with `and` as a word. -/
abbrev NoFinalAnd : Bool → List Char → Prop := Nowhere (· = "and".toList)

theorem NoAnd.noFinalAnd {afterWord : Bool} {s : List Char} (h : NoAnd afterWord s) : NoFinalAnd afterWord s := by
  refine Nowhere.mono (fun t ht => ?_) h
  rw [ht]
  exact ⟨List.prefix_refl _, rfl⟩

/-- A text that is no part of a separator at its end. -/
structure Sealed (afterWord : Bool) (s : List Char) : Prop where
  last : ∃ c, s.getLast? = some c ∧ isSpace c = false ∧ c ≠ '&'
  word : NoFinalAnd afterWord s

/-! ## Separators -/

section Separators

variable {afterWord : Bool} {c : Char} {s rest : List Char}

theorem separatorAt_of_first (hspace : isSpace c = false) (hamp : c ≠ '&') (ha : c ≠ 'a') (s : List Char) :
    separatorAt afterWord (c :: s) = none := by
  have hampersand : ¬"&&".toList <+: c :: s := fun h => hamp (List.cons_prefix_cons.mp h).1.symm
  have hand : ¬"and".toList <+: c :: s := fun h => ha (List.cons_prefix_cons.mp h).1.symm
  unfold separatorAt
  rw [List.dropWhile_cons_of_neg (by rw [hspace]; decide)]
  dsimp only
  rw [if_neg hampersand, decide_eq_false hand]
  rfl

theorem separatorAt_blank (hc : isSpace c = true) (s : List Char) :
    separatorAt afterWord (c :: s) = separatorAt false s := by
  have hlt : (s.dropWhile isSpace).length ≠ (c :: s).length := by
    have hle : (s.dropWhile isSpace).length ≤ s.length := (List.dropWhile_sublist _).length_le
    rw [List.length_cons]
    omega
  unfold separatorAt
  rw [List.dropWhile_cons_of_pos hc]
  dsimp only
  rw [decide_eq_false hlt, Bool.and_false]
  rfl

theorem prefix_of_closes {w : List Char} (hw : ∀ c ∈ w, isClosing c = false ∧ c ≠ '&') (hclose : Closes rest)
    (h : w <+: s ++ rest) : w <+: s := by
  cases rest with
  | nil => rwa [List.append_nil] at h
  | cons d rest =>
    refine prefix_of_prefix_append h fun hd => ?_
    rcases hclose d rfl with hclosing | hamp
    · rw [(hw d hd).1] at hclosing
      cases hclosing
    · exact (hw d hd).2 hamp

theorem dropWhile_append_of_last (hlast : s.getLast? = some c) (hc : isSpace c = false) (rest : List Char) :
    (s ++ rest).dropWhile isSpace = s.dropWhile isSpace ++ rest ∧ (s.dropWhile isSpace).getLast? = some c := by
  induction s with
  | nil => cases hlast
  | cons d s ih =>
    cases hd : isSpace d with
    | false =>
      have hstop : ¬isSpace d = true := by rw [hd]; decide
      rw [List.cons_append, List.dropWhile_cons_of_neg hstop, List.dropWhile_cons_of_neg hstop]
      exact ⟨rfl, hlast⟩
    | true =>
      rw [List.cons_append, List.dropWhile_cons_of_pos hd, List.dropWhile_cons_of_pos hd]
      cases s with
      | nil =>
        have heq : d = c := Option.some.inj hlast
        rw [← heq, hd] at hc
        cases hc
      | cons e s => exact ih (by rwa [List.getLast?_cons_cons] at hlast)

theorem Nowhere.mem_drop {bad : List Char → Prop} {w t : List Char} (h : Nowhere bad afterWord (w ++ t))
    (hw : w.getLast? = some c) : Nowhere bad (isWordChar c) t := by
  obtain ⟨front, rfl⟩ := List.getLast?_eq_some_iff.mp hw
  rw [List.append_assoc] at h
  exact Nowhere.behind h

theorem sealed_dropWhile {w t : List Char} {d : Char} (hw : w.getLast? = some d)
    (hd : isWordChar d = true → ∀ x ∈ t.head?, isWordChar x = false) (hno : NoFinalAnd afterWord (w ++ t))
    (hlast : ∃ c, t.getLast? = some c ∧ isSpace c = false ∧ c ≠ '&') : Sealed false (t.dropWhile isSpace) := by
  obtain ⟨c, hc, hspace, hamp⟩ := hlast
  refine ⟨⟨c, (dropWhile_append_of_last hc hspace []).2, hspace, hamp⟩, ?_⟩
  have ht := hno.mem_drop hw
  rcases ht.dropWhile with hsame | ⟨-, hrest⟩
  · rw [hsame]
    cases hword : isWordChar d with
    | false => rwa [hword] at ht
    | true =>
      cases t with
      | nil => cases hc
      | cons x t =>
        refine ⟨fun hbad => ?_, ht.2⟩
        have hx := hd hword x rfl
        rw [(List.cons.inj hbad.2).1] at hx
        exact absurd hx (by decide)
  · exact hrest

theorem separatorAt_sealed (h : Sealed afterWord s) :
    separatorAt afterWord s = none ∧ (∀ rest, Closes rest → separatorAt afterWord (s ++ rest) = none) ∨
      ∃ r, separatorAt afterWord s = some r ∧ Sealed false r ∧
        ∀ rest, Closes rest → separatorAt afterWord (s ++ rest) = some (r ++ rest) := by
  obtain ⟨c, hc, hspace, hamp⟩ := h.last
  obtain ⟨-, hlast⟩ := dropWhile_append_of_last hc hspace []
  have hbody : ∀ rest, (s ++ rest).dropWhile isSpace = s.dropWhile isSpace ++ rest := fun rest =>
    (dropWhile_append_of_last hc hspace rest).1
  have hno : ∃ flag, NoFinalAnd flag (s.dropWhile isSpace) ∧
      (flag = false ∨ afterWord = true ∧ s.dropWhile isSpace = s) := by
    rcases h.word.dropWhile with hsame | ⟨-, hrest⟩
    · rw [hsame]
      cases afterWord with
      | false => exact ⟨false, h.word, Or.inl rfl⟩
      | true => exact ⟨true, h.word, Or.inr ⟨rfl, rfl⟩⟩
    · exact ⟨false, hrest, Or.inl rfl⟩
  obtain ⟨flag, hno, hflag⟩ := hno
  unfold separatorAt
  dsimp only
  simp only [hbody]
  generalize hb : s.dropWhile isSpace = body at *
  by_cases hampersand : "&&".toList <+: body
  · obtain ⟨t, rfl⟩ := hampersand
    have ht : t ≠ [] := by
      rintro rfl
      exact hamp (Option.some.inj hlast).symm
    have hlast' : t.getLast? = some c := by rwa [List.getLast?_append_of_ne_nil _ ht] at hlast
    refine Or.inr ⟨t.dropWhile isSpace, if_pos (List.prefix_append _ _), ?_, fun rest _ => ?_⟩
    · exact sealed_dropWhile (w := "&&".toList) rfl (fun h => absurd h (by decide)) hno ⟨c, hlast', hspace, hamp⟩
    · rw [if_pos (by rw [List.append_assoc]; exact List.prefix_append _ _)]
      exact congrArg some (dropWhile_append_of_last hlast' hspace rest).1
  · have hnot : ∀ rest, ¬"&&".toList <+: body ++ rest := by
      rintro rest ⟨more, hmore⟩
      match body, hlast, hmore, hampersand with
      | [x], hlast, hmore, _ =>
        have hx : '&' = x := (List.cons.inj hmore).1
        exact hamp ((Option.some.inj hlast).symm.trans hx.symm)
      | x :: y :: body, _, hmore, hampersand =>
        obtain ⟨hx, hmore⟩ := List.cons.inj hmore
        have hy : '&' = y := (List.cons.inj hmore).1
        exact hampersand ⟨body, by rw [← hx, ← hy]; rfl⟩
    have hself := hnot []
    rw [List.append_nil] at hself
    rw [if_neg hself]
    simp only [if_neg (hnot _)]
    by_cases hin : "and".toList <+: body
    · obtain ⟨t, rfl⟩ := hin
      cases t with
      | nil =>
        -- `and` stands at the end, so it is no word of its own
        obtain rfl | ⟨rfl, rfl⟩ := hflag
        · exact absurd ⟨rfl, rfl⟩ hno.1
        · refine Or.inl ⟨?_, fun rest _ => ?_⟩ <;>
            rw [decide_eq_true rfl, Bool.and_self, Bool.not_true, Bool.and_false, Bool.false_and] <;> rfl
      | cons x t =>
        have hlast' : (x :: t).getLast? = some c := by
          rwa [List.getLast?_append_of_ne_nil _ (List.cons_ne_nil _ _)] at hlast
        -- what stands before and behind the word is the same with and without the rest
        have hword : ∀ rest, (decide ("and".toList <+: "and".toList ++ x :: t ++ rest) &&
            !(afterWord && decide (("and".toList ++ x :: t ++ rest).length = (s ++ rest).length)) &&
            !(("and".toList ++ x :: t ++ rest).drop 3).head?.any isWordChar) =
              (!(afterWord && decide (("and".toList ++ x :: t).length = s.length)) && !isWordChar x) := by
          intro rest
          have hfront : "and".toList <+: "and".toList ++ x :: t ++ rest := by
            rw [List.append_assoc]
            exact List.prefix_append _ _
          have hlength : decide (("and".toList ++ x :: t ++ rest).length = (s ++ rest).length) =
              decide (("and".toList ++ x :: t).length = s.length) := by
            refine decide_eq_decide.mpr ?_
            rw [List.length_append, @List.length_append _ s, Nat.add_right_cancel_iff]
          rw [decide_eq_true hfront, hlength, Bool.true_and]
          rfl
        have hbare := hword []
        rw [List.append_nil, List.append_nil] at hbare
        rw [hbare]
        simp only [hword]
        cases hcond : (!(afterWord && decide (("and".toList ++ x :: t).length = s.length)) && !isWordChar x) with
        | false => exact Or.inl ⟨rfl, fun _ _ => rfl⟩
        | true =>
          obtain ⟨-, hx⟩ := Bool.and_eq_true_iff.mp hcond
          rw [Bool.not_eq_true'] at hx
          refine Or.inr ⟨(x :: t).dropWhile isSpace, rfl, ?_, fun rest _ => ?_⟩
          · refine sealed_dropWhile (w := "and".toList) rfl (fun _ y hy => ?_) hno ⟨c, hlast', hspace, hamp⟩
            rwa [← Option.some.inj hy]
          · exact congrArg some (dropWhile_append_of_last hlast' hspace rest).1
    · have hbehind : ∀ rest, Closes rest → ¬"and".toList <+: body ++ rest := fun rest hclose h =>
        hin (prefix_of_closes (by decide) hclose h)
      refine Or.inl ⟨?_, fun rest hclose => ?_⟩
      · rw [decide_eq_false hin]
        rfl
      · rw [decide_eq_false (hbehind rest hclose)]
        rfl

theorem separatorAt_whole (hamp : '&' ∉ s) (hand : NoAnd afterWord s) : separatorAt afterWord s = none := by
  have hampersand : ¬"&&".toList <+: s.dropWhile isSpace := fun h =>
    hamp ((List.dropWhile_sublist _).subset (h.subset List.mem_cons_self))
  have hword : ("and".toList <+: s.dropWhile isSpace && !(afterWord && (s.dropWhile isSpace).length = s.length) &&
      !((s.dropWhile isSpace).drop 3).head?.any isWordChar) = false := by
    rw [Bool.eq_false_iff]
    intro h
    simp only [Bool.and_eq_true, decide_eq_true_eq, Bool.not_eq_true', Bool.and_eq_false_iff,
      decide_eq_false_iff_not] at h
    obtain ⟨⟨hin, hbefore⟩, hbehind⟩ := h
    have hno : ∀ {flag : Bool}, flag = false → ¬NoAnd flag (s.dropWhile isSpace) := by
      intro flag hflag hno
      cases hdrop : s.dropWhile isSpace with
      | nil =>
        rw [hdrop] at hin
        exact absurd (List.prefix_nil.mp hin) (by decide)
      | cons d ds =>
        rw [hdrop] at hno hin hbehind
        exact hno.1 ⟨hflag, hin, hbehind⟩
    rcases hand.dropWhile with hsame | ⟨-, hrest⟩
    · rw [hsame] at hbefore hno
      exact hno (hbefore.resolve_right fun h => h rfl) hand
    · exact hno rfl hrest
  unfold separatorAt
  dsimp only
  rw [if_neg hampersand, hword]
  rfl

end Separators

/-! ## Parts -/

section Parts

variable {afterWord : Bool} {clause s : List Char}

theorem split_append (clause : List Char) (hne : s ≠ []) (h : Sealed afterWord s) : ∃ done last, last ≠ [] ∧
    split afterWord clause s = done ++ [last] ∧
    ∀ rest, Closes rest → ∃ flag, split afterWord clause (s ++ rest) = done ++ split flag last.reverse rest := by
  generalize hn : s.length = n
  induction n using Nat.strong_induction_on generalizing s afterWord clause with
  | _ n ih =>
    obtain ⟨c, s, rfl⟩ := List.exists_cons_of_ne_nil hne
    subst hn
    rcases separatorAt_sealed h with ⟨hnone, hbehind⟩ | ⟨r, hsome, hr, hbehind⟩
    · have hstep : ∀ rest, Closes rest →
          split afterWord clause (c :: s ++ rest) = split (isWordChar c) (c :: clause) (s ++ rest) :=
        fun rest hclose => split_none (hbehind rest hclose)
      rw [split_none hnone]
      by_cases hs : s = []
      · subst hs
        refine ⟨[], (c :: clause).reverse, ?_, ?_, fun rest hclose => ⟨isWordChar c, ?_⟩⟩
        · exact List.reverse_ne_nil_iff.mpr (List.cons_ne_nil _ _)
        · have hlast : split (isWordChar c) (c :: clause).reverse.reverse [] = [(c :: clause).reverse] :=
            split_nil (List.reverse_ne_nil_iff.mpr (List.cons_ne_nil c clause))
          rwa [List.reverse_reverse] at hlast
        · rw [hstep rest hclose, List.reverse_reverse]
          rfl
      · have hnext : Sealed (isWordChar c) s := by
          obtain ⟨d, hd, hlast⟩ := h.last
          obtain ⟨e, s, rfl⟩ := List.exists_cons_of_ne_nil hs
          exact ⟨⟨d, by rwa [List.getLast?_cons_cons] at hd, hlast⟩, h.word.2⟩
        obtain ⟨done, last, hlast, hsplit, hrest⟩ := ih s.length (Nat.lt_succ_self _) (c :: clause) hs hnext rfl
        refine ⟨done, last, hlast, hsplit, fun rest hclose => ?_⟩
        rw [hstep rest hclose]
        exact hrest rest hclose
    · have hlt : r.length < (c :: s).length := Nat.lt_succ_of_le (suffix_separatorAt hsome).length_le
      have hrne : r ≠ [] := by
        rintro rfl
        obtain ⟨d, hd, -⟩ := hr.last
        cases hd
      obtain ⟨done, last, hlast, hsplit, hrest⟩ := ih r.length hlt [] hrne hr rfl
      refine ⟨clause.reverse :: done, last, hlast, ?_, fun rest hclose => ?_⟩
      · rw [split_some hsome, hsplit]
        rfl
      · obtain ⟨flag, hflag⟩ := hrest rest hclose
        refine ⟨flag, ?_⟩
        have hfound : separatorAt afterWord (c :: (s ++ rest)) = some (r ++ rest) := hbehind rest hclose
        rw [List.cons_append, split_some hfound, hflag]
        rfl

theorem split_whole (hamp : '&' ∉ s) (hand : NoAnd afterWord s) (hne : clause.reverse ++ s ≠ []) :
    split afterWord clause s = [clause.reverse ++ s] := by
  induction s generalizing afterWord clause with
  | nil =>
    rw [List.append_nil] at hne ⊢
    have hlast : split afterWord clause.reverse.reverse [] = [clause.reverse] := split_nil hne
    rwa [List.reverse_reverse] at hlast
  | cons c s ih =>
    rw [split_none (separatorAt_whole hamp hand), ih (fun h => hamp (List.mem_cons_of_mem _ h)) hand.2]
    · rw [List.reverse_cons, List.append_assoc]
      rfl
    · simp

theorem infix_of_mem_split {part : List Char} (h : part ∈ split afterWord clause s) :
    part <:+: clause.reverse ++ s := by
  generalize hn : s.length = n
  induction n using Nat.strong_induction_on generalizing s afterWord clause with
  | _ n ih =>
    subst hn
    cases s with
    | nil =>
      have hmem : part ∈ if clause = [] then [] else [clause.reverse] := h
      split at hmem
      · exact absurd hmem List.not_mem_nil
      · rw [List.mem_singleton.mp hmem]
        exact (List.prefix_append _ _).isInfix
    | cons c s =>
      cases hsep : separatorAt afterWord (c :: s) with
      | none =>
        rw [split_none hsep] at h
        have hin := ih s.length (Nat.lt_succ_self _) h rfl
        rwa [List.reverse_cons, List.append_assoc] at hin
      | some r =>
        rw [split_some hsep] at h
        rcases List.mem_cons.mp h with rfl | h
        · exact (List.prefix_append _ _).isInfix
        · have hsub := suffix_separatorAt hsep
          have hin : part <:+: r := ih r.length (Nat.lt_succ_of_le hsub.length_le) h rfl
          have hbehind : r <:+ clause.reverse ++ c :: s :=
            (hsub.trans (List.suffix_cons c s)).trans (List.suffix_append _ _)
          exact hin.trans hbehind.isInfix

theorem split_blanks (afterWord : Bool) (clause : List Char) {blanks : List Char}
    (hblanks : ∀ c ∈ blanks, isSpace c = true) (h : separatorAt false s = none) :
    ∃ flag, (afterWord = false → flag = false) ∧
      split afterWord clause (blanks ++ s) = split flag (blanks.reverse ++ clause) s := by
  have hnone : ∀ bs : List Char, (∀ c ∈ bs, isSpace c = true) → separatorAt false (bs ++ s) = none := by
    intro bs hbs
    induction bs with
    | nil => exact h
    | cons b bs ih =>
      rw [List.cons_append, separatorAt_blank (hbs b List.mem_cons_self)]
      exact ih fun c hc => hbs c (List.mem_cons_of_mem _ hc)
  induction blanks generalizing afterWord clause with
  | nil => exact ⟨afterWord, id, rfl⟩
  | cons b blanks ih =>
    have hb := hblanks b List.mem_cons_self
    have hrest : ∀ c ∈ blanks, isSpace c = true := fun c hc => hblanks c (List.mem_cons_of_mem _ hc)
    obtain ⟨flag, hflag, hsplit⟩ := ih (isWordChar b) (b :: clause) hrest
    refine ⟨flag, fun _ => hflag (isWordChar_of_isSpace hb).1, ?_⟩
    rw [List.cons_append, split_none (by rw [separatorAt_blank hb]; exact hnone blanks hrest), hsplit,
      List.reverse_cons, List.append_assoc]
    rfl

theorem split_separator {b b' : List Char} {c : Char} (hb : ∀ c ∈ b, isSpace c = true)
    (hb' : ∀ c ∈ b', isSpace c = true) (hc : isSpace c = false) :
    split afterWord clause (b ++ '&' :: '&' :: (b' ++ c :: s)) = clause.reverse :: split false [] (c :: s) := by
  have hstop : ¬isSpace c = true := by rw [hc]; decide
  have hfound : separatorAt afterWord (b ++ '&' :: '&' :: (b' ++ c :: s)) = some (c :: s) := by
    unfold separatorAt
    rw [List.dropWhile_append_of_pos hb, List.dropWhile_cons_of_neg (by decide)]
    dsimp only
    rw [if_pos (show "&&".toList <+: '&' :: '&' :: (b' ++ c :: s) from List.prefix_append ['&', '&'] _)]
    show some ((b' ++ c :: s).dropWhile isSpace) = _
    rw [List.dropWhile_append_of_pos hb', List.dropWhile_cons_of_neg hstop]
  cases b with
  | nil => exact split_some hfound
  | cons d b => exact split_some hfound

end Parts

/-! ## What is read from a text -/

/-- What is read from the parts of a text behind the beginning of one. -/
def readParts (afterWord : Bool) (clause text : List Char) : List (String × Interval) :=
  (split afterWord clause text).filterMap readClause

/-- What is read from a text, whatever brackets and blanks stand around it. -/
structure Reads (s : List Char) (readings : List (String × Interval)) : Prop where
  first : ∃ c more, s = c :: more ∧ isSpace c = false
  bare : ∀ rest, Closes rest → separatorAt false (s ++ rest) = none
  parts : ∀ opening, (∀ c ∈ opening, isOpening c = true) → ∃ done last, last ≠ [] ∧
    (∀ rest, Closes rest → ∃ flag,
      readParts false opening (s ++ rest) = done ++ readParts flag last.reverse rest) ∧
    ∀ closing, (∀ c ∈ closing, isClosing c = true) → done ++ (readClause (last ++ closing)).toList = readings

theorem filterMap_cons_toList {α β : Type*} (f : α → Option β) (a : α) (l : List α) :
    (a :: l).filterMap f = (f a).toList ++ l.filterMap f := by
  cases ha : f a <;> simp [ha]

section Reads

variable {s s' b b' : List Char} {readings readings' : List (String × Interval)}

theorem Reads.of_sealed (hfirst : ∃ c more, s = c :: more ∧ isSpace c = false) (hnone : separatorAt false s = none)
    (hs : Sealed false s)
    (hparts : ∀ opening, (∀ c ∈ opening, isOpening c = true) → ∀ done last, split false opening s = done ++ [last] →
      ∀ closing, (∀ c ∈ closing, isClosing c = true) →
        done.filterMap readClause ++ (readClause (last ++ closing)).toList = readings) : Reads s readings := by
  refine ⟨hfirst, fun rest hclose => ?_, fun opening hopening => ?_⟩
  · rcases separatorAt_sealed hs with ⟨-, hbehind⟩ | ⟨r, hsome, -⟩
    · exact hbehind rest hclose
    · rw [hnone] at hsome
      cases hsome
  · obtain ⟨c, more, rfl, -⟩ := hfirst
    obtain ⟨done, last, hlast, hsplit, hrest⟩ := split_append opening (List.cons_ne_nil c more) hs
    refine ⟨done.filterMap readClause, last, hlast, fun rest hclose => ?_, hparts opening hopening done last hsplit⟩
    obtain ⟨flag, hflag⟩ := hrest rest hclose
    refine ⟨flag, ?_⟩
    unfold readParts
    rw [hflag, List.filterMap_append]

theorem Reads.parens (h : Reads s readings) (hb : ∀ c ∈ b, isSpace c = true) (hb' : ∀ c ∈ b', isSpace c = true) :
    Reads ('(' :: (b ++ (s ++ (b' ++ [')'])))) readings := by
  have hopen : ∀ flag t, separatorAt flag ('(' :: t) = none := fun _ t =>
    separatorAt_of_first rfl (by decide) (by decide) t
  have hclosed : ∀ flag t, separatorAt flag (')' :: t) = none := fun _ t =>
    separatorAt_of_first rfl (by decide) (by decide) t
  refine ⟨⟨'(', _, rfl, rfl⟩, fun rest _ => hopen _ _, fun opening hopening => ?_⟩
  have hopening' : ∀ c ∈ b.reverse ++ '(' :: opening, isOpening c = true := by
    intro c hc
    rcases List.mem_append.mp hc with hc | hc
    · unfold isOpening
      rw [hb c (List.mem_reverse.mp hc)]
      rfl
    · rcases List.mem_cons.mp hc with rfl | hc
      · rfl
      · exact hopening c hc
  have hclosing : ∀ c ∈ b' ++ [')'], isClosing c = true := by
    intro c hc
    unfold isClosing
    rcases List.mem_append.mp hc with hc | hc
    · rw [hb' c hc]
      rfl
    · rw [List.mem_singleton.mp hc]
      rfl
  obtain ⟨done, last, hlast, hrest, hread⟩ := h.parts _ hopening'
  refine ⟨done, last ++ (b' ++ [')']), List.append_ne_nil_of_left_ne_nil hlast _, fun rest hclose => ?_,
    fun closing hc => ?_⟩
  · have hclose' : Closes (b' ++ ')' :: rest) := by
      have hboth := hclose.of_closing hclosing
      rwa [List.append_assoc] at hboth
    obtain ⟨flag, hflag⟩ := hrest _ hclose'
    obtain ⟨flag', -, hblanks⟩ := split_blanks flag last.reverse hb' (hclosed false rest)
    refine ⟨false, ?_⟩
    have htext : '(' :: (b ++ (s ++ (b' ++ [')']))) ++ rest = '(' :: (b ++ (s ++ (b' ++ ')' :: rest))) := by simp
    obtain ⟨flag'', hfalse, hfront⟩ := split_blanks false ('(' :: opening) hb
      (h.bare (b' ++ ')' :: rest) hclose')
    unfold readParts at hflag ⊢
    rw [htext, split_none (hopen _ _), show isWordChar '(' = false from rfl, hfront, hfalse rfl, hflag, hblanks,
      split_none (hclosed _ _)]
    simp [show isWordChar ')' = false from rfl]
  · rw [List.append_assoc]
    refine hread _ fun c hmem => ?_
    rcases List.mem_append.mp hmem with hmem | hmem
    · exact hclosing c hmem
    · exact hc c hmem

theorem Reads.and (h : Reads s readings) (h' : Reads s' readings') (hb : ∀ c ∈ b, isSpace c = true)
    (hb' : ∀ c ∈ b', isSpace c = true) : Reads (s ++ (b ++ '&' :: '&' :: (b' ++ s'))) (readings ++ readings') := by
  obtain ⟨c, more, rfl, hc⟩ := h.first
  obtain ⟨c', more', rfl, hc'⟩ := h'.first
  have hclose : ∀ t, Closes (b ++ '&' :: '&' :: t) := fun t => by
    refine Closes.of_closing (fun x hx => ?_) fun x hx => Or.inr (Option.some.inj hx).symm
    unfold isClosing
    rw [hb x hx]
    rfl
  have htext : ∀ rest, c :: more ++ (b ++ '&' :: '&' :: (b' ++ c' :: more')) ++ rest =
      c :: more ++ (b ++ '&' :: '&' :: (b' ++ c' :: (more' ++ rest))) := fun rest => by simp
  refine ⟨⟨c, _, rfl, hc⟩, fun rest _ => ?_, fun opening hopening => ?_⟩
  · rw [htext]
    exact h.bare _ (hclose _)
  · obtain ⟨done, last, -, hrest, hread⟩ := h.parts opening hopening
    obtain ⟨done', last', hlast', hrest', hread'⟩ := h'.parts [] (List.forall_mem_nil _)
    have hfirst := hread [] (List.forall_mem_nil _)
    rw [List.append_nil] at hfirst
    refine ⟨readings ++ done', last', hlast', fun rest hclose' => ?_, fun closing hclosing => ?_⟩
    · obtain ⟨flag, hflag⟩ := hrest _ (hclose (b' ++ c' :: (more' ++ rest)))
      obtain ⟨flag', hflag'⟩ := hrest' rest hclose'
      refine ⟨flag', ?_⟩
      unfold readParts at hflag hflag' ⊢
      rw [htext, hflag, split_separator hb hb' hc', filterMap_cons_toList,
        List.reverse_reverse, ← List.cons_append, hflag', ← hfirst]
      simp
    · rw [List.append_assoc, hread' closing hclosing]

end Reads

end Fsmc.Analysis.GuardSatisfiability
