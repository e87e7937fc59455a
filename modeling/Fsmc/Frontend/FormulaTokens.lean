/-
# Fsmc.Frontend.FormulaTokens — the tokens of a printed formula.

The printer encloses the operands of binary operators that have several operands themselves; the operands between
the brackets of a path formula stand as they are. A path formula with one operand is printed without it. What the
printer writes is split into the tokens it stands for, whatever closes it.
-/
import Fsmc.Frontend.LtlParser

namespace Fsmc.Frontend.LtlParser

open Fsmc.Cpp Fsmc.Ir

/-! ## Words -/

/-- What can stand behind a word of a printed formula. -/
def Closes (rest : List Char) : Prop := ∀ c ∈ rest.head?, c = ' ' ∨ c = ')' ∨ c = ']'

/-- A token that is read again from its own text. -/
structure IsWord (t : Token) : Prop where
  type : t.type = .atom
  text : ∃ c word, t.value.toList = c :: word ∧ c ≠ ']' ∧
    ∀ rest, Closes rest → nextToken c (word ++ rest) = (some t, rest)

/-- A character that begins a word, given what follows. -/
structure Begins (c : Char) (rest : List Char) : Prop where
  space : isSpace c = false
  plain : c ∉ ['[', ']', '&', '|', '!', '(', ')']
  letter : c ∈ ['G', 'F', 'X', 'U', 'R'] → standsAlone rest = false
  angle : c = '<' → rest.head? ≠ some '>' ∧ rest.take 2 ≠ ['-', '>'] ∧ rest.take 2 ≠ ['=', '>']
  arrow : c = '-' ∨ c = '=' → rest.head? ≠ some '>'

variable {c : Char} {rest : List Char} {tokens : List Token}

theorem nextToken_of_begins (h : Begins c rest) :
    nextToken c rest = (wordToken (String.ofList (trim (c :: (takeWord rest).1))), (takeWord rest).2) := by
  have hplain := h.plain
  have hletter := h.letter
  simp only [List.mem_cons, List.not_mem_nil, or_false, not_or] at hplain hletter
  obtain ⟨h1, h2, h3, h4, h5, h6, h7⟩ := hplain
  unfold nextToken
  rw [if_neg (by simp [h.space]), if_neg (by simp [h1]), if_neg h1, if_neg h2, if_neg, if_neg, if_neg, if_neg, if_neg,
    if_neg, if_neg, if_neg, if_neg h3, if_neg h4, if_neg h5, if_neg h6, if_neg h7]
  · simp only [Bool.and_eq_true, Bool.or_eq_true, decide_eq_true_eq]
    exact fun hc => h.arrow hc.1 hc.2
  · simp only [Bool.and_eq_true, Bool.or_eq_true, decide_eq_true_eq]
    exact fun hc => hc.2.elim (h.angle hc.1).2.1 (h.angle hc.1).2.2
  · rintro hc
    simp [hletter (by simp_all)] at hc
  · rintro hc
    simp [hletter (by simp_all)] at hc
  · rintro hc
    simp [hletter (by simp_all)] at hc
  · rintro hc
    simp [hletter (by simp_all)] at hc
  · simp only [Bool.and_eq_true, decide_eq_true_eq]
    exact fun hc => (h.angle hc.1).1 hc.2
  · rintro hc
    simp [hletter (by simp_all)] at hc

theorem ite_ne {α : Type*} {p : Prop} [Decidable p] {a b r : α} (h : (if p then a else b) = r) (ha : a ≠ r) :
    ¬p ∧ b = r := by
  by_cases hp : p
  · rw [if_pos hp] at h
    exact absurd h ha
  · rw [if_neg hp] at h
    exact ⟨hp, h⟩

theorem begins_of_nextToken {rest rest' : List Char} {t : Token} (h : nextToken c rest = (some t, rest'))
    (ht : t.type = .atom) : Begins c rest := by
  have hne : ∀ {type : TokenType} {value : String} {after : List Char}, type ≠ .atom →
      (some (⟨type, value⟩ : Token), after) ≠ (some t, rest') := by
    rintro type value after htype heq
    obtain rfl := Option.some.inj (Prod.mk.inj heq).1
    exact htype ht
  have hpair : ∀ {p : Prop} [Decidable p] {type : TokenType} {value value' : String} {after after' : List Char},
      type ≠ .atom → (if p then (some (⟨type, value⟩ : Token), after) else (some ⟨type, value'⟩, after')) ≠
        (some t, rest') := by
    intro p _ type value value' after after' htype
    split
    · exact hne htype
    · exact hne htype
  unfold nextToken at h
  obtain ⟨h0, h⟩ := ite_ne h fun heq => nomatch (Prod.mk.inj heq).1
  obtain ⟨-, h⟩ := ite_ne h (hne nofun)
  obtain ⟨h1, h⟩ := ite_ne h (hne nofun)
  obtain ⟨h2, h⟩ := ite_ne h (hne nofun)
  obtain ⟨hG, h⟩ := ite_ne h (hne nofun)
  obtain ⟨hangle, h⟩ := ite_ne h (hne nofun)
  obtain ⟨hF, h⟩ := ite_ne h (hne nofun)
  obtain ⟨hX, h⟩ := ite_ne h (hne nofun)
  obtain ⟨hU, h⟩ := ite_ne h (hne nofun)
  obtain ⟨hR, h⟩ := ite_ne h (hne nofun)
  obtain ⟨hequiv, h⟩ := ite_ne h (hne nofun)
  obtain ⟨harrow, h⟩ := ite_ne h (hne nofun)
  obtain ⟨h3, h⟩ := ite_ne h (hpair nofun)
  obtain ⟨h4, h⟩ := ite_ne h (hpair nofun)
  obtain ⟨h5, h⟩ := ite_ne h (hne nofun)
  obtain ⟨h6, h⟩ := ite_ne h (hne nofun)
  obtain ⟨h7, h⟩ := ite_ne h (hne nofun)
  clear h
  simp only [Bool.and_eq_true, Bool.or_eq_true, decide_eq_true_eq, not_and, not_or, Bool.not_eq_true]
    at h0 hG hangle hF hX hU hR hequiv harrow
  refine ⟨h0, by simp [h1, h2, h3, h4, h5, h6, h7], ?_, fun hc => ⟨hangle hc, hequiv hc⟩, harrow⟩
  intro hc
  simp only [List.mem_cons, List.not_mem_nil, or_false] at hc
  rcases hc with hc | hc | hc | hc | hc
  · exact hG hc
  · exact hF hc
  · exact hX hc
  · exact hU hc
  · exact hR hc

theorem head_of_part {part text rest : List Char} (hpart : part <+: text) (hrest : Closes rest)
    (h : (part ++ rest).head? = some '>') : text.head? = some '>' := by
  obtain ⟨more, rfl⟩ := hpart
  cases part with
  | nil => exact absurd (hrest '>' h) (by decide)
  | cons c part => exact h

theorem take_of_part {part text rest : List Char} {x : Char} (hx : ¬ (x = ' ' ∨ x = ')' ∨ x = ']'))
    (hpart : part <+: text) (hrest : Closes rest) (h : (part ++ rest).take 2 = [x, '>']) : text.take 2 = [x, '>'] := by
  obtain ⟨more, rfl⟩ := hpart
  match part, h with
  | [], h =>
    cases rest with
    | nil => cases h
    | cons c rest =>
      obtain rfl : c = x := (List.cons.inj h).1
      exact absurd (hrest c rfl) hx
  | [c], h =>
    cases rest with
    | nil => cases h
    | cons d rest =>
      obtain rfl : d = '>' := (List.cons.inj (List.cons.inj h).2).1
      exact absurd (hrest '>' rfl) (by decide)
  | c :: d :: part, h => exact h

theorem endsWord_of_part {part text rest : List Char} (hpart : part <+: text) (hrest : Closes rest)
    (h : endsWord c text = false) : endsWord c (part ++ rest) = false := by
  unfold endsWord at h ⊢
  simp only [Bool.or_eq_false_iff, Bool.and_eq_false_iff, decide_eq_false_iff_not] at h ⊢
  obtain ⟨⟨⟨hplain, hminus⟩, hequal⟩, hangle⟩ := h
  refine ⟨⟨⟨hplain, ?_⟩, ?_⟩, ?_⟩
  · exact hminus.imp_right fun hne heq => hne (head_of_part hpart hrest heq)
  · exact hequal.imp_right fun hne heq => hne (head_of_part hpart hrest heq)
  · exact hangle.imp_right fun hne => ⟨fun heq => hne.1 (take_of_part (by decide) hpart hrest heq),
      fun heq => hne.2 (take_of_part (by decide) hpart hrest heq)⟩

variable (text : List Char) {n : PropertyAstNode}

theorem takeWord_append : (takeWord text).1 ++ (takeWord text).2 = text := by
  induction text with
  | nil => rfl
  | cons c text ih =>
    unfold takeWord
    split
    · rfl
    · exact congrArg (c :: ·) ih

theorem takeWord_of_closes (h : Closes rest) : takeWord rest = ([], rest) := by
  cases rest with
  | nil => rfl
  | cons c rest =>
    unfold takeWord
    rw [if_pos]
    rcases h c rfl with rfl | rfl | rfl <;> rfl

theorem takeWord_word (hrest : Closes rest) :
    takeWord ((takeWord text).1 ++ rest) = ((takeWord text).1, rest) := by
  induction text with
  | nil => exact takeWord_of_closes hrest
  | cons c text ih =>
    cases hends : endsWord c text with
    | true =>
      rw [takeWord, if_pos hends]
      exact takeWord_of_closes hrest
    | false =>
      have hword : takeWord (c :: text) = (c :: (takeWord text).1, (takeWord text).2) := by
        rw [takeWord, if_neg (by simp [hends])]
      have hpart : (takeWord text).1 <+: text := ⟨_, takeWord_append text⟩
      rw [hword, List.cons_append, takeWord,
        if_neg (by simp [endsWord_of_part hpart hrest hends]), ih]

theorem isDelim_of_endsWord (h : endsWord c rest = true) : isDelim c = true := by
  unfold endsWord at h
  unfold isDelim
  simp only [Bool.or_eq_true, Bool.and_eq_true, decide_eq_true_eq] at h ⊢
  tauto

theorem Begins.close {text rest : List Char} (h : Begins c text) (hrest : Closes rest) :
    Begins c ((takeWord text).1 ++ rest) := by
  have hpart : (takeWord text).1 <+: text := ⟨_, takeWord_append text⟩
  refine ⟨h.space, h.plain, fun hc => ?_, fun hc => ?_, fun hc heq => h.arrow hc (head_of_part hpart hrest heq)⟩
  · have halone := h.letter hc
    cases text with
    | nil => cases halone
    | cons d text =>
      have hends : ¬ endsWord d text = true := fun hends => by
        have hdelim : standsAlone (d :: text) = true := isDelim_of_endsWord hends
        rw [hdelim] at halone
        cases halone
      rw [takeWord, if_neg hends]
      exact halone
  · obtain ⟨hhead, hminus, hequal⟩ := h.angle hc
    exact ⟨fun heq => hhead (head_of_part hpart hrest heq),
      fun heq => hminus (take_of_part (by decide) hpart hrest heq),
      fun heq => hequal (take_of_part (by decide) hpart hrest heq)⟩

theorem isSpace_of_mem_takeWord {text : List Char} : ∀ d ∈ (takeWord text).1, isSpace d = false := by
  induction text with
  | nil => exact fun d hd => absurd hd List.not_mem_nil
  | cons c text ih =>
    intro d hd
    unfold takeWord at hd
    split at hd
    · exact absurd hd List.not_mem_nil
    · next hends =>
        rcases List.mem_cons.mp hd with rfl | hd
        · by_contra hspace
          rw [Bool.not_eq_false] at hspace
          exact hends (by simp [endsWord, hspace])
        · exact ih d hd

theorem trim_eq_self {text : List Char} (h : ∀ c ∈ text, isSpace c = false) : trim text = text := by
  have hblank : ∀ c ∈ text,
      ¬ (decide (c = ' ') || decide (c = '\t') || decide (c = '\r') || decide (c = '\n')) = true := by
    intro c hc hblank
    have hspace := h c hc
    simp only [Bool.or_eq_true, decide_eq_true_eq] at hblank
    rcases hblank with ((rfl | rfl) | rfl) | rfl <;> cases hspace
  unfold trim
  have hfront : text.dropWhile (fun c => decide (c = ' ') || decide (c = '\t') || decide (c = '\r') ||
      decide (c = '\n')) = text := by
    cases text with
    | nil => rfl
    | cons c text => exact List.dropWhile_cons_of_neg (hblank c List.mem_cons_self)
  dsimp only
  rw [hfront, List.rdropWhile_eq_self_iff]
  exact fun hne => hblank _ (List.getLast_mem hne)

theorem value_of_wordToken {word : String} {t : Token} (h : wordToken word = some t) (ht : t.type = .atom) :
    t.value = word := by
  have hne : ∀ {type : TokenType} {value : String}, type ≠ .atom → some (⟨type, value⟩ : Token) ≠ some t := by
    rintro type value htype heq
    obtain rfl := Option.some.inj heq
    exact htype ht
  unfold wordToken at h
  obtain ⟨-, h⟩ := ite_ne h (hne nofun)
  obtain ⟨-, h⟩ := ite_ne h (hne nofun)
  obtain ⟨-, h⟩ := ite_ne h (hne nofun)
  obtain ⟨-, h⟩ := ite_ne h (hne nofun)
  obtain ⟨-, h⟩ := ite_ne h (hne nofun)
  obtain ⟨-, h⟩ := ite_ne h (hne nofun)
  obtain ⟨-, h⟩ := ite_ne h (hne nofun)
  obtain ⟨-, h⟩ := ite_ne h (hne nofun)
  obtain ⟨-, h⟩ := ite_ne h (hne nofun)
  obtain ⟨-, h⟩ := ite_ne h (hne nofun)
  obtain ⟨-, h⟩ := ite_ne h (hne nofun)
  by_cases hword : word = ""
  · rw [if_neg (not_not_intro hword)] at h
    cases h
  · rw [if_pos hword] at h
    obtain rfl := Option.some.inj h
    rfl

theorem isWord_of_nextToken {rest rest' : List Char} {t : Token} (h : nextToken c rest = (some t, rest'))
    (ht : t.type = .atom) : IsWord t := by
  have hbegins := begins_of_nextToken h ht
  have hspace : ∀ d ∈ c :: (takeWord rest).1, isSpace d = false := by
    intro d hd
    rcases List.mem_cons.mp hd with rfl | hd
    · exact hbegins.space
    · exact isSpace_of_mem_takeWord d hd
  rw [nextToken_of_begins hbegins, trim_eq_self hspace] at h
  have hword := (Prod.mk.inj h).1
  have hvalue := value_of_wordToken hword ht
  refine ⟨ht, c, (takeWord rest).1, ?_, ?_, fun rest'' hclose => ?_⟩
  · rw [hvalue, String.toList_ofList]
  · rintro rfl
    exact hbegins.plain (by simp)
  · rw [nextToken_of_begins (hbegins.close hclose), takeWord_word rest hclose, trim_eq_self hspace, hword]

/-! ## Texts in parts -/

theorem tokenize_cons (c : Char) (rest : List Char) :
    tokenize (c :: rest) = (nextToken c rest).1.toList ++ tokenize (nextToken c rest).2 := by
  have hle := length_nextToken c rest
  show (nextToken c rest).1.toList ++ tokenizeFrom rest.length (nextToken c rest).2 = _
  rw [tokenizeFrom_eq hle (Nat.le_refl _)]
  rfl

theorem isWord_of_mem_tokenize {text : List Char} {t : Token} (h : t ∈ tokenize text) (ht : t.type = .atom) :
    IsWord t := by
  have hfrom : ∀ (n : ℕ) (text : List Char), t ∈ tokenizeFrom n text → IsWord t := by
    intro n
    induction n with
    | zero => exact fun text h => absurd h List.not_mem_nil
    | succ n ih =>
      intro text h
      cases text with
      | nil => exact absurd h List.not_mem_nil
      | cons c rest =>
        rcases List.mem_append.mp h with h | h
        · have hnext : nextToken c rest = (some t, (nextToken c rest).2) := by
            rw [← Option.mem_toList.mp h]
          exact isWord_of_nextToken hnext ht
        · exact ih _ h
  exact hfrom _ _ h

theorem tokenize_of_isSpace (hc : isSpace c = true) (rest : List Char) : tokenize (c :: rest) = tokenize rest := by
  rw [tokenize_cons, nextToken, if_pos hc]
  rfl

theorem isDelim_of_isSpace {b : Char} (hb : isSpace b = true) : isDelim b = true := by simp [isDelim, hb]

theorem takeWord_concat {b : Char} (hb : isSpace b = true) :
    takeWord (text ++ [b]) = ((takeWord text).1, (takeWord text).2 ++ [b]) := by
  induction text with
  | nil =>
    have hends : endsWord b [] = true := by simp [endsWord, hb]
    show takeWord [b] = ([], [b])
    rw [takeWord, if_pos hends]
  | cons c text ih =>
    have hangle : b ≠ '>' := by
      rintro rfl
      cases hb
    have hends : endsWord c (text ++ [b]) = endsWord c text := by
      unfold endsWord
      match text with
      | [] => simp [hangle]
      | [d] => simp [hangle]
      | d :: e :: text => rfl
    rw [List.cons_append, takeWord, hends, ih, takeWord]
    split
    · rfl
    · rfl

theorem nextToken_concat (c : Char) (rest : List Char) {b : Char} (hb : isSpace b = true) :
    nextToken c (rest ++ [b]) = ((nextToken c rest).1, (nextToken c rest).2 ++ [b]) := by
  have hne : ∀ {x : Char}, isSpace x = false → b ≠ x := by
    rintro x hx rfl
    rw [hb] at hx
    cases hx
  have hhead : ∀ {x : Char}, isSpace x = false → ((rest ++ [b]).head? = some x) = (rest.head? = some x) := by
    intro x hx
    cases rest with
    | nil => simp [hne hx]
    | cons d rest => rfl
  have htake : ∀ {x : Char}, ((rest ++ [b]).take 2 = [x, '>']) = (rest.take 2 = [x, '>']) := by
    intro x
    have hangle : b ≠ '>' := hne rfl
    match rest with
    | [] => simp
    | [d] => simp [hangle]
    | d :: e :: rest => rfl
  have halone : standsAlone (rest ++ [b]) = standsAlone rest := by
    cases rest with
    | nil => exact isDelim_of_isSpace hb
    | cons d rest => rfl
  have hdrop : ∀ n, n ≤ rest.length → (rest ++ [b]).drop n = rest.drop n ++ [b] := fun n hn =>
    List.drop_append_of_le_length hn
  have hone : ∀ {x : Char}, rest.head? = some x → 1 ≤ rest.length := by
    intro x hx
    cases rest with
    | nil => cases hx
    | cons d rest => exact Nat.succ_le_succ (Nat.zero_le _)
  have htwo : ∀ {x y : Char}, rest.take 2 = [x, y] → 2 ≤ rest.length := by
    intro x y hxy
    have hlength := congrArg List.length hxy
    rw [List.length_take] at hlength
    simp only [List.length_cons, List.length_nil] at hlength
    omega
  let extend (r : Option Token × List Char) : Option Token × List Char := (r.1, r.2 ++ [b])
  show _ = extend (nextToken c rest)
  unfold nextToken
  simp only [hhead (show isSpace ']' = false from rfl), hhead (show isSpace '>' = false from rfl),
    hhead (show isSpace '&' = false from rfl), hhead (show isSpace '|' = false from rfl), htake, halone,
    takeWord_concat rest hb, apply_ite extend]
  refine ite_congr rfl (fun _ => rfl) fun _ => ?_
  refine ite_congr rfl (fun h => ?_) fun _ => ?_
  · simp only [Bool.and_eq_true, decide_eq_true_eq] at h
    rw [hdrop 1 (hone h.2)]
  refine ite_congr rfl (fun _ => rfl) fun _ => ?_
  refine ite_congr rfl (fun _ => rfl) fun _ => ?_
  refine ite_congr rfl (fun _ => rfl) fun _ => ?_
  refine ite_congr rfl (fun h => ?_) fun _ => ?_
  · simp only [Bool.and_eq_true, decide_eq_true_eq] at h
    rw [hdrop 1 (hone h.2)]
  refine ite_congr rfl (fun _ => rfl) fun _ => ?_
  refine ite_congr rfl (fun _ => rfl) fun _ => ?_
  refine ite_congr rfl (fun _ => rfl) fun _ => ?_
  refine ite_congr rfl (fun _ => rfl) fun _ => ?_
  refine ite_congr rfl (fun h => ?_) fun _ => ?_
  · simp only [Bool.and_eq_true, Bool.or_eq_true, decide_eq_true_eq] at h
    rw [hdrop 2 (h.2.elim htwo htwo)]
  refine ite_congr rfl (fun h => ?_) fun _ => ?_
  · simp only [Bool.and_eq_true, decide_eq_true_eq] at h
    rw [hdrop 1 (hone h.2)]
  refine ite_congr rfl (fun _ => ite_congr rfl (fun h => by rw [hdrop 1 (hone h)]) fun _ => rfl) fun _ => ?_
  refine ite_congr rfl (fun _ => ite_congr rfl (fun h => by rw [hdrop 1 (hone h)]) fun _ => rfl) fun _ => ?_
  refine ite_congr rfl (fun _ => rfl) fun _ => ?_
  refine ite_congr rfl (fun _ => rfl) fun _ => ?_
  exact ite_congr rfl (fun _ => rfl) fun _ => rfl

theorem tokenize_concat {b : Char} (hb : isSpace b = true) :
    tokenize (text ++ [b]) = tokenize text := by
  generalize hn : text.length = n
  induction n using Nat.strong_induction_on generalizing text with
  | h n ih =>
    cases text with
    | nil =>
      rw [List.nil_append, tokenize_of_isSpace hb]
    | cons c rest =>
      have hle := length_nextToken c rest
      rw [List.cons_append, tokenize_cons, tokenize_cons, nextToken_concat c rest hb,
        ih _ (by rw [List.length_cons] at hn; omega) _ rfl]

theorem tokenize_trim : tokenize (trim text) = tokenize text := by
  let blank (c : Char) : Bool := c = ' ' || c = '\t' || c = '\r' || c = '\n'
  have hspace : ∀ {c : Char}, blank c = true → isSpace c = true := by
    intro c hc
    simp only [blank, Bool.or_eq_true, decide_eq_true_eq] at hc
    rcases hc with ((rfl | rfl) | rfl) | rfl <;> rfl
  have hfront : ∀ text : List Char, tokenize (text.dropWhile blank) = tokenize text := by
    intro text
    induction text with
    | nil => rfl
    | cons c text ih =>
      cases hc : blank c with
      | true => rw [List.dropWhile_cons_of_pos hc, ih, tokenize_of_isSpace (hspace hc)]
      | false => rw [List.dropWhile_cons_of_neg (by simp [hc])]
  have hback : ∀ text : List Char, tokenize (text.rdropWhile blank) = tokenize text := by
    intro text
    induction text using List.reverseRecOn with
    | nil => rfl
    | append_singleton text c ih =>
      cases hc : blank c with
      | true => rw [List.rdropWhile_concat_pos _ _ _ hc, ih, tokenize_concat text (hspace hc)]
      | false => rw [List.rdropWhile_concat_neg _ _ _ (by simp [hc])]
  exact (hback _).trans (hfront text)

/-! ## Printed formulas -/

/-- The token of a prefix operator. -/
def prefixToken : TemporalOp → Option Token
  | .globally => some ⟨.globally, "G"⟩
  | .finally => some ⟨.finally, "F"⟩
  | .next => some ⟨.next, "X"⟩
  | .not => some ⟨.not, "!"⟩
  | .ex => some ⟨.ex, "EX"⟩
  | .ax => some ⟨.ax, "AX"⟩
  | .ef => some ⟨.ef, "EF"⟩
  | .af => some ⟨.af, "AF"⟩
  | .eg => some ⟨.eg, "EG"⟩
  | .ag => some ⟨.ag, "AG"⟩
  | _ => none

/-- The token of a binary operator. -/
def infixToken : TemporalOp → Option Token
  | .until => some ⟨.until, "U"⟩
  | .release => some ⟨.release, "R"⟩
  | .implies => some ⟨.implies, "->"⟩
  | .equivalent => some ⟨.equivalent, "<->"⟩
  | .and => some ⟨.and, "&&"⟩
  | .or => some ⟨.or, "||"⟩
  | _ => none

/-- The token of a path quantifier. -/
def pathToken : TemporalOp → Option Token
  | .eu => some ⟨.atom, "E"⟩
  | .au => some ⟨.atom, "A"⟩
  | _ => none

/-- The tokens of an operand of a binary operator. -/
def enclosed (a : PropertyAstNode) (tokens : List Token) : List Token :=
  if a.op ≠ .atom ∧ 1 < a.children.length then ⟨.lParen, "("⟩ :: tokens ++ [⟨.rParen, ")"⟩] else tokens

/-- The texts of atoms: no text, or words. -/
inductive AtomText : String → List Token → Prop
  | missing : AtomText "" []
  | words {t : Token} {more : List Token} : (∀ u ∈ t :: more, IsWord u) → AtomText (joinAtoms t more) (t :: more)

/-- The formulas that the parser makes, with the tokens that the printer writes for them. -/
inductive Printed : PropertyAstNode → List Token → Prop
  | atom {s : String} {tokens : List Token} : AtomText s tokens → Printed (.ofAtom s) tokens
  | notAtom {s : String} {tokens : List Token} :
      AtomText s tokens → Printed (.unary .not (.ofAtom s)) (⟨.not, "!"⟩ :: tokens)
  | prefixed {op : TemporalOp} {t : Token} {a : PropertyAstNode} {tokens : List Token} :
      prefixToken op = some t → (op = .not → a.op ≠ .atom) → Printed a tokens →
        Printed (.unary op a) (t :: ⟨.lParen, "("⟩ :: tokens ++ [⟨.rParen, ")"⟩])
  | infixed {op : TemporalOp} {t : Token} {a b : PropertyAstNode} {l r : List Token} :
      infixToken op = some t → Printed a l → Printed b r →
        Printed (.binary op a b) (enclosed a l ++ t :: enclosed b r)
  | path {op : TemporalOp} {t : Token} {a b : PropertyAstNode} {l r : List Token} :
      pathToken op = some t → Printed a l → Printed b r →
        Printed (.binary op a b) (t :: ⟨.lBracket, "["⟩ :: (l ++ ⟨.until, "U"⟩ :: r) ++ [⟨.rBracket, "]"⟩])
  -- the operand is not printed, and the brackets without it are an operator
  | broken {op : TemporalOp} {t : Token} {a : PropertyAstNode} {tokens : List Token} :
      pathToken op = some t → Printed a tokens → Printed (.ofOp op [a]) [t, ⟨.globally, "G"⟩]

/-! ## The tokens of a printed formula -/

section Texts

variable {op : TemporalOp} {t : Token} {a b : PropertyAstNode}

/-- What is written before the bracket of an operand. -/
def prefixText : TemporalOp → List Char
  | .globally => ['G', ' ']
  | .finally => ['F', ' ']
  | .next => ['X', ' ']
  | .ex => ['E', 'X', ' ']
  | .ax => ['A', 'X', ' ']
  | .ef => ['E', 'F', ' ']
  | .af => ['A', 'F', ' ']
  | .eg => ['E', 'G', ' ']
  | .ag => ['A', 'G', ' ']
  | _ => ['!']

/-- What is written between two operands. -/
def infixText : TemporalOp → List Char
  | .until => ['U']
  | .release => ['R']
  | .implies => ['-', '>']
  | .equivalent => ['<', '-', '>']
  | .and => ['&', '&']
  | _ => ['|', '|']

/-- What is written before the brackets of a path formula. -/
def pathText : TemporalOp → List Char
  | .eu => ['E']
  | _ => ['A']

/-- The text of an operand of a binary operator. -/
def enclosedText (a : PropertyAstNode) : List Char :=
  if a.op ≠ .atom ∧ 1 < a.children.length then '(' :: (a.toString.toList ++ [')']) else a.toString.toList

theorem toList_prefixed (h : prefixToken op = some t) (hnot : op = .not → a.op ≠ .atom) :
    (PropertyAstNode.unary op a).toString.toList = prefixText op ++ '(' :: (a.toString.toList ++ [')']) := by
  have hunary : ∀ opStr : String, (opStr ++ "(" ++ a.toString ++ ")").toList =
      opStr.toList ++ '(' :: (a.toString.toList ++ [')']) := by simp
  cases op with
  | not =>
    show ("!" ++ if a.op ≠ .atom then "(" ++ a.toString ++ ")" else a.toString).toList = _
    rw [if_pos (hnot rfl)]
    simp [prefixText]
  | globally | «finally» | next | ex | ax | ef | af | eg | ag => exact hunary _
  | _ => cases h

theorem toList_notAtom (s : String) : (PropertyAstNode.unary .not (.ofAtom s)).toString.toList = '!' :: s.toList :=
  String.toList_append

theorem toList_infixed (h : infixToken op = some t) : (PropertyAstNode.binary op a b).toString.toList =
    enclosedText a ++ ' ' :: (infixText op ++ ' ' :: enclosedText b) := by
  have henclosed : ∀ c : PropertyAstNode, (PropertyAstNode.joinChildren.parens c c.toString).toList =
      enclosedText c := by
    intro c
    unfold PropertyAstNode.joinChildren.parens enclosedText
    split <;> simp
  have hbinary : ∀ opStr : String, (PropertyAstNode.joinChildren.parens a a.toString ++ opStr ++
      PropertyAstNode.joinChildren.parens b b.toString).toList =
        enclosedText a ++ (opStr.toList ++ enclosedText b) := by
    intro opStr
    rw [String.toList_append, String.toList_append, henclosed, henclosed, List.append_assoc]
  cases op with
  | «until» | release | implies | equivalent | and | or => exact hbinary _
  | _ => cases h

theorem toList_path (h : pathToken op = some t) : (PropertyAstNode.binary op a b).toString.toList =
    pathText op ++ ' ' :: '[' :: (a.toString.toList ++ ' ' :: 'U' :: ' ' :: (b.toString.toList ++ [']'])) := by
  have hpath : ∀ opening : String, (opening ++ a.toString ++ " U " ++ b.toString ++ "]").toList =
      opening.toList ++ (a.toString.toList ++ ' ' :: 'U' :: ' ' :: (b.toString.toList ++ [']'])) := by simp
  cases op with
  | eu | au => exact hpath _
  | _ => cases h

theorem toList_broken (h : pathToken op = some t) :
    (PropertyAstNode.ofOp op [a]).toString.toList = pathText op ++ [' ', '[', ']'] := by
  cases op with
  | eu =>
    show ("E [" ++ "" ++ "]").toList = _
    rfl
  | au =>
    show ("A [" ++ "" ++ "]").toList = _
    rfl
  | _ => cases h

theorem tokenize_prefixText (h : prefixToken op = some t) (rest : List Char) :
    tokenize (prefixText op ++ '(' :: rest) = t :: ⟨.lParen, "("⟩ :: tokenize rest := by
  have hparen : tokenize ('(' :: rest) = ⟨.lParen, "("⟩ :: tokenize rest := by
    rw [tokenize_cons]
    rfl
  have hspaced : tokenize (' ' :: '(' :: rest) = ⟨.lParen, "("⟩ :: tokenize rest := by
    rw [tokenize_of_isSpace rfl, hparen]
  cases op with
  | not =>
    obtain rfl := Option.some.inj h
    show tokenize ('!' :: '(' :: rest) = _
    rw [tokenize_cons]
    show [_] ++ tokenize ('(' :: rest) = _
    rw [hparen]
    rfl
  | globally | «finally» | next | ex | ax | ef | af | eg | ag =>
    obtain rfl := Option.some.inj h
    rw [← hspaced]
    exact tokenize_cons _ _
  | _ => cases h

theorem tokenize_infixText (h : infixToken op = some t) (rest : List Char) :
    tokenize (' ' :: (infixText op ++ ' ' :: rest)) = t :: tokenize rest := by
  rw [tokenize_of_isSpace rfl]
  have hspaced : tokenize (' ' :: rest) = tokenize rest := tokenize_of_isSpace rfl rest
  cases op with
  | «until» | release | implies | equivalent | and | or =>
    obtain rfl := Option.some.inj h
    rw [← hspaced]
    exact tokenize_cons _ _
  | _ => cases h

theorem tokenize_pathText (h : pathToken op = some t) (rest : List Char) :
    tokenize (pathText op ++ ' ' :: '[' :: rest) = t :: tokenize ('[' :: rest) := by
  have hspaced : tokenize (' ' :: '[' :: rest) = tokenize ('[' :: rest) := tokenize_of_isSpace rfl _
  cases op with
  | eu | au =>
    obtain rfl := Option.some.inj h
    rw [← hspaced]
    exact tokenize_cons _ _
  | _ => cases h

end Texts

theorem Closes.cons (h : c = ' ' ∨ c = ')' ∨ c = ']') : Closes (c :: rest) := by
  intro d hd
  obtain rfl := Option.some.inj hd
  exact h

theorem tokenize_word {t : Token} (h : IsWord t) (hrest : Closes rest) :
    tokenize (t.value.toList ++ rest) = t :: tokenize rest := by
  obtain ⟨c, word, htext, -, hnext⟩ := h.text
  rw [htext, List.cons_append, tokenize_cons, hnext rest hrest]
  rfl

theorem toList_joinAtoms (t : Token) (more : List Token) :
    (joinAtoms t more).toList = t.value.toList ++ more.flatMap fun u => ' ' :: u.value.toList := by
  have hfold : ∀ (more : List Token) (first : String),
      (more.foldl (fun text u => text ++ " " ++ u.value) first).toList =
        first.toList ++ more.flatMap fun u => ' ' :: u.value.toList := by
    intro more
    induction more with
    | nil => simp
    | cons u more ih =>
      intro first
      rw [List.foldl_cons, ih]
      simp
  exact hfold more t.value

theorem AtomText.tokenize {s : String} (h : AtomText s tokens)
    (hrest : Closes rest) : LtlParser.tokenize (s.toList ++ rest) = tokens ++ LtlParser.tokenize rest := by
  cases h with
  | missing => rfl
  | @words t more hwords =>
    have hmore : ∀ more : List Token, (∀ u ∈ more, IsWord u) →
        Closes (more.flatMap (fun t => ' ' :: t.value.toList) ++ rest) ∧
        LtlParser.tokenize (more.flatMap (fun t => ' ' :: t.value.toList) ++ rest) =
          more ++ LtlParser.tokenize rest := by
      intro more
      induction more with
      | nil => exact fun _ => ⟨hrest, rfl⟩
      | cons u more ih =>
        intro hall
        obtain ⟨hclose, heq⟩ := ih fun v hv => hall v (List.mem_cons_of_mem _ hv)
        refine ⟨Closes.cons (Or.inl rfl), ?_⟩
        rw [List.flatMap_cons, List.append_assoc, List.cons_append, tokenize_of_isSpace rfl,
          tokenize_word (hall u List.mem_cons_self) hclose, heq]
        rfl
    obtain ⟨hclose, heq⟩ := hmore more fun u hu => hwords u (List.mem_cons_of_mem _ hu)
    rw [toList_joinAtoms, List.append_assoc, tokenize_word (hwords t List.mem_cons_self) hclose, heq]
    rfl

theorem AtomText.head {s : String} (h : AtomText s tokens) : ∀ c ∈ s.toList.head?, c ≠ ']' := by
  cases h with
  | missing => exact fun c hc => nomatch hc
  | words hwords =>
    obtain ⟨c, word, htext, hc, -⟩ := (hwords _ List.mem_cons_self).text
    intro d hd
    rw [toList_joinAtoms, htext] at hd
    obtain rfl := Option.some.inj hd
    exact hc

theorem Printed.head (h : Printed n tokens) : ∀ c ∈ n.toString.toList.head?, c ≠ ']' := by
  have hpath : ∀ {op : TemporalOp} {rest : List Char}, ∀ c ∈ (pathText op ++ ' ' :: rest).head?, c ≠ ']' := by
    intro op rest c hc
    cases op <;> obtain rfl := Option.some.inj hc <;> decide
  induction h with
  | atom h => exact h.head
  | notAtom h =>
    intro c hc
    rw [toList_notAtom] at hc
    obtain rfl := Option.some.inj hc
    decide
  | @prefixed op t a tokens hop hnot _ ih =>
    rw [toList_prefixed hop hnot]
    intro c hc
    cases op <;> obtain rfl := Option.some.inj hc <;> decide
  | @infixed op t a b l r hop _ _ ih _ =>
    rw [toList_infixed hop]
    unfold enclosedText
    intro c hc
    split at hc
    · obtain rfl := Option.some.inj hc
      decide
    · cases htext : a.toString.toList with
      | nil =>
        rw [htext] at hc
        obtain rfl := Option.some.inj hc
        decide
      | cons d text =>
        rw [htext] at hc ih
        exact ih c hc
  | path hop =>
    rw [toList_path hop]
    exact hpath
  | broken hop =>
    rw [toList_broken hop]
    exact hpath

theorem Printed.tokenize (h : Printed n tokens) : ∀ {rest : List Char}, Closes rest →
      LtlParser.tokenize (n.toString.toList ++ rest) = tokens ++ LtlParser.tokenize rest := by
  have hclosed : ∀ rest : List Char, LtlParser.tokenize (')' :: rest) = ⟨.rParen, ")"⟩ :: LtlParser.tokenize rest :=
    fun rest => tokenize_cons _ _
  have hbracket : ∀ rest : List Char, LtlParser.tokenize (']' :: rest) = ⟨.rBracket, "]"⟩ :: LtlParser.tokenize rest :=
    fun rest => tokenize_cons _ _
  have henclosed : ∀ {a : PropertyAstNode} {l : List Token}, (∀ {rest : List Char}, Closes rest →
      LtlParser.tokenize (a.toString.toList ++ rest) = l ++ LtlParser.tokenize rest) → ∀ {rest : List Char},
        Closes rest → LtlParser.tokenize (enclosedText a ++ rest) = enclosed a l ++ LtlParser.tokenize rest := by
    intro a l ih rest hrest
    unfold enclosedText enclosed
    split
    · rw [List.cons_append, List.append_assoc, tokenize_cons]
      show [_] ++ LtlParser.tokenize (a.toString.toList ++ ')' :: rest) = _
      rw [ih (Closes.cons (Or.inr (Or.inl rfl))), hclosed]
      simp
    · exact ih hrest
  induction h with
  | atom h => exact h.tokenize
  | notAtom h =>
    intro rest hrest
    rw [toList_notAtom, List.cons_append, tokenize_cons]
    exact congrArg (_ :: ·) (h.tokenize hrest)
  | @prefixed op t a tokens hop hnot _ ih =>
    intro rest _
    rw [toList_prefixed hop hnot, List.append_assoc, List.cons_append, tokenize_prefixText hop, List.append_assoc,
      List.singleton_append, ih (Closes.cons (Or.inr (Or.inl rfl))), hclosed]
    simp
  | @infixed op t a b l r hop _ _ iha ihb =>
    intro rest hrest
    have hblank : Closes (' ' :: (infixText op ++ ' ' :: (enclosedText b ++ rest))) := Closes.cons (Or.inl rfl)
    rw [toList_infixed hop, List.append_assoc, List.cons_append, List.append_assoc, List.cons_append,
      henclosed iha hblank, tokenize_infixText hop, henclosed ihb hrest, List.append_assoc, List.cons_append]
  | @path op t a b l r hop ha _ iha ihb =>
    intro rest _
    have hblank : ∀ s : List Char, Closes (' ' :: s) := fun s => Closes.cons (Or.inl rfl)
    have hend : ∀ s : List Char, Closes (']' :: s) := fun s => Closes.cons (Or.inr (Or.inr rfl))
    have huntil : ∀ s : List Char, LtlParser.tokenize (' ' :: 'U' :: ' ' :: s) =
        ⟨.until, "U"⟩ :: LtlParser.tokenize s := tokenize_infixText (show infixToken .until = some _ from rfl)
    have hopen : ∀ s : List Char, s.head? ≠ some ']' →
        LtlParser.tokenize ('[' :: s) = ⟨.lBracket, "["⟩ :: LtlParser.tokenize s := by
      intro s hs
      rw [tokenize_cons, nextToken, if_neg (by decide), if_neg (by simp [hs]), if_pos rfl]
      rfl
    have hfront : ∀ s : List Char, (a.toString.toList ++ ' ' :: s).head? ≠ some ']' := by
      intro s hs
      cases htext : a.toString.toList with
      | nil =>
        rw [htext] at hs
        cases hs
      | cons c text =>
        rw [htext] at hs
        exact ha.head ']' (by rw [htext]; exact hs) rfl
    rw [toList_path hop]
    simp only [List.append_assoc, List.cons_append, List.nil_append]
    rw [tokenize_pathText hop, hopen _ (hfront _), iha (hblank _), huntil, ihb (hend _), hbracket]
  | @broken op t a tokens hop =>
    intro rest _
    rw [toList_broken hop, List.append_assoc]
    show LtlParser.tokenize (pathText op ++ ' ' :: '[' :: ']' :: rest) = _
    rw [tokenize_pathText hop, tokenize_cons]
    rfl

end Fsmc.Frontend.LtlParser
