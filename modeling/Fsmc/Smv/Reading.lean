/-
# Fsmc.Smv.Reading — what the reader takes from a text.

A statement of the next state is read in three steps: it is cut at its last colon, its condition at `&` outside
parentheses, and each clause is freed of the parentheses around it. Each step is undone here for the texts that
the exporter writes.
-/
import Fsmc.Cpp.Search
import Fsmc.Smv.Parser

namespace Fsmc.Smv.Parser

open Fsmc.Ir Fsmc.Cpp Fsmc.Frontend.GuardNames
open Fsmc.Frontend.LtlParser (trim)

/-! ## Blanks -/

def isBlank (c : Char) : Bool := c = ' ' || c = '\t' || c = '\r' || c = '\n'

/-- A text with no blank at its ends. -/
def Tight (text : List Char) : Prop :=
  (∀ c ∈ text.head?, isBlank c = false) ∧ ∀ c ∈ text.getLast?, isBlank c = false

variable {text : List Char} {c : Char} {name : String}

theorem trim_padded (before after : List Char) (hb : ∀ c ∈ before, isBlank c = true)
    (ha : ∀ c ∈ after, isBlank c = true) (h : Tight text) : trim (before ++ text ++ after) = text :=
  Fsmc.Cpp.trim_padded hb ha h.1 h.2

theorem trim_tight (h : Tight text) : trim text = text := by
  have hpadded := trim_padded [] [] (by simp) (by simp) h
  rwa [List.nil_append, List.append_nil] at hpadded

theorem trim_blank (h : ∀ c ∈ text, isBlank c = true) : trim text = [] := by
  have hempty : Tight [] := ⟨by simp, by simp⟩
  have hpadded := trim_padded text [] h (by simp) hempty
  rwa [List.append_nil, List.append_nil] at hpadded

theorem length_trim_le (text : List Char) : (trim text).length ≤ text.length :=
  ((List.rdropWhile_prefix _ _).length_le).trans (List.dropWhile_suffix _).length_le

theorem Tight.append {a b : List Char} (ha : Tight a) (hb : Tight b) (hane : a ≠ []) (hbne : b ≠ [])
    (middle : List Char) : Tight (a ++ middle ++ b) := by
  constructor
  · rw [List.append_assoc, List.head?_append_of_ne_nil a hane]
    exact ha.1
  · rw [List.getLast?_append_of_ne_nil _ hbne]
    exact hb.2

theorem tight_of_word {word : List Char} (h : ∀ c ∈ word, isIdentChar c = true) : Tight word := by
  have hno : ∀ c, isIdentChar c = true → isBlank c = false := by
    intro c hc
    rw [Bool.eq_false_iff]
    intro hblank
    unfold isBlank at hblank
    simp only [Bool.or_eq_true, decide_eq_true_eq] at hblank
    rcases hblank with ((rfl | rfl) | rfl) | rfl <;> exact absurd hc (by decide)
  exact ⟨fun c hc => hno c (h c (List.mem_of_mem_head? hc)), fun c hc => hno c (h c (List.mem_of_mem_getLast? hc))⟩

/-! ## Searching -/

theorem contains_iff {p : String} : contains text p = true ↔ p.toList <:+: text :=
  findSub_isSome_iff

theorem contains_eq_false {p : String} (hc : c ∈ p.toList) (h : c ∉ text) : contains text p = false := by
  unfold contains
  rw [findSub_eq_none_of_notMem hc h]
  rfl

theorem starts_iff {p : String} : starts text p = true ↔ p.toList <+: text := by
  unfold starts
  exact List.isPrefixOf_iff_prefix

theorem starts_eq_false {p : String} (hp : p.toList.head? = some c)
    (h : text.head? ≠ some c) : starts text p = false := by
  rw [Bool.eq_false_iff, Ne, starts_iff]
  rintro ⟨rest, rfl⟩
  cases hlist : p.toList with
  | nil => simp [hlist] at hp
  | cons d p' =>
    rw [hlist] at hp h
    exact h hp

/-- A separator that occurs once: what stands before it in a pattern stands right before it in the text. -/
theorem suffix_of_infix {p q a b : List Char} (hp : c ∉ p) (ha : c ∉ a) (hb : c ∉ b)
    (h : p ++ c :: q <:+: a ++ c :: b) : p <:+ a := by
  obtain ⟨s, t, h⟩ := h
  have hs : c ∉ s := by
    intro hmem
    have hcount := congrArg (List.count c) h
    simp only [List.count_append, List.count_cons_self, List.count_eq_zero_of_not_mem ha,
      List.count_eq_zero_of_not_mem hb] at hcount
    have hpos := List.count_pos_iff.mpr hmem
    omega
  have htake := congrArg (List.takeWhile (· ≠ c)) h
  have hleft : (s ++ (p ++ c :: q) ++ t).takeWhile (· ≠ c) = s ++ p := by
    rw [← List.append_assoc, List.append_assoc, List.takeWhile_append_of_pos]
    · simp
    · intro d hd
      have hne : d ≠ c := fun heq => (List.mem_append.mp hd).elim (fun h => hs (heq ▸ h)) fun h => hp (heq ▸ h)
      simpa using hne
  have hright : (a ++ c :: b).takeWhile (· ≠ c) = a := by
    rw [List.takeWhile_append_of_pos]
    · simp
    · intro d hd
      have hne : d ≠ c := fun heq => ha (heq ▸ hd)
      simpa using hne
  rw [hleft, hright] at htake
  exact ⟨s, htake⟩

theorem suffix_of_suffix_append {p a b : List Char} (hc : c ∉ p) (h : p <:+ a ++ c :: b) : p <:+ b := by
  rw [← List.reverse_prefix] at h ⊢
  have happend : (a ++ c :: b).reverse = b.reverse ++ c :: a.reverse := by simp
  rw [happend] at h
  exact prefix_of_prefix_append h (by simpa using hc)

/-! ## Parentheses -/

/-- Whether parentheses are closed in order, and all of them, when some are open. -/
def balanced : ℕ → List Char → Bool
  | depth, [] => depth = 0
  | depth, c :: text =>
    if c = '(' then balanced (depth + 1) text
    else if c = ')' then depth ≠ 0 && balanced (depth - 1) text
    else balanced depth text

theorem splitClauses_balanced (rest : List Char) (n : ℕ) : ∀ {depth : ℕ} (cur : List Char),
    balanced depth text = true →
      splitClauses (depth + n + 1) (text ++ rest) cur = splitClauses (n + 1) rest (cur ++ text) := by
  induction text with
  | nil =>
    intro depth cur h
    have hdepth : depth = 0 := by simpa [balanced] using h
    rw [hdepth, List.nil_append, List.append_nil, Nat.zero_add]
  | cons c text ih =>
    intro depth cur h
    have hcur : cur ++ c :: text = cur ++ [c] ++ text := by simp
    rw [List.cons_append, splitClauses, hcur]
    unfold balanced at h
    split at h
    case isTrue hopen =>
      rw [if_pos hopen, ← ih _ h]
      congr 1
      omega
    case isFalse hopen =>
      rw [if_neg hopen]
      split at h
      case isTrue hclose =>
        simp only [Bool.and_eq_true, ne_eq, decide_not, Bool.not_eq_true', decide_eq_false_iff_not] at h
        rw [if_pos hclose, ← ih _ h.2]
        congr 1
        omega
      case isFalse hclose =>
        rw [if_neg hclose, if_neg (by omega), ih _ h]

/-- A text at which a condition is not split. -/
def Solid (text : List Char) : Prop :=
  ∀ rest cur, splitClauses 0 (text ++ rest) cur = splitClauses 0 rest (cur ++ text)

theorem solid_wrapped (h : balanced 0 text = true) : Solid ('(' :: (text ++ [')'])) := by
  intro rest cur
  have hinner := splitClauses_balanced (')' :: rest) 0 (cur ++ ['(']) h
  rw [List.cons_append, List.append_assoc, splitClauses, if_pos rfl]
  rw [show (0 : ℕ) + 1 = 0 + 0 + 1 from rfl, List.singleton_append, hinner, splitClauses]
  simp

theorem solid_plain (h : ∀ c ∈ text, c ≠ '(' ∧ c ≠ ')' ∧ c ≠ '&') : Solid text := by
  intro rest cur
  induction text generalizing cur with
  | nil => rw [List.nil_append, List.append_nil]
  | cons c text ih =>
    have hc := h c List.mem_cons_self
    rw [List.cons_append, splitClauses, if_neg hc.1, if_neg hc.2.1, if_neg (by simp [hc.2.2]),
      ih fun d hd => h d (List.mem_cons_of_mem _ hd), List.append_assoc]
    rfl

theorem splitClauses_pieces {p : List Char} {ps : List (List Char)} (hsolid : ∀ q ∈ p :: ps, Solid q)
    (htight : ∀ q ∈ p :: ps, Tight q) (cur : List Char) (hcur : ∀ c ∈ cur, isBlank c = true) :
    (splitClauses 0 (p ++ ps.flatMap ([' ', '&', ' '] ++ ·)) cur).map trim = p :: ps := by
  induction ps generalizing p cur with
  | nil =>
    rw [List.flatMap_nil, hsolid p List.mem_cons_self, splitClauses, List.map_singleton]
    have htrim := trim_padded cur [] hcur (by simp) (htight p List.mem_cons_self)
    rw [List.append_nil] at htrim
    rw [htrim]
  | cons q ps ih =>
    have hrest := ih (fun r hr => hsolid r (List.mem_cons_of_mem _ hr))
      (fun r hr => htight r (List.mem_cons_of_mem _ hr)) [' '] (by simp [isBlank])
    have htrim := trim_padded cur [' '] hcur (by simp [isBlank]) (htight p List.mem_cons_self)
    have hstep : splitClauses 0 (p ++ (q :: ps).flatMap ([' ', '&', ' '] ++ ·)) cur =
        (cur ++ p ++ [' ']) :: splitClauses 0 (q ++ ps.flatMap ([' ', '&', ' '] ++ ·)) [' '] := by
      rw [hsolid p List.mem_cons_self, List.flatMap_cons, List.append_assoc]
      simp [splitClauses]
    rw [hstep, List.map_cons, htrim, hrest]

/-- What is left of a text when the blanks and the parentheses around it are taken off, as long as the first
parenthesis is closed by the last. -/
inductive Core : List Char → List Char → Prop
  | bare {text : List Char} (h : isWrapped (trim text) = false) : Core text (trim text)
  | wrapped {text core : List Char} (h : isWrapped (trim text) = true)
      (hbalanced : balanced 0 (trim text).tail.dropLast = true) (hcore : Core (trim text).tail.dropLast core) :
      Core text core

theorem length_inner_lt {c : List Char} (h : isWrapped c = true) : c.tail.dropLast.length + 1 < c.length := by
  have htwo : 2 ≤ c.length := by
    unfold isWrapped at h
    simp only [Bool.and_eq_true, decide_eq_true_eq] at h
    exact h.1.1
  simp only [List.length_dropLast, List.length_tail]
  omega

theorem stripOuter_core {text core : List Char} (h : Core text core) : ∀ {n : ℕ}, (trim text).length ≤ n →
    stripOuter n (trim text) = core := by
  induction h with
  | @bare text h =>
    intro n _
    cases n with
    | zero => rfl
    | succ n => rw [stripOuter, h, if_neg Bool.false_ne_true]
  | @wrapped text core h _ _ ih =>
    intro n hn
    have hlt := length_inner_lt h
    cases n with
    | zero => omega
    | succ n =>
      rw [stripOuter, if_pos h]
      refine ih ?_
      have hle := length_trim_le (trim text).tail.dropLast
      omega

/-! ## Clauses -/

/-- A name that is read as it is: one that ends in an underscore is not. -/
def KeptName (name : String) : Prop := isIdentifier name = true ∧ sanitizeIdentifier name = name

theorem isIdentChar_of_isIdentifier (h : isIdentifier name = true) : ∀ c ∈ name.toList, isIdentChar c = true := by
  unfold isIdentifier at h
  simp only [Bool.and_eq_true, List.all_eq_true] at h
  exact h.1

theorem toList_ne_nil_of_isIdentifier (h : isIdentifier name = true) : name.toList ≠ [] := by
  intro hnil
  unfold isIdentifier at h
  rw [hnil] at h
  exact absurd h (by decide)

theorem KeptName.ne_empty (h : KeptName name) : name ≠ "" := by
  rintro rfl
  exact toList_ne_nil_of_isIdentifier h.1 rfl

theorem KeptName.tight (h : KeptName name) : Tight name.toList :=
  tight_of_word (isIdentChar_of_isIdentifier h.1)

theorem identOf_padded (h : KeptName name) (before after : List Char)
    (hb : ∀ c ∈ before, isBlank c = true) (ha : ∀ c ∈ after, isBlank c = true) :
    identOf (before ++ name.toList ++ after) = name := by
  unfold identOf
  rw [trim_padded before after hb ha h.tight, String.ofList_toList, h.2]

theorem identOf_kept (h : KeptName name) : identOf name.toList = name := by
  unfold identOf
  rw [trim_tight h.tight, String.ofList_toList, h.2]

def sourceClause (src : String) : List Char := "state = ".toList ++ src.toList

def eventClause (ev : String) : List Char := "event = ".toList ++ ev.toList

variable (cond : Condition)

theorem addClause_source {src : String} (h : KeptName src) :
    addClause cond (sourceClause src) = { cond with sources := cond.sources ++ [src] } := by
  have hne : sourceClause src ≠ [] := List.cons_ne_nil _ _
  have hin : starts (sourceClause src) "state in" = false := rfl
  have heq : starts (sourceClause src) "state =" = true := rfl
  have hident : identOf (behindEq (sourceClause src)) = src := by
    have hbehind : behindEq (sourceClause src) = [' '] ++ src.toList ++ [] := (List.append_nil _).symm
    rw [hbehind, identOf_padded h [' '] [] (by simp [isBlank]) (by simp)]
  unfold addClause
  rw [if_neg hne, hin, if_neg Bool.false_ne_true, if_pos (Or.inl heq), hident]
  dsimp only
  rw [if_neg h.ne_empty]

theorem addClause_event {ev : String} (h : KeptName ev) (hnone : ev ≠ "none") :
    addClause cond (eventClause ev) = { cond with event := ev } := by
  have hne : eventClause ev ≠ [] := List.cons_ne_nil _ _
  have hin : starts (eventClause ev) "state in" = false := rfl
  have hstate : ¬ (starts (eventClause ev) "state =" = true ∨ starts (eventClause ev) "state=" = true) := by
    rintro (h | h) <;> exact Bool.noConfusion h
  have heq : starts (eventClause ev) "event =" = true := rfl
  have hident : identOf (behindEq (eventClause ev)) = ev := by
    have hbehind : behindEq (eventClause ev) = [' '] ++ ev.toList ++ [] := (List.append_nil _).symm
    rw [hbehind, identOf_padded h [' '] [] (by simp [isBlank]) (by simp)]
  unfold addClause
  rw [if_neg hne, hin, if_neg Bool.false_ne_true, if_neg hstate, if_pos (Or.inl heq), hident]
  dsimp only
  rw [if_neg (not_or.mpr ⟨hnone, h.ne_empty⟩)]

/-- The texts that a clause about the state or the event begins with. -/
def clauseHeads : List String := ["state in", "state =", "state=", "event =", "event="]

theorem addClause_other {c : List Char} (hne : c ≠ []) (h : ∀ p ∈ clauseHeads, starts c p = false) :
    addClause cond c = { cond with others := cond.others ++ [c] } := by
  have hfalse : ∀ p ∈ clauseHeads, ¬ starts c p = true := fun p hp => by rw [h p hp]; exact Bool.false_ne_true
  simp only [clauseHeads, List.forall_mem_cons] at hfalse
  obtain ⟨hin, hstate, hstate', hevent, hevent', -⟩ := hfalse
  unfold addClause
  rw [if_neg hne, if_neg hin, if_neg (not_or.mpr ⟨hstate, hstate'⟩), if_neg (not_or.mpr ⟨hevent, hevent'⟩)]

theorem readClause_core {raw core : List Char} (h : Core (trim raw) core)
    (htight : Tight (trim raw)) : readClause cond raw = addClause cond core := by
  have hstrip := stripOuter_core h (n := raw.length) (by rw [trim_tight htight]; exact length_trim_le raw)
  rw [trim_tight htight] at hstrip
  unfold readClause
  rw [hstrip]

theorem core_bare (htight : Tight text) (h : text.head? ≠ some '(') : Core text text := by
  have hbare : Core text (trim text) := by
    refine Core.bare ?_
    rw [trim_tight htight]
    unfold isWrapped
    simp [h]
  rwa [trim_tight htight] at hbare

/-! ## Conditions -/

/-- The guard of a transition: what is printed for it, and what is left when the parentheses are taken off. -/
structure PrintedGuard where
  printed : List Char
  core : List Char

/-- A guard that is read as a guard, and as it is; `eventless` tells whether there is no event beside it. -/
structure PrintedGuard.Legible (eventless : Prop) (guard : PrintedGuard) : Prop where
  balanced : balanced 0 guard.printed = true
  core : Core guard.printed guard.core
  nonempty : guard.core ≠ []
  heads : ∀ p ∈ clauseHeads, starts guard.core p = false
  trigger : eventless → triggerOf guard.core = none

def inParens (text : List Char) : List Char := '(' :: (text ++ [')'])

/-- The clauses of a condition behind that of the source. -/
def laterClauses (ev : Option String) (guard : Option PrintedGuard) : List (List Char) :=
  ev.toList.map eventClause ++ guard.toList.map fun g => inParens g.printed

def conditionText (src : String) (ev : Option String) (guard : Option PrintedGuard) : List Char :=
  sourceClause src ++ (laterClauses ev guard).flatMap ([' ', '&', ' '] ++ ·)

theorem tight_inParens (text : List Char) : Tight (inParens text) := by
  unfold inParens
  refine ⟨by simp [isBlank], ?_⟩
  rw [← List.cons_append, List.getLast?_concat]
  simp [isBlank]

theorem core_inParens {text core : List Char} (hbalanced : balanced 0 text = true) (h : Core text core) :
    Core (inParens text) core := by
  have htrim := trim_tight (tight_inParens text)
  refine Core.wrapped ?_ ?_ ?_
  · rw [htrim]
    unfold isWrapped inParens
    rw [← List.cons_append, List.getLast?_concat]
    simp
  · rw [htrim]
    simpa [inParens] using hbalanced
  · rw [htrim]
    simpa [inParens] using h

theorem isPlain_of_isIdentChar (h : isIdentChar c = true) : c ≠ '(' ∧ c ≠ ')' ∧ c ≠ '&' := by
  refine ⟨?_, ?_, ?_⟩ <;> (rintro rfl; exact absurd h (by decide))

theorem solid_clause {head : List Char} (hhead : ∀ c ∈ head, c ≠ '(' ∧ c ≠ ')' ∧ c ≠ '&')
    (h : KeptName name) : Solid (head ++ name.toList) :=
  solid_plain fun c hc => (List.mem_append.mp hc).elim (hhead c) fun hc =>
    isPlain_of_isIdentChar (isIdentChar_of_isIdentifier h.1 c hc)

theorem tight_clause (hc : isBlank c = false) (head : List Char) (h : KeptName name) :
    Tight (c :: (head ++ name.toList)) :=
  Tight.append (a := [c]) ⟨by simp [hc], by simp [hc]⟩ h.tight (by simp) (toList_ne_nil_of_isIdentifier h.1) head

theorem tight_sourceClause {src : String} (h : KeptName src) : Tight (sourceClause src) :=
  tight_clause (by decide) "tate = ".toList h

theorem tight_eventClause {ev : String} (h : KeptName ev) : Tight (eventClause ev) :=
  tight_clause (by decide) "vent = ".toList h

theorem core_sourceClause {src : String} (h : KeptName src) : Core (sourceClause src) (sourceClause src) := by
  refine core_bare (tight_sourceClause h) ?_
  show some 's' ≠ some '('
  decide

theorem core_eventClause {ev : String} (h : KeptName ev) : Core (eventClause ev) (eventClause ev) := by
  refine core_bare (tight_eventClause h) ?_
  show some 'e' ≠ some '('
  decide

theorem foldl_readClause {raws cores : List (List Char)}
    (h : List.Forall₂ (fun raw core => Core (trim raw) core ∧ Tight (trim raw)) raws cores) (cond : Condition) :
    raws.foldl readClause cond = cores.foldl addClause cond := by
  induction h generalizing cond with
  | nil => rfl
  | cons hcore _ ih => rw [List.foldl_cons, List.foldl_cons, readClause_core cond hcore.1 hcore.2, ih]

section Statement

variable {src : String} {ev : Option String} {guard : Option PrintedGuard}

theorem solid_tight_clauses (hsrc : KeptName src) (hev : ∀ e ∈ ev, KeptName e ∧ e ≠ "none")
    (hguard : ∀ g ∈ guard, g.Legible (ev = none)) :
    ∀ q ∈ sourceClause src :: laterClauses ev guard, Solid q ∧ Tight q := by
  intro q hq
  rcases List.mem_cons.mp hq with rfl | hq
  · exact ⟨solid_clause (by decide) hsrc, tight_sourceClause hsrc⟩
  · rcases List.mem_append.mp hq with hq | hq
    · obtain ⟨e, he, rfl⟩ := List.mem_map.mp hq
      have hkept := (hev e (Option.mem_toList.mp he)).1
      exact ⟨solid_clause (by decide) hkept, tight_eventClause hkept⟩
    · obtain ⟨g, hg, rfl⟩ := List.mem_map.mp hq
      exact ⟨solid_wrapped (hguard g (Option.mem_toList.mp hg)).balanced, tight_inParens g.printed⟩

theorem read_condition (hsrc : KeptName src) (hev : ∀ e ∈ ev, KeptName e ∧ e ≠ "none")
    (hguard : ∀ g ∈ guard, g.Legible (ev = none)) :
    (splitClauses 0 (conditionText src ev guard) []).foldl readClause {} =
      { sources := [src], event := ev.getD "", others := guard.toList.map (·.core) } := by
  have hclauses := solid_tight_clauses hsrc hev hguard
  have hsplit : (splitClauses 0 (conditionText src ev guard) []).map trim = sourceClause src :: laterClauses ev guard :=
    splitClauses_pieces (fun q hq => (hclauses q hq).1) (fun q hq => (hclauses q hq).2) [] (by simp)
  have hcores : List.Forall₂ (fun raw core => Core raw core ∧ Tight raw) (sourceClause src :: laterClauses ev guard)
      (sourceClause src :: (ev.toList.map eventClause ++ guard.toList.map (·.core))) := by
    refine List.Forall₂.cons ⟨core_sourceClause hsrc, tight_sourceClause hsrc⟩ (List.rel_append ?_ ?_)
    · rw [List.forall₂_map_left_iff, List.forall₂_map_right_iff, List.forall₂_same]
      intro e he
      have hkept := (hev e (Option.mem_toList.mp he)).1
      exact ⟨core_eventClause hkept, tight_eventClause hkept⟩
    · rw [List.forall₂_map_left_iff, List.forall₂_map_right_iff, List.forall₂_same]
      intro g hg
      have hlegible := hguard g (Option.mem_toList.mp hg)
      exact ⟨core_inParens hlegible.balanced hlegible.core, tight_inParens g.printed⟩
  rw [← hsplit, List.forall₂_map_left_iff] at hcores
  rw [foldl_readClause hcores, List.foldl_cons, addClause_source _ hsrc, List.foldl_append]
  have hevent : ∀ cond : Condition, cond.event = "" →
      (ev.toList.map eventClause).foldl addClause cond = { cond with event := ev.getD "" } := by
    intro cond hcond
    cases ev with
    | none => rw [Option.getD_none, ← hcond]; rfl
    | some e =>
      rw [Option.toList_some, List.map_singleton, List.foldl_cons, List.foldl_nil,
        addClause_event cond (hev e rfl).1 (hev e rfl).2, Option.getD_some]
  rw [hevent _ rfl]
  cases guard with
  | none => rfl
  | some g => exact addClause_other _ (hguard g rfl).nonempty (hguard g rfl).heads

theorem read_others (hev : ∀ e ∈ ev, KeptName e ∧ e ≠ "none") (hguard : ∀ g ∈ guard, g.Legible (ev = none)) :
    (guard.toList.map (·.core)).foldl readOther (ev.getD "", []) = (ev.getD "", (guard.map (·.core)).getD []) := by
  cases guard with
  | none => rfl
  | some g =>
    show readOther (ev.getD "", []) g.core = (ev.getD "", g.core)
    have htrigger : (if ev.getD "" = "" then triggerOf g.core else none) = none := by
      cases ev with
      | none => exact (hguard g rfl).trigger rfl
      | some e => exact if_neg (hev e rfl).1.ne_empty
    unfold readOther
    dsimp only
    rw [htrigger]
    rfl

theorem tight_conditionText (hsrc : KeptName src) (hev : ∀ e ∈ ev, KeptName e ∧ e ≠ "none")
    (hguard : ∀ g ∈ guard, g.Legible (ev = none)) : Tight (conditionText src ev guard) := by
  have hclauses := solid_tight_clauses hsrc hev hguard
  have hjoin : ∀ {p : List Char} {ps : List (List Char)}, p ≠ [] → (∀ q ∈ p :: ps, Tight q) → (∀ q ∈ ps, q ≠ []) →
      Tight (p ++ ps.flatMap ([' ', '&', ' '] ++ ·)) := by
    intro p ps hne htight hps
    induction ps using List.reverseRecOn with
    | nil =>
      rw [List.flatMap_nil, List.append_nil]
      exact htight p List.mem_cons_self
    | append_singleton ps q _ =>
      rw [List.flatMap_append, List.flatMap_singleton, ← List.append_assoc, ← List.append_assoc, List.append_assoc p]
      exact (htight p List.mem_cons_self).append (htight q (by simp)) hne (hps q (by simp)) _
  refine hjoin (List.cons_ne_nil _ _) (fun q hq => (hclauses q hq).2) fun q hq => ?_
  rcases List.mem_append.mp hq with hq | hq
  · obtain ⟨e, -, rfl⟩ := List.mem_map.mp hq
    exact List.cons_ne_nil _ _
  · obtain ⟨g, -, rfl⟩ := List.mem_map.mp hq
    exact List.cons_ne_nil _ _

end Statement

/-! ## Statements -/

theorem caseSplit_last {before after : List Char} (hafter : ':' ∉ after) (hb : before.getLast? ≠ some ':') :
    caseSplit (before ++ ':' :: after).reverse [] = some (before, after) := by
  have hskip : ∀ (rev rest acc : List Char), ':' ∉ rev →
      caseSplit (rev ++ rest) acc = caseSplit rest (rev.reverse ++ acc) := by
    intro rev
    induction rev with
    | nil => exact fun _ _ _ => rfl
    | cons c rev ih =>
      intro rest acc h
      rw [List.mem_cons, not_or] at h
      rw [List.cons_append, caseSplit, if_neg fun hcolon => h.1 hcolon.1.symm, ih rest _ h.2]
      simp
  have hreverse : (before ++ ':' :: after).reverse = after.reverse ++ ':' :: before.reverse := by simp
  have hhead : after.head? ≠ some ':' := fun heq => hafter (List.mem_of_mem_head? heq)
  rw [hreverse, hskip _ _ _ (by simpa using hafter), List.reverse_reverse, List.append_nil, caseSplit,
    if_pos ⟨rfl, by rwa [List.head?_reverse], hhead⟩, List.reverse_reverse]

/-- The statement of a transition. -/
def statementText (src : String) (ev : Option String) (guard : Option PrintedGuard) (tgt : String) : List Char :=
  conditionText src ev guard ++ [' '] ++ ':' :: ' ' :: (tgt.toList ++ [';'])

theorem parseTransitionCase_statement {src tgt : String} {ev : Option String} {guard : Option PrintedGuard}
    (hsrc : KeptName src) (htgt : KeptName tgt) (hev : ∀ e ∈ ev, KeptName e ∧ e ≠ "none")
    (hguard : ∀ g ∈ guard, g.Legible (ev = none))
    (hcomment : contains (statementText src ev guard tgt) "--" = false) (d : Draft) :
    parseTransitionCase (statementText src ev guard tgt) d =
      addTransitionFrom tgt (ev.getD "") (String.ofList ((guard.map (·.core)).getD [])) "" d src := by
  have hfind : findSub "--".toList (statementText src ev guard tgt) = none := by
    rwa [contains, Option.isSome_eq_false_iff, Option.isNone_iff_eq_none] at hcomment
  have hcolon : ':' ∉ ' ' :: (tgt.toList ++ [';']) := by
    intro hmem
    simp only [List.mem_cons, List.mem_append, List.not_mem_nil, or_false] at hmem
    rcases hmem with h | h | h
    · exact absurd h (by decide)
    · exact absurd (isIdentChar_of_isIdentifier htgt.1 ':' h) (by decide)
    · exact absurd h (by decide)
  have hsplit : caseSplit (statementText src ev guard tgt).reverse [] =
      some (conditionText src ev guard ++ [' '], ' ' :: (tgt.toList ++ [';'])) :=
    caseSplit_last hcolon (by simp)
  have hcond : trim (conditionText src ev guard ++ [' ']) = conditionText src ev guard :=
    trim_padded [] [' '] (by simp) (by simp [isBlank]) (tight_conditionText hsrc hev hguard)
  have htarget : identOf (withoutSemicolon (trim (' ' :: (tgt.toList ++ [';'])))) = tgt := by
    have htight : Tight (tgt.toList ++ [] ++ [';']) :=
      htgt.tight.append (by simp [Tight, isBlank]) (toList_ne_nil_of_isIdentifier htgt.1) (by simp) []
    rw [List.append_nil] at htight
    have htrim : trim (' ' :: (tgt.toList ++ [';'])) = tgt.toList ++ [';'] := by
      have hpadded := trim_padded [' '] [] (by simp [isBlank]) (by simp) htight
      rwa [List.append_nil] at hpadded
    rw [htrim, withoutSemicolon, List.getLast?_concat, if_pos rfl, List.dropLast_concat, identOf_kept htgt]
  unfold parseTransitionCase
  simp only [hfind, Option.map_none, Option.getD_none, hsplit, htarget, if_neg htgt.ne_empty, hcond,
    read_condition hsrc hev hguard, read_others hev hguard, List.foldl_cons, List.foldl_nil]

/-! ## What a statement contains -/

/-- The part of a condition that is made of names. -/
def namesText (src : String) (ev : Option String) : List Char :=
  sourceClause src ++ (ev.toList.map eventClause).flatMap ([' ', '&', ' '] ++ ·)

/-- The end of a statement. -/
def targetText (tgt : String) : List Char := ' ' :: ':' :: ' ' :: (tgt.toList ++ [';'])

theorem statementText_none (src : String) (ev : Option String) (tgt : String) :
    statementText src ev none tgt = namesText src ev ++ targetText tgt := by
  simp [statementText, conditionText, laterClauses, namesText, targetText]

theorem statementText_some (src : String) (ev : Option String) (guard : PrintedGuard) (tgt : String) :
    statementText src ev (some guard) tgt =
      namesText src ev ++ [' ', '&'] ++ ' ' :: (inParens guard.printed ++ targetText tgt) := by
  simp [statementText, conditionText, laterClauses, namesText, targetText]

section Characters

variable {src tgt : String} {ev : Option String}

theorem mem_namesText (hsrc : KeptName src) (hev : ∀ e ∈ ev, KeptName e) {c : Char} (h : c ∈ namesText src ev) :
    isIdentChar c = true ∨ c = ' ' ∨ c = '=' ∨ c = '&' := by
  have hclause : ∀ {head : List Char} {name : String},
      (∀ c ∈ head, isIdentChar c = true ∨ c = ' ' ∨ c = '=' ∨ c = '&') → KeptName name → c ∈ head ++ name.toList → isIdentChar c = true ∨ c = ' ' ∨ c = '=' ∨ c = '&' :=
    fun hhead hname hc => (List.mem_append.mp hc).elim (hhead c) fun hc =>
      Or.inl (isIdentChar_of_isIdentifier hname.1 c hc)
  rcases List.mem_append.mp h with h | h
  · exact hclause (by decide) hsrc h
  · obtain ⟨q, hq, hc⟩ := List.mem_flatMap.mp h
    obtain ⟨e, he, rfl⟩ := List.mem_map.mp hq
    rcases List.mem_append.mp hc with hc | hc
    · rcases List.mem_cons.mp hc with rfl | hc
      · exact Or.inr (Or.inl rfl)
      · rcases List.mem_cons.mp hc with rfl | hc
        · exact Or.inr (Or.inr (Or.inr rfl))
        · exact Or.inr (Or.inl (List.mem_singleton.mp hc))
    · exact hclause (by decide) (hev e (Option.mem_toList.mp he)) hc

theorem mem_targetText (htgt : KeptName tgt) {c : Char} (h : c ∈ targetText tgt) :
    isIdentChar c = true ∨ c = ' ' ∨ c = ':' ∨ c = ';' := by
  unfold targetText at h
  simp only [List.mem_cons, List.mem_append, List.not_mem_nil, or_false] at h
  rcases h with h | h | h | h | h
  · exact Or.inr (Or.inl h)
  · exact Or.inr (Or.inr (Or.inl h))
  · exact Or.inr (Or.inl h)
  · exact Or.inl (isIdentChar_of_isIdentifier htgt.1 c h)
  · exact Or.inr (Or.inr (Or.inr h))

theorem notMem_namesText (hsrc : KeptName src) (hev : ∀ e ∈ ev, KeptName e) {c : Char}
    (h : (isIdentChar c || c = ' ' || c = '=' || c = '&') = false) : c ∉ namesText src ev := by
  intro hmem
  rcases mem_namesText hsrc hev hmem with hc | rfl | rfl | rfl
  · simp [hc] at h
  all_goals exact absurd h (by decide)

theorem notMem_targetText (htgt : KeptName tgt) {c : Char}
    (h : (isIdentChar c || c = ' ' || c = ':' || c = ';') = false) : c ∉ targetText tgt := by
  intro hmem
  rcases mem_targetText htgt hmem with hc | rfl | rfl | rfl
  · simp [hc] at h
  all_goals exact absurd h (by decide)

end Characters

/-- A printed guard in which nothing stands that is looked for in the whole line. -/
structure PrintedGuard.Harmless (guard : PrintedGuard) : Prop where
  semicolon : ';' ∉ guard.printed
  newline : '\n' ∉ guard.printed
  comment : contains guard.printed "--" = false
  truth : ∀ p ∈ ["TRUE :", "TRUE:"], contains guard.printed p = false
  nextState : contains (inParens guard.printed) "next(state)" = false

/-- A transition whose line contains nothing that is looked for in the whole line: without a guard the name before
the colon has to end otherwise than `TRUE`. -/
def Undisturbed (src : String) (ev : Option String) : Option PrintedGuard → Prop
  | some guard => guard.Harmless
  | none => ¬ "TRUE".toList <:+ (ev.getD src).toList

section Contents

variable {src tgt : String} {ev : Option String} {guard : Option PrintedGuard}

variable {p : List Char}

theorem infix_statementText {g : PrintedGuard} (hopen : '(' ∉ p) (hclose : ')' ∉ p)
    (h : p <:+: statementText src ev (some g) tgt) :
    p <:+: namesText src ev ++ [' ', '&', ' '] ∨ p <:+: g.printed ∨ p <:+: targetText tgt := by
  have hsplit : statementText src ev (some g) tgt =
      (namesText src ev ++ [' ', '&', ' ']) ++ '(' :: (g.printed ++ ')' :: targetText tgt) := by
    rw [statementText_some]
    simp [inParens]
  rw [hsplit] at h
  exact (infix_split hopen h).imp_right (infix_split hclose)

theorem statement_comment (hsrc : KeptName src) (htgt : KeptName tgt) (hev : ∀ e ∈ ev, KeptName e)
    (h : Undisturbed src ev guard) : contains (statementText src ev guard tgt) "--" = false := by
  have hnames : '-' ∉ namesText src ev := notMem_namesText hsrc hev (by decide)
  have htarget : '-' ∉ targetText tgt := notMem_targetText htgt (by decide)
  have hmem : '-' ∈ "--".toList := by decide
  cases guard with
  | none =>
    rw [statementText_none]
    exact contains_eq_false hmem fun hin => (List.mem_append.mp hin).elim hnames htarget
  | some g =>
    rw [Bool.eq_false_iff, Ne, contains_iff]
    intro hocc
    rcases infix_statementText (by decide) (by decide) hocc with hocc | hocc | hocc
    · exact (List.mem_append.mp (hocc.subset hmem)).elim hnames (by decide)
    · exact absurd (contains_iff.mpr hocc) (by rw [h.comment]; exact Bool.false_ne_true)
    · exact htarget (hocc.subset hmem)

theorem statement_nextState (hsrc : KeptName src) (htgt : KeptName tgt) (hev : ∀ e ∈ ev, KeptName e)
    (h : Undisturbed src ev guard) : contains (statementText src ev guard tgt) "next(state)" = false := by
  have hnames : '(' ∉ namesText src ev := notMem_namesText hsrc hev (by decide)
  have htarget : '(' ∉ targetText tgt := notMem_targetText htgt (by decide)
  have hmem : '(' ∈ "next(state)".toList := by decide
  cases guard with
  | none =>
    rw [statementText_none]
    exact contains_eq_false hmem fun hin => (List.mem_append.mp hin).elim hnames htarget
  | some g =>
    rw [Bool.eq_false_iff, Ne, contains_iff, statementText_some]
    intro hocc
    have hspace : ' ' ∉ "next(state)".toList := by decide
    rcases infix_split hspace hocc with hocc | hocc
    · exact (List.mem_append.mp (hocc.subset hmem)).elim hnames (by decide)
    · rcases infix_split hspace hocc with hocc | hocc
      · exact absurd (contains_iff.mpr hocc) (by rw [h.nextState]; exact Bool.false_ne_true)
      · exact htarget (List.mem_cons_of_mem _ (hocc.subset hmem))

theorem targetText_truth (htgt : KeptName tgt) (hp : ':' ∈ p) (hhead : p.head? = some 'T') :
    ¬ p <:+: targetText tgt := by
  intro hocc
  have hno : ':' ∉ ' ' :: (tgt.toList ++ [';']) := by
    intro hmem
    simp only [List.mem_cons, List.mem_append, List.not_mem_nil, or_false] at hmem
    rcases hmem with h | h | h
    · exact absurd h (by decide)
    · exact absurd (isIdentChar_of_isIdentifier htgt.1 ':' h) (by decide)
    · exact absurd h (by decide)
  have hstart : ∀ {c : Char} {text : List Char}, c ≠ 'T' → ¬ p <+: c :: text := by
    rintro c text hc ⟨rest, hrest⟩
    have happend : (p ++ rest).head? = p.head? := List.head?_append_of_ne_nil p (List.ne_nil_of_mem hp)
    rw [← happend, hrest] at hhead
    exact hc (by simpa using hhead)
  unfold targetText at hocc
  rcases List.infix_cons_iff.mp hocc with h | hocc
  · exact hstart (by decide) h
  · rcases List.infix_cons_iff.mp hocc with h | hocc
    · exact hstart (by decide) h
    · exact hno (hocc.subset hp)

theorem suffix_namesText (hp : ' ' ∉ p) (h : p <:+ namesText src ev) : p <:+ (ev.getD src).toList := by
  cases ev with
  | none =>
    have hsplit : namesText src none = "state =".toList ++ ' ' :: src.toList := List.append_nil _
    rw [hsplit] at h
    exact suffix_of_suffix_append hp h
  | some e =>
    have hsplit : namesText src (some e) = (sourceClause src ++ " & event =".toList) ++ ' ' :: e.toList := by
      show sourceClause src ++ ([' ', '&', ' '] ++ eventClause e ++ []) = _
      rw [List.append_nil, List.append_assoc]
      rfl
    rw [hsplit] at h
    exact suffix_of_suffix_append hp h

/-- Without a guard the colon stands behind a blank and the last name. -/
theorem suffix_of_infix_statement (hsrc : KeptName src) (htgt : KeptName tgt) (hev : ∀ e ∈ ev, KeptName e)
    (hp : ':' ∉ p) (h : p ++ [':'] <:+: statementText src ev none tgt) : p <:+ namesText src ev ++ [' '] := by
  have hsplit : statementText src ev none tgt = (namesText src ev ++ [' ']) ++ ':' :: ' ' :: (tgt.toList ++ [';']) := by
    rw [statementText_none]
    simp [targetText]
  rw [hsplit] at h
  refine suffix_of_infix hp ?_ ?_ h
  · exact fun hmem => (List.mem_append.mp hmem).elim (notMem_namesText hsrc hev (by decide)) (by decide)
  · intro hmem
    simp only [List.mem_cons, List.mem_append, List.not_mem_nil, or_false] at hmem
    rcases hmem with h | h | h
    · exact absurd h (by decide)
    · exact absurd (isIdentChar_of_isIdentifier htgt.1 ':' h) (by decide)
    · exact absurd h (by decide)

theorem statement_truth (hsrc : KeptName src) (htgt : KeptName tgt) (hev : ∀ e ∈ ev, KeptName e)
    (h : Undisturbed src ev guard) :
    ∀ p ∈ ["TRUE :", "TRUE:"], contains (statementText src ev guard tgt) p = false := by
  intro p hp
  have hcolon : ':' ∈ p.toList := by
    revert p
    decide
  have hparens : '(' ∉ p.toList ∧ ')' ∉ p.toList := by
    revert p
    decide
  have hhead : p.toList.head? = some 'T' := by
    revert p
    decide
  rw [Bool.eq_false_iff, Ne, contains_iff]
  intro hocc
  cases guard with
  | some g =>
    rcases infix_statementText hparens.1 hparens.2 hocc with hocc | hocc | hocc
    · exact (List.mem_append.mp (hocc.subset hcolon)).elim (notMem_namesText hsrc hev (by decide)) (by decide)
    · exact absurd (contains_iff.mpr hocc) (by rw [h.truth p hp]; exact Bool.false_ne_true)
    · exact targetText_truth htgt hcolon hhead hocc
  | none =>
    rcases List.mem_cons.mp hp with rfl | hp
    · obtain ⟨rest, hrest⟩ := suffix_of_infix_statement (p := "TRUE ".toList) hsrc htgt hev (by decide) hocc
      have hcancel : rest ++ "TRUE".toList = namesText src ev := by
        have happend : (rest ++ "TRUE".toList) ++ [' '] = namesText src ev ++ [' '] := by
          rw [← hrest, List.append_assoc]
          rfl
        exact List.append_cancel_right happend
      exact h (suffix_namesText (by decide) ⟨rest, hcancel⟩)
    · obtain rfl := List.mem_singleton.mp hp
      obtain ⟨rest, hrest⟩ := suffix_of_infix_statement (p := "TRUE".toList) hsrc htgt hev (by decide) hocc
      have hlast := congrArg List.getLast? hrest
      rw [List.getLast?_concat, List.getLast?_append_of_ne_nil _ (by decide)] at hlast
      exact absurd hlast (by decide)

theorem statement_semicolon (hsrc : KeptName src) (hev : ∀ e ∈ ev, KeptName e) (h : Undisturbed src ev guard) :
    ∀ c ∈ [';', '\n'], c ∉ conditionText src ev guard := by
  intro c hc
  have hparens : c ∉ [' ', '&', ' ', '(', ')'] := by
    revert c
    decide
  have hnames : c ∉ namesText src ev := by
    refine notMem_namesText hsrc hev ?_
    clear hparens
    revert c
    decide
  cases guard with
  | none =>
    have hsame : conditionText src ev none = namesText src ev := by simp [conditionText, laterClauses, namesText]
    rw [hsame]
    exact hnames
  | some g =>
    have hprinted : c ∉ g.printed := by
      rcases List.mem_cons.mp hc with rfl | hc
      · exact h.semicolon
      · obtain rfl := List.mem_singleton.mp hc
        exact h.newline
    have hsame : conditionText src ev (some g) = namesText src ev ++ [' ', '&', ' '] ++ inParens g.printed := by
      simp [conditionText, laterClauses, namesText]
    rw [hsame]
    simp only [List.mem_append, inParens, List.mem_cons, List.not_mem_nil, or_false, not_or] at hparens ⊢
    tauto

end Contents

end Fsmc.Smv.Parser
