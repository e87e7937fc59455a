/-
# Fsmc.Verification.McdcExpressions — the decisions that test vectors are computed from.

A text is split at its last connective outside brackets, disjunctions first. Every split falls between complete
operands, so the expression has the value of the formula that the text writes, if no blank stands around the text
where nothing takes it off: the callers trim what they pass.
-/
import Fsmc.Cpp.Text
import Fsmc.Frontend.GuardParser

namespace Fsmc.Verification

open Fsmc.Cpp Fsmc.Frontend

/-! ## Expressions -/

inductive BinaryOp where
  | and | or
  deriving DecidableEq, Repr

/-- `BoolExpr`: `VarExpr`, `NotExpr` and `BinaryExpr`. -/
inductive BoolExpr where
  | var (name : List Char)
  | not (sub : BoolExpr)
  | binary (op : BinaryOp) (left right : BoolExpr)
  deriving DecidableEq, Repr

/-- `evaluate`: a variable without a value is false. -/
def BoolExpr.evaluate (env : List Char → Option Bool) : BoolExpr → Bool
  | var name => (env name).getD false
  | not sub => !sub.evaluate env
  | binary .and left right => left.evaluate env && right.evaluate env
  | binary .or left right => left.evaluate env || right.evaluate env

/-! ## Parsing -/

/-- A character that `trim` takes off. -/
def isPad (c : Char) : Bool := c = ' ' || c = '\t'

def trim (s : List Char) : List Char := (s.dropWhile isPad).rdropWhile isPad

/-- The loop over a text from its end, at a bracket depth: what stands before and behind the last doubled `c` outside
brackets. The text that is left is reversed. -/
def splitFrom (c : Char) : ℤ → List Char → List Char → Option (List Char × List Char)
  | depth, right, x :: y :: rest =>
    if x = ')' then splitFrom c (depth + 1) (x :: right) (y :: rest)
    else if x = '(' then splitFrom c (depth - 1) (x :: right) (y :: rest)
    else if depth = 0 ∧ x = c ∧ y = c then some (rest.reverse, right)
    else splitFrom c depth (x :: right) (y :: rest)
  | _, _, _ => none

/-- The sides of the last doubled `c` outside brackets. -/
def splitLast (c : Char) (s : List Char) : Option (List Char × List Char) := splitFrom c 0 [] s.reverse

/-- `parse_simple_expr`, with the number of calls that it may nest. -/
def parseSimpleExpr (conds : List (List Char)) : ℕ → List Char → Option BoolExpr
  | 0, _ => none
  | fuel + 1, s =>
    if conds.any fun cond => cond = s then some (.var s)
    else
      match splitLast '|' s with
      | some (left, right) => do
        let l ← parseSimpleExpr conds fuel (trim left)
        let r ← parseSimpleExpr conds fuel (trim right)
        return .binary .or l r
      | none =>
        match splitLast '&' s with
        | some (left, right) => do
          let l ← parseSimpleExpr conds fuel (trim left)
          let r ← parseSimpleExpr conds fuel (trim right)
          return .binary .and l r
        | none =>
          if s.head? = some '!' then (parseSimpleExpr conds fuel (trim s.tail)).map .not
          else if 2 ≤ s.length ∧ s.head? = some '(' ∧ s.getLast? = some ')' then
            parseSimpleExpr conds fuel (trim s.tail.dropLast)
          else some (.var s)

theorem any_eq_iff {s : List Char} {conds : List (List Char)} : (conds.any fun cond => cond = s) = true ↔ s ∈ conds := by
  simp

example : parseSimpleExpr ["a".toList, "b".toList] 9 "!(a)&&b".toList =
    some (.binary .and (.not (.var "a".toList)) (.var "b".toList)) := by decide +kernel

/-! ## Formulas -/

/-- A formula over conditions. -/
inductive Formula where
  | cond (w : List Char)
  | not (f : Formula)
  | and (f g : Formula)
  | or (f g : Formula)
  deriving DecidableEq, Repr

def Formula.eval (ρ : List Char → Bool) : Formula → Bool
  | cond w => ρ w
  | not f => !f.eval ρ
  | and f g => f.eval ρ && g.eval ρ
  | or f g => f.eval ρ || g.eval ρ

/-- The conditions of a formula, from left to right. -/
def Formula.conds : Formula → List (List Char)
  | cond w => [w]
  | not f => f.conds
  | and f g | or f g => f.conds ++ g.conds

/-- The expression of a formula. -/
def Formula.expr : Formula → BoolExpr
  | cond w => .var w
  | not f => .not f.expr
  | and f g => .binary .and f.expr g.expr
  | or f g => .binary .or f.expr g.expr

theorem Formula.evaluate_expr (env : List Char → Option Bool) (f : Formula) :
    f.expr.evaluate env = f.eval fun w => (env w).getD false := by
  induction f with
  | cond w => rfl
  | not f ih => simp only [expr, BoolExpr.evaluate, eval, ih]
  | and f g ihf ihg => simp only [expr, BoolExpr.evaluate, eval, ihf, ihg]
  | or f g ihf ihg => simp only [expr, BoolExpr.evaluate, eval, ihf, ihg]

def Pads (b : List Char) : Prop := ∀ c ∈ b, isPad c = true

/-- A text that is one condition: its brackets are closed and connectives stand between them only, and it neither
begins with a symbol nor has blanks around it. -/
structure IsCond (w : List Char) : Prop where
  nonempty : w ≠ []
  closed : GuardParser.stays 0 w = true
  first : ∀ c ∈ w.head?, c ∉ ['&', '|', '!', '(', ')'] ∧ isPad c = false
  last : ∀ c ∈ w.getLast?, isPad c = false

/-- How a text is put together at its outermost place. -/
inductive Shape where
  | joined | negated | closed
  deriving DecidableEq, Repr

/-- The texts of a level, their shapes and their formulas. The levels are those of disjunctions, of conjunctions and
of their operands. -/
inductive Writes : ℕ → Shape → Formula → List Char → Prop
  | cond {w : List Char} (h : IsCond w) : Writes 2 .closed (.cond w) w
  | bracket {k : Shape} {f : Formula} {b s b' : List Char} (hb : Pads b) (h : Writes 0 k f s) (hb' : Pads b') :
      Writes 2 .closed f ('(' :: (b ++ s ++ b' ++ [')']))
  | not {k : Shape} {f : Formula} {b s : List Char} (hb : Pads b) (h : Writes 2 k f s) :
      Writes 2 .negated (.not f) ('!' :: (b ++ s))
  | operand {k : Shape} {f : Formula} {s : List Char} (h : Writes 2 k f s) : Writes 1 k f s
  | conjunction {k : Shape} {f : Formula} {s : List Char} (h : Writes 1 k f s) : Writes 0 k f s
  | and {k k' : Shape} {f g : Formula} {s b b' t : List Char} (hs : Writes 1 k f s) (hb : Pads b) (hb' : Pads b')
      (ht : Writes 2 k' g t) : Writes 1 .joined (.and f g) ((s ++ b) ++ '&' :: '&' :: (b' ++ t))
  | or {k k' : Shape} {f g : Formula} {s b b' t : List Char} (hs : Writes 0 k f s) (hb : Pads b) (hb' : Pads b')
      (ht : Writes 1 k' g t) : Writes 0 .joined (.or f g) ((s ++ b) ++ '|' :: '|' :: (b' ++ t))

/-! ## Texts that a scan passes -/

variable {c : Char} {s t b b' : List Char} {n : ℕ} {k : Shape} {f : Formula}

/-- A scan that starts outside brackets, or at some depth of them, goes through the text and ends at its depth. -/
def Passes (c : Char) (s : List Char) : Prop :=
  ∀ (depth : ℤ) (right rest : List Char), 0 ≤ depth →
    splitFrom c depth right (s.reverse ++ rest) = splitFrom c depth (s ++ right) rest

/-- The same inside brackets. -/
def PassesInside (c : Char) (s : List Char) : Prop :=
  ∀ (depth : ℤ) (right rest : List Char), 0 < depth →
    splitFrom c depth right (s.reverse ++ rest) = splitFrom c depth (s ++ right) rest

theorem Passes.inside (h : Passes c s) : PassesInside c s :=
  fun depth right rest hdepth => h depth right rest hdepth.le

theorem splitFrom_closing (depth : ℤ) (right rest : List Char) :
    splitFrom c depth right (')' :: rest) = splitFrom c (depth + 1) (')' :: right) rest := by
  cases rest <;> simp [splitFrom]

theorem splitFrom_opening (depth : ℤ) (right rest : List Char) :
    splitFrom c depth right ('(' :: rest) = splitFrom c (depth - 1) ('(' :: right) rest := by
  cases rest <;> simp [splitFrom]

variable {x : Char}

theorem splitFrom_other {depth : ℤ} (hclose : x ≠ ')') (hopen : x ≠ '(') (h : depth = 0 → x ≠ c)
    (right rest : List Char) : splitFrom c depth right (x :: rest) = splitFrom c depth (x :: right) rest := by
  cases rest with
  | nil => simp [splitFrom]
  | cons y rest =>
    have hno : ¬ (depth = 0 ∧ x = c ∧ y = c) := fun hall => h hall.1 hall.2.1
    rw [splitFrom, if_neg hclose, if_neg hopen, if_neg hno]

theorem Passes.append (hs : Passes c s) (ht : Passes c t) : Passes c (s ++ t) := by
  intro depth right rest hdepth
  rw [List.reverse_append, List.append_assoc, ht depth _ _ hdepth, hs depth _ _ hdepth, List.append_assoc]

theorem PassesInside.append (hs : PassesInside c s) (ht : PassesInside c t) : PassesInside c (s ++ t) := by
  intro depth right rest hdepth
  rw [List.reverse_append, List.append_assoc, ht depth _ _ hdepth, hs depth _ _ hdepth, List.append_assoc]

theorem passes_nil (c : Char) : Passes c [] := fun _ _ _ _ => rfl

theorem passes_singleton (hclose : x ≠ ')') (hopen : x ≠ '(') (h : x ≠ c) : Passes c [x] :=
  fun _ right rest _ => splitFrom_other hclose hopen (fun _ => h) right rest

theorem passesInside_singleton (hclose : x ≠ ')') (hopen : x ≠ '(') : PassesInside c [x] :=
  fun _ right rest hdepth => splitFrom_other hclose hopen (fun h => absurd h hdepth.ne') right rest

theorem Passes.cons (hclose : x ≠ ')') (hopen : x ≠ '(') (hx : x ≠ c) (h : Passes c s) : Passes c (x :: s) :=
  (passes_singleton hclose hopen hx).append h

theorem PassesInside.cons (hclose : x ≠ ')') (hopen : x ≠ '(') (h : PassesInside c s) : PassesInside c (x :: s) :=
  (passesInside_singleton hclose hopen).append h

theorem PassesInside.bracket (h : PassesInside c s) : Passes c ('(' :: (s ++ [')'])) := by
  intro depth right rest hdepth
  have hrev : ('(' :: (s ++ [')'])).reverse ++ rest = ')' :: (s.reverse ++ '(' :: rest) := by simp
  have htext : ('(' :: (s ++ [')'])) ++ right = '(' :: (s ++ ')' :: right) := by simp
  rw [hrev, splitFrom_closing, h _ _ _ (by omega), splitFrom_opening, htext, add_sub_cancel_right]

theorem pad_cases (h : isPad x = true) : x = ' ' ∨ x = '\t' := by
  simpa [isPad] using h

theorem Pads.passes (hb : Pads b) (hc : isPad c = false) : Passes c b := by
  induction b with
  | nil => exact passes_nil c
  | cons x b ih =>
    have hx : isPad x = true := hb x List.mem_cons_self
    have hne : x ≠ c := by
      rintro rfl
      rw [hc] at hx
      cases hx
    apply (ih fun y hy => hb y (List.mem_cons_of_mem _ hy)).cons _ _ hne
    · rintro rfl
      cases hx
    · rintro rfl
      cases hx

theorem splitFrom_stays (hc : c = '&' ∨ c = '|') : ∀ (s : List Char) (opened : ℕ), GuardParser.stays opened s = true →
    ∀ (depth : ℤ) (right rest : List Char), 0 ≤ depth →
      splitFrom c depth right (s.reverse ++ rest) = splitFrom c (depth + opened) (s ++ right) rest
  | [], opened, h, depth, right, rest, _ => by
    have hzero : opened = 0 := by simpa [GuardParser.stays] using h
    subst hzero
    simp
  | x :: s, opened, h, depth, right, rest, hdepth => by
    rw [List.reverse_cons, List.append_assoc, List.singleton_append, List.cons_append]
    unfold GuardParser.stays at h
    by_cases hopen : x = '('
    · subst hopen
      rw [if_pos rfl] at h
      rw [splitFrom_stays hc s _ h depth right _ hdepth, splitFrom_opening]
      congr 1
      push_cast
      omega
    · rw [if_neg hopen] at h
      by_cases hclose : x = ')'
      · subst hclose
        rw [if_pos rfl, Bool.and_eq_true, decide_eq_true_eq] at h
        rw [splitFrom_stays hc s _ h.2 depth right _ hdepth, splitFrom_closing]
        congr 1
        omega
      · rw [if_neg hclose, Bool.and_eq_true] at h
        rw [splitFrom_stays hc s _ h.2 depth right _ hdepth]
        apply splitFrom_other hclose hopen
        rintro hzero rfl
        have hopened : opened = 0 := by omega
        rcases hc with rfl | rfl <;> simp [hopened] at h

variable {w : List Char}

theorem IsCond.passes (h : IsCond w) (hc : c = '&' ∨ c = '|') : Passes c w := by
  intro depth right rest hdepth
  have hscan := splitFrom_stays hc w 0 h.closed depth right rest hdepth
  simpa using hscan

theorem Writes.passesInside (h : Writes n k f s) (hc : c = '&' ∨ c = '|') : PassesInside c s := by
  have hpad : isPad c = false := by rcases hc with rfl | rfl <;> rfl
  induction h with
  | cond h => exact (h.passes hc).inside
  | bracket hb _ hb' ih =>
    exact (((hb.passes hpad).inside.append ih).append (hb'.passes hpad).inside).bracket.inside
  | not hb _ ih => exact ((hb.passes hpad).inside.append ih).cons (by decide) (by decide)
  | operand _ ih => exact ih
  | conjunction _ ih => exact ih
  | and _ hb hb' _ ihs iht =>
    apply (ihs.append (hb.passes hpad).inside).append
    exact (((hb'.passes hpad).inside.append iht).cons (by decide) (by decide)).cons (by decide) (by decide)
  | or _ hb hb' _ ihs iht =>
    apply (ihs.append (hb.passes hpad).inside).append
    exact (((hb'.passes hpad).inside.append iht).cons (by decide) (by decide)).cons (by decide) (by decide)

theorem Writes.passes (h : Writes n k f s) (hc : (c = '&' ∨ c = '|') ∧ n = 2 ∨ c = '|' ∧ n = 1) : Passes c s := by
  induction h with
  | cond h => exact h.passes (by tauto)
  | bracket hb h hb' _ =>
    have hop : c = '&' ∨ c = '|' := by tauto
    have hpad : isPad c = false := by rcases hop with rfl | rfl <;> rfl
    exact (((hb.passes hpad).inside.append (h.passesInside hop)).append (hb'.passes hpad).inside).bracket
  | not hb _ ih =>
    have hop : c = '&' ∨ c = '|' := by tauto
    have hpad : isPad c = false := by rcases hop with rfl | rfl <;> rfl
    have hne : '!' ≠ c := by rcases hop with rfl | rfl <;> decide
    exact ((hb.passes hpad).append (ih (Or.inl ⟨hop, rfl⟩))).cons (by decide) (by decide) hne
  | operand _ ih => exact ih (Or.inl ⟨by tauto, rfl⟩)
  | conjunction => simp at hc
  | and _ hb hb' _ ihs iht =>
    obtain rfl : c = '|' := by simpa using hc
    apply ((ihs (by simp)).append (hb.passes rfl)).append
    exact (((hb'.passes rfl).append (iht (by simp))).cons (by decide) (by decide) (by decide)).cons (by decide)
      (by decide) (by decide)
  | or => simp at hc

theorem Passes.splitLast_eq (h : Passes c s) : splitLast c s = none := by
  have hscan := h 0 [] [] le_rfl
  rw [List.append_nil, List.append_nil] at hscan
  unfold splitLast
  rw [hscan, splitFrom]
  simp

theorem Passes.splitLast_append (h : Passes c t) (hclose : c ≠ ')') (hopen : c ≠ '(') (s : List Char) :
    splitLast c (s ++ c :: c :: t) = some (s, t) := by
  have hrev : (s ++ c :: c :: t).reverse = t.reverse ++ c :: c :: s.reverse := by simp
  unfold splitLast
  rw [hrev, h 0 [] _ le_rfl, List.append_nil, splitFrom, if_neg hclose, if_neg hopen, if_pos ⟨rfl, rfl, rfl⟩,
    List.reverse_reverse]

/-! ## Blanks -/

/-- A text that neither is empty nor has blanks around it. -/
structure Tight (s : List Char) : Prop where
  nonempty : s ≠ []
  first : ∀ c ∈ s.head?, isPad c = false
  last : ∀ c ∈ s.getLast?, isPad c = false

theorem Tight.trim_eq (h : Tight s) (hb : Pads b) (hb' : Pads b') : trim (b ++ s ++ b') = s :=
  trim_padded hb hb' h.first h.last

theorem Tight.join (hs : Tight s) (ht : Tight t) (between : List Char) : Tight (s ++ (between ++ t)) where
  nonempty := by simp [hs.nonempty]
  first := by
    rw [List.head?_append_of_ne_nil _ hs.nonempty]
    exact hs.first
  last := by
    rw [← List.append_assoc, List.getLast?_append_of_ne_nil _ ht.nonempty]
    exact ht.last

theorem tight_singleton (hx : isPad x = false) : Tight [x] := by
  refine ⟨List.cons_ne_nil _ _, ?_, ?_⟩ <;>
  · intro c hc
    obtain rfl : x = c := by simpa using hc
    exact hx

theorem Writes.tight (h : Writes n k f s) : Tight s := by
  induction h with
  | cond h => exact ⟨h.nonempty, fun c hc => (h.first c hc).2, h.last⟩
  | bracket _ _ _ _ => exact (tight_singleton (x := '(') rfl).join (tight_singleton (x := ')') rfl) _
  | not _ _ ih => exact (tight_singleton (x := '!') rfl).join ih _
  | operand _ ih => exact ih
  | conjunction _ ih => exact ih
  | @and _ _ _ _ s b b' t _ _ _ _ ihs iht =>
    have htext : (s ++ b) ++ '&' :: '&' :: (b' ++ t) = s ++ ((b ++ '&' :: '&' :: b') ++ t) := by simp
    rw [htext]
    exact ihs.join iht _
  | @or _ _ _ _ s b b' t _ _ _ _ ihs iht =>
    have htext : (s ++ b) ++ '|' :: '|' :: (b' ++ t) = s ++ ((b ++ '|' :: '|' :: b') ++ t) := by simp
    rw [htext]
    exact ihs.join iht _

/-! ## Parsing texts -/

/-- Conditions in which no operator and no bracket occurs. -/
def Plain (conds : List (List Char)) : Prop := ∀ w ∈ conds, ∀ c ∈ w, c ∉ ['&', '|', '!', '(']

variable {conds : List (List Char)} {fuel : ℕ}

theorem Plain.notMem (h : Plain conds) (hx : x ∈ ['&', '|', '!', '(']) (hs : x ∈ s) : s ∉ conds :=
  fun hmem => h s hmem x hs hx

theorem parseSimpleExpr_operand (hs : s ∉ conds) (hor : splitLast '|' s = none) (hand : splitLast '&' s = none) :
    parseSimpleExpr conds (fuel + 1) s =
      if s.head? = some '!' then (parseSimpleExpr conds fuel (trim s.tail)).map .not
      else if 2 ≤ s.length ∧ s.head? = some '(' ∧ s.getLast? = some ')' then
        parseSimpleExpr conds fuel (trim s.tail.dropLast)
      else some (.var s) := by
  rw [parseSimpleExpr, if_neg (mt any_eq_iff.mp hs), hor, hand]

/-- The blanks around a text do not matter where it is put together. -/
def Fits (k : Shape) (b b' : List Char) : Prop := k = .joined ∨ (k = .negated ∧ b = []) ∨ (b = [] ∧ b' = [])

theorem Writes.parse_eq (hconds : Plain conds) (h : Writes n k f s) : ∀ (fuel : ℕ) (b b' : List Char), Pads b →
    Pads b' → Fits k b b' → (b ++ s ++ b').length < fuel →
      parseSimpleExpr conds fuel (b ++ s ++ b') = some f.expr := by
  have hnil : Pads [] := List.forall_mem_nil _
  induction h with
  | @cond w h =>
    intro fuel b b' _ _ hfit hfuel
    obtain ⟨rfl, rfl⟩ : b = [] ∧ b' = [] := by simpa [Fits] using hfit
    obtain ⟨fuel, rfl⟩ : ∃ m, fuel = m + 1 := ⟨fuel - 1, by omega⟩
    rw [List.nil_append, List.append_nil]
    by_cases hmem : w ∈ conds
    · rw [parseSimpleExpr, if_pos (any_eq_iff.mpr hmem)]
      rfl
    · have hno : ∀ x : Char, x ∈ ['&', '|', '!', '(', ')'] → w.head? ≠ some x := by
        intro x hx hhead
        exact (h.first x hhead).1 hx
      rw [parseSimpleExpr_operand hmem (h.passes (Or.inr rfl)).splitLast_eq (h.passes (Or.inl rfl)).splitLast_eq,
        if_neg (hno '!' (by decide)), if_neg fun hall => hno '(' (by decide) hall.2.1]
      rfl
  | @bracket k f p s p' hp h hp' ih =>
    intro fuel b b' _ _ hfit hfuel
    obtain ⟨rfl, rfl⟩ : b = [] ∧ b' = [] := by simpa [Fits] using hfit
    obtain ⟨fuel, rfl⟩ : ∃ m, fuel = m + 1 := ⟨fuel - 1, by omega⟩
    have hpasses : ∀ c, c = '&' ∨ c = '|' → splitLast c ('(' :: (p ++ s ++ p' ++ [')'])) = none := fun c hc =>
      ((Writes.bracket hp h hp').passes (Or.inl ⟨hc, rfl⟩)).splitLast_eq
    have hlen : 2 ≤ ('(' :: (p ++ s ++ p' ++ [')'])).length := by
      simp
      omega
    have hlast : ('(' :: (p ++ s ++ p' ++ [')'])).getLast? = some ')' := by
      rw [← List.cons_append, List.getLast?_concat]
    rw [List.nil_append, List.append_nil,
      parseSimpleExpr_operand (hconds.notMem (x := '(') (by decide) List.mem_cons_self)
        (hpasses _ (Or.inr rfl)) (hpasses _ (Or.inl rfl)), if_neg (by simp), if_pos ⟨hlen, rfl, hlast⟩]
    have hinner : ('(' :: (p ++ s ++ p' ++ [')'])).tail.dropLast = p ++ s ++ p' := by simp
    rw [hinner, h.tight.trim_eq hp hp']
    have hrec := ih fuel [] [] hnil hnil (Or.inr (Or.inr ⟨rfl, rfl⟩)) (by simp at hfuel ⊢; omega)
    simpa using hrec
  | @not k f p s hp h ih =>
    intro fuel b b' _ hb' hfit hfuel
    obtain rfl : b = [] := by
      rcases hfit with hk | ⟨-, hb⟩ | ⟨hb, -⟩
      · cases hk
      · exact hb
      · exact hb
    obtain ⟨fuel, rfl⟩ : ∃ m, fuel = m + 1 := ⟨fuel - 1, by omega⟩
    have hpasses : ∀ c, c = '&' ∨ c = '|' → splitLast c ('!' :: (p ++ s) ++ b') = none := by
      intro c hc
      have hpad : isPad c = false := by rcases hc with rfl | rfl <;> rfl
      exact (((Writes.not hp h).passes (Or.inl ⟨hc, rfl⟩)).append (hb'.passes hpad)).splitLast_eq
    have hhead : ('!' :: (p ++ s) ++ b').head? = some '!' := rfl
    have hmem : '!' :: (p ++ s) ++ b' ∉ conds := hconds.notMem (x := '!') (by decide) (by simp)
    rw [List.nil_append,
      parseSimpleExpr_operand hmem
        (hpasses _ (Or.inr rfl)) (hpasses _ (Or.inl rfl)), if_pos hhead]
    have hinner : ('!' :: (p ++ s) ++ b').tail = p ++ s ++ b' := rfl
    have hrec := ih fuel [] [] hnil hnil (Or.inr (Or.inr ⟨rfl, rfl⟩)) (by simp at hfuel ⊢; omega)
    rw [List.nil_append, List.append_nil] at hrec
    rw [hinner, h.tight.trim_eq hp hb', hrec]
    rfl
  | operand _ ih => exact ih
  | conjunction _ ih => exact ih
  | @and k k' f g s p p' t hs hp hp' ht ihs iht =>
    intro fuel b b' hb hb' _ hfuel
    obtain ⟨fuel, rfl⟩ : ∃ m, fuel = m + 1 := ⟨fuel - 1, by omega⟩
    have htext : b ++ ((s ++ p) ++ '&' :: '&' :: (p' ++ t)) ++ b' = (b ++ s ++ p) ++ '&' :: '&' :: (p' ++ t ++ b') := by
      simp
    have hor : splitLast '|' ((b ++ s ++ p) ++ '&' :: '&' :: (p' ++ t ++ b')) = none := by
      rw [← htext]
      have hpass := (Writes.and hs hp hp' ht).passes (c := '|') (Or.inr ⟨rfl, rfl⟩)
      exact (((hb.passes rfl).append hpass).append (hb'.passes rfl)).splitLast_eq
    have hand : splitLast '&' ((b ++ s ++ p) ++ '&' :: '&' :: (p' ++ t ++ b')) = some (b ++ s ++ p, p' ++ t ++ b') := by
      have hpass := ht.passes (c := '&') (Or.inl ⟨Or.inl rfl, rfl⟩)
      exact (((hp'.passes rfl).append hpass).append (hb'.passes rfl)).splitLast_append (by decide) (by decide) _
    have hl := ihs fuel [] [] hnil hnil (Or.inr (Or.inr ⟨rfl, rfl⟩)) (by simp at hfuel ⊢; omega)
    have hr := iht fuel [] [] hnil hnil (Or.inr (Or.inr ⟨rfl, rfl⟩)) (by simp at hfuel ⊢; omega)
    rw [List.nil_append, List.append_nil] at hl hr
    rw [htext, parseSimpleExpr, if_neg (mt any_eq_iff.mp (hconds.notMem (x := '&') (by decide) (by simp))), hor, hand]
    dsimp only
    rw [hs.tight.trim_eq hb hp, ht.tight.trim_eq hp' hb', hl, hr]
    rfl
  | @or k k' f g s p p' t hs hp hp' ht ihs iht =>
    intro fuel b b' hb hb' _ hfuel
    obtain ⟨fuel, rfl⟩ : ∃ m, fuel = m + 1 := ⟨fuel - 1, by omega⟩
    have htext : b ++ ((s ++ p) ++ '|' :: '|' :: (p' ++ t)) ++ b' = (b ++ s ++ p) ++ '|' :: '|' :: (p' ++ t ++ b') := by
      simp
    have hor : splitLast '|' ((b ++ s ++ p) ++ '|' :: '|' :: (p' ++ t ++ b')) = some (b ++ s ++ p, p' ++ t ++ b') := by
      have hpass := ht.passes (c := '|') (Or.inr ⟨rfl, rfl⟩)
      exact (((hp'.passes rfl).append hpass).append (hb'.passes rfl)).splitLast_append (by decide) (by decide) _
    have hl := ihs fuel [] [] hnil hnil (Or.inr (Or.inr ⟨rfl, rfl⟩)) (by simp at hfuel ⊢; omega)
    have hr := iht fuel [] [] hnil hnil (Or.inr (Or.inr ⟨rfl, rfl⟩)) (by simp at hfuel ⊢; omega)
    rw [List.nil_append, List.append_nil] at hl hr
    rw [htext, parseSimpleExpr, if_neg (mt any_eq_iff.mp (hconds.notMem (x := '|') (by decide) (by simp))), hor]
    dsimp only
    rw [hs.tight.trim_eq hb hp, ht.tight.trim_eq hp' hb', hl, hr]
    rfl

theorem Writes.to_operand (h : Writes n k f s) (hk : k ≠ .joined) : Writes 2 k f s := by
  induction h with
  | cond h => exact .cond h
  | bracket hb h hb' => exact .bracket hb h hb'
  | not hb h => exact .not hb h
  | operand h _ => exact h
  | conjunction _ ih => exact ih hk
  | and => exact absurd rfl hk
  | or => exact absurd rfl hk

theorem Writes.head_of_closed (h : Writes n .closed f s) : s.head? ≠ some '!' := by
  generalize hk : Shape.closed = k at h
  induction h with
  | cond h => exact fun hhead => (h.first '!' hhead).1 (by decide)
  | bracket => simp
  | not => cases hk
  | operand _ ih => exact ih hk
  | conjunction _ ih => exact ih hk
  | and => cases hk
  | or => cases hk

/-- A text with blanks where nothing takes them off is taken for a variable. -/
theorem Writes.parse_unfit (h : Writes n k f s) (hb : Pads b) (hb' : Pads b') (hfit : ¬ Fits k b b') :
    parseSimpleExpr conds (fuel + 1) (b ++ s ++ b') = some (.var (b ++ s ++ b')) := by
  have hk : k ≠ .joined := fun hk => hfit (Or.inl hk)
  by_cases hmem : b ++ s ++ b' ∈ conds
  · rw [parseSimpleExpr, if_pos (any_eq_iff.mpr hmem)]
  · have hpasses : ∀ c, c = '&' ∨ c = '|' → splitLast c (b ++ s ++ b') = none := by
      intro c hc
      have hpad : isPad c = false := by rcases hc with rfl | rfl <;> rfl
      have hs := (h.to_operand hk).passes (c := c) (Or.inl ⟨hc, rfl⟩)
      exact (((hb.passes hpad).append hs).append (hb'.passes hpad)).splitLast_eq
    rw [parseSimpleExpr_operand hmem (hpasses _ (Or.inr rfl)) (hpasses _ (Or.inl rfl))]
    cases b with
    | cons x b =>
      -- the first character is a blank
      have hx : x = ' ' ∨ x = '\t' := pad_cases (hb x List.mem_cons_self)
      have hno : ∀ y : Char, y = '!' ∨ y = '(' → (x :: b ++ s ++ b').head? ≠ some y := by
        intro y hy
        rcases hx with rfl | rfl <;> rcases hy with rfl | rfl <;> simp
      rw [if_neg (hno '!' (Or.inl rfl)), if_neg fun hall => hno '(' (Or.inr rfl) hall.2.1]
    | nil =>
      obtain rfl : k = .closed := by
        cases k with
        | joined => exact absurd rfl hk
        | negated => exact absurd (Or.inr (Or.inl ⟨rfl, rfl⟩)) hfit
        | closed => rfl
      have hne : b' ≠ [] := fun hnil => hfit (Or.inr (Or.inr ⟨rfl, hnil⟩))
      have hhead : ([] ++ s ++ b').head? ≠ some '!' := by
        rw [List.nil_append, List.head?_append_of_ne_nil _ h.tight.nonempty]
        exact h.head_of_closed
      have hlast : ([] ++ s ++ b').getLast? ≠ some ')' := by
        rw [List.getLast?_append_of_ne_nil _ hne]
        intro hclose
        exact absurd (hb' _ (List.mem_of_getLast? hclose)) (by decide)
      rw [if_neg hhead, if_neg fun hall => hlast hall.2.2]

/-! ## The value of a text -/

/-- `env`: the values of the conditions. -/
def envOf (conds : List (List Char)) (ρ : List Char → Bool) (w : List Char) : Option Bool :=
  if conds.any fun cond => cond = w then some (ρ w) else none

theorem envOf_of_mem (h : w ∈ conds) (ρ : List Char → Bool) : envOf conds ρ w = some (ρ w) :=
  if_pos (any_eq_iff.mpr h)

theorem envOf_of_notMem (h : w ∉ conds) (ρ : List Char → Bool) : envOf conds ρ w = none :=
  if_neg (mt any_eq_iff.mp h)

structure IsIdentifier (w : List Char) : Prop where
  nonempty : w ≠ []
  chars : ∀ c ∈ w, Ir.isIdentChar c = true

theorem plain_of_identifiers (h : ∀ w ∈ conds, IsIdentifier w) : Plain conds := by
  intro w hw c hc hop
  have hchar := (h w hw).chars c hc
  simp only [List.mem_cons, List.not_mem_nil, or_false] at hop
  rcases hop with rfl | rfl | rfl | rfl <;> exact absurd hchar (by decide)

theorem Formula.eval_congr {ρ ρ' : List Char → Bool} (h : ∀ w ∈ f.conds, ρ w = ρ' w) : f.eval ρ = f.eval ρ' := by
  induction f with
  | cond w => exact h w (List.mem_singleton_self w)
  | not f ih => simp only [eval, ih h]
  | and f g ihf ihg =>
    simp only [eval, ihf fun w hw => h w (List.mem_append_left _ hw), ihg fun w hw => h w (List.mem_append_right _ hw)]
  | or f g ihf ihg =>
    simp only [eval, ihf fun w hw => h w (List.mem_append_left _ hw), ihg fun w hw => h w (List.mem_append_right _ hw)]

theorem Formula.evaluate_envOf (h : ∀ w ∈ f.conds, w ∈ conds) (ρ : List Char → Bool) :
    f.expr.evaluate (envOf conds ρ) = f.eval ρ := by
  rw [Formula.evaluate_expr]
  apply Formula.eval_congr
  intro w hw
  rw [envOf_of_mem (h w hw)]
  rfl

/-- **The parser respects the grammar.** It ends on every text of a formula, and its expression has the value of the
formula if and only if the blanks around the text do not matter, or the formula is never true. -/
theorem parse_respects_grammar_iff (hconds : ∀ w ∈ conds, IsIdentifier w) (h : Writes 0 k f s)
    (hcond : ∀ w ∈ f.conds, w ∈ conds) (hb : Pads b) (hb' : Pads b') :
    ∃ e, (∀ fuel, (b ++ s ++ b').length < fuel → parseSimpleExpr conds fuel (b ++ s ++ b') = some e) ∧
      ((∀ ρ, e.evaluate (envOf conds ρ) = f.eval ρ) ↔ (Fits k b b' ∨ ∀ ρ, f.eval ρ = false)) := by
  by_cases hfit : Fits k b b'
  · refine ⟨f.expr, fun fuel hfuel => h.parse_eq (plain_of_identifiers hconds) fuel b b' hb hb' hfit hfuel, ?_⟩
    exact iff_of_true (Formula.evaluate_envOf hcond) (Or.inl hfit)
  · refine ⟨.var (b ++ s ++ b'), ?_, ?_⟩
    · intro fuel hfuel
      obtain ⟨fuel, rfl⟩ : ∃ m, fuel = m + 1 := ⟨fuel - 1, by omega⟩
      exact h.parse_unfit hb hb' hfit
    · -- the text has a blank, so it is no condition
      have hmem : b ++ s ++ b' ∉ conds := by
        intro hmem
        have hpad : ∃ x ∈ b ++ b', isPad x = true := by
          cases hall : b ++ b' with
          | nil =>
            obtain ⟨rfl, rfl⟩ := List.append_eq_nil_iff.mp hall
            exact absurd (Or.inr (Or.inr ⟨rfl, rfl⟩)) hfit
          | cons x l =>
            have hx : x ∈ b ++ b' := by rw [hall]; exact List.mem_cons_self
            exact ⟨x, List.mem_cons_self, (List.mem_append.mp hx).elim (hb x) (hb' x)⟩
        obtain ⟨x, hx, hblank⟩ := hpad
        have hx' : x ∈ b ++ s ++ b' := by
          rcases List.mem_append.mp hx with hx | hx <;> simp [hx]
        have hchar := (hconds _ hmem).chars x hx'
        rcases pad_cases hblank with rfl | rfl <;> exact absurd hchar (by decide)
      have hvalue : ∀ ρ, BoolExpr.evaluate (envOf conds ρ) (.var (b ++ s ++ b')) = false := by
        intro ρ
        rw [BoolExpr.evaluate, envOf_of_notMem hmem]
        rfl
      simp only [hvalue, hfit, false_or]
      exact forall_congr' fun ρ => eq_comm

theorem isCond_letter : IsCond ['a'] := by
  refine ⟨by decide, by decide, fun c hc => ?_, fun c hc => ?_⟩
  · obtain rfl : 'a' = c := Option.some.inj hc
    decide
  · obtain rfl : 'a' = c := Option.some.inj hc
    decide

/-- The negation of a condition is read with its value. -/
theorem parse_respects_negation :
    (∀ w ∈ [['a']], IsIdentifier w) ∧ Writes 0 .negated (.not (.cond ['a'])) ['!', 'a'] ∧
      ∃ e, (∀ fuel, 2 < fuel → parseSimpleExpr [['a']] fuel ['!', 'a'] = some e) ∧
        ((∀ ρ, e.evaluate (envOf [['a']] ρ) = (Formula.not (.cond ['a'])).eval ρ) ↔
          (Fits .negated [] [] ∨ ∀ ρ, (Formula.not (.cond ['a'])).eval ρ = false)) := by
  have hconds : ∀ w ∈ [['a']], IsIdentifier w := by
    intro w hw
    obtain rfl := List.mem_singleton.mp hw
    exact ⟨by decide, by decide⟩
  have hwrites : Writes 0 .negated (.not (.cond ['a'])) ['!', 'a'] :=
    .conjunction (.operand (.not (b := []) (List.forall_mem_nil _) (.cond isCond_letter)))
  have hpads : Pads [] := List.forall_mem_nil _
  exact ⟨hconds, hwrites, parse_respects_grammar_iff hconds hwrites (by simp [Formula.conds]) hpads hpads⟩

/-- A blank before a condition stays, and the condition is not recognised. -/
theorem blank_before_condition : Writes 0 .closed (.cond ['a']) ['a'] ∧ ∀ fuel, 2 < fuel →
    ∃ e, parseSimpleExpr [['a']] fuel ([' '] ++ ['a'] ++ []) = some e ∧
      ¬ ∀ ρ, e.evaluate (envOf [['a']] ρ) = (Formula.cond ['a']).eval ρ := by
  have hwrites : Writes 0 .closed (.cond ['a']) ['a'] := .conjunction (.operand (.cond isCond_letter))
  refine ⟨hwrites, ?_⟩
  intro fuel hfuel
  obtain ⟨fuel, rfl⟩ : ∃ m, fuel = m + 1 := ⟨fuel - 1, by omega⟩
  refine ⟨_, hwrites.parse_unfit (by unfold Pads; decide) (List.forall_mem_nil _) (by simp [Fits]), ?_⟩
  intro h
  exact absurd (h fun _ => true) (by decide)

end Fsmc.Verification
