/-
# Fsmc.Frontend.PrintedGuards — what a printed guard means.

A structured guard is printed with brackets around a disjunction under a conjunction and around a compound
guard under a negation. Whether brackets are needed is decided by the kind of the child alone, so an atomic
guard whose text has operators of its own is printed without them.
-/
import Fsmc.Cpp.Text
import Fsmc.Ir.GraphOps
import Mathlib.Data.List.Basic

namespace Fsmc.Frontend.PrintedGuards

open Fsmc.Cpp Fsmc.Ir

/-! ## Tokens -/

/-- A token of a guard text. -/
inductive Tok where
  | word (s : String)
  | op (s : String)
  | opening
  | closing
  deriving DecidableEq, Repr

/-- A character of an operator. -/
def isSymbol (c : Char) : Bool := c ∈ ['!', '&', '|', '^', '=', '<', '>', '+', '-', '*', '/', '%', ',']

/-- The operators of a run of their characters, the longest first. -/
def munch : List Char → List Tok
  | [] => []
  | [c] => [.op (String.ofList [c])]
  | c :: d :: cs =>
    if [c, d] ∈ ["&&", "||", "==", "!=", "<=", ">=", "<<", ">>"].map String.toList then
      .op (String.ofList [c, d]) :: munch cs
    else .op (String.ofList [c]) :: munch (d :: cs)

/-- The tokens of a run of characters of one kind. -/
def flush (run : List Char) : List Tok :=
  match run with
  | [] => []
  | c :: _ => if isSymbol c then munch run else [.word (String.ofList run)]

/-- The token that a character is by itself; blanks are none. -/
def delimiter (c : Char) : Option (List Tok) :=
  if isSpace c then some [] else if c = '(' then some [.opening] else if c = ')' then some [.closing] else none

/-- Whether a character goes on with a run. -/
def goesOn (run : List Char) (c : Char) : Bool :=
  match run with
  | [] => true
  | d :: _ => isSymbol d = isSymbol c

/-- The tokens of a text, with the run read so far. -/
def lexFrom : List Char → List Char → List Tok
  | [], run => flush run
  | c :: cs, run =>
    match delimiter c with
    | some toks => flush run ++ toks ++ lexFrom cs []
    | none => if goesOn run c then lexFrom cs (run ++ [c]) else flush run ++ lexFrom cs [c]

def lex (text : String) : List Tok := lexFrom text.toList []

theorem lexFrom_delimiter {c : Char} {toks : List Tok} (hc : delimiter c = some toks) (cs run : List Char) :
    lexFrom (c :: cs) run = flush run ++ (toks ++ lexFrom cs []) := by
  rw [lexFrom, hc]
  exact List.append_assoc _ _ _

theorem lexFrom_run {c : Char} (hc : delimiter c = none) (cs run : List Char) : lexFrom (c :: cs) run =
    if goesOn run c then lexFrom cs (run ++ [c]) else flush run ++ lexFrom cs [c] := by
  rw [lexFrom, hc]

theorem lexFrom_append {c : Char} {toks : List Tok} (hc : delimiter c = some toks) (ys : List Char) :
    ∀ xs run, lexFrom (xs ++ c :: ys) run = lexFrom xs run ++ (toks ++ lexFrom ys [])
  | [], run => lexFrom_delimiter hc ys run
  | x :: xs, run => by
    rw [List.cons_append]
    cases hx : delimiter x with
    | some toks' =>
      rw [lexFrom_delimiter hx, lexFrom_delimiter hx, lexFrom_append hc ys xs]
      simp only [List.append_assoc]
    | none =>
      rw [lexFrom_run hx, lexFrom_run hx, lexFrom_append hc ys xs, lexFrom_append hc ys xs]
      split
      · rfl
      · exact (List.append_assoc _ _ _).symm

/-! ## Expressions -/

inductive Expr where
  | word (s : String)
  | call (f : String) (args : Option Expr)
  | unary (op : String) (e : Expr)
  | binary (op : String) (l r : Expr)

/-- How the two languages write the connectives. -/
inductive Lang where
  | cpp | smv
  deriving DecidableEq, Repr

/-- The disjunction of a language. -/
def Lang.or : Lang → String
  | cpp => "||"
  | smv => "|"

/-- The conjunction of a language. -/
def Lang.and : Lang → String
  | cpp => "&&"
  | smv => "&"

/-- The binary operators by how strongly they bind, the comma first. -/
def Lang.ops (L : Lang) : ℕ → List String
  | 0 => [","]
  | 1 => [L.or]
  | 2 => [L.and]
  | 3 => if L = cpp then ["|"] else []
  | 4 => ["^"]
  | 5 => if L = cpp then ["&"] else []
  | 6 => ["==", "!=", "="]
  | 7 => ["<", ">", "<=", ">="]
  | 8 => ["<<", ">>"]
  | 9 => ["+", "-"]
  | 10 => ["*", "/", "%"]
  | _ => []

/-- What words, calls and operators other than the connectives mean. -/
structure Meaning where
  word : String → ℤ
  call : String → Option ℤ → ℤ
  unary : String → ℤ → ℤ
  binary : String → ℤ → ℤ → ℤ

/-- The number that stands for a truth value. -/
def ofBool (b : Bool) : ℤ := if b then 1 else 0

/-- The value of an expression. -/
def eval (L : Lang) (M : Meaning) : Expr → ℤ
  | .word s => M.word s
  | .call f none => M.call f none
  | .call f (some e) => M.call f (some (eval L M e))
  | .unary op e => if op = "!" then ofBool (eval L M e = 0) else M.unary op (eval L M e)
  | .binary op l r =>
    if op = L.or then ofBool (eval L M l ≠ 0 || eval L M r ≠ 0)
    else if op = L.and then ofBool (eval L M l ≠ 0 && eval L M r ≠ 0)
    else M.binary op (eval L M l) (eval L M r)

/-- The Boolean function of an expression. -/
def truth (L : Lang) (M : Meaning) (e : Expr) : Bool := eval L M e ≠ 0

/-! ## Reading -/

variable (L : Lang)

/-- Tokens are read as an expression up to the tokens that are left: an expression whose operators bind at
least as strongly as a level, or what follows an expression that was read at that level. Levels 11 and 12
are those of prefix operators and of operands. -/
inductive Reads : Option Expr → ℕ → List Tok → Expr → List Tok → Prop
  | word {w : String} {r : List Tok} (h : ∀ r', r ≠ .opening :: r') : Reads none 12 (.word w :: r) (.word w) r
  | call₀ {w : String} {r : List Tok} :
      Reads none 12 (.word w :: .opening :: .closing :: r) (.call w none) r
  | call {w : String} {ts r : List Tok} {e : Expr} (h : ∀ r', ts ≠ .closing :: r')
      (he : Reads none 0 ts e (.closing :: r)) : Reads none 12 (.word w :: .opening :: ts) (.call w (some e)) r
  | bracket {ts r : List Tok} {e : Expr} (he : Reads none 0 ts e (.closing :: r)) :
      Reads none 12 (.opening :: ts) e r
  | operand {ts r : List Tok} {e : Expr} (h : ∀ s r', ts ≠ .op s :: r') (he : Reads none 12 ts e r) :
      Reads none 11 ts e r
  | prefixed {s : String} {ts r : List Tok} {e : Expr} (h : s ∈ ["!", "-"]) (he : Reads none 11 ts e r) :
      Reads none 11 (.op s :: ts) (.unary s e) r
  | chain {n : ℕ} {ts r r' : List Tok} {e e' : Expr} (h : n < 11) (he : Reads none (n + 1) ts e r)
      (hrest : Reads (some e) n r e' r') : Reads none n ts e' r'
  | stop {n : ℕ} {r : List Tok} {e : Expr} (h : ∀ s r', r = .op s :: r' → s ∉ L.ops n) :
      Reads (some e) n r e r
  | more {n : ℕ} {s : String} {ts r r' : List Tok} {e e' e'' : Expr} (h : s ∈ L.ops n)
      (he : Reads none (n + 1) ts e' r) (hrest : Reads (some (.binary s e e')) n r e'' r') :
      Reads (some e) n (.op s :: ts) e'' r'

/-- A text is read as an expression, all of it. -/
def ReadsAs (n : ℕ) (text : String) (e : Expr) : Prop := Reads L none n (lex text) e []

variable {L}

variable {m : Option Expr} {e : Expr}

theorem Reads.unique {n : ℕ} {ts r r' : List Tok} {e e' : Expr}
    (h : Reads L m n ts e r) (h' : Reads L m n ts e' r') : e = e' ∧ r = r' := by
  induction h generalizing e' r' with
  | word hr =>
    cases h' with
    | word _ => exact ⟨rfl, rfl⟩
    | call₀ => exact absurd rfl (hr _)
    | call _ _ => exact absurd rfl (hr _)
    | chain hn _ _ => omega
  | call₀ =>
    cases h' with
    | word hr => exact absurd rfl (hr _)
    | call₀ => exact ⟨rfl, rfl⟩
    | call hts _ => exact absurd rfl (hts _)
    | chain hn _ _ => omega
  | call hts _ ih =>
    cases h' with
    | word hr => exact absurd rfl (hr _)
    | call₀ => exact absurd rfl (hts _)
    | call _ he =>
      obtain ⟨rfl, heq⟩ := ih he
      exact ⟨rfl, (List.cons.inj heq).2⟩
    | chain hn _ _ => omega
  | bracket _ ih =>
    cases h' with
    | bracket he =>
      obtain ⟨rfl, heq⟩ := ih he
      exact ⟨rfl, (List.cons.inj heq).2⟩
    | chain hn _ _ => omega
  | operand hts _ ih =>
    cases h' with
    | operand _ he => exact ih he
    | prefixed _ _ => exact absurd rfl (hts _ _)
    | chain hn _ _ => omega
  | prefixed _ _ ih =>
    cases h' with
    | operand hts _ => exact absurd rfl (hts _ _)
    | prefixed _ he =>
      obtain ⟨rfl, rfl⟩ := ih he
      exact ⟨rfl, rfl⟩
    | chain hn _ _ => omega
  | chain hn _ _ ih ihrest =>
    cases h' with
    | chain _ he hrest =>
      obtain ⟨rfl, rfl⟩ := ih he
      exact ihrest hrest
    | _ => omega
  | stop hr =>
    cases h' with
    | stop _ => exact ⟨rfl, rfl⟩
    | more hs _ _ => exact absurd hs (hr _ _ rfl)
  | more hs _ _ ih ihrest =>
    cases h' with
    | stop hr => exact absurd hs (hr _ _ rfl)
    | more _ he hrest =>
      obtain ⟨rfl, rfl⟩ := ih he
      exact ihrest hrest

/-! ## Reading on -/

/-- Tokens before which an expression of a level ends. -/
def Ends (L : Lang) (n : ℕ) (rest : List Tok) : Prop :=
  (∀ r, rest ≠ .opening :: r) ∧ ∀ s r, rest = .op s :: r → ∀ m, n ≤ m → s ∉ L.ops m

theorem Ends.mono {n m : ℕ} {rest : List Tok} (h : Ends L n rest) (hnm : n ≤ m) : Ends L m rest :=
  ⟨h.1, fun s r hr k hk => h.2 s r hr k (hnm.trans hk)⟩

theorem ends_closing (n : ℕ) (r : List Tok) : Ends L n (.closing :: r) :=
  ⟨fun _ h => by simp at h, fun _ _ h => by simp at h⟩

theorem Reads.nil {n : ℕ} {e e' : Expr} {r : List Tok} (h : Reads L (some e) n [] e' r) : r = [] := by
  cases h
  rfl

theorem not_reads_nil {n : ℕ} {ts r : List Tok} (h : Reads L m n ts e r) (hm : m = none) (hts : ts = []) : False := by
  induction h with
  | operand _ _ ih => exact ih hm hts
  | chain _ _ _ ih _ => exact ih hm hts
  | stop _ => exact absurd hm (by simp)
  | more _ _ _ => exact absurd hm (by simp)
  | _ => exact absurd hts (by simp)

theorem Reads.append {n : ℕ} {ts r : List Tok} (h : Reads L m n ts e r)
    (rest : List Tok) (hends : r = [] → Ends L n rest) : Reads L m n (ts ++ rest) e (r ++ rest) := by
  induction h with
  | @word w r hr =>
    refine .word fun r' heq => ?_
    cases r with
    | nil => exact (hends rfl).1 r' heq
    | cons t r => exact hr r (by rw [(List.cons.inj heq).1])
  | call₀ => exact .call₀
  | @call w ts r e hts he ih =>
    refine .call (fun r' heq => ?_) (ih fun h => absurd h (by simp))
    cases ts with
    | nil => exact not_reads_nil he rfl rfl
    | cons t ts => exact hts ts (by rw [(List.cons.inj heq).1])
  | bracket _ ih => exact .bracket (ih fun h => absurd h (by simp))
  | @operand ts r e hts he ih =>
    refine .operand (fun s r' heq => ?_) (ih fun h => (hends h).mono (by omega))
    cases ts with
    | nil => exact not_reads_nil he rfl rfl
    | cons t ts => exact hts s ts (by rw [(List.cons.inj heq).1])
  | prefixed hs _ ih => exact .prefixed hs (ih hends)
  | @chain n ts r r' e e' hn he hrest ih ihrest =>
    -- What the operand leaves is empty only if nothing is read behind it.
    refine .chain hn (ih fun h => ?_) (ihrest hends)
    subst h
    exact (hends hrest.nil).mono (Nat.le_succ n)
  | @stop n r e hr =>
    refine .stop fun s r' heq => ?_
    cases r with
    | nil => exact (hends rfl).2 s r' heq n le_rfl
    | cons t r => exact hr s r (by rw [(List.cons.inj heq).1])
  | @more n s ts r r' e e' e'' hs he hrest ih ihrest =>
    refine .more hs (ih fun h => ?_) (ihrest hends)
    subst h
    exact (hends hrest.nil).mono (Nat.le_succ n)

/-! ## Composing what is read -/

theorem Reads.lower {n k : ℕ} {ts : List Tok} (h : Reads L none n ts e []) (hkn : k ≤ n)
    (hn : n ≤ 11) : Reads L none k ts e [] := by
  induction n, hkn using Nat.le_induction with
  | base => exact h
  | succ n _ ih => exact ih (.chain (by omega) h (.stop fun _ _ h => by simp at h)) (by omega)

theorem Reads.bracketed {ts : List Tok} (h : Reads L none 1 ts e []) :
    Reads L none 11 (.opening :: (ts ++ [.closing])) e [] := by
  have hcomma : Reads L none 0 ts e [] := h.lower (Nat.zero_le 1) (by omega)
  refine .operand (fun _ _ h => by simp at h) (.bracket ?_)
  exact hcomma.append [.closing] fun _ => ends_closing 0 []

theorem ops_of_le {n : ℕ} (h : 11 ≤ n) : L.ops n = [] := by
  obtain ⟨k, rfl⟩ := Nat.exists_eq_add_of_le h
  rw [Nat.add_comm]
  rfl

theorem ops_disjoint {s : String} {n m : ℕ} (hn : s ∈ L.ops n) (hm : s ∈ L.ops m) : n = m := by
  have hlt : ∀ {k : ℕ}, s ∈ L.ops k → k < 11 := by
    intro k hk
    by_contra hge
    rw [ops_of_le (Nat.not_lt.mp hge)] at hk
    exact List.not_mem_nil hk
  have hall : ∀ n < 11, ∀ m < 11, ∀ s ∈ L.ops n, s ∈ L.ops m → n = m := by
    cases L <;> decide
  exact hall n (hlt hn) m (hlt hm) s hn hm

theorem ends_op {s : String} {n : ℕ} (hs : s ∈ L.ops n) (r : List Tok) : Ends L (n + 1) (.op s :: r) := by
  refine ⟨fun _ h => by simp at h, fun s' r' h m hm hs' => ?_⟩
  obtain ⟨hop, -⟩ := List.cons.inj h
  obtain rfl := Tok.op.inj hop
  have := ops_disjoint hs hs'
  omega

theorem Reads.loop_append {n : ℕ} {s : String} {ts B r : List Tok} {a : Expr}
    (h : Reads L m n ts a r) {x c : Expr} (hm : m = some x) (hr : r = []) (hs : s ∈ L.ops n)
    (hB : Reads L (some a) n (.op s :: B) c []) : Reads L (some x) n (ts ++ .op s :: B) c [] := by
  induction h generalizing x with
  | stop _ =>
    obtain rfl := Option.some.inj hm
    subst hr
    exact hB
  | more hs' he _ _ ihrest =>
    obtain rfl := Option.some.inj hm
    refine .more hs' (he.append (.op s :: B) fun _ => ends_op hs B) (ihrest rfl hr hs hB)
  | _ => exact absurd hm (by simp)

theorem Reads.infixed {n : ℕ} {s : String} {A B : List Tok} {a b : Expr} (hn : n < 11) (hs : s ∈ L.ops n)
    (hA : Reads L none (n + 1) A a []) (hB : Reads L none (n + 1) B b []) :
    Reads L none n (A ++ .op s :: B) (.binary s a b) [] :=
  .chain hn (hA.append (.op s :: B) fun _ => ends_op hs B) (.more hs hB (.stop fun _ _ h => by simp at h))

section Connective

variable {n : ℕ} {s : String} {f : Bool → Bool → Bool} (hs : L.ops n = [s])
  (hassoc : ∀ a b c, f (f a b) c = f a (f b c))
  (hf : ∀ M x y, truth L M (.binary s x y) = f (truth L M x) (truth L M y))

include hs hassoc hf

/-- A chain of one associative connective can be read on from an expression that stands for another one in
front of it. -/
theorem Reads.regroup {m : Option Expr} {ts r : List Tok} {b : Expr} (h : Reads L m n ts b r)
    {x y a : Expr} (hm : m = some y) (hx : ∀ M, truth L M x = f (truth L M a) (truth L M y)) :
    ∃ c, Reads L (some x) n ts c r ∧ ∀ M, truth L M c = f (truth L M a) (truth L M b) := by
  induction h generalizing x y with
  | stop hr =>
    obtain rfl := Option.some.inj hm
    exact ⟨x, .stop hr, hx⟩
  | @more n s' ts r r' e e' e'' hs' he _ _ ihrest =>
    obtain rfl := Option.some.inj hm
    obtain rfl : s' = s := by
      rw [hs] at hs'
      exact List.mem_singleton.mp hs'
    obtain ⟨c, hc, htruth⟩ := ihrest hs rfl (x := .binary s' x e') fun M => by
      rw [hf, hf, hx, hassoc]
    exact ⟨c, .more hs' he hc, htruth⟩
  | _ => exact absurd hm (by simp)

/-- Two expressions of the level of an associative connective can be connected without brackets. -/
theorem Reads.join (hn : n < 11) {A B : List Tok} {a b : Expr} (hA : Reads L none n A a [])
    (hB : Reads L none n B b []) :
    ∃ c, Reads L none n (A ++ .op s :: B) c [] ∧ ∀ M, truth L M c = f (truth L M a) (truth L M b) := by
  have hmem : s ∈ L.ops n := by rw [hs]; exact List.mem_cons_self
  cases hA with
  | chain _ heA hrestA =>
    cases hB with
    | chain _ heB hrestB =>
      -- The right chain is read on from the whole left one, which is associated the other way.
      obtain ⟨c, hc, htruth⟩ := hrestB.regroup hs hassoc hf rfl (a := a) fun M => hf M a _
      refine ⟨c, ?_, htruth⟩
      exact .chain hn (heA.append (.op s :: B) fun _ => ends_op hmem B)
        (hrestA.loop_append rfl rfl hmem (.more hmem heB hc))
    | _ => omega
  | _ => omega

end Connective

/-! ## Printing -/

mutual

/-- `to_cpp` and `to_smv`, which differ in how they write the connectives. -/
def print (L : Lang) : GuardAstNode → String
  | ⟨.none, expression, _⟩ => expression
  | ⟨.not, expression, []⟩ => "!" ++ expression
  | ⟨.not, _, child :: _⟩ => "!" ++ (if child.op ≠ .none then "(" ++ print L child ++ ")" else print L child)
  | ⟨.and, _, children⟩ => joinPrint L (" " ++ L.and ++ " ") true children
  | ⟨.or, _, children⟩ => joinPrint L (" " ++ L.or ++ " ") false children

/-- The loop over the children. -/
def joinPrint (L : Lang) (opStr : String) (underAnd : Bool) : List GuardAstNode → String
  | [] => ""
  | child :: rest =>
    (if underAnd && child.op = .or then "(" ++ print L child ++ ")" else print L child) ++
      (if rest.isEmpty then "" else opStr ++ joinPrint L opStr underAnd rest)

end

def toSmv : GuardAstNode → String := print .smv

mutual

theorem print_cpp : ∀ g : GuardAstNode, print .cpp g = g.toCpp
  | ⟨.none, _, _⟩ => rfl
  | ⟨.not, _, []⟩ => rfl
  | ⟨.not, _, child :: _⟩ => by
    unfold print GuardAstNode.toCpp
    rw [print_cpp child]
  | ⟨.and, _, children⟩ => by
    unfold print GuardAstNode.toCpp
    exact joinPrint_cpp " && " true children
  | ⟨.or, _, children⟩ => by
    unfold print GuardAstNode.toCpp
    exact joinPrint_cpp " || " false children

theorem joinPrint_cpp (opStr : String) (underAnd : Bool) : ∀ children : List GuardAstNode,
    joinPrint .cpp opStr underAnd children = joinCpp opStr underAnd children
  | [] => rfl
  | child :: rest => by
    unfold joinPrint joinCpp
    rw [print_cpp child, joinPrint_cpp opStr underAnd rest]

end

/-! ## What a guard means -/

open Classical in
/-- A text that is read as an expression which is true. -/
noncomputable def textHolds (L : Lang) (M : Meaning) (text : String) : Bool :=
  decide (∃ e, ReadsAs L 1 text e ∧ truth L M e = true)

mutual

/-- The Boolean function of a structured guard. -/
noncomputable def holds (L : Lang) (M : Meaning) : GuardAstNode → Bool
  | ⟨.none, expression, _⟩ => textHolds L M expression
  | ⟨.not, expression, []⟩ => !textHolds L M expression
  | ⟨.not, _, child :: _⟩ => !holds L M child
  | ⟨.and, _, children⟩ => allHold L M children
  | ⟨.or, _, children⟩ => anyHolds L M children

/-- All guards hold. -/
noncomputable def allHold (L : Lang) (M : Meaning) : List GuardAstNode → Bool
  | [] => true
  | child :: rest => holds L M child && allHold L M rest

/-- Some guard holds. -/
noncomputable def anyHolds (L : Lang) (M : Meaning) : List GuardAstNode → Bool
  | [] => false
  | child :: rest => holds L M child || anyHolds L M rest

end

/-- The text that is printed can be read, and means what the guard means. -/
def KeepsMeaning (L : Lang) (g : GuardAstNode) : Prop :=
  (∃ e, ReadsAs L 1 (print L g) e) ∧ ∀ M, textHolds L M (print L g) = holds L M g

/-- A text that is an operand of a negation as it stands. -/
def IsOperand (L : Lang) (text : String) : Prop :=
  text.toList.head? ≠ some '=' ∧ ∃ e, ReadsAs L 11 text e

mutual

/-- The texts of the atomic guards bind at least as strongly as the place they are printed at needs. -/
def Fits (L : Lang) : ℕ → GuardAstNode → Prop
  | n, ⟨.none, expression, _⟩ => ∃ e, ReadsAs L n expression e
  | _, ⟨.not, expression, []⟩ => IsOperand L expression
  | _, ⟨.not, _, child :: _⟩ => if child.op = .none then IsOperand L child.expression else Fits L 1 child
  | _, ⟨.and, _, []⟩ => False
  | n, ⟨.and, _, [child]⟩ => if child.op = .or then Fits L 1 child else Fits L n child
  | n, ⟨.and, _, child :: child' :: rest⟩ => n ≤ 2 ∧ AllFit L true 2 (child :: child' :: rest)
  | _, ⟨.or, _, []⟩ => False
  | n, ⟨.or, _, [child]⟩ => Fits L n child
  | n, ⟨.or, _, child :: child' :: rest⟩ => n ≤ 1 ∧ AllFit L false 1 (child :: child' :: rest)

/-- The same for the children of a connective. -/
def AllFit (L : Lang) : Bool → ℕ → List GuardAstNode → Prop
  | _, _, [] => True
  | underAnd, n, child :: rest =>
    (if underAnd && child.op = .or then Fits L 1 child else Fits L n child) ∧ AllFit L underAnd n rest

end

/-! ## What is printed is read back -/

theorem textHolds_eq {M : Meaning} {n : ℕ} {text : String} (h : ReadsAs L n text e)
    (hlow : 1 ≤ n) (hhigh : n ≤ 11) : textHolds L M text = truth L M e := by
  have hone : ReadsAs L 1 text e := h.lower hlow hhigh
  have hiff : textHolds L M text = true ↔ truth L M e = true := by
    unfold textHolds
    refine (@decide_eq_true_iff _ (Classical.propDecidable _)).trans ?_
    constructor
    · rintro ⟨e', he', htruth⟩
      rw [← (he'.unique hone).1]
      exact htruth
    · exact fun h => ⟨e, hone, h⟩
  exact Bool.eq_iff_iff.mpr hiff

theorem lex_bracket (text : String) : lex ("(" ++ text ++ ")") = Tok.opening :: (lex text ++ [Tok.closing]) := by
  have hparen : delimiter ')' = some [.closing] := rfl
  have hclose := lexFrom_append hparen [] text.toList []
  unfold lex
  rw [String.toList_append, String.toList_append]
  show lexFrom ('(' :: (text.toList ++ [')'])) [] = _
  show .opening :: lexFrom (text.toList ++ [')']) [] = _
  rw [hclose]
  rfl

theorem lex_connective (L : Lang) (underAnd : Bool) (a b : String) :
    lex (a ++ ((" " ++ (if underAnd then L.and else L.or) ++ " ") ++ b)) =
      lex a ++ .op (if underAnd then L.and else L.or) :: lex b := by
  have hspace : delimiter ' ' = some [] := rfl
  have hblank := fun rest => lexFrom_append hspace rest a.toList []
  unfold lex
  rw [String.toList_append, String.toList_append]
  cases L <;> cases underAnd
  · show lexFrom (a.toList ++ ' ' :: '|' :: '|' :: ' ' :: b.toList) [] = _
    rw [hblank]
    rfl
  · show lexFrom (a.toList ++ ' ' :: '&' :: '&' :: ' ' :: b.toList) [] = _
    rw [hblank]
    rfl
  · show lexFrom (a.toList ++ ' ' :: '|' :: ' ' :: b.toList) [] = _
    rw [hblank]
    rfl
  · show lexFrom (a.toList ++ ' ' :: '&' :: ' ' :: b.toList) [] = _
    rw [hblank]
    rfl

theorem munch_bang {c : Char} (hc : c ≠ '=') (run : List Char) :
    munch ('!' :: c :: run) = .op "!" :: munch (c :: run) := by
  rw [munch, if_neg (by simp [hc])]

/-- An operator in front of a text is a token of its own, unless the text begins with a character that would
go on with it. -/
theorem lexFrom_symbols (pre : List Char) (bad : Option Char) {tok : Tok}
    (hpre : ∃ c cs, pre = c :: cs ∧ isSymbol c = true)
    (hflush : ∀ run, (∀ c ∈ run.head?, isSymbol c = true ∧ some c ≠ bad) → flush (pre ++ run) = tok :: flush run) :
    ∀ (text run : List Char), (run = [] → ∀ c ∈ text.head?, some c ≠ bad) →
      (∀ c ∈ run.head?, isSymbol c = true ∧ some c ≠ bad) →
        lexFrom text (pre ++ run) = tok :: lexFrom text run := by
  intro text
  induction text with
  | nil => exact fun run _ hrun => hflush run hrun
  | cons x xs ih =>
    intro run hhead hrun
    cases hx : delimiter x with
    | some toks => rw [lexFrom_delimiter hx, lexFrom_delimiter hx, hflush run hrun, List.cons_append]
    | none =>
      rw [lexFrom_run hx, lexFrom_run hx]
      -- The run goes on with an operator character just as it does without the operator in front.
      have hon : goesOn (pre ++ run) x = isSymbol x := by
        obtain ⟨c, cs, rfl, hc⟩ := hpre
        show decide (isSymbol c = isSymbol x) = _
        rw [hc]
        cases isSymbol x <;> rfl
      by_cases hsymbol : isSymbol x = true
      · have hgoes : goesOn run x = true := by
          cases run with
          | nil => rfl
          | cons c run => exact decide_eq_true ((hrun c rfl).1.trans hsymbol.symm)
        rw [hon, if_pos hsymbol, if_pos hgoes, List.append_assoc]
        refine ih (run ++ [x]) (fun h => absurd h (by simp)) fun c hc => ?_
        cases run with
        | nil =>
          obtain rfl : x = c := by simpa using hc
          exact ⟨hsymbol, hhead rfl x rfl⟩
        | cons d run => exact hrun c hc
      · rw [hon, if_neg hsymbol, hflush run hrun, List.cons_append]
        cases run with
        | nil => rfl
        | cons c run =>
          have hstops : ¬ goesOn (c :: run) x = true := by
            intro h
            have heq : isSymbol c = isSymbol x := of_decide_eq_true h
            exact hsymbol (heq ▸ (hrun c rfl).1)
          rw [if_neg hstops]

theorem lexFrom_bang {text : List Char} (h : text.head? ≠ some '=') :
    lexFrom text ['!'] = .op "!" :: lexFrom text [] := by
  refine lexFrom_symbols ['!'] (some '=') ⟨'!', [], rfl, rfl⟩ ?_ text [] ?_ (by simp)
  · intro run hrun
    cases run with
    | nil => rfl
    | cons c run =>
      obtain ⟨hsymbol, hc⟩ := hrun c rfl
      show munch ('!' :: c :: run) = _
      have hrest : flush (c :: run) = munch (c :: run) := if_pos hsymbol
      rw [munch_bang (fun heq => hc (by rw [heq])), hrest]
  · intro _ c hc heq
    rw [Option.mem_def] at hc
    exact h (hc.trans heq)

theorem lexFrom_double {a : Char} (ha : a = '&' ∨ a = '|') (text : List Char) :
    lexFrom text [a, a] = .op (String.ofList [a, a]) :: lexFrom text [] := by
  have hsymbol : isSymbol a = true := by rcases ha with rfl | rfl <;> rfl
  refine lexFrom_symbols [a, a] none ⟨a, [a], rfl, hsymbol⟩ ?_ text []
    (fun _ _ _ => by simp) (by simp)
  intro run hrun
  have hmunch : munch (a :: a :: run) = .op (String.ofList [a, a]) :: munch run := by
    rw [munch, if_pos (by rcases ha with rfl | rfl <;> decide)]
  have hrest : flush run = munch run := by
    cases run with
    | nil => rfl
    | cons c run => exact if_pos (hrun c rfl).1
  show (if isSymbol a then munch (a :: a :: run) else _) = _
  rw [if_pos hsymbol, hmunch, hrest]

/-- A connective of two characters behind a text that does not end with an operator. -/
theorem lexFrom_append_double {a : Char} (ha : a = '&' ∨ a = '|') (ys : List Char) :
    ∀ xs run : List Char, (xs = [] → ∀ c ∈ run.head?, isSymbol c = false) →
      (∀ c ∈ xs.getLast?, isSymbol c = false) →
        lexFrom (xs ++ a :: a :: ys) run =
          lexFrom xs run ++ .op (String.ofList [a, a]) :: lexFrom ys []
  | [], run, hrun, _ => by
    have hnone : delimiter a = none := by rcases ha with rfl | rfl <;> rfl
    have hsecond : lexFrom (a :: ys) [a] = .op (String.ofList [a, a]) :: lexFrom ys [] := by
      have hon : goesOn [a] a = true := decide_eq_true rfl
      rw [lexFrom_run hnone, if_pos hon]
      exact lexFrom_double ha ys
    rw [List.nil_append, lexFrom_run hnone]
    cases run with
    | nil =>
      have hon : goesOn [] a = true := rfl
      rw [if_pos hon]
      exact hsecond
    | cons c run =>
      have hc := hrun rfl c rfl
      have hstops : ¬ goesOn (c :: run) a = true := by
        intro h
        have heq : isSymbol c = isSymbol a := of_decide_eq_true h
        rcases ha with rfl | rfl <;> exact absurd (hc.symm.trans heq) (by decide)
      rw [if_neg hstops, hsecond]
      rfl
  | x :: xs, run, hrun, hlast => by
    have hlastxs : ∀ c ∈ xs.getLast?, isSymbol c = false := by
      cases xs with
      | nil => simp
      | cons y ys => simpa using hlast
    have hone : xs = [] → isSymbol x = false := by
      rintro rfl
      exact hlast x rfl
    rw [List.cons_append]
    cases hx : delimiter x with
    | some toks =>
      rw [lexFrom_delimiter hx, lexFrom_delimiter hx,
        lexFrom_append_double ha ys xs [] (fun _ => by simp) hlastxs]
      simp only [List.append_assoc]
    | none =>
      rw [lexFrom_run hx, lexFrom_run hx]
      by_cases hon : goesOn run x = true
      · rw [if_pos hon, if_pos hon]
        refine lexFrom_append_double ha ys xs (run ++ [x]) (fun hxs c hc => ?_) hlastxs
        cases run with
        | nil =>
          obtain rfl : x = c := by simpa using hc
          exact hone hxs
        | cons d run =>
          have heq : isSymbol d = isSymbol x := of_decide_eq_true hon
          obtain rfl : d = c := by simpa using hc
          exact heq.trans (hone hxs)
      · rw [if_neg hon, if_neg hon]
        rw [lexFrom_append_double ha ys xs [x] (fun hxs c hc => ?_) hlastxs, List.append_assoc]
        obtain rfl : x = c := by simpa using hc
        exact hone hxs

theorem truth_not (M : Meaning) (e : Expr) : truth L M (.unary "!" e) = !truth L M e := by
  unfold truth
  rw [eval, if_pos rfl]
  by_cases h : eval L M e = 0 <;> simp [h, ofBool]

/-- The connective over the children of a guard, and how it combines truth values. -/
def connect (underAnd a b : Bool) : Bool := if underAnd then a && b else a || b

theorem truth_connective (L : Lang) (underAnd : Bool) (M : Meaning) (x y : Expr) :
    truth L M (.binary (if underAnd then L.and else L.or) x y) =
      connect underAnd (truth L M x) (truth L M y) := by
  have hbool : ∀ b : Bool, decide (ofBool b ≠ 0) = b := by decide
  unfold truth
  rw [eval]
  cases L <;> cases underAnd <;> exact hbool _

theorem connect_assoc (underAnd a b c : Bool) :
    connect underAnd (connect underAnd a b) c = connect underAnd a (connect underAnd b c) := by
  revert underAnd a b c
  decide

/-- The level of a connective. -/
def levelOf (underAnd : Bool) : ℕ := if underAnd then 2 else 1

theorem ops_levelOf (L : Lang) (underAnd : Bool) : L.ops (levelOf underAnd) = [if underAnd then L.and else L.or] := by
  cases underAnd <;> rfl

theorem ReadsAs.connect {underAnd : Bool} {a b : String} {x y : Expr}
    (hx : ReadsAs L (levelOf underAnd) a x) (hy : ReadsAs L (levelOf underAnd) b y) :
    ∃ c, ReadsAs L (levelOf underAnd)
        (a ++ ((" " ++ (if underAnd then L.and else L.or) ++ " ") ++ b)) c ∧
      ∀ M, truth L M c = connect underAnd (truth L M x) (truth L M y) := by
  unfold ReadsAs
  rw [lex_connective]
  exact Reads.join (ops_levelOf L underAnd) (connect_assoc underAnd) (truth_connective L underAnd)
    (by cases underAnd <;> decide) hx hy

theorem ReadsAs.bracketed {text : String} (h : ReadsAs L 1 text e) : ReadsAs L 11 ("(" ++ text ++ ")") e := by
  unfold ReadsAs
  rw [lex_bracket]
  exact Reads.bracketed h

theorem ReadsAs.negated {text : String} (h : ReadsAs L 11 text e)
    (hhead : text.toList.head? ≠ some '=') : ReadsAs L 11 ("!" ++ text) (.unary "!" e) := by
  unfold ReadsAs lex
  rw [String.toList_append]
  show Reads L none 11 (lexFrom text.toList ['!']) _ []
  rw [lexFrom_bang hhead]
  exact .prefixed (by simp) h

theorem ReadsAs.child {underAnd : Bool} {n : ℕ} {g : GuardAstNode} (hn : n ≤ 11)
    (hfits : if underAnd && g.op = .or then Fits L 1 g else Fits L n g)
    (hreads : ∀ k, Fits L k g → 1 ≤ k → k ≤ 11 →
      ∃ e, ReadsAs L k (print L g) e ∧ ∀ M, truth L M e = holds L M g) (hlow : 1 ≤ n) :
    ∃ e, ReadsAs L n (if underAnd && g.op = .or then "(" ++ print L g ++ ")" else print L g) e ∧
      ∀ M, truth L M e = holds L M g := by
  split at hfits
  · next hor =>
      obtain ⟨e, he, htruth⟩ := hreads 1 hfits le_rfl (by omega)
      rw [if_pos hor]
      exact ⟨e, he.bracketed.lower hn le_rfl, htruth⟩
  · next hor =>
      rw [if_neg hor]
      exact hreads n hfits hlow hn

/-- What the children of a connective mean together. -/
noncomputable def together (L : Lang) (M : Meaning) (underAnd : Bool) (gs : List GuardAstNode) : Bool :=
  if underAnd then allHold L M gs else anyHolds L M gs

theorem together_singleton (M : Meaning) (underAnd : Bool) (g : GuardAstNode) :
    together L M underAnd [g] = holds L M g := by
  cases underAnd
  · exact Bool.or_false _
  · exact Bool.and_true _

theorem together_cons (M : Meaning) (underAnd : Bool) (g : GuardAstNode) (gs : List GuardAstNode) :
    together L M underAnd (g :: gs) = connect underAnd (holds L M g) (together L M underAnd gs) := by
  cases underAnd <;> rfl

theorem print_of_none {g : GuardAstNode} (h : g.op = .none) : print L g = g.expression := by
  obtain ⟨op, expression, children⟩ := g
  obtain rfl : op = .none := h
  rw [print]

theorem holds_of_none {g : GuardAstNode} (h : g.op = .none) (M : Meaning) :
    holds L M g = textHolds L M g.expression := by
  obtain ⟨op, expression, children⟩ := g
  obtain rfl : op = .none := h
  rw [holds]

theorem print_and (text : String) (gs : List GuardAstNode) : print L ⟨.and, text, gs⟩ =
      joinPrint L (" " ++ (if true then L.and else L.or) ++ " ") true gs := by
  rw [print, if_pos rfl]

theorem print_or (text : String) (gs : List GuardAstNode) : print L ⟨.or, text, gs⟩ =
      joinPrint L (" " ++ (if false then L.and else L.or) ++ " ") false gs := by
  rw [print, if_neg Bool.false_ne_true]

theorem holds_and (text : String) (gs : List GuardAstNode) (M : Meaning) :
    holds L M ⟨.and, text, gs⟩ = together L M true gs := by
  rw [holds, together, if_pos rfl]

theorem holds_or (text : String) (gs : List GuardAstNode) (M : Meaning) :
    holds L M ⟨.or, text, gs⟩ = together L M false gs := by
  rw [holds, together, if_neg Bool.false_ne_true]

theorem joinPrint_singleton (opStr : String) (underAnd : Bool) (g : GuardAstNode) : joinPrint L opStr underAnd [g] =
      if underAnd && g.op = .or then "(" ++ print L g ++ ")" else print L g := by
  rw [joinPrint]
  exact String.append_empty

theorem joinPrint_cons_cons (opStr : String) (underAnd : Bool) (g g' : GuardAstNode)
    (gs : List GuardAstNode) : joinPrint L opStr underAnd (g :: g' :: gs) =
      (if underAnd && g.op = .or then "(" ++ print L g ++ ")" else print L g) ++
        (opStr ++ joinPrint L opStr underAnd (g' :: gs)) := by
  rw [joinPrint]
  rfl

mutual

theorem reads_print : ∀ (g : GuardAstNode) (n : ℕ), Fits L n g → 1 ≤ n → n ≤ 11 →
    ∃ e, ReadsAs L n (print L g) e ∧ ∀ M, truth L M e = holds L M g
  | ⟨.none, expression, _⟩, n, hfits, hlow, hhigh => by
    obtain ⟨e, he⟩ := hfits
    exact ⟨e, he, fun M => (textHolds_eq he hlow hhigh).symm⟩
  | ⟨.not, expression, []⟩, n, hfits, _, hhigh => by
    rw [Fits] at hfits
    obtain ⟨hhead, e, he⟩ := hfits
    rw [print]
    refine ⟨.unary "!" e, (he.negated hhead).lower hhigh le_rfl, fun M => ?_⟩
    rw [holds, truth_not, textHolds_eq he (by omega) le_rfl]
  | ⟨.not, _, child :: _⟩, n, hfits, _, hhigh => by
    rw [Fits] at hfits
    rw [print]
    by_cases hop : child.op = .none
    · -- An atomic guard is printed as it stands.
      rw [if_pos hop] at hfits
      obtain ⟨hhead, e, he⟩ := hfits
      rw [if_neg (not_not.mpr hop), print_of_none hop]
      refine ⟨.unary "!" e, (he.negated hhead).lower hhigh le_rfl, fun M => ?_⟩
      rw [holds, truth_not, holds_of_none hop, textHolds_eq he (by omega) le_rfl]
    · rw [if_neg hop] at hfits
      obtain ⟨e, he, htruth⟩ := reads_print child 1 hfits le_rfl (by omega)
      rw [if_pos hop]
      refine ⟨.unary "!" e, (he.bracketed.negated ?_).lower hhigh le_rfl, fun M => ?_⟩
      · rw [String.toList_append, String.toList_append]
        exact fun h => absurd (Option.some.inj h) (by decide)
      · rw [holds, truth_not, htruth]
  | ⟨.and, _, []⟩, n, hfits, _, _ => by
    rw [Fits] at hfits
    exact hfits.elim
  | ⟨.and, _, [child]⟩, n, hfits, hlow, hhigh => by
    rw [Fits] at hfits
    obtain ⟨e, he, htruth⟩ := @ReadsAs.child L true n child hhigh (by simpa using hfits)
      (reads_print child) hlow
    refine ⟨e, ?_, fun M => ?_⟩
    · rw [print_and, joinPrint_singleton]
      exact he
    · rw [holds_and, together_singleton, htruth]
  | ⟨.and, _, child :: child' :: rest⟩, n, hfits, hlow, hhigh => by
    rw [Fits] at hfits
    obtain ⟨e, he, htruth⟩ := reads_join true (child :: child' :: rest) hfits.2 (by simp)
    refine ⟨e, ?_, fun M => ?_⟩
    · rw [print_and]
      exact he.lower hfits.1 (by decide)
    · rw [holds_and, htruth]
  | ⟨.or, _, []⟩, n, hfits, _, _ => by
    rw [Fits] at hfits
    exact hfits.elim
  | ⟨.or, _, [child]⟩, n, hfits, hlow, hhigh => by
    rw [Fits] at hfits
    obtain ⟨e, he, htruth⟩ := @ReadsAs.child L false n child hhigh (by simpa using hfits)
      (reads_print child) hlow
    refine ⟨e, ?_, fun M => ?_⟩
    · rw [print_or, joinPrint_singleton]
      exact he
    · rw [holds_or, together_singleton, htruth]
  | ⟨.or, _, child :: child' :: rest⟩, n, hfits, hlow, hhigh => by
    rw [Fits] at hfits
    obtain ⟨e, he, htruth⟩ := reads_join false (child :: child' :: rest) hfits.2 (by simp)
    refine ⟨e, ?_, fun M => ?_⟩
    · rw [print_or]
      exact he.lower hfits.1 (by decide)
    · rw [holds_or, htruth]

theorem reads_join (underAnd : Bool) : ∀ gs : List GuardAstNode, AllFit L underAnd (levelOf underAnd) gs →
    gs ≠ [] → ∃ e, ReadsAs L (levelOf underAnd)
        (joinPrint L (" " ++ (if underAnd then L.and else L.or) ++ " ") underAnd gs) e ∧
      ∀ M, truth L M e = together L M underAnd gs
  | [], _, hne => absurd rfl hne
  | [g], hall, _ => by
    rw [AllFit] at hall
    obtain ⟨e, he, htruth⟩ := @ReadsAs.child L underAnd (levelOf underAnd) g
      (by cases underAnd <;> decide) hall.1 (reads_print g) (by cases underAnd <;> decide)
    refine ⟨e, ?_, fun M => ?_⟩
    · rw [joinPrint_singleton]
      exact he
    · rw [together_singleton, htruth]
  | g :: g' :: gs, hall, _ => by
    rw [AllFit] at hall
    obtain ⟨e, he, htruth⟩ := @ReadsAs.child L underAnd (levelOf underAnd) g
      (by cases underAnd <;> decide) hall.1 (reads_print g) (by cases underAnd <;> decide)
    obtain ⟨e', he', htruth'⟩ := reads_join underAnd (g' :: gs) hall.2 (by simp)
    obtain ⟨c, hc, htruthc⟩ := he.connect he'
    refine ⟨c, ?_, fun M => ?_⟩
    · rw [joinPrint_cons_cons]
      exact hc
    · rw [together_cons, htruthc, htruth, htruth']

end

theorem readsAs_word {text w : String} (h : lex text = [.word w]) : ReadsAs L 11 text (.word w) := by
  unfold ReadsAs
  rw [h]
  exact .operand (fun _ _ h => by simp at h) (.word fun _ h => by simp at h)

theorem readsAs_letter (conjunctive : Bool) {w : String} (h : w ∈ ["a", "b", "c"]) :
    ReadsAs .cpp (levelOf conjunctive) w (.word w) := by
  have hlex : ∀ w ∈ ["a", "b", "c"], lex w = [.word w] := by decide +kernel
  have hlevel : levelOf conjunctive ≤ 11 := by cases conjunctive <;> decide
  exact (readsAs_word (hlex w h)).lower hlevel le_rfl

def atomic (text : String) : GuardAstNode := { expression := text }

theorem readsAs_or : ∃ e, ReadsAs .cpp 1 "a || b" e ∧
    ∀ M, truth .cpp M e = (truth .cpp M (.word "a") || truth .cpp M (.word "b")) := by
  have ha : ReadsAs .cpp (levelOf false) "a" (.word "a") := readsAs_letter false (by decide)
  have hb : ReadsAs .cpp (levelOf false) "b" (.word "b") := readsAs_letter false (by decide)
  have htext : "a || b" = "a" ++ ((" " ++ (if false then Lang.cpp.and else Lang.cpp.or) ++ " ") ++ "b") := by
    decide +kernel
  rw [htext]
  exact ha.connect hb

end Fsmc.Frontend.PrintedGuards
