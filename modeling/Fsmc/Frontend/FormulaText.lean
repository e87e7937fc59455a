/-
# Fsmc.Frontend.FormulaText — formulas that come back from their text.

Operands of binary operators are enclosed where the parser needs it. The operands between the brackets of a path
formula are not, so an operator that binds less than the until between them takes its place, and one behind it takes
its operand. The weight of a formula is a bound for what can be read from its tokens.
-/
import Mathlib.Algebra.Ring.Nat
import Fsmc.Frontend.FormulaTokens

namespace Fsmc.Frontend.LtlParser

open Fsmc.Cpp Fsmc.Ir

/-! ## Formulas that come back -/

/-- A formula is a part of another one, or the same. -/
inductive Within (n : PropertyAstNode) : PropertyAstNode → Prop
  | refl : Within n n
  | child {op : TemporalOp} {atom : String} {children : List PropertyAstNode} {c : PropertyAstNode} :
      c ∈ children → Within n c → Within n (.mk op atom children)

/-- Operators that bind less than an until. -/
def looseOperators : List TemporalOp := [.and, .or, .implies, .equivalent]

/-- A path formula with two operands, which need no parentheses around them. -/
def PlainPath (n : PropertyAstNode) : Prop :=
  n.op = .eu ∨ n.op = .au → ∃ a b, n.children = [a, b] ∧ a.op ∉ looseOperators ∧
    b.op ∉ .until :: .release :: looseOperators

/-- All path formulas in a formula are plain. -/
def PlainPaths (ast : PropertyAstNode) : Prop := ∀ n, Within n ast → PlainPath n

/-- A formula that has a text, and in which all path formulas are plain. -/
def Survives (ast : PropertyAstNode) : Prop := ast ≠ .ofAtom "" ∧ PlainPaths ast

theorem plainPaths_mk {op : TemporalOp} {atom : String} {children : List PropertyAstNode} :
    PlainPaths (.mk op atom children) ↔ PlainPath (.mk op atom children) ∧ ∀ c ∈ children, PlainPaths c := by
  constructor
  · exact fun h => ⟨h _ .refl, fun c hc n hn => h n (.child hc hn)⟩
  · rintro ⟨hself, hchildren⟩ n hn
    cases hn with
    | refl => exact hself
    | child hc hn => exact hchildren _ hc n hn

/-! ## Weights -/

/-- The weight of an operator with some number of operands. -/
def operatorWeight (op : TemporalOp) (operands : ℕ) : ℕ :=
  if op = .atom then 0 else if op = .eu ∨ op = .au then if operands = 2 then 3 else 2 else 1

mutual

def weight : PropertyAstNode → ℕ
  | .mk op _ children => operatorWeight op children.length + weights children

/-- The weights of several formulas. -/
def weights : List PropertyAstNode → ℕ
  | [] => 0
  | c :: cs => weight c + weights cs

end

/-- The weight that a token can give to a formula. -/
def tokenWeight (t : Token) : ℕ :=
  match t.type with
  | .atom | .rBracket | .lParen | .rParen | .end => 0
  | .lBracket => 2
  | .eu | .au => 3
  | _ => 1

def tokensWeight (tokens : List Token) : ℕ := (tokens.map tokenWeight).sum

@[simp] theorem tokensWeight_nil : tokensWeight [] = 0 := rfl

@[simp] theorem tokensWeight_cons (t : Token) (tokens : List Token) :
    tokensWeight (t :: tokens) = tokenWeight t + tokensWeight tokens := by simp [tokensWeight]

@[simp] theorem tokensWeight_append (l r : List Token) : tokensWeight (l ++ r) = tokensWeight l + tokensWeight r := by
  simp [tokensWeight]

theorem weight_ofAtom (s : String) : weight (.ofAtom s) = 0 := rfl

theorem weight_unary (op : TemporalOp) (a : PropertyAstNode) :
    weight (.unary op a) = operatorWeight op 1 + weight a := rfl

theorem weight_binary (op : TemporalOp) (a b : PropertyAstNode) :
    weight (.binary op a b) = operatorWeight op 2 + (weight a + weight b) := rfl

theorem prefixOperator_weight {t : Token} {op : TemporalOp} (h : prefixOperator t.type = some op) :
    tokenWeight t = 1 ∧ operatorWeight op 1 = 1 := by
  unfold tokenWeight
  cases htype : t.type <;> rw [htype] at h <;>
    first | (cases h; done) | (obtain rfl := Option.some.inj h; exact ⟨rfl, rfl⟩)

theorem operator_weight {level : Level} {t : Token} {op : TemporalOp} (h : level.operator t.type = some op) :
    operatorWeight op 2 = tokenWeight t := by
  unfold tokenWeight
  cases level <;> cases htype : t.type <;> rw [htype] at h <;>
    first | (cases h; done) | (obtain rfl := Option.some.inj h; rfl)

theorem weight_pathFormula {t : Token} {op : TemporalOp} (h : pathQuantifier t = some op) (a : PropertyAstNode) :
    weight (pathFormula op a) ≤ 2 + weight a := by
  have hop : op = .eu ∨ op = .au := by
    unfold pathQuantifier at h
    split at h
    · exact Or.inl (Option.some.inj h).symm
    · split at h
      · exact Or.inr (Option.some.inj h).symm
      · cases h
  have hone : operatorWeight op 1 = 2 := by rcases hop with rfl | rfl <;> rfl
  have htwo : operatorWeight op 2 = 3 := by rcases hop with rfl | rfl <;> rfl
  obtain ⟨inner, s, children⟩ := a
  unfold pathFormula
  split
  · next c d rest hinner hchildren =>
      obtain rfl : inner = .until := hinner
      obtain rfl : children = c :: d :: rest := hchildren
      show weight (.binary op c d) ≤ 2 + (1 + (weight c + (weight d + weights rest)))
      rw [weight_binary, htwo]
      omega
  · show weight (.unary op _) ≤ _
    rw [weight_unary, hone]

/-! ## What the parser makes -/

/-- A formula that the printer can write. -/
def Printable (a : PropertyAstNode) : Prop := ∃ tokens, Printed a tokens

theorem Printed.atomText {a : PropertyAstNode} {tokens : List Token} (h : Printed a tokens) (ha : a.op = .atom) :
    ∃ s, a = .ofAtom s ∧ AtomText s tokens := by
  cases h with
  | atom h => exact ⟨_, rfl, h⟩
  | notAtom _ => cases ha
  | prefixed hop _ _ =>
    obtain rfl : _ = TemporalOp.atom := ha
    cases hop
  | infixed hop _ _ =>
    obtain rfl : _ = TemporalOp.atom := ha
    cases hop
  | path hop _ _ =>
    obtain rfl : _ = TemporalOp.atom := ha
    cases hop
  | broken hop _ =>
    obtain rfl : _ = TemporalOp.atom := ha
    cases hop

theorem Printable.prefixed {t : Token} {op : TemporalOp} {a : PropertyAstNode} (hop : prefixOperator t.type = some op)
    (ha : Printable a) : Printable (.unary op a) := by
  obtain ⟨tokens, ha⟩ := ha
  by_cases hatom : op = .not ∧ a.op = .atom
  · obtain ⟨rfl, hatom⟩ := hatom
    obtain ⟨s, rfl, htext⟩ := ha.atomText hatom
    exact ⟨_, .notAtom htext⟩
  · have hnot : op = .not → a.op ≠ .atom := fun h h' => hatom ⟨h, h'⟩
    cases htype : t.type <;> rw [htype] at hop <;>
      first | (cases hop; done) | (obtain rfl := Option.some.inj hop; exact ⟨_, .prefixed rfl hnot ha⟩)

theorem Printable.binary {t : Token} {level : Level} {op : TemporalOp} {a b : PropertyAstNode}
    (hop : level.operator t.type = some op) (ha : Printable a) (hb : Printable b) : Printable (.binary op a b) := by
  obtain ⟨l, ha⟩ := ha
  obtain ⟨r, hb⟩ := hb
  cases level <;> cases htype : t.type <;> rw [htype] at hop <;>
    first
    | (cases hop; done)
    | (obtain rfl := Option.some.inj hop; exact ⟨_, .infixed rfl ha hb⟩)
    | (obtain rfl := Option.some.inj hop; exact ⟨_, .path rfl ha hb⟩)

theorem Printable.pathFormula {t : Token} {op : TemporalOp} {a : PropertyAstNode} (hop : pathQuantifier t = some op)
    (ha : Printable a) : Printable (pathFormula op a) := by
  have htoken : ∃ t, pathToken op = some t := by
    unfold pathQuantifier at hop
    split at hop
    · obtain rfl := Option.some.inj hop
      exact ⟨_, rfl⟩
    · split at hop
      · obtain rfl := Option.some.inj hop
        exact ⟨_, rfl⟩
      · cases hop
  obtain ⟨t', ht'⟩ := htoken
  obtain ⟨tokens, ha⟩ := ha
  unfold LtlParser.pathFormula
  split
  · next c d rest hinner hchildren =>
      cases ha with
      | atom _ => cases hinner
      | notAtom _ => cases hinner
      | prefixed _ _ _ => cases hchildren
      | infixed _ hc hd =>
        cases hchildren
        exact ⟨_, .path ht' hc hd⟩
      | path _ hc hd =>
        cases hchildren
        exact ⟨_, .path ht' hc hd⟩
      | broken _ _ => cases hchildren
  · exact ⟨_, .broken ht' ha⟩

def Words (tokens : List Token) : Prop := ∀ t ∈ tokens, t.type = .atom → IsWord t

theorem Words.tail {t : Token} {tokens : List Token} (h : Words (t :: tokens)) : Words tokens :=
  fun u hu => h u (List.mem_cons_of_mem _ hu)

theorem Words.suffix {rest tokens : List Token} (h : Words tokens) (hrest : rest <:+ tokens) : Words rest :=
  fun u hu => h u (hrest.subset hu)

/-- A call with some weight to its formula makes one that can be printed, from the tokens that it takes. -/
structure Fits (given : ℕ) (tokens : List Token) (r : PropertyAstNode × List Token) : Prop where
  printable : Printable r.1
  suffix : r.2 <:+ tokens
  bound : weight r.1 + tokensWeight r.2 ≤ given + tokensWeight tokens

theorem skip_suffix (type : TokenType) (tokens : List Token) : skip type tokens <:+ tokens := by
  cases tokens with
  | nil => exact List.suffix_refl _
  | cons t rest =>
    show (if t.type = type then rest else t :: rest) <:+ _
    split
    · exact List.suffix_cons _ _
    · exact List.suffix_refl _

theorem tokensWeight_le_of_suffix {rest tokens : List Token} (h : rest <:+ tokens) :
    tokensWeight rest ≤ tokensWeight tokens := by
  obtain ⟨front, rfl⟩ := h
  rw [tokensWeight_append]
  omega

theorem atomRun_spec (tokens : List Token) : (atomRun tokens).1 ++ (atomRun tokens).2 = tokens ∧
    ∀ u ∈ (atomRun tokens).1, u.type = .atom := by
  induction tokens with
  | nil => exact ⟨rfl, fun u hu => absurd hu List.not_mem_nil⟩
  | cons t rest ih =>
    unfold atomRun
    split
    · next ht =>
        refine ⟨congrArg (t :: ·) ih.1, fun u hu => ?_⟩
        rcases List.mem_cons.mp hu with rfl | hu
        · exact ht
        · exact ih.2 u hu
    · exact ⟨rfl, fun u hu => absurd hu List.not_mem_nil⟩

theorem fits_missing (tokens : List Token) : Fits 0 tokens (.ofAtom "", tokens) where
  printable := ⟨_, .atom .missing⟩
  suffix := List.suffix_refl _
  bound := by rw [weight_ofAtom]

theorem fits_of_fuel (n : ℕ) : (∀ level tokens r, Words tokens → parseAt n level tokens = some r → Fits 0 tokens r) ∧
    (∀ level left tokens r, Words tokens → Printable left → parseLoop n level left tokens = some r →
      Fits (weight left) tokens r) ∧
    (∀ tokens r, Words tokens → parsePrimary n tokens = some r → Fits 0 tokens r) := by
  induction n with
  | zero =>
    refine ⟨fun level tokens r _ h => ?_, fun _ _ tokens r _ _ h => ?_, fun tokens r _ h => ?_⟩
    · cases level <;> cases h
    · cases h
    · cases h
  | succ n ih =>
    obtain ⟨ihAt, ihLoop, ihPrimary⟩ := ih
    refine ⟨fun level tokens r hwords h => ?_, fun level left tokens r hwords hleft h => ?_,
      fun tokens r hwords h => ?_⟩
    · by_cases hloops : level.loops
      · rw [parseAt_loops hloops] at h
        obtain ⟨l, hl, hr⟩ := Option.bind_eq_some_iff.mp h
        have hfl := ihAt _ _ _ hwords hl
        have hfr := ihLoop _ _ _ _ (hwords.suffix hfl.suffix) hfl.printable hr
        have hboundl := hfl.bound
        have hboundr := hfr.bound
        exact ⟨hfr.printable, hfr.suffix.trans hfl.suffix, by omega⟩
      · cases level with
        | equivalence | or | and | untilRelease => exact absurd ⟨nofun, nofun⟩ hloops
        | implication =>
          rw [parseAt] at h
          obtain ⟨⟨left, rest⟩, hl, hr⟩ := Option.bind_eq_some_iff.mp h
          have hfl := ihAt _ _ _ hwords hl
          cases rest with
          | nil =>
            obtain rfl := Option.some.inj hr
            exact hfl
          | cons t rest =>
            dsimp only at hr
            split at hr
            · next ht =>
                obtain ⟨q, hq, rfl⟩ := Option.map_eq_some_iff.mp hr
                have hsuffix : rest <:+ tokens := (List.suffix_cons t rest).trans hfl.suffix
                have hfr := ihAt _ _ _ (hwords.suffix hsuffix) hq
                obtain ⟨lts, hlts⟩ := hfl.printable
                obtain ⟨rts, hrts⟩ := hfr.printable
                refine ⟨⟨_, .infixed rfl hlts hrts⟩, hfr.suffix.trans hsuffix, ?_⟩
                have hboundl := hfl.bound
                have hboundr := hfr.bound
                have hweight : tokenWeight t = 1 := by
                  unfold tokenWeight
                  rw [ht]
                rw [weight_binary]
                simp only [tokensWeight_cons, hweight, show operatorWeight .implies 2 = 1 from rfl] at *
                omega
            · obtain rfl := Option.some.inj hr
              exact hfl
        | unary =>
          cases tokens with
          | nil =>
            obtain rfl := Option.some.inj h
            exact fits_missing []
          | cons t rest =>
            unfold parseAt at h
            split at h
            · next op hop =>
                obtain ⟨q, hq, rfl⟩ := Option.map_eq_some_iff.mp h
                have hf := ihAt _ _ _ hwords.tail hq
                obtain ⟨htoken, hoperator⟩ := prefixOperator_weight hop
                refine ⟨.prefixed hop hf.printable, hf.suffix.trans (List.suffix_cons t rest), ?_⟩
                have hbound := hf.bound
                rw [weight_unary, hoperator, tokensWeight_cons, htoken]
                dsimp only
                omega
            · split at h
              · next op b inside hop =>
                  split at h
                  · next hb =>
                      obtain ⟨q, hq, rfl⟩ := Option.map_eq_some_iff.mp h
                      have hf := ihAt _ _ _ hwords.tail.tail hq
                      have hskip := skip_suffix .rBracket q.2
                      refine ⟨.pathFormula hop hf.printable, ?_, ?_⟩
                      · exact hskip.trans (hf.suffix.trans
                          ((List.suffix_cons b inside).trans (List.suffix_cons t _)))
                      · have hbound := hf.bound
                        have hformula := weight_pathFormula hop q.1
                        have hle := tokensWeight_le_of_suffix hskip
                        have hweight : tokenWeight b = 2 := by
                          unfold tokenWeight
                          rw [hb]
                        rw [tokensWeight_cons, tokensWeight_cons, hweight]
                        dsimp only
                        omega
                  · exact ihPrimary _ _ hwords h
              · exact ihPrimary _ _ hwords h
    · cases tokens with
      | nil =>
        obtain rfl := Option.some.inj h
        exact ⟨hleft, List.suffix_refl _, Nat.le_refl _⟩
      | cons t rest =>
        unfold parseLoop at h
        split at h
        · obtain rfl := Option.some.inj h
          exact ⟨hleft, List.suffix_refl _, Nat.le_refl _⟩
        · next op hop =>
            obtain ⟨b, hb, hr⟩ := Option.bind_eq_some_iff.mp h
            have hfb := ihAt _ _ _ hwords.tail hb
            have hfr := ihLoop _ _ _ _ (hwords.tail.suffix hfb.suffix) (.binary hop hleft hfb.printable) hr
            refine ⟨hfr.printable, hfr.suffix.trans (hfb.suffix.trans (List.suffix_cons t rest)), ?_⟩
            have hboundb := hfb.bound
            have hboundr := hfr.bound
            rw [weight_binary, operator_weight hop] at hboundr
            rw [tokensWeight_cons]
            omega
    · cases tokens with
      | nil =>
        obtain rfl := Option.some.inj h
        exact fits_missing []
      | cons t rest =>
        unfold parsePrimary at h
        split at h
        · obtain ⟨q, hq, rfl⟩ := Option.map_eq_some_iff.mp h
          have hf := ihAt _ _ _ hwords.tail hq
          have hskip := skip_suffix .rParen q.2
          refine ⟨hf.printable, hskip.trans (hf.suffix.trans (List.suffix_cons t rest)), ?_⟩
          have hbound := hf.bound
          have hle := tokensWeight_le_of_suffix hskip
          rw [tokensWeight_cons]
          dsimp only
          omega
        · split at h
          · next ht =>
              obtain rfl := Option.some.inj h
              obtain ⟨happend, hatoms⟩ := atomRun_spec rest
              have hsuffix : (atomRun rest).2 <:+ rest := ⟨_, happend⟩
              refine ⟨⟨_, .atom (.words fun u hu => ?_)⟩, hsuffix.trans (List.suffix_cons t rest), ?_⟩
              · rcases List.mem_cons.mp hu with rfl | hu
                · exact hwords u List.mem_cons_self ht
                · have hmem : u ∈ rest := happend ▸ List.mem_append_left _ hu
                  exact hwords.tail u hmem (hatoms u hu)
              · have hle := tokensWeight_le_of_suffix hsuffix
                rw [weight_ofAtom, tokensWeight_cons]
                dsimp only
                omega
          · obtain rfl := Option.some.inj h
            exact fits_missing (t :: rest)

/-! ## Reading what is printed -/

section Reading

variable {level level' : Level} {tokens l r xs ys : List Token} {t : Token} {op : TemporalOp}
  {a b ra rb n res x y : PropertyAstNode}

theorem ReadsAt.missing : ReadsAt .unary [] (.ofAtom "") := by
  refine .of_unary fun rest hrest => ⟨2, ?_⟩
  cases rest with
  | nil => rfl
  | cons t rest =>
    have hlt := hrest t rfl
    have hnone : prefixOperator t.type = none ∧ t.type ≠ .lParen ∧ t.type ≠ .atom := by
      cases htype : t.type <;> rw [htype] at hlt <;>
        first | exact absurd hlt (by decide) | exact ⟨rfl, by decide, by decide⟩
    have hquantifier : pathQuantifier t = none := by
      unfold pathQuantifier
      rw [if_neg fun h => hnone.2.2 h.1, if_neg fun h => hnone.2.2 h.1]
    have hprimary : parsePrimary 1 (t :: rest) = some (.ofAtom "", t :: rest) := by
      unfold parsePrimary
      rw [if_neg hnone.2.1, if_neg hnone.2.2]
    rw [List.nil_append]
    unfold parseAt
    rw [hnone.1]
    dsimp only
    rw [hquantifier]
    exact hprimary

theorem ReadsAt.loosen (h : ReadsAt level tokens a) (hle : level'.bound ≤ level.bound) : ReadsAt level' tokens a := by
  generalize hd : level.bound - level'.bound = d
  induction d generalizing level' with
  | zero =>
    have heq : level'.bound = level.bound := by omega
    have hinj : level' = level := by
      cases level <;> cases level' <;> first | rfl | exact absurd heq (by decide)
    rwa [hinj]
  | succ d ih =>
    have hne : level' ≠ .unary := by
      rintro rfl
      have hmax : level.bound ≤ 6 := by cases level <;> decide
      have hsix : Level.unary.bound = 6 := rfl
      omega
    have htighter := Level.bound_tighter hne
    exact .operand hne (ih (by omega) (by omega))

/-- The level of a binary operator. -/
def levelOf : TemporalOp → Level
  | .until | .release => .untilRelease
  | .and => .and
  | .or => .or
  | .implies => .implication
  | .equivalent => .equivalence
  | _ => .unary

/-- The level of its left operand. -/
def leftLevel (op : TemporalOp) : Level := if op = .implies then .or else levelOf op

/-- The level of its right operand. -/
def rightLevel (op : TemporalOp) : Level := if op = .implies then .implication else (levelOf op).tighter

theorem ReadsAt.join (hop : infixToken op = some t) (hl : ReadsAt (leftLevel op) l a)
    (hr : ReadsAt (rightLevel op) r b) : ReadsAt (levelOf op) (l ++ t :: r) (.binary op a b) := by
  cases op with
  | implies =>
    obtain rfl := Option.some.inj hop
    exact .implies hl rfl hr
  | «until» | release | equivalent | and | or =>
    obtain rfl := Option.some.inj hop
    exact .infixLeft hl rfl hr
  | _ => cases hop

theorem levels_of_infix (hop : infixToken op = some t) : (leftLevel op).bound ≤ 5 ∧ (levelOf op).bound ≤ 5 ∧
    1 ≤ (levelOf op).bound ∧ (rightLevel op).bound ≤ 6 ∧ (op ∈ looseOperators ↔ (levelOf op).bound ≠ 5) ∧
      (op ∈ looseOperators → (rightLevel op).bound ≤ 5) := by
  cases op <;> first | (cases hop; done) | decide

theorem ReadsAt.two {op' : TemporalOp} {t' : Token} {m : List Token} {rx rm ry : PropertyAstNode}
    (hop : infixToken op = some t) (hop' : infixToken op' = some t') (hx : ReadsAt .unary xs rx)
    (hleft : ReadsAt (rightLevel op) m rm) (hright : ReadsAt (leftLevel op') m rm) (hy : ReadsAt .unary ys ry) :
    (leftLevel op').bound ≤ (levelOf op).bound ∧
        ReadsAt .equivalence (xs ++ t :: (m ++ t' :: ys)) (.binary op' (.binary op rx rm) ry) ∨
      ReadsAt .equivalence (xs ++ t :: (m ++ t' :: ys)) (.binary op rx (.binary op' rm ry)) := by
  obtain ⟨hl, hlevel, hpos, hr, -, -⟩ := levels_of_infix hop
  obtain ⟨hl', hlevel', hpos', hr', -, -⟩ := levels_of_infix hop'
  have hunary : Level.unary.bound = 6 := rfl
  have hequivalence : Level.equivalence.bound = 1 := rfl
  have hfirst : ReadsAt (levelOf op) (xs ++ t :: m) (.binary op rx rm) :=
    .join hop (hx.loosen (by omega)) hleft
  have hsecond : ReadsAt (levelOf op') (m ++ t' :: ys) (.binary op' rm ry) :=
    .join hop' hright (hy.loosen (by omega))
  by_cases htight : (leftLevel op').bound ≤ (levelOf op).bound
  · left
    have hjoin := ReadsAt.join hop' (hfirst.loosen htight) (hy.loosen (by omega))
    rw [List.append_assoc] at hjoin
    exact ⟨htight, hjoin.loosen (by omega)⟩
  · right
    have hbound : (rightLevel op).bound ≤ (levelOf op').bound := by
      cases op <;> first | (cases hop; done) | (cases op' <;> first | (cases hop'; done) | (revert htight; decide))
    exact (ReadsAt.join hop (hx.loosen (by omega)) (hsecond.loosen hbound)).loosen (by omega)

/-- How the tokens of a printed formula are read: as one operand, or as two with their operator between. -/
inductive Reading : PropertyAstNode → List Token → PropertyAstNode → Prop
  | single {n res : PropertyAstNode} {tokens : List Token} :
      infixToken n.op = none → ReadsAt .unary tokens res → Reading n tokens res
  | double {op : TemporalOp} {t : Token} {x y rx ry : PropertyAstNode} {xs ys : List Token} :
      infixToken op = some t → ReadsAt .unary xs rx → ReadsAt .unary ys ry → weight ry ≤ weight y →
        Reading (.binary op x y) (xs ++ t :: ys) (.binary op rx ry)

theorem Reading.readsAt (h : Reading n tokens res) : ReadsAt .equivalence tokens res := by
  cases h with
  | single _ h => exact h.loosen (by decide)
  | double hop hx hy _ =>
    obtain ⟨hl, -, hpos, hr, -, -⟩ := levels_of_infix hop
    have hunary : Level.unary.bound = 6 := rfl
    exact (ReadsAt.join hop (hx.loosen (by omega)) (hy.loosen (by omega))).loosen hpos

theorem Reading.enclosed (h : Reading n tokens res) : ReadsAt .unary (enclosed n tokens) res := by
  unfold LtlParser.enclosed
  split
  · exact .parens rfl h.readsAt rfl
  · next hopen =>
      cases h with
      | single _ h => exact h
      | double hop _ _ _ =>
        refine absurd ⟨?_, Nat.lt_succ_self 1⟩ hopen
        rintro rfl
        cases hop

theorem pathFormula_of_ne (h : a.op ≠ .until) (op : TemporalOp) : pathFormula op a = .ofOp op [a] := by
  unfold pathFormula
  split
  · next hinner _ => exact absurd hinner h
  · rfl

/-- An operator that binds less than an until, or stands behind one, is at the root of a path formula. -/
theorem pathFormula_ne_binary {op' : TemporalOp} (h : op' ≠ .until) :
    pathFormula op (.binary op' ra rb) ≠ .binary op a b := by
  have hroot : (PropertyAstNode.binary op' ra rb).op ≠ .until := h
  rw [pathFormula_of_ne hroot]
  intro heq
  have hchildren : [PropertyAstNode.binary op' ra rb] = [a, b] := (PropertyAstNode.mk.inj heq).2.2
  cases (List.cons.inj hchildren).2

theorem binary_inj {op' : TemporalOp} {a' b' : PropertyAstNode}
    (h : PropertyAstNode.binary op a b = .binary op' a' b') : a = a' ∧ b = b' := by
  have hchildren : [a, b] = [a', b'] := (PropertyAstNode.mk.inj h).2.2
  obtain ⟨ha, hb⟩ := List.cons.inj hchildren
  exact ⟨ha, (List.cons.inj hb).1⟩

theorem Reading.path (ha : Reading a l ra) (hb : Reading b r rb) (op : TemporalOp) :
    ∃ res, ReadsAt .equivalence (l ++ ⟨.until, "U"⟩ :: r) res ∧
      (pathFormula op res = .binary op a b ↔
        ra = a ∧ rb = b ∧ a.op ∉ looseOperators ∧ b.op ∉ .until :: .release :: looseOperators) := by
  have hequivalence : Level.equivalence.bound = 1 := rfl
  have huntil : Level.untilRelease.bound = 5 := rfl
  have hunary : Level.unary.bound = 6 := rfl
  -- what is read before the until if nothing binds less than it
  have htight : a.op ∉ looseOperators → ReadsAt .untilRelease l ra := by
    intro hloose
    cases ha with
    | single _ h => exact h.loosen (by decide)
    | double hop hx hy _ =>
      obtain ⟨hl, -, -, hr, hiff, -⟩ := levels_of_infix hop
      have hfive : (levelOf _).bound = 5 := not_not.mp fun hne => hloose (hiff.mpr hne)
      exact (ReadsAt.join hop (hx.loosen (by omega)) (hy.loosen (by omega))).loosen (by omega)
  have hnotInfix : ∀ {n : PropertyAstNode}, infixToken n.op = none → n.op ∉ .until :: .release :: looseOperators := by
    intro n hnone hmem
    simp only [looseOperators, List.mem_cons, List.not_mem_nil, or_false] at hmem
    rcases hmem with heq | heq | heq | heq | heq | heq <;> rw [heq] at hnone <;> cases hnone
  have hinfixed : ∀ {op' : TemporalOp} {t : Token}, infixToken op' = some t →
      op' ∈ TemporalOp.until :: .release :: looseOperators := by
    intro op' t hop
    cases op' <;> first | (cases hop; done) | decide
  by_cases hloose : a.op ∈ looseOperators
  · -- the operator before the until takes its place
    have hne : ∀ {res : PropertyAstNode}, pathFormula op res ≠ .binary op a b →
        (pathFormula op res = .binary op a b ↔
          ra = a ∧ rb = b ∧ a.op ∉ looseOperators ∧ b.op ∉ .until :: .release :: looseOperators) :=
      fun h => ⟨fun heq => absurd heq h, fun heq => absurd hloose heq.2.2.1⟩
    cases ha with
    | single hnone _ => exact absurd (List.mem_cons_of_mem _ (List.mem_cons_of_mem _ hloose)) (hnotInfix hnone)
    | @double o t x y rx ry xs ys hop hx hy _ =>
      obtain ⟨hl, hlevel, hpos, hr, hiff, hright⟩ := levels_of_infix hop
      have hright' := hright hloose
      have hroot : o ≠ .until := by
        rintro rfl
        have hmem : TemporalOp.until ∈ looseOperators := hloose
        exact absurd hmem (by decide)
      cases hb with
      | single _ hrb =>
        have hmiddle : ReadsAt .untilRelease (ys ++ ⟨.until, "U"⟩ :: r) (.binary .until ry rb) :=
          .join (show infixToken .until = some _ from rfl) (hy.loosen (by decide)) (hrb.loosen (by decide))
        have hjoin := ReadsAt.join hop (hx.loosen (by omega)) (hmiddle.loosen (by omega))
        have htokens : xs ++ t :: ys ++ ⟨.until, "U"⟩ :: r = xs ++ t :: (ys ++ ⟨.until, "U"⟩ :: r) := by simp
        rw [htokens]
        exact ⟨_, hjoin.loosen (by omega), hne (pathFormula_ne_binary hroot)⟩
      | @double o' t' x' y' rx' ry' xs' ys' hop' hx' hy' _ =>
        obtain ⟨hl', -, -, -, -, -⟩ := levels_of_infix hop'
        have hmiddle : ReadsAt .untilRelease (ys ++ ⟨.until, "U"⟩ :: xs') (.binary .until ry rx') :=
          .join (show infixToken .until = some _ from rfl) (hy.loosen (by decide)) (hx'.loosen (by decide))
        have htwo := ReadsAt.two hop hop' hx (hmiddle.loosen (by omega)) (hmiddle.loosen (by omega)) hy'
        have htokens : xs ++ t :: (ys ++ ⟨.until, "U"⟩ :: xs' ++ t' :: ys') =
            xs ++ t :: ys ++ ⟨.until, "U"⟩ :: (xs' ++ t' :: ys') := by simp
        rw [htokens] at htwo
        rcases htwo with ⟨hbound, h⟩ | h
        · refine ⟨_, h, hne (pathFormula_ne_binary ?_)⟩
          rintro rfl
          have hfive : (levelOf o).bound ≠ 5 := hiff.mp hloose
          have hleft : (leftLevel .until).bound = 5 := rfl
          omega
        · exact ⟨_, h, hne (pathFormula_ne_binary hroot)⟩
  · have hra := htight hloose
    cases hb with
    | single hnone hrb =>
      have hjoin : ReadsAt .untilRelease (l ++ ⟨.until, "U"⟩ :: r) (.binary .until ra rb) :=
        .join (show infixToken .until = some _ from rfl) hra (hrb.loosen (by decide))
      refine ⟨_, hjoin.loosen (by decide), ?_⟩
      show PropertyAstNode.binary op ra rb = .binary op a b ↔ _
      constructor
      · intro heq
        obtain ⟨rfl, rfl⟩ := binary_inj heq
        exact ⟨rfl, rfl, hloose, hnotInfix hnone⟩
      · rintro ⟨rfl, rfl, -, -⟩
        rfl
    | @double o' t' x' y' rx' ry' xs' ys' hop' hx' hy' hweight =>
      -- the operator behind the until is at the root
      obtain ⟨hl', -, hpos', hr', -, -⟩ := levels_of_infix hop'
      have hfirst : ReadsAt .untilRelease (l ++ ⟨.until, "U"⟩ :: xs') (.binary .until ra rx') :=
        .join (show infixToken .until = some _ from rfl) hra (hx'.loosen (by decide))
      have hjoin := ReadsAt.join hop' (hfirst.loosen (by omega)) (hy'.loosen (by omega))
      rw [List.append_assoc] at hjoin
      refine ⟨_, hjoin.loosen (by omega), fun heq => absurd heq ?_, fun heq => absurd (hinfixed hop') heq.2.2.2⟩
      by_cases hroot : o' = .until
      · subst hroot
        intro heq
        have hry : ry' = .binary .until x' y' := (binary_inj heq).2
        rw [hry, weight_binary] at hweight
        have hone : operatorWeight .until 2 = 1 := rfl
        omega
      · exact pathFormula_ne_binary hroot

end Reading

/-! ## Formulas and their text -/

theorem ReadsAt.weight_le {level : Level} {tokens : List Token} {a : PropertyAstNode} (h : ReadsAt level tokens a)
    (hwords : Words tokens) : weight a ≤ tokensWeight tokens := by
  obtain ⟨n, hn⟩ := h.stop [] nofun
  rw [List.append_nil] at hn
  have hbound := ((fits_of_fuel n).1 level tokens _ hwords hn).bound
  simpa using hbound

theorem AtomText.atoms {s : String} {tokens : List Token} (h : AtomText s tokens) : ∀ t ∈ tokens, t.type = .atom := by
  cases h with
  | missing => exact fun t ht => absurd ht List.not_mem_nil
  | words h => exact fun t ht => (h t ht).type

theorem AtomText.readsAt {s : String} {tokens : List Token} (h : AtomText s tokens) :
    ReadsAt .unary tokens (.ofAtom s) := by
  cases h with
  | missing => exact .missing
  | words h => exact .atoms (h _ List.mem_cons_self).type fun u hu => (h u (List.mem_cons_of_mem _ hu)).type

theorem tokensWeight_atoms {tokens : List Token} (h : ∀ t ∈ tokens, t.type = .atom) : tokensWeight tokens = 0 := by
  induction tokens with
  | nil => rfl
  | cons t tokens ih =>
    have hzero : tokenWeight t = 0 := by
      unfold tokenWeight
      rw [h t List.mem_cons_self]
    rw [tokensWeight_cons, hzero, ih fun u hu => h u (List.mem_cons_of_mem _ hu)]

theorem tokensWeight_enclosed (a : PropertyAstNode) (tokens : List Token) :
    tokensWeight (enclosed a tokens) = tokensWeight tokens := by
  unfold enclosed
  split
  · simp [show tokenWeight ⟨.lParen, "("⟩ = 0 from rfl, show tokenWeight ⟨.rParen, ")"⟩ = 0 from rfl]
  · rfl

theorem Printed.tokenize_text {n : PropertyAstNode} {tokens : List Token} (h : Printed n tokens) :
    LtlParser.tokenize n.toString.toList = tokens := by
  have hrest := h.tokenize (show Closes [] from nofun)
  rw [List.append_nil] at hrest
  exact hrest.trans (List.append_nil tokens)

theorem Printed.words {n : PropertyAstNode} {tokens : List Token} (h : Printed n tokens) : Words tokens := by
  intro t ht htype
  rw [← h.tokenize_text] at ht
  exact isWord_of_mem_tokenize ht htype

theorem Words.enclosed {a : PropertyAstNode} {tokens : List Token} (h : Words tokens) : Words (enclosed a tokens) := by
  unfold LtlParser.enclosed
  split
  · intro t ht htype
    simp only [List.cons_append, List.mem_cons, List.mem_append, List.not_mem_nil, or_false] at ht
    rcases ht with rfl | ht | rfl
    · cases htype
    · exact h t ht htype
    · cases htype
  · exact h

theorem plainPath_of_ne {n : PropertyAstNode} (heu : n.op ≠ .eu) (hau : n.op ≠ .au) : PlainPath n :=
  fun h => absurd h (not_or.mpr ⟨heu, hau⟩)

theorem plainPaths_ofAtom (s : String) : PlainPaths (.ofAtom s) :=
  plainPaths_mk.mpr ⟨plainPath_of_ne nofun nofun, List.forall_mem_nil _⟩

theorem plainPaths_unary {op : TemporalOp} {a : PropertyAstNode} (heu : op ≠ .eu) (hau : op ≠ .au) :
    PlainPaths (.unary op a) ↔ PlainPaths a := by
  refine plainPaths_mk.trans ⟨fun h => h.2 a List.mem_cons_self, fun h => ⟨plainPath_of_ne heu hau, ?_⟩⟩
  exact List.forall_mem_singleton.mpr h

theorem plainPaths_binary {op : TemporalOp} {a b : PropertyAstNode} :
    PlainPaths (.binary op a b) ↔ PlainPath (.binary op a b) ∧ PlainPaths a ∧ PlainPaths b := by
  refine plainPaths_mk.trans (and_congr_right fun _ => ⟨fun h => ⟨h a (by simp), h b (by simp)⟩, fun h c hc => ?_⟩)
  rcases List.mem_pair.mp hc with rfl | rfl
  · exact h.1
  · exact h.2

/-- The tokens of a printed formula have less weight than it, or are read as a formula that is the same if and only
if all path formulas in it are plain. -/
theorem Printed.outcome {n : PropertyAstNode} {tokens : List Token} (h : Printed n tokens) :
    (tokensWeight tokens < weight n ∧ ¬ PlainPaths n) ∨
      (tokensWeight tokens ≤ weight n ∧ ∃ res, Reading n tokens res ∧ (res = n ↔ PlainPaths n)) := by
  induction h with
  | atom h =>
    refine Or.inr ⟨?_, _, .single rfl h.readsAt, iff_of_true rfl (plainPaths_ofAtom _)⟩
    rw [tokensWeight_atoms h.atoms]
    exact Nat.zero_le _
  | notAtom h =>
    refine Or.inr ⟨?_, _, .single rfl (.prefixed rfl h.readsAt), iff_of_true rfl ?_⟩
    · rw [tokensWeight_cons, tokensWeight_atoms h.atoms]
      exact Nat.le_refl 1
    · exact (@plainPaths_unary .not _ nofun nofun).mpr (plainPaths_ofAtom _)
  | @prefixed op t a tokens hop hnot _ ih =>
    have hoperator : prefixOperator t.type = some op ∧ op ≠ .eu ∧ op ≠ .au ∧ infixToken op = none := by
      cases op <;> first | (cases hop; done) | (obtain rfl := Option.some.inj hop; exact ⟨rfl, nofun, nofun, rfl⟩)
    obtain ⟨hpart', heu, hau, hinfixed⟩ := hoperator
    obtain ⟨htoken, hweight⟩ := prefixOperator_weight hpart'
    have htokens : tokensWeight (t :: ⟨.lParen, "("⟩ :: tokens ++ [⟨.rParen, ")"⟩]) = 1 + tokensWeight tokens := by
      simp [htoken, show tokenWeight ⟨.lParen, "("⟩ = 0 from rfl, show tokenWeight ⟨.rParen, ")"⟩ = 0 from rfl]
    rw [htokens, weight_unary, hweight, plainPaths_unary heu hau]
    rcases ih with ⟨hlt, hplain⟩ | ⟨hle, res, hread, hiff⟩
    · exact Or.inl ⟨by omega, hplain⟩
    · refine Or.inr ⟨by omega, _, .single hinfixed (.prefixed hpart' (.parens rfl hread.readsAt rfl)), ?_⟩
      rw [← hiff]
      refine ⟨fun heq => ?_, fun heq => by rw [heq]⟩
      have hchildren : [res] = [a] := (PropertyAstNode.mk.inj heq).2.2
      exact (List.cons.inj hchildren).1
  | @infixed op t a b l r hop _ hb iha ihb =>
    have hoperator : tokenWeight t = 1 ∧ operatorWeight op 2 = 1 ∧ op ≠ .eu ∧ op ≠ .au := by
      cases op <;> first | (cases hop; done) | (obtain rfl := Option.some.inj hop; exact ⟨rfl, rfl, nofun, nofun⟩)
    obtain ⟨htoken, hweight, heu, hau⟩ := hoperator
    have hself : PlainPath (.binary op a b) := plainPath_of_ne heu hau
    have htokens : tokensWeight (enclosed a l ++ t :: enclosed b r) = tokensWeight l + (1 + tokensWeight r) := by
      simp [htoken, tokensWeight_enclosed]
    rw [htokens, weight_binary, hweight, plainPaths_binary]
    rcases iha with ⟨hlt, hplain⟩ | ⟨hle, ra, hra, hiffa⟩
    · have hleb : tokensWeight r ≤ weight b := ihb.elim (fun h => h.1.le) And.left
      exact Or.inl ⟨by omega, fun h => hplain h.2.1⟩
    rcases ihb with ⟨hlt', hplain⟩ | ⟨hle', rb, hrb, hiffb⟩
    · exact Or.inl ⟨by omega, fun h => hplain h.2.2⟩
    have hrbWeight : weight rb ≤ weight b := by
      have hbound := hrb.enclosed.weight_le hb.words.enclosed
      rw [tokensWeight_enclosed] at hbound
      omega
    refine Or.inr ⟨by omega, _, .double hop hra.enclosed hrb.enclosed hrbWeight, ?_⟩
    rw [← hiffa, ← hiffb]
    refine ⟨fun heq => ⟨hself, binary_inj heq⟩, fun heq => by rw [heq.2.1, heq.2.2]⟩
  | @path op t a b l r hop _ _ iha ihb =>
    have hoperator : pathQuantifier t = some op ∧ tokenWeight t = 0 ∧ operatorWeight op 2 = 3 ∧
        infixToken op = none ∧ (op = .eu ∨ op = .au) := by
      cases op <;> first
        | (cases hop; done)
        | (obtain rfl := Option.some.inj hop; exact ⟨rfl, rfl, rfl, rfl, by decide⟩)
    obtain ⟨hquantifier, htoken, hweight, hinfixed, hpathOp⟩ := hoperator
    have htokens : tokensWeight (t :: ⟨.lBracket, "["⟩ :: (l ++ ⟨.until, "U"⟩ :: r) ++ [⟨.rBracket, "]"⟩]) =
        2 + (tokensWeight l + (1 + tokensWeight r)) := by
      simp [htoken, show tokenWeight ⟨.lBracket, "["⟩ = 2 from rfl, show tokenWeight ⟨.until, "U"⟩ = 1 from rfl,
        show tokenWeight ⟨.rBracket, "]"⟩ = 0 from rfl]
    rw [htokens, weight_binary, hweight, plainPaths_binary]
    rcases iha with ⟨hlt, hplain⟩ | ⟨hle, ra, hra, hiffa⟩
    · have hleb : tokensWeight r ≤ weight b := ihb.elim (fun h => h.1.le) And.left
      exact Or.inl ⟨by omega, fun h => hplain h.2.1⟩
    rcases ihb with ⟨hlt', hplain⟩ | ⟨hle', rb, hrb, hiffb⟩
    · exact Or.inl ⟨by omega, fun h => hplain h.2.2⟩
    obtain ⟨res, hres, hiff⟩ := hra.path hrb op
    refine Or.inr ⟨by omega, _, .single hinfixed (.path hquantifier rfl hres rfl), ?_⟩
    rw [hiff, ← hiffa, ← hiffb]
    constructor
    · exact fun h => ⟨fun _ => ⟨a, b, rfl, h.2.2⟩, h.1, h.2.1⟩
    · rintro ⟨hplain, ha, hb⟩
      obtain ⟨a', b', hchildren, hloose⟩ := hplain hpathOp
      obtain ⟨rfl, hrest⟩ := List.cons.inj hchildren
      obtain ⟨rfl, -⟩ := List.cons.inj hrest
      exact ⟨ha, hb, hloose⟩
  | @broken op t a tokens hop _ _ =>
    have hoperator : tokenWeight t = 0 ∧ operatorWeight op 1 = 2 ∧ (op = .eu ∨ op = .au) := by
      cases op <;> first
        | (cases hop; done)
        | (obtain rfl := Option.some.inj hop; exact ⟨rfl, rfl, by decide⟩)
    obtain ⟨htoken, hweight, hpathOp⟩ := hoperator
    have htokens : tokensWeight [t, ⟨.globally, "G"⟩] = 1 := by
      simp [htoken, show tokenWeight ⟨.globally, "G"⟩ = 1 from rfl]
    refine Or.inl ⟨?_, fun h => ?_⟩
    · show _ < weight (.unary op a)
      rw [htokens, weight_unary, hweight]
      omega
    · obtain ⟨a', b', hchildren, -⟩ := (plainPaths_mk.mp h).1 hpathOp
      cases (List.cons.inj hchildren).2

theorem parse_eq_some_iff {text : String} {ast : PropertyAstNode} :
    parse text = some ast ↔ trim text.toList ≠ [] ∧ parseFormula (tokenize text.toList ++ [endToken]) = some ast := by
  unfold parse
  dsimp only
  rw [tokenize_trim]
  cases trim text.toList with
  | nil => simp
  | cons c rest => simp

theorem Printed.eq_ofAtom {n : PropertyAstNode} (h : Printed n []) : n = .ofAtom "" := by
  generalize htokens : ([] : List Token) = tokens at h
  cases h with
  | atom h =>
    cases h with
    | missing => rfl
    | words _ => cases htokens
  | infixed _ _ _ => exact absurd htokens.symm (by simp)
  | notAtom _ => cases htokens
  | prefixed _ _ _ => cases htokens
  | path _ _ _ => cases htokens
  | broken _ _ => cases htokens

section Parse

variable {text : String} {ast : PropertyAstNode}

theorem words_of_text (text : String) : Words (tokenize text.toList ++ [endToken]) := by
  intro t ht htype
  rcases List.mem_append.mp ht with ht | ht
  · exact isWord_of_mem_tokenize ht htype
  · rw [List.mem_singleton.mp ht] at htype
    cases htype

theorem fits_of_parse (h : parseFormula (tokenize text.toList ++ [endToken]) = some ast) :
    Printable ast ∧ weight ast ≤ tokensWeight (tokenize text.toList) := by
  obtain ⟨r, hr, rfl⟩ := Option.map_eq_some_iff.mp h
  have hfits := (fits_of_fuel _).1 _ _ _ (words_of_text text) hr
  have hbound := hfits.bound
  rw [tokensWeight_append] at hbound
  have hend : tokensWeight [endToken] = 0 := rfl
  exact ⟨hfits.printable, by omega⟩

/-- A formula that the parser makes is read again from its text if and only if it has one and all path formulas in it
are plain. -/
theorem parse_toString_iff (h : parse text = some ast) : parse ast.toString = some ast ↔ Survives ast := by
  obtain ⟨tokens, hprinted⟩ := (fits_of_parse (parse_eq_some_iff.mp h).2).1
  have htokens := hprinted.tokenize_text
  have hempty : trim ast.toString.toList ≠ [] ↔ ast ≠ .ofAtom "" := by
    constructor
    · rintro htrim rfl
      exact htrim rfl
    · intro hne htrim
      have hnil := tokenize_trim ast.toString.toList
      rw [htrim, htokens] at hnil
      obtain rfl : tokens = [] := hnil.symm
      exact hne hprinted.eq_ofAtom
  rw [parse_eq_some_iff, hempty]
  refine and_congr_right fun _ => ?_
  rcases hprinted.outcome with ⟨hlt, hplain⟩ | ⟨-, res, hread, hiff⟩
  · refine iff_of_false (fun hparse => ?_) hplain
    have hle := (fits_of_parse hparse).2
    rw [htokens] at hle
    omega
  · rw [htokens, hread.readsAt.parseFormula, Option.some.injEq]
    exact hiff

end Parse

section Examples

theorem readsAt_word (word : String) : ReadsAt .unary [⟨.atom, word⟩] (.ofAtom word) := .atoms rfl nofun

/-- A path formula of two atoms. -/
def simpleUntil : PropertyAstNode := .binary .eu (.ofAtom "a") (.ofAtom "b")

theorem simpleUntil_comes_back : parse simpleUntil.toString = some simpleUntil := by
  have htokens : tokenize "E [a U b]".toList =
      [⟨.atom, "E"⟩, ⟨.lBracket, "["⟩, ⟨.atom, "a"⟩, ⟨.until, "U"⟩, ⟨.atom, "b"⟩, ⟨.rBracket, "]"⟩] := by decide
  have huntil : ReadsAt .untilRelease [⟨.atom, "a"⟩, ⟨.until, "U"⟩, ⟨.atom, "b"⟩]
      (.binary .until (.ofAtom "a") (.ofAtom "b")) :=
    .join (show infixToken .until = some _ from rfl) ((readsAt_word "a").loosen (by decide))
      ((readsAt_word "b").loosen (by decide))
  have hpath : ReadsAt .equivalence (tokenize "E [a U b]".toList) simpleUntil := by
    rw [htokens]
    exact ReadsAt.loosen (.path (show pathQuantifier _ = some .eu from rfl) rfl (huntil.loosen (by decide)) rfl)
      (by decide)
  have hparse : parse "E [a U b]" = some simpleUntil := parse_eq_some_iff.mpr ⟨by decide, hpath.parseFormula⟩
  refine (parse_toString_iff hparse).mpr ⟨nofun, plainPaths_binary.mpr ⟨fun _ => ?_, ?_, ?_⟩⟩
  · exact ⟨_, _, rfl, by decide, by decide⟩
  · exact plainPaths_ofAtom _
  · exact plainPaths_ofAtom _

/-- A path formula with a conjunction before the until. -/
def compoundUntil : PropertyAstNode := .binary .eu (.binary .and (.ofAtom "a") (.ofAtom "b")) (.ofAtom "c")

/-- Its text is that of a path formula with one operand, a conjunction. -/
theorem compoundUntil_moved : parse "E [(a && b) U c]" = some compoundUntil ∧
    parse compoundUntil.toString ≠ some compoundUntil := by
  have hword : ∀ (level : Level) (word : String), ReadsAt level [⟨.atom, word⟩] (.ofAtom word) := fun level word =>
    (readsAt_word word).loosen (by cases level <;> decide)
  have htokens : tokenize "E [(a && b) U c]".toList =
      [⟨.atom, "E"⟩, ⟨.lBracket, "["⟩, ⟨.lParen, "("⟩, ⟨.atom, "a"⟩, ⟨.and, "&&"⟩, ⟨.atom, "b"⟩, ⟨.rParen, ")"⟩,
        ⟨.until, "U"⟩, ⟨.atom, "c"⟩, ⟨.rBracket, "]"⟩] := by decide
  have hand : ReadsAt .and [⟨.atom, "a"⟩, ⟨.and, "&&"⟩, ⟨.atom, "b"⟩] (.binary .and (.ofAtom "a") (.ofAtom "b")) :=
    .join (show infixToken .and = some _ from rfl) (hword _ "a") (hword _ "b")
  have hoperand : ReadsAt .unary [⟨.lParen, "("⟩, ⟨.atom, "a"⟩, ⟨.and, "&&"⟩, ⟨.atom, "b"⟩, ⟨.rParen, ")"⟩]
      (.binary .and (.ofAtom "a") (.ofAtom "b")) := .parens rfl (hand.loosen (by decide)) rfl
  have huntil := ReadsAt.join (show infixToken .until = some _ from rfl) (hoperand.loosen (by decide)) (hword _ "c")
  have hread : ReadsAt .equivalence (tokenize "E [(a && b) U c]".toList) compoundUntil := by
    rw [htokens]
    exact ReadsAt.loosen (.path (show pathQuantifier _ = some .eu from rfl) rfl (huntil.loosen (by decide)) rfl)
      (by decide)
  have htokens' : tokenize "E [a && b U c]".toList =
      [⟨.atom, "E"⟩, ⟨.lBracket, "["⟩, ⟨.atom, "a"⟩, ⟨.and, "&&"⟩, ⟨.atom, "b"⟩, ⟨.until, "U"⟩, ⟨.atom, "c"⟩,
        ⟨.rBracket, "]"⟩] := by decide
  have huntil' := ReadsAt.join (show infixToken .until = some _ from rfl) (hword _ "b") (hword _ "c")
  have hand' := ReadsAt.join (show infixToken .and = some _ from rfl) (hword _ "a") (huntil'.loosen (by decide))
  have hread' : ReadsAt .equivalence (tokenize "E [a && b U c]".toList)
      (.ofOp .eu [.binary .and (.ofAtom "a") (.binary .until (.ofAtom "b") (.ofAtom "c"))]) := by
    rw [htokens']
    exact ReadsAt.loosen (.path (show pathQuantifier _ = some .eu from rfl) rfl (hand'.loosen (by decide)) rfl)
      (by decide)
  refine ⟨parse_eq_some_iff.mpr ⟨by decide, hread.parseFormula⟩, fun hback => ?_⟩
  have hparse := (parse_eq_some_iff.mp hback).2
  have htext : compoundUntil.toString.toList = "E [a && b U c]".toList := by decide
  rw [htext, hread'.parseFormula] at hparse
  have hchildren := (PropertyAstNode.mk.inj (Option.some.inj hparse)).2.2
  cases (List.cons.inj hchildren).2

end Examples

end Fsmc.Frontend.LtlParser
