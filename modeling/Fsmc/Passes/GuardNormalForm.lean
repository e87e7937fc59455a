/-
# Fsmc.Passes.GuardNormalForm — when one simplification of a guard brings it to its normal form.

A negation may carry its operand as a text instead of a child, and no rule looks into such a bare negation:
negated once more it stays as it is, and so does one of a constant. `shape` tells from a guard what it comes
to, and with that whether one of them is left over (`describes_shape`); if none is, the result is in normal
form (`simplifiesFully_iff`).

The case to watch is the connective. Its operands are merged, filtered and compared after they have been
simplified, so whether a negation survives depends on what the other operands come to; `Keeps` is what is
known about the operands that stay.
-/
import Fsmc.Passes.GuardSimplification

namespace Fsmc.Passes.GuardSimplification

open Fsmc.Ir GuardAstNode

/-! ## What the guard tells about its normal form -/

/-- What a guard comes to. -/
inductive Shape where
  /-- a constant -/
  | constant (b : Bool)
  /-- a bare negation of a text, or its negation -/
  | bare (negated : Bool) (text : String)
  /-- anything else, with or without a negation that is left over -/
  | other (leftOver : Bool)
  deriving DecidableEq

namespace Shape

/-- Whether a negation is left over. -/
def leftOver : Shape → Bool
  | constant _ => false
  | bare negated text => negated || isConstantText text
  | other l => l

def negate : Shape → Shape
  | constant b => constant !b
  | bare negated text => bare (!negated) text
  | other l => other l

/-- Of a connective: constants are absorbed, and operands that all come to the same count once. -/
def join (unit : Bool) (shapes : List Shape) : Shape :=
  if constant (!unit) ∈ shapes then constant !unit
  else
    match shapes.filter (· ≠ constant unit) with
    | [] => constant unit
    | s :: rest => if rest.all (· = s) then s else other ((s :: rest).any leftOver)

end Shape

mutual

def shape : GuardAstNode → Shape
  | ⟨.none, expression, _⟩ =>
    if expression = "true" then .constant true else if expression = "false" then .constant false else .other false
  | ⟨.not, expression, []⟩ => .bare false expression
  | ⟨.not, _, child :: _⟩ => (shape child).negate
  | ⟨.and, _, children⟩ => .join true (shapes children)
  | ⟨.or, _, children⟩ => .join false (shapes children)

/-- The same for the operands. -/
def shapes : List GuardAstNode → List Shape
  | [] => []
  | child :: rest => shape child :: shapes rest

end

theorem shapes_eq_map (children : List GuardAstNode) : shapes children = children.map shape := by
  induction children with
  | nil => rfl
  | cons child rest ih => rw [shapes, ih, List.map_cons]

/-- The node that a bare negation, or its negation, is. -/
def bareNode (negated : Bool) (text : String) : GuardAstNode :=
  if negated then ⟨.not, "", [⟨.not, text, []⟩]⟩ else ⟨.not, text, []⟩

/-- A negation is left over somewhere. -/
def HasLeftOver (g : GuardAstNode) : Prop := ∃ n ∈ g.subnodes, LeftOver n

/-- A simplified node of a shape. -/
def Describes (n : GuardAstNode) : Shape → Prop
  | .constant b => n = atom (textOf b)
  | .bare negated text => n = bareNode negated text
  | .other l => isConstant n = false ∧ (∀ negated text, n ≠ bareNode negated text) ∧
      (l = true ↔ HasLeftOver n)

theorem hasLeftOver_iff {op : GuardOp} {expression : String} {children : List GuardAstNode} :
    HasLeftOver ⟨op, expression, children⟩ ↔
      LeftOver ⟨op, expression, children⟩ ∨ ∃ child ∈ children, HasLeftOver child := by
  show (∃ n ∈ _ :: subnodesAll children, LeftOver n) ↔ _
  rw [List.exists_mem_cons_iff]
  apply or_congr_right
  constructor
  · rintro ⟨n, hn, hleft⟩
    obtain ⟨child, hchild, hn⟩ := mem_subnodesAll.mp hn
    exact ⟨child, hchild, n, hn, hleft⟩
  · rintro ⟨child, hchild, n, hn, hleft⟩
    exact ⟨n, mem_subnodesAll.mpr ⟨child, hchild, hn⟩, hleft⟩

theorem not_leftOver_of_ne {n : GuardAstNode} (h : n.op ≠ .not) : ¬ LeftOver n := fun hleft => h hleft.1

theorem not_hasLeftOver_atom (expression : String) : ¬ HasLeftOver (atom expression) := by
  unfold atom
  rw [hasLeftOver_iff]
  rintro (hleft | ⟨child, hchild, -⟩)
  · exact not_leftOver_of_ne (by simp) hleft
  · exact absurd hchild List.not_mem_nil

/-! ## Shapes of nodes -/

section Shapes

variable {n : GuardAstNode} {s s' : Shape}

theorem Describes.unique (h : Describes n s) (h' : Describes n s') : s = s' := by
  have hatom : ∀ (b negated : Bool) (text : String), atom (textOf b) ≠ bareNode negated text := by
    intro b negated text
    cases negated <;> simp [atom, bareNode]
  have hconstant : ∀ b : Bool, isConstant (atom (textOf b)) = true := by decide
  cases s with
  | constant b =>
    cases s' with
    | constant b' =>
      have htext : textOf b = textOf b' := congrArg GuardAstNode.expression (h.symm.trans h')
      cases b <;> cases b' <;> simp [textOf] at htext ⊢
    | bare negated text => exact absurd (h.symm.trans h') (hatom b negated text)
    | other l =>
      rw [show n = atom (textOf b) from h] at h'
      exact absurd ((hconstant b).symm.trans h'.1) (by simp)
  | bare negated text =>
    cases s' with
    | constant b => exact absurd (h'.symm.trans h) (hatom b negated text)
    | bare negated' text' =>
      have hnode : bareNode negated text = bareNode negated' text' := h.symm.trans h'
      cases negated <;> cases negated' <;> simp [bareNode] at hnode ⊢
      · exact hnode
      · exact hnode
    | other l => exact absurd h (h'.2.1 negated text)
  | other l =>
    cases s' with
    | constant b =>
      rw [show n = atom (textOf b) from h'] at h
      exact absurd ((hconstant b).symm.trans h.1) (by simp)
    | bare negated text => exact absurd h' (h.2.1 negated text)
    | other l' => exact congrArg Shape.other (Bool.eq_iff_iff.mpr (h.2.2.trans h'.2.2.symm))

theorem Describes.leftOver_iff (h : Describes n s) : s.leftOver = true ↔ HasLeftOver n := by
  cases s with
  | constant b =>
    rw [show n = atom (textOf b) from h]
    exact iff_of_false (by simp [Shape.leftOver]) (not_hasLeftOver_atom _)
  | bare negated text =>
    rw [show n = bareNode negated text from h]
    cases negated <;> simp [bareNode, hasLeftOver_iff, LeftOver, Shape.leftOver]
  | other l => exact h.2.2

theorem describes_constant_iff (hn : Reduced n) (h : Describes n s) (b : Bool) :
    s = .constant b ↔ isText (textOf b) n = true := by
  constructor
  · rintro rfl
    rw [show n = atom (textOf b) from h]
    simp [isText, atom]
  · intro htext
    obtain ⟨op, expression, children⟩ := n
    simp only [isText, Bool.and_eq_true, decide_eq_true_eq] at htext
    obtain ⟨rfl, rfl⟩ := htext
    obtain rfl : children = [] := hn.atoms rfl
    exact h.unique rfl

theorem describes_negate (hn : ReducedForm n) (h : Describes n s) : Describes (negate n) s.negate := by
  cases s with
  | constant b =>
    rw [show n = atom (textOf b) from h]
    cases b <;> rfl
  | bare negated text =>
    rw [show n = bareNode negated text from h]
    cases negated <;> rfl
  | other l =>
    obtain ⟨hconstant, hbare, hleft⟩ := h
    -- a node that is not itself a negation is put under one
    have hput : n.op ≠ .not → Describes ⟨.not, "", [n]⟩ (.other l) := by
      intro hop
      refine ⟨rfl, ?_, ?_⟩
      · rintro (_ | _) text heq
        · simp [bareNode] at heq
        · simp only [bareNode, if_true, GuardAstNode.mk.injEq, List.cons.injEq] at heq
          rw [heq.2.2.1] at hop
          exact hop rfl
      · rw [hasLeftOver_iff, hleft]
        simp [LeftOver, hop]
    unfold negate
    split
    · next expression grandchild rest =>
        obtain rfl : rest = [] := by simpa using hn.root.single rfl
        obtain rfl : expression = "" := hn.root.plain (by simp)
        have hop : grandchild.op ≠ .not := by
          intro hnot
          have hnil := hn.root.negations rfl grandchild List.mem_cons_self hnot
          obtain ⟨op, text, children⟩ := grandchild
          exact hbare true text (by simp_all [bareNode])
        refine ⟨hn.root.constants grandchild List.mem_cons_self, ?_, ?_⟩
        · rintro (_ | _) text rfl <;> exact hop rfl
        · rw [hasLeftOver_iff] at hleft
          simpa [LeftOver, hop] using hleft
    · next expression children =>
        simp only [isConstant, isConstantText, Bool.and_eq_false_iff, Bool.or_eq_false_iff,
          decide_eq_false_iff_not, not_true_eq_false, false_or] at hconstant
        rw [if_neg hconstant.1, if_neg hconstant.2]
        exact hput (by simp)
    · next hnot hnone =>
        refine hput fun hop => ?_
        obtain ⟨op, text, children⟩ := n
        obtain rfl : op = .not := hop
        cases children with
        | nil => exact hbare false text rfl
        | cons grandchild rest => exact hnot text grandchild rest rfl

theorem exists_absorbing_iff {unit : Bool} {children : List GuardAstNode}
    (h : ∀ child ∈ children, ReducedForm child) (text : String) (htext : isConstantText text = true) :
    (∃ item ∈ flatten (connective unit) children, isText text item = true) ↔
      ∃ child ∈ children, isText text child = true := by
  have hkind : connective unit ≠ .none := by cases unit <;> simp [connective]
  constructor
  · rintro ⟨item, hitem, hisText⟩
    obtain ⟨child, hchild, hin⟩ := mem_flatten.mp hitem
    split at hin
    · -- the operands of a reduced connective are no constants
      have hconstant := (h child hchild).root.constants item hin
      simp only [isText, Bool.and_eq_true, decide_eq_true_eq] at hisText
      simp [isConstant, hisText.1, hisText.2, htext] at hconstant
    · exact ⟨child, hchild, hin ▸ hisText⟩
  · rintro ⟨child, hchild, hisText⟩
    refine ⟨child, mem_flatten.mpr ⟨child, hchild, ?_⟩, hisText⟩
    simp only [isText, Bool.and_eq_true, decide_eq_true_eq] at hisText
    rw [if_neg (hisText.1 ▸ hkind.symm)]

theorem hasLeftOver_flatten (unit : Bool) (children : List GuardAstNode) :
    (∃ item ∈ flatten (connective unit) children, HasLeftOver item) ↔ ∃ child ∈ children, HasLeftOver child := by
  have hkind : connective unit ≠ .not := by cases unit <;> simp [connective]
  have hchild : ∀ child : GuardAstNode, child.op = connective unit →
      (HasLeftOver child ↔ ∃ item ∈ child.children, HasLeftOver item) := by
    rintro ⟨op, expression, grandchildren⟩ rfl
    exact hasLeftOver_iff.trans (or_iff_right (not_leftOver_of_ne hkind))
  constructor
  · rintro ⟨item, hitem, hleft⟩
    obtain ⟨child, hmem, hin⟩ := mem_flatten.mp hitem
    refine ⟨child, hmem, ?_⟩
    split at hin
    · next hop => exact (hchild child hop).mpr ⟨item, hin, hleft⟩
    · exact hin ▸ hleft
  · rintro ⟨child, hmem, hleft⟩
    by_cases hop : child.op = connective unit
    · obtain ⟨item, hitem, hleft⟩ := (hchild child hop).mp hleft
      exact ⟨item, mem_flatten.mpr ⟨child, hmem, by rw [if_pos hop]; exact hitem⟩, hleft⟩
    · exact ⟨child, mem_flatten.mpr ⟨child, hmem, by rw [if_neg hop]⟩, hleft⟩

end Shapes

/-! ## The shape of a connective -/

/-- The operands that a connective of simplified guards keeps, when no operand absorbs the others. -/
structure Keeps (unit : Bool) (guards kept : List GuardAstNode) : Prop where
  reduced : ∀ g ∈ guards, ReducedForm (simplifyNode g)
  shapes : ∀ g ∈ guards, Describes (simplifyNode g) (shape g)
  alive : ∀ g ∈ guards, shape g ≠ .constant !unit
  nodup : kept.Nodup
  mem : ∀ n, n ∈ kept ↔ n ∈ flatten (connective unit) (guards.map simplifyNode) ∧ isText (textOf unit) n = false

namespace Keeps

variable {unit : Bool} {guards kept : List GuardAstNode}

theorem mem_filter {s : Shape} : s ∈ (guards.map shape).filter (· ≠ .constant unit) ↔
    ∃ g ∈ guards, shape g = s ∧ s ≠ .constant unit := by
  rw [List.mem_filter, List.mem_map, decide_eq_true_eq]
  constructor
  · rintro ⟨⟨g, hg, h⟩, hne⟩
    exact ⟨g, hg, h, hne⟩
  · rintro ⟨g, hg, h, hne⟩
    exact ⟨⟨g, hg, h⟩, hne⟩

variable {g : GuardAstNode}

theorem isNeutral_iff (h : Keeps unit guards kept) (hg : g ∈ guards) (b : Bool) :
    shape g = .constant b ↔ isText (textOf b) (simplifyNode g) = true :=
  describes_constant_iff (h.reduced g hg).root (h.shapes g hg) b

theorem exists_guard (h : Keeps unit guards kept) {n : GuardAstNode} (hn : n ∈ kept) :
    ∃ g ∈ guards, shape g ≠ .constant unit ∧
      if (simplifyNode g).op = connective unit then n ∈ (simplifyNode g).children else n = simplifyNode g := by
  obtain ⟨hmem, hneutral⟩ := (h.mem n).mp hn
  obtain ⟨child, hchild, hin⟩ := mem_flatten.mp hmem
  obtain ⟨g, hg, rfl⟩ := List.mem_map.mp hchild
  refine ⟨g, hg, fun hconstant => ?_, hin⟩
  have hatom := h.shapes g hg
  rw [hconstant] at hatom
  change simplifyNode g = atom (textOf unit) at hatom
  have hop : (simplifyNode g).op ≠ connective unit := by
    rw [hatom]
    cases unit <;> simp [atom, connective]
  rw [if_neg hop] at hin
  rw [hin, (h.isNeutral_iff hg unit).mp hconstant] at hneutral
  cases hneutral

theorem keeps_guard (h : Keeps unit guards kept) (hg : g ∈ guards)
    (hne : shape g ≠ .constant unit) : if (simplifyNode g).op = connective unit
      then ∃ first ∈ kept, ∃ second ∈ kept, first ≠ second else simplifyNode g ∈ kept := by
  have hkind : connective unit = .and ∨ connective unit = .or := by cases unit <;> simp [connective]
  have hchild : simplifyNode g ∈ guards.map simplifyNode := List.mem_map_of_mem hg
  have hreduced := h.reduced g hg
  have hneutral : isText (textOf unit) (simplifyNode g) = false :=
    Bool.eq_false_iff.mpr fun htext => hne ((h.isNeutral_iff hg unit).mpr htext)
  generalize simplifyNode g = child at hchild hreduced hneutral
  split
  · next hop =>
      obtain ⟨op, expression, operands⟩ := child
      obtain rfl : op = connective unit := hop
      have hlength : 2 ≤ operands.length := hreduced.root.several hkind
      have hdistinct : operands.Nodup := hreduced.root.distinct
      have hall : ∀ n ∈ operands, n ∈ kept := by
        intro n hn
        refine (h.mem n).mpr ⟨mem_flatten.mpr ⟨_, hchild, ?_⟩, ?_⟩
        · rw [if_pos rfl]
          exact hn
        · exact ((isConstant_eq_false_iff unit).mp (hreduced.root.constants n hn)).2
      rcases operands with _ | ⟨first, _ | ⟨second, rest⟩⟩
      · simp at hlength
      · simp at hlength
      · refine ⟨first, hall first (by simp), second, hall second (by simp), ?_⟩
        rintro rfl
        simp at hdistinct
  · next hop => exact (h.mem child).mpr ⟨mem_flatten.mpr ⟨child, hchild, by rw [if_neg hop]⟩, hneutral⟩

theorem filter_eq_nil_iff (h : Keeps unit guards kept) :
    (guards.map shape).filter (· ≠ .constant unit) = [] ↔ kept = [] := by
  rw [List.eq_nil_iff_forall_not_mem, List.eq_nil_iff_forall_not_mem]
  constructor
  · intro hnone n hn
    obtain ⟨g, hg, hne, -⟩ := h.exists_guard hn
    exact hnone _ (mem_filter.mpr ⟨g, hg, rfl, hne⟩)
  · intro hnone s hs
    obtain ⟨g, hg, rfl, hne⟩ := mem_filter.mp hs
    have hkept := h.keeps_guard hg hne
    split at hkept
    · obtain ⟨first, hfirst, -⟩ := hkept
      exact hnone first hfirst
    · exact hnone _ hkept

theorem eq_single {single : GuardAstNode} (h : Keeps unit guards [single]) (hg : g ∈ guards)
    (hne : shape g ≠ .constant unit) : simplifyNode g = single := by
  have hkept := h.keeps_guard hg hne
  split at hkept
  · obtain ⟨first, hfirst, second, hsecond, hdiffer⟩ := hkept
    exact absurd ((List.mem_singleton.mp hfirst).trans (List.mem_singleton.mp hsecond).symm) hdiffer
  · exact List.mem_singleton.mp hkept

theorem not_all_bare (h : Keeps unit guards kept) (hlength : 2 ≤ kept.length) (negated : Bool) (text : String) :
    ¬ ∀ g ∈ guards, shape g ≠ .constant unit → shape g = .bare negated text := by
  intro hall
  have hsame : ∀ n ∈ kept, n = bareNode negated text := by
    intro n hn
    obtain ⟨g, hg, hne, hin⟩ := h.exists_guard hn
    have hnode := h.shapes g hg
    rw [hall g hg hne] at hnode
    change simplifyNode g = bareNode negated text at hnode
    have hop : (simplifyNode g).op ≠ connective unit := by
      rw [hnode]
      cases unit <;> cases negated <;> simp [bareNode, connective]
    rw [if_neg hop] at hin
    exact hin.trans hnode
  have hnodup := h.nodup
  rcases kept with _ | ⟨first, _ | ⟨second, rest⟩⟩
  · simp at hlength
  · simp at hlength
  · rw [hsame first (by simp), hsame second (by simp)] at hnodup
    simp at hnodup

theorem leftOver_iff (h : Keeps unit guards kept) : HasLeftOver ⟨connective unit, "", kept⟩ ↔
    ∃ g ∈ guards, shape g ≠ .constant unit ∧ (shape g).leftOver = true := by
  have hkind : connective unit ≠ .not := by cases unit <;> simp [connective]
  have hnodes : ∀ n ∈ guards.map simplifyNode, ReducedForm n := List.forall_mem_map.mpr h.reduced
  have hflat : (∃ n ∈ kept, HasLeftOver n) ↔
      ∃ n ∈ flatten (connective unit) (guards.map simplifyNode), HasLeftOver n := by
    constructor
    · rintro ⟨n, hn, hleft⟩
      exact ⟨n, ((h.mem n).mp hn).1, hleft⟩
    · rintro ⟨n, hn, hleft⟩
      refine ⟨n, (h.mem n).mpr ⟨hn, Bool.eq_false_iff.mpr fun hneutral => ?_⟩, hleft⟩
      -- a constant is an atom, and has nothing left over
      obtain ⟨op, expression, operands⟩ := n
      simp only [isText, Bool.and_eq_true, decide_eq_true_eq] at hneutral
      obtain ⟨rfl, rfl⟩ := hneutral
      obtain rfl : operands = [] := (reducedForm_flatten unit hnodes _ hn).1.root.atoms rfl
      exact not_hasLeftOver_atom _ hleft
  rw [hasLeftOver_iff, or_iff_right (not_leftOver_of_ne hkind), hflat, hasLeftOver_flatten]
  simp only [List.mem_map, exists_exists_and_eq_and]
  apply exists_congr
  intro g
  apply and_congr_right
  intro hg
  rw [← (h.shapes g hg).leftOver_iff]
  refine ⟨fun hleft => ⟨fun hconstant => ?_, hleft⟩, And.right⟩
  rw [hconstant] at hleft
  cases hleft

theorem describes_several (h : Keeps unit guards kept) (hlength : 2 ≤ kept.length) {s : Shape} {rest : List Shape}
    (hfilter : (guards.map shape).filter (· ≠ .constant unit) = s :: rest) :
    Describes ⟨connective unit, "", kept⟩
      (if rest.all (· = s) then s else .other ((s :: rest).any Shape.leftOver)) := by
  have hmem : ∀ s', s' ∈ s :: rest ↔ ∃ g ∈ guards, shape g = s' ∧ s' ≠ .constant unit :=
    fun s' => hfilter ▸ mem_filter
  have hleft : (s :: rest).any Shape.leftOver = true ↔ HasLeftOver ⟨connective unit, "", kept⟩ := by
    rw [h.leftOver_iff, List.any_eq_true]
    constructor
    · rintro ⟨s', hs', hleft⟩
      obtain ⟨g, hg, rfl, hne⟩ := (hmem s').mp hs'
      exact ⟨g, hg, hne, hleft⟩
    · rintro ⟨g, hg, hne, hleft⟩
      exact ⟨_, (hmem _).mpr ⟨g, hg, rfl, hne⟩, hleft⟩
  have hother : Describes ⟨connective unit, "", kept⟩ (.other ((s :: rest).any Shape.leftOver)) := by
    refine ⟨by cases unit <;> rfl, ?_, hleft⟩
    intro negated text
    cases unit <;> cases negated <;> simp [connective, bareNode]
  split
  · next hall =>
      obtain ⟨g₀, hg₀, hs, hne₀⟩ := (hmem s).mp List.mem_cons_self
      have hsame : ∀ s' ∈ s :: rest, s' = s := fun s' hs' => (List.mem_cons.mp hs').elim id fun hrest =>
        of_decide_eq_true (List.all_eq_true.mp hall s' hrest)
      cases s with
      | constant b =>
        have halive : b ≠ !unit := fun hb => h.alive g₀ hg₀ (hs.trans (by rw [hb]))
        have hneutral : b ≠ unit := fun hb => hne₀ (by rw [hb])
        cases b <;> cases unit <;> simp at halive hneutral
      | bare negated text =>
        refine absurd (fun g hg hne => ?_) (h.not_all_bare hlength negated text)
        exact hsame _ ((hmem _).mpr ⟨g, hg, rfl, hne⟩)
      | other l =>
        have hany : (Shape.other l :: rest).any Shape.leftOver = l := by
          rw [Bool.eq_iff_iff, List.any_eq_true]
          constructor
          · rintro ⟨s', hs', hleft⟩
            rw [hsame s' hs'] at hleft
            exact hleft
          · exact fun hl => ⟨_, List.mem_cons_self, hl⟩
        rw [hany] at hother
        exact hother
  · exact hother

end Keeps

theorem describes_join (unit : Bool) {guards : List GuardAstNode}
    (hreduced : ∀ g ∈ guards, ReducedForm (simplifyNode g))
    (hshape : ∀ g ∈ guards, Describes (simplifyNode g) (shape g)) :
    Describes (connect (connective unit) (textOf !unit) (textOf unit) (guards.map simplifyNode))
      (.join unit (guards.map shape)) := by
  have hnodes : ∀ n ∈ guards.map simplifyNode, ReducedForm n := List.forall_mem_map.mpr hreduced
  have habsorbing : Shape.constant (!unit) ∈ guards.map shape ↔
      ∃ item ∈ flatten (connective unit) (guards.map simplifyNode), isText (textOf !unit) item = true := by
    rw [exists_absorbing_iff hnodes _ (by cases unit <;> decide)]
    simp only [List.mem_map, exists_exists_and_eq_and]
    exact exists_congr fun g => and_congr_right fun hg =>
      describes_constant_iff (hreduced g hg).root (hshape g hg) _
  unfold Shape.join
  rcases connect_cases (connective unit) (textOf !unit) (textOf unit) (guards.map simplifyNode) with
    ⟨hsome, heq⟩ | ⟨hnone, kept, hnodup, hkept, hform⟩
  · rw [if_pos (habsorbing.mpr hsome), heq]
    rfl
  · have hno : Shape.constant (!unit) ∉ guards.map shape := by
      intro hmem
      obtain ⟨item, hitem, habsorbs⟩ := habsorbing.mp hmem
      rw [hnone item hitem] at habsorbs
      cases habsorbs
    have hkeeps : Keeps unit guards kept :=
      ⟨hreduced, hshape, fun g hg heq => hno (List.mem_map.mpr ⟨g, hg, heq⟩), hnodup, hkept⟩
    rw [if_neg hno]
    cases hfilter : (guards.map shape).filter (· ≠ .constant unit) with
    | nil =>
      obtain rfl := hkeeps.filter_eq_nil_iff.mp hfilter
      rcases hform with ⟨-, heq⟩ | ⟨single, hsingle, -⟩ | ⟨hlength, -⟩
      · rw [heq]
        rfl
      · cases hsingle
      · simp at hlength
    | cons s rest =>
      obtain ⟨g₀, hg₀, hs, hne₀⟩ := Keeps.mem_filter.mp (hfilter ▸ List.mem_cons_self (a := s) (l := rest))
      rcases hform with ⟨rfl, -⟩ | ⟨single, rfl, heq⟩ | ⟨hlength, heq⟩
      · rw [hkeeps.filter_eq_nil_iff.mpr rfl] at hfilter
        cases hfilter
      · have hsingle : Describes single s := by
          rw [← hkeeps.eq_single hg₀ (hs ▸ hne₀), ← hs]
          exact hshape g₀ hg₀
        have hall : rest.all (· = s) = true := by
          rw [List.all_eq_true]
          intro s' hs'
          obtain ⟨g, hg, rfl, hne⟩ := Keeps.mem_filter.mp (hfilter ▸ List.mem_cons_of_mem s hs')
          have hdescribes := hshape g hg
          rw [hkeeps.eq_single hg hne] at hdescribes
          exact decide_eq_true (hdescribes.unique hsingle)
        show Describes _ (if rest.all (· = s) = true then _ else _)
        rw [if_pos hall, heq]
        exact hsingle
      · rw [heq]
        exact hkeeps.describes_several hlength hfilter

theorem describes_shape {g : GuardAstNode} (h : WellFormed g) : Describes (simplifyNode g) (shape g) := by
  induction g using GuardAstNode.induction with
  | h op expression children ih =>
    have hreduced : ∀ child ∈ children, ReducedForm (simplifyNode child) := fun child hchild =>
      reducedForm_simplifyNode (h.child child hchild)
    have hshape : ∀ child ∈ children, Describes (simplifyNode child) (shape child) := fun child hchild =>
      ih child hchild (h.child child hchild)
    cases op with
    | none =>
      obtain rfl : children = [] := (h _ (self_mem_subnodes _)).1 rfl
      show Describes (atom expression) (if _ then _ else if _ then _ else _)
      split
      · next htrue => exact htrue ▸ rfl
      · next htrue =>
          split
          · next hfalse => exact hfalse ▸ rfl
          · next hfalse =>
              refine ⟨by simp [atom, isConstant, isConstantText, htrue, hfalse], ?_, ?_⟩
              · rintro (_ | _) text <;> simp [atom, bareNode]
              · exact iff_of_false (by simp) (not_hasLeftOver_atom _)
    | not =>
      cases children with
      | nil => rfl
      | cons child rest =>
        exact describes_negate (hreduced child List.mem_cons_self) (hshape child List.mem_cons_self)
    | and =>
      show Describes (connect _ _ _ (simplifyNodes children)) (.join true (shapes children))
      rw [simplifyNodes_eq_map, shapes_eq_map]
      exact describes_join true hreduced hshape
    | or =>
      show Describes (connect _ _ _ (simplifyNodes children)) (.join false (shapes children))
      rw [simplifyNodes_eq_map, shapes_eq_map]
      exact describes_join false hreduced hshape

/-- A run of the pass brings a guard to a normal form that another run leaves alone. -/
def SimplifiesFully (g : GuardAstNode) : Prop :=
  simplifyNode (simplifyNode g) = simplifyNode g ∧ NormalForm (simplifyNode g)

/-- **Normal forms.** One run of the pass suffices exactly if no bare negation is left over, negated once more or
with a constant as its text. -/
theorem simplifiesFully_iff (g : GuardAstNode) (h : WellFormed g) :
    SimplifiesFully g ↔ (shape g).leftOver = false := by
  have hnormal : NormalForm (simplifyNode g) ↔ ¬ HasLeftOver (simplifyNode g) := by
    rw [normalForm_iff (reducedForm_simplifyNode h)]
    unfold HasLeftOver
    push Not
    exact Iff.rfl
  unfold SimplifiesFully
  rw [and_iff_right (simplifyNode_idem h), hnormal, ← (describes_shape h).leftOver_iff, Bool.not_eq_true]

/-- A conjunction with a double negation, a repetition and a constant. -/
def tangled : GuardAstNode :=
  ⟨.and, "", [⟨.not, "", [⟨.not, "", [atom "a"]⟩]⟩, atom "a", atom "true", ⟨.not, "b", []⟩]⟩

theorem simplifiesFully_tangled : SimplifiesFully tangled ↔ (shape tangled).leftOver = false :=
  simplifiesFully_iff tangled (by decide)

/-- The negation of a bare negation stays. -/
theorem negated_not_simplifiesFully :
    WellFormed ⟨.not, "", [⟨.not, "a", []⟩]⟩ ∧ ¬ SimplifiesFully ⟨.not, "", [⟨.not, "a", []⟩]⟩ := by
  refine ⟨by decide, fun h => ?_⟩
  exact (h.2 _ (self_mem_subnodes _)).negations rfl ⟨.not, "a", []⟩ (by decide) rfl

end Fsmc.Passes.GuardSimplification
