/-
# Fsmc.ModelChecker.DataPredicate — predicates over data against the values they speak about.

A comparison of a variable with a number is decided by the interval that the variable has in a state, and
comes out true only when the bounds force it. It is then false both when the bounds force the opposite
and when they force nothing; a negation turns the second case into a wrong answer. `Decided` separates
the two, and `dataPredicates_sound_iff` says that it is what soundness needs.
-/
import Fsmc.ModelChecker.Agreement
import Mathlib.Logic.Function.Basic
import Mathlib.Tactic.Linarith

namespace Fsmc

open Fsmc.Cpp Fsmc.Ir Fsmc.Analysis

/-! ## What the bounds force -/

namespace RelOp

/-- What a comparison says of two numbers. -/
def Holds : RelOp → ℚ → ℚ → Prop
  | lt, a, b => a < b
  | le, a, b => a ≤ b
  | gt, a, b => b < a
  | ge, a, b => b ≤ a
  | eq, a, b => a = b
  | ne, a, b => a ≠ b

/-- The comparison that holds when this one does not. -/
def negated : RelOp → RelOp
  | lt => ge
  | le => gt
  | gt => le
  | ge => lt
  | eq => ne
  | ne => eq

theorem holds_negated {op : RelOp} {a b : ℚ} : op.negated.Holds a b ↔ ¬ op.Holds a b := by
  cases op <;> simp [negated, Holds]

/-- A comparison that the bounds of an interval force: `onInterval` without the tolerance of `==`. -/
def forced (op : RelOp) (iv : Interval) (c : ℚ) : Bool :=
  match op with
  | eq => decide (iv.lo = .fin c ∧ iv.hi = .fin c)
  | op => op.onInterval iv (.fin c)

variable {op : RelOp} {iv : Interval} {c x : ℚ}

theorem forced_of_ne_eq (h : op ≠ eq) : op.forced iv c = op.onInterval iv (.fin c) := by
  cases op with
  | eq => exact absurd rfl h
  | _ => rfl

theorem onInterval_of_forced (h : op.forced iv c = true) : op.onInterval iv (.fin c) = true := by
  by_cases heq : op = eq
  · subst heq
    obtain ⟨hlo, hhi⟩ := of_decide_eq_true h
    simp [onInterval, hlo, hhi, Double.near_self]
  · rwa [forced_of_ne_eq heq] at h

theorem holds_of_forced (h : op.forced iv c = true) (hx : iv.contains (.fin x) = true) : op.Holds x c := by
  obtain ⟨lo, hi⟩ := iv
  rw [Interval.contains_iff] at hx
  cases op <;> cases lo <;> cases hi <;>
    simp_all [forced, onInterval, Holds, Double.le, Double.lt] <;> grind

/-- **Bounds are exact.** For an interval with a number in it, a comparison that holds of every value is
forced. -/
theorem forced_of_holds (hx : iv.contains (.fin x) = true)
    (h : ∀ y, iv.contains (.fin y) = true → op.Holds y c) : op.forced iv c = true := by
  cases op with
  | lt => exact Interval.hi_lt_of_forall hx h
  | le => exact Interval.hi_le_of_forall hx h
  | gt => exact Interval.lt_lo_of_forall hx h
  | ge => exact Interval.le_lo_of_forall hx h
  | eq =>
    show decide (iv.lo = .fin c ∧ iv.hi = .fin c) = true
    have hhi := Interval.hi_le_of_forall hx fun y hy => (h y hy : y = c).le
    have hlo := Interval.le_lo_of_forall hx fun y hy => (h y hy : y = c).ge
    -- the number in the interval is `c`, so the bounds lie on both sides of it
    have hxc : x = c := h x hx
    rw [hxc, Interval.contains_iff] at hx
    exact decide_eq_true ⟨Double.le_antisymm hx.1 hlo, Double.le_antisymm hhi hx.2⟩
  | ne =>
    show ((Double.fin c).lt iv.lo || iv.hi.lt (.fin c)) = true
    -- a number that is not beyond a bound is in the interval
    have hnot : ¬ iv.contains (.fin c) = true := fun hc => h c hc rfl
    obtain ⟨lo, hi⟩ := iv
    rw [Interval.contains_iff] at hx hnot
    cases lo <;> cases hi <;> simp_all [Double.le, Double.lt]
    grind

theorem usable_of_forced (h : op.forced iv c = true) (hx : iv.contains (.fin x) = true) : usable iv = true := by
  obtain ⟨lo, hi⟩ := iv
  rw [Interval.contains_iff] at hx
  cases op <;> cases lo <;> cases hi <;>
    simp_all [forced, onInterval, usable, Interval.isEmpty, Double.isInf, Double.le, Double.lt] <;>
    grind

end RelOp

/-! ## Comparisons as texts -/

/-- The characters that operators are made of. -/
def isOpChar (c : Char) : Bool := c = '<' || c = '>' || c = '=' || c = '!'

theorem isOpChar_of_isSpace {c : Char} (h : isSpace c = true) : isOpChar c = false := by
  unfold isSpace at h
  simp only [Bool.or_eq_true, decide_eq_true_eq] at h
  rcases h with ((((rfl | rfl) | rfl) | rfl) | rfl) | rfl <;> decide

/-- Text that is one word: neither white space nor an operator in it. -/
def IsWord (s : String) : Prop := s ≠ "" ∧ ∀ c ∈ s.toList, isSpace c = false ∧ isOpChar c = false

instance (s : String) : Decidable (IsWord s) :=
  decidable_of_iff (s ≠ "" ∧ (s.toList.all fun c => !isSpace c && !isOpChar c) = true) <| by
    simp [IsWord, List.all_eq_true]

/-- A comparison of a variable with a number, with white space anywhere around its parts. The keyword
`state` is not a variable, and the number is one that `double` can hold. -/
structure Comparison where
  var : String
  op : RelOp
  number : String
  value : ℚ
  before : String := ""
  gapLeft : String := " "
  gapRight : String := " "
  after : String := ""
  var_isWord : IsWord var
  var_ne_state : var ≠ "state"
  number_isWord : IsWord number
  reads : stod number = some (.fin value)
  before_isBlank : IsBlank before
  gapLeft_isBlank : IsBlank gapLeft
  gapRight_isBlank : IsBlank gapRight
  after_isBlank : IsBlank after

namespace Comparison

variable (c : Comparison)

/-- The comparison from the variable to the number. -/
def trimmed : String := c.var ++ c.gapLeft ++ (c.op.text ++ (c.gapRight ++ c.number))

def text : String := c.before ++ c.trimmed ++ c.after

end Comparison

theorem IsWord.toList_ne_nil {s : String} (h : IsWord s) : s.toList ≠ [] := by
  intro hnil
  exact h.1 (String.toList_eq_nil_iff.mp hnil)

theorem IsWord.head {s : String} (h : IsWord s) : ∀ c ∈ s.toList.head?, isSpace c = false :=
  fun c hc => (h.2 c (List.mem_of_mem_head? hc)).1

theorem IsWord.last {s : String} (h : IsWord s) : ∀ c ∈ s.toList.getLast?, isSpace c = false :=
  fun c hc => (h.2 c (List.mem_of_mem_getLast? hc)).1

namespace RelOp

/-- Whether an operator has a character that `op` does not have. -/
def hasOther (op op' : RelOp) : Bool :=
  op'.text.toList.any fun d => isOpChar d && !op.text.toList.contains d

theorem all_split (op : RelOp) : ∃ earlier later, all = earlier ++ op :: later ∧ earlier.all op.hasOther = true := by
  cases op with
  | le => exact ⟨[], _, rfl, by decide⟩
  | ge => exact ⟨[le], _, rfl, by decide⟩
  | ne => exact ⟨[le, ge], _, rfl, by decide⟩
  | eq => exact ⟨[le, ge, ne], _, rfl, by decide⟩
  | lt => exact ⟨[le, ge, ne, eq], _, rfl, by decide⟩
  | gt => exact ⟨[le, ge, ne, eq, lt], _, rfl, by decide⟩

theorem text_eq_cons (op : RelOp) : ∃ d r, op.text.toList = d :: r ∧ isOpChar d = true := by
  cases op <;> exact ⟨_, _, rfl, by decide⟩

end RelOp

namespace Comparison

open ModelChecker

variable (c : Comparison)

theorem trimmed_toList : c.trimmed.toList = c.var.toList ++ c.gapLeft.toList ++
    (c.op.text.toList ++ (c.gapRight.toList ++ c.number.toList)) := by
  simp [trimmed]

theorem head_trimmed : c.trimmed.toList.head? = c.var.toList.head? := by
  rw [trimmed_toList, List.append_assoc, List.head?_append_of_ne_nil _ c.var_isWord.toList_ne_nil]

theorem getLast_trimmed : c.trimmed.toList.getLast? = c.number.toList.getLast? := by
  rw [trimmed_toList, ← List.append_assoc, ← List.append_assoc,
    List.getLast?_append_of_ne_nil _ c.number_isWord.toList_ne_nil]

theorem trimStr_text : trimStr c.text = c.trimmed := by
  apply trimStr_padded c.before_isBlank c.after_isBlank
  · rw [head_trimmed]
    exact c.var_isWord.head
  · rw [getLast_trimmed]
    exact c.number_isWord.last

theorem mem_op_of_mem_trimmed {d : Char} (hd : d ∈ c.trimmed.toList) (hop : isOpChar d = true) :
    d ∈ c.op.text.toList := by
  rw [trimmed_toList] at hd
  simp only [List.mem_append] at hd
  rcases hd with (hvar | hgap) | hd | hgap | hnum
  · exact absurd hop (by simp [(c.var_isWord.2 d hvar).2])
  · exact absurd hop (by simp [isOpChar_of_isSpace (c.gapLeft_isBlank d hgap)])
  · exact hd
  · exact absurd hop (by simp [isOpChar_of_isSpace (c.gapRight_isBlank d hgap)])
  · exact absurd hop (by simp [(c.number_isWord.2 d hnum).2])

theorem trimmed_ne {s : String} (h : s.toList.any isOpChar = false) : c.trimmed ≠ s := by
  obtain ⟨d, r, hop, hd⟩ := c.op.text_eq_cons
  intro heq
  have hmem : d ∈ c.trimmed.toList := by
    rw [trimmed_toList, hop]
    simp
  rw [heq] at hmem
  exact List.any_eq_false.mp h d hmem hd

theorem head_trimmed_ne {d : Char} (hd : isOpChar d = true) : c.trimmed.toList.head? ≠ some d := by
  rw [head_trimmed]
  intro h
  exact absurd hd (by simp [(c.var_isWord.2 d (List.mem_of_mem_head? h)).2])

theorem rest_eq_cons : ∃ d r, c.gapLeft.toList ++
    (c.op.text.toList ++ (c.gapRight.toList ++ c.number.toList)) = d :: r ∧
      (isSpace d = true ∨ isOpChar d = true) := by
  cases hgap : c.gapLeft.toList with
  | cons d r => exact ⟨d, _, rfl, Or.inl (c.gapLeft_isBlank d (by simp [hgap]))⟩
  | nil =>
    obtain ⟨d, r, hop, hd⟩ := c.op.text_eq_cons
    exact ⟨d, _, by rw [hop]; rfl, Or.inr hd⟩

/-- When the text begins with `state`, so does the variable, and what follows begins with the rest of
its name. -/
theorem exists_more (hstate : startsWith c.trimmed "state" = true) : ∃ more, IsWord more ∧ substrFrom c.trimmed 5 =
      more ++ c.gapLeft ++ (c.op.text ++ (c.gapRight ++ c.number)) := by
  obtain ⟨d, r, hrest, hd⟩ := c.rest_eq_cons
  have hprefix : "state".toList <+: c.var.toList := by
    unfold startsWith at hstate
    rw [List.isPrefixOf_iff_prefix, trimmed_toList, List.append_assoc, hrest] at hstate
    apply prefix_of_prefix_append hstate
    intro hmem
    have hword : IsWord "state" := by decide
    obtain ⟨hspace, hop⟩ := hword.2 d hmem
    exact hd.elim (by simp [hspace]) (by simp [hop])
  obtain ⟨more, hmore⟩ := hprefix
  refine ⟨String.ofList more, ⟨fun hempty => ?_, fun e he => ?_⟩, ?_⟩
  · have hnil : more = [] := by
      rw [← String.toList_ofList (l := more), hempty]
      rfl
    rw [hnil, List.append_nil] at hmore
    exact c.var_ne_state (String.toList_inj.mp hmore.symm)
  · rw [String.toList_ofList] at he
    apply c.var_isWord.2 e
    rw [← hmore]
    exact List.mem_append_right _ he
  · apply String.toList_inj.mp
    rw [substrFrom, String.toList_ofList, trimmed_toList, ← hmore]
    simp

/-- A variable whose name begins with `state` does not make the atom a comparison of the state. -/
theorem compareState_trimmed (s : String) : compareState s c.trimmed = none := by
  unfold compareState
  by_cases hstate : startsWith c.trimmed "state" = true
  · -- what is left starts with a letter of the variable, not with `=` or `!`
    obtain ⟨more, hword, htail⟩ := c.exists_more hstate
    have hhead : (substrFrom c.trimmed 5).toList.head? = more.toList.head? := by
      rw [htail, String.append_assoc, String.toList_append,
        List.head?_append_of_ne_nil _ hword.toList_ne_nil]
    have hlast : (substrFrom c.trimmed 5).toList.getLast? = c.number.toList.getLast? := by
      rw [htail, ← String.append_assoc, ← String.append_assoc, String.toList_append,
        List.getLast?_append_of_ne_nil _ c.number_isWord.toList_ne_nil]
    have htrim : trimStr (substrFrom c.trimmed 5) = substrFrom c.trimmed 5 := by
      apply trimStr_eq_self
      · rw [hhead]
        exact hword.head
      · rw [hlast]
        exact c.number_isWord.last
    have hno : ∀ (p : String) (e : Char), p.toList.head? = some e → isOpChar e = true →
        startsWith (substrFrom c.trimmed 5) p = false := by
      intro p e hp he
      apply startsWith_eq_false hp
      rw [hhead]
      intro h
      exact absurd he (by simp [(hword.2 e (List.mem_of_mem_head? h)).2])
    rw [if_pos hstate, htrim]
    simp only [hno "==" '=' rfl rfl, hno "!=" '!' rfl rfl, hno "=" '=' rfl rfl]
    rfl
  · rw [if_neg hstate]

variable {mc : ModelChecker} {s : String} {iv : Interval}

theorem evalComparison_self (hiv : mc.stateIntervals.find s c.var = some iv) (husable : usable iv = true) :
    mc.evalComparison s c.trimmed c.op = some (c.op.onInterval iv (.fin c.value)) := by
  have hfind : find c.trimmed c.op.text = some (c.var.toList ++ c.gapLeft.toList).length := by
    unfold find
    rw [trimmed_toList]
    obtain ⟨d, r, hop, hd⟩ := c.op.text_eq_cons
    apply findSub_append (by rw [hop]; exact List.cons_ne_nil _ _)
    intro e he
    rw [hop, List.head?_cons, Option.mem_some]
    rintro rfl
    cases List.mem_append.mp he with
    | inl hvar => exact absurd hd (by simp [(c.var_isWord.2 _ hvar).2])
    | inr hgap => exact absurd hd (by simp [isOpChar_of_isSpace (c.gapLeft_isBlank _ hgap)])
  have hlhs : trimStr (substrTo c.trimmed (c.var.toList ++ c.gapLeft.toList).length) = c.var := by
    have htake : substrTo c.trimmed (c.var.toList ++ c.gapLeft.toList).length =
        "" ++ c.var ++ c.gapLeft := by
      apply String.toList_inj.mp
      rw [substrTo, String.toList_ofList, trimmed_toList, List.take_left']
      · simp
      · rfl
    rw [htake]
    exact trimStr_padded (fun e he => absurd he List.not_mem_nil) c.gapLeft_isBlank
      c.var_isWord.head c.var_isWord.last
  have hrhs : trimStr (substrFrom c.trimmed
      ((c.var.toList ++ c.gapLeft.toList).length + c.op.text.length)) = c.number := by
    have hdrop : substrFrom c.trimmed
        ((c.var.toList ++ c.gapLeft.toList).length + c.op.text.length) =
          c.gapRight ++ c.number ++ "" := by
      apply String.toList_inj.mp
      rw [substrFrom, String.toList_ofList, trimmed_toList, ← List.drop_drop, List.drop_left' rfl,
        List.drop_left' String.length_toList]
      simp
    rw [hdrop]
    exact trimStr_padded c.gapRight_isBlank (fun e he => absurd he List.not_mem_nil)
      c.number_isWord.head c.number_isWord.last
  have hinterval : mc.compareInterval s c.op c.var c.number =
      some (c.op.onInterval iv (.fin c.value)) := by
    unfold compareInterval
    simp only [hiv, if_pos husable, c.reads]
    rfl
  unfold evalComparison
  simp only [hfind, hlhs, hrhs, if_neg c.var_ne_state, hinterval]
  rfl

/-- **The value of a comparison.** With a usable interval the atom is true when the bounds make it so,
or when the state happens to be called like it. -/
theorem evalAtomPredicate_text (hiv : mc.stateIntervals.find s c.var = some iv) (husable : usable iv = true) :
    mc.evalAtomPredicate s c.text =
      (decide (c.trimmed = s) || c.op.onInterval iv (.fin c.value)) := by
  have hneg : startsWith c.trimmed "!" = false :=
    startsWith_eq_false rfl (c.head_trimmed_ne rfl)
  rw [evalAtomPredicate_eq, trimStr_text, if_neg (c.trimmed_ne (s := "") rfl), hneg,
    if_neg Bool.false_ne_true]
  unfold evalPlainAtom
  rw [if_neg (not_or.mpr ⟨c.trimmed_ne (s := "true") rfl, c.trimmed_ne (s := "1") rfl⟩),
    if_neg (not_or.mpr ⟨c.trimmed_ne (s := "false") rfl, c.trimmed_ne (s := "0") rfl⟩)]
  by_cases hs : c.trimmed = s
  · rw [if_pos hs, decide_eq_true hs, Bool.true_or]
  · have hops : RelOp.all.findSome? (mc.evalComparison s c.trimmed) =
        some (c.op.onInterval iv (.fin c.value)) := by
      obtain ⟨earlier, later, hsplit, hearlier⟩ := c.op.all_split
      -- an operator that is tried before `c.op` has a character that the text does not have
      have hnone : earlier.findSome? (mc.evalComparison s c.trimmed) = none := by
        rw [List.findSome?_eq_none_iff]
        intro op' hop'
        obtain ⟨d, hd, hother⟩ := List.any_eq_true.mp (List.all_eq_true.mp hearlier op' hop')
        rw [Bool.and_eq_true, Bool.not_eq_true'] at hother
        have hnot : d ∉ c.trimmed.toList := by
          intro hmem
          have hop := List.contains_iff_mem.mpr (c.mem_op_of_mem_trimmed hmem hother.1)
          rw [hother.2] at hop
          exact Bool.false_ne_true hop
        unfold evalComparison
        rw [find_eq_none hd hnot]
      rw [hsplit, List.findSome?_append, hnone, List.findSome?_cons,
        c.evalComparison_self hiv husable]
      rfl
    rw [if_neg hs, decide_eq_false hs, Bool.false_or, compareState_trimmed, hops]

end Comparison

/-! ## Soundness -/

/-- A value for every variable. -/
abbrev Valuation := String → ℚ

/-- What a comparison says of a valuation. -/
def Comparison.Holds (c : Comparison) (v : Valuation) : Prop := c.op.Holds (v c.var) c.value

/-- `Denotes 𝒜 p P`: the predicate `p` is built from comparisons of `𝒜`, and says `P` of a valuation. -/
inductive Denotes (𝒜 : Set Comparison) : PropertyAstNode → (Valuation → Prop) → Prop
  | compare {c : Comparison} : c ∈ 𝒜 → Denotes 𝒜 (.ofAtom c.text) c.Holds
  | not {text : String} {p : PropertyAstNode} {P : Valuation → Prop} :
      Denotes 𝒜 p P → Denotes 𝒜 (.mk .not text [p]) fun v => ¬ P v
  | and {text : String} {ps : List (PropertyAstNode × (Valuation → Prop))} :
      (∀ x ∈ ps, Denotes 𝒜 x.1 x.2) →
        Denotes 𝒜 (.mk .and text (ps.map Prod.fst)) fun v => ∀ x ∈ ps, x.2 v
  | or {text : String} {ps : List (PropertyAstNode × (Valuation → Prop))} :
      (∀ x ∈ ps, Denotes 𝒜 x.1 x.2) →
        Denotes 𝒜 (.mk .or text (ps.map Prod.fst)) fun v => ∃ x ∈ ps, x.2 v
  | implies {text : String} {p q : PropertyAstNode} {P Q : Valuation → Prop} :
      Denotes 𝒜 p P → Denotes 𝒜 q Q → Denotes 𝒜 (.mk .implies text [p, q]) fun v => P v → Q v
  | equivalent {text : String} {p q : PropertyAstNode} {P Q : Valuation → Prop} :
      Denotes 𝒜 p P → Denotes 𝒜 q Q →
        Denotes 𝒜 (.mk .equivalent text [p, q]) fun v => P v ↔ Q v

namespace ModelChecker

variable {mc : ModelChecker} {𝒜 : Set Comparison} {s : String} {v : Valuation}

/-- The valuations that the intervals of a state allow. A variable that is not tracked there can have
any value. -/
def Allows (mc : ModelChecker) (s : String) (v : Valuation) : Prop :=
  ∀ x iv, mc.stateIntervals.find s x = some iv → iv.contains (.fin (v x)) = true

/-- A predicate over `𝒜` that is true in the state holds of all that the intervals allow. -/
def SoundAt (mc : ModelChecker) (𝒜 : Set Comparison) (s : String) : Prop :=
  ∀ p P, Denotes 𝒜 p P → mc.evalPredicate s p = true → ∀ v, mc.Allows s v → P v

/-- The bounds of its variable force a comparison, or force the opposite. In the second case nothing may
make the code answer yes all the same: neither the tolerance of `==` nor a state with the text of the
comparison for a name. -/
def Decided (mc : ModelChecker) (s : String) (c : Comparison) : Prop :=
  ∃ iv, mc.stateIntervals.find s c.var = some iv ∧
    (c.op.forced iv c.value = true ∨
      c.op.negated.forced iv c.value = true ∧ c.trimmed ≠ s ∧
        (c.op = .eq → (iv.lo.near (.fin c.value) && iv.hi.near (.fin c.value)) = false))

theorem evalAtomPredicate_iff_of_decided {c : Comparison} (hc : mc.Decided s c)
    (hv : mc.Allows s v) : mc.evalAtomPredicate s c.text = true ↔ c.Holds v := by
  obtain ⟨iv, hiv, hcase⟩ := hc
  have hin := hv c.var iv hiv
  cases hcase with
  | inl hforced =>
    rw [c.evalAtomPredicate_text hiv (RelOp.usable_of_forced hforced hin),
      RelOp.onInterval_of_forced hforced, Bool.or_true]
    exact iff_of_true rfl (RelOp.holds_of_forced hforced hin)
  | inr hopposite =>
    obtain ⟨hforced, hname, hnear⟩ := hopposite
    have hnot : ¬ c.Holds v := RelOp.holds_negated.mp (RelOp.holds_of_forced hforced hin)
    have hfalse : c.op.onInterval iv (.fin c.value) = false := by
      by_cases heq : c.op = .eq
      · rw [heq]
        exact hnear heq
      · rw [← RelOp.forced_of_ne_eq heq, Bool.eq_false_iff]
        exact fun h => hnot (RelOp.holds_of_forced h hin)
    rw [c.evalAtomPredicate_text hiv (RelOp.usable_of_forced hforced hin), hfalse,
      decide_eq_false hname]
    exact iff_of_false Bool.false_ne_true hnot

theorem evalPredicate_iff_of_decided (hdecided : ∀ c ∈ 𝒜, mc.Decided s c) (hv : mc.Allows s v)
    {p : PropertyAstNode} {P : Valuation → Prop} (hp : Denotes 𝒜 p P) :
    mc.evalPredicate s p = true ↔ P v := by
  induction hp with
  | compare hc => exact evalAtomPredicate_iff_of_decided (hdecided _ hc) hv
  | @not _ p _ _ ih =>
    show (!mc.evalPredicate s p) = true ↔ _
    rw [Bool.not_eq_true', ← Bool.not_eq_true, ih]
  | @and _ ps _ ih =>
    rw [evalPredicate_and, List.all_eq_true, List.forall_mem_map]
    exact forall_congr' fun x => forall_congr' fun hx => ih x hx
  | @or _ ps _ ih =>
    rw [evalPredicate_or, List.any_eq_true]
    constructor
    · intro ⟨p, hp, hvalue⟩
      obtain ⟨x, hx, rfl⟩ := List.mem_map.mp hp
      exact ⟨x, hx, (ih x hx).mp hvalue⟩
    · intro ⟨x, hx, hholds⟩
      exact ⟨x.1, List.mem_map_of_mem hx, (ih x hx).mpr hholds⟩
  | @implies _ p q _ _ _ _ ihp ihq =>
    show (!mc.evalPredicate s p || mc.evalPredicate s q) = true ↔ _
    rw [Bool.or_eq_true, Bool.not_eq_true', ← Bool.not_eq_true, ihp, ihq]
    exact imp_iff_not_or.symm
  | @equivalent _ p q _ _ _ _ ihp ihq =>
    show (mc.evalPredicate s p == mc.evalPredicate s q) = true ↔ _
    rw [beq_iff_eq, Bool.eq_iff_iff, ihp, ihq]

theorem forced_of_allowed {x : String} {op : RelOp} {b : ℚ} (hv : mc.Allows s v)
    (h : ∀ w, mc.Allows s w → op.Holds (w x) b) :
    ∃ iv, mc.stateIntervals.find s x = some iv ∧ op.forced iv b = true := by
  -- the value of `x` can be changed within its interval, and without one at will
  have hupdate : ∀ y, (∀ iv, mc.stateIntervals.find s x = some iv → iv.contains (.fin y) = true) →
      op.Holds y b := by
    intro y hy
    have hallowed : mc.Allows s (Function.update v x y) := by
      intro z iv hiv
      by_cases hz : z = x
      · subst hz
        rw [Function.update_self]
        exact hy iv hiv
      · rw [Function.update_of_ne hz]
        exact hv z iv hiv
    have hholds := h _ hallowed
    rwa [Function.update_self] at hholds
  cases hiv : mc.stateIntervals.find s x with
  | some iv =>
    refine ⟨iv, rfl, RelOp.forced_of_holds (hv x iv hiv) fun y hy => hupdate y fun iv' hiv' => ?_⟩
    rw [hiv] at hiv'
    rwa [← Option.some.inj hiv']
  | none =>
    -- no comparison with a number holds of all numbers
    have hall : ∀ y, op.Holds y b := fun y => hupdate y fun iv h => absurd (hiv.symm.trans h) (by simp)
    have hless := hall (b - 1)
    have hmore := hall (b + 1)
    have hsame := hall b
    cases op <;> simp [RelOp.Holds] at hless hmore hsame <;> linarith

theorem decided_of_soundAt (hsound : mc.SoundAt 𝒜 s) (hv : mc.Allows s v) {c : Comparison}
    (hc : c ∈ 𝒜) : mc.Decided s c := by
  have hatom : Denotes 𝒜 (.ofAtom c.text) c.Holds := .compare hc
  by_cases hvalue : mc.evalAtomPredicate s c.text = true
  · obtain ⟨iv, hiv, hforced⟩ := forced_of_allowed hv (hsound _ _ hatom hvalue)
    exact ⟨iv, hiv, Or.inl hforced⟩
  · -- the negation of the atom is true, so the opposite is forced
    have hnot : ∀ w, mc.Allows s w → ¬ c.Holds w := by
      refine hsound (.unary .not (.ofAtom c.text)) _ (.not hatom) ?_
      show (!mc.evalAtomPredicate s c.text) = true
      rw [Bool.not_eq_true] at hvalue
      rw [hvalue]
      rfl
    obtain ⟨iv, hiv, hforced⟩ :=
      forced_of_allowed hv fun w hw => RelOp.holds_negated.mpr (hnot w hw)
    have husable := RelOp.usable_of_forced hforced (hv c.var iv hiv)
    rw [c.evalAtomPredicate_text hiv husable, Bool.or_eq_true, not_or, decide_eq_true_eq,
      Bool.not_eq_true] at hvalue
    refine ⟨iv, hiv, Or.inr ⟨hforced, hvalue.1, fun heq => ?_⟩⟩
    rw [heq] at hvalue
    exact hvalue.2

/-- **Data predicates.** All predicates over `𝒜` are evaluated soundly in a state exactly when its
intervals allow no valuation at all, or decide every comparison of `𝒜`. -/
theorem dataPredicates_sound_iff (mc : ModelChecker) (𝒜 : Set Comparison) (s : String) :
    mc.SoundAt 𝒜 s ↔ (∀ v, ¬ mc.Allows s v) ∨ ∀ c ∈ 𝒜, mc.Decided s c := by
  constructor
  · intro hsound
    by_cases hnone : ∀ v, ¬ mc.Allows s v
    · exact Or.inl hnone
    · push Not at hnone
      obtain ⟨v, hv⟩ := hnone
      exact Or.inr fun c hc => decided_of_soundAt hsound hv hc
  · intro hcond p P hp hvalue v hv
    cases hcond with
    | inl hnone => exact absurd hv (hnone v)
    | inr hdecided => exact (evalPredicate_iff_of_decided hdecided hv hp).mp hvalue

/-- A port between 0 and 10 in the only state. -/
def metered : ModelChecker where
  order := .insertion
  ir :=
    { initialState := "Idle"
      states := [{ name := "Idle" }]
      ports := [{ name := "level", minValue := some (.fin 0), maxValue := some (.fin 10) }] }
  stateIntervals := [("Idle", [("level", ⟨.fin 0, .fin 10⟩)])]

def lowLevel : Comparison where
  var := "level"
  op := .lt
  number := "5"
  value := 5
  var_isWord := by decide
  var_ne_state := by decide
  number_isWord := by decide
  reads := by decide +kernel
  before_isBlank := by decide
  gapLeft_isBlank := by decide
  gapRight_isBlank := by decide
  after_isBlank := by decide

/-- `G !(level < 5)` passes on the metered model, and the intervals allow the level 3. -/
theorem invariant_passes_metered : (metered.verifyProperty
        { ast := some (.unary .globally (.unary .not (.ofAtom lowLevel.text))) }).passed = true ∧
      ¬ metered.SoundAt {lowLevel} "Idle" := by
  refine ⟨by decide +kernel, fun hsound => ?_⟩
  have hdenotes : Denotes {lowLevel} (.unary .not (.ofAtom lowLevel.text))
      (fun v => ¬ lowLevel.Holds v) := .not (.compare rfl)
  have hallowed : metered.Allows "Idle" fun _ => 3 := by
    intro x iv hiv
    by_cases hx : x = "level"
    · subst hx
      rw [← Option.some.inj hiv]
      decide +kernel
    · have hnone : metered.stateIntervals.find "Idle" x = none := by
        show List.lookup x [("level", _)] = none
        rw [List.lookup_cons, beq_false_of_ne hx]
        rfl
      exact absurd (hnone.symm.trans hiv) (by simp)
  refine hsound _ _ hdenotes (by decide +kernel) _ hallowed ?_
  show (3 : ℚ) < 5
  norm_num

end ModelChecker

end Fsmc
