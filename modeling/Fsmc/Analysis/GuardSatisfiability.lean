/-
# Fsmc.Analysis.GuardSatisfiability — warnings about guards that cannot hold, or can hold together.

A guard is split at its conjunctions, and the first comparison of a variable with a literal in each part becomes an
interval of the variable, whatever stands around it. A guard with an empty interval is reported as dead. Of two
guards of one trigger and priority that have intervals for a common variable it is reported that they may overlap,
unless one of the intersections is empty.
-/
import Fsmc.Analysis.EfsmInterval
import Fsmc.Cpp.RegexSearch
import Mathlib.Data.List.Dedup
import Mathlib.Data.List.Sort

namespace Fsmc.Analysis.GuardSatisfiability

open Fsmc.Cpp Fsmc.Ir Fsmc.Lib
open Fsmc.Analysis.EfsmInterval (Env str)

/-! ## Clauses -/

def isWordChar (c : Char) : Bool := c.isAlphanum || c = '_'

/-- What follows a match of `\\s*(?:&&|\\band\\b)\\s*` at the front of a text; the flag says whether a character of a
word stands before it. -/
def separatorAt (afterWord : Bool) (text : List Char) : Option (List Char) :=
  let body := text.dropWhile isSpace
  if "&&".toList <+: body then some ((body.drop 2).dropWhile isSpace)
  else if "and".toList <+: body && !(afterWord && body.length = text.length) &&
      !((body.drop 3).head?.any isWordChar) then
    some ((body.drop 3).dropWhile isSpace)
  else none

/-- What stands between the separators, with the characters since the last one, the latest first; nothing at the end
of a text is no clause. -/
def clausesFrom : ℕ → Bool → List Char → List Char → List (List Char)
  | 0, _, _, _ => []
  | _ + 1, _, clause, [] => if clause = [] then [] else [clause.reverse]
  | fuel + 1, afterWord, clause, c :: text =>
    match separatorAt afterWord (c :: text) with
    | some rest => clause.reverse :: clausesFrom fuel false [] rest
    | none => clausesFrom fuel (isWordChar c) (c :: clause) text

def clauses (guardStr : List Char) : List (List Char) := clausesFrom (guardStr.length + 1) false [] guardStr

/-! ## Constraints -/

def cleanNumber (s : String) : String := String.ofList (s.toList.rdropWhile EfsmInterval.isSuffixChar)

section Patterns

open Regex

/-- The qualifiers that are passed over. -/
def qualifierWords : List String := ["in", "reg", "out", "cmd", "event", "payload"]

/-- `(?:(?:in|reg|out|cmd|event|payload)\.)?`. -/
def qualifier : Regex := opt (seq (oneOf qualifierWords) (one (· = '.')))

/-- `[a-zA-Z_]\w*`. -/
def identifier : Regex := seq (one fun c => c.isAlpha || c = '_') (many isWordChar)

/-- The operators, those of two characters first. -/
def operators : List String := ["==", "!=", ">=", "<=", ">", "<"]

/-- A variable, an operator and a value. -/
def comparison (ops : List String) (value : Regex) : Regex :=
  concat [qualifier, group 1 identifier, spaces, group 2 (oneOf ops), spaces, group 3 value]

def cmpRe : Regex := comparison operators EfsmInterval.number

def boolEqRe : Regex := comparison ["==", "!="] (oneOf ["true", "false"])

end Patterns

def clauseInterval (op : String) (val : Double) : Interval :=
  if op = "==" then ⟨val, val⟩
  else if op = ">=" then ⟨val, .posInf⟩
  else if op = ">" then ⟨val.add Double.tolerance, .posInf⟩
  else if op = "<=" then ⟨.negInf, val⟩
  else if op = "<" then ⟨.negInf, val.sub Double.tolerance⟩
  else {}

def boolInterval (op val : String) : Interval :=
  if xor (val = "true") (op = "!=") then ⟨.fin 1, .fin 1⟩ else ⟨.fin 0, .fin 0⟩

/-- The variable and the interval that are read from a clause, if there is a comparison in it. -/
def readClause (clause : List Char) : Option (String × Interval) :=
  match cmpRe.search (String.ofList clause) with
  | some m => (stod (cleanNumber (str m 3))).map fun val => (str m 1, clauseInterval (str m 2) val)
  | none =>
    (boolEqRe.search (String.ofList clause)).map fun m => (str m 1, boolInterval (str m 2) (str m 3))

/-- Another interval for a variable. -/
def constrain (result : Env) (reading : String × Interval) : Env :=
  AssocList.assign reading.1
    (match result.lookup reading.1 with
      | some old => old.intersectWith reading.2
      | none => reading.2) result

def extractGuardConstraints (guardStr : List Char) : Env :=
  ((clauses guardStr).filterMap readClause).foldl constrain []

/-! ## Warnings -/

inductive Warning where
  | dead (t : TransitionEdge)
  | overlapping (t₁ t₂ : TransitionEdge)

def Warning.code : Warning → String
  | dead _ => "W0302"
  | overlapping _ _ => "W0301"

/-- `*t->guard`, empty where there is none. -/
def guardOf (t : TransitionEdge) : String := t.guard.getD ""

def Warning.message : Warning → String
  | dead t => "Dead guard on transition from '" ++ t.source ++ "' to '" ++ t.target ++ "' on event '" ++ t.event ++
      "': guard '" ++ guardOf t ++ "' is unsatisfiable."
  | overlapping t₁ t₂ => "Potentially overlapping guards on transitions from '" ++ t₁.source ++ "' on event '" ++
      t₁.event ++ "': guards ['" ++ guardOf t₁ ++ "'] and ['" ++ guardOf t₂ ++ "'] may be simultaneously satisfiable."

def constraintsOf (t : TransitionEdge) : Env := extractGuardConstraints (guardOf t).toList

/-- Whether the guard of a transition is reported as dead. -/
def isDead (t : TransitionEdge) : Bool := guardOf t ≠ "" && (constraintsOf t).any fun entry => entry.2.isEmpty

def foundCommonVar (c₁ c₂ : Env) : Bool := c₁.any fun entry => (c₂.lookup entry.1).isSome

def provablyMutuallyExclusive (c₁ c₂ : Env) : Bool :=
  c₁.any fun entry => (c₂.lookup entry.1).any fun ival => (entry.2.intersectWith ival).isEmpty

/-- Whether two transitions of a trigger, the first before the second, are reported. -/
def mayOverlap (t₁ t₂ : TransitionEdge) : Bool :=
  guardOf t₁ ≠ "" && guardOf t₂ ≠ "" && t₁.priority = t₂.priority &&
    (guardOf t₁ = guardOf t₂ ||
      (foundCommonVar (constraintsOf t₁) (constraintsOf t₂) &&
        !provablyMutuallyExclusive (constraintsOf t₁) (constraintsOf t₂)))

/-- The pairs of a group that are reported. -/
def overlaps : List TransitionEdge → List Warning
  | [] => []
  | t₁ :: rest => ((rest.filter fun t₂ => mayOverlap t₁ t₂).map fun t₂ => .overlapping t₁ t₂) ++ overlaps rest

/-- The key of the group of a transition. -/
def triggerOf (t : TransitionEdge) : String × String := (t.source, t.event)

def keyLe (a b : String × String) : Prop := a.1 < b.1 ∨ a.1 = b.1 ∧ ¬b.2 < a.2

instance : DecidableRel keyLe := fun a b => inferInstanceAs (Decidable (a.1 < b.1 ∨ a.1 = b.1 ∧ ¬b.2 < a.2))

def groupKeys (ir : FsmIr) : List (String × String) := ((ir.transitions.map triggerOf).insertionSort keyLe).dedup

def group (ir : FsmIr) (key : String × String) : List TransitionEdge :=
  ir.transitions.filter fun t => triggerOf t = key

def run (ir : FsmIr) : List Warning :=
  (groupKeys ir).flatMap fun key =>
    ((group ir key).filter isDead).map .dead ++ overlaps (group ir key)

/-- The two transitions stand in this order among the transitions, and share their trigger. -/
def Rivals (ir : FsmIr) (t₁ t₂ : TransitionEdge) : Prop :=
  [t₁, t₂].Sublist ir.transitions ∧ triggerOf t₁ = triggerOf t₂

/-! ## What is reported -/

variable {ir : FsmIr} {t₁ t₂ : TransitionEdge}

theorem mem_groupKeys {key : String × String} :
    key ∈ groupKeys ir ↔ ∃ t ∈ ir.transitions, triggerOf t = key := by
  unfold groupKeys
  rw [List.mem_dedup, List.mem_insertionSort, List.mem_map]

theorem dead_notMem_overlaps (t : TransitionEdge) : ∀ l, Warning.dead t ∉ overlaps l := by
  intro l
  induction l with
  | nil => exact List.not_mem_nil
  | cons t₁ rest ih =>
    rw [overlaps, List.mem_append, not_or]
    refine ⟨fun h => ?_, ih⟩
    obtain ⟨t₂, -, h⟩ := List.mem_map.mp h
    cases h

theorem dead_mem_run {t : TransitionEdge} (ht : t ∈ ir.transitions) :
    Warning.dead t ∈ run ir ↔ isDead t = true := by
  unfold run
  rw [List.mem_flatMap]
  constructor
  · rintro ⟨key, -, hmem⟩
    rcases List.mem_append.mp hmem with hmem | hmem
    · obtain ⟨t', ht', heq⟩ := List.mem_map.mp hmem
      cases heq
      exact (List.mem_filter.mp ht').2
    · exact absurd hmem (dead_notMem_overlaps t _)
  · intro hdead
    refine ⟨triggerOf t, mem_groupKeys.mpr ⟨t, ht, rfl⟩, List.mem_append_left _ (List.mem_map_of_mem ?_)⟩
    exact List.mem_filter.mpr ⟨List.mem_filter.mpr ⟨ht, decide_eq_true rfl⟩, hdead⟩

theorem mem_overlaps (hoverlap : mayOverlap t₁ t₂ = true) :
    ∀ {l : List TransitionEdge}, [t₁, t₂].Sublist l → Warning.overlapping t₁ t₂ ∈ overlaps l := by
  intro l hsub
  induction l with
  | nil => cases hsub
  | cons t rest ih =>
    rw [overlaps, List.mem_append]
    cases hsub with
    | cons _ hrest => exact Or.inr (ih hrest)
    | cons_cons _ hrest =>
      have hmem : t₂ ∈ rest.filter fun t₂ => mayOverlap t₁ t₂ :=
        List.mem_filter.mpr ⟨List.singleton_sublist.mp hrest, hoverlap⟩
      exact Or.inl (List.mem_map.mpr ⟨t₂, hmem, rfl⟩)

theorem overlapping_mem_run (h : Rivals ir t₁ t₂)
    (hoverlap : mayOverlap t₁ t₂ = true) : Warning.overlapping t₁ t₂ ∈ run ir := by
  obtain ⟨hsub, htrigger⟩ := h
  unfold run
  refine List.mem_flatMap.mpr ⟨triggerOf t₁, ?_, List.mem_append_right _ (mem_overlaps hoverlap ?_)⟩
  · exact mem_groupKeys.mpr ⟨t₁, hsub.subset List.mem_cons_self, rfl⟩
  · have hkeep : [t₁, t₂].filter (fun t => decide (triggerOf t = triggerOf t₁)) = [t₁, t₂] := by
      rw [List.filter_eq_self]
      intro t ht
      rcases List.mem_cons.mp ht with rfl | ht
      · exact decide_eq_true rfl
      · rw [List.mem_singleton.mp ht]
        exact decide_eq_true htrigger.symm
    have hfilter := hsub.filter fun t => decide (triggerOf t = triggerOf t₁)
    rwa [hkeep] at hfilter

end Fsmc.Analysis.GuardSatisfiability
