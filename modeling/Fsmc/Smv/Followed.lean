/-
# Fsmc.Smv.Followed — what a module shows of a run of the machine it was exported from.

The branches ask for the source of a transition itself, so a transition that the leaf inherits from a state
around it has none; they go to the target itself, also where that is a composite state; and the counter of a
state counts all steps there and starts over behind the longest duration. A step that depends on none of this is
one that the module follows.
-/
import Fsmc.Lib.AssocList
import Fsmc.Runtime.TimedRun
import Fsmc.Smv.Serializer
import Mathlib.Data.List.Dedup

namespace Fsmc.Smv

open Fsmc.Ir Fsmc.Cpp Fsmc.Runtime Fsmc.Lib.SmvFormula Fsmc.Lib.SmvModule

variable {E : Type} (R : Reader) (S : TypedSource)

/-! ## What a module shows -/

/-- The states, the choice nodes and the ends of transitions. -/
def declaredStates (S : Source) : List String :=
  (S.ir.states.map (·.name) ++ S.ir.choiceNodes ++ S.ir.transitions.flatMap fun t => [t.source, t.target]).filter
    isStateName

/-- The constant of what occurs. -/
def eventConstant (event : Option String) : String := (event.map sanitizeSmvIdent).getD "none"

/-- A valuation shows a situation: the state, the event, the variables and the ports. -/
structure Shows (c : Situation Datum) (x : Stimulus Datum E) (ν : Values) : Prop where
  state : ν "state" = .symbol (sanitizeSmvIdent c.leaf)
  event : ν "event" = .symbol (eventConstant x.event)
  vars : ∀ v ∈ S.ir.vars, ν (sanitizeSmvIdent v.name) = c.vars v.name
  ports : ∀ p ∈ S.ir.ports, ν (sanitizeSmvIdent p.name) = x.ports p.name

/-- The runs of a machine in which the events of the exporter's source occur. -/
abbrev MachineRun (M : Meaning Datum E) := TimedRun M S.ir (eventNames S.toSource)

/-- The module simulates a run: one of its runs shows it, and distinct states and events are distinct there. -/
structure Simulates {M : Meaning Datum E} (run : MachineRun S M) : Prop where
  shown : ∃ ρ, (serialize S).IsRun R ρ ∧ ∀ i, Shows S (run.situation i) (run.stimulus i) (ρ i)
  states : ∀ s ∈ declaredStates S.toSource, ∀ s' ∈ declaredStates S.toSource,
    sanitizeSmvIdent s = sanitizeSmvIdent s' → s = s'
  events : ∀ e e' : Option String, (∀ a ∈ e, a ∈ eventNames S.toSource) → (∀ a ∈ e', a ∈ eventNames S.toSource) →
    eventConstant e = eventConstant e' → e = e'
  carried : ∀ Φ : (ℕ → Values) → Prop, (∀ ρ, (serialize S).IsRun R ρ → Φ ρ) →
    ∃ ρ, (∀ i, Shows S (run.situation i) (run.stimulus i) (ρ i)) ∧ Φ ρ

/-! ## Names that do not collide -/

/-- The names of the variables of the module. -/
def variableNames (S : Source) : List String :=
  "state" :: "event" :: (S.ir.vars.map (sanitizeSmvIdent ·.name) ++ S.ir.ports.map (sanitizeSmvIdent ·.name) ++
    freeGuardVars S ++ (stateMaxTimeouts S.ir).map fun entry => timerName entry.1)

def constantNames (S : Source) : List String :=
  (stateNames S).map sanitizeSmvIdent ++ "none" :: (eventNames S).map sanitizeSmvIdent

/-- The names of a machine are those of different things in a module, and its guards are propositions. -/
structure Declarable : Prop where
  states : ∀ s ∈ declaredStates S.toSource, ∀ s' ∈ declaredStates S.toSource,
    sanitizeSmvIdent s = sanitizeSmvIdent s' → s = s'
  events : (("none" :: (eventNames S.toSource).map sanitizeSmvIdent)).Nodup
  names : ∀ name ∈ variableNames S.toSource ++ constantNames S.toSource, IsName name
  distinct : (variableNames S.toSource).Nodup
  apart : ∀ name ∈ variableNames S.toSource, name ∉ constantNames S.toSource
  sources : ∀ t ∈ S.ir.transitions, t.source ≠ "" → t.target ≠ "" ∨ (ticksOf t).isSome = true →
    isStateName t.source = true
  targets : ∀ t ∈ S.ir.transitions, hasEnds t = true → isStateName t.target = true
  guards : ∀ t ∈ S.ir.transitions, hasEnds t = true → ∀ text ∈ guardPredicate S.ir t,
    IsName text ∧ text ∉ knownIdents S.toSource ∨
      ∀ ν : Values, (∀ d ∈ declarations S, d.2.Contains (ν d.1)) → (R.truth ν text).isSome = true

/-- The start of a run is what the module starts with. -/
structure StartsAlike {M : Meaning Datum E} (run : MachineRun S M) : Prop where
  declared : (run.situation 0).leaf ∈ declaredStates S.toSource
  state : sanitizeSmvIdent (initialText S.ir) = sanitizeSmvIdent (run.situation 0).leaf
  vars : ∀ v ∈ S.ir.vars, R.term (if v.initialValue = "" then "0" else v.initialValue) = some (M.initial v.name)

/-! ## Steps that the module follows -/

/-- The steps that were spent in a state without a break; behind the longest duration they start over. -/
def ticksIn (leafAt : ℕ → String) (s : String) (longest : ℕ) : ℕ → ℕ
  | 0 => 0
  | i + 1 => if leafAt i = s ∧ ticksIn leafAt s longest i < longest then ticksIn leafAt s longest i + 1 else 0

/-- A guard that is one name, which nothing else has. -/
def IsNamedGuard (S : Source) (text : String) : Prop :=
  IsName text ∧ text ∉ knownIdents S ∧ isElseText text = false

instance (S : Source) (text : String) : Decidable (IsNamedGuard S text) := inferInstanceAs (Decidable (_ ∧ _ ∧ _))

/-- The predicate of a guard has the value of the guard, where each free name has the value of the guard of that
name. An `else` is a free name itself. -/
def ReadsGuard (M : Meaning Datum E) (c : Situation Datum) (x : Stimulus Datum E) (t : TransitionEdge) : Prop :=
  if guardTextOf t = "" then True
  else if isElseText (guardTextOf t) then
    guardExpression S.ir (guardTextOf t) = guardTextOf t ∧ guardTextOf t ∉ knownIdents S.toSource
  else
    IsNamedGuard S.toSource (guardExpression S.ir (guardTextOf t)) ∧ isOpenText (guardTextOf t) = false ∨
      ∀ ν, Shows S c x ν →
        (∀ name ∈ freeGuardVars S.toSource, isElseText name = false → ν name = .bool (M.guard name c.vars x)) →
          R.truth ν (toSmvPredicate (guardExpression S.ir (guardTextOf t))) = some (passes M S.ir c x t)

/-- A step that the module follows. The transition that is taken leaves the leaf for a state without substates,
or it stays there; the time triggers of the leaf have expired exactly when its counter says so; the guards of
the leaf are read as they are meant; and all values are in their ranges. -/
structure Followed {M : Meaning Datum E} (run : MachineRun S M) (i : ℕ) : Prop where
  own : ∀ t, selected M S.ir (run.situation i) (run.stimulus i) = some t → t.source = (run.situation i).leaf →
    t.target ≠ "" ∧ (t.kind = .internal → t.target = t.source) ∧
      (t.kind ≠ .internal → entryPoint S.ir (memoryAfter S.ir (run.situation i) t) t.target = none)
  inherited : ∀ t, selected M S.ir (run.situation i) (run.stimulus i) = some t →
    t.source ≠ (run.situation i).leaf → t.kind ≠ .internal →
      Enters S.ir (memoryAfter S.ir (run.situation i) t) t.target (run.situation i).leaf
  timers : ∀ t ∈ S.ir.transitions, hasEnds t = true → t.source = (run.situation i).leaf → ∀ k ∈ timerOf t,
    ∀ n ∈ ticksOf t, n ≤ ticksIn (fun j => (run.situation j).leaf) t.source (maxDuration S.ir t.source) i ↔
      expired M (run.situation i) k = true
  guards : ∀ t ∈ S.ir.transitions, hasEnds t = true → t.source = (run.situation i).leaf →
    triggered M (run.situation i) (run.stimulus i) t = true →
      ReadsGuard R S M (run.situation i) (run.stimulus i) t
  vars : ∀ v ∈ S.ir.vars, (variableDecl S v).2.Contains ((run.situation i).vars v.name)
  ports : ∀ p ∈ S.ir.ports, (portDecl S p).2.Contains ((run.stimulus i).ports p.name)

/-! ## Guards that are names -/

section

variable {R S} {M : Meaning Datum E}

variable {name : String}

theorem isIdentChar_of_isName (h : IsName name) : ∀ c ∈ name.toList, isIdentChar c = true :=
  List.all_eq_true.mp h.2.1

theorem toList_ne_nil_of_isName (h : IsName name) : name.toList ≠ [] := by
  obtain ⟨c, hc, -⟩ := (Option.any_eq_true _ _).mp h.1
  intro hnil
  rw [hnil] at hc
  exact absurd hc (by simp)

theorem truth_name (h : IsName name) {ν : Values} {b : Bool} (hb : ν name = .bool b) : R.truth ν name = some b := by
  have hletter : name ∉ unaryLetters ++ binaryLetters := fun hmem =>
    h.2.2 ((by decide +kernel : ∀ w ∈ unaryLetters ++ binaryLetters, w ∈ reserved) name hmem)
  obtain ⟨hunary, hbinary⟩ := not_or.mp (mt List.mem_append.mpr hletter)
  have hlex : lex name = ([name]).map Tok.word := by
    have hrun : lex name = flush name.toList := lexFrom_ident (isIdentChar_of_isName h)
    rw [hrun, flush_name (toList_ne_nil_of_isName h), if_neg hunary, if_neg hbinary]
    rfl
  have hread : read name = some (.prop [name]) := read_of_phrase (hlex ▸ .words name [])
  rw [Reader.truth, hread]
  exact R.prop_name h hb

theorem identRuns_name {text : List Char} (h : ∀ c ∈ text, isIdentChar c = true) (cur : List Char) :
    identRuns text cur = if cur ++ text = [] then [] else [cur ++ text] := by
  induction text generalizing cur with
  | nil =>
    rw [List.append_nil]
    rfl
  | cons c text ih =>
    rw [identRuns, if_pos (h c List.mem_cons_self), ih fun d hd => h d (List.mem_cons_of_mem _ hd),
      List.append_assoc, List.singleton_append]

theorem mem_freeGuardVars {S : Source} {t : TransitionEdge} (ht : t ∈ S.ir.transitions)
    (hprinted : guardPredicate S.ir t = some name) (h : IsName name) (hfree : name ∉ knownIdents S) :
    name ∈ freeGuardVars S := by
  unfold freeGuardVars
  rw [mem_stableSort, List.mem_dedup, List.mem_flatMap]
  refine ⟨t, ht, ?_⟩
  rw [hprinted, Option.toList_some, List.flatMap_singleton]
  unfold extractSmvIdentifiers
  rw [identRuns_name (isIdentChar_of_isName h), List.nil_append, if_neg (toList_ne_nil_of_isName h)]
  obtain ⟨c, hc, hdigit⟩ := (Option.any_eq_true _ _).mp h.1
  have hstart : name.toList.head?.any (fun c => c.isAlpha || c = '_') = true := by
    rw [Option.any_eq_true]
    refine ⟨c, hc, ?_⟩
    have hident := isIdentChar_of_isName h c (List.mem_of_mem_head? hc)
    unfold isIdentChar Char.isAlphanum at hident
    have hnodigit : c.isDigit = false := by simpa using hdigit
    rw [hnodigit, Bool.or_false] at hident
    exact hident
  exact List.mem_filter.mpr
    ⟨List.mem_map.mpr ⟨name.toList, List.mem_filter.mpr ⟨List.mem_singleton_self _, hstart⟩, String.ofList_toList⟩,
      decide_eq_true hfree⟩

theorem toSmvPredicate_of_named {S : Source} {text : String} (h : IsName text) (hfree : text ∉ knownIdents S) :
    toSmvPredicate text = text := by
  have hknown : ∀ name ∈ ["state", "event", "none", "TRUE", "FALSE", "true", "false"], text ≠ name := by
    rintro name hname rfl
    refine hfree ?_
    unfold knownIdents
    simp only [List.mem_append]
    exact Or.inl (Or.inl (Or.inr hname))
  exact toSmvPredicate_name (isIdentChar_of_isName h) (hknown _ (by decide)) (hknown _ (by decide))

end

/-! ## The run that is shown -/

theorem ticksIn_le (leafAt : ℕ → String) (s : String) (longest i : ℕ) : ticksIn leafAt s longest i ≤ longest := by
  induction i with
  | zero => exact Nat.zero_le _
  | succ i ih =>
    unfold ticksIn
    split
    · rename_i hlt
      exact hlt.2
    · exact Nat.zero_le _

theorem mem_stateNames {S : Source} {s : String} (h : s ∈ declaredStates S) : sanitizeSmvIdent s ∈ stateNames S := by
  have hmem : sanitizeSmvIdent s ∈ ((declaredStates S).map sanitizeSmvIdent).reverse.dedup.reverse := by
    rw [List.mem_reverse, List.mem_dedup, List.mem_reverse]
    exact List.mem_map_of_mem h
  unfold stateNames
  dsimp only
  rw [if_neg]
  · exact hmem
  · rw [List.isEmpty_iff]
    exact List.ne_nil_of_mem hmem

section

variable {S} {M : Meaning Datum E} (run : MachineRun S M) (i : ℕ)

/-- The counter of a state at a step. -/
def counterAt (entry : String × ℕ) : ℕ := ticksIn (fun j => (run.situation j).leaf) entry.1 entry.2 i

/-- The value of a free name; an `else` is true where the leaf takes a transition with this guard. -/
def freeValue (name : String) : Bool :=
  if isElseText name then
    (selected M S.ir (run.situation i) (run.stimulus i)).any fun t =>
      t.source = (run.situation i).leaf && guardTextOf t = name
  else M.guard name (run.situation i).vars (run.stimulus i)

/-- The values of the variables of the module at a step. -/
def valuesAt : List (String × Datum) :=
  ("state", .symbol (sanitizeSmvIdent (run.situation i).leaf)) ::
    ("event", .symbol (eventConstant (run.stimulus i).event)) ::
      (S.ir.vars.map (fun v => (sanitizeSmvIdent v.name, (run.situation i).vars v.name)) ++
        S.ir.ports.map (fun p => (sanitizeSmvIdent p.name, (run.stimulus i).ports p.name)) ++
          (freeGuardVars S.toSource).map (fun name => (name, Datum.bool (freeValue run i name))) ++
            (stateMaxTimeouts S.ir).map fun entry => (timerName entry.1, Datum.number (counterAt run i entry)))

def valuationAt : Values := fun name => ((valuesAt run i).lookup name).getD (.bool false)

theorem map_fst_valuesAt : (valuesAt run i).map (·.1) = variableNames S.toSource := by
  simp [valuesAt, variableNames, Function.comp_def]

theorem map_fst_declarations (S : TypedSource) : (declarations S).map (·.1) = variableNames S.toSource := by
  simp [declarations, variableNames, variableDecl, portDecl, Function.comp_def]

section

variable (hdistinct : (variableNames S.toSource).Nodup)
include hdistinct

theorem valuationAt_of_mem {name : String} {v : Datum} (h : (name, v) ∈ valuesAt run i) :
    valuationAt run i name = v := by
  unfold valuationAt
  rw [Lib.AssocList.lookup_of_mem ((map_fst_valuesAt run i).symm ▸ hdistinct) h]
  rfl

theorem shows_valuationAt : Shows S (run.situation i) (run.stimulus i) (valuationAt run i) where
  state := valuationAt_of_mem run i hdistinct (by simp [valuesAt])
  event := valuationAt_of_mem run i hdistinct (by simp [valuesAt])
  vars := fun v hv => by
    apply valuationAt_of_mem run i hdistinct
    unfold valuesAt
    simp only [List.mem_cons, List.mem_append, List.mem_map]
    exact Or.inr (Or.inr (Or.inl (Or.inl (Or.inl ⟨v, hv, rfl⟩))))
  ports := fun p hp => by
    apply valuationAt_of_mem run i hdistinct
    unfold valuesAt
    simp only [List.mem_cons, List.mem_append, List.mem_map]
    exact Or.inr (Or.inr (Or.inl (Or.inl (Or.inr ⟨p, hp, rfl⟩))))

theorem valuationAt_free {name : String} (h : name ∈ freeGuardVars S.toSource) :
    valuationAt run i name = .bool (freeValue run i name) := by
  apply valuationAt_of_mem run i hdistinct
  unfold valuesAt
  simp only [List.mem_cons, List.mem_append, List.mem_map]
  exact Or.inr (Or.inr (Or.inl (Or.inr ⟨name, h, rfl⟩)))

theorem valuationAt_timer {entry : String × ℕ} (h : entry ∈ stateMaxTimeouts S.ir) :
    valuationAt run i (timerName entry.1) = .number (counterAt run i entry) := by
  apply valuationAt_of_mem run i hdistinct
  unfold valuesAt
  simp only [List.mem_cons, List.mem_append, List.mem_map]
  exact Or.inr (Or.inr (Or.inr ⟨entry, h, rfl⟩))

end

theorem eventConstant_mem {event : Option String} (h : ∀ e ∈ event, e ∈ eventNames S.toSource) :
    eventConstant event ∈ "none" :: (eventNames S.toSource).map sanitizeSmvIdent := by
  cases event with
  | none => exact List.mem_cons_self
  | some e => exact List.mem_cons_of_mem _ (List.mem_map_of_mem (h e rfl))

theorem typed_valuationAt (hdistinct : (variableNames S.toSource).Nodup)
    (hleaf : (run.situation i).leaf ∈ declaredStates S.toSource)
    (hvars : ∀ v ∈ S.ir.vars, (variableDecl S v).2.Contains ((run.situation i).vars v.name))
    (hports : ∀ p ∈ S.ir.ports, (portDecl S p).2.Contains ((run.stimulus i).ports p.name)) :
    (serialize S).Typed (valuationAt run i) := by
  have hshows := shows_valuationAt run i hdistinct
  intro d hd
  have hmem : d ∈ declarations S := hd
  unfold declarations at hmem
  simp only [List.mem_cons, List.mem_append, List.mem_map] at hmem
  rcases hmem with rfl | rfl | ((⟨v, hv, rfl⟩ | ⟨p, hp, rfl⟩) | ⟨name, hname, rfl⟩) | ⟨entry, hentry, rfl⟩
  · rw [hshows.state]
    show sanitizeSmvIdent _ ∈ _
    rw [← sanitizeSmvIdent_idem]
    exact List.mem_map_of_mem (mem_stateNames hleaf)
  · rw [hshows.event]
    exact eventConstant_mem (run.offered i)
  · show VarType.Contains _ (valuationAt run i (sanitizeSmvIdent v.name))
    rw [hshows.vars v hv]
    exact hvars v hv
  · show VarType.Contains _ (valuationAt run i (sanitizeSmvIdent p.name))
    rw [hshows.ports p hp]
    exact hports p hp
  · rw [valuationAt_free run i hdistinct hname]
    exact trivial
  · rw [valuationAt_timer run i hdistinct hentry]
    exact ⟨counterAt run i entry, by simp, by omega, by exact_mod_cast ticksIn_le _ _ _ _⟩

end

end Fsmc.Smv
