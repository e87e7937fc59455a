/-
# Fsmc.Emitter.GuardOverloads — what the call operators of an emitted guard return.

The struct of a guard has four call operators. Two of them return `true` where the expression holds the text of
an event or of a register; the dispatcher calls with six arguments, which one operator takes, and that one
returns the expression. The text `NameGuard` for the guard of an expression `Name` is taken for a guard that has
no expression.
-/
import Fsmc.Emitter.ExactNames
import Fsmc.Emitter.GuardStructs

namespace Fsmc.Emitter

open Fsmc.Ir Fsmc.Cpp

/-! ## The call operators -/

/-- The call operators of a guard, by what they take: in-ports and registers, the event before them, the in-ports
alone, and all that the dispatcher has. -/
inductive Overload where
  | domain | event | inPorts | full
  deriving DecidableEq

/-- The number of parameters; each has a type of its own that is deduced. -/
def Overload.arity : Overload → ℕ
  | .domain => 2
  | .event => 3
  | .inPorts => 1
  | .full => 6

/-- The call operators that a call can select. -/
def selectable (arguments : ℕ) : List Overload :=
  [Overload.domain, .event, .inPorts, .full].filter fun o => o.arity = arguments

/-- `call_guard(Guard{}, event, src_state, in, registers_, srv, fsm_inst)`. -/
def dispatchArguments : ℕ := 6

def referencesEvent (expr : String) : Bool :=
  (find expr "cmd").isSome || (find expr "event").isSome || (find expr "payload").isSome

def referencesReg (expr : String) : Bool := (find expr "reg.").isSome

/-- What a call operator returns: `non_event_expr`, `in_only_expr` or `expr`. -/
def returnText (model : FsmIr) (g : GuardModel) (o : Overload) : String :=
  let expr := structText model g
  match o with
  | .domain => if referencesEvent expr then "true" else expr
  | .inPorts => if referencesEvent expr || referencesReg expr then "true" else expr
  | .event | .full => expr

/-- The names of a model that are put a scope in front of. -/
def declared (model : FsmIr) : List String := variableNames model ++ inPortNames model

/-- The guard has a name under which its expression is printed as it should be. -/
def ReturnsExpression (model : FsmIr) (name text : String) : Prop :=
  if text = name then name ∈ declared model ∨ name = "true"
  else if name = text ++ "Guard" then text = "true" ∧ text ∉ declared model ∧ name ∉ declared model
  else Qualifies model text

theorem mem_selectable {o : Overload} : o ∈ selectable dispatchArguments ↔ o = .full := by
  cases o <;> decide

/-! ## Expressions of one word -/

variable {model : FsmIr}

variable {text : String}

theorem itemsOf_word (h : ∀ c ∈ text.toList, isIdentChar c = true) : itemsOf text = [⟨' ', text.toList, true⟩] := by
  have hchunked : Chunked text.toList [] :=
    ⟨fun c hc => joins_of_isIdentChar (h c hc), by simp, by simp⟩
  have hchunks : chunks text.toList = (text.toList, []) := by
    simpa using hchunked.chunks_eq
  have hfree : (decide (Literal.next [] ' ' .outside = .outside) && !selects [' ']) = true := by decide
  simp only [itemsOf, pairsOf, hchunks, scan, hfree]

theorem leads_word (h : ∀ c ∈ text.toList, isIdentChar c = true) {name : List Char} :
    leads name text.toList = true ↔ text.toList = name := by
  rw [leads_iff, or_iff_left]
  intro hstarts
  have hdot : isIdentChar '.' = true := h '.' (hstarts.subset (by simp))
  exact absurd hdot (by decide)

theorem specified_word (h : ∀ c ∈ text.toList, isIdentChar c = true) : specified model text =
      String.ofList (((stagesOf model).find? fun st => leads st.2 text.toList).elim [] (·.1) ++ text.toList) := by
  unfold specified
  rw [itemsOf_word h, shown_cons, unspell_cons]
  simp [shown, specifiedWord]

theorem specified_stage (h : DistinctNames model) {scope : List Char}
    (hst : (scope, text.toList) ∈ stagesOf model) : specified model text = String.ofList (scope ++ text.toList) := by
  have hsound := h.sound
  have hword := (hsound.names _ hst).2
  have hfind : (stagesOf model).find? (fun st => leads st.2 text.toList) = some (scope, text.toList) := by
    obtain ⟨s, hs⟩ := Option.isSome_iff_exists.mp
      (List.find?_isSome (p := fun st => leads st.2 text.toList).mpr ⟨_, hst, leads_self _⟩)
    have hname : text.toList = s.2 := (leads_word hword).mp (by simpa using List.find?_some hs)
    rw [hs, List.inj_on_of_nodup_map hsound.nodup (List.mem_of_find?_eq_some hs) hst hname.symm]
  rw [specified_word hword, hfind]
  rfl

theorem specified_variable (h : DistinctNames model) (hmem : text ∈ variableNames model) :
    specified model text = "reg." ++ text := by
  rw [specified_stage h (List.mem_append_left _ (List.mem_map_of_mem hmem)), String.ofList_append,
    String.ofList_toList, String.ofList_toList]

theorem specified_inPort (h : DistinctNames model) (hmem : text ∈ inPortNames model) :
    specified model text = "in." ++ text := by
  rw [specified_stage h (List.mem_append_right _ (List.mem_map_of_mem hmem)), String.ofList_append,
    String.ofList_toList, String.ofList_toList]

theorem specified_of_notMem (h : DistinctNames model) (hdot : '.' ∉ (specified model text).toList) :
    specified model text = text := by
  rw [specified, String.toList_ofList] at hdot
  -- a dot in a word is one in the text, and every scope has a dot
  have hmem : ∀ p ∈ shown (specifiedWord (stagesOf model)) (itemsOf text), '.' ∉ p.2 := by
    obtain ⟨w, rest, hfirst⟩ := (worded_specified h.sound text).first
    rw [hfirst] at hdot ⊢
    intro p hp hin
    apply hdot
    rw [unspell_cons]
    rcases List.mem_cons.mp hp with rfl | hp
    · exact List.mem_append_left _ hin
    · exact List.mem_append_right _ (List.mem_flatMap.mpr ⟨p, hp, List.mem_cons_of_mem _ hin⟩)
  have hsame : shown (specifiedWord (stagesOf model)) (itemsOf text) = shown (specifiedWord []) (itemsOf text) := by
    rw [shown_inj]
    intro it hit
    have hno := hmem (it.sep, specifiedWord (stagesOf model) it) (List.mem_map_of_mem hit)
    rw [specifiedWord_nil]
    by_cases hfree : it.free = true
    · cases hfind : (stagesOf model).find? fun s => leads s.2 it.word with
      | none => exact specifiedWord_of_none hfind
      | some s =>
        exfalso
        rw [specifiedWord_of_some hfree hfind] at hno
        exact hno (List.mem_append_left _ (h.sound.dot_mem_scope (List.mem_of_find?_eq_some hfind)))
    · exact specifiedWord_of_not_free _ hfree
  rw [specified, hsame, shown_itemsOf, unspell_pairsOf, String.ofList_toList]

/-! ## What a guard without a text of its own returns -/

theorem bareText_eq (h : DistinctNames model) (name : String) : bareText model name =
      if name ∈ inPortNames model then "in." ++ name
      else if name ∈ variableNames model then "reg." ++ name
      else "true" := by
  have hports : (model.ports.map (·.name)).Nodup := (List.nodup_append.mp h.distinct).2.1
  unfold bareText
  by_cases hport : name ∈ inPortNames model
  · rw [if_pos ((findPort_isIn hports).mpr hport), if_pos hport]
  · rw [if_neg fun hin => hport ((findPort_isIn hports).mp hin), if_neg hport]
    by_cases hvar : name ∈ variableNames model
    · rw [if_pos (findVariable_isSome.mpr hvar), if_pos hvar]
    · rw [if_neg fun hin => hvar (findVariable_isSome.mp hin), if_neg hvar]

theorem specified_eq_true_iff (h : DistinctNames model) :
    specified model text = "true" ↔ text = "true" ∧ text ∉ declared model := by
  constructor
  · intro heq
    have hno : '.' ∉ (specified model text).toList := by
      rw [heq]
      decide
    have hsame := specified_of_notMem h hno
    refine ⟨hsame.symm.trans heq, fun hdeclared => ?_⟩
    rw [hsame.symm.trans heq] at hdeclared
    have hscoped : specified model "true" = "reg.true" ∨ specified model "true" = "in.true" := by
      rcases List.mem_append.mp hdeclared with hvar | hport
      · exact .inl (specified_variable h hvar)
      · exact .inr (specified_inPort h hport)
    rw [hsame.symm.trans heq] at heq
    rcases hscoped with hscoped | hscoped <;> rw [heq] at hscoped <;> exact absurd hscoped (by decide)
  · rintro ⟨rfl, hfresh⟩
    have hword : ∀ c ∈ "true".toList, isIdentChar c = true := by decide
    have hnone : (stagesOf model).find? (fun st => leads st.2 "true".toList) = none := by
      apply List.find?_eq_none.mpr
      intro st hst hleads
      rw [leads_word hword] at hleads
      rcases List.mem_append.mp hst with hst | hst <;> obtain ⟨n, hn, rfl⟩ := List.mem_map.mp hst
      · exact hfresh (List.mem_append_left _ (String.toList_inj.mp hleads ▸ hn))
      · exact hfresh (List.mem_append_right _ (String.toList_inj.mp hleads ▸ hn))
    rw [specified_word hword, hnone]
    exact String.ofList_toList

theorem bareText_self_iff (h : DistinctNames model) {name : String} :
    bareText model name = specified model name ↔ name ∈ declared model ∨ name = "true" := by
  rw [bareText_eq h]
  by_cases hport : name ∈ inPortNames model
  · simp [hport, specified_inPort h hport, declared]
  · by_cases hvar : name ∈ variableNames model
    · simp [hport, hvar, specified_variable h hvar, declared]
    · have hfresh : name ∉ declared model := fun hmem => (List.mem_append.mp hmem).elim hvar hport
      rw [if_neg hport, if_neg hvar, eq_comm, specified_eq_true_iff h]
      exact ⟨fun hboth => .inr hboth.1, fun heither => ⟨heither.resolve_left hfresh, hfresh⟩⟩

/-- A guard that has the name of its expression with `Guard` behind it does not return the expression, unless that
is the constant. -/
theorem bareText_suffix_iff (h : DistinctNames model) : bareText model (text ++ "Guard") = specified model text ↔
      text = "true" ∧ text ∉ declared model ∧ text ++ "Guard" ∉ declared model := by
  -- a declared name is an identifier, and so is what it begins with
  have hlonger : text ++ "Guard" ∈ declared model → ∀ scope ∈ ["reg.", "in."],
      scope ++ (text ++ "Guard") ≠ specified model text := by
    intro hmem scope hscope heq
    have hname := (h.names _ hmem).2
    have hword : ∀ c ∈ text.toList, isIdentChar c = true := fun c hc =>
      hname c (by rw [String.toList_append]; exact List.mem_append_left _ hc)
    have hlength := congrArg (fun s : String => s.toList.length) heq
    rw [specified_word hword] at hlength
    have hpos : ∀ scope ∈ ["reg.", "in."], 3 ≤ scope.toList.length := by decide
    have hguard : "Guard".toList.length = 5 := rfl
    have hadded : (((stagesOf model).find? fun st => leads st.2 text.toList).elim [] (·.1)).length ≤ 4 := by
      cases hfind : (stagesOf model).find? fun st => leads st.2 text.toList with
      | none => exact Nat.zero_le _
      | some s =>
        show s.1.length ≤ 4
        exact (h.sound.length_scope (List.mem_of_find?_eq_some hfind)).2
    have := hpos scope hscope
    simp only [String.toList_append, String.toList_ofList, List.length_append, hguard] at hlength
    omega
  rw [bareText_eq h]
  by_cases hport : text ++ "Guard" ∈ inPortNames model
  · have hmem : text ++ "Guard" ∈ declared model := List.mem_append_right _ hport
    rw [if_pos hport]
    exact ⟨fun heq => absurd heq (hlonger hmem "in." (by simp)), fun hall => absurd hmem hall.2.2⟩
  · rw [if_neg hport]
    by_cases hvar : text ++ "Guard" ∈ variableNames model
    · have hmem : text ++ "Guard" ∈ declared model := List.mem_append_left _ hvar
      rw [if_pos hvar]
      exact ⟨fun heq => absurd heq (hlonger hmem "reg." (by simp)), fun hall => absurd hmem hall.2.2⟩
    · have hfresh : text ++ "Guard" ∉ declared model := fun hmem => (List.mem_append.mp hmem).elim hvar hport
      rw [if_neg hvar, eq_comm, specified_eq_true_iff h]
      exact ⟨fun hboth => ⟨hboth.1, hboth.2, hfresh⟩, fun hall => ⟨hall.1, hall.2.1⟩⟩

/-! ## Emitted expressions -/

theorem structText_eq_iff (h : DistinctNames model) {g : GuardModel}
    (hexpr : g.normalizedExpression = some text) (hne : text ≠ "") :
    structText model g = specified model text ↔ ReturnsExpression model g.name text := by
  unfold structText ReturnsExpression
  rw [hexpr]
  by_cases hself : text = g.name
  · have hprinted : isPrintedText g.name text = false := by simp [isPrintedText, hself]
    rw [if_pos hself, ← hself] at *
    simpa [hprinted] using bareText_self_iff h
  · rw [if_neg hself]
    by_cases hsuffix : g.name = text ++ "Guard"
    · have hprinted : isPrintedText g.name text = false := by simp [isPrintedText, hsuffix]
      rw [if_pos hsuffix]
      simp only [hprinted, Bool.false_eq_true, if_false]
      rw [hsuffix]
      exact bareText_suffix_iff h
    · have hprinted : isPrintedText g.name text = true := by simp [isPrintedText, hne, hself, hsuffix]
      rw [if_neg hsuffix]
      simp only [hprinted, if_true]
      exact qualifyExpression_eq_iff h text

/-- Exactly which expressions are emitted as they are meant: an expression is qualified as it should be when every
declared name is found where it is free and nowhere else, and a guard returns its expression to the dispatcher
when besides its name is not taken for one without an expression. -/
theorem emitted_expressions (h : DistinctNames model) :
    (∀ text, qualifyExpression text model = specified model text ↔ Qualifies model text) ∧
      ∀ (g : GuardModel) (text : String), g.normalizedExpression = some text → text ≠ "" →
        ((∀ o ∈ selectable dispatchArguments, returnText model g o = specified model text) ↔
          ReturnsExpression model g.name text) := by
  refine ⟨qualifyExpression_eq_iff h, fun g text hexpr hne => ?_⟩
  rw [← structText_eq_iff h hexpr hne]
  constructor
  · exact fun hall => hall .full (mem_selectable.mpr rfl)
  · intro heq o ho
    rw [mem_selectable.mp ho]
    exact heq

/-- A number and a switch in registers, and an in-port. -/
def meters : FsmIr where
  vars := [{ name := "x" }, { name := "ready" }]
  ports := [{ name := "limit" }]

theorem distinctNames_meters : DistinctNames meters where
  names := by
    intro n hn
    have hnames : ∀ n ∈ variableNames meters ++ inPortNames meters,
        n.toList ≠ [] ∧ ∀ c ∈ n.toList, isIdentChar c = true := by decide +kernel
    exact hnames n hn
  distinct := by decide +kernel

/-- A member of the event stays as it is, and a comparison needs blanks; the guard `inRange` returns its
expression. -/
theorem meters_qualifies : (Qualifies meters "cmd.x < limit && x > 3" ∧ ¬ Qualifies meters "x>x") ∧
      ∀ o ∈ selectable dispatchArguments,
        returnText meters { name := "inRange", normalizedExpression := some "cmd.x < limit && x > 3" } o =
          "cmd.x < in.limit && reg.x > 3" := by
  obtain ⟨hexact, hreturned⟩ := emitted_expressions distinctNames_meters
  have hqualifies : Qualifies meters "cmd.x < limit && x > 3" := (hexact _).mp (by decide +kernel)
  refine ⟨⟨hqualifies, fun h => absurd ((hexact _).mpr h) (by decide +kernel)⟩, fun o ho => ?_⟩
  have hspecified : specified meters "cmd.x < limit && x > 3" = "cmd.x < in.limit && reg.x > 3" := by
    decide +kernel
  rw [← hspecified]
  refine (hreturned { name := "inRange", normalizedExpression := some "cmd.x < limit && x > 3" } _ rfl
    (by decide)).mpr ?_ o ho
  rw [ReturnsExpression, if_neg (by decide), if_neg (by decide)]
  exact hqualifies

/-- The second of two occurrences with one character between them is not found; a name in a literal is, and so is
one behind an arrow; and the guard `readyGuard` of the switch `ready` returns the constant. -/
theorem meters_not_emitted : (qualifyExpression "x>x" meters = "reg.x>x" ∧ specified meters "x>x" = "reg.x>reg.x") ∧
      (qualifyExpression "name == \"x\"" meters = "name == \"reg.x\"" ∧
        specified meters "name == \"x\"" = "name == \"x\"") ∧
      (qualifyExpression "p->x" meters = "p->reg.x" ∧ specified meters "p->x" = "p->x") ∧
      (returnText meters { name := "readyGuard", normalizedExpression := some "ready" } .full = "true" ∧
        specified meters "ready" = "reg.ready") := by
  decide +kernel

end Fsmc.Emitter
