/-
# Fsmc.Passes.DeadActionElimination — dropping stores that nothing reads.

A store is dropped when its expression is spelt like its target, when nothing in the machine reads the
name of its target, or when a later store of the action overwrites it first. Names decide all three:
the pass does not ask which of the registers, locals and out-ports a target is, nor does it look for
reads in the expressions of named guards and in dynamic timeouts.
-/
import Fsmc.Runtime.Datapath
import Mathlib.Data.List.Forall2

namespace Fsmc.Passes.DeadActionElimination

open Fsmc.Ir Fsmc.Runtime Fsmc.Lib.DeadStore

/-! ## The pass -/

def textContainsVar (text var : String) : Bool := var ∈ extractIdentifiers text

def actionReadsVar (node : ActionAstNode) (var : String) : Bool :=
  match node with
  | .store op => (op.op ≠ .assign && op.target.name = var) || textContainsVar op.expression var
  | .portWrite op => textContainsVar op.expression var
  | .portRead _ => false
  | .signalEmit op => op.arguments.any fun arg => textContainsVar arg var
  | .actionCall op =>
    (op.readSet.any fun r => r = var) || op.arguments.any fun arg => textContainsVar arg var

def assignmentReadsVar (assign : ActionAssignment) (var : String) : Bool :=
  (assign.op ≠ .assign && assign.target.name = var) || textContainsVar assign.expression var

def storeOverwritesTarget (later earlier : LValueTarget) : Bool :=
  if later.name ≠ earlier.name then false
  else if later = earlier then true
  else if later.memberPath.isEmpty && later.constantIndex.isNone then true
  else later.constantIndex.isNone && !earlier.memberPath.isEmpty &&
    later.memberPath.length < earlier.memberPath.length &&
    later.memberPath.isPrefixOf earlier.memberPath

/-- The texts, outside the actions, that are searched for reads. -/
def readTexts (ir : FsmIr) : List String :=
  (ir.states.flatMap fun s => s.invariants.map (·.toCpp)) ++
    ir.transitions.flatMap fun t =>
      (match t.guardAst with
        | some ast => [ast.toCpp]
        | none => t.guard.toList) ++
      match t.trigger with
      | .change _ (some predicate) _ => [predicate.toCpp]
      | _ => []

def collectActionReads (ir : FsmIr) (act : ActionSignature) : List String :=
  (act.instructions.flatMap fun inst => ir.knownVars.filter (actionReadsVar inst)) ++
    act.assignments.flatMap fun assign =>
      (extractIdentifiers assign.expression).filter (· ∈ ir.knownVars) ++
        if assign.op ≠ .assign ∧ assign.target.name ∈ ir.knownVars then [assign.target.name] else []

def readVars (ir : FsmIr) : List String :=
  ((readTexts ir).flatMap extractIdentifiers).filter (· ∈ ir.knownVars) ++
    (actionsOf ir).flatMap (collectActionReads ir)

/-- The search for a store that overwrites a target before its name is read. -/
def overwrittenBeforeRead (target : LValueTarget) : List ActionAstNode → Bool
  | [] => false
  | inst :: rest =>
    if actionReadsVar inst target.name then false
    else
      match inst with
      | .store later =>
        if later.op = .assign && storeOverwritesTarget later.target target then true
        else overwrittenBeforeRead target rest
      | _ => overwrittenBeforeRead target rest

/-- Whether a store is dropped, given what follows it in its list and what the other list holds. -/
def eliminated (ir : FsmIr) (store : StoreOp) (later others : List ActionAstNode) : Bool :=
  (store.op = .assign &&
      (store.expression = store.target.name || store.expression = store.target.fullPath)) ||
    (store.target.name ∈ ir.knownVars && store.target.name ∉ readVars ir) ||
    (store.op = .assign && overwrittenBeforeRead store.target later &&
      !others.any (actionReadsVar · store.target.name))

/-- The assignments of an action as instructions. -/
def assignmentNodes (assigns : List ActionAssignment) : List ActionAstNode :=
  assigns.map fun a => .store (toStore a)

/-- The instructions that are kept. -/
def liveInsts (ir : FsmIr) (assigns : List ActionAssignment) :
    List ActionAstNode → List ActionAstNode
  | [] => []
  | .store store :: rest =>
    if eliminated ir store rest (assignmentNodes assigns) then liveInsts ir assigns rest
    else .store store :: liveInsts ir assigns rest
  | inst :: rest => inst :: liveInsts ir assigns rest

/-- The assignments that are kept. -/
def liveAssigns (ir : FsmIr) (insts : List ActionAstNode) :
    List ActionAssignment → List ActionAssignment
  | [] => []
  | assign :: rest =>
    if eliminated ir (toStore assign) (assignmentNodes rest) insts then liveAssigns ir insts rest
    else assign :: liveAssigns ir insts rest

/-- `optimize_action`; the assignments are optimised against the instructions that are left. -/
def optimizeAction (ir : FsmIr) (act : ActionSignature) : ActionSignature :=
  let insts := liveInsts ir act.assignments act.instructions
  { act with instructions := insts, assignments := liveAssigns ir insts act.assignments }

/-- `DeadActionEliminationPass::run`. -/
def run (ir : FsmIr) : FsmIr :=
  { ir with
    states := ir.states.map fun s =>
      { s with
        entryActions := s.entryActions.map (optimizeAction ir)
        exitActions := s.exitActions.map (optimizeAction ir) }
    transitions := ir.transitions.map fun t =>
      { t with
        transitionAction := t.transitionAction.map (optimizeAction ir)
        conditionAction := t.conditionAction.map (optimizeAction ir) } }

/-! ## Reads -/

theorem actionReadsVar_iff {node : ActionAstNode} {var : String} :
    actionReadsVar node var = true ↔ var ∈ readsOf node := by
  cases node with
  | store op =>
    by_cases hop : op.op = .assign
    · simp [actionReadsVar, readsOf, textContainsVar, hop]
    · simp [actionReadsVar, readsOf, textContainsVar, hop, or_comm, eq_comm (a := var)]
  | portWrite op => simp [actionReadsVar, readsOf, textContainsVar]
  | portRead op => simp [actionReadsVar, readsOf]
  | signalEmit op => simp [actionReadsVar, readsOf, textContainsVar]
  | actionCall op => simp [actionReadsVar, readsOf, textContainsVar]

/-- The texts of the machine that the pass does not search. -/
def unsearchedTexts (ir : FsmIr) : List String :=
  (ir.guards.flatMap fun g => g.rawExpression.toList ++ g.normalizedExpression.toList) ++
    ir.transitions.flatMap fun t =>
      match t.trigger with
      | .time _ _ dynamicExpression => [dynamicExpression]
      | .change rawExpression none _ => [rawExpression]
      | _ => []

/-- The names that are read anywhere in the machine. -/
def machineReads (ir : FsmIr) : List String :=
  (readTexts ir ++ unsearchedTexts ir).flatMap extractIdentifiers ++
    (actionsOf ir).flatMap fun act => (nodesOf act).flatMap readsOf

/-! ## Stores that may go -/

/-- Why a store followed by these instructions of its list may be dropped. -/
inductive Harmless (ir : FsmIr) (store : StoreOp) (later : List ActionAstNode) : Prop
  /-- The expression is the target itself, in the domain that an unqualified name has. -/
  | selfAssignment : store.op = .assign → store.expression = store.target.fullPath →
      isIdentifier store.target.name = true → store.target.memberPath.all isIdentifier = true →
        domainOf store.target.scope = bareDomain ir store.target.name → Harmless ir store later
  /-- The target is no out-port, and its name is read nowhere. -/
  | unread : store.target.scope ≠ .outPort → store.target.name ∉ machineReads ir →
      Harmless ir store later
  /-- The target is overwritten in its own scope before its name is read. -/
  | overwritten (before after : List ActionAstNode) (last : StoreOp) :
      later = before ++ .store last :: after → last.op = .assign →
        storeOverwritesTarget last.target store.target = true →
          last.target.scope = store.target.scope →
            (∀ node ∈ before ++ [.store last], actionReadsVar node store.target.name = false) →
              Harmless ir store later

/-- Every store that the pass drops may go. -/
structure DropsHarmless (ir : FsmIr) : Prop where
  instructions : ∀ act ∈ actionsOf ir, ∀ before store rest,
    act.instructions = before ++ .store store :: rest →
      eliminated ir store rest (assignmentNodes act.assignments) = true → Harmless ir store rest
  assignments : ∀ act ∈ actionsOf ir, ∀ before assign rest,
    act.assignments = before ++ assign :: rest →
      eliminated ir (toStore assign) (assignmentNodes rest)
          (liveInsts ir act.assignments act.instructions) = true →
        Harmless ir (toStore assign) (assignmentNodes rest)

/-- The registers and locals that nothing in the machine reads. -/
def unobserved (ir : FsmIr) : Set Location :=
  { l | (l.domain = .register ∨ l.domain = .local) ∧ l.name ∉ machineReads ir }

/-- Executing the two actions from stores that agree on what can be observed emits the same and ends
in stores that agree on it. -/
def Equivalent {ir : FsmIr} {S : Type} (d : Datapath ir S) (act act' : ActionSignature) : Prop :=
  ∀ σ σ', AgreeOff (unobserved ir) σ σ' →
    AgreeOff (unobserved ir) (d.execute act σ).1 (d.execute act' σ').1 ∧
      (d.execute act σ).2 = (d.execute act' σ').2

/-- What the pass should keep, whatever the texts, operators and services mean. -/
def PreservesObservations (ir : FsmIr) : Prop :=
  ∀ (S : Type) (d : Datapath ir S),
    List.Forall₂ (Equivalent d) (actionsOf ir) (actionsOf (run ir))

theorem inside_of_storeOverwritesTarget {later earlier : LValueTarget}
    (h : storeOverwritesTarget later earlier = true) (hscope : later.scope = earlier.scope) :
    (locationOf earlier).Inside (locationOf later) := by
  unfold storeOverwritesTarget at h
  by_cases hname : later.name = earlier.name
  · refine ⟨congrArg domainOf hscope.symm, hname.symm, ?_⟩
    show accessors later <+: accessors earlier
    by_cases heq : later = earlier
    · simp [heq]
    · rw [if_neg (not_not.mpr hname), if_neg heq] at h
      split at h
      · next hwhole =>
          simp only [Bool.and_eq_true, List.isEmpty_iff, Option.isNone_iff_eq_none] at hwhole
          simp [accessors, hwhole.1, hwhole.2]
      · simp only [Bool.and_eq_true, Option.isNone_iff_eq_none, List.isPrefixOf_iff_prefix] at h
        obtain ⟨⟨⟨hindex, -⟩, -⟩, hstart⟩ := h
        have haccessors : accessors later = later.memberPath.map .member := by
          simp [accessors, hindex]
        rw [haccessors]
        exact (hstart.map _).trans (List.prefix_append _ _)
  · simp [hname] at h

section Prune

variable {ir : FsmIr} {S : Type} (d : Datapath ir S) {act : ActionSignature}

theorem readsOf_subset_machineReads (hact : act ∈ actionsOf ir) {node : ActionAstNode}
    (hnode : node ∈ nodesOf act) {name : String} (hname : name ∈ readsOf node) :
    name ∈ machineReads ir := by
  apply List.mem_append_right
  exact List.mem_flatMap.mpr ⟨act, hact, List.mem_flatMap.mpr ⟨node, hnode, hname⟩⟩

theorem exec_selfAssignment (hact : act ∈ actionsOf ir) {store : StoreOp}
    (hmem : .store store ∈ nodesOf act) (hop : store.op = .assign)
    (hexpr : store.expression = store.target.fullPath)
    (hname : isIdentifier store.target.name = true)
    (hpath : store.target.memberPath.all isIdentifier = true)
    (hscope : domainOf store.target.scope = bareDomain ir store.target.name)
    (σ : Store S) : (d.step (.store store)).exec σ = σ := by
  funext l
  show (place (locationOf store.target) (d.stored store σ) l).getD (σ l) = σ l
  have hstored : d.stored store σ = object σ (locationOf store.target) := by
    unfold Datapath.stored
    rw [hop, d.combine_assign, hexpr, d.eval_path act hact store hmem hname hpath, ← hscope]
    rfl
  rw [hstored]
  exact place_object σ _ l

variable {q : List (Step Location S (Emission S))}

theorem prunes_of_harmless (hact : act ∈ actionsOf ir) {store : StoreOp}
    {later rest : List ActionAstNode} (hmem : .store store ∈ nodesOf act)
    (hstart : later <+: rest) (hsub : ∀ node ∈ rest, node ∈ nodesOf act)
    (h : Harmless ir store later)
    (hq : Prunes (unobserved ir) (rest.map d.step) q) :
    Prunes (unobserved ir) (d.step (.store store) :: rest.map d.step) q := by
  have houter : ∀ {l : Location}, (d.step (.store store)).Touches l → l.domain ≠ .inPort := by
    intro l hl hport
    have hdomain := (d.inside_of_touches_store hl).1
    rw [hport] at hdomain
    unfold locationOf at hdomain
    cases hscope : store.target.scope <;> simp [hscope, domainOf] at hdomain
  cases h with
  | selfAssignment hop hexpr hname hpath hscope =>
    apply Prunes.idle (fun _ => rfl) _ _ hq
    · exact exec_selfAssignment d hact hmem hop hexpr hname hpath hscope
    · intro l hl
      have hl' : l.name = store.target.name := (d.inside_of_touches_store hl).2.1
      show l.name ∈ readsOf (.store store)
      rw [hl']
      apply List.mem_append_left
      rw [hexpr]
      exact LValueTarget.name_mem_extractIdentifiers hname
  | unread hscope hunread =>
    apply Prunes.deadWrite (fun _ => rfl) _ hq
    intro l hl
    obtain ⟨hdomain, hname, -⟩ := d.inside_of_touches_store hl
    have hname' : l.name ∉ machineReads ir := by
      rw [hname]
      exact hunread
    apply mem_dead_of_forall_notMem_reads
    · refine ⟨?_, hname'⟩
      rw [hdomain]
      unfold locationOf
      cases hs : store.target.scope with
      | register => exact Or.inl rfl
      | outPort => exact absurd hs hscope
      | «local» => exact Or.inr rfl
    · intro s hs hread
      obtain ⟨node, hnode, rfl⟩ := List.mem_map.mp hs
      exact hname' (readsOf_subset_machineReads hact (hsub node hnode)
        (d.mem_readsOf_of_mem_reads (houter hl) hread))
  | overwritten before after last hlater hop hcovers hscope hreads =>
    apply Prunes.deadWrite (fun _ => rfl) _ hq
    intro l hl
    have hl' : l.name = store.target.name := (d.inside_of_touches_store hl).2.1
    have hnot : ∀ node ∈ before ++ [.store last], l ∉ (d.step node).reads := by
      intro node hnode hread
      have hname := d.mem_readsOf_of_mem_reads (houter hl) hread
      rw [hl'] at hname
      exact absurd (actionReadsVar_iff.mpr hname) (by rw [hreads node hnode]; simp)
    obtain ⟨tail, rfl⟩ := hstart
    have hsplit : (later ++ tail).map d.step =
        before.map d.step ++ d.step (.store last) :: (after ++ tail).map d.step := by
      rw [hlater]
      simp
    rw [hsplit]
    apply mem_dead_of_overwritten
    · intro t ht
      obtain ⟨node, hnode, rfl⟩ := List.mem_map.mp ht
      exact hnot node (List.mem_append_left _ hnode)
    · exact hnot (.store last) (by simp)
    · apply d.covers_store
      exact (d.inside_of_touches_store hl).trans (inside_of_storeOverwritesTarget hcovers hscope)

theorem prunes_liveInsts (hact : act ∈ actionsOf ir) (insts : List ActionAstNode)
    (hsub : ∀ node ∈ insts, node ∈ nodesOf act)
    (h : ∀ before store rest, insts = before ++ .store store :: rest →
      eliminated ir store rest (assignmentNodes act.assignments) = true → Harmless ir store rest) :
    Prunes (unobserved ir) (insts.map d.step)
      ((liveInsts ir act.assignments insts).map d.step) := by
  induction insts with
  | nil => exact .nil
  | cons inst rest ih =>
    have hrest : Prunes (unobserved ir) (rest.map d.step)
        ((liveInsts ir act.assignments rest).map d.step) := by
      apply ih fun node hnode => hsub node (List.mem_cons_of_mem _ hnode)
      intro before store rest' hsplit
      exact h (inst :: before) store rest' (by rw [hsplit]; rfl)
    unfold liveInsts
    split
    · next hnil => simp at hnil
    · next store rest' hcons =>
        obtain ⟨rfl, rfl⟩ := List.cons.inj hcons
        split
        · next helim =>
            have hharmless : Harmless ir store rest := h [] store rest rfl helim
            exact prunes_of_harmless d hact (hsub _ List.mem_cons_self) (List.prefix_refl rest)
              (fun node hnode => hsub node (List.mem_cons_of_mem _ hnode)) hharmless hrest
        · exact .keep _ hrest
    · next inst' rest' _ hcons =>
        obtain ⟨rfl, rfl⟩ := List.cons.inj hcons
        exact .keep _ hrest

theorem prunes_liveAssigns (hact : act ∈ actionsOf ir) {insts : List ActionAstNode}
    (hq : Prunes (unobserved ir)
      (act.instructions.map d.step) q)
    (assigns : List ActionAssignment) (hsub : ∀ a ∈ assigns, a ∈ act.assignments)
    (h : ∀ before assign rest, assigns = before ++ assign :: rest →
      eliminated ir (toStore assign) (assignmentNodes rest) insts = true →
        Harmless ir (toStore assign) (assignmentNodes rest)) :
    Prunes (unobserved ir) ((assignmentNodes assigns ++ act.instructions).map d.step)
      ((assignmentNodes (liveAssigns ir insts assigns)).map d.step ++ q) := by
  induction assigns with
  | nil => exact hq
  | cons assign rest ih =>
    have hrest := ih (fun a ha => hsub a (List.mem_cons_of_mem _ ha)) fun before a rest' hsplit =>
      h (assign :: before) a rest' (by rw [hsplit]; rfl)
    have hnodes : ∀ a ∈ assign :: rest, .store (toStore a) ∈ nodesOf act := fun a ha =>
      List.mem_append_left _ (List.mem_map_of_mem (hsub a ha))
    unfold liveAssigns
    split
    · next helim =>
        have hharmless := h [] assign rest rfl helim
        apply prunes_of_harmless d hact (hnodes assign List.mem_cons_self)
          (List.prefix_append _ _) _ hharmless hrest
        intro node hnode
        rcases List.mem_append.mp hnode with hassign | hinst
        · obtain ⟨a, ha, rfl⟩ := List.mem_map.mp hassign
          exact hnodes a (List.mem_cons_of_mem _ ha)
        · exact List.mem_append_right _ hinst
    · exact .keep _ hrest

end Prune

theorem optimizeAction_equivalent {ir : FsmIr} (h : DropsHarmless ir) {S : Type}
    (d : Datapath ir S) {act : ActionSignature} (hact : act ∈ actionsOf ir) :
    Equivalent d act (optimizeAction ir act) := by
  have hinsts := prunes_liveInsts d hact act.instructions
    (fun node hnode => List.mem_append_right _ hnode) (h.instructions act hact)
  have hassigns := prunes_liveAssigns d hact hinsts act.assignments (fun a ha => ha)
    (h.assignments act hact)
  have hprunes : Prunes (unobserved ir) ((nodesOf act).map d.step)
      ((nodesOf (optimizeAction ir act)).map d.step) := by
    show Prunes _ _ ((assignmentNodes _ ++ _).map d.step)
    rw [List.map_append]
    exact hassigns
  intro σ σ' hagree
  apply hprunes.run_agree
  apply hagree.mono
  intro l hl
  apply mem_dead_of_forall_notMem_reads hl
  intro s hs hread
  obtain ⟨node, hnode, rfl⟩ := List.mem_map.mp hs
  have hdomain : l.domain ≠ .inPort := by
    rcases hl.1 with hd | hd <;> simp [hd]
  exact hl.2 (readsOf_subset_machineReads hact hnode (d.mem_readsOf_of_mem_reads hdomain hread))

theorem actionsOf_run (ir : FsmIr) : actionsOf (run ir) = (actionsOf ir).map (optimizeAction ir) := by
  unfold actionsOf run
  simp only [List.map_append, List.map_flatMap, List.flatMap_map, Option.toList_map]

/-- Every action of the optimised machine does what the action it comes from does, when each store
that is dropped is a self-assignment, or unread, or overwritten, in its own scope. -/
theorem run_preserves_observations (ir : FsmIr) (h : DropsHarmless ir) : PreservesObservations ir := by
  intro S d
  rw [actionsOf_run, List.forall₂_map_right_iff, List.forall₂_same]
  intro act hact
  exact optimizeAction_equivalent h d hact

/-- A counter that is set twice, and a register that nothing reads. -/
def counting : FsmIr :=
  { initialState := "Idle"
    states := [{ name := "Idle" }]
    vars := [{ name := "count" }, { name := "spare" }]
    transitions :=
      [{ source := "Idle", target := "Idle", event := "tick"
         guardAst := some { expression := "count < 20" }
         transitionAction := some
           { name := "assign"
             assignments :=
               [⟨{ name := "spare" }, .assign, "99"⟩, ⟨{ name := "count" }, .assign, "10"⟩,
                 ⟨{ name := "count" }, .assign, "20"⟩] } }] }

theorem counting_preserves_observations : PreservesObservations counting := by
  apply run_preserves_observations
  have hact : ∀ act ∈ actionsOf counting, act.instructions = [] ∧ act.assignments =
      [⟨{ name := "spare" }, .assign, "99"⟩, ⟨{ name := "count" }, .assign, "10"⟩,
        ⟨{ name := "count" }, .assign, "20"⟩] := by
    intro act hact
    obtain rfl := List.mem_singleton.mp hact
    exact ⟨rfl, rfl⟩
  refine ⟨fun act ha before store rest hsplit => ?_, fun act ha before assign rest hsplit => ?_⟩
  · rw [(hact act ha).1] at hsplit
    simp at hsplit
  · rw [(hact act ha).2] at hsplit
    rw [(hact act ha).1]
    rcases before with _ | ⟨a, _ | ⟨b, _ | ⟨c, before⟩⟩⟩
    · -- the register that is never read
      obtain ⟨rfl, rfl⟩ := List.cons.inj hsplit
      exact fun _ => .unread (by decide) (by decide)
    · -- the value that is overwritten
      obtain ⟨rfl, rfl⟩ := List.cons.inj (List.cons.inj hsplit).2
      exact fun _ => .overwritten [] [] _ rfl rfl (by decide) rfl (by decide)
    · -- the last value, which stays
      obtain ⟨rfl, rfl⟩ := List.cons.inj (List.cons.inj (List.cons.inj hsplit).2).2
      intro helim
      rw [(hact act ha).2] at helim
      exact absurd helim (by decide)
    · simp at hsplit

/-- An out-port that is named like a register which nothing reads. -/
def reporting : FsmIr :=
  { initialState := "Idle"
    states := [{ name := "Idle" }]
    vars := [{ name := "status" }]
    ports := [{ name := "status", direction := .out }]
    transitions :=
      [{ source := "Idle", target := "Idle", event := "tick"
         transitionAction := some
           { name := "report"
             assignments := [⟨{ name := "status", scope := .outPort }, .assign, "1"⟩] } }] }

theorem reporting_targets : ∀ act ∈ actionsOf reporting, ∀ op, .store op ∈ nodesOf act →
    accessors op.target = [] ∧ op.target.fullPath = op.target.name ∧
      bareDomain reporting op.target.name = .register := by
  intro act hact op hop
  obtain rfl := List.mem_singleton.mp hact
  have hop' : op = ⟨{ name := "status", scope := .outPort }, .assign, "1"⟩ := by
    simpa [nodesOf, toStore] using hop
  subst hop'
  decide

/-- The out-port keeps its old value. -/
theorem reporting_not_preserved : ¬ PreservesObservations reporting := by
  intro h
  obtain ⟨hequiv, -⟩ := List.forall₂_cons.mp (h ℕ (.numbers reporting reporting_targets))
  have hagree := (hequiv (fun _ => 0) (fun _ => 0) (AgreeOff.refl _ _)).1
  have hout := hagree ⟨.outPort, "status", []⟩ (by simp [unobserved])
  exact absurd hout (by decide)

end Fsmc.Passes.DeadActionElimination
