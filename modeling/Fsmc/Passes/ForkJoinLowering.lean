/-
# Fsmc.Passes.ForkJoinLowering — replacing forks and joins by transitions with several ends.

The edges into a fork get all its targets and the edges out of a join all its sources; the edges on the
other side are erased, and with them their actions and guards. An edge from a fork to another fork or to
a join, and one from a join to a join, is rewritten by its first end alone.
-/
import Fsmc.Ir.DeterministicId
import Fsmc.Lib.NodeElimination
import Fsmc.Runtime.Hierarchy

namespace Fsmc.Passes.ForkJoinLowering

open Fsmc.Ir Fsmc.Runtime Fsmc.Lib.NodeElimination

/-! ## The pass -/

def forkNodes (ir : FsmIr) : List String := (ir.states.filter fun s => s.kind = .fork).map (·.name)

def joinNodes (ir : FsmIr) : List String := (ir.states.filter fun s => s.kind = .join).map (·.name)

/-- The identifier that an edge gives for its target. -/
def targetIdOf (out : TransitionEdge) : String :=
  if out.targetId = "" then computeDeterministicId out.target else out.targetId

/-- The identifier that an edge gives for its source. -/
def sourceIdOf (inc : TransitionEdge) : String :=
  if inc.sourceId = "" then computeDeterministicId inc.source else inc.sourceId

/-- Retarget an edge into a fork. -/
def retarget (outgoing : List TransitionEdge) (inc : TransitionEdge) : TransitionEdge :=
  { inc with
    targetIds := outgoing.map (·.target)
    target := (outgoing.head?.map (·.target)).getD inc.target
    targetId := (outgoing.head?.map targetIdOf).getD inc.targetId }

/-- Give an edge out of a join its sources. -/
def resource (incoming : List TransitionEdge) (out : TransitionEdge) : TransitionEdge :=
  { out with
    sourceIds := incoming.map (·.source)
    source := (incoming.head?.map (·.source)).getD out.source
    sourceId := (incoming.head?.map sourceIdOf).getD out.sourceId }

/-- A fork is lowered into the edges that enter it; those that leave it are erased. -/
def forkRule : Rule TransitionEdge String where
  dropped t := t.source
  merged t := t.target
  merge := retarget

/-- A join is lowered into the edges that leave it; those that enter it are erased. -/
def joinRule : Rule TransitionEdge String where
  dropped t := t.target
  merged t := t.source
  merge := resource

/-- The transitions after the forks are lowered. -/
def lowerForks (ir : FsmIr) : List TransitionEdge :=
  forkRule.eliminateAll ir.transitions (forkNodes ir)

/-- The transitions after the joins are lowered, too. -/
def lowerJoins (ir : FsmIr) : List TransitionEdge := joinRule.eliminateAll (lowerForks ir) (joinNodes ir)

/-- `ForkJoinLoweringPass::run`. -/
def run (ir : FsmIr) : FsmIr :=
  if forkNodes ir = [] ∧ joinNodes ir = [] then ir
  else
    { ir with
      transitions := lowerJoins ir
      states := ir.states.filter fun s => !(s.kind = .fork || s.kind = .join) }

/-! ## What becomes of a transition -/

variable {D : Type*} (holds : D → String → Bool) (ir : FsmIr)

/-- What the pass makes of a transition. -/
def lowered (t : TransitionEdge) : Option TransitionEdge :=
  (forkRule.follow ir.transitions (forkNodes ir) t).bind
    (joinRule.follow (lowerForks ir) (joinNodes ir))

variable {ir}

/-! ## What a lowered transition should do -/

/-- The actions of a transition, in order. -/
def actions (t : TransitionEdge) : List ActionSignature :=
  t.conditionAction.toList ++ t.transitionAction.toList

def guardHolds (σ : D) (t : TransitionEdge) : Bool := t.getGuard = "" || holds σ t.getGuard

/-- A transition is enabled: its sources are active and its guard holds. -/
def Enabled (C : Set String) (σ : D) (t : TransitionEdge) : Prop :=
  (∀ x ∈ sourceEnds t, x ∈ C) ∧ guardHolds holds σ t = true

def incoming (ir : FsmIr) (node : String) : List TransitionEdge :=
  ir.transitions.filter fun t => t.target = node

def outgoing (ir : FsmIr) (node : String) : List TransitionEdge :=
  ir.transitions.filter fun t => t.source = node

/-- The nodes that the pass removes; no configuration contains one. -/
def pseudoNodes (ir : FsmIr) : List String := forkNodes ir ++ joinNodes ir

/-- An edge into a fork activates all its targets, and performs what all its segments say. -/
structure LowersFork (ir : FsmIr) (fork : String) (e t : TransitionEdge) : Prop where
  targets : ∀ out ∈ outgoing ir fork, out.target ∈ targetEnds t ∧ out.target ∉ pseudoNodes ir
  actions : actions t = actions e ++ (outgoing ir fork).flatMap actions

/-- An edge out of a join waits for all its sources and segments, and performs what they say. -/
structure LowersJoin (ir : FsmIr) (join : String) (e t : TransitionEdge) : Prop where
  sources : ∀ inc ∈ incoming ir join, inc.source ∉ pseudoNodes ir
  enabled : ∀ C σ, Enabled holds C σ t ↔
    (∀ inc ∈ incoming ir join, inc.source ∈ C ∧ guardHolds holds σ inc = true) ∧
      guardHolds holds σ e = true
  actions : actions t = (incoming ir join).flatMap actions ++ actions e

/-- Lowering preserves what forks and joins do. -/
structure PreservesForkJoin (ir : FsmIr) : Prop where
  forks : ∀ fork ∈ forkNodes ir, ∀ e ∈ incoming ir fork,
    ∃ t, lowered ir e = some t ∧ LowersFork ir fork e t
  joins : ∀ join ∈ joinNodes ir, ∀ e ∈ outgoing ir join,
    ∃ t, lowered ir e = some t ∧ LowersJoin holds ir join e t

/-- Every fork and join is entered and left. -/
def Connected (ir : FsmIr) : Prop :=
  ∀ node ∈ pseudoNodes ir, incoming ir node ≠ [] ∧ outgoing ir node ≠ []

/-- Edges out of forks lead to states, edges into joins come from states, and no name is both a fork's
and a join's. -/
structure Flat (ir : FsmIr) : Prop where
  forks : ∀ t ∈ ir.transitions, t.source ∈ forkNodes ir → t.target ∉ pseudoNodes ir
  joins : ∀ t ∈ ir.transitions, t.target ∈ joinNodes ir → t.source ∉ pseudoNodes ir
  distinct : ∀ node ∈ forkNodes ir, node ∉ joinNodes ir

/-- The edges that are erased say nothing: no actions, and on the way into a join no guard that the edge
out of it does not imply. -/
structure Bare (ir : FsmIr) : Prop where
  forks : ∀ fork ∈ forkNodes ir, ∀ out ∈ outgoing ir fork, actions out = []
  joins : ∀ join ∈ joinNodes ir, ∀ inc ∈ incoming ir join, actions inc = []
  guards : ∀ join ∈ joinNodes ir, ∀ inc ∈ incoming ir join, ∀ out ∈ outgoing ir join, ∀ σ,
    guardHolds holds σ out = true → guardHolds holds σ inc = true

/-! ## The two stages -/

theorem forkRule_lawful : forkRule.Lawful := ⟨fun _ _ => rfl, fun _ _ _ => rfl⟩

theorem joinRule_lawful : joinRule.Lawful := ⟨fun _ _ => rfl, fun _ _ _ => rfl⟩

variable {node : String} {e t : TransitionEdge}

theorem mem_incoming {t : TransitionEdge} : t ∈ incoming ir node ↔ t ∈ ir.transitions ∧ t.target = node := by
  simp [incoming]

theorem mem_outgoing {t : TransitionEdge} : t ∈ outgoing ir node ↔ t ∈ ir.transitions ∧ t.source = node := by
  simp [outgoing]

theorem Connected.exists_incoming (h : Connected ir) (hn : node ∈ pseudoNodes ir) :
    ∃ e ∈ ir.transitions, e.target = node := by
  obtain ⟨e, he⟩ := List.exists_mem_of_ne_nil _ (h node hn).1
  exact ⟨e, mem_incoming.mp he⟩

theorem Connected.exists_outgoing (h : Connected ir) (hn : node ∈ pseudoNodes ir) :
    ∃ e ∈ ir.transitions, e.source = node := by
  obtain ⟨e, he⟩ := List.exists_mem_of_ne_nil _ (h node hn).2
  exact ⟨e, mem_outgoing.mp he⟩

theorem mem_pseudo_of_fork (h : node ∈ forkNodes ir) : node ∈ pseudoNodes ir :=
  List.mem_append_left _ h

theorem mem_pseudo_of_join (h : node ∈ joinNodes ir) : node ∈ pseudoNodes ir :=
  List.mem_append_right _ h

/-- Edges out of forks lead to states. -/
def ForksFlat (ir : FsmIr) : Prop :=
  ∀ t ∈ ir.transitions, t.source ∈ forkNodes ir → t.target ∉ pseudoNodes ir

theorem independent_forks (hconn : Connected ir) (hflat : ForksFlat ir) :
    Independent forkRule ir.transitions (forkNodes ir) where
  apart t ht hsource htarget := hflat t ht hsource (mem_pseudo_of_fork htarget)
  sides _ hn := iff_of_true (hconn.exists_incoming (mem_pseudo_of_fork hn))
    (hconn.exists_outgoing (mem_pseudo_of_fork hn))

theorem follow_forks (hconn : Connected ir) (hflat : ForksFlat ir) {t : TransitionEdge}
    (ht : t ∈ ir.transitions) : forkRule.follow ir.transitions (forkNodes ir) t =
      if t.source ∈ forkNodes ir then none
      else if t.target ∈ forkNodes ir then some (retarget (outgoing ir t.target) t) else some t :=
  (independent_forks hconn hflat).follow_eq forkRule_lawful _ _ t ht

variable {x : TransitionEdge}

theorem mem_lowerForks : x ∈ lowerForks ir ↔
    ∃ t ∈ ir.transitions, forkRule.follow ir.transitions (forkNodes ir) t = some x := by
  unfold lowerForks
  rw [Rule.eliminateAll_eq_filterMap, List.mem_filterMap]

theorem head?_outgoing (hconn : Connected ir) (hn : node ∈ pseudoNodes ir) :
    ∃ out ∈ outgoing ir node, (outgoing ir node).head? = some out := by
  cases hout : outgoing ir node with
  | nil => exact absurd hout (hconn node hn).2
  | cons out rest => exact ⟨out, List.mem_cons_self, rfl⟩

theorem target_retarget (hconn : Connected ir) (hflat : ForksFlat ir) {fork : String}
    (hf : fork ∈ forkNodes ir) (t : TransitionEdge) :
    (retarget (outgoing ir fork) t).target ∉ pseudoNodes ir := by
  obtain ⟨out, hmem, hhead⟩ := head?_outgoing hconn (mem_pseudo_of_fork hf)
  obtain ⟨hout, hsource⟩ := mem_outgoing.mp hmem
  have htarget : (retarget (outgoing ir fork) t).target = out.target := by simp [retarget, hhead]
  rw [htarget]
  exact hflat out hout (hsource ▸ hf)

/-- The edges into a join pass the first stage unchanged, and no others come to it. -/
theorem incoming_lowerForks (hconn : Connected ir) (hflat : Flat ir) {join : String} (hj : join ∈ joinNodes ir) :
    (lowerForks ir).filter (fun t => t.target = join) = incoming ir join := by
  unfold lowerForks incoming
  rw [Rule.eliminateAll_eq_filterMap, List.filter_filterMap, ← List.filterMap_eq_filter]
  apply List.filterMap_congr
  intro t ht
  rw [follow_forks hconn hflat.forks ht]
  by_cases h₁ : t.source ∈ forkNodes ir
  · have hne : t.target ≠ join := fun heq =>
      hflat.forks t ht h₁ (heq ▸ mem_pseudo_of_join hj)
    simp [h₁, hne, Option.guard]
  · by_cases h₂ : t.target ∈ forkNodes ir
    · have hne : t.target ≠ join := fun heq => hflat.distinct _ h₂ (heq ▸ hj)
      have hne' : (retarget (outgoing ir t.target) t).target ≠ join := fun heq =>
        target_retarget hconn hflat.forks h₂ t (heq ▸ mem_pseudo_of_join hj)
      simp [h₁, h₂, hne, hne', Option.guard, Option.filter_some]
    · simp [h₁, h₂, Option.guard, Option.filter_some]

theorem independent_joins (hconn : Connected ir) (hflat : Flat ir) :
    Independent joinRule (lowerForks ir) (joinNodes ir) where
  apart x hx htarget hsource := by
    obtain ⟨t, ht, hx⟩ := mem_lowerForks.mp hx
    have hjoin : x.target ∈ joinNodes ir := htarget
    have hmem : x ∈ incoming ir x.target := by
      rw [← incoming_lowerForks hconn hflat hjoin]
      exact List.mem_filter.mpr ⟨mem_lowerForks.mpr ⟨t, ht, hx⟩, by simp⟩
    exact hflat.joins x (mem_incoming.mp hmem).1 htarget (mem_pseudo_of_join hsource)
  sides join hj := by
    apply iff_of_true
    · obtain ⟨t, ht, hsource⟩ := hconn.exists_outgoing (mem_pseudo_of_join hj)
      have hnot : t.source ∉ forkNodes ir := fun h => hflat.distinct _ h (hsource ▸ hj)
      have hfollow := follow_forks hconn hflat.forks ht
      rw [if_neg hnot] at hfollow
      split at hfollow
      · exact ⟨_, mem_lowerForks.mpr ⟨t, ht, hfollow⟩, hsource⟩
      · exact ⟨_, mem_lowerForks.mpr ⟨t, ht, hfollow⟩, hsource⟩
    · obtain ⟨t, ht, htarget⟩ := hconn.exists_incoming (mem_pseudo_of_join hj)
      have hmem : t ∈ (lowerForks ir).filter fun t => t.target = join := by
        rw [incoming_lowerForks hconn hflat hj]
        exact mem_incoming.mpr ⟨ht, htarget⟩
      exact ⟨t, (List.mem_filter.mp hmem).1, htarget⟩

theorem follow_joins (hconn : Connected ir) (hflat : Flat ir)
    (hx : x ∈ lowerForks ir) : joinRule.follow (lowerForks ir) (joinNodes ir) x =
      if x.target ∈ joinNodes ir then none
      else if x.source ∈ joinNodes ir then some (resource (incoming ir x.source) x) else some x := by
  rw [(independent_joins hconn hflat).follow_eq joinRule_lawful _ _ x hx]
  unfold Rule.atOnce
  by_cases hsource : x.source ∈ joinNodes ir
  · rw [show joinRule.droppedAt (lowerForks ir) (joinRule.merged x) = incoming ir x.source from
      incoming_lowerForks hconn hflat hsource]
    rfl
  · simp [joinRule, hsource]

/-! ## The lowered edges -/

theorem lowered_proj {β : Type*} (p : TransitionEdge → β) (hf : ∀ es e, p (retarget es e) = p e)
    (hj : ∀ es e, p (resource es e) = p e) (h : lowered ir e = some t) :
    p t = p e := by
  obtain ⟨x, hx, ht⟩ := Option.bind_eq_some_iff.mp h
  rw [Rule.follow_proj p hj _ _ _ _ ht, Rule.follow_proj p hf _ _ _ _ hx]

theorem actions_lowered (h : lowered ir e = some t) : actions t = actions e :=
  lowered_proj actions (fun _ _ => rfl) (fun _ _ => rfl) h

theorem guardHolds_lowered (h : lowered ir e = some t) (σ : D) : guardHolds holds σ t = guardHolds holds σ e :=
  lowered_proj (guardHolds holds σ) (fun _ _ => rfl) (fun _ _ => rfl) h

theorem targetEnds_retarget {out : List TransitionEdge} (hne : out ≠ []) (e : TransitionEdge) :
    targetEnds (retarget out e) = out.map (·.target) := by
  match out, hne with
  | [_], _ => rfl
  | _ :: _ :: _, _ => simp [targetEnds, isFork, retarget]

theorem sourceEnds_resource {inc : List TransitionEdge} (hne : inc ≠ []) (e : TransitionEdge) :
    sourceEnds (resource inc e) = inc.map (·.source) := by
  match inc, hne with
  | [_], _ => rfl
  | _ :: _ :: _, _ => simp [sourceEnds, isJoin, resource]

theorem lowered_into_fork (hconn : Connected ir) (hflat : Flat ir) {fork : String}
    (hf : fork ∈ forkNodes ir) {e : TransitionEdge} (he : e ∈ incoming ir fork) :
    ∃ t, lowered ir e = some t ∧ targetEnds t = (outgoing ir fork).map (·.target) := by
  obtain ⟨hmem, rfl⟩ := mem_incoming.mp he
  have hsource : e.source ∉ forkNodes ir := fun h =>
    hflat.forks e hmem h (mem_pseudo_of_fork hf)
  have hfollow := follow_forks hconn hflat.forks hmem
  rw [if_neg hsource, if_pos hf] at hfollow
  have hstate := target_retarget hconn hflat.forks hf e
  have hjoins := follow_joins hconn hflat (mem_lowerForks.mpr ⟨e, hmem, hfollow⟩)
  rw [if_neg fun h => hstate (mem_pseudo_of_join h)] at hjoins
  have hends := targetEnds_retarget (hconn _ (mem_pseudo_of_fork hf)).2 e
  unfold lowered
  rw [hfollow, Option.bind_some, hjoins]
  split
  · exact ⟨_, rfl, hends⟩
  · exact ⟨_, rfl, hends⟩

theorem lowered_out_of_join (hconn : Connected ir) (hflat : Flat ir) {join : String}
    (hj : join ∈ joinNodes ir) {e : TransitionEdge} (he : e ∈ outgoing ir join) :
    ∃ t, lowered ir e = some t ∧ sourceEnds t = (incoming ir join).map (·.source) := by
  obtain ⟨hmem, rfl⟩ := mem_outgoing.mp he
  have hsource : e.source ∉ forkNodes ir := fun h => hflat.distinct _ h hj
  have hfollow := follow_forks hconn hflat.forks hmem
  rw [if_neg hsource] at hfollow
  obtain ⟨x, hx, hxsource, hxtarget⟩ : ∃ x,
      forkRule.follow ir.transitions (forkNodes ir) e = some x ∧ x.source = e.source ∧
        x.target ∉ joinNodes ir := by
    by_cases hfork : e.target ∈ forkNodes ir
    · rw [if_pos hfork] at hfollow
      exact ⟨_, hfollow, rfl, fun h =>
        target_retarget hconn hflat.forks hfork e (mem_pseudo_of_join h)⟩
    · rw [if_neg hfork] at hfollow
      exact ⟨_, hfollow, rfl, fun h => hflat.joins e hmem h (mem_pseudo_of_join hj)⟩
  have hjoins := follow_joins hconn hflat (mem_lowerForks.mpr ⟨e, hmem, hx⟩)
  rw [if_neg hxtarget, hxsource, if_pos hj] at hjoins
  have hends := sourceEnds_resource (hconn _ (mem_pseudo_of_join hj)).1 x
  unfold lowered
  rw [hx, Option.bind_some, hjoins]
  exact ⟨_, rfl, hends⟩

/-! ## The result -/

variable {holds}

theorem flat_of_preserves (hconn : Connected ir) (h : PreservesForkJoin holds ir) : Flat ir := by
  have hforks : ForksFlat ir := by
    intro t ht hsource
    obtain ⟨e, he, htarget⟩ := hconn.exists_incoming (mem_pseudo_of_fork hsource)
    obtain ⟨x, _, hlowers⟩ := h.forks _ hsource e (mem_incoming.mpr ⟨he, htarget⟩)
    exact (hlowers.targets t (mem_outgoing.mpr ⟨ht, rfl⟩)).2
  constructor
  · exact hforks
  · intro t ht htarget
    obtain ⟨e, he, hsource⟩ := hconn.exists_outgoing (mem_pseudo_of_join htarget)
    obtain ⟨x, _, hlowers⟩ := h.joins _ htarget e (mem_outgoing.mpr ⟨he, hsource⟩)
    exact hlowers.sources t (mem_incoming.mpr ⟨ht, rfl⟩)
  · -- the edges out of such a node would be erased with the fork
    intro node hfork hjoin
    obtain ⟨e, he, rfl⟩ := hconn.exists_outgoing (mem_pseudo_of_fork hfork)
    obtain ⟨x, hx, _⟩ := h.joins _ hjoin e (mem_outgoing.mpr ⟨he, rfl⟩)
    unfold lowered at hx
    rw [follow_forks hconn hforks he, if_pos hfork] at hx
    exact absurd hx (by simp)

theorem bare_of_preserves (hconn : Connected ir) (h : PreservesForkJoin holds ir) : Bare holds ir where
  forks fork hf out hout := by
    obtain ⟨e, he⟩ := List.exists_mem_of_ne_nil _ (hconn fork (mem_pseudo_of_fork hf)).1
    obtain ⟨t, ht, hlowers⟩ := h.forks fork hf e he
    have hactions := hlowers.actions
    rw [actions_lowered ht, List.self_eq_append_right, List.flatMap_eq_nil_iff] at hactions
    exact hactions out hout
  joins join hj inc hinc := by
    obtain ⟨e, he⟩ := List.exists_mem_of_ne_nil _ (hconn join (mem_pseudo_of_join hj)).2
    obtain ⟨t, ht, hlowers⟩ := h.joins join hj e he
    have hactions := hlowers.actions
    rw [actions_lowered ht, List.self_eq_append_left, List.flatMap_eq_nil_iff] at hactions
    exact hactions inc hinc
  guards join hj inc hinc out hout σ hguard := by
    obtain ⟨t, ht, hlowers⟩ := h.joins join hj out hout
    have henabled : Enabled holds Set.univ σ t :=
      ⟨fun x _ => Set.mem_univ x, (guardHolds_lowered holds ht σ).trans hguard⟩
    exact (((hlowers.enabled Set.univ σ).mp henabled).1 inc hinc).2

theorem preserves_of_bare (hconn : Connected ir) (hflat : Flat ir) (hbare : Bare holds ir) :
    PreservesForkJoin holds ir where
  forks fork hf e he := by
    obtain ⟨t, ht, hends⟩ := lowered_into_fork hconn hflat hf he
    refine ⟨t, ht, ?_, ?_⟩
    · intro out hout
      obtain ⟨hmem, hsource⟩ := mem_outgoing.mp hout
      exact ⟨hends ▸ List.mem_map_of_mem hout, hflat.forks out hmem (hsource ▸ hf)⟩
    · rw [actions_lowered ht, List.flatMap_eq_nil_iff.mpr (hbare.forks fork hf), List.append_nil]
  joins join hj e he := by
    obtain ⟨t, ht, hends⟩ := lowered_out_of_join hconn hflat hj he
    refine ⟨t, ht, ?_, ?_, ?_⟩
    · intro inc hinc
      obtain ⟨hmem, htarget⟩ := mem_incoming.mp hinc
      exact hflat.joins inc hmem (htarget ▸ hj)
    · intro C σ
      unfold Enabled
      rw [hends, guardHolds_lowered holds ht σ, List.forall_mem_map]
      constructor
      · rintro ⟨hactive, hguard⟩
        exact ⟨fun inc hinc =>
          ⟨hactive inc hinc, hbare.guards join hj inc hinc e he σ hguard⟩, hguard⟩
      · rintro ⟨hall, hguard⟩
        exact ⟨fun inc hinc => (hall inc hinc).1, hguard⟩
    · rw [actions_lowered ht, List.flatMap_eq_nil_iff.mpr (hbare.joins join hj), List.nil_append]

/-- Lowering preserves forks and joins exactly when those are flat and the erased edges are bare. -/
theorem preservesForkJoin_iff (hconn : Connected ir) : PreservesForkJoin holds ir ↔ Flat ir ∧ Bare holds ir :=
  ⟨fun h => ⟨flat_of_preserves hconn h, bare_of_preserves hconn h⟩,
    fun h => preserves_of_bare hconn h.1 h.2⟩

/-- A fork into two states, and a join of them. -/
def meeting : FsmIr where
  initialState := "Idle"
  states := [{ name := "Idle" }, { name := "F", kind := .fork }, { name := "Left" },
    { name := "Right" }, { name := "J", kind := .join }]
  transitions := [
    { source := "Idle", target := "F", event := "go", transitionAction := some { name := "start" } },
    { source := "F", target := "Left" }, { source := "F", target := "Right" },
    { source := "Left", target := "J" }, { source := "Right", target := "J" },
    { source := "J", target := "Idle", event := "done", guard := some "ready" }]

theorem meeting_preservesForkJoin : PreservesForkJoin (fun σ : Bool => fun text => text = "ready" && σ) meeting := by
  have hconn : Connected meeting := by
    intro node hn
    have hcases : node = "F" ∨ node = "J" := by
      simpa [meeting, pseudoNodes, forkNodes, joinNodes] using hn
    rcases hcases with rfl | rfl <;> simp [meeting, incoming, outgoing]
  rw [preservesForkJoin_iff hconn]
  constructor
  · constructor <;> decide
  · constructor <;>
      simp [meeting, forkNodes, joinNodes, incoming, outgoing, actions, guardHolds,
        TransitionEdge.getGuard]

/-- A fork whose second edge has an action. -/
def lossy : FsmIr where
  initialState := "Idle"
  states := [{ name := "Idle" }, { name := "F", kind := .fork }, { name := "Left" }, { name := "Right" }]
  transitions := [{ source := "Idle", target := "F", event := "go" },
    { source := "F", target := "Left" },
    { source := "F", target := "Right", transitionAction := some { name := "light" } }]

/-- The action is lost. -/
theorem lossy_not_preservesForkJoin :
    Connected lossy ∧ ¬ PreservesForkJoin (fun (_ : Unit) (_ : String) => true) lossy := by
  constructor
  · intro node hn
    obtain rfl : node = "F" := by simpa [lossy, pseudoNodes, forkNodes, joinNodes] using hn
    simp [lossy, incoming, outgoing]
  · intro h
    obtain ⟨t, ht, hlowers⟩ := h.forks "F" (by simp [lossy, forkNodes])
      { source := "Idle", target := "F", event := "go" } (by simp [lossy, incoming])
    have hactions := hlowers.actions
    rw [actions_lowered ht] at hactions
    exact absurd hactions (by simp [actions, lossy, outgoing])

end Fsmc.Passes.ForkJoinLowering
