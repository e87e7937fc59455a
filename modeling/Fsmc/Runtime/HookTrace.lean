/-
# Fsmc.Runtime.HookTrace — the actions that a hierarchical machine runs.

A configuration is the innermost active state; its ancestors are active with it. A transition of an active
state leaves everything below the least common ancestor of its ends, innermost first, runs its action, and
enters everything from below the common ancestor down to its target and on to the default sub-states.
A condition action runs before anything is left.
-/
import Fsmc.Lib.Ancestry
import Fsmc.Runtime.Hierarchy

namespace Fsmc.Runtime

open Fsmc.Ir Fsmc.Lib.Ancestry

/-! ## Chains of states -/

/-- The parent of a state; a state at the root has none. -/
def parentOf (ir : FsmIr) (s : String) : Option String :=
  ((ir.findState s).map (·.parentState)).filter (· ≠ "")

/-- `get_ancestor_chain`. -/
def chain (ir : FsmIr) (s : String) : List String :=
  if s = "" then [] else chainFrom (parentOf ir) (ir.states.length + 1) [] s

/-- No state is its own ancestor: each has a finite chain. -/
def Acyclic (ir : FsmIr) : Prop := ∀ s, ∃ p, IsChain (parentOf ir) s p

def computeLca (ir : FsmIr) (src dst : String) : String :=
  if src = dst then (parentOf ir src).getD ""
  else (firstCommon (chain ir src) (chain ir dst)).getD ""

theorem parentOf_eq_some {ir : FsmIr} {s p : String} (h : parentOf ir s = some p) :
    ∃ n ∈ ir.states, n.name = s ∧ n.parentState = p ∧ p ≠ "" := by
  unfold parentOf at h
  obtain ⟨hp, hne⟩ := Option.filter_eq_some_iff.mp h
  obtain ⟨n, hn, rfl⟩ := Option.map_eq_some_iff.mp hp
  obtain ⟨hmem, hname⟩ := FsmIr.findState_spec hn
  exact ⟨n, hmem, hname, rfl, by simpa using hne⟩

theorem acyclic_of_rank {ir : FsmIr} (rank : String → ℕ)
    (hrank : ∀ n ∈ ir.states, n.parentState ≠ "" → rank n.parentState < rank n.name) : Acyclic ir := by
  have hbounded : ∀ (k : ℕ) (s : String), rank s < k → ∃ p, IsChain (parentOf ir) s p := by
    intro k
    induction k with
    | zero => exact fun s hs => absurd hs (by omega)
    | succ k ih =>
      intro s hs
      cases hparent : parentOf ir s with
      | none => exact ⟨_, .root hparent⟩
      | some p =>
        obtain ⟨n, hn, rfl, rfl, hne⟩ := parentOf_eq_some hparent
        have hlt := hrank n hn hne
        obtain ⟨q, hq⟩ := ih n.parentState (by omega)
        exact ⟨_, .cons hparent hq⟩
  exact fun s => hbounded _ s (Nat.lt_succ_self _)

variable {s : String}

theorem chain_eq_of_isChain {ir : FsmIr} {p : List String} (hs : s ≠ "")
    (hp : IsChain (parentOf ir) s p) : chain ir s = p := by
  have hnodes : ∀ b, (parentOf ir b).isSome = true → b ∈ ir.states.map (·.name) := by
    intro b hb
    obtain ⟨q, hq⟩ := Option.isSome_iff_exists.mp hb
    obtain ⟨n, hn, rfl, -⟩ := parentOf_eq_some hq
    exact List.mem_map_of_mem hn
  have hlength : p.length ≤ ir.states.length + 1 := by
    simpa using hp.length_le hnodes
  unfold chain
  rw [if_neg hs]
  exact hp.chainFrom_eq hlength (by simp)

theorem isChain_chain {ir : FsmIr} (hir : Acyclic ir) (hs : s ≠ "") : IsChain (parentOf ir) s (chain ir s) := by
  obtain ⟨p, hp⟩ := hir s
  rwa [chain_eq_of_isChain hs hp]

theorem chain_congr {ir ir' : FsmIr} (hir : Acyclic ir)
    (h : ∀ x ∈ chain ir s, parentOf ir' x = parentOf ir x) : chain ir' s = chain ir s := by
  by_cases hs : s = ""
  · simp [chain, hs]
  · exact chain_eq_of_isChain hs ((isChain_chain hir hs).congr h)

theorem empty_notMem_chain (ir : FsmIr) (s : String) : "" ∉ chain ir s := by
  have hfrom : ∀ (n : ℕ) (visited : List String) (a : String), a ≠ "" →
      "" ∉ chainFrom (parentOf ir) n visited a := by
    intro n
    induction n with
    | zero => simp [chainFrom]
    | succ n ih =>
      intro visited a ha
      unfold chainFrom
      split
      · simp
      · cases hparent : parentOf ir a with
        | none => simpa using ha.symm
        | some b =>
          obtain ⟨n, -, -, -, hne⟩ := parentOf_eq_some hparent
          simpa using ⟨ha, ih _ b hne⟩
  unfold chain
  split
  · simp
  · exact hfrom _ _ _ ‹_›

theorem chain_of_parentOf {ir : FsmIr} (hir : Acyclic ir) {s p : String} (hs : s ≠ "")
    (h : parentOf ir s = some p) : chain ir s = s :: chain ir p := by
  obtain ⟨n, -, -, rfl, hne⟩ := parentOf_eq_some h
  exact chain_eq_of_isChain hs (.cons h (isChain_chain hir hne))

theorem chain_nodup (ir : FsmIr) (s : String) : (chain ir s).Nodup := by
  unfold chain
  split
  · exact List.nodup_nil
  · exact (chainFrom_nodup _ _ _).1

theorem chain_head (ir : FsmIr) (hs : s ≠ "") : ∃ q, chain ir s = s :: q := by
  cases hparent : parentOf ir s with
  | none => exact ⟨[], by simp [chain, chainFrom, hs, hparent]⟩
  | some b =>
    exact ⟨chainFrom (parentOf ir) ir.states.length [s] b, by simp [chain, chainFrom, hs, hparent]⟩

theorem chain_subset {ir : FsmIr} (hir : Acyclic ir) {x y : String} (h : y ∈ chain ir x) :
    chain ir y ⊆ chain ir x := by
  have hx : x ≠ "" := by
    rintro rfl
    simp [chain] at h
  have hy : y ≠ "" := fun hempty => empty_notMem_chain ir x (hempty ▸ h)
  obtain ⟨l, q, hsplit, hq⟩ := (isChain_chain hir hx).of_mem h
  rw [hsplit, ← hq.unique (isChain_chain hir hy)]
  exact List.subset_append_right l q

theorem mem_chain_of_notMem_takeWhile {ir : FsmIr} (hir : Acyclic ir) {s top x : String}
    (hx : x ∈ chain ir s) (hnot : x ∉ (chain ir s).takeWhile fun y => y ≠ top) :
    top ∈ chain ir s ∧ x ∈ chain ir top := by
  have hsplit := List.takeWhile_append_dropWhile (p := fun y => decide (y ≠ top)) (l := chain ir s)
  have hdrop : x ∈ (chain ir s).dropWhile fun y => y ≠ top := by
    rw [← hsplit] at hx
    exact (List.mem_append.mp hx).resolve_left hnot
  cases hrest : (chain ir s).dropWhile fun y => y ≠ top with
  | nil =>
    rw [hrest] at hdrop
    cases hdrop
  | cons y rest =>
    have hy : y = top := by
      have hhead := List.head?_dropWhile_not (fun y => decide (y ≠ top)) (chain ir s)
      rw [hrest] at hhead
      simpa using hhead
    subst hy
    rw [hrest] at hsplit hdrop
    have htop : y ∈ chain ir s := by
      rw [← hsplit]
      simp
    have hs : s ≠ "" := by
      rintro rfl
      simp [chain] at hx
    have hne : y ≠ "" := fun hempty => empty_notMem_chain ir s (hempty ▸ htop)
    have hchain := isChain_chain hir hs
    rw [← hsplit] at hchain
    refine ⟨htop, ?_⟩
    rw [chain_eq_of_isChain hne hchain.of_split]
    exact hdrop

theorem computeLca_mem {ir : FsmIr} (hir : Acyclic ir) {src : String} (hsrc : src ≠ "") (dst : String) :
    computeLca ir src dst ∈ chain ir src ∨ computeLca ir src dst = "" := by
  unfold computeLca
  split
  · cases hparent : parentOf ir src with
    | none => exact .inr rfl
    | some p => exact .inl ((isChain_chain hir hsrc).parent_mem hparent)
  · cases hcommon : firstCommon (chain ir src) (chain ir dst) with
    | none => exact .inr rfl
    | some a => exact .inl (firstCommon_mem hcommon).1

/-! ## What is left and entered -/

/-- The entry actions of a state. -/
def entryHooks (ir : FsmIr) (s : String) : List ActionSignature :=
  ((ir.findState s).map (·.entryActions)).getD []

/-- The exit actions of a state. -/
def exitHooks (ir : FsmIr) (s : String) : List ActionSignature :=
  ((ir.findState s).map (·.exitActions)).getD []

theorem flatMap_entryHooks (ir : FsmIr) (names : List String) :
    names.flatMap (entryHooks ir) = (names.filterMap ir.findState).flatMap (·.entryActions) := by
  induction names with
  | nil => rfl
  | cons x names ih =>
    rw [List.flatMap_cons, ih]
    cases hx : ir.findState x with
    | none => simp [entryHooks, hx]
    | some n => simp [entryHooks, hx]

theorem flatMap_exitHooks (ir : FsmIr) (names : List String) :
    names.flatMap (exitHooks ir) = (names.filterMap ir.findState).flatMap (·.exitActions) := by
  induction names with
  | nil => rfl
  | cons x names ih =>
    rw [List.flatMap_cons, ih]
    cases hx : ir.findState x with
    | none => simp [exitHooks, hx]
    | some n => simp [exitHooks, hx]

/-- The states of a chain below another state, innermost first. -/
def below (ir : FsmIr) (s top : String) : List String := (chain ir s).takeWhile fun x => x ≠ top

/-- The least common ancestor of the ends of a transition. -/
def lcaOf (ir : FsmIr) (t : TransitionEdge) : String := computeLca ir t.source t.target

/-- The default sub-state of a composite. -/
def defaultOf (ir : FsmIr) (s : String) : Option String :=
  ((ir.findState s).map (·.initialSubState)).filter (· ≠ "")

/-- The sub-states that are entered by default below a state, outermost first. -/
inductive Defaults (ir : FsmIr) : String → List String → Prop
  | leaf {s : String} : defaultOf ir s = none → Defaults ir s []
  | down {s c : String} {ds : List String} : defaultOf ir s = some c → Defaults ir c ds →
      Defaults ir s (c :: ds)

theorem Defaults.unique {ir : FsmIr} {ds ds' : List String} (h : Defaults ir s ds)
    (h' : Defaults ir s ds') : ds = ds' := by
  induction h generalizing ds' with
  | leaf hs =>
    cases h' with
    | leaf _ => rfl
    | down hc _ => simp [hs] at hc
  | down hc _ ih =>
    cases h' with
    | leaf hs => simp [hs] at hc
    | down hc' h' =>
      have hsame : some _ = some _ := hc.symm.trans hc'
      cases hsame
      rw [ih h']

theorem Defaults.of_mem {ir : FsmIr} {s c : String} {ds : List String} (h : Defaults ir s ds)
    (hc : c ∈ ds) : ∃ es, Defaults ir c es ∧ es.length < ds.length := by
  induction h with
  | leaf _ => simp at hc
  | down _ hds ih =>
    rcases List.mem_cons.mp hc with rfl | hc
    · exact ⟨_, hds, Nat.lt_succ_self _⟩
    · obtain ⟨es, hes, hlt⟩ := ih hc
      exact ⟨es, hes, Nat.lt_succ_of_lt hlt⟩

theorem Defaults.notMem {ir : FsmIr} {ds : List String} (h : Defaults ir s ds) : s ∉ ds := by
  intro hs
  obtain ⟨es, hes, hlt⟩ := h.of_mem hs
  rw [h.unique hes] at hlt
  exact absurd hlt (Nat.lt_irrefl _)

/-- The innermost state after entering a state and its default sub-states. -/
def leafOf (s : String) (ds : List String) : String := ds.getLast?.getD s

def startActions (ir : FsmIr) (ds : List String) : List ActionSignature :=
  ((chain ir (initialName ir)).reverse ++ ds).flatMap (entryHooks ir)

/-- The actions of a transition that is taken while `s` is the innermost active state and that enters
the default sub-states `ds`. -/
def stepActions (ir : FsmIr) (s : String) (t : TransitionEdge) (ds : List String) :
    List ActionSignature :=
  if t.kind = .internal then t.conditionAction.toList ++ t.transitionAction.toList
  else
    t.conditionAction.toList ++ (below ir s (lcaOf ir t)).flatMap (exitHooks ir) ++
      t.transitionAction.toList ++
      ((below ir t.target (lcaOf ir t)).reverse ++ ds).flatMap (entryHooks ir)

/-- A transition can be taken while `s` is the innermost active state. -/
structure Fires (ir : FsmIr) (s : String) (t : TransitionEdge) (ds : List String) : Prop where
  active : t.source ∈ chain ir s
  source : (ir.findState t.source).isSome = true
  target : (ir.findState t.target).isSome = true
  defaults : t.kind ≠ .internal → Defaults ir t.target ds

/-- The innermost active state after a transition. -/
def after (s : String) (t : TransitionEdge) (ds : List String) : String :=
  if t.kind = .internal then s else leafOf t.target ds

/-- Runs from the initial state whose start and whose steps meet a condition: the numbers of the
transitions taken, the actions run, and the innermost active state at the end. -/
inductive Run (ir : FsmIr) (begins : List String → Prop)
    (ok : String → TransitionEdge → List String → Prop) :
    List ℕ → List ActionSignature → String → Prop
  | start {ds : List String} : (ir.findState (initialName ir)).isSome = true →
      Defaults ir (initialName ir) ds → begins ds →
        Run ir begins ok [] (startActions ir ds) (leafOf (initialName ir) ds)
  | step {taken : List ℕ} {acts : List ActionSignature} {s : String} {i : ℕ} {t : TransitionEdge}
      {ds : List String} : Run ir begins ok taken acts s → ir.transitions[i]? = some t →
        Fires ir s t ds → ok s t ds →
          Run ir begins ok (taken ++ [i]) (acts ++ stepActions ir s t ds) (after s t ds)

abbrev AnyRun (ir : FsmIr) : List ℕ → List ActionSignature → String → Prop :=
  Run ir (fun _ => True) fun _ _ _ => True

theorem Run.of_nil {ir : FsmIr} {begins : List String → Prop}
    {ok : String → TransitionEdge → List String → Prop} {taken : List ℕ} {acts : List ActionSignature}
    (h : Run ir begins ok taken acts s) (ht : taken = []) :
    ∃ ds, Defaults ir (initialName ir) ds ∧ acts = startActions ir ds := by
  cases h with
  | start _ hds _ => exact ⟨_, hds, rfl⟩
  | step _ _ _ _ => simp at ht

/-- Each run of one machine whose start and steps meet a condition is a run of another, over the same
transitions, with the same trace. -/
def PreservesTraces {β : Type*} (perform : ActionSignature → List β) (begins : List String → Prop)
    (ok : String → TransitionEdge → List String → Prop) (ir ir' : FsmIr) : Prop :=
  ∀ taken acts s, Run ir begins ok taken acts s →
    ∃ acts', AnyRun ir' taken acts' s ∧ acts'.flatMap perform = acts.flatMap perform

/-! ## Machines of one shape -/

/-- A transition between the same states. -/
structure SameEnds (t t' : TransitionEdge) : Prop where
  source : t'.source = t.source
  target : t'.target = t.target
  kind : t'.kind = t.kind

/-- Two machines that differ in their actions only. -/
structure SameShape (ir ir' : FsmIr) : Prop where
  size : ir'.states.length = ir.states.length
  found : ∀ s, (ir'.findState s).isSome = (ir.findState s).isSome
  parent : ∀ s, parentOf ir' s = parentOf ir s
  default : ∀ s, defaultOf ir' s = defaultOf ir s
  initial : initialName ir' = initialName ir
  edges : ∀ {i : ℕ} {t : TransitionEdge}, ir.transitions[i]? = some t →
    ∃ t', ir'.transitions[i]? = some t' ∧ SameEnds t t'

namespace SameShape

variable {ir ir' : FsmIr}

theorem trans {ir'' : FsmIr} (h : SameShape ir ir') (h' : SameShape ir' ir'') : SameShape ir ir'' where
  size := h'.size.trans h.size
  found s := (h'.found s).trans (h.found s)
  parent s := (h'.parent s).trans (h.parent s)
  default s := (h'.default s).trans (h.default s)
  initial := h'.initial.trans h.initial
  edges {i t} hi := by
    obtain ⟨t', hi', ht'⟩ := h.edges hi
    obtain ⟨t'', hi'', ht''⟩ := h'.edges hi'
    exact ⟨t'', hi'', ht''.source.trans ht'.source, ht''.target.trans ht'.target,
      ht''.kind.trans ht'.kind⟩

variable {f : StateNode → StateNode}

theorem findState_of_map (hstates : ir'.states = ir.states.map f)
    (hname : ∀ n, (f n).name = n.name) (s : String) :
    ir'.findState s = (ir.findState s).map f := by
  unfold FsmIr.findState
  rw [hstates, List.find?_map]
  have hsame : ((fun n : StateNode => decide (n.name = s)) ∘ f) = fun n => decide (n.name = s) := by
    funext n
    simp [hname]
  rw [hsame]

theorem of_map {r : TransitionEdge → TransitionEdge}
    (hstates : ir'.states = ir.states.map f) (htransitions : ir'.transitions = ir.transitions.map r)
    (hinitial : ir'.initialState = ir.initialState) (hname : ∀ n, (f n).name = n.name)
    (hparent : ∀ n, (f n).parentState = n.parentState)
    (hdefault : ∀ n, (f n).initialSubState = n.initialSubState) (hr : ∀ t, SameEnds t (r t)) :
    SameShape ir ir' where
  size := by rw [hstates, List.length_map]
  found s := by
    rw [findState_of_map hstates hname]
    simp
  parent s := by
    unfold parentOf
    rw [findState_of_map hstates hname]
    cases ir.findState s <;> simp [hparent]
  default s := by
    unfold defaultOf
    rw [findState_of_map hstates hname]
    cases ir.findState s <;> simp [hdefault]
  initial := by
    unfold initialName
    rw [hinitial, hstates, List.head?_map]
    cases ir.states.head? <;> simp [hname]
  edges {i t} hi := ⟨r t, by simp [htransitions, hi], hr t⟩

theorem chain_eq (h : SameShape ir ir') (s : String) : chain ir' s = chain ir s := by
  unfold chain
  rw [h.size, funext h.parent]

variable {t t' : TransitionEdge}

theorem lcaOf_eq (h : SameShape ir ir') (ht : SameEnds t t') : lcaOf ir' t' = lcaOf ir t := by
  unfold lcaOf computeLca
  rw [ht.source, ht.target, h.parent, h.chain_eq, h.chain_eq]

theorem below_eq (h : SameShape ir ir') (s top : String) : below ir' s top = below ir s top := by
  unfold below
  rw [h.chain_eq]

theorem defaults (h : SameShape ir ir') {s : String} {ds : List String} (hds : Defaults ir s ds) :
    Defaults ir' s ds := by
  induction hds with
  | leaf hs => exact .leaf ((h.default _).trans hs)
  | down hs _ ih => exact .down ((h.default _).trans hs) ih

theorem fires (h : SameShape ir ir') (ht : SameEnds t t') {s : String}
    {ds : List String} (hf : Fires ir s t ds) : Fires ir' s t' ds where
  active := by
    rw [h.chain_eq, ht.source]
    exact hf.active
  source := by
    rw [h.found, ht.source]
    exact hf.source
  target := by
    rw [h.found, ht.target]
    exact hf.target
  defaults := by
    rw [ht.kind, ht.target]
    exact fun hkind => h.defaults (hf.defaults hkind)

theorem after_eq (ht : SameEnds t t') (s : String) (ds : List String) : after s t' ds = after s t ds := by
  unfold after
  rw [ht.kind, ht.target]

theorem preservesTraces {β : Type*} {perform : ActionSignature → List β} {begins : List String → Prop}
    {ok : String → TransitionEdge → List String → Prop} (h : SameShape ir ir')
    (hstart : ∀ ds, begins ds →
      (startActions ir' ds).flatMap perform = (startActions ir ds).flatMap perform)
    (hstep : ∀ {i : ℕ} {t t' : TransitionEdge} {s : String} {ds : List String},
      ir.transitions[i]? = some t → ir'.transitions[i]? = some t' → SameEnds t t' →
        Fires ir s t ds → ok s t ds →
          (stepActions ir' s t' ds).flatMap perform = (stepActions ir s t ds).flatMap perform) :
    PreservesTraces perform begins ok ir ir' := by
  intro taken acts s hrun
  induction hrun with
  | start hfound hds hbegins =>
    rw [← h.initial] at hfound hds ⊢
    exact ⟨_, .start ((h.found _).trans hfound) (h.defaults hds) trivial, hstart _ hbegins⟩
  | @step taken acts s i t ds _ hi hfires hok ih =>
    obtain ⟨acts', hrun', hsame⟩ := ih
    obtain ⟨t', hi', ht⟩ := h.edges hi
    have hnext : AnyRun ir' (taken ++ [i]) (acts' ++ stepActions ir' s t' ds) (after s t' ds) :=
      .step hrun' hi' (h.fires ht hfires) trivial
    rw [after_eq ht] at hnext
    refine ⟨_, hnext, ?_⟩
    rw [List.flatMap_append, List.flatMap_append, hsame, hstep hi hi' ht hfires hok]

end SameShape

/-! ## Below and above the source -/

theorem below_lcaOf {ir : FsmIr} (hir : Acyclic ir) {t : TransitionEdge} (h : t.source ∈ chain ir s) :
    below ir s (lcaOf ir t) = below ir s t.source ++ below ir t.source (lcaOf ir t) := by
  have hs : s ≠ "" := by
    rintro rfl
    simp [chain] at h
  have hsource : t.source ≠ "" := fun hempty => empty_notMem_chain ir s (hempty ▸ h)
  refine (isChain_chain hir hs).takeWhile_eq h (isChain_chain hir hsource) ?_
  rcases computeLca_mem hir hsource t.target with hlca | hlca
  · exact .inl hlca
  · right
    show computeLca ir t.source t.target ∉ _
    rw [hlca]
    exact empty_notMem_chain ir s

end Fsmc.Runtime
