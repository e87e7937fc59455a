/-
# Fsmc.Emitter.InnerFirst — which transition a generated machine takes.

A transition of an inner state should win over those of the states around it, and an `else` transition should
wait for the other transitions of its state. The rows are tried in the order in which they were printed, which
is the order of the transition list; no pass and no part of the emitter compares the depths of two sources.
-/
import Fsmc.Emitter.Generated
import Fsmc.Runtime.Dispatch

namespace Fsmc.Emitter

open Fsmc.Ir Fsmc.Backend Fsmc.Runtime Fsmc.Lib.Ancestry

variable {σ : Signature} {ir : FsmIr}

/-! ## The transition that should be taken -/

def guardText (t : TransitionEdge) : String := t.guard.getD ""

def isElse (t : TransitionEdge) : Bool := guardText t = "else" || guardText t = "default"

/-- Whether the guard of a transition holds; an `else` transition has none of its own. -/
def holds (v : GuardValuation) (t : TransitionEdge) : Bool := isNoGuard (guardText t) || v (guardText t)

/-- A transition of one of some active states, for an event. -/
def Concerns (actives : List String) (event : String) (t : TransitionEdge) : Prop :=
  t.source ∈ actives ∧ eventType t = event

instance (actives : List String) (event : String) (t : TransitionEdge) :
    Decidable (Concerns actives event t) := inferInstanceAs (Decidable (_ ∧ _))

/-- A transition of one of some active states that is enabled for an event. -/
def ready (actives : List String) (event : String) (v : GuardValuation) (t : TransitionEdge) : Bool :=
  Concerns actives event t && holds v t

/-- The transition of a state that should be taken: the first enabled one, an `else` only after the others. -/
def choiceOf (ts : List TransitionEdge) (event : String) (v : GuardValuation) (s : String) :
    Option TransitionEdge :=
  (ts.find? fun t => ready [s] event v t && !isElse t) <|> ts.find? (ready [s] event v)

/-- The transition that should be taken: that of the innermost active state that has one. -/
def innermostChoice (ts : List TransitionEdge) (actives : List String) (event : String) (v : GuardValuation) :
    Option TransitionEdge :=
  actives.findSome? (choiceOf ts event v)

/-- `u` should win over `t`: its source is further in, or they have one source and only `t` is an `else`. -/
def Outranks (actives : List String) (u t : TransitionEdge) : Prop :=
  actives.idxOf u.source < actives.idxOf t.source ∨
    (u.source = t.source ∧ isElse t = true ∧ isElse u = false)

theorem ready_iff {actives : List String} {event : String} {v : GuardValuation} {t : TransitionEdge} :
    ready actives event v t = true ↔ Concerns actives event t ∧ holds v t = true := by
  simp [ready]

variable {ts : List TransitionEdge}

theorem choiceOf_eq_none {event : String} {v : GuardValuation} {s : String}
    (h : ∀ u ∈ ts, ready [s] event v u = false) : choiceOf ts event v s = none := by
  have hsecond : ts.find? (ready [s] event v) = none := by
    rw [List.find?_eq_none]
    exact fun u hu => by simp [h u hu]
  have hfirst : ts.find? (fun t => ready [s] event v t && !isElse t) = none := by
    rw [List.find?_eq_none]
    exact fun u hu => by simp [h u hu]
  rw [choiceOf, hfirst, hsecond]
  rfl

theorem choiceOf_spec {event : String} {v : GuardValuation} {s : String}
    {t : TransitionEdge} (h : choiceOf ts event v s = some t) :
    ready [s] event v t = true ∧ ∀ u ∈ ts, ready [s] event v u = true → isElse t = true → isElse u = true := by
  unfold choiceOf at h
  cases hfirst : ts.find? (fun t => ready [s] event v t && !isElse t) with
  | some t' =>
    rw [hfirst] at h
    cases h
    have hfound := List.find?_some hfirst
    simp only [Bool.and_eq_true, Bool.not_eq_true'] at hfound
    exact ⟨hfound.1, fun u _ _ helse => absurd helse (by simp [hfound.2])⟩
  | none =>
    rw [hfirst] at h
    have hsecond : ts.find? (ready [s] event v) = some t := h
    refine ⟨List.find?_some hsecond, fun u hu hready _ => ?_⟩
    simpa [hready] using List.find?_eq_none.mp hfirst u hu

theorem find?_append_cons {α : Type*} {p : α → Bool} {pre post : List α} {a : α}
    (hpre : ∀ b ∈ pre, p b = false) (ha : p a = true) : (pre ++ a :: post).find? p = some a := by
  rw [List.find?_append, List.find?_eq_none.mpr fun b hb => by simp [hpre b hb], List.find?_cons_of_pos ha]
  rfl

section

variable {actives : List String} {event : String} {v : GuardValuation}

variable {t : TransitionEdge}

theorem ready_source (h : ready actives event v t = true) : ready [t.source] event v t = true := by
  rw [ready_iff] at h ⊢
  exact ⟨⟨List.mem_singleton_self _, h.1.2⟩, h.2⟩

theorem ready_of_mem {s : String} (hs : s ∈ actives)
    (h : ready [s] event v t = true) : ready actives event v t = true := by
  rw [ready_iff] at h ⊢
  exact ⟨⟨List.mem_singleton.mp h.1.1 ▸ hs, h.1.2⟩, h.2⟩

theorem innermostChoice_spec {ts : List TransitionEdge} (h : innermostChoice ts actives event v = some t) :
    ∀ u ∈ ts, ready actives event v u = true → ¬ Outranks actives u t := by
  obtain ⟨l, s, r, hsplit, hs, hbefore⟩ := List.findSome?_eq_some_iff.mp h
  obtain ⟨hready, helse⟩ := choiceOf_spec hs
  have htsource : t.source = s := List.mem_singleton.mp (ready_iff.mp hready).1.1
  intro u hu hureadyAll houtranks
  have huready := ready_source hureadyAll
  rcases houtranks with hinner | ⟨hsource, helse_t, helse_u⟩
  -- the source of `u` is before that of `t`, where no choice was found
  · have hmem : u.source ∈ l := by
      by_contra hnot
      rw [hsplit, List.idxOf_append_of_notMem hnot] at hinner
      by_cases hl : t.source ∈ l
      · rw [htsource] at hl
        exact absurd (hbefore s hl) (by simp [hs])
      · rw [List.idxOf_append_of_notMem hl, htsource, List.idxOf_cons_self] at hinner
        omega
    have hnone := hbefore _ hmem
    unfold choiceOf at hnone
    have hfind : ts.find? (ready [u.source] event v) = none := by
      cases hfirst : ts.find? (fun t => ready [u.source] event v t && !isElse t) with
      | some _ =>
        rw [hfirst] at hnone
        exact absurd hnone (by simp)
      | none =>
        rw [hfirst] at hnone
        exact hnone
    exact absurd huready (List.find?_eq_none.mp hfind u hu)
  · rw [hsource, htsource] at huready
    rw [helse u hu huready helse_t] at helse_u
    exact Bool.noConfusion helse_u

theorem innermostChoice_of_first {ts : List TransitionEdge} (hfirst : ts.find? (ready actives event v) = some t)
    (hrank : ∀ u ∈ ts, ready actives event v u = true → ¬ Outranks actives u t) :
    innermostChoice ts actives event v = some t := by
  have hready : ready actives event v t = true := List.find?_some hfirst
  have hsource : t.source ∈ actives := (ready_iff.mp hready).1.1
  obtain ⟨pre, post, rfl, hpre⟩ := (List.find?_eq_some_iff_append.mp hfirst).2
  obtain ⟨l, r, hsplit, hnot⟩ := List.eq_append_cons_of_mem hsource
  have hafter : ∀ s ∈ actives, ∀ u ∈ pre, ready [s] event v u = false := by
    intro s hs u hu
    by_contra hne
    have hu' := ready_of_mem hs (Bool.not_eq_false _ ▸ hne)
    simpa [hu'] using hpre u hu
  rw [innermostChoice, List.findSome?_eq_some_iff]
  refine ⟨l, t.source, r, hsplit, ?_, ?_⟩
  · have hpre_source := hafter t.source hsource
    unfold choiceOf
    cases helse : isElse t with
    | false =>
      rw [find?_append_cons (fun u hu => by simp [hpre_source u hu])
        (by simp [ready_source hready, helse])]
      rfl
    | true =>
      rw [List.find?_eq_none.mpr, find?_append_cons hpre_source (ready_source hready)]
      · rfl
      · intro u hu hboth
        simp only [Bool.and_eq_true, Bool.not_eq_true'] at hboth
        have husource := List.mem_singleton.mp (ready_iff.mp hboth.1).1.1
        exact hrank u hu (ready_of_mem hsource hboth.1) (Or.inr ⟨husource, helse, hboth.2⟩)
  -- a state further in has no transition that is enabled: it would outrank `t`
  · intro s hs
    apply choiceOf_eq_none
    intro u hu
    by_contra hne
    have hready_u : ready [s] event v u = true := Bool.not_eq_false _ ▸ hne
    have hs' : s ∈ actives := hsplit ▸ List.mem_append_left _ hs
    have husource : u.source = s := List.mem_singleton.mp (ready_iff.mp hready_u).1.1
    refine hrank u hu (ready_of_mem hs' hready_u) (Or.inl ?_)
    rw [hsplit, husource, List.idxOf_append_of_mem hs, List.idxOf_append_of_notMem hnot]
    have hlt := List.idxOf_lt_length_of_mem hs
    omega

end

/-! ## The transition that is taken -/

/-- The rows of the table, each with the transition it was printed for. -/
def ownedRows (ir : FsmIr) : List (TransitionEdge × EmittedRow) :=
  (printedTransitions ir).flatMap fun t => (transitionRows ir t).map (t, ·)

theorem map_snd_ownedRows (ir : FsmIr) : (ownedRows ir).map (·.2) = emitTransitionTable ir := by
  unfold ownedRows emitTransitionTable
  rw [List.map_flatMap]
  simp

/-- The transition that the row at an index was printed for. -/
def ownerAt (ir : FsmIr) (index : ℕ) : Option TransitionEdge := ((ownedRows ir)[index]?).map (·.1)

/-- The guard valuation that a machine is in. -/
def valuation (M : Meaning σ) (m : Machine (headerSignature σ)) (event : Event (headerSignature σ))
    (input : σ.InPorts) : GuardValuation :=
  fun name => M.guard name event input m.reg m.srv

/-- Whether a printed row is taken by a machine. -/
def takes (h : Hierarchy ir) (M : Meaning σ) (m : Machine (headerSignature σ))
    (event : Event (headerSignature σ)) (input : σ.InPorts) (r : EmittedRow) : Bool :=
  (generated h M).applies m.state event.type (M.row r) && m.guardPassed event input (M.row r)

theorem find?_zipIdx_map {α β : Type*} (f : α → β) (p : β → Bool) (l : List α) :
    (((l.map f).zipIdx.find? fun b => p b.1).bind fun b => l[b.2]?) = l.find? fun a => p (f a) := by
  have hplain : (l.zipIdx.find? fun a => p (f a.1)).map (·.1) = l.find? fun a => p (f a) := by
    conv_rhs => rw [← List.zipIdx_map_fst 0 l, List.find?_map]
    rfl
  rw [List.zipIdx_map, List.find?_map, ← hplain]
  cases hfind : l.zipIdx.find? fun a => p (f a.1) with
  | none =>
    have hnone : l.zipIdx.find? ((fun b => p b.1) ∘ Prod.map f id) = none := hfind
    rw [hnone]
    rfl
  | some a =>
    have hsome : l.zipIdx.find? ((fun b => p b.1) ∘ Prod.map f id) = some a := hfind
    rw [hsome]
    exact List.mem_zipIdx_iff_getElem?.mp (List.mem_of_find?_eq_some hfind)

section

variable {h : Hierarchy ir} {M : Meaning σ} {m : Machine (headerSignature σ)}
  {event : Event (headerSignature σ)} {input : σ.InPorts}

theorem takes_iff {r : EmittedRow} : takes h M m event input r = true ↔
      r.source ∈ (generated h M).chain m.state ∧ r.event = event.type ∧
        M.evalGuard r.guard event input m.reg m.srv m.history = true := by
  unfold takes Program.applies
  rw [Bool.and_eq_true, Bool.and_eq_true, decide_eq_true_eq, and_assoc]
  exact and_congr (isSubstateOf_generated h M) Iff.rfl

theorem evalGuard_guardType (t : TransitionEdge) :
    M.evalGuard (guardType t) event input m.reg m.srv m.history = holds (valuation M m event input) t := by
  unfold guardType holds guardText valuation
  cases hno : isNoGuard (t.guard.getD "") with
  | true => simp [Meaning.evalGuard]
  | false => simp [Meaning.evalGuard]

theorem row_spec {t : TransitionEdge} {r : EmittedRow} (hr : r ∈ transitionRows ir t) :
    r.source = t.source ∧ r.event = eventType t ∧
      (M.evalGuard r.guard event input m.reg m.srv m.history = true →
        M.evalGuard (guardType t) event input m.reg m.srv m.history = true) := by
  unfold transitionRows at hr
  rcases List.mem_append.mp hr with hhistory | hplain
  · unfold historyRows at hhistory
    split at hhistory
    · split at hhistory
      · obtain ⟨sub, -, rfl⟩ := List.mem_map.mp hhistory
        refine ⟨rfl, rfl, fun hguard => ?_⟩
        cases htype : guardType t with
        | named name =>
          simp only [singleRow, htype, GuardType.withHistory, Meaning.evalGuard, Bool.and_eq_true] at hguard
          exact hguard.1
        | noGuard => rfl
        | historyIs composite sub =>
          unfold guardType at htype
          split at htype <;> cases htype
        | andHistory name composite sub =>
          unfold guardType at htype
          split at htype <;> cases htype
      · exact absurd hhistory List.not_mem_nil
    · exact absurd hhistory List.not_mem_nil
  · rw [List.mem_singleton] at hplain
    subst hplain
    unfold plainRow
    split <;> exact ⟨rfl, rfl, id⟩

theorem guard_plainRow (t : TransitionEdge) : (plainRow ir t).guard = guardType t := by
  unfold plainRow
  split <;> rfl

/-- Some row of a transition is taken exactly if the transition is ready: the last row has no other guard. -/
theorem any_takes (t : TransitionEdge) : (transitionRows ir t).any (takes h M m event input) =
      ready ((generated h M).chain m.state) event.type (valuation M m event input) t := by
  rw [Bool.eq_iff_iff, List.any_eq_true, ready_iff, ← evalGuard_guardType (m := m)]
  constructor
  · rintro ⟨r, hr, htakes⟩
    obtain ⟨hsource, hevent, hguard⟩ : r.source = t.source ∧ r.event = eventType t ∧
        (M.evalGuard r.guard event input m.reg m.srv m.history = true →
          M.evalGuard (guardType t) event input m.reg m.srv m.history = true) := row_spec hr
    obtain ⟨hactive, htype, hpassed⟩ := takes_iff.mp htakes
    exact ⟨⟨hsource ▸ hactive, hevent ▸ htype⟩, hguard hpassed⟩
  · rintro ⟨⟨hactive, htype⟩, hguard⟩
    have hmem : plainRow ir t ∈ transitionRows ir t := List.mem_append_right _ (List.mem_singleton_self _)
    obtain ⟨hsource, hevent, -⟩ : (plainRow ir t).source = t.source ∧ (plainRow ir t).event = eventType t ∧
        (M.evalGuard (plainRow ir t).guard event input m.reg m.srv m.history = true →
          M.evalGuard (guardType t) event input m.reg m.srv m.history = true) := row_spec hmem
    refine ⟨_, hmem, takes_iff.mpr ⟨hsource.symm ▸ hactive, hevent.trans htype, ?_⟩⟩
    rw [guard_plainRow]
    exact hguard

theorem owner_selected : (((generated h M).selected m event input).bind fun row => ownerAt ir row.2) =
      (printedTransitions ir).find?
        (ready ((generated h M).chain m.state) event.type (valuation M m event input)) := by
  have howned : ∀ ts : List TransitionEdge,
      ((ts.flatMap fun t => (transitionRows ir t).map (t, ·)).find? fun r => takes h M m event input r.2).map (·.1) =
        ts.find? (ready ((generated h M).chain m.state) event.type (valuation M m event input)) := by
    intro ts
    induction ts with
    | nil => rfl
    | cons t ts ih =>
      have htaken : ((fun r : TransitionEdge × EmittedRow => takes h M m event input r.2) ∘ fun x => (t, x)) =
          takes h M m event input := rfl
      rw [List.flatMap_cons, List.find?_append, List.find?_map, htaken, List.find?_cons, ← any_takes t]
      cases hany : (transitionRows ir t).any (takes h M m event input) with
      | true =>
        obtain ⟨r, hr, htakes⟩ := List.any_eq_true.mp hany
        obtain ⟨found, hfound⟩ := Option.isSome_iff_exists.mp (List.find?_isSome.mpr ⟨r, hr, htakes⟩)
        rw [hfound]
        rfl
      | false =>
        rw [List.find?_eq_none.mpr fun r hr => List.any_eq_false.mp hany r hr]
        exact ih
  have hrows : (generated h M).rows = (ownedRows ir).map fun r => M.row r.2 := by
    show (emitTransitionTable ir).map M.row = _
    rw [← map_snd_ownedRows, List.map_map]
    rfl
  have hsearch := find?_zipIdx_map (fun r : TransitionEdge × EmittedRow => M.row r.2)
    (fun row => (generated h M).applies m.state event.type row && m.guardPassed event input row) (ownedRows ir)
  have howner := congrArg (Option.map (·.1)) hsearch
  rw [Option.map_bind] at howner
  rw [← howned]
  unfold Program.selected
  rw [hrows]
  exact howner

end

/-! ## Inner states first -/

/-- Whatever the guards do and wherever the machine is in its run, the row that is executed for an event in a
leaf belongs to the innermost choice. -/
def InnerFirst (σ : Signature) (h : Hierarchy ir) (leaf : String) (actives : List String) (type : String) :
    Prop :=
  ∀ (M : Meaning σ) (m : Machine (headerSignature σ)) (event : Event (headerSignature σ)) (input : σ.InPorts),
    m.state = leaf → event.type = type →
      (((generated h M).selected m event input).bind fun row => ownerAt ir row.2) =
        innermostChoice ir.transitions actives type (valuation M m event input)

/-- A transition stands before one that should win over it only where an earlier one is taken instead whenever
both are enabled. -/
def Ordered (ts : List TransitionEdge) (actives : List String) (type : String) : Prop :=
  ∀ pre t post, ts = pre ++ t :: post → Concerns actives type t →
    ∀ u ∈ post, Concerns actives type u → Outranks actives u t →
      ∃ k ∈ pre, Concerns actives type k ∧
        (isNoGuard (guardText k) = true ∨ guardText k = guardText t ∨ guardText k = guardText u)

theorem not_outranks_self {actives : List String} (t : TransitionEdge) : ¬ Outranks actives t t := by
  rintro (hlt | ⟨-, htrue, hfalse⟩)
  · exact lt_irrefl _ hlt
  · exact Bool.noConfusion (htrue.symm.trans hfalse)

theorem innermostChoice_of_ordered {actives : List String} {type : String}
    (h : Ordered ts actives type) (v : GuardValuation) :
    ts.find? (ready actives type v) = innermostChoice ts actives type v := by
  cases hfirst : ts.find? (ready actives type v) with
  | none =>
    have hnone := List.find?_eq_none.mp hfirst
    symm
    rw [innermostChoice, List.findSome?_eq_none_iff]
    intro s hs
    apply choiceOf_eq_none
    intro u hu
    by_contra hne
    exact hnone u hu (ready_of_mem hs (Bool.not_eq_false _ ▸ hne))
  | some t =>
    obtain ⟨hready, pre, post, hsplit, hpre⟩ := List.find?_eq_some_iff_append.mp hfirst
    symm
    apply innermostChoice_of_first hfirst
    intro u hu hready_u houtranks
    rw [hsplit] at hu
    rcases List.mem_append.mp hu with hbefore | hrest
    · simpa [hready_u] using hpre u hbefore
    · rcases List.mem_cons.mp hrest with rfl | hpost
      · exact not_outranks_self u houtranks
      · obtain ⟨k, hk, hconcerns, hguard⟩ :=
          h pre t post hsplit (ready_iff.mp hready).1 u hpost (ready_iff.mp hready_u).1 houtranks
        have hholds : holds v k = true := by
          rcases hguard with hno | hsame | hsame
          · simp [holds, hno]
          · rw [holds, hsame]
            exact (ready_iff.mp hready).2
          · rw [holds, hsame]
            exact (ready_iff.mp hready_u).2
        simpa [ready_iff.mpr ⟨hconcerns, hholds⟩] using hpre k hk

theorem ordered_of_innermostChoice {actives : List String} {type : String}
    (h : ∀ v, ts.find? (ready actives type v) = innermostChoice ts actives type v) : Ordered ts actives type := by
  intro pre t post hsplit ht u hu hconcerns houtranks
  by_contra hno
  let v : GuardValuation := fun text => text = guardText t || text = guardText u
  have hready : ready actives type v t = true := ready_iff.mpr ⟨ht, by simp [holds, v]⟩
  have hready_u : ready actives type v u = true := ready_iff.mpr ⟨hconcerns, by simp [holds, v]⟩
  have hfirst : ts.find? (ready actives type v) = some t := by
    rw [hsplit]
    apply find?_append_cons _ hready
    intro k hk
    by_contra hne
    obtain ⟨hk_concerns, hk_holds⟩ := ready_iff.mp (Bool.not_eq_false _ ▸ hne)
    refine hno ⟨k, hk, hk_concerns, ?_⟩
    simpa [holds, v] using hk_holds
  have hmem : u ∈ ts := by
    rw [hsplit]
    exact List.mem_append_right _ (List.mem_cons_of_mem _ hu)
  exact innermostChoice_spec ((h v).symm.trans hfirst) u hmem hready_u houtranks

section

variable {h : Hierarchy ir} {leaf : String} {actives : List String} {type : String}

theorem innerFirst_eq (hunprioritized : ∀ t ∈ ir.transitions, t.priority = 0)
    (hactives : IsChain (parentOf ir) leaf actives) :
    InnerFirst σ h leaf actives type ↔ ∀ (M : Meaning σ) (m : Machine (headerSignature σ))
      (event : Event (headerSignature σ)) (input : σ.InPorts), m.state = leaf → event.type = type →
        ir.transitions.find? (ready actives type (valuation M m event input)) =
          innermostChoice ir.transitions actives type (valuation M m event input) := by
  refine forall_congr' fun M => forall_congr' fun m => forall_congr' fun event => forall_congr' fun input =>
    forall_congr' fun hleaf => forall_congr' fun htype => ?_
  have hchain : (generated h M).chain m.state = actives := by
    rw [hleaf]
    exact (isChain_generated h M leaf).unique hactives
  rw [owner_selected, printedTransitions_of_unprioritized hunprioritized, hchain, htype]

theorem ordered_of_innerFirst (hunprioritized : ∀ t ∈ ir.transitions, t.priority = 0)
    (hactives : IsChain (parentOf ir) leaf actives) (hinner : InnerFirst σ h leaf actives type) :
    Ordered ir.transitions actives type := by
  apply ordered_of_innermostChoice
  intro v
  have hall := (innerFirst_eq hunprioritized hactives).mp hinner
  let M : Meaning σ := ⟨fun name _ _ _ _ => v name, fun _ _ _ d => d⟩
  let m : Machine (headerSignature σ) :=
    { state := leaf, value := (), reg := default, out := default, srv := Classical.choice σ.services }
  exact hall M m ⟨type, default⟩ default rfl rfl

/-- Generated dispatch takes inner states first exactly for an ordered list. -/
theorem innerFirst_iff (hunprioritized : ∀ t ∈ ir.transitions, t.priority = 0)
    (hactives : IsChain (parentOf ir) leaf actives) :
    InnerFirst σ h leaf actives type ↔ Ordered ir.transitions actives type :=
  ⟨ordered_of_innerFirst hunprioritized hactives, fun hordered =>
    (innerFirst_eq hunprioritized hactives).mpr fun _ _ _ _ _ _ => innermostChoice_of_ordered hordered _⟩

end

/-- `Door` is in `House`, and both leave for `Away` on `e`. -/
def houseOf (transitions : List TransitionEdge) : FsmIr :=
  { initialState := "House"
    states :=
      [{ name := "House", kind := .composite, isComposite := true, initialSubState := "Door" },
        { name := "Door", parentState := "House" }, { name := "Away" }]
    transitions := transitions }

theorem parentOf_houseOf (ts : List TransitionEdge) (s : String) :
    parentOf (houseOf ts) s = if s = "Door" then some "House" else none := by
  unfold parentOf FsmIr.findState houseOf
  by_cases hdoor : s = "Door"
  · subst hdoor
    rfl
  · by_cases hhouse : "House" = s
    · subst hhouse
      rfl
    · by_cases haway : "Away" = s
      · subst haway
        rfl
      · simp [List.find?, hhouse, haway, hdoor, Ne.symm (Ne.intro hdoor)]

def houseHierarchy (ts : List TransitionEdge) : Hierarchy (houseOf ts) where
  depth := fun s => if s = "Door" then 1 else 0
  depth_lt := by
    intro s p h
    rw [parentOf_houseOf] at h
    split at h
    · cases h
      simp_all
    · cases h

def fromHouse : TransitionEdge := { source := "House", target := "Away", event := "e" }

def fromDoor : TransitionEdge := { source := "Door", target := "Away", event := "e" }

theorem isChain_door (ts : List TransitionEdge) : IsChain (parentOf (houseOf ts)) "Door" ["Door", "House"] :=
  .cons (by rw [parentOf_houseOf]; rfl) (.root (by rw [parentOf_houseOf]; rfl))

theorem inner_innerFirst : (∀ t ∈ (houseOf [fromDoor, fromHouse]).transitions, t.priority = 0) ∧
      InnerFirst Signature.small (houseHierarchy [fromDoor, fromHouse]) "Door" ["Door", "House"] "e" := by
  have hpriority : ∀ t ∈ (houseOf [fromDoor, fromHouse]).transitions, t.priority = 0 := by
    simp [houseOf, fromDoor, fromHouse]
  refine ⟨hpriority, (innerFirst_iff hpriority (isChain_door _)).mpr ?_⟩
  intro pre t post hsplit _ u hu _ houtranks
  have htransitions : [fromDoor, fromHouse] = pre ++ t :: post := hsplit
  rcases pre with _ | ⟨_, _ | ⟨_, pre⟩⟩
  · obtain ⟨rfl, rfl⟩ := List.cons_eq_cons.mp htransitions
    rw [List.mem_singleton] at hu
    subst hu
    exact absurd houtranks (by simp [Outranks, fromDoor, fromHouse, isElse, guardText])
  · simp only [List.cons_append, List.nil_append, List.cons.injEq] at htransitions
    exact absurd hu (by simp [← htransitions.2.2])
  · simp at htransitions

theorem outer_not_innerFirst : (∀ t ∈ (houseOf [fromHouse, fromDoor]).transitions, t.priority = 0) ∧
      IsChain (parentOf (houseOf [fromHouse, fromDoor])) "Door" ["Door", "House"] ∧
      ¬ InnerFirst Signature.small (houseHierarchy [fromHouse, fromDoor]) "Door" ["Door", "House"] "e" := by
  have hpriority : ∀ t ∈ (houseOf [fromHouse, fromDoor]).transitions, t.priority = 0 := by
    simp [houseOf, fromDoor, fromHouse]
  refine ⟨hpriority, isChain_door _, fun hinner => ?_⟩
  obtain ⟨k, hk, -⟩ := ordered_of_innerFirst hpriority (isChain_door _) hinner [] fromHouse [fromDoor] rfl
    (by decide) fromDoor (List.mem_singleton_self _) (by decide) (Or.inl (by decide))
  exact List.not_mem_nil hk

end Fsmc.Emitter
