/-
# Fsmc.Passes.StructuralLowering — the structural passes leave well-formed machines well formed.

Each pass removes states and rewrites the transitions that touch them. The conditions say when it forgets
none: what is removed is not the initial state, and the branch that rewrites a transition is taken for
every transition that needs it.
-/
import Fsmc.Passes.StructuralPasses

namespace Fsmc.Passes.HistoryLowering

open Fsmc.Ir Fsmc.Lib

/-- A reference that is empty or leads to a state other than a history node. -/
def Remains (ir : FsmIr) (name : String) : Prop :=
  name = "" ∨ ∃ s ∈ ir.states, s.name = name ∧ isHistory s = false

/-- History nodes are not initial and nothing leaves them, transitions into them are redirected, and the
default of a composite is none of them at its turn. -/
structure Replaced (ir : FsmIr) : Prop where
  initial : Remains ir ir.initialState
  sources : ∀ t ∈ ir.transitions, Remains ir t.source
  targets : ∀ t ∈ ir.transitions, Remains ir t.target ∨
    ∃ P ∈ compositesWithHistory ir, captures ir P t = true
  defaults : Meets (fun m P => Remains m (defaultSubstate m P)) lowerComposite
    (compositesWithHistory ir) ir

/-- A state that a turn may have changed. -/
structure Same (s s' : StateNode) : Prop where
  name : s'.name = s.name
  kind : s'.kind = s.kind
  parentState : s'.parentState = s.parentState

theorem Same.isHistory {s s' : StateNode} (h : Same s s') : isHistory s' = isHistory s := by
  unfold HistoryLowering.isHistory
  rw [h.kind]

/-- What a machine is turned into by some of the turns. -/
structure Turned (ir m : FsmIr) : Prop where
  found : ∀ x n, ir.findState x = some n → ∃ n', m.findState x = some n' ∧ Same n n'
  states : ∀ s ∈ ir.states, ∃ s' ∈ m.states, Same s s'

theorem Turned.refl (ir : FsmIr) : Turned ir ir :=
  ⟨fun _ n hn => ⟨n, hn, rfl, rfl, rfl⟩, fun s hs => ⟨s, hs, rfl, rfl, rfl⟩⟩

theorem Turned.trans {ir m m' : FsmIr} (h : Turned ir m) (h' : Turned m m') : Turned ir m' := by
  constructor
  · intro x n hn
    obtain ⟨n', hn', hsame⟩ := h.found x n hn
    obtain ⟨n'', hn'', hsame'⟩ := h'.found x n' hn'
    exact ⟨n'', hn'', hsame'.name.trans hsame.name, hsame'.kind.trans hsame.kind,
      hsame'.parentState.trans hsame.parentState⟩
  · intro s hs
    obtain ⟨s', hs', hsame⟩ := h.states s hs
    obtain ⟨s'', hs'', hsame'⟩ := h'.states s' hs'
    exact ⟨s'', hs'', hsame'.name.trans hsame.name, hsame'.kind.trans hsame.kind,
      hsame'.parentState.trans hsame.parentState⟩

theorem Turned.remains {ir m : FsmIr} (h : Turned ir m) {x : String} (hx : Remains ir x) : Remains m x := by
  rcases hx with hx | ⟨s, hs, rfl, hhistory⟩
  · exact Or.inl hx
  · obtain ⟨s', hs', hsame⟩ := h.states s hs
    exact Or.inr ⟨s', hs', hsame.name, hsame.isHistory.trans hhistory⟩

variable {P : String}

/-- The states after the turn of a composite: those before, changed in place, and the choice. -/
theorem states_lowerComposite {m : FsmIr} (hP : (m.findState P).isSome = true) :
    ∃ l, (lowerComposite m P).states = l ++ [restoreNode P] ∧ List.Forall₂ Same m.states l := by
  obtain ⟨n, hn⟩ := Option.isSome_iff_exists.mp hP
  refine ⟨(m.modifyState P clearHistory).states.map (recordExit m (isDeep m P) P), ?_, ?_⟩
  · unfold lowerComposite
    rw [hn]
  · show List.Forall₂ Same m.states ((modifyFirst _ clearHistory m.states).map _)
    have hrecord : ∀ s, Same s (recordExit m (isDeep m P) P s) := fun s =>
      ⟨(recordExit_kept m _ P s).1, (recordExit_kept m _ P s).2.1, (recordExit_kept m _ P s).2.2.1⟩
    rw [List.forall₂_map_right_iff]
    induction m.states with
    | nil => exact .nil
    | cons s states ih =>
      unfold modifyFirst
      split
      · have hclear := hrecord (clearHistory s)
        exact .cons ⟨hclear.name, hclear.kind, hclear.parentState⟩
          (List.forall₂_same.mpr fun s _ => hrecord s)
      · exact .cons (hrecord s) ih

theorem turned_lowerComposite {m : FsmIr} (hP : (m.findState P).isSome = true) :
    Turned m (lowerComposite m P) ∧ Remains (lowerComposite m P) (restoreName P) := by
  obtain ⟨l, hstates, hsame⟩ := states_lowerComposite hP
  refine ⟨⟨fun x n hn => ?_, fun s hs => ?_⟩, Or.inr ⟨restoreNode P, by simp [hstates], rfl, rfl⟩⟩
  · rcases Lowered.findState_forall₂ (fun _ _ h => h.name) hsame x with ⟨hnone, -⟩ |
      ⟨n₀, n', hn₀, hn', hrel⟩
    · rw [FsmIr.findState, hnone] at hn
      cases hn
    · rw [FsmIr.findState, hn₀] at hn
      cases hn
      refine ⟨n', ?_, hrel⟩
      unfold FsmIr.findState
      rw [hstates, List.find?_append, hn', Option.some_or]
  · obtain ⟨i, hi, rfl⟩ := List.mem_iff_getElem.mp hs
    have hi' : i < l.length := hsame.length_eq ▸ hi
    refine ⟨l[i], ?_, (List.forall₂_iff_get.mp hsame).2 i hi hi'⟩
    rw [hstates]
    exact List.mem_append_left _ (List.getElem_mem hi')

theorem captures_turned {ir m : FsmIr} (h : Turned ir m) {t t' : TransitionEdge}
    (hfound : (ir.findState t.target).isSome = true) (htarget : t'.target = t.target)
    (hflag : t'.targetIsHistory = t.targetIsHistory)
    (hdeep : t'.targetIsDeepHistory = t.targetIsDeepHistory) :
    captures m P t' = captures ir P t := by
  obtain ⟨n, hn⟩ := Option.isSome_iff_exists.mp hfound
  obtain ⟨n', hn', hsame⟩ := h.found _ n hn
  unfold captures targetsHistory
  rw [htarget, hflag, hdeep, hn, hn', Option.any_some, Option.any_some, hsame.isHistory, hsame.parentState]

/-- What is known of a transition after the turns of some composites: it leads from and to states that
remain, or it is one that none of them captures. -/
structure Redirects (ir : FsmIr) (done : List String) (m : FsmIr) (t' : TransitionEdge) : Prop where
  source : Remains m t'.source
  target : Remains m t'.target ∨ ∃ t ∈ ir.transitions, t'.target = t.target ∧
    t'.targetIsHistory = t.targetIsHistory ∧ t'.targetIsDeepHistory = t.targetIsDeepHistory ∧
      (∀ P ∈ done, captures ir P t = false)

/-- What holds after the turns of some composites. -/
structure AfterTurns (ir : FsmIr) (done : List String) (m : FsmIr) : Prop where
  turned : Turned ir m
  initial : m.initialState = ir.initialState
  transitions : ∀ t' ∈ m.transitions, Redirects ir done m t'

theorem AfterTurns.turn {ir m : FsmIr} {done : List String} (hwell : WellFormed ir)
    (h : AfterTurns ir done m) (hP : P ∈ compositesWithHistory ir)
    (hdefault : Remains m (defaultSubstate m P)) : AfterTurns ir (done ++ [P]) (lowerComposite m P) := by
  have hfound : (m.findState P).isSome = true := by
    obtain ⟨s, hs, hname⟩ := exists_of_mem_composites hP
    have hold : (ir.findState P).isSome = true := List.find?_isSome.mpr ⟨s, hs, by simpa using hname⟩
    obtain ⟨n, hn⟩ := Option.isSome_iff_exists.mp hold
    obtain ⟨n', hn', -⟩ := h.turned.found P n hn
    rw [hn']
    rfl
  obtain ⟨hturned, hrestore⟩ := turned_lowerComposite hfound
  obtain ⟨n, hn⟩ := Option.isSome_iff_exists.mp hfound
  have hall := h.turned.trans hturned
  refine ⟨hall, ?_, ?_⟩
  · rw [← h.initial]
    unfold lowerComposite
    rw [hn]
    rfl
  · intro t' ht'
    have hmap : (lowerComposite m P).transitions =
        (m.transitions ++ restoreEdges P (targetSubstates m P) (defaultSubstate m P)).map fun t =>
          if captures (lowerComposite m P) P t then retarget P t else t := by
      unfold lowerComposite
      rw [hn]
      rfl
    rw [hmap] at ht'
    obtain ⟨u, hu, rfl⟩ := List.mem_map.mp ht'
    have hbefore : Redirects ir done m u ∨ u.source = restoreName P ∧ Remains m u.target := by
      rcases List.mem_append.mp hu with hu | hu
      · exact Or.inl (h.transitions u hu)
      · right
        unfold restoreEdges at hu
        simp only [List.mem_append, List.mem_map, List.mem_singleton] at hu
        rcases hu with ⟨name, hname, rfl⟩ | rfl
        · obtain ⟨s, hs, rfl⟩ := List.mem_map.mp hname
          obtain ⟨hmem, hfilter⟩ := List.mem_filter.mp hs
          simp only [Bool.and_eq_true, Bool.not_eq_true'] at hfilter
          exact ⟨rfl, Or.inr ⟨s, hmem, rfl, hfilter.2⟩⟩
        · exact ⟨rfl, hdefault⟩
    have hsource : Remains (lowerComposite m P) u.source := by
      rcases hbefore with hbefore | ⟨hsource, -⟩
      · exact hturned.remains hbefore.source
      · rw [hsource]
        exact hrestore
    split
    · -- the composite captures it, and its choice remains
      exact ⟨hsource, Or.inl hrestore⟩
    · next hcapture =>
        refine ⟨hsource, ?_⟩
        rcases hbefore with hbefore | ⟨-, htarget⟩
        · rcases hbefore.target with htarget | ⟨t, ht, htarget, hflag, hdeep, hnot⟩
          · exact Or.inl (hturned.remains htarget)
          · rcases (hwell.ends t ht).2 with hempty | hknown
            · exact Or.inl (Or.inl (htarget.trans hempty))
            · obtain ⟨s, hs, hname⟩ := List.mem_map.mp hknown
              have hold : (ir.findState t.target).isSome = true :=
                List.find?_isSome.mpr ⟨s, hs, by simpa using hname⟩
              rw [captures_turned hall hold htarget hflag hdeep, Bool.not_eq_true] at hcapture
              refine Or.inr ⟨t, ht, htarget, hflag, hdeep, fun Q hQ => ?_⟩
              rcases List.mem_append.mp hQ with hQ | hQ
              · exact hnot Q hQ
              · rw [List.mem_singleton.mp hQ]
                exact hcapture
        · exact Or.inl (hturned.remains htarget)

/-- Lowering history removes the history nodes, and no transition touches one any more. -/
theorem run_wellFormed {ir : FsmIr} (h : WellFormed ir) (hreplaced : Replaced ir) : WellFormed (run ir) := by
  have hstart : AfterTurns ir [] ir := ⟨.refl ir, rfl, fun t ht => ⟨hreplaced.sources t ht,
    Or.inr ⟨t, ht, rfl, rfl, rfl, fun P hP => absurd hP List.not_mem_nil⟩⟩⟩
  have hend : AfterTurns ir (compositesWithHistory ir) (lowerAll ir) :=
    foldl_inv_of_meets (AfterTurns ir) (fun _ _ _ hP hm hok => hm.turn h hP hok) hreplaced.defaults hstart
  have hknown : ∀ {x : String}, Remains (lowerAll ir) x →
      Known ((lowerAll ir).states.filter fun s => !isHistory s) x := by
    rintro x (hx | ⟨s, hs, rfl, hhistory⟩)
    · exact Or.inl hx
    · exact .of_mem (List.mem_filter.mpr ⟨hs, by simp [hhistory]⟩)
  unfold run
  split
  · exact h
  · refine ⟨hknown ?_, fun t' ht' => ⟨hknown (hend.transitions t' ht').source, hknown ?_⟩⟩
    · show Remains (lowerAll ir) (lowerAll ir).initialState
      rw [hend.initial]
      exact hend.turned.remains hreplaced.initial
    · rcases (hend.transitions t' ht').target with htarget | ⟨t, ht, htarget, -, -, hnot⟩
      · exact htarget
      · rw [htarget]
        rcases hreplaced.targets t ht with hremains | ⟨P, hP, hcapture⟩
        · exact hend.turned.remains hremains
        · rw [hnot P hP] at hcapture
          cases hcapture

end Fsmc.Passes.HistoryLowering

namespace Fsmc.Passes.OrthogonalProduct

open Fsmc.Ir Fsmc.Lib Fsmc.Lib.Cartesian

/-! ## The turn of a composite -/

/-- A reference that the expansion of a composite leaves valid: to a state that stays, or to a product
state. -/
def Stays (ir : FsmIr) (parent : StateNode) (name : String) : Prop :=
  Known (keptStates ir parent (subStates (regionsOf ir parent))) name ∨
    name ∈ (productTuples (regionsOf ir parent)).map (tupleToName parent.name)

/-- What is removed with the regions is only referred to by transitions that are rewritten: the initial
state stays, transitions end at members or at states that stay, one that enters by identifiers names a
member or the composite, and the first transition of a member for an event leads to a member of its
region. -/
structure Boxed (ir : FsmIr) (parent : StateNode) : Prop where
  initial : Stays ir parent ir.initialState
  sources : ∀ t ∈ ir.transitions, t.source ∈ subStates (regionsOf ir parent) ∨ Stays ir parent t.source
  targets : ∀ t ∈ ir.transitions, t.target ∈ subStates (regionsOf ir parent) ∨ Stays ir parent t.target
  named : ∀ t ∈ ir.transitions, t.source ∉ subStates (regionsOf ir parent) →
    t.target ∈ subStates (regionsOf ir parent) → t.targetIds ≠ [] →
      ∃ tid ∈ t.targetIds, tid ∈ subStates (regionsOf ir parent) ∨ tid = parent.name
  moves : ∀ reg ∈ regionsOf ir parent, ∀ s ∈ reg.states,
    ∀ event ∈ regionEvents (intraTransitions ir (subStates (regionsOf ir parent))), ∀ t,
      leading (intraTransitions ir (subStates (regionsOf ir parent))) event s = some t →
        t.target ∈ reg.states

variable {n : ℕ}

variable {regions : List RegionInfo}

theorem ne_nil_of_withinBound : ∀ {total : ℕ},
    withinBound n regions total = true → ∀ reg ∈ regions, reg.states ≠ [] := by
  induction regions with
  | nil => exact fun _ _ h => absurd h List.not_mem_nil
  | cons r regions ih =>
    intro total h reg hreg
    simp only [withinBound, Bool.and_eq_true, Bool.not_eq_true', List.isEmpty_eq_false_iff] at h
    rcases List.mem_cons.mp hreg with rfl | hreg
    · exact h.1.1
    · exact ih h.2 reg hreg

theorem map_mem_productTuples {f : RegionInfo → String}
    (hf : ∀ reg ∈ regions, f reg ∈ reg.states) : regions.map f ∈ productTuples regions := by
  unfold productTuples
  rw [mem_product, List.forall₂_map_left_iff, List.forall₂_map_right_iff]
  exact List.forall₂_same.mpr hf

/-- The member of a region among some names, or else a given one. -/
theorem getD_getLast?_filter_mem {states ids : List String} {default : String} (h : default ∈ states) :
    ((ids.filter (· ∈ states)).getLast?).getD default ∈ states := by
  cases hlast : (ids.filter (· ∈ states)).getLast? with
  | none => exact h
  | some x => simpa using (List.mem_filter.mp (List.mem_of_getLast? hlast)).2

theorem initialState_mem {ir : FsmIr} {parent : StateNode} {reg : RegionInfo}
    (hreg : reg ∈ regionsOf ir parent) (hne : reg.states ≠ []) : reg.initialState ∈ reg.states := by
  obtain ⟨r, -, rfl⟩ := List.mem_map.mp hreg
  unfold regionInfo at hne ⊢
  dsimp only at hne ⊢
  split
  · next hinitial => exact hinitial.2
  · obtain ⟨a, l, hl⟩ := List.exists_cons_of_ne_nil hne
    rw [hl]
    exact List.mem_cons_self

section Turn

variable {ir : FsmIr} {parent : StateNode} (hb : Boxed ir parent)
  (hne : ∀ reg ∈ regionsOf ir parent, reg.states ≠ [])

theorem Stays.product {tup : List String} (h : tup ∈ productTuples (regionsOf ir parent)) :
    Stays ir parent (tupleToName parent.name tup) :=
  Or.inr (List.mem_map_of_mem h)

variable {t : TransitionEdge}

include hb hne in
theorem stays_remapIncoming (ht : t ∈ ir.transitions)
    (hsource : t.source ∉ subStates (regionsOf ir parent)) :
    Stays ir parent (remapIncoming parent.name (regionsOf ir parent) t).target := by
  unfold remapIncoming
  dsimp only
  rw [if_neg hsource]
  split
  · next hids =>
      have hids' : t.targetIds ≠ [] := by simpa using hids
      split
      · exact Stays.product (map_mem_productTuples fun reg hreg =>
          getD_getLast?_filter_mem (initialState_mem hreg (hne reg hreg)))
      · next hany =>
          rcases hb.targets t ht with hin | hstays
          · obtain ⟨tid, htid, hnamed⟩ := hb.named t ht hsource hin hids'
            exact absurd (List.any_eq_true.mpr ⟨tid, htid, by simpa using hnamed⟩) hany
          · exact hstays
  · split
    · exact Stays.product (map_mem_productTuples fun reg hreg => initialState_mem hreg (hne reg hreg))
    · split
      · apply Stays.product (map_mem_productTuples fun reg hreg => ?_)
        split
        · next hmem => exact hmem
        · exact initialState_mem hreg (hne reg hreg)
      · next hout => exact (hb.targets t ht).resolve_left hout

include hne in
theorem remapOutgoing_ends (u : TransitionEdge) :
    (remapOutgoing parent.name (regionsOf ir parent) u).1.target = u.target ∧
      ((remapOutgoing parent.name (regionsOf ir parent) u).1.source = u.source ∨
        u.target ∉ subStates (regionsOf ir parent) ∧
          Stays ir parent (remapOutgoing parent.name (regionsOf ir parent) u).1.source) ∧
      ∀ c ∈ (remapOutgoing parent.name (regionsOf ir parent) u).2, c.target = u.target ∧
        u.target ∉ subStates (regionsOf ir parent) ∧ Stays ir parent c.source := by
  unfold remapOutgoing
  dsimp only
  split
  · exact ⟨rfl, Or.inl rfl, by simp⟩
  · next hout =>
      have hout' : u.target ∉ subStates (regionsOf ir parent) := fun h => hout (Or.inl h)
      split
      · split
        · refine ⟨rfl, Or.inr ⟨hout', Stays.product (map_mem_productTuples fun reg hreg => ?_)⟩, by simp⟩
          apply getD_getLast?_filter_mem
          obtain ⟨a, ha⟩ := Option.isSome_iff_exists.mp (List.getLast?_isSome.mpr (hne reg hreg))
          rw [ha]
          exact List.mem_of_getLast? ha
        · exact ⟨rfl, Or.inl rfl, by simp⟩
      · split
        · have hproducts : ∀ p ∈ allProducts parent.name (regionsOf ir parent) u.source,
              Stays ir parent p := by
            intro p hp
            obtain ⟨tup, htup, hp⟩ := List.mem_flatMap.mp hp
            obtain ⟨m, -, rfl⟩ := List.mem_map.mp hp
            exact Stays.product htup
          split
          · exact ⟨rfl, Or.inl rfl, by simp⟩
          · next first rest hall =>
              rw [hall] at hproducts
              refine ⟨rfl, Or.inr ⟨hout', hproducts first List.mem_cons_self⟩, fun c hc => ?_⟩
              obtain ⟨p, hp, rfl⟩ := List.mem_map.mp hc
              exact ⟨rfl, hout', hproducts p (List.mem_cons_of_mem _ hp)⟩
        · exact ⟨rfl, Or.inl rfl, by simp⟩

include hb hne in
theorem stays_flatTransitions (ht : t ∈ flatTransitions ir parent.name (regionsOf ir parent)) :
    Stays ir parent t.source ∧ Stays ir parent t.target := by
  have hincoming : ∀ e ∈ ir.transitions,
      (remapIncoming parent.name (regionsOf ir parent) e).target ∉ subStates (regionsOf ir parent) ∨
        e.source ∉ subStates (regionsOf ir parent) →
      Stays ir parent (remapIncoming parent.name (regionsOf ir parent) e).target := by
    intro e he hcases
    by_cases hsource : e.source ∈ subStates (regionsOf ir parent)
    · have hsame : remapIncoming parent.name (regionsOf ir parent) e = e := by
        unfold remapIncoming
        exact if_pos hsource
      rw [hsame] at hcases ⊢
      exact (hb.targets e he).resolve_left (hcases.resolve_right (not_not_intro hsource))
    · exact stays_remapIncoming hb hne he hsource
  unfold flatTransitions at ht
  dsimp only at ht
  rcases List.mem_append.mp ht with ht | ht
  · rcases List.mem_append.mp ht with ht | ht
    · -- a transition of the machine, which starts at no member any more
      obtain ⟨hmem, hout⟩ := List.mem_filter.mp ht
      obtain ⟨pair, hpair, rfl⟩ := List.mem_map.mp hmem
      obtain ⟨e, he, rfl⟩ := List.mem_map.mp hpair
      have hsame : (remapIncoming parent.name (regionsOf ir parent) e).source = e.source :=
        (remapIncoming_ends parent.name (regionsOf ir parent) e).1
      obtain ⟨htarget, hsource, -⟩ := @remapOutgoing_ends ir parent hne
        (remapIncoming parent.name (regionsOf ir parent) e)
      rw [htarget]
      rcases hsource with hsource | ⟨hapart, hproduct⟩
      · rw [hsource, hsame] at hout ⊢
        have hout' : e.source ∉ subStates (regionsOf ir parent) := by simpa using hout
        exact ⟨(hb.sources e he).resolve_left hout', hincoming e he (Or.inr hout')⟩
      · exact ⟨hproduct, hincoming e he (Or.inl hapart)⟩
    · -- a product transition leads where the first transitions of the regions lead
      obtain ⟨tup, htup, hedge⟩ := List.mem_flatMap.mp ht
      obtain ⟨event, hevent, hedge⟩ := List.mem_filterMap.mp hedge
      unfold productEdge at hedge
      dsimp only at hedge
      split at hedge
      · cases hedge
      · obtain rfl := Option.some.inj hedge
        refine ⟨Stays.product htup, Stays.product (map_mem_product htup ?_)⟩
        intro l hl s _ hs
        obtain ⟨reg, hreg, rfl⟩ := List.mem_map.mp hl
        cases hlead : leading (intraTransitions ir (subStates (regionsOf ir parent))) event s with
        | none => exact hs
        | some t => exact hb.moves reg hreg s hs event hevent t hlead
  · -- a copy of a transition that leaves the composite
    obtain ⟨pair, hpair, hmem⟩ := List.mem_flatMap.mp ht
    obtain ⟨e, he, rfl⟩ := List.mem_map.mp hpair
    obtain ⟨-, -, hcopies⟩ := @remapOutgoing_ends ir parent hne
      (remapIncoming parent.name (regionsOf ir parent) e)
    obtain ⟨htarget, hapart, hproduct⟩ := hcopies t hmem
    rw [htarget]
    exact ⟨hproduct, hincoming e he (Or.inl hapart)⟩

end Turn

theorem map_name_addState (states : List StateNode) (node : StateNode) :
    states.map (·.name) ⊆ (addState states node).map (·.name) ∧
      node.name ∈ (addState states node).map (·.name) := by
  unfold addState
  split
  · next hany =>
      have hnames : (modifyFirst (fun s => s.name = node.name) (fun _ => node) states).map (·.name) =
          states.map (·.name) := by
        clear hany
        induction states with
        | nil => rfl
        | cons s states ih =>
          unfold modifyFirst
          split
          · next hs => simp [of_decide_eq_true hs]
          · rw [List.map_cons, List.map_cons, ih]
      obtain ⟨s, hs, hname⟩ := List.any_eq_true.mp hany
      rw [hnames]
      exact ⟨List.Subset.refl _, List.mem_map.mpr ⟨s, hs, of_decide_eq_true hname⟩⟩
  · rw [List.map_append]
    exact ⟨List.subset_append_left _ _, List.mem_append_right _ (List.mem_singleton_self _)⟩

theorem map_name_foldl_addState (nodes : List StateNode) : ∀ states : List StateNode,
    states.map (·.name) ⊆ (nodes.foldl addState states).map (·.name) ∧
      ∀ node ∈ nodes, node.name ∈ (nodes.foldl addState states).map (·.name) := by
  induction nodes with
  | nil => exact fun states => ⟨List.Subset.refl _, by simp⟩
  | cons node nodes ih =>
    intro states
    obtain ⟨hold, hnew⟩ := map_name_addState states node
    obtain ⟨hsub, hrest⟩ := ih (addState states node)
    refine ⟨fun x hx => hsub (hold hx), fun m hm => ?_⟩
    rcases List.mem_cons.mp hm with rfl | hm
    · exact hsub hnew
    · exact hrest m hm

theorem expandParallelState_wellFormed {ir : FsmIr} {parent : StateNode} (h : WellFormed ir)
    (hb : Boxed ir parent) : WellFormed (expandParallelState n ir parent).1 := by
  unfold expandParallelState
  dsimp only
  split
  · exact h
  · next hbound =>
      have hne := ne_nil_of_withinBound (by simpa using (not_or.mp hbound).2)
      let nodes := (productTuples (regionsOf ir parent)).map (productNode ir parent.name)
      let kept := keptStates ir parent (subStates (regionsOf ir parent))
      obtain ⟨hsub, hproducts⟩ := map_name_foldl_addState nodes kept
      have hknown : ∀ {x : String}, Stays ir parent x → Known (nodes.foldl addState kept) x := by
        rintro x (hx | hx)
        · exact hx.mono hsub
        · obtain ⟨tup, htup, rfl⟩ := List.mem_map.mp hx
          exact Or.inr (hproducts (productNode ir parent.name tup) (List.mem_map_of_mem htup))
      have hexpanded : WellFormed { ir with
          transitions := flatTransitions ir parent.name (regionsOf ir parent)
          states := nodes.foldl addState kept } := by
        refine ⟨hknown hb.initial, fun t ht => ?_⟩
        obtain ⟨hsource, htarget⟩ := stays_flatTransitions hb hne ht
        exact ⟨hknown hsource, hknown htarget⟩
      split
      · exact hexpanded
      · refine hexpanded.congr rfl ?_ fun t ht => ⟨t, ht, rfl, rfl⟩
        rw [map_name_modifyState]
        · exact List.Subset.refl _
        · exact fun _ => rfl

/-! ## The pass -/

/-- Whether the turn of a composite reports an error. -/
def reportsError (maxProductStates : ℕ) (ir : FsmIr) (parentName : String) : Bool :=
  match ir.findState parentName with
  | none => false
  | some parent =>
    if parent.orthogonalRegions.length < 2 then parent.kind = .parallel
    else !(expandParallelState maxProductStates ir parent).2

/-- The turn of a composite, if it reports no error. -/
def expandChecked (maxProductStates : ℕ) (acc : FsmIr × Bool) (parentName : String) :
    Option (FsmIr × Bool) :=
  if reportsError maxProductStates acc.1 parentName then none
  else some (expandNamed maxProductStates acc parentName)

def parallelStateNames (ir : FsmIr) : List String :=
  (ir.states.filter fun s => s.kind = .parallel || !s.orthogonalRegions.isEmpty).map (·.name)

/-- `OrthogonalProductPass::run`, if it reports no error. -/
def runChecked (maxProductStates : ℕ) (ir : FsmIr) : Option FsmIr :=
  ((parallelStateNames ir).foldlM (expandChecked maxProductStates) (ir, false)).map fun expanded =>
    if expanded.2 then canonicalize (normalizeHierarchy expanded.1) else expanded.1

/-- At its turn, a composite with regions is boxed. -/
def BoxedAt (acc : FsmIr × Bool) (parentName : String) : Prop :=
  ∀ parent, acc.1.findState parentName = some parent → 2 ≤ parent.orthogonalRegions.length →
    Boxed acc.1 parent

theorem expandNamed_wellFormed {acc : FsmIr × Bool} {name : String} (h : WellFormed acc.1)
    (hb : BoxedAt acc name) : WellFormed (expandNamed n acc name).1 := by
  unfold expandNamed
  split
  · exact h
  · next parent hparent =>
      split
      · exact h
      · next hregions => exact expandParallelState_wellFormed h (hb parent hparent (by omega))

theorem foldl_of_foldlM {names : List String} : ∀ {acc r : FsmIr × Bool},
    names.foldlM (expandChecked n) acc = some r → names.foldl (expandNamed n) acc = r := by
  induction names with
  | nil => exact fun h => Option.some.inj h
  | cons name names ih =>
    intro acc r h
    rw [List.foldlM_cons] at h
    obtain ⟨acc', hstep, hrest⟩ := Option.bind_eq_some_iff.mp h
    unfold expandChecked at hstep
    split at hstep
    · cases hstep
    · obtain rfl := Option.some.inj hstep
      exact ih hrest

theorem runChecked_eq {ir ir' : FsmIr} (h : runChecked n ir = some ir') : ir' = run n ir := by
  obtain ⟨r, hr, rfl⟩ := Option.map_eq_some_iff.mp h
  unfold run
  dsimp only
  rw [← foldl_of_foldlM hr]
  rfl

theorem run_wellFormed {ir : FsmIr} (h : WellFormed ir)
    (hboxed : Meets BoxedAt (expandNamed n) (parallelStateNames ir) (ir, false)) :
    WellFormed (run n ir) := by
  have hfold : WellFormed ((parallelStateNames ir).foldl (expandNamed n) (ir, false)).1 :=
    foldl_inv_of_meets (fun _ acc => WellFormed acc.1)
      (fun _ _ _ _ hacc hok => expandNamed_wellFormed hacc hok) hboxed h
  show WellFormed (if ((parallelStateNames ir).foldl (expandNamed n) (ir, false)).2 then _ else _)
  split
  · exact hfold.normalizeHierarchy.canonicalize
  · exact hfold

end Fsmc.Passes.OrthogonalProduct

namespace Fsmc.Passes

open Fsmc.Ir Fsmc.Lib

/-! ## The structural passes -/

/-- The passes that lower and simplify the structure of a machine. -/
inductive StructuralPass where
  | forkJoinLowering
  | historyLowering
  | deferredEventLowering
  | connectiveJunctionChaining
  | choiceInlining
  | orthogonalProduct (maxProductStates : ℕ)
  | transitionFusion
  | stateMinimization
  | deadStatePruning
  deriving DecidableEq, Repr

/-- What a pass makes of a machine, if it reports no error. -/
def StructuralPass.run : StructuralPass → FsmIr → Option FsmIr
  | forkJoinLowering, ir => some (ForkJoinLowering.run ir)
  | historyLowering, ir => some (HistoryLowering.run ir)
  | deferredEventLowering, ir => some (DeferredEventLowering.run ir)
  | connectiveJunctionChaining, ir =>
    if JunctionChaining.hasCycle ir then none else some (JunctionChaining.run ir)
  | choiceInlining, ir => some (ChoiceInlining.run ir).1
  | orthogonalProduct maxProductStates, ir => OrthogonalProduct.runChecked maxProductStates ir
  | transitionFusion, ir => some (TransitionFusion.run ir)
  | stateMinimization, ir => some (StateMinimization.run ir)
  | deadStatePruning, ir => some (DeadStatePruning.run ir)

/-- The pass comes to no reference that it forgets: a condition on the machine, or, for a pass that works
in turns, on the machine before each turn. -/
def StructuralPass.Intact : StructuralPass → FsmIr → Prop
  | forkJoinLowering, ir => ForkJoinLowering.AllBridged ir
  | historyLowering, ir => HistoryLowering.Replaced ir
  | deferredEventLowering, _ => True
  | connectiveJunctionChaining, ir =>
    ir.initialState ≠ "" → ir.initialState ∉ JunctionChaining.junctionNames ir
  | choiceInlining, ir =>
    Meets ChoiceInlining.Passable ChoiceInlining.inlineStep (ChoiceInlining.choiceNames ir) (ir, false)
  | orthogonalProduct maxProductStates, ir =>
    Meets OrthogonalProduct.BoxedAt (OrthogonalProduct.expandNamed maxProductStates)
      (OrthogonalProduct.parallelStateNames ir) (ir, false)
  | transitionFusion, ir => TransitionFusion.SparesInitial ir.states.length ir
  | stateMinimization, ir => ∀ partition, StateMinimization.finalPartition ir = some partition →
      StateMinimization.KeepsFirsts ir partition
  | deadStatePruning, ir => DeadStatePruning.root ir ≠ "" → DeadStatePruning.KeepsEnds ir

/-- **Well-formedness.** A structural pass that comes to no reference that it forgets and reports no error
leaves a well-formed machine well formed. -/
theorem structuralPass_wellFormed (c : ConcurrencySemantics) (pass : StructuralPass) (ir ir' : FsmIr)
    (h : isWellFormed c ir = true) (hintact : pass.Intact ir) (hrun : pass.run ir = some ir') :
    isWellFormed c ir' = true := by
  obtain ⟨hvalid, hwell⟩ := isWellFormed_iff.mp h
  refine isWellFormed_iff.mpr ⟨hvalid, ?_⟩
  cases pass with
  | forkJoinLowering => exact Option.some.inj hrun ▸ ForkJoinLowering.run_wellFormed hwell hintact
  | historyLowering => exact Option.some.inj hrun ▸ HistoryLowering.run_wellFormed hwell hintact
  | deferredEventLowering => exact Option.some.inj hrun ▸ DeferredEventLowering.run_wellFormed hwell
  | connectiveJunctionChaining =>
    have hchained : (if JunctionChaining.hasCycle ir then none else some (JunctionChaining.run ir)) =
        some ir' := hrun
    split at hchained
    · cases hchained
    · exact Option.some.inj hchained ▸ JunctionChaining.run_wellFormed hwell hintact
  | choiceInlining => exact Option.some.inj hrun ▸ ChoiceInlining.run_wellFormed hwell hintact
  | orthogonalProduct n =>
    rw [OrthogonalProduct.runChecked_eq hrun]
    exact OrthogonalProduct.run_wellFormed hwell hintact
  | transitionFusion => exact Option.some.inj hrun ▸ TransitionFusion.run_wellFormed hwell hintact
  | stateMinimization => exact Option.some.inj hrun ▸ StateMinimization.run_wellFormed hwell hintact
  | deadStatePruning => exact Option.some.inj hrun ▸ DeadStatePruning.run_wellFormed hwell hintact

/-- A player with a history node; the transitions given are added to those that stop and resume it. -/
def jukebox (extra : List TransitionEdge) : FsmIr where
  initialState := "Off"
  states := [{ name := "Off" }, { name := "Playing", kind := .composite, isComposite := true },
    { name := "Playing.H", kind := .shallowHistory, parentState := "Playing" },
    { name := "Song", parentState := "Playing" }]
  transitions := [{ source := "Playing", target := "Off", event := "stop" },
    { source := "Off", target := "Playing.H", event := "resume" }] ++ extra

theorem jukebox_wellFormed : ∃ ir', StructuralPass.historyLowering.run (jukebox []) = some ir' ∧
    isWellFormed {} ir' = true := by
  refine ⟨_, rfl,
    structuralPass_wellFormed {} .historyLowering (jukebox []) _ (by decide +kernel) ?_ rfl⟩
  show HistoryLowering.Replaced (jukebox [])
  have hcomposites : HistoryLowering.compositesWithHistory (jukebox []) = ["Playing"] := by
    decide +kernel
  constructor
  · exact Or.inr (by decide +kernel)
  · intro t ht
    exact Or.inr (by revert t; decide +kernel)
  · rw [hcomposites]
    intro t ht
    simp only [jukebox, List.append_nil, List.mem_cons, List.not_mem_nil, or_false] at ht
    rcases ht with rfl | rfl
    · exact Or.inl (Or.inr (by decide +kernel))
    · exact Or.inr ⟨"Playing", List.mem_singleton_self _, by decide +kernel⟩
  · rw [hcomposites]
    exact ⟨Or.inr (by decide +kernel), trivial⟩

/-- The default transition of the history node: the node is removed, the transition stays. -/
theorem jukebox_not_wellFormed : ¬ ∀ (c : ConcurrencySemantics) (pass : StructuralPass) (ir ir' : FsmIr),
    isWellFormed c ir = true → pass.run ir = some ir' → isWellFormed c ir' = true := by
  intro h
  let ir := jukebox [{ source := "Playing.H", target := "Song" }]
  have hkept := h {} .historyLowering ir (HistoryLowering.run ir) (by decide +kernel) rfl
  have hlost : isWellFormed {} (HistoryLowering.run ir) = false := by decide +kernel
  rw [hkept] at hlost
  cases hlost

end Fsmc.Passes
