/-
# Fsmc.Analysis.ValidatorSearches — what the searches of the validator find.

The search for reachable states marks a state together with its initial sub-state and its parent, so that it
marks what it has not looked at yet; it ends with the names that steps lead to all the same. The search for
livelocks leaves its colours behind where it finds one, and the later ones may be no livelocks, but there is
one if there is any finding.
-/
import Fsmc.Analysis.FsmValidator
import Fsmc.Passes.DeadStatePruning
import Fsmc.Passes.ZeroTimeCycles

namespace Fsmc.Analysis.FsmValidator

open Fsmc.Ir Fsmc.Lib Fsmc.Lib.UpwardWalk Fsmc.Runtime Fsmc.Passes Relation
open Fsmc.Passes.HierarchyWalks (left)

variable {ir : FsmIr}

/-! ## Reachability -/

def Step (ir : FsmIr) (a b : String) : Prop := b ∈ successors ir a ∧ b ≠ ""

theorem foldl_insert (l : List String) (m : Marks) :
    l.foldl insert m = (l.filter (· ≠ "")).foldl (Frontier.discover id "") m := by
  induction l generalizing m with
  | nil => rfl
  | cons x l ih =>
    rw [List.foldl_cons, ih]
    by_cases hx : x = "" <;> simp [insert, hx]

theorem exists_markReachable (ir : FsmIr) (m : Marks) (name : String) :
    ∃ es : List String, markReachable ir m name = es.foldl (Frontier.discover id "") m ∧
      (name ≠ "" → name ∈ m.seen ∨ name ∈ es) ∧
      ∀ e ∈ es, e ≠ "" ∧ name ≠ "" ∧ ReflTransGen (Step ir) name e := by
  unfold markReachable
  by_cases hskip : name = "" ∨ name ∈ m.seen
  · rw [if_pos hskip]
    exact ⟨[], rfl, fun hne => .inl (hskip.resolve_left hne), by simp⟩
  · rw [if_neg hskip]
    have hne : name ≠ "" := fun h => hskip (.inl h)
    cases hfind : ir.findState name with
    | none => exact ⟨[name], by simp [insert, hne], fun _ => .inr (by simp), by simp [hne, ReflTransGen.refl]⟩
    | some s =>
      refine ⟨_, foldl_insert [name, s.initialSubState, s.parentState] m, fun _ => .inr (by simp [hne]), ?_⟩
      intro e he
      obtain ⟨he, hnonempty⟩ := List.mem_filter.mp he
      have hnonempty : e ≠ "" := by simpa using hnonempty
      refine ⟨hnonempty, hne, ?_⟩
      rcases List.mem_cons.mp he with rfl | he
      · exact ReflTransGen.refl
      · have hstep : e ∈ successors ir name := by
          unfold successors
          rw [hfind]
          exact List.mem_append_left _ (List.mem_append_left _ he)
        exact ReflTransGen.single ⟨hstep, hnonempty⟩

theorem exists_foldl_markReachable (ir : FsmIr) (l : List String) (m : Marks) :
    ∃ es : List String, l.foldl (markReachable ir) m = es.foldl (Frontier.discover id "") m ∧
      (∀ x ∈ l, x ≠ "" → x ∈ m.seen ∨ x ∈ es) ∧
      ∀ e ∈ es, e ≠ "" ∧ ∃ x ∈ l, x ≠ "" ∧ ReflTransGen (Step ir) x e := by
  induction l generalizing m with
  | nil => exact ⟨[], rfl, by simp, by simp⟩
  | cons y l ih =>
    obtain ⟨es, heq, hy, hes⟩ := exists_markReachable ir m y
    obtain ⟨es', heq', hl, hes'⟩ := ih (markReachable ir m y)
    refine ⟨es ++ es', ?_, fun x hx hne => ?_, fun e he => ?_⟩
    · rw [List.foldl_cons, heq', heq, List.foldl_append]
    · rcases List.mem_cons.mp hx with rfl | hx
      · exact (hy hne).imp_right (List.mem_append_left _)
      · rcases hl x hx hne with h | h
        · rw [heq, Frontier.mem_seen_foldl_discover] at h
          refine h.imp_right fun ⟨e, he, hex⟩ => ?_
          obtain rfl : e = x := hex
          exact List.mem_append_left _ he
        · exact .inr (List.mem_append_right _ h)
    · rcases List.mem_append.mp he with he | he
      · obtain ⟨hne, hy', hwalk⟩ := hes e he
        exact ⟨hne, y, List.mem_cons_self, hy', hwalk⟩
      · obtain ⟨hne, x, hx, hx', hwalk⟩ := hes' e he
        exact ⟨hne, x, List.mem_cons_of_mem _ hx, hx', hwalk⟩

/-- What the loop keeps. -/
structure SearchInv (ir : FsmIr) (m : Marks) : Prop where
  start_seen : ir.initialState ∈ m.seen
  queue_seen : ∀ x ∈ m.queue, x ∈ m.seen
  reached : ∀ x ∈ m.seen, ReflTransGen (Step ir) ir.initialState x
  looked : ∀ x ∈ m.seen, x ∈ m.queue ∨ ∀ y, Step ir x y → y ∈ m.seen

theorem SearchInv.next {m : Marks} {current : String} {rest : List String} (h : SearchInv ir m)
    (hq : m.queue = current :: rest) :
    SearchInv ir ((successors ir current).foldl (markReachable ir) { m with queue := rest }) := by
  obtain ⟨es, heq, hall, hes⟩ := exists_foldl_markReachable ir (successors ir current) { m with queue := rest }
  have hcurrent := h.reached current (h.queue_seen current (hq ▸ List.mem_cons_self))
  rw [heq]
  refine ⟨?_, ?_, ?_, ?_⟩
  · exact Frontier.mem_seen_foldl_discover.mpr (.inl h.start_seen)
  · exact Frontier.queue_seen_foldl_discover fun x hx => h.queue_seen x (hq ▸ List.mem_cons_of_mem _ hx)
  · intro x hx
    rcases Frontier.mem_seen_foldl_discover.mp hx with hx | ⟨e, he, rfl⟩
    · exact h.reached x hx
    · obtain ⟨-, y, hy, hne, hwalk⟩ := hes e he
      exact (hcurrent.tail ⟨hy, hne⟩).trans hwalk
  · intro x hx
    by_cases hold : x ∈ m.seen
    · by_cases hx' : x = current
      · -- all its successors have just been marked
        right
        rintro y ⟨hy, hne⟩
        rw [hx'] at hy
        exact Frontier.mem_seen_foldl_discover.mpr ((hall y hy hne).imp_right fun h => ⟨y, h, rfl⟩)
      · rcases h.looked x hold with hqueued | hdone
        · have hrest : x ∈ rest := (List.mem_cons.mp (hq ▸ hqueued)).resolve_left hx'
          exact .inl (Frontier.queue_sub_foldl_discover hrest)
        · exact .inr fun y hy => Frontier.mem_seen_foldl_discover.mpr (.inl (hdone y hy))
    · exact .inl (Frontier.queued_of_new hx hold)

theorem search_spec {n : ℕ} {m g : Marks} (h : SearchInv ir m) (hg : search ir n m = some g) (x : String) :
    x ∈ g.seen ↔ ReflTransGen (Step ir) ir.initialState x := by
  induction n generalizing m with
  | zero => cases hg
  | succ n ih =>
    rcases hq : m.queue with _ | ⟨current, rest⟩
    · simp only [search, hq, Option.some.injEq] at hg
      subst hg
      refine ⟨h.reached x, fun hx => ?_⟩
      refine Closed.walk (D := {x | x ∈ m.seen}) (fun a b ha hab => ?_) h.start_seen hx
      exact (h.looked a ha).resolve_left (by rw [hq]; exact List.not_mem_nil) b hab
    · simp only [search, hq] at hg
      exact ih (h.next hq) hg

theorem successors_sub {a b : String} (h : b ∈ successors ir a) : b ∈ searchNames ir := by
  unfold successors at h
  unfold searchNames
  simp only [List.mem_append, List.mem_flatMap] at h ⊢
  rcases h with h | ⟨t, ht, h⟩
  · cases hfind : ir.findState a with
    | none => simp [hfind] at h
    | some s =>
      have hs := (FsmIr.findState_spec hfind).1
      simp only [hfind, List.mem_append, List.mem_cons, List.not_mem_nil, or_false] at h
      rcases h with (rfl | rfl) | h
      · exact .inl (.inl (.inr (List.mem_map_of_mem hs)))
      · exact .inl (.inr (List.mem_map_of_mem hs))
      · split at h
        · obtain ⟨c, hc, rfl⟩ := List.mem_map.mp h
          exact .inl (.inl (.inl (List.mem_map_of_mem (List.mem_filter.mp hc).1)))
        · cases h
  · refine .inr (List.mem_map.mpr ⟨t, ht, ?_⟩)
    rcases h with h | h
    · split at h
      · exact (List.mem_singleton.mp h).symm
      · cases h
    · split at h
      · exact (List.mem_singleton.mp h).symm
      · cases h

theorem search_isSome {n : ℕ} {m : Marks} (hn : m.work (ir.initialState :: searchNames ir) < n) :
    (search ir n m).isSome = true := by
  induction n generalizing m with
  | zero => omega
  | succ n ih =>
    rcases hq : m.queue with _ | ⟨current, rest⟩
    · simp [search, hq]
    · simp only [search, hq]
      refine ih ?_
      obtain ⟨es, heq, -, hes⟩ := exists_foldl_markReachable ir (successors ir current) { m with queue := rest }
      have hin : ∀ e ∈ es, id e ∈ ir.initialState :: searchNames ir := by
        intro e he
        obtain ⟨-, x, hx, -, hwalk⟩ := hes e he
        refine List.mem_cons_of_mem _ ?_
        cases hwalk with
        | refl => exact successors_sub hx
        | tail _ hstep => exact successors_sub hstep.1
      rw [heq]
      refine lt_of_le_of_lt (Frontier.work_foldl_discover_le hin) ?_
      simp only [Frontier.work, hq, List.length_cons] at hn ⊢
      omega

theorem mem_reachable (hinitial : ir.initialState ≠ "") {x : String} :
    x ∈ reachable ir ↔ ReflTransGen (Step ir) ir.initialState x := by
  obtain ⟨es, heq, hstart, hes⟩ := exists_markReachable ir ⟨[], [], []⟩ ir.initialState
  have hinv : SearchInv ir (markReachable ir ⟨[], [], []⟩ ir.initialState) := by
    rw [heq]
    refine ⟨?_, Frontier.queue_seen_foldl_discover (by simp), ?_, ?_⟩
    · exact Frontier.mem_seen_foldl_discover.mpr ((hstart hinitial).imp_right fun h => ⟨_, h, rfl⟩)
    · intro x hx
      obtain ⟨e, he, rfl⟩ := (Frontier.mem_seen_foldl_discover.mp hx).resolve_left List.not_mem_nil
      exact (hes e he).2.2
    · exact fun x hx => .inl (Frontier.queued_of_new hx List.not_mem_nil)
  have hin : ∀ e ∈ es, id e ∈ ir.initialState :: searchNames ir := by
    intro e he
    cases (hes e he).2.2 with
    | refl => exact List.mem_cons_self
    | tail _ hstep => exact List.mem_cons_of_mem _ (successors_sub hstep.1)
  have hwork : (markReachable ir ⟨[], [], []⟩ ir.initialState).work (ir.initialState :: searchNames ir) <
      (searchNames ir).length + 3 := by
    rw [heq]
    refine lt_of_le_of_lt (Frontier.work_foldl_discover_le hin) ?_
    have hle := missing_le_length (ir.initialState :: searchNames ir) (· ∈ ([] : List String))
    simp only [Frontier.work, List.length_nil, List.length_cons] at hle ⊢
    omega
  obtain ⟨g, hg⟩ := Option.isSome_iff_exists.mp (search_isSome hwork)
  unfold reachable
  rw [hg]
  exact search_spec hinv hg x

/-- The finding about a state that is not reached. -/
def unreachableFinding (name : String) : DiagnosticMessage :=
  ⟨.warning, "Reachability", "State unreachable from initial state: '" ++ name ++ "'."⟩

variable {s : StateNode}

theorem mem_validateReachability (hs : s ∈ ir.states) (h : s.name ∉ reachable ir) :
    unreachableFinding s.name ∈ validateReachability ir :=
  List.mem_map.mpr ⟨s, List.mem_filter.mpr ⟨hs, by simpa using h⟩, rfl⟩

theorem Step.pruning (htake : ∀ t ∈ ir.transitions, takeable t = true) {a b : String}
    (ha : DeadStatePruning.Reach ir a) (h : Step ir a b) : DeadStatePruning.Reach ir b := by
  obtain ⟨hmem, hne⟩ := h
  unfold successors at hmem
  rcases List.mem_append.mp hmem with hnode | htarget
  · cases hfind : ir.findState a with
    | none => simp [hfind] at hnode
    | some s =>
      simp only [hfind, List.mem_append, List.mem_cons, List.not_mem_nil, or_false] at hnode
      rcases hnode with (rfl | rfl) | hchild
      · exact ha.initial hfind hne
      · exact ha.parent hfind hne
      · split at hchild
        · obtain ⟨c, hc, rfl⟩ := List.mem_map.mp hchild
          obtain ⟨hc, hparent⟩ := List.mem_filter.mp hc
          exact ha.child hc (by simpa using hparent)
        · cases hchild
  · obtain ⟨t, ht, htarget⟩ := List.mem_flatMap.mp htarget
    rcases List.mem_append.mp htarget with hown | hinherited
    · split at hown
      · next hsource =>
          rw [List.mem_singleton.mp hown] at hne ⊢
          exact (hsource ▸ ha : DeadStatePruning.Reach ir t.source).target ht (htake t ht) hne
      · cases hown
    · split at hinherited
      · next hparent =>
          rw [List.mem_singleton.mp hinherited] at hne ⊢
          unfold parentOf at hparent
          obtain ⟨hsome, hnonempty⟩ := Option.filter_eq_some_iff.mp hparent
          obtain ⟨s, hfind, hsource⟩ := Option.map_eq_some_iff.mp hsome
          rw [← hsource] at hnonempty
          have habove := ha.parent hfind (by simpa using hnonempty)
          rw [hsource] at habove
          exact habove.target ht (htake t ht) hne
      · cases hinherited

/-- **Unreachable states.** The validator reports exactly the states to which no steps lead, however the queue
grows; and if no transition has the guard `false` and pruning starts from the same state, it removes none that
has not been reported. -/
theorem unreachable_findings_exact (ir : FsmIr) (hinitial : ir.initialState ≠ "") :
    (∀ d, d ∈ validateReachability ir ↔ ∃ s ∈ ir.states, ¬ ReflTransGen (Step ir) ir.initialState s.name ∧
        d = unreachableFinding s.name) ∧
      (DeadStatePruning.root ir = ir.initialState → (∀ t ∈ ir.transitions, takeable t = true) →
        ∀ s ∈ ir.states, s ∉ (DeadStatePruning.run ir).states →
          unreachableFinding s.name ∈ validateReachability ir) := by
  refine ⟨fun d => ?_, fun hroot htake s hs hremoved => ?_⟩
  · unfold validateReachability
    simp only [List.mem_map, List.mem_filter, decide_eq_true_eq, mem_reachable hinitial, and_assoc]
    exact exists_congr fun s => and_congr_right fun _ => and_congr_right fun _ => eq_comm
  · refine mem_validateReachability hs fun hmem => hremoved ?_
    refine (DeadStatePruning.mem_states_run (hroot ▸ hinitial)).mpr ⟨hs, DeadStatePruning.keepsState_of_reach ?_⟩
    have hstart : DeadStatePruning.Reach ir ir.initialState := hroot ▸ ReflTransGen.refl
    exact Closed.walk (D := {x | DeadStatePruning.Reach ir x}) (fun _ _ ha hab => Step.pruning htake ha hab) hstart
      ((mem_reachable hinitial).mp hmem)

theorem unreachable_findings_exact_door : unreachableFinding "Lost" ∈ validateReachability DeadStatePruning.door := by
  refine (unreachable_findings_exact DeadStatePruning.door (by decide)).2 (by decide) (by decide) { name := "Lost" }
    (by simp [DeadStatePruning.door]) fun hmem => ?_
  have hnames : (DeadStatePruning.run DeadStatePruning.door).states.map (·.name) =
      ["Closed", "Opened", "Ajar", "Lit", "Gone"] := by decide +kernel
  have hname := List.mem_map_of_mem (f := (·.name)) hmem
  rw [hnames] at hname
  exact absurd hname (by decide)

/-! ## Livelocks -/

/-- An eventless transition between two names. -/
def EventlessEdge (ir : FsmIr) (a b : String) : Prop :=
  ∃ t ∈ ir.transitions, isEventlessStep t = true ∧ t.source = a ∧ t.target = b

theorem succStep_eventlessAdj : SuccStep (eventlessAdj ir) = EventlessEdge ir := by
  funext a b
  apply propext
  unfold SuccStep eventlessAdj EventlessEdge
  simp only [List.mem_map, List.mem_filter, Bool.and_eq_true, decide_eq_true_eq, and_assoc]

theorem foldl_livelockStep (ir : FsmIr) (n : ℕ) (roots : List String) (acc : CycleSearch.Search String × ℕ)
    (hacc : 0 < acc.2 ↔ acc.1.2 = true) :
    (roots.foldl (livelockStep ir n) acc).1 = roots.foldl (CycleSearch.searchFrom true (eventlessAdj ir) n) acc.1 ∧
      (0 < (roots.foldl (livelockStep ir n) acc).2 ↔ (roots.foldl (livelockStep ir n) acc).1.2 = true) := by
  induction roots generalizing acc with
  | nil => exact ⟨rfl, hacc⟩
  | cons r roots ih =>
    refine ih (livelockStep ir n acc r) ?_
    unfold livelockStep CycleSearch.searchFrom
    cases acc.1.1 r with
    | white =>
      dsimp only
      by_cases hfound : (CycleSearch.visit true (eventlessAdj ir) n r (acc.1.1, false)).2 = true
      · simp [hfound]
      · simp [hfound, hacc]
    | grey => exact hacc
    | black => exact hacc

theorem livelocks_pos_iff : 0 < livelocks ir ↔
    ∃ s ∈ ir.states, ∃ x, ReflTransGen (EventlessEdge ir) s.name x ∧ TransGen (EventlessEdge ir) x x := by
  have hclosed : ∀ x ∈ ir.states.map (·.name) ++ ir.transitions.map (·.target), ∀ y,
      SuccStep (eventlessAdj ir) x y → y ∈ ir.states.map (·.name) ++ ir.transitions.map (·.target) := by
    intro x _ y hxy
    rw [succStep_eventlessAdj] at hxy
    obtain ⟨t, ht, -, -, rfl⟩ := hxy
    exact List.mem_append_right _ (List.mem_map_of_mem ht)
  obtain ⟨hsearch, hcount⟩ := foldl_livelockStep ir (ir.states.length + ir.transitions.length)
    (ir.states.map (·.name)) ((fun _ => .white, false), 0) (by simp)
  have hfinds : CycleSearch.findsCycle true (eventlessAdj ir) (ir.states.length + ir.transitions.length)
      (ir.states.map (·.name)) = true ↔ _ :=
    CycleSearch.findsCycle_iff hclosed (by simp) fun r hr => List.mem_append_left _ hr
  unfold livelocks
  rw [hcount, hsearch]
  refine hfinds.trans ?_
  unfold CycleSearch.ReachesCycle Reach
  rw [succStep_eventlessAdj]
  simp

/-- **Livelocks.** There is a finding exactly when eventless transitions lead from some state into a cycle of
eventless transitions. Where every transition leads somewhere and no event has one of the two names that only
the validator takes for none, the micro-step analysis reports a Zeno cycle too. -/
theorem livelock_findings_exact (ir : FsmIr) : (validateLivelockCycles ir ≠ [] ↔
        ∃ s ∈ ir.states, ∃ x, ReflTransGen (EventlessEdge ir) s.name x ∧ TransGen (EventlessEdge ir) x x) ∧
      ((∀ t ∈ ir.transitions, t.target ≠ "" ∧ t.event ≠ "AnonymousEvent" ∧ t.event ≠ "anonymous") →
        validateLivelockCycles ir ≠ [] → WcetAnalysis.hasZenoCycle ir = true) := by
  have hexact : validateLivelockCycles ir ≠ [] ↔
      ∃ s ∈ ir.states, ∃ x, ReflTransGen (EventlessEdge ir) s.name x ∧ TransGen (EventlessEdge ir) x x := by
    rw [← livelocks_pos_iff, validateLivelockCycles, Ne, List.replicate_eq_nil_iff]
    exact Nat.pos_iff_ne_zero.symm
  refine ⟨hexact, fun hnames hreport => ?_⟩
  obtain ⟨s, -, x, -, hcycle⟩ := hexact.mp hreport
  refine WcetAnalysis.hasZenoCycle_iff.mpr ⟨x, hcycle.lift id ?_⟩
  rintro a b ⟨t, ht, hstep, rfl, rfl⟩
  obtain ⟨htarget, h1, h2⟩ := hnames t ht
  refine ⟨t, ht, ?_, rfl, rfl, htarget⟩
  unfold isEventlessStep isEventless at hstep
  unfold WcetAnalysis.isMicrostepTransition
  simp only [Bool.and_eq_true, Bool.or_eq_true, decide_eq_true_eq, h1, h2, or_false] at hstep ⊢
  tauto

end Fsmc.Analysis.FsmValidator
