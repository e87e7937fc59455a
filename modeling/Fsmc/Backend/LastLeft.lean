/-
# Fsmc.Backend.LastLeft — what the history of a machine says about its run.

When a transition leaves a state, the machine records for every ancestor of the state, also for those that it
does not leave, which of its substates the state is in. The entries therefore lead from a composite state to the
state that was active at the last transition out of a state inside it. The state that was active when the
composite itself was last left is another one if transitions were taken inside since.
-/
import Mathlib.Algebra.Order.BigOperators.Group.List
import Mathlib.Algebra.Order.Group.Nat
import Fsmc.Backend.HistoryWalk

namespace Fsmc.Backend

open Machine Lib.Ancestry

variable {σ : Signature}

/-! ## Following a run by its calls -/

/-- The current state, and for each state the one that was active at the last transition out of a state inside
it, and the one that was active when it was last left. -/
structure Track (σ : Signature) where
  current : σ.State
  source : σ.State → Option σ.State
  left : σ.State → Option σ.State

namespace Program

variable (P : Program σ)

/-- What a call changes: a transition begins with the exit hook of the current state, goes on with those of the
ancestors that it leaves, and assigns its target. -/
def trackCall (tr : Track σ) : Call σ → Track σ
  | .exit s =>
    if s = tr.current then { tr with source := fun a => if a ∈ P.ancestors s then some s else tr.source a }
    else { tr with left := fun a => if a = s then some tr.current else tr.left a }
  | .assign s => { tr with current := s }
  | _ => tr

/-- What the calls of a machine say. -/
def track (initial : σ.State) (calls : List (Call σ)) : Track σ :=
  calls.foldl P.trackCall ⟨initial, fun _ => none, fun _ => none⟩

theorem track_append (initial : σ.State) (calls calls' : List (Call σ)) :
    P.track initial (calls ++ calls') = calls'.foldl P.trackCall (P.track initial calls) :=
  List.foldl_append

theorem foldl_trackCall_enter (states : List σ.State) (tr : Track σ) :
    (states.map Call.enter).foldl P.trackCall tr = tr := by
  induction states with
  | nil => rfl
  | cons s states ih => exact ih

theorem foldl_trackCall_exit {states : List σ.State} {tr : Track σ} (h : tr.current ∉ states) :
    (states.map Call.exit).foldl P.trackCall tr =
      { tr with left := fun a => if a ∈ states then some tr.current else tr.left a } := by
  induction states generalizing tr with
  | nil => simp
  | cons s states ih =>
    obtain ⟨hs, hstates⟩ := not_or.mp (mt List.mem_cons.mpr h)
    have hcall : P.trackCall tr (.exit s) =
        { tr with left := fun a => if a = s then some tr.current else tr.left a } :=
      if_neg fun heq => hs heq.symm
    have hrest := @ih { tr with left := fun a => if a = s then some tr.current else tr.left a } hstates
    rw [List.map_cons, List.foldl_cons, hcall, hrest]
    simp only [Track.mk.injEq, true_and]
    funext a
    by_cases ha : a ∈ states
    · simp [ha]
    · by_cases has : a = s
      · simp [has]
      · simp [ha, has]

variable {initial : σ.State} {m : Machine σ} {history : List (String × String)}

variable {target : σ.State} {parent substate : String}

theorem track_executeExternal (event : Event σ) (input : σ.InPorts)
    (index : ℕ) (action : σ.Value × σ.Value × Data σ → σ.Value × σ.Value × Data σ)
    (hcurrent : (P.track initial m.calls).current = m.state) (hresolved : P.Resolved m.state target) :
    P.track initial (P.executeExternal m event input index target action).calls =
      { current := target
        source := fun a => if a ∈ P.ancestors m.state then some m.state else (P.track initial m.calls).source a
        left := fun a => if a ∈ P.ancestors m.state ∧ a ∉ P.chain target then some m.state
          else (P.track initial m.calls).left a } := by
  rw [calls_executeExternal, exitCalls_of_separate hresolved, track_append, foldl_trackCall_enter, track_append,
    P.track_append initial m.calls, List.map_cons]
  simp only [List.foldl_cons, List.foldl_nil]
  have hexit : P.trackCall (P.track initial m.calls) (.exit m.state) =
      { P.track initial m.calls with
        source := fun a => if a ∈ P.ancestors m.state then some m.state else (P.track initial m.calls).source a } :=
    if_pos hcurrent.symm
  have hnot : (P.track initial m.calls).current ∉ (P.ancestors m.state).filter fun p => p ∉ P.chain target := by
    rw [hcurrent]
    exact fun hmem => P.notMem_ancestors m.state (List.mem_of_mem_filter hmem)
  have hleft := @foldl_trackCall_exit σ P _
    { P.track initial m.calls with
      source := fun a => if a ∈ P.ancestors m.state then some m.state else (P.track initial m.calls).source a } hnot
  rw [hexit, hleft, hcurrent]
  simp only [trackCall, List.mem_filter, decide_eq_true_eq]

/-! ## Records -/

/-- The names under which states of the table can be recorded. -/
def recordNames : List String := P.states.flatMap fun s => (P.ancestors s).map P.name

theorem length_recordNames_le : P.recordNames.length ≤ P.historyCapacity := by
  unfold recordNames historyCapacity
  rw [List.length_flatMap]
  refine le_trans (List.sum_le_sum fun s _ => ?_) (le_max_right _ _)
  rw [List.length_map]
  cases hp : P.parent s with
  | none => simp [P.ancestors_of_none hp]
  | some p => exact le_rfl

/-- A history with at most one entry for each name. -/
structure Fits (history : List (String × String)) : Prop where
  nodup : (history.map (·.1)).Nodup
  names : history.map (·.1) ⊆ P.recordNames

variable {P}

theorem getHistory_cons (entry : String × String) (history : List (String × String)) (parent : String) :
    getHistory (entry :: history) parent = if entry.1 = parent then entry.2 else getHistory history parent := by
  unfold getHistory
  rw [List.find?_cons]
  by_cases h : entry.1 = parent
  · simp [h]
  · simp [h]

theorem getHistory_modify
    (h : (history.any fun entry => entry.1 = parent) = true) (q : String) :
    getHistory (history.modify (history.findIdx fun entry => entry.1 = parent) fun entry => (entry.1, substate)) q =
      if q = parent then substate else getHistory history q := by
  induction history with
  | nil => cases h
  | cons entry history ih =>
    rw [List.findIdx_cons]
    by_cases hfirst : entry.1 = parent
    · simp only [hfirst, decide_true, cond_true, List.modify_zero_cons, getHistory_cons, eq_comm (a := parent)]
      split <;> rfl
    · have hrest : (history.any fun entry => entry.1 = parent) = true := by simpa [hfirst] using h
      simp only [hfirst, decide_false, cond_false, List.modify_succ_cons, getHistory_cons, ih hrest]
      by_cases hq : q = parent
      · have hne : entry.1 ≠ q := fun heq => hfirst (heq.trans hq)
        simp [hq, hfirst]
      · simp [hq]

theorem getHistory_append_singleton {parent : String} (h : parent ∉ history.map (·.1)) (substate q : String) :
    getHistory (history ++ [(parent, substate)]) q = if q = parent then substate else getHistory history q := by
  induction history with
  | nil =>
    rw [List.nil_append, getHistory_cons]
    exact if_congr eq_comm rfl rfl
  | cons entry history ih =>
    obtain ⟨hne, hnot⟩ := not_or.mp (mt List.mem_cons.mpr h)
    rw [List.cons_append, getHistory_cons, getHistory_cons, ih hnot]
    by_cases hq : q = parent
    · have hne' : ¬ entry.1 = parent := fun heq => hne heq.symm
      simp [hq, hne']
    · simp [hq]

theorem Fits.record (h : P.Fits history)
    (hname : parent ∈ P.recordNames) (hparent : parent ≠ "") (hsubstate : substate ≠ "") :
    P.Fits (P.recordHistory history parent substate) ∧ ∀ q,
      getHistory (P.recordHistory history parent substate) q =
        if q = parent then substate else getHistory history q := by
  unfold recordHistory
  rw [if_neg (by simp [hparent, hsubstate])]
  split
  · rename_i hany
    refine ⟨⟨?_, ?_⟩, getHistory_modify hany⟩
    · rw [map_fst_modify]
      exact h.nodup
    · rw [map_fst_modify]
      exact h.names
  · rename_i hnew
    have hfresh : parent ∉ history.map (·.1) := by simpa using hnew
    have hnodup : (parent :: history.map (·.1)).Nodup := List.nodup_cons.mpr ⟨hfresh, h.nodup⟩
    have hroom : history.length < P.historyCapacity := by
      have hle := (hnodup.subperm (List.cons_subset.mpr ⟨hname, h.names⟩)).length_le
      rw [List.length_cons, List.length_map] at hle
      exact lt_of_lt_of_le hle P.length_recordNames_le
    rw [if_pos hroom]
    refine ⟨⟨?_, ?_⟩, getHistory_append_singleton hfresh substate⟩
    · rw [List.map_append, List.map_singleton, List.nodup_append_comm]
      exact hnodup
    · rw [List.map_append, List.map_singleton, List.append_subset]
      exact ⟨h.names, by simpa using hname⟩

variable (P) in
/-- The machine can record where it is: states have names that differ and are not empty, names tell what is in
what, and the states that it can be in, the leaves, have none inside them. -/
structure Recordable (Leaf : σ.State → Prop) : Prop where
  injective : Function.Injective P.name
  leaf_named : ∀ {s}, Leaf s → P.name s ≠ ""
  named : ∀ {s p}, P.parent s = some p → P.name p ≠ ""
  root : ∀ {s}, P.parent s = none → P.parentText s = none
  resolved : ∀ s t, P.Resolved s t
  leaf : ∀ {s p}, P.parent s = some p → ¬ Leaf p
  targets : ∀ row ∈ P.rows, ∀ target action, row.effect = .external target action → Leaf target

variable {Leaf : σ.State → Prop}

theorem Fits.recordChain (hP : P.Recordable Leaf) (s : σ.State)
    (h : P.Fits history) (hs : P.name s ≠ "") (hnames : ∀ p ∈ P.ancestors s, P.name p ∈ P.recordNames) :
    let recorded := (P.historyOf (P.chain s)).foldl (fun h e => P.recordHistory h e.1 e.2) history
    P.Fits recorded ∧
      (∀ a ∉ P.ancestors s, getHistory recorded (P.name a) = getHistory history (P.name a)) ∧
      ∀ x ∈ P.chain s, ∀ p, P.parent x = some p → getHistory recorded (P.name p) = P.name x := by
  induction s using P.hierarchy_induction generalizing history with
  | root s hp =>
    have hnone : P.historyOf (P.chain s) = [] := by
      rw [P.chain_of_none hp, historyOf, hP.root hp]
    rw [hnone]
    refine ⟨h, fun _ _ => rfl, fun x hx p hparent => ?_⟩
    rw [P.chain_of_none hp, List.mem_singleton] at hx
    rw [hx, hp] at hparent
    cases hparent
  | child s p hp ih =>
    have hcons : P.historyOf (P.chain s) = (P.name p, P.name s) :: P.historyOf (P.chain p) := by
      rw [P.chain_of_some hp, P.chain_eq_cons p]
      rfl
    rw [P.ancestors_of_some hp] at hnames ⊢
    obtain ⟨hfits, hrecord⟩ := h.record (hnames p (P.self_mem_chain p)) (hP.named hp) hs
    obtain ⟨hfits', hother, hchain⟩ := ih hfits (hP.named hp) fun q hq =>
      hnames q (P.chain_eq_cons p ▸ List.mem_cons_of_mem _ hq)
    rw [hcons, List.foldl_cons]
    refine ⟨hfits', fun a ha => ?_, fun x hx q hparent => ?_⟩
    · rw [P.chain_eq_cons p, List.mem_cons, not_or] at ha
      rw [hother a ha.2, hrecord, if_neg fun heq => ha.1 (hP.injective heq)]
    · rw [P.chain_of_some hp, List.mem_cons] at hx
      rcases hx with rfl | hx
      · cases hp.symm.trans hparent
        rw [hother p (P.notMem_ancestors p), hrecord, if_pos rfl]
      · exact hchain x hx q hparent

/-! ## The invariant -/

variable (P Leaf) in
/-- The entries of the history lead from every state to the one that was active at the last transition out of a
state inside it. -/
structure Followed (initial : σ.State) (m : Machine σ) : Prop where
  current : (P.track initial m.calls).current = m.state
  state : m.state ∈ P.states
  leaf : Leaf m.state
  fits : P.Fits m.history
  outside : ∀ a ∉ P.ancestors m.state, (P.track initial m.calls).source a = (P.track initial m.calls).left a
  never : ∀ a, (P.track initial m.calls).source a = none → getHistory m.history (P.name a) = ""
  source : ∀ a s, (P.track initial m.calls).source a = some s → a ∈ P.ancestors s ∧ Leaf s ∧
    ∀ x ∈ P.chain s, ∀ p, P.parent x = some p → a ∈ P.chain p → getHistory m.history (P.name p) = P.name x

theorem mem_firstOccurrences {α : Type} [DecidableEq α] {a : α} (l : List α) :
    ∀ {seen : List α}, a ∈ l ∨ a ∈ seen → a ∈ firstOccurrences l seen := by
  induction l with
  | nil =>
    intro seen h
    exact h.resolve_left List.not_mem_nil
  | cons b l ih =>
    intro seen h
    apply ih
    rcases h with h | h
    · rcases List.mem_cons.mp h with rfl | h
      · right
        split
        · assumption
        · exact List.mem_append_right _ (List.mem_singleton_self a)
      · exact Or.inl h
    · right
      split
      · exact h
      · exact List.mem_append_left _ h

theorem target_mem_states {row : Row σ} (h : row ∈ P.rows) : row.target ∈ P.states :=
  mem_firstOccurrences _ (Or.inl (List.mem_append_right _ (List.mem_map_of_mem h)))

theorem chain_subset_ancestors {s a : σ.State} (h : a ∈ P.ancestors s) : P.chain a ⊆ P.ancestors s := by
  cases hp : P.parent s with
  | none =>
    rw [P.ancestors_of_none hp] at h
    exact absurd h List.not_mem_nil
  | some p =>
    rw [P.ancestors_of_some hp] at h ⊢
    exact P.chain_subset h

theorem Followed.recordLeaving (hP : P.Recordable Leaf) (h : P.Followed Leaf initial m) :
    P.Fits (P.recordLeaving m).history ∧
      (∀ a ∉ P.ancestors m.state, getHistory (P.recordLeaving m).history (P.name a) =
        getHistory m.history (P.name a)) ∧
      ∀ x ∈ P.chain m.state, ∀ p, P.parent x = some p →
        getHistory (P.recordLeaving m).history (P.name p) = P.name x := by
  unfold Program.recordLeaving
  split
  · refine h.fits.recordChain hP m.state (hP.leaf_named h.leaf) fun p hp => ?_
    exact List.mem_flatMap.mpr ⟨m.state, h.state, List.mem_map_of_mem hp⟩
  · rename_i hno
    refine ⟨h.fits, fun _ _ => rfl, fun x hx p hparent => ?_⟩
    -- without records, the state would have no parent
    have hroot : P.parent m.state = none := by
      by_contra hsome
      refine hno (List.any_eq_true.mpr ⟨m.state, h.state, ?_⟩)
      rw [Option.isSome_iff_ne_none.mpr hsome, Bool.true_or]
    rw [P.chain_of_none hroot, List.mem_singleton] at hx
    rw [hx, hroot] at hparent
    cases hparent

theorem Followed.executeExternal (hP : P.Recordable Leaf)
    (h : P.Followed Leaf initial m) (event : Event σ) (input : σ.InPorts) (index : ℕ)
    (action : σ.Value × σ.Value × Data σ → σ.Value × σ.Value × Data σ) (htarget : target ∈ P.states)
    (hleaf : Leaf target) : P.Followed Leaf initial (P.executeExternal m event input index target action) := by
  obtain ⟨hfits, hother, hchain⟩ := h.recordLeaving hP
  have htrack := track_executeExternal P event input index action h.current (hP.resolved m.state target)
  have hstate := P.state_executeExternal m event input index target action
  have hhistory := P.history_executeExternal m event input index target action
  refine ⟨?_, ?_, ?_, ?_, ?_, ?_, ?_⟩
  · rw [htrack, hstate]
  · rw [hstate]
    exact htarget
  · rw [hstate]
    exact hleaf
  · rw [hhistory]
    exact hfits
  · intro a ha
    rw [hstate] at ha
    rw [htrack]
    dsimp only
    by_cases hmem : a ∈ P.ancestors m.state
    -- what has a state inside it is no leaf, so that it is left unless the target is inside it too
    · obtain ⟨c, -, hc⟩ := P.exists_child hmem
      have hne : a ≠ target := by
        rintro rfl
        exact hP.leaf hc hleaf
      have hchain : a ∉ P.chain target := by
        rw [P.chain_eq_cons, List.mem_cons, not_or]
        exact ⟨hne, ha⟩
      rw [if_pos hmem, if_pos ⟨hmem, hchain⟩]
    · rw [if_neg hmem, if_neg fun hboth => hmem hboth.1]
      exact h.outside a hmem
  · intro a ha
    rw [htrack] at ha
    rw [hhistory]
    dsimp only at ha
    split at ha
    · cases ha
    · rename_i hnot
      rw [hother a hnot]
      exact h.never a ha
  · intro a s ha
    rw [htrack] at ha
    rw [hhistory]
    dsimp only at ha
    split at ha
    · rename_i hmem
      cases ha
      exact ⟨hmem, h.leaf, fun x hx p hparent _ => hchain x hx p hparent⟩
    · rename_i hnot
      obtain ⟨hmem, hs, hentries⟩ := h.source a s ha
      refine ⟨hmem, hs, fun x hx p hparent hap => ?_⟩
      -- what is in `a` is not around the state that is left
      have hp : p ∉ P.ancestors m.state := fun hp => hnot (chain_subset_ancestors hp hap)
      rw [hother p hp]
      exact hentries x hx p hparent hap

theorem Followed.congr {m m' : Machine σ} (h : P.Followed Leaf initial m)
    (htrack : P.track initial m'.calls = P.track initial m.calls) (hstate : m'.state = m.state)
    (hhistory : m'.history = m.history) : P.Followed Leaf initial m' := by
  obtain ⟨hcurrent, hmem, hleaf, hfits, houtside, hnever, hsource⟩ := h
  rw [← hstate] at hcurrent hmem hleaf houtside
  rw [← hhistory] at hfits hnever hsource
  rw [← htrack] at hcurrent houtside hnever hsource
  exact ⟨hcurrent, hmem, hleaf, hfits, houtside, hnever, hsource⟩

theorem Followed.called (h : P.Followed Leaf initial m) (call : Call σ)
    (hook : Hook σ) (hcall : ∀ tr, P.trackCall tr call = tr) :
    P.Followed Leaf initial (m.performCurrent call hook) := by
  refine h.congr ?_ rfl rfl
  rw [calls_performCurrent, track_append, List.foldl_cons, List.foldl_nil, hcall]

theorem Followed.stable (hP : P.Recordable Leaf) (initial : σ.State) : P.Stable (P.Followed Leaf initial) where
  direct m event input h := by
    rcases P.dispatchDirect_eq m event input with ⟨row, hrow, heq⟩ | ⟨-, heq, -⟩
    · rw [heq]
      have hmem : row.1 ∈ P.rows := List.fst_mem_of_mem_zipIdx (List.mem_of_find?_eq_some hrow)
      have htarget := P.target_mem_states hmem
      dsimp only
      unfold execute
      cases heffect : row.1.effect with
      | external target action =>
        have hrow_target : row.1.target = target := by rw [Row.target, heffect]
        exact h.executeExternal hP event input row.2 _ (hrow_target ▸ htarget)
          (hP.targets row.1 hmem target action heffect)
      | internal action => exact h.called (.action row.2) _ fun _ => rfl
    · rw [heq]
      exact h
  activity m input h := h.called (.activity m.state) _ fun _ => rfl
  ports _ _ h := h.congr rfl rfl rfl
  deferred _ _ h := h.congr rfl rfl rfl
  residence _ _ h := h.congr rfl rfl rfl
  violation _ _ h := h.congr rfl rfl rfl
  advance _ _ h := h.congr rfl rfl rfl

theorem calls_construct (initial : σ.State) (value : σ.Value) (reg : σ.Registers) (srv : σ.Services) :
    (P.construct initial value reg srv).calls = (P.initialEnterCalls initial ++ [initial]).map .enter := by
  unfold construct enterInitialState
  show (performCurrent _ _ _).calls = _
  rw [calls_performCurrent, calls_performAll, List.map_append]
  rfl

/-- In every run, the history leads to the state that was active at the last transition out. -/
theorem followed_run (hP : P.Recordable Leaf) (value : σ.Value) (reg : σ.Registers)
    (srv : σ.Services) (hstate : initial ∈ P.states) (hleaf : Leaf initial) (ops : List (MachineOp σ)) :
    P.Followed Leaf initial (ops.foldl P.operate (P.construct initial value reg srv)) := by
  refine (Followed.stable hP initial).run ?_ ops
  have htrack : P.track initial (P.construct initial value reg srv).calls =
      ⟨initial, fun _ => none, fun _ => none⟩ := by
    rw [calls_construct]
    exact foldl_trackCall_enter P _ _
  have hhistory : (P.construct initial value reg srv).history = [] := history_construct _ _ _ _
  refine ⟨?_, ?_, ?_, ?_, ?_, ?_, ?_⟩
  · rw [htrack, state_construct]
  · rw [state_construct]
    exact hstate
  · rw [state_construct]
    exact hleaf
  · rw [hhistory]
    exact ⟨List.nodup_nil, List.nil_subset _⟩
  · intro _ _
    rw [htrack]
  · intro _ _
    rw [hhistory]
    rfl
  · intro a s ha
    rw [htrack] at ha
    cases ha

end Program

/-! ## Looking a state up -/

/-- From a name, the entries lead through others to an end. -/
def Leads (history : List (String × String)) : String → List String → Prop
  | start, [] => getHistory history start = ""
  | start, next :: rest => getHistory history start = next ∧ next ≠ "" ∧ Leads history next rest

variable {path : List String}

theorem Leads.historyLoop_eq {history : List (String × String)} (sub : String) :
    ∀ {start : String} {n : ℕ}, Leads history start path → path.length < n →
      historyLoop history sub n (getHistory history start) = some (decide (sub ∈ path)) := by
  induction path with
  | nil =>
    intro start n h hn
    obtain ⟨n, rfl⟩ : ∃ k, n = k + 1 := ⟨n - 1, by simp at hn; omega⟩
    have hempty : getHistory history start = "" := h
    rw [historyLoop, if_pos hempty]
    rfl
  | cons next rest ih =>
    intro start n h hn
    obtain ⟨n, rfl⟩ : ∃ k, n = k + 1 := ⟨n - 1, by simp at hn; omega⟩
    obtain ⟨hnext, hne, hrest⟩ := h
    rw [historyLoop, hnext, if_neg hne]
    split
    · rename_i hsub
      simp [hsub]
    · rename_i hsub
      rw [ih hrest (by simpa using hn)]
      simp [Ne.symm (Ne.intro hsub)]

theorem Leads.length_le {history : List (String × String)} {start : String}
    (h : Leads history start path) (hnodup : (start :: path).Nodup) : path.length ≤ history.length := by
  have hkeys : ∀ {path : List String} {start : String}, Leads history start path →
      (start :: path).dropLast ⊆ history.map (·.1) := by
    intro path
    induction path with
    | nil => exact fun _ => List.nil_subset _
    | cons next rest ih =>
      intro start h
      rw [List.dropLast_cons_cons, List.cons_subset]
      have hmem := @mem_of_getHistory history start (by rw [h.1]; exact h.2.1)
      exact ⟨List.mem_map_of_mem hmem, ih h.2.2⟩
  have hle := ((hnodup.sublist (List.dropLast_sublist _)).subperm (hkeys h)).length_le
  rw [List.length_dropLast, List.length_cons, List.length_map] at hle
  omega

namespace Program

variable (P : Program σ)

/-- A state and those around it that are inside another. -/
def inside (a s : σ.State) : List σ.State := (P.chain s).takeWhile (· ≠ a)

variable {P} {Leaf : σ.State → Prop}

variable {a s : σ.State}

theorem depth_lt_of_mem_ancestors (h : a ∈ P.ancestors s) : P.depth a < P.depth s := by
  cases hp : P.parent s with
  | none =>
    rw [P.ancestors_of_none hp] at h
    exact absurd h List.not_mem_nil
  | some p =>
    rw [P.ancestors_of_some hp] at h
    exact lt_of_le_of_lt (P.depth_le_of_mem_chain h) (P.depth_lt hp)

theorem inside_append_chain (h : a ∈ P.chain s) : P.inside a s ++ P.chain a = P.chain s := by
  obtain ⟨l, q, hsplit, hq⟩ := (P.isChain_chain s).of_mem h
  obtain rfl := hq.unique (P.isChain_chain a)
  have hnodup := P.chain_nodup s
  rw [hsplit, List.nodup_append] at hnodup
  have hbelow : ∀ x ∈ l, decide (x ≠ a) = true := fun x hx =>
    decide_eq_true (hnodup.2.2 x hx a (P.self_mem_chain a))
  unfold inside
  rw [hsplit, List.takeWhile_append_of_pos hbelow, P.chain_eq_cons a]
  simp

theorem mem_inside {a s x : σ.State} (h : a ∈ P.chain s) : x ∈ P.inside a s ↔ x ∈ P.chain s ∧ a ∈ P.ancestors x := by
  have hsplit := P.inside_append_chain h
  constructor
  · intro hx
    have hmem : x ∈ P.chain s := hsplit ▸ List.mem_append_left _ hx
    refine ⟨hmem, ?_⟩
    obtain ⟨l, r, hl⟩ := List.append_of_mem hx
    have hchain : IsChain P.parent s (l ++ x :: (r ++ P.chain a)) := by
      have hall := P.isChain_chain s
      rw [← hsplit, hl, List.append_assoc] at hall
      exact hall
    have hrest := hchain.of_split.unique (P.isChain_chain x)
    rw [P.chain_eq_cons x] at hrest
    rw [← (List.cons.inj hrest).2]
    exact List.mem_append_right _ (P.self_mem_chain a)
  · rintro ⟨hx, ha⟩
    rw [← hsplit] at hx
    refine (List.mem_append.mp hx).resolve_right fun hbelow => ?_
    have hle := P.depth_le_of_mem_chain hbelow
    have hlt := P.depth_lt_of_mem_ancestors ha
    omega

theorem child_unique {s x y p : σ.State} (hx : x ∈ P.chain s) (hy : y ∈ P.chain s) (hxp : P.parent x = some p)
    (hyp : P.parent y = some p) : x = y := by
  obtain ⟨l, q, hsplit, hq⟩ := (P.isChain_chain s).of_mem hx
  obtain ⟨l', q', hsplit', hq'⟩ := (P.isChain_chain s).of_mem hy
  obtain rfl := hq.unique (P.isChain_chain x)
  obtain rfl := hq'.unique (P.isChain_chain y)
  have hlength : (P.chain x).length = (P.chain y).length := by
    rw [P.chain_of_some hxp, P.chain_of_some hyp, List.length_cons, List.length_cons]
  have hsame := (List.append_inj' (hsplit.symm.trans hsplit') hlength).2
  rw [P.chain_eq_cons, P.chain_eq_cons y] at hsame
  exact (List.cons.inj hsame).1

theorem Recordable.name_ne (hP : P.Recordable Leaf) {s x : σ.State} (hs : Leaf s) (hx : x ∈ P.chain s) :
    P.name x ≠ "" := by
  rw [P.chain_eq_cons, List.mem_cons] at hx
  rcases hx with rfl | hx
  · exact hP.leaf_named hs
  · obtain ⟨y, -, hy⟩ := P.exists_child hx
    exact hP.named hy

theorem Followed.leads (hP : P.Recordable Leaf) {initial : σ.State} {m : Machine σ}
    (h : P.Followed Leaf initial m) (hsource : (P.track initial m.calls).source a = some s)
    (l : List σ.State) : ∀ {y : σ.State} {r : List σ.State}, P.chain s = l ++ y :: r → a ∈ P.chain y →
      Leads m.history (P.name y) (l.reverse.map P.name) := by
  obtain ⟨hmem, hs, hentries⟩ := h.source a s hsource
  induction l using List.reverseRecOn with
  | nil =>
    intro y r hsplit _
    rw [P.chain_eq_cons, List.nil_append] at hsplit
    obtain ⟨rfl, -⟩ := List.cons.inj hsplit
    -- a leaf has no state inside it that could have been left
    refine h.never s (Option.eq_none_iff_forall_ne_some.mpr fun s' hs' => ?_)
    obtain ⟨y, -, hy⟩ := P.exists_child (h.source s s' hs').1
    exact hP.leaf hy hs
  | append_singleton l x ih =>
    intro y r hsplit hy
    rw [List.append_assoc, List.singleton_append] at hsplit
    have hparent : P.parent x = some y := (hsplit ▸ P.isChain_chain s).parent_of_split
    have hx : x ∈ P.chain s := hsplit ▸ List.mem_append_right _ List.mem_cons_self
    rw [List.reverse_append, List.reverse_singleton, List.singleton_append, List.map_cons]
    refine ⟨hentries x hx y hparent hy, hP.name_ne hs hx, ih hsplit ?_⟩
    rw [P.chain_of_some hparent]
    exact List.mem_cons_of_mem _ hy

/-- `history_is` looks for the state that was active at the last transition out, or one around it. -/
theorem Followed.historyLoop_eq (hP : P.Recordable Leaf) {initial : σ.State} {m : Machine σ}
    (h : P.Followed Leaf initial m) (a : σ.State) (sub : String) :
    historyLoop m.history sub (m.history.length + 1) (getHistory m.history (P.name a)) =
      some (decide (∃ s, (P.track initial m.calls).source a = some s ∧ sub ∈ (P.inside a s).map P.name)) := by
  cases hsource : (P.track initial m.calls).source a with
  | none =>
    rw [historyLoop, if_pos (h.never a hsource)]
    simp
  | some s =>
    have hmem : a ∈ P.chain s := P.chain_eq_cons s ▸ List.mem_cons_of_mem _ (h.source a s hsource).1
    have hsplit : P.chain s = P.inside a s ++ a :: P.ancestors a := by
      rw [← P.chain_eq_cons, P.inside_append_chain hmem]
    have hleads := h.leads hP hsource (P.inside a s) hsplit (P.self_mem_chain a)
    have hnodup : (P.name a :: (P.inside a s).reverse.map P.name).Nodup := by
      rw [← List.map_cons, List.nodup_map_iff hP.injective]
      refine List.nodup_cons.mpr ⟨fun hin => ?_, List.nodup_reverse.mpr ?_⟩
      · exact P.notMem_ancestors a ((P.mem_inside hmem).mp (List.mem_reverse.mp hin)).2
      · exact (P.chain_nodup s).sublist (List.takeWhile_sublist _)
    rw [hleads.historyLoop_eq sub (Nat.lt_succ_of_le (hleads.length_le hnodup))]
    simp

end Program

end Fsmc.Backend
