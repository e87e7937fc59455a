/-
# Fsmc.Backend.TimerArming — which timers run in a state.

When a state is entered, every row with a timed event whose source is the state or an ancestor starts a timer
of its own. The number of slots is derived from the number of timed event types, so rows that share one can
be more than there are slots; a timer that finds no slot is not started.
-/
import Mathlib.Data.List.Perm.Subperm
import Fsmc.Backend.Machine

namespace Fsmc.Backend

open TimerManager

variable {σ : Signature}

namespace Program

variable (P : Program σ)

/-! ## Arming -/

def hasTimerIn (s : σ.State) (row : Row σ × ℕ) : Bool :=
  (P.timing row.1.event).isSome && P.isSubstateOf s row.1.source

/-- The rows that have a timer in a state, with their indices. -/
def timedRows (s : σ.State) : List (Row σ × ℕ) := P.rows.zipIdx.filter (P.hasTimerIn s)

variable {row : Row σ × ℕ} (s : σ.State)

theorem armTimerForRow_of_not {s : σ.State} (h : P.hasTimerIn s row = false)
    (timers : TimerManager) : P.armTimerForRow s timers row = timers := by
  unfold hasTimerIn at h
  unfold armTimerForRow
  cases htiming : P.timing row.1.event with
  | none => rfl
  | some timing =>
    rw [htiming] at h
    have hsub : P.isSubstateOf s row.1.source = false := by simpa using h
    simp [hsub]

theorem length_armTimerForRow (timers : TimerManager) (row : Row σ × ℕ) :
    (P.armTimerForRow s timers row).entries.length = timers.entries.length := by
  unfold armTimerForRow
  cases P.timing row.1.event with
  | none => rfl
  | some timing =>
    dsimp only
    split
    · exact length_startTimer _ _ _ _
    · rfl

theorem length_refreshTimers (timers : TimerManager) :
    (P.refreshTimers s timers).entries.length = timers.entries.length := by
  have hfold : ∀ (rows : List (Row σ × ℕ)) (timers : TimerManager),
      (rows.foldl (P.armTimerForRow s) timers).entries.length = timers.entries.length := by
    intro rows
    induction rows with
    | nil => exact fun _ => rfl
    | cons row rows ih =>
      intro timers
      rw [List.foldl_cons, ih, length_armTimerForRow]
  unfold refreshTimers
  rw [hfold, length_reset]

theorem armTimerForRow_spec {s : σ.State} (h : P.hasTimerIn s row = true)
    {timers : TimerManager} (hnew : row.2 + 1 ∉ timers.activeIds)
    (hfree : timers.activeCount < timers.entries.length) :
    (∀ timerId, timerId ∈ (P.armTimerForRow s timers row).activeIds ↔
        timerId = row.2 + 1 ∨ timerId ∈ timers.activeIds) ∧
      (P.armTimerForRow s timers row).activeCount = timers.activeCount + 1 := by
  unfold hasTimerIn at h
  rw [Bool.and_eq_true, Option.isSome_iff_exists] at h
  obtain ⟨⟨⟨duration, periodic⟩, htiming⟩, hsub⟩ := h
  have hnone : timers.entries.any (holds (row.2 + 1)) = false := by
    rw [← Bool.not_eq_true]
    exact fun hactive => hnew (isTimerActive_iff.mp hactive)
  have hany := (any_free_iff timers).mpr hfree
  have hstart : P.armTimerForRow s timers row =
      { timers with
        entries := replaceFirst (fun entry => !entry.active)
          (fun _ => ⟨row.2 + 1, duration, 0, periodic, true⟩) timers.entries } := by
    unfold armTimerForRow startTimer
    rw [htiming]
    simp only [hsub, if_true, hnone, Bool.false_eq_true, if_false, hany]
  rw [hstart]
  exact ⟨fun timerId => mem_activeIds_replaceFirst rfl timerId timers.entries hany,
    activeCount_replaceFirst rfl timers.entries hany⟩

/-- As long as there are slots, every row starts its timer, and none is lost. -/
theorem foldl_armTimerForRow_spec {s : σ.State} : ∀ (rows : List (Row σ × ℕ)) (timers : TimerManager),
    (rows.map (·.2)).Nodup → (∀ row ∈ rows, row.2 + 1 ∉ timers.activeIds) →
      timers.activeCount + (rows.filter (P.hasTimerIn s)).length ≤ timers.entries.length →
        ∀ timerId, (timerId ∈ timers.activeIds ∨ ∃ row ∈ rows.filter (P.hasTimerIn s), timerId = row.2 + 1) →
          timerId ∈ (rows.foldl (P.armTimerForRow s) timers).activeIds
  | [], timers, _, _, _, timerId, h => by
    rcases h with h | ⟨row, hrow, -⟩
    · exact h
    · exact absurd hrow List.not_mem_nil
  | row :: rows, timers, hnodup, hnew, hle, timerId, h => by
    rw [List.map_cons, List.nodup_cons] at hnodup
    rw [List.foldl_cons]
    cases hrow : P.hasTimerIn s row with
    | false =>
      rw [List.filter_cons_of_neg (by rw [hrow]; exact Bool.false_ne_true)] at hle h
      rw [P.armTimerForRow_of_not hrow]
      exact foldl_armTimerForRow_spec rows timers hnodup.2
        (fun r hr => hnew r (List.mem_cons_of_mem _ hr)) hle timerId h
    | true =>
      rw [List.filter_cons_of_pos hrow] at hle h
      rw [List.length_cons] at hle
      obtain ⟨hids, hcount⟩ := P.armTimerForRow_spec hrow (hnew row List.mem_cons_self) (by omega)
      have hlength := P.length_armTimerForRow s timers row
      refine foldl_armTimerForRow_spec rows _ hnodup.2 (fun r hr hactive => ?_) (by omega) timerId ?_
      · rcases (hids _).mp hactive with heq | hactive
        · have hsame : r.2 = row.2 := Nat.succ.inj heq
          exact hnodup.1 (hsame ▸ List.mem_map_of_mem hr)
        · exact hnew r (List.mem_cons_of_mem _ hr) hactive
      · rcases h with h | ⟨r, hr, heq⟩
        · exact Or.inl ((hids _).mpr (Or.inr h))
        · rcases List.mem_cons.mp hr with rfl | hr
          · exact Or.inl ((hids _).mpr (Or.inl heq))
          · exact Or.inr ⟨r, hr, heq⟩

theorem zipIdx_map_snd_nodup {α : Type} (l : List α) : (l.zipIdx.map (·.2)).Nodup := by
  have hrange : l.zipIdx.map (·.2) = List.range' 0 l.length := List.zipIdx_map_snd 0 l
  rw [hrange]
  exact List.nodup_range'

theorem refreshTimers_arms_iff (timers : TimerManager) :
    (∀ row ∈ P.timedRows s, (P.refreshTimers s timers).isTimerActive (row.2 + 1) = true) ↔
      (P.timedRows s).length ≤ timers.entries.length := by
  have hsub : ((P.timedRows s).map (·.2)).Sublist (P.rows.zipIdx.map (·.2)) := List.filter_sublist.map _
  constructor
  · intro h
    have hnodup : ((P.timedRows s).map fun row => row.2 + 1).Nodup := by
      have hids : ((P.timedRows s).map (·.2)).Nodup := hsub.nodup (zipIdx_map_snd_nodup P.rows)
      have hmap : (P.timedRows s).map (fun row => row.2 + 1) = ((P.timedRows s).map (·.2)).map (· + 1) := by
        rw [List.map_map]
        rfl
      rw [hmap]
      exact hids.map fun _ _ heq => Nat.succ.inj heq
    have hactive : (P.timedRows s).map (fun row => row.2 + 1) ⊆ (P.refreshTimers s timers).activeIds := by
      intro timerId hid
      obtain ⟨row, hrow, rfl⟩ := List.mem_map.mp hid
      exact isTimerActive_iff.mp (h row hrow)
    have hle := (List.subperm_of_subset hnodup hactive).length_le
    rw [List.length_map] at hle
    refine hle.trans ?_
    unfold activeIds
    rw [List.length_map, ← P.length_refreshTimers s timers]
    exact List.length_filter_le _ _
  · intro h row hrow
    rw [isTimerActive_iff]
    refine P.foldl_armTimerForRow_spec P.rows.zipIdx timers.reset (zipIdx_map_snd_nodup P.rows) ?_ ?_ _
      (Or.inr ⟨row, hrow, rfl⟩)
    · intro r _
      rw [activeIds_reset]
      exact List.not_mem_nil
    · have hnone : timers.reset.activeCount = 0 := by
        have hlength : timers.reset.activeCount = timers.reset.activeIds.length := by
          unfold activeCount activeIds
          rw [List.length_map, List.countP_eq_length_filter]
        rw [hlength, activeIds_reset]
        rfl
      rw [hnone, length_reset, Nat.zero_add]
      exact h

/-! ## The default number of slots -/

/-- After entering any state with the default number of slots, at the start or by a transition, every timed
row of the state has a timer. -/
def EveryTimerArmed : Prop :=
  ∀ m : Machine σ, m.timers.entries.length = P.defaultTimerCapacity →
    (∀ (s : σ.State) (value : σ.Value), s ∈ P.states → ∀ row ∈ P.timedRows s,
      (P.setCurrentState m s value).timers.isTimerActive (row.2 + 1) = true) ∧
    (m.state ∈ P.states → ∀ row ∈ P.timedRows m.state,
      (P.enterInitialState m).timers.isTimerActive (row.2 + 1) = true)

theorem timers_enterInitialState (m : Machine σ) :
    (P.enterInitialState m).timers = P.refreshTimers m.state m.timers := by
  unfold enterInitialState
  have htimers := P.performAll_frame (fun m : Machine σ => m.timers) (fun _ _ _ _ => rfl) .enter
    (fun s => P.onEnter s (.ofType P.anonymous) default) (P.initialEnterCalls m.state) (withoutPorts m)
  exact congrArg (P.refreshTimers m.state) htimers

/-- Every timer is armed if and only if no state has more timed rows than there are slots. -/
theorem everyTimerArmed_iff :
    P.EveryTimerArmed ↔ ∀ s ∈ P.states, (P.timedRows s).length ≤ P.defaultTimerCapacity := by
  constructor
  · intro h s hs
    obtain ⟨srv⟩ := σ.services
    let m : Machine σ :=
      { state := s
        value := P.fresh s
        reg := default
        out := default
        srv := srv
        timers := .ofCapacity P.defaultTimerCapacity }
    have hlength : m.timers.entries.length = P.defaultTimerCapacity := List.length_replicate
    have harmed := (P.refreshTimers_arms_iff s m.timers).mp ((h m hlength).1 s (P.fresh s) hs)
    rw [hlength] at harmed
    exact harmed
  · intro h m hlength
    have harmed : ∀ s ∈ P.states, ∀ row ∈ P.timedRows s,
        (P.refreshTimers s m.timers).isTimerActive (row.2 + 1) = true := by
      intro s hs
      rw [P.refreshTimers_arms_iff s m.timers, hlength]
      exact h s hs
    refine ⟨fun s _ hs => harmed s hs, fun hs => ?_⟩
    rw [timers_enterInitialState]
    exact harmed m.state hs

end Program

/-! ## More rows than timed events -/

/-- Five rows on `after_ms<10>`, each for one value of the register. -/
def shared : Program Signature.small :=
  { Program.plainTimed with
    rows := (List.range 5).map fun i =>
      ⟨0, 1, fun _ _ _ _ reg _ _ => reg = i, .external (i + 1) fun _ _ _ x => x⟩ }

/-- There are four slots for the one timed event type, and the fifth row gets none. -/
theorem shared_not_everyTimerArmed : ¬ shared.EveryTimerArmed := by
  intro h
  let m : Machine Signature.small := ⟨0, (), 0, (), (), [], [], .ofCapacity 4, 0, none, []⟩
  have hlength : m.timers.entries.length = shared.defaultTimerCapacity := by decide +kernel
  have harmed := (h m hlength).1 0 () (by decide +kernel)
  have hfifth : ((shared.timedRows 0).map fun row =>
      (shared.setCurrentState m 0 ()).timers.isTimerActive (row.2 + 1)) = [true, true, true, true, false] := by
    decide +kernel
  have hall : ∀ b ∈ ((shared.timedRows 0).map fun row =>
      (shared.setCurrentState m 0 ()).timers.isTimerActive (row.2 + 1)), b = true := by
    intro b hb
    obtain ⟨row, hrow, rfl⟩ := List.mem_map.mp hb
    exact harmed row hrow
  rw [hfifth] at hall
  exact absurd (hall false (by simp)) (by decide)

end Fsmc.Backend
