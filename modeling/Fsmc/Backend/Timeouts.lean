/-
# Fsmc.Backend.Timeouts — which row a timeout executes.

A timer belongs to a row, but its expiry is dispatched as an event of the type of the row, so that the first
row on that event whose guard holds is executed. With several rows on one timed event the row that is executed
may be another one, and a row may be executed once for each of their timers.
-/
import Fsmc.Backend.HookBalance
import Fsmc.Backend.Operations
import Fsmc.Lib.FirstMatch

namespace Fsmc.Backend

open Machine TimerManager

variable {σ : Signature}

/-! ## Timers keep their numbers -/

namespace TimerManager

theorem activeIds_replaceFirst_holds (timerId durationMs : ℕ) (periodic : Bool) : ∀ entries : List TimerEntry,
      ((replaceFirst (holds timerId) (fun _ => ⟨timerId, durationMs, 0, periodic, true⟩) entries).filter
          (·.active)).map (·.timerId) = (entries.filter (·.active)).map (·.timerId)
  | [] => rfl
  | entry :: rest => by
    unfold replaceFirst
    split
    · rename_i hholds
      unfold holds at hholds
      rw [Bool.and_eq_true, decide_eq_true_eq] at hholds
      simp [hholds.1, hholds.2]
    · have ih := activeIds_replaceFirst_holds timerId durationMs periodic rest
      cases hactive : entry.active <;> simp [hactive, ih]

theorem nodup_replaceFirst_free {started : TimerEntry} (hstarted : started.active = true) :
    ∀ entries : List TimerEntry, started.timerId ∉ (entries.filter (·.active)).map (·.timerId) →
      ((entries.filter (·.active)).map (·.timerId)).Nodup →
        (entries.any fun entry => !entry.active) = true →
          (((replaceFirst (fun entry => !entry.active) (fun _ => started) entries).filter
            (·.active)).map (·.timerId)).Nodup
  | [], _, _, h => by simp at h
  | entry :: rest, hnew, hnodup, h => by
    unfold replaceFirst
    cases hactive : entry.active with
    | false =>
      rw [List.filter_cons_of_neg (by simp [hactive])] at hnew hnodup
      simp only [Bool.not_false, if_true]
      rw [List.filter_cons_of_pos hstarted, List.map_cons, List.nodup_cons]
      exact ⟨hnew, hnodup⟩
    | true =>
      rw [List.filter_cons_of_pos hactive, List.map_cons] at hnew hnodup
      rw [List.nodup_cons] at hnodup
      rw [List.mem_cons, not_or] at hnew
      have hrest : (rest.any fun entry => !entry.active) = true := by simpa [hactive] using h
      simp only [Bool.not_true, Bool.false_eq_true, if_false]
      rw [List.filter_cons_of_pos hactive, List.map_cons, List.nodup_cons,
        mem_activeIds_replaceFirst hstarted _ rest hrest, not_or]
      exact ⟨⟨Ne.symm hnew.1, hnodup.1⟩, nodup_replaceFirst_free hstarted rest hnew.2 hnodup.2 hrest⟩

theorem nodup_startTimer {timers : TimerManager} (h : timers.activeIds.Nodup) (timerId durationMs : ℕ)
    (periodic : Bool) : (timers.startTimer timerId durationMs periodic).1.activeIds.Nodup := by
  unfold startTimer
  dsimp only
  split
  · unfold activeIds
    rw [activeIds_replaceFirst_holds]
    exact h
  · rename_i hnone
    have hnew : timerId ∉ timers.activeIds := fun hmem => hnone (isTimerActive_iff.mpr hmem)
    split
    · rename_i hfree
      exact nodup_replaceFirst_free rfl timers.entries hnew h hfree
    · exact h

variable (timers : TimerManager)

theorem activeIds_advance_sublist (deltaMs : ℕ) :
    ((timers.advance deltaMs).activeIds).Sublist timers.activeIds := by
  unfold activeIds advance
  dsimp only
  induction timers.entries with
  | nil => exact List.Sublist.refl _
  | cons entry rest ih =>
    rw [List.map_cons]
    cases hactive : entry.active with
    | false =>
      have hsame : advanceEntry deltaMs entry = entry := by simp [advanceEntry, hactive]
      rw [hsame, List.filter_cons_of_neg (by simp [hactive]), List.filter_cons_of_neg (by simp [hactive])]
      exact ih
    | true =>
      have hid : (advanceEntry deltaMs entry).timerId = entry.timerId := by
        unfold advanceEntry
        dsimp only
        split_ifs <;> rfl
      rw [List.filter_cons_of_pos hactive, List.map_cons]
      cases hstill : (advanceEntry deltaMs entry).active with
      | false =>
        rw [List.filter_cons_of_neg (by simp [hstill])]
        exact ih.cons _
      | true =>
        rw [List.filter_cons_of_pos hstill, List.map_cons, hid]
        exact ih.cons_cons _

theorem expiredIds_sublist (deltaMs : ℕ) :
    (timers.expiredIds deltaMs).Sublist timers.activeIds := by
  refine List.Sublist.map _ ?_
  have hfilter : timers.entries.filter (expires deltaMs) =
      (timers.entries.filter (·.active)).filter (expires deltaMs) := by
    rw [List.filter_filter]
    refine List.filter_congr fun entry _ => ?_
    unfold expires
    cases entry.active <;> simp
  rw [hfilter]
  exact List.filter_sublist

end TimerManager

namespace Program

variable (P : Program σ)

theorem nodup_refreshTimers (s : σ.State) (timers : TimerManager) : (P.refreshTimers s timers).activeIds.Nodup := by
  have hfold : ∀ (rows : List (Row σ × ℕ)) (timers : TimerManager), timers.activeIds.Nodup →
      (rows.foldl (P.armTimerForRow s) timers).activeIds.Nodup := by
    intro rows
    induction rows with
    | nil => exact fun _ h => h
    | cons row rows ih =>
      intro timers h
      refine ih _ ?_
      unfold armTimerForRow
      split
      · exact h
      · split
        · exact nodup_startTimer h _ _ _
        · exact h
  refine hfold _ _ ?_
  rw [activeIds_reset]
  exact List.nodup_nil

theorem timers_dispatchDirect (m : Machine σ) (event : Event σ) (input : σ.InPorts) :
    (P.dispatchDirect m event input).1.timers = m.timers ∨
      ∃ s timers, (P.dispatchDirect m event input).1.timers = P.refreshTimers s timers := by
  rcases P.dispatchDirect_eq m event input with ⟨row, -, heq⟩ | ⟨-, heq, -⟩
  · rw [heq]
    unfold execute
    cases row.1.effect with
    | external target action =>
      exact Or.inr ⟨target, m.timers, timers_executeExternal m event input row.2 target _⟩
    | internal action => exact Or.inl rfl
  · rw [heq]
    exact Or.inl rfl

theorem stable_nodup : P.Stable fun m : Machine σ => m.timers.activeIds.Nodup where
  direct := by
    intro m event input h
    rcases P.timers_dispatchDirect m event input with heq | ⟨s, timers, heq⟩
    · rw [heq]
      exact h
    · rw [heq]
      exact P.nodup_refreshTimers s timers
  activity := fun _ _ h => h
  advance := fun m deltaMs h => (m.timers.activeIds_advance_sublist deltaMs).nodup h
  ports := fun _ _ h => h
  deferred := fun _ _ h => h
  residence := fun _ _ h => h
  violation := fun _ _ h => h

/-! ## The turns of the expired timers -/

/-- The timers whose expiry is handed over, each with the machine at its turn. -/
def expiryTurns (startGen : ℕ) : List ℕ → Machine σ → List (ℕ × Machine σ)
  | [], _ => []
  | timerId :: rest, m =>
    if m.timers.generation ≠ startGen then []
    else (timerId, m) :: expiryTurns startGen rest (P.dispatchTimedTimer m timerId)

def turns (m : Machine σ) (deltaMs : ℕ) : List (ℕ × Machine σ) :=
  P.expiryTurns (P.beforeExpiry m deltaMs).timers.generation
    ((P.beforeExpiry m deltaMs).timers.expiredIds deltaMs) (advanceTimers (P.beforeExpiry m deltaMs) deltaMs)

theorem map_expiryTurns (startGen : ℕ) : ∀ (ids : List ℕ) (m : Machine σ),
    (P.expiryTurns startGen ids m).map (·.1) = (P.fireExpired startGen ids m).2
  | [], _ => rfl
  | timerId :: rest, m => by
    unfold expiryTurns fireExpired
    split
    · rfl
    · exact congrArg (timerId :: ·) (map_expiryTurns startGen rest _)

theorem map_turns (m : Machine σ) (deltaMs : ℕ) : (P.turns m deltaMs).map (·.1) = (P.tick m deltaMs).2 :=
  P.map_expiryTurns _ _ _

theorem expiryTurns_sublist (startGen : ℕ) : ∀ (ids : List ℕ) (m : Machine σ),
    ((P.expiryTurns startGen ids m).map (·.1)).Sublist ids
  | [], _ => List.Sublist.refl _
  | timerId :: rest, m => by
    unfold expiryTurns
    split
    · exact List.nil_sublist _
    · exact (expiryTurns_sublist startGen rest _).cons_cons _

end Program

/-- The row that an action belongs to. -/
def Call.row? : Call σ → Option ℕ
  | .action row => some row
  | _ => none

/-- The rows that were executed from one machine to a later one. -/
def Machine.executedRows (m m' : Machine σ) : List ℕ := (m'.calls.drop m.calls.length).filterMap Call.row?

namespace Program

variable (P : Program σ)

/-- Every timer expires at most once in a tick, and its expiry executes its own row or none. -/
def TimeoutsOnce (m : Machine σ) (deltaMs : ℕ) : Prop :=
  (P.tick m deltaMs).2.Nodup ∧
    ∀ turn ∈ P.turns m deltaMs, ∀ row ∈ P.timedRow turn.1,
      let start := withoutPorts turn.2
      executedRows start (P.dispatchDirect start (.ofType row.event) default).1 ∈ [[], [turn.1 - 1]]

/-- In every tick of every run, each expiry executes its own row or none. -/
def TimeoutsTakenOnce : Prop :=
  ∀ initial value reg srv, ∀ (ops : List (MachineOp σ)) (deltaMs : ℕ),
    P.TimeoutsOnce (ops.foldl P.operate (P.construct initial value reg srv)) deltaMs

/-- A row can take the timed event of a row. -/
def CanTake (m : Machine σ) (event : σ.EventType) (row : Row σ) : Prop :=
  P.applies m.state event row = true ∧ guardPassed m (.ofType event) default row = true

instance (m : Machine σ) (event : σ.EventType) (row : Row σ) : Decidable (P.CanTake m event row) :=
  inferInstanceAs (Decidable (_ ∧ _))

/-- At the turn of every expired timer, a row other than its own that can take the event stands behind its own
row, which can take it too. -/
def OwnRowFirst (m : Machine σ) (deltaMs : ℕ) : Prop :=
  ∀ turn ∈ P.turns m deltaMs, ∀ row ∈ P.timedRow turn.1, ∀ other ∈ P.rows.zipIdx,
    other.2 ≠ turn.1 - 1 → P.CanTake turn.2 row.event other.1 →
      turn.1 - 1 < other.2 ∧ P.CanTake turn.2 row.event row

instance (m : Machine σ) (deltaMs : ℕ) : Decidable (P.OwnRowFirst m deltaMs) :=
  inferInstanceAs (Decidable (∀ turn ∈ P.turns m deltaMs, ∀ row ∈ P.timedRow turn.1,
    ∀ other ∈ P.rows.zipIdx, _ → P.CanTake turn.2 row.event other.1 → _ ∧ P.CanTake turn.2 row.event row))

variable {P}

/-! ## The row that is executed -/

variable (states : List σ.State) (initial : σ.State)

theorem filterMap_row_exit : (states.map Call.exit).filterMap Call.row? = [] := by
  simp [List.filterMap_map, Function.comp_def, Call.row?]

theorem filterMap_row_enter : (states.map Call.enter).filterMap Call.row? = [] := by
  simp [List.filterMap_map, Function.comp_def, Call.row?]

theorem executedRows_dispatchDirect (m : Machine σ) (event : Event σ) (input : σ.InPorts) :
    executedRows m (P.dispatchDirect m event input).1 = ((P.selected m event input).map (·.2)).toList := by
  rcases P.dispatchDirect_eq m event input with ⟨row, hrow, heq⟩ | ⟨hrow, heq, -⟩
  · rw [heq, hrow]
    unfold execute executedRows
    cases row.1.effect with
    | external target action =>
      dsimp only
      rw [calls_executeExternal, List.append_assoc, List.append_assoc, List.drop_left, List.filterMap_append,
        List.filterMap_append, filterMap_row_exit, filterMap_row_enter]
      rfl
    | internal action =>
      dsimp only
      rw [calls_performCurrent, List.drop_left]
      rfl
  · rw [heq, hrow]
    unfold executedRows
    rw [List.drop_length]
    rfl

theorem snd_le_of_find?_zipIdx {α : Type} {l : List α} {p : α × ℕ → Bool} {found other : α × ℕ}
    (hfound : l.zipIdx.find? p = some found) (hother : other ∈ l.zipIdx) (hp : p other = true) :
    found.2 ≤ other.2 := by
  have hpairwise : l.zipIdx.Pairwise fun b c => b.2 ≤ c.2 := by
    have hrange : (l.zipIdx.map (·.2)).Pairwise (· ≤ ·) := by
      rw [List.zipIdx_map_snd]
      exact List.pairwise_le_range'
    exact List.pairwise_map.mp hrange
  rw [Lib.FirstMatch.find?_of_pairwise hpairwise] at hfound
  exact List.le_of_mem_argmin (List.mem_filter.mpr ⟨hother, hp⟩) hfound

/-- What is found is at an index if and only if every other match stands behind a match at the index. -/
theorem find?_zipIdx_snd_eq_iff {α : Type} {l : List α} {p : α × ℕ → Bool} {i : ℕ} {a : α} (ha : l[i]? = some a) :
    (∀ found ∈ l.zipIdx.find? p, found.2 = i) ↔
      ∀ other ∈ l.zipIdx, other.2 ≠ i → p other = true → i < other.2 ∧ p (a, i) = true := by
  constructor
  · intro h other hother hne hp
    -- the search finds something, which is at the index and comes no later than this match
    obtain ⟨found, hfound⟩ := Option.isSome_iff_exists.mp (List.find?_isSome.mpr ⟨other, hother, hp⟩)
    have hindex := h found hfound
    have hget := List.mem_zipIdx_iff_getElem?.mp (List.mem_of_find?_eq_some hfound)
    rw [hindex, ha, Option.some_inj] at hget
    have hown : p (a, i) = true := by
      rw [hget, ← hindex]
      exact List.find?_some hfound
    have hle := snd_le_of_find?_zipIdx hfound hother hp
    exact ⟨by omega, hown⟩
  · intro h found hfound
    -- a find elsewhere would stand behind the match at the index, which the search would have found
    by_contra hne
    obtain ⟨hlt, hown⟩ := h found (List.mem_of_find?_eq_some hfound) hne (List.find?_some hfound)
    have hle := snd_le_of_find?_zipIdx hfound (List.mem_zipIdx_iff_getElem?.mpr ha) hown
    have hle' : found.2 ≤ i := hle
    omega

theorem of_mem_timedRow {timerId : ℕ} {row : Row σ} (h : row ∈ P.timedRow timerId) :
    P.rows[timerId - 1]? = some row ∧ (P.timing row.event).isSome = true := by
  unfold timedRow at h
  split at h
  · cases h
  · exact Option.filter_eq_some_iff.mp h

/-- An expiry executes its own row or none if and only if, at its turn, every other row that can take the
event stands behind its own row, which can take it too. -/
theorem executedRows_mem_iff {m : Machine σ} {timerId : ℕ} {row : Row σ} (hrow : row ∈ P.timedRow timerId) :
    executedRows (withoutPorts m) (P.dispatchDirect (withoutPorts m) (.ofType row.event) default).1 ∈
        [[], [timerId - 1]] ↔
      ∀ other ∈ P.rows.zipIdx, other.2 ≠ timerId - 1 → P.CanTake m row.event other.1 →
        timerId - 1 < other.2 ∧ P.CanTake m row.event row := by
  have hfind := find?_zipIdx_snd_eq_iff
    (p := fun r =>
      P.applies m.state row.event r.1 && guardPassed (withoutPorts m) (.ofType row.event) default r.1)
    (of_mem_timedRow hrow).1
  simp only [Bool.and_eq_true] at hfind
  have hexecuted :
      executedRows (withoutPorts m) (P.dispatchDirect (withoutPorts m) (.ofType row.event) default).1 ∈
      [[], [timerId - 1]] ↔
        ∀ found ∈ P.selected (withoutPorts m) (.ofType row.event) default, found.2 = timerId - 1 := by
    rw [executedRows_dispatchDirect]
    cases P.selected (withoutPorts m) (.ofType row.event) default with
    | none => simp
    | some found => simp
  exact hexecuted.trans hfind

/-! ## Runs -/

theorem nodup_activeIds_construct (value : σ.Value) (reg : σ.Registers) (srv : σ.Services) :
    (P.construct initial value reg srv).timers.activeIds.Nodup := P.nodup_refreshTimers initial _

theorem nodup_tick (value : σ.Value) (reg : σ.Registers) (srv : σ.Services)
    (ops : List (MachineOp σ)) (deltaMs : ℕ) :
    (P.tick (ops.foldl P.operate (P.construct initial value reg srv)) deltaMs).2.Nodup := by
  have hrun := P.stable_nodup.run (nodup_activeIds_construct (P := P) initial value reg srv) ops
  have hactive := P.stable_nodup.beforeExpiry hrun deltaMs
  rw [← P.map_turns]
  exact ((P.expiryTurns_sublist _ _ _).trans (expiredIds_sublist _ deltaMs)).nodup hactive

/-- A tick of a run takes every timeout at most once if and only if, at the turn of every expired timer, its
own row comes first among those that can take the event. -/
theorem timeoutsOnce_iff (initial : σ.State) (value : σ.Value) (reg : σ.Registers) (srv : σ.Services)
    (ops : List (MachineOp σ)) (deltaMs : ℕ) :
    P.TimeoutsOnce (ops.foldl P.operate (P.construct initial value reg srv)) deltaMs ↔
      P.OwnRowFirst (ops.foldl P.operate (P.construct initial value reg srv)) deltaMs := by
  have hnodup := P.nodup_tick initial value reg srv ops deltaMs
  constructor
  · rintro ⟨-, h⟩ turn hturn row hrow
    exact (executedRows_mem_iff hrow).mp (h turn hturn row hrow)
  · intro h
    exact ⟨hnodup, fun turn hturn row hrow => (executedRows_mem_iff hrow).mpr (h turn hturn row hrow)⟩

end Program

/-! ## Two rows on one timed event -/

/-- Two internal rows on `after_ms<10>`, the second of which never comes first. -/
def twice : Program Signature.small :=
  { Program.plainTimed with
    rows :=
      [⟨0, 1, fun _ _ _ _ _ _ _ => true, .internal fun _ _ _ x => (x.1, { x.2 with reg := x.2.reg + 1 })⟩,
        ⟨0, 1, fun _ _ _ _ reg _ _ => reg < 5, .internal fun _ _ _ x => x⟩] }

/-- Both timers expire in one tick, and the first row is executed for each of them. -/
theorem twice_not_timeoutsTakenOnce : ¬ twice.TimeoutsTakenOnce := by
  intro h
  have hturns := (h 0 () 0 () [] 10).2
  have hsecond := hturns ((twice.turns (twice.construct 0 () 0 ()) 10).get ⟨1, by decide +kernel⟩)
    (List.get_mem _ _)
  exact absurd hsecond (by decide +kernel)

end Fsmc.Backend
