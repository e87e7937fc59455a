/-
# Fsmc.Backend.CompositeTimeout — timers of a composite state.

Every external transition arms the timers of its target anew, those of the composites that it stays in
included. A timeout of a composite therefore measures the time since the last transition, which is the time
spent in the composite only as long as no transition inside it is taken while time counts.
-/
import Fsmc.Backend.HookBalance
import Fsmc.Backend.Operations
import Fsmc.Backend.TimerArming

namespace Fsmc.Backend

open Machine TimerManager

variable {σ : Signature}

/-! ## Entries of armed timers -/

namespace TimerManager

theorem mem_replaceFirst {p : TimerEntry → Bool} {started entry : TimerEntry} :
    ∀ {entries : List TimerEntry}, entry ∈ replaceFirst p (fun _ => started) entries →
      entry ∈ entries ∨ entry = started
  | [], h => by cases h
  | first :: rest, h => by
    unfold replaceFirst at h
    split at h
    · rcases List.mem_cons.mp h with rfl | hrest
      · exact Or.inr rfl
      · exact Or.inl (List.mem_cons_of_mem _ hrest)
    · rcases List.mem_cons.mp h with rfl | hrest
      · exact Or.inl List.mem_cons_self
      · exact (mem_replaceFirst hrest).imp_left (List.mem_cons_of_mem _)

variable {entry : TimerEntry} {deltaMs : ℕ}

theorem mem_startTimer {timers : TimerManager} {timerId durationMs : ℕ} {periodic : Bool}
    (h : entry ∈ (timers.startTimer timerId durationMs periodic).1.entries) :
    entry ∈ timers.entries ∨ entry = ⟨timerId, durationMs, 0, periodic, true⟩ := by
  unfold startTimer at h
  dsimp only at h
  split at h
  · exact mem_replaceFirst h
  · split at h
    · exact mem_replaceFirst h
    · exact Or.inl h

theorem expires_iff : expires deltaMs entry = true ↔
      entry.active = true ∧ entry.intervalMs ≤ (entry.elapsedMs + deltaMs) % wrap64 := by
  unfold expires
  rw [Bool.and_eq_true, decide_eq_true_eq]

theorem timerId_advanceEntry (deltaMs : ℕ) (entry : TimerEntry) :
    (advanceEntry deltaMs entry).timerId = entry.timerId := by
  unfold advanceEntry
  dsimp only
  split_ifs <;> rfl

theorem advanceEntry_of_not_expires (hactive : entry.active = true) (h : expires deltaMs entry = false) :
    advanceEntry deltaMs entry = { entry with elapsedMs := (entry.elapsedMs + deltaMs) % wrap64 } := by
  simp [advanceEntry, hactive, h]

theorem active_of_advanceEntry (h : (advanceEntry deltaMs entry).active = true) : entry.active = true := by
  cases hactive : entry.active with
  | true => rfl
  | false => simp [advanceEntry, hactive] at h

theorem not_expires_of_active (hperiodic : entry.periodic = false)
    (h : (advanceEntry deltaMs entry).active = true) : expires deltaMs entry = false := by
  have hactive := active_of_advanceEntry h
  cases hexpires : expires deltaMs entry with
  | false => rfl
  | true => simp [advanceEntry, hactive, hexpires, hperiodic] at h

theorem length_advance (timers : TimerManager) (deltaMs : ℕ) :
    (timers.advance deltaMs).entries.length = timers.entries.length := List.length_map _

end TimerManager

namespace Program

variable (P : Program σ)

/-- An active entry is that of a row, as long ago as it was armed. -/
def FreshEntry (entry : TimerEntry) : Prop :=
  entry.active = true → entry.elapsedMs = 0 ∧
    ∃ row ∈ P.rows.zipIdx, entry.timerId = row.2 + 1 ∧
      P.timing row.1.event = some (entry.intervalMs, entry.periodic)

theorem freshEntry_refreshTimers (s : σ.State) (timers : TimerManager) :
    ∀ entry ∈ (P.refreshTimers s timers).entries, P.FreshEntry entry := by
  have hfold : ∀ (rows : List (Row σ × ℕ)) (timers : TimerManager), rows ⊆ P.rows.zipIdx →
      (∀ entry ∈ timers.entries, P.FreshEntry entry) →
        ∀ entry ∈ (rows.foldl (P.armTimerForRow s) timers).entries, P.FreshEntry entry := by
    intro rows
    induction rows with
    | nil => exact fun _ _ h => h
    | cons row rows ih =>
      intro timers hsub h
      refine ih _ (fun r hr => hsub (List.mem_cons_of_mem _ hr)) ?_
      unfold armTimerForRow
      cases htiming : P.timing row.1.event with
      | none => exact h
      | some timing =>
        dsimp only
        split
        · intro entry hentry
          rcases mem_startTimer hentry with hold | rfl
          · exact h entry hold
          · exact fun _ => ⟨rfl, row, hsub List.mem_cons_self, rfl, htiming⟩
        · exact h
  refine hfold _ _ (fun _ h => h) ?_
  intro entry hentry hactive
  obtain ⟨old, -, rfl⟩ := List.mem_map.mp hentry
  cases hactive

/-! ## Time spent in a composite -/

def assignedState? : Call σ → Option σ.State
  | .assign s => some s
  | _ => none

/-- The states that were assigned from one machine to a later one. -/
def assigned (m m' : Machine σ) : List σ.State :=
  (m'.calls.drop m.calls.length).filterMap assignedState?

/-- The ticks since the composite was entered, as long as the active state is in it. -/
abbrev Residence := Option (List ℕ)

variable (composite : σ.State)

/-- The residence when a state becomes active. -/
def visit (residence : Residence) (s : σ.State) : Residence :=
  if (P.chain s).contains composite then some (residence.getD []) else none

/-- The residence when an operation begins; a tick passes time before anything else. -/
def pass (residence : Residence) : MachineOp σ → Residence
  | .tick deltaMs => residence.map (· ++ [deltaMs])
  | _ => residence

/-- An operation, with the residence in the composite. -/
def operateIn (stay : Machine σ × Residence) (op : MachineOp σ) : Machine σ × Residence :=
  (P.operate stay.1 op, (assigned stay.1 (P.operate stay.1 op)).foldl (P.visit composite) (pass stay.2 op))

/-- A machine in its initial state, with the residence in the composite. -/
def beginIn (m : Machine σ) : Machine σ × Residence := (m, P.visit composite none m.state)

/-- The timer of a row expires in a tick. -/
def Fires (m : Machine σ) (row deltaMs : ℕ) : Prop := row + 1 ∈ m.timers.expiredIds deltaMs

instance (m : Machine σ) (row deltaMs : ℕ) : Decidable (Fires m row deltaMs) :=
  inferInstanceAs (Decidable (_ ∈ _))

/-- A timeout measures the residence: it fires in the first tick that completes its duration, and in no tick
before. -/
def MeasuresResidence (stay : Machine σ × Residence) (row duration deltaMs : ℕ) : Prop :=
  ∀ ticks ∈ stay.2,
    ((ticks = [] ∨ ticks.sum < duration) → duration ≤ ticks.sum + deltaMs → Fires stay.1 row deltaMs) ∧
      (Fires stay.1 row deltaMs → duration ≤ ticks.sum + deltaMs)

/-- Every one-shot timeout of a composite measures the time spent in it. -/
def TimeoutsMeasureResidence : Prop :=
  ∀ (i : ℕ) (row : Row σ) (duration : ℕ), P.rows[i]? = some row → P.timing row.event = some (duration, false) →
    ∀ initial value reg srv, ∀ (ops : List (MachineOp σ)) (deltaMs : ℕ),
      MeasuresResidence
        (ops.foldl (P.operateIn row.source) (P.beginIn row.source (P.construct initial value reg srv)))
        i duration deltaMs

/-- No transition inside the composite is taken after time has passed in it and before the duration is over. -/
def Undisturbed (duration : ℕ) : Residence → List σ.State → Prop
  | _, [] => True
  | residence, s :: rest =>
    (composite ∈ P.chain s → ∀ ticks ∈ residence, ticks.sum = 0 ∨ duration ≤ ticks.sum) ∧
      Undisturbed duration (P.visit composite residence s) rest

instance Undisturbed.decidable (duration : ℕ) : ∀ (residence : Residence) (states : List σ.State),
    Decidable (P.Undisturbed composite duration residence states)
  | _, [] => isTrue trivial
  | residence, s :: rest =>
    have : Decidable (P.Undisturbed composite duration (P.visit composite residence s) rest) :=
      Undisturbed.decidable duration _ rest
    inferInstanceAs (Decidable ((composite ∈ P.chain s → ∀ ticks ∈ residence, _ ∨ _) ∧ _))

/-! ## The invariant -/

variable (i duration : ℕ)

/-- As long as the duration is not over, the timer of the row is active and has run since the composite was
entered. -/
structure Held (stay : Machine σ × Residence) : Prop where
  inside : stay.2.isSome = true ↔ composite ∈ P.chain stay.1.state
  slots : stay.1.timers.entries.length = P.timerCapacity
  own : ∀ entry ∈ stay.1.timers.entries, entry.active = true → entry.timerId = i + 1 →
    entry.intervalMs = duration ∧ entry.periodic = false ∧ ∀ ticks ∈ stay.2, entry.elapsedMs ≤ ticks.sum
  runs : ∀ ticks ∈ stay.2, ticks = [] ∨ ticks.sum < duration →
    ∃ entry ∈ stay.1.timers.entries, entry.active = true ∧ entry.timerId = i + 1 ∧ entry.elapsedMs = ticks.sum

variable {P composite i duration}

theorem held_armed {row : Row σ} (hrow : P.rows[i]? = some row)
    (htiming : P.timing row.event = some (duration, false))
    (hslots : ∀ s, row.source ∈ P.chain s → (P.timedRows s).length ≤ P.timerCapacity)
    (m : Machine σ) (timers : TimerManager) (residence : Residence)
    (hlength : timers.entries.length = P.timerCapacity) (htimers : m.timers = P.refreshTimers m.state timers)
    (hcalm : row.source ∈ P.chain m.state → ∀ ticks ∈ residence, ticks.sum = 0 ∨ duration ≤ ticks.sum) :
    P.Held row.source i duration (m, P.visit row.source residence m.state) := by
  have hfresh := P.freshEntry_refreshTimers m.state timers
  rw [← htimers] at hfresh
  refine ⟨?_, ?_, ?_, ?_⟩
  · unfold visit
    split
    · rename_i hcontains
      simp [List.contains_iff_mem.mp hcontains]
    · rename_i hnot
      simp [mt List.contains_iff_mem.mpr hnot]
  · show m.timers.entries.length = _
    rw [htimers, P.length_refreshTimers, hlength]
  -- an active timer has just been armed, by the row that its number tells
  · intro entry hentry hactive hid
    obtain ⟨helapsed, other, hother, hid', htiming'⟩ := hfresh entry hentry hactive
    have hindex : other.2 = i := by omega
    have hget := List.mem_zipIdx_iff_getElem?.mp hother
    rw [hindex, hrow, Option.some_inj] at hget
    rw [← hget, htiming, Option.some_inj, Prod.mk.injEq] at htiming'
    exact ⟨htiming'.1.symm, htiming'.2.symm, fun ticks _ => by omega⟩
  · intro ticks hticks hopen
    unfold visit at hticks
    split at hticks
    · rename_i hcontains
      have hin : row.source ∈ P.chain m.state := List.contains_iff_mem.mp hcontains
      have hticks' : ticks = residence.getD [] := (Option.mem_some_iff.mp hticks).symm
      -- the timer starts at zero, so that no time may have passed in the composite as long as it matters
      have hzero : ticks.sum = 0 := by
        cases residence with
        | none => rw [hticks']; rfl
        | some before =>
          rcases hcalm hin before rfl with hsum | hsum
          · rw [hticks']
            exact hsum
          · have hsame : ticks = before := hticks'
            rcases hopen with rfl | hlt
            · rfl
            · rw [hsame] at hlt
              omega
      have harmed := (P.refreshTimers_arms_iff m.state timers).mpr (by rw [hlength]; exact hslots m.state hin)
      have hmem : (row, i) ∈ P.timedRows m.state := by
        refine List.mem_filter.mpr ⟨List.mem_zipIdx_iff_getElem?.mpr hrow, ?_⟩
        unfold hasTimerIn
        rw [htiming, P.isSubstateOf_of_mem hin]
        rfl
      have hactive := harmed (row, i) hmem
      rw [← htimers] at hactive
      obtain ⟨entry, hentry, hholds⟩ := List.any_eq_true.mp hactive
      unfold holds at hholds
      rw [Bool.and_eq_true, decide_eq_true_eq] at hholds
      exact ⟨entry, hentry, hholds.1, hholds.2, by rw [(hfresh entry hentry hholds.1).1, hzero]⟩
    · cases hticks

variable {residence : Residence} (states : List σ.State)

theorem held_advance {m : Machine σ} (h : P.Held composite i duration (m, residence))
    {deltaMs : ℕ} (hwrap : ∀ ticks ∈ residence, ticks.sum + deltaMs < wrap64) :
    P.Held composite i duration (advanceTimers m deltaMs, residence.map (· ++ [deltaMs])) := by
  refine ⟨?_, (length_advance m.timers deltaMs).trans h.slots, ?_, ?_⟩
  · rw [Option.isSome_map]
    exact h.inside
  · intro entry hentry hactive hid
    obtain ⟨old, hold, rfl⟩ := List.mem_map.mp hentry
    rw [timerId_advanceEntry] at hid
    -- a one-shot timer that is still active has not expired, so that it has only run on
    have hactive' := active_of_advanceEntry hactive
    obtain ⟨hinterval, hperiodic, helapsed⟩ := h.own old hold hactive' hid
    rw [advanceEntry_of_not_expires hactive' (not_expires_of_active hperiodic hactive)]
    refine ⟨hinterval, hperiodic, fun ticks hticks => ?_⟩
    obtain ⟨before, hbefore, rfl⟩ := Option.map_eq_some_iff.mp hticks
    have hle := helapsed before hbefore
    have hmod : (old.elapsedMs + deltaMs) % wrap64 ≤ old.elapsedMs + deltaMs := Nat.mod_le _ _
    rw [List.sum_append, List.sum_singleton]
    show (old.elapsedMs + deltaMs) % wrap64 ≤ before.sum + deltaMs
    omega
  · intro ticks hticks hopen
    obtain ⟨before, hbefore, rfl⟩ := Option.map_eq_some_iff.mp hticks
    have hsum : (before ++ [deltaMs]).sum = before.sum + deltaMs := by
      rw [List.sum_append, List.sum_singleton]
    have hlt : before.sum + deltaMs < duration := by
      rcases hopen with hnil | hlt
      · exact absurd hnil (List.append_ne_nil_of_right_ne_nil _ (List.cons_ne_nil _ _))
      · rwa [hsum] at hlt
    obtain ⟨entry, hentry, hactive, hid, helapsed⟩ := h.runs before hbefore (Or.inr (by omega))
    obtain ⟨hinterval, -, -⟩ := h.own entry hentry hactive hid
    have hmod : (entry.elapsedMs + deltaMs) % wrap64 = before.sum + deltaMs := by
      rw [helapsed]
      exact Nat.mod_eq_of_lt (hwrap before hbefore)
    -- the duration is not over behind the tick, so that the timer stays
    have hnot : expires deltaMs entry = false := by
      rw [← Bool.not_eq_true, expires_iff, hmod, hinterval]
      omega
    refine ⟨advanceEntry deltaMs entry, List.mem_map_of_mem hentry, ?_, ?_, ?_⟩
    · rw [advanceEntry_of_not_expires hactive hnot]
      exact hactive
    · rw [timerId_advanceEntry, hid]
    · rw [advanceEntry_of_not_expires hactive hnot, hsum]
      exact hmod

theorem Held.measures {stay : Machine σ × Residence} (h : P.Held composite i duration stay) {deltaMs : ℕ}
    (hwrap : ∀ ticks ∈ stay.2, ticks.sum + deltaMs < wrap64) : MeasuresResidence stay i duration deltaMs := by
  intro ticks hticks
  constructor
  · intro hopen hover
    obtain ⟨entry, hentry, hactive, hid, helapsed⟩ := h.runs ticks hticks hopen
    obtain ⟨hinterval, -, -⟩ := h.own entry hentry hactive hid
    refine List.mem_map.mpr ⟨entry, List.mem_filter.mpr ⟨hentry, ?_⟩, hid⟩
    rw [expires_iff, helapsed, Nat.mod_eq_of_lt (hwrap ticks hticks), hinterval]
    exact ⟨hactive, hover⟩
  · intro hfires
    obtain ⟨entry, hentry, hid⟩ := List.mem_map.mp hfires
    obtain ⟨hmem, hexpires⟩ := List.mem_filter.mp hentry
    obtain ⟨hactive, hle⟩ := expires_iff.mp hexpires
    obtain ⟨hinterval, -, helapsed⟩ := h.own entry hmem hactive hid
    have hmod : (entry.elapsedMs + deltaMs) % wrap64 ≤ entry.elapsedMs + deltaMs := Nat.mod_le _ _
    have hsum := helapsed ticks hticks
    omega

/-! ## Operations -/

theorem undisturbed_append {states later : List σ.State} : ∀ {residence : Residence},
    P.Undisturbed composite duration residence (states ++ later) ↔
      P.Undisturbed composite duration residence states ∧
        P.Undisturbed composite duration (states.foldl (P.visit composite) residence) later := by
  induction states with
  | nil => exact fun {_} => ⟨fun h => ⟨trivial, h⟩, fun h => h.2⟩
  | cons s states ih =>
    intro residence
    simp only [List.cons_append, Undisturbed, ih, List.foldl_cons, and_assoc]

variable (P composite i duration) in
/-- A machine with more calls than another, in which the invariant holds unless the calls disturb it. -/
def Follows (start : Machine σ) (residence : Residence) (m : Machine σ) : Prop :=
  ∃ new, m.calls = start.calls ++ new ∧
    (P.Undisturbed composite duration residence (new.filterMap assignedState?) →
      P.Held composite i duration (m, (new.filterMap assignedState?).foldl (P.visit composite) residence))

theorem filterMap_assigned_exit : (states.map Call.exit).filterMap assignedState? = [] := by
  simp [List.filterMap_map, Function.comp_def, assignedState?]

theorem filterMap_assigned_enter : (states.map Call.enter).filterMap assignedState? = [] := by
  simp [List.filterMap_map, Function.comp_def, assignedState?]

theorem Follows.of_same {start m m' : Machine σ}
    (h : P.Follows composite i duration start residence m) {extra : List (Call σ)}
    (hcalls : m'.calls = m.calls ++ extra) (hextra : extra.filterMap assignedState? = [])
    (hstate : m'.state = m.state) (htimers : m'.timers = m.timers) :
    P.Follows composite i duration start residence m' := by
  obtain ⟨new, hnew, hheld⟩ := h
  refine ⟨new ++ extra, by rw [hcalls, hnew, List.append_assoc], ?_⟩
  rw [List.filterMap_append, hextra, List.append_nil]
  intro hcalm
  obtain ⟨hinside, hslots, hown, hruns⟩ := hheld hcalm
  exact ⟨by rw [hstate]; exact hinside, by rw [htimers]; exact hslots, by rw [htimers]; exact hown,
    by rw [htimers]; exact hruns⟩

section Row

variable {row : Row σ} (hrow : P.rows[i]? = some row) (htiming : P.timing row.event = some (duration, false))
  (hslots : ∀ s, row.source ∈ P.chain s → (P.timedRows s).length ≤ P.timerCapacity)

include hrow htiming hslots

theorem follows_executeExternal {start m : Machine σ} {residence : Residence}
    (h : P.Follows row.source i duration start residence m) (event : Event σ) (input : σ.InPorts) (index : ℕ)
    (target : σ.State) (action : σ.Value × σ.Value × Data σ → σ.Value × σ.Value × Data σ) :
    P.Follows row.source i duration start residence (P.executeExternal m event input index target action) := by
  obtain ⟨new, hnew, hheld⟩ := h
  refine ⟨new ++ ((P.exitCalls target (P.chain m.state)).map .exit ++ [.action index, .assign target] ++
    (P.enterCalls m.state target ++ [target]).map .enter), ?_, ?_⟩
  · rw [calls_executeExternal, hnew]
    simp only [List.append_assoc]
  · have hassigned :
        ([.action index, .assign target] : List (Call σ)).filterMap assignedState? = [target] := rfl
    rw [List.filterMap_append, List.filterMap_append, List.filterMap_append, filterMap_assigned_exit,
      filterMap_assigned_enter, hassigned, List.nil_append, List.append_nil, undisturbed_append]
    rintro ⟨hbefore, hcalm⟩
    have hm := hheld hbefore
    rw [List.foldl_append]
    have hstate := state_executeExternal (P := P) m event input index target action
    have htimers := timers_executeExternal (P := P) m event input index target action
    have harmed := held_armed hrow htiming hslots (P.executeExternal m event input index target action) m.timers
      ((new.filterMap assignedState?).foldl (P.visit row.source) residence) hm.slots (by rw [hstate, htimers])
      (by rw [hstate]; exact hcalm.1)
    rw [hstate] at harmed
    exact harmed

theorem settled_follows (start : Machine σ) (residence : Residence) :
    P.Settled (P.Follows row.source i duration start residence) where
  direct := by
    intro m event input h
    rcases P.dispatchDirect_eq m event input with ⟨chosen, -, heq⟩ | ⟨-, heq, -⟩
    · rw [heq]
      unfold execute
      cases chosen.1.effect with
      | external target action =>
        exact follows_executeExternal hrow htiming hslots h event input chosen.2 target _
      | internal action => exact h.of_same (calls_performCurrent m _ _) rfl rfl rfl
    · rw [heq]
      exact h
  activity := fun m input h => h.of_same (calls_performCurrent m _ _) rfl rfl rfl
  ports := fun _ _ h => h.of_same (List.append_nil _).symm rfl rfl rfl
  deferred := fun _ _ h => h.of_same (List.append_nil _).symm rfl rfl rfl
  residence := fun _ _ h => h.of_same (List.append_nil _).symm rfl rfl rfl
  violation := fun _ _ h => h.of_same (List.append_nil _).symm rfl rfl rfl

variable (P) in
/-- No transition inside the composite is taken while its time counts, and the time does not overflow. -/
def KeepsTime (composite : σ.State) (duration : ℕ) (stay : Machine σ × Residence) (op : MachineOp σ) : Prop :=
  P.Undisturbed composite duration (pass stay.2 op) (assigned stay.1 (P.operate stay.1 op)) ∧
    match op with
    | .tick deltaMs => ∀ ticks ∈ stay.2, ticks.sum + deltaMs < wrap64
    | _ => True

omit hrow htiming hslots in
instance (composite : σ.State) (stay : Machine σ × Residence) : ∀ op,
    Decidable (P.KeepsTime composite duration stay op)
  | .tick deltaMs => inferInstanceAs (Decidable (_ ∧ ∀ ticks ∈ stay.2, ticks.sum + deltaMs < wrap64))
  | .dispatch _ _ => inferInstanceAs (Decidable (_ ∧ True))
  | .step _ => inferInstanceAs (Decidable (_ ∧ True))

theorem held_operateIn {stay : Machine σ × Residence} (h : P.Held row.source i duration stay) (op : MachineOp σ)
    (hop : P.KeepsTime row.source duration stay op) :
    P.Held row.source i duration (P.operateIn row.source stay op) := by
  -- The calls of the whole operation lead to the invariant, from the residence behind the passing of time.
  have hfinish : P.Follows row.source i duration stay.1 (pass stay.2 op) (P.operate stay.1 op) →
      P.Held row.source i duration (P.operateIn row.source stay op) := by
    rintro ⟨new, hnew, hheld⟩
    have hassigned : assigned stay.1 (P.operate stay.1 op) = new.filterMap assignedState? := by
      unfold assigned
      rw [hnew, List.drop_left]
    unfold operateIn
    rw [hassigned]
    exact hheld (hassigned ▸ hop.1)
  have hsettled := settled_follows hrow htiming hslots stay.1
  have hstart : P.Follows row.source i duration stay.1 stay.2 stay.1 :=
    ⟨[], (List.append_nil _).symm, fun _ => h⟩
  refine hfinish ?_
  cases op with
  | dispatch event ports => exact (hsettled stay.2).dispatchPorts hstart (event, ports)
  | step ports => exact (hsettled stay.2).stepPorts hstart ports
  | tick deltaMs =>
    -- the activity runs first and leaves state and timers; then time passes for both
    refine (hsettled _).tick ?_
    obtain ⟨hstate, htimers, -, hlog⟩ := P.beforeExpiry_spec stay.1 deltaMs
    have hbefore : P.Held row.source i duration (P.beforeExpiry stay.1 deltaMs, stay.2) :=
      ⟨by rw [hstate]; exact h.inside, by rw [htimers]; exact h.slots, by rw [htimers]; exact h.own,
        by rw [htimers]; exact h.runs⟩
    refine ⟨[.activity stay.1.state], ?_, fun _ => held_advance hbefore hop.2⟩
    show (P.beforeExpiry stay.1 deltaMs).log.map (·.call) = stay.1.log.map (·.call) ++ _
    rw [hlog, List.map_append]
    rfl

theorem held_beginIn (initial : σ.State) (value : σ.Value) (reg : σ.Registers) (srv : σ.Services) :
    P.Held row.source i duration (P.beginIn row.source (P.construct initial value reg srv)) := by
  refine held_armed hrow htiming hslots _ (.ofCapacity P.timerCapacity) none List.length_replicate ?_ ?_
  · rw [state_construct]
    exact P.timers_enterInitialState _
  · intro _ ticks hticks
    cases hticks

end Row

end Program

/-! ## A transition inside the composite -/

/-- State 0 is left after ten milliseconds. -/
def leaveAfter : Row Signature.small := ⟨0, 1, fun _ _ _ _ _ _ _ => true, .external 3 fun _ _ _ x => x⟩

/-- State 0 has states 1 and 2, and event 2 leads from 1 to 2. -/
def inherited : Program Signature.small :=
  { Program.plainTimed with
    rows := [leaveAfter, ⟨1, 2, fun _ _ _ _ _ _ _ => true, .external 2 fun _ _ _ x => x⟩]
    initial := 1
    parent := Program.parentOf
    depth := id
    depth_lt := Program.lt_of_parentOf }

end Fsmc.Backend
