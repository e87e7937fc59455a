/-
# Fsmc.Backend.Timer — timers that are advanced by ticks.

A timer manager has a fixed number of slots. Starting a timer takes the first slot that is free; a tick
advances every active timer and tells which of them have expired, each at most once.
-/
import Mathlib.Algebra.Ring.Nat
import Mathlib.Data.List.Basic
import Mathlib.Data.List.Nodup

namespace Fsmc.Backend

structure TimerEntry where
  timerId : ℕ := 0
  intervalMs : ℕ := 0
  elapsedMs : ℕ := 0
  periodic : Bool := false
  active : Bool := false
  deriving DecidableEq, Repr

/-- `deterministic_timer_manager`. -/
structure TimerManager where
  entries : List TimerEntry := []
  generation : ℕ := 0
  deriving DecidableEq, Repr

/-- The values of a `std::uint64_t`. -/
def wrap64 : ℕ := 2 ^ 64

/-- The values of a `std::uint32_t`. -/
def wrap32 : ℕ := 2 ^ 32

namespace TimerManager

/-- A manager with the given number of slots. -/
def ofCapacity (maxTimers : ℕ) : TimerManager := ⟨List.replicate maxTimers {}, 0⟩

/-- The slot that a timer with the number is in. -/
def holds (timerId : ℕ) (entry : TimerEntry) : Bool := entry.active && entry.timerId = timerId

/-- Replace the first entry that passes a test. -/
def replaceFirst (p : TimerEntry → Bool) (f : TimerEntry → TimerEntry) : List TimerEntry → List TimerEntry
  | [] => []
  | entry :: rest => if p entry then f entry :: rest else entry :: replaceFirst p f rest

/-- `start_timer`, with whether there was a slot. -/
def startTimer (timers : TimerManager) (timerId durationMs : ℕ) (periodic : Bool) : TimerManager × Bool :=
  let started : TimerEntry := ⟨timerId, durationMs, 0, periodic, true⟩
  if timers.entries.any (holds timerId) then
    ({ timers with entries := replaceFirst (holds timerId) (fun _ => started) timers.entries }, true)
  else if timers.entries.any fun entry => !entry.active then
    ({ timers with
        entries := replaceFirst (fun entry => !entry.active) (fun _ => started) timers.entries }, true)
  else (timers, false)

def reset (timers : TimerManager) : TimerManager :=
  { entries := timers.entries.map fun entry => { entry with active := false, elapsedMs := 0 }
    generation := (timers.generation + 1) % wrap32 }

def isTimerActive (timers : TimerManager) (timerId : ℕ) : Bool := timers.entries.any (holds timerId)

def activeCount (timers : TimerManager) : ℕ := timers.entries.countP (·.active)

def restoreTimer (timers : TimerManager) (timerId intervalMs elapsedMs : ℕ) (periodic : Bool) : TimerManager :=
  { timers with
    entries := replaceFirst (fun entry => !entry.active)
      (fun _ => ⟨timerId, intervalMs, elapsedMs, periodic, true⟩) timers.entries }

/-- Whether an entry expires when time advances. -/
def expires (deltaMs : ℕ) (entry : TimerEntry) : Bool :=
  entry.active && entry.intervalMs ≤ (entry.elapsedMs + deltaMs) % wrap64

/-- An entry after time has advanced. -/
def advanceEntry (deltaMs : ℕ) (entry : TimerEntry) : TimerEntry :=
  let elapsed := (entry.elapsedMs + deltaMs) % wrap64
  if !entry.active then entry
  else if !expires deltaMs entry then { entry with elapsedMs := elapsed }
  else if entry.periodic then
    { entry with elapsedMs := if 0 < entry.intervalMs then elapsed % entry.intervalMs else 0 }
  else { entry with elapsedMs := elapsed, active := false }

/-- The first loop of `tick`. -/
def advance (timers : TimerManager) (deltaMs : ℕ) : TimerManager :=
  { timers with entries := timers.entries.map (advanceEntry deltaMs) }

def expiredIds (timers : TimerManager) (deltaMs : ℕ) : List ℕ :=
  (timers.entries.filter (expires deltaMs)).map (·.timerId)

/-! ## Slots -/

/-- The numbers of the active timers, by their slots. -/
def activeIds (timers : TimerManager) : List ℕ := (timers.entries.filter (·.active)).map (·.timerId)

theorem isTimerActive_iff {timers : TimerManager} {timerId : ℕ} :
    timers.isTimerActive timerId = true ↔ timerId ∈ timers.activeIds := by
  unfold isTimerActive activeIds holds
  rw [List.any_eq_true, List.mem_map]
  constructor
  · rintro ⟨entry, hentry, h⟩
    rw [Bool.and_eq_true, decide_eq_true_eq] at h
    exact ⟨entry, List.mem_filter.mpr ⟨hentry, h.1⟩, h.2⟩
  · rintro ⟨entry, hentry, rfl⟩
    obtain ⟨hmem, hactive⟩ := List.mem_filter.mp hentry
    exact ⟨entry, hmem, by simp [hactive]⟩

variable (timers : TimerManager)

theorem activeIds_reset : timers.reset.activeIds = [] := by
  simp [activeIds, reset, List.filter_map, Function.comp_def]

theorem length_replaceFirst (p : TimerEntry → Bool) (f : TimerEntry → TimerEntry) (entries : List TimerEntry) :
    (replaceFirst p f entries).length = entries.length := by
  induction entries with
  | nil => rfl
  | cons entry rest ih =>
    unfold replaceFirst
    split
    · rfl
    · rw [List.length_cons, ih, List.length_cons]

theorem length_startTimer (timerId durationMs : ℕ) (periodic : Bool) :
    (timers.startTimer timerId durationMs periodic).1.entries.length = timers.entries.length := by
  unfold startTimer
  dsimp only
  split
  · exact length_replaceFirst _ _ _
  · split
    · exact length_replaceFirst _ _ _
    · rfl

theorem length_reset : timers.reset.entries.length = timers.entries.length :=
  List.length_map _

theorem mem_activeIds_replaceFirst {started : TimerEntry} (hstarted : started.active = true) (timerId : ℕ) :
    ∀ entries : List TimerEntry, (entries.any fun entry => !entry.active) = true →
      (timerId ∈ ((replaceFirst (fun entry => !entry.active) (fun _ => started) entries).filter
          (·.active)).map (·.timerId) ↔
        timerId = started.timerId ∨ timerId ∈ (entries.filter (·.active)).map (·.timerId))
  | [], h => by simp at h
  | entry :: rest, h => by
    unfold replaceFirst
    cases hactive : entry.active with
    | false => simp [hactive, hstarted, @eq_comm ℕ timerId started.timerId]
    | true =>
      have hrest : (rest.any fun entry => !entry.active) = true := by simpa [hactive] using h
      have ih := mem_activeIds_replaceFirst hstarted timerId rest hrest
      simp only [Bool.not_true, Bool.false_eq_true, if_false, List.filter_cons, hactive, if_true,
        List.map_cons, List.mem_cons, ih]
      tauto

theorem activeCount_replaceFirst {started : TimerEntry} (hstarted : started.active = true) :
    ∀ entries : List TimerEntry, (entries.any fun entry => !entry.active) = true →
      (replaceFirst (fun entry => !entry.active) (fun _ => started) entries).countP (·.active) =
        entries.countP (·.active) + 1
  | [], h => by simp at h
  | entry :: rest, h => by
    unfold replaceFirst
    cases hactive : entry.active with
    | false => simp [hactive, hstarted]
    | true =>
      have hrest : (rest.any fun entry => !entry.active) = true := by simpa [hactive] using h
      simp [hactive, activeCount_replaceFirst hstarted rest hrest]

theorem any_free_iff :
    (timers.entries.any fun entry => !entry.active) = true ↔ timers.activeCount < timers.entries.length := by
  unfold activeCount
  have hle : timers.entries.countP (·.active) ≤ timers.entries.length := List.countP_le_length
  have hall : timers.entries.countP (·.active) = timers.entries.length ↔
      ∀ entry ∈ timers.entries, entry.active = true := List.countP_eq_length
  rw [List.any_eq_true]
  constructor
  · rintro ⟨entry, hentry, hfree⟩
    refine Nat.lt_of_le_of_ne hle fun heq => ?_
    have hactive := hall.mp heq entry hentry
    simp [hactive] at hfree
  · intro hlt
    by_contra hnone
    refine absurd (hall.mpr fun entry hentry => ?_) (Nat.ne_of_lt hlt)
    by_contra hfree
    exact hnone ⟨entry, hentry, by simpa using hfree⟩

end TimerManager

end Fsmc.Backend
