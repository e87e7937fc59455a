/-
# Fsmc.Backend.TimerTicks — two ticks and the tick of their sum.

A tick reports every timer at most once. Two ticks leave the timers as the tick of their sum does, and report the
same expirations, with a second one for every periodic timer that expires in both.
-/
import Mathlib.Data.List.Perm.Basic
import Mathlib.Data.List.Flatten
import Fsmc.Backend.Timer

namespace Fsmc.Backend.TimerManager

variable {a b : ℕ} {entry : TimerEntry} {timers : TimerManager}

/-- The second loop of `tick`: the callbacks, until one of them resets the timers. -/
def dispatchExpired (onExpired : TimerManager → ℕ → TimerManager) (startGen : ℕ) :
    List ℕ → TimerManager → List ℕ × TimerManager
  | [], timers => ([], timers)
  | timerId :: ids, timers =>
    if timers.generation ≠ startGen then ([], timers)
    else
      let rest := dispatchExpired onExpired startGen ids (onExpired timers timerId)
      (timerId :: rest.1, rest.2)

/-- `tick`, with the timers that are reported. -/
def tick (onExpired : TimerManager → ℕ → TimerManager) (timers : TimerManager) (deltaMs : ℕ) : List ℕ × TimerManager :=
  dispatchExpired onExpired timers.generation (timers.expiredIds deltaMs) (timers.advance deltaMs)

/-- A callback that does not touch the manager. -/
def untouched (timers : TimerManager) (_ : ℕ) : TimerManager := timers

theorem dispatchExpired_untouched (ids : List ℕ) :
    dispatchExpired untouched timers.generation ids timers = (ids, timers) := by
  induction ids with
  | nil => rfl
  | cons timerId ids ih =>
    rw [dispatchExpired, if_neg (not_not_intro rfl)]
    show (timerId :: (dispatchExpired untouched timers.generation ids timers).1,
      (dispatchExpired untouched timers.generation ids timers).2) = _
    rw [ih]

theorem tick_untouched (timers : TimerManager) (deltaMs : ℕ) :
    tick untouched timers deltaMs = (timers.expiredIds deltaMs, timers.advance deltaMs) :=
  @dispatchExpired_untouched (timers.advance deltaMs) _

/-! ## One timer -/

/-- What a tick reports of a timer. -/
def reported (deltaMs : ℕ) (entry : TimerEntry) : List ℕ := if expires deltaMs entry then [entry.timerId] else []

theorem expiredIds_eq_flatMap (timers : TimerManager) (deltaMs : ℕ) :
    timers.expiredIds deltaMs = timers.entries.flatMap (reported deltaMs) := by
  unfold expiredIds
  induction timers.entries with
  | nil => rfl
  | cons entry entries ih =>
    rw [List.filter_cons, List.flatMap_cons, reported]
    split
    · rw [List.map_cons, ih]
      rfl
    · exact ih

/-- A periodic timer that expires after `a`, and again after `b` more. -/
def expiresTwice (a b : ℕ) (entry : TimerEntry) : Bool :=
  entry.active && entry.periodic &&
    decide (entry.intervalMs ≤ entry.elapsedMs + a ∧
      entry.intervalMs ≤ (entry.elapsedMs + a) % entry.intervalMs + b)

/-- Nothing wraps while an active timer advances by both amounts. -/
def Fits (a b : ℕ) (entry : TimerEntry) : Prop := entry.active = true → entry.elapsedMs + (a + b) < wrap64

variable {d : ℕ}

theorem expires_eq (hactive : entry.active = true) (hfits : entry.elapsedMs + d < wrap64) :
    expires d entry = decide (entry.intervalMs ≤ entry.elapsedMs + d) := by
  rw [expires, hactive, Nat.mod_eq_of_lt hfits, Bool.true_and]

theorem advanceEntry_inactive (d : ℕ) (hactive : entry.active = false) : advanceEntry d entry = entry := by
  rw [advanceEntry, hactive]
  rfl

theorem advanceEntry_waiting (hactive : entry.active = true) (hfits : entry.elapsedMs + d < wrap64)
    (h : entry.elapsedMs + d < entry.intervalMs) :
    advanceEntry d entry = { entry with elapsedMs := entry.elapsedMs + d } := by
  have hexpires : expires d entry = false := by
    rw [expires_eq hactive hfits]
    exact decide_eq_false (by omega)
  rw [advanceEntry, hactive, hexpires, Nat.mod_eq_of_lt hfits]
  rfl

theorem advanceEntry_once (hactive : entry.active = true) (hfits : entry.elapsedMs + d < wrap64)
    (hperiodic : entry.periodic = false) (h : entry.intervalMs ≤ entry.elapsedMs + d) :
    advanceEntry d entry = { entry with elapsedMs := entry.elapsedMs + d, active := false } := by
  have hexpires : expires d entry = true := by
    rw [expires_eq hactive hfits]
    exact decide_eq_true h
  rw [advanceEntry, hactive, hexpires, hperiodic, Nat.mod_eq_of_lt hfits]
  rfl

theorem advanceEntry_periodic (hactive : entry.active = true) (hfits : entry.elapsedMs + d < wrap64)
    (hperiodic : entry.periodic = true) (h : entry.intervalMs ≤ entry.elapsedMs + d) :
    advanceEntry d entry =
      { entry with
        elapsedMs := if 0 < entry.intervalMs then (entry.elapsedMs + d) % entry.intervalMs else 0 } := by
  have hexpires : expires d entry = true := by
    rw [expires_eq hactive hfits]
    exact decide_eq_true h
  rw [advanceEntry, hactive, hexpires, hperiodic, Nat.mod_eq_of_lt hfits]
  rfl

theorem reported_append (hfits : Fits a b entry) : reported a entry ++ reported b (advanceEntry a entry) =
      reported (a + b) entry ++ if expiresTwice a b entry then [entry.timerId] else [] := by
  cases hactive : entry.active with
  | false => simp [reported, expires, expiresTwice, advanceEntry_inactive, hactive]
  | true =>
    have hsum := hfits hactive
    have ha : entry.elapsedMs + a < wrap64 := by omega
    unfold reported expiresTwice
    rw [expires_eq hactive ha, expires_eq hactive hsum, hactive]
    by_cases hfirst : entry.intervalMs ≤ entry.elapsedMs + a
    · have hboth : entry.intervalMs ≤ entry.elapsedMs + (a + b) := by omega
      rw [if_pos (decide_eq_true hfirst), if_pos (decide_eq_true hboth)]
      refine congrArg _ ?_
      cases hperiodic : entry.periodic with
      | false => simp [advanceEntry_once hactive ha hperiodic hfirst, expires]
      | true =>
        rw [advanceEntry_periodic hactive ha hperiodic hfirst]
        by_cases hzero : 0 < entry.intervalMs
        · have hlt := Nat.mod_lt (entry.elapsedMs + a) hzero
          have hrest : (entry.elapsedMs + a) % entry.intervalMs + b < wrap64 := by
            have hle := Nat.mod_le (entry.elapsedMs + a) entry.intervalMs
            omega
          simp [expires, hactive, hzero, Nat.mod_eq_of_lt hrest, hfirst]
        · have heq : entry.intervalMs = 0 := by omega
          simp [expires, hactive, heq]
    · -- the first tick reports nothing, so both ticks do together what the second one does
      have hwait : entry.elapsedMs + a < entry.intervalMs := by omega
      rw [advanceEntry_waiting hactive ha hwait]
      simp [expires, hactive, hfirst, Nat.add_assoc, Nat.mod_eq_of_lt hsum]

/-- A timer is active after two ticks if and only if it is after the tick of their sum, with the same time. -/
theorem advanceEntry_advanceEntry (hfits : Fits a b entry) :
    (advanceEntry b (advanceEntry a entry)).active = (advanceEntry (a + b) entry).active ∧
      ((advanceEntry (a + b) entry).active = true →
        advanceEntry b (advanceEntry a entry) = advanceEntry (a + b) entry) := by
  cases hactive : entry.active with
  | false =>
    rw [advanceEntry_inactive a hactive, advanceEntry_inactive b hactive, advanceEntry_inactive _ hactive]
    exact ⟨rfl, fun _ => rfl⟩
  | true =>
    have hsum := hfits hactive
    have ha : entry.elapsedMs + a < wrap64 := by omega
    by_cases hfirst : entry.intervalMs ≤ entry.elapsedMs + a
    · have hboth : entry.intervalMs ≤ entry.elapsedMs + (a + b) := by omega
      cases hperiodic : entry.periodic with
      | false =>
        rw [advanceEntry_once hactive ha hperiodic hfirst, advanceEntry_once hactive hsum hperiodic hboth,
          advanceEntry_inactive b rfl]
        exact ⟨rfl, nofun⟩
      | true =>
        have heq : advanceEntry b (advanceEntry a entry) = advanceEntry (a + b) entry := by
          rw [advanceEntry_periodic hactive ha hperiodic hfirst,
            advanceEntry_periodic hactive hsum hperiodic hboth]
          by_cases hzero : 0 < entry.intervalMs
          · have hlt := Nat.mod_lt (entry.elapsedMs + a) hzero
            have hle := Nat.mod_le (entry.elapsedMs + a) entry.intervalMs
            have hrest : (entry.elapsedMs + a) % entry.intervalMs + b < wrap64 := by omega
            have hmod : ((entry.elapsedMs + a) % entry.intervalMs + b) % entry.intervalMs =
                (entry.elapsedMs + (a + b)) % entry.intervalMs := by
              rw [Nat.mod_add_mod, Nat.add_assoc]
            rw [if_pos hzero, if_pos hzero, ← hmod]
            by_cases hagain : entry.intervalMs ≤ (entry.elapsedMs + a) % entry.intervalMs + b
            · refine (@advanceEntry_periodic { entry with elapsedMs := (entry.elapsedMs + a) % entry.intervalMs } b
                hactive hrest hperiodic hagain).trans ?_
              rw [if_pos hzero]
            · have hshort : (entry.elapsedMs + a) % entry.intervalMs + b < entry.intervalMs := by omega
              refine (@advanceEntry_waiting { entry with elapsedMs := (entry.elapsedMs + a) % entry.intervalMs } b
                hactive hrest hshort).trans ?_
              rw [Nat.mod_eq_of_lt hshort]
          · have hb : 0 + b < wrap64 := by omega
            have hall : entry.intervalMs ≤ 0 + b := by omega
            rw [if_neg hzero, if_neg hzero]
            refine (@advanceEntry_periodic { entry with elapsedMs := 0 } b hactive hb hperiodic hall).trans ?_
            rw [if_neg hzero]
        rw [heq]
        exact ⟨rfl, fun _ => rfl⟩
    · have hwait : entry.elapsedMs + a < entry.intervalMs := by omega
      have heq : advanceEntry b (advanceEntry a entry) = advanceEntry (a + b) entry := by
        rw [advanceEntry_waiting hactive ha hwait]
        simp [advanceEntry, expires, hactive, Nat.add_assoc]
      rw [heq]
      exact ⟨rfl, fun _ => rfl⟩

/-! ## All timers -/

/-- The periodic timers that expire in both of two ticks. -/
def expiringTwice (timers : TimerManager) (a b : ℕ) : List ℕ :=
  (timers.entries.filter (expiresTwice a b)).map (·.timerId)

def running (timers : TimerManager) : List TimerEntry := timers.entries.filter (·.active)

theorem running_advance_advance (hfits : ∀ entry ∈ timers.entries, Fits a b entry) :
    ((timers.advance a).advance b).running = (timers.advance (a + b)).running := by
  obtain ⟨entries, generation⟩ := timers
  show ((entries.map (advanceEntry a)).map (advanceEntry b)).filter (·.active) =
    (entries.map (advanceEntry (a + b))).filter (·.active)
  induction entries with
  | nil => rfl
  | cons entry entries ih =>
    have hentry := advanceEntry_advanceEntry (hfits entry List.mem_cons_self)
    have hrest := ih fun e he => hfits e (List.mem_cons_of_mem _ he)
    rw [List.map_cons, List.map_cons, List.map_cons, List.filter_cons, List.filter_cons, hrest, hentry.1]
    split
    · next h => rw [hentry.2 h]
    · rfl

theorem expiredIds_append_perm (hfits : ∀ entry ∈ timers.entries, Fits a b entry) :
    (timers.expiredIds a ++ (timers.advance a).expiredIds b).Perm
      (timers.expiredIds (a + b) ++ timers.expiringTwice a b) := by
  have htwice : timers.expiringTwice a b =
      timers.entries.flatMap fun entry => if expiresTwice a b entry then [entry.timerId] else [] := by
    unfold expiringTwice
    induction timers.entries with
    | nil => rfl
    | cons entry entries ih =>
      rw [List.filter_cons, List.flatMap_cons]
      split
      · rw [List.map_cons, ih]
        rfl
      · exact ih
  have hsecond : (timers.advance a).expiredIds b =
      timers.entries.flatMap fun entry => reported b (advanceEntry a entry) := by
    rw [expiredIds_eq_flatMap]
    exact List.flatMap_map ..
  rw [hsecond, expiredIds_eq_flatMap, expiredIds_eq_flatMap, htwice]
  refine (List.flatMap_append_perm _ _ _).trans (List.Perm.trans (List.Perm.of_eq ?_)
    (List.flatMap_append_perm _ _ _).symm)
  exact List.flatMap_congr fun entry hentry => reported_append (hfits entry hentry)

/-- **Ticking is additive** up to the reports of a periodic timer that expires in both ticks: the tick of the sum
reports it once. -/
theorem tick_tick (timers : TimerManager) (a b : ℕ) (hfits : ∀ entry ∈ timers.entries, Fits a b entry) :
    ((timers.tick untouched a).1 ++ ((timers.tick untouched a).2.tick untouched b).1).Perm
        ((timers.tick untouched (a + b)).1 ++ timers.expiringTwice a b) ∧
      ((timers.tick untouched a).2.tick untouched b).2.running = (timers.tick untouched (a + b)).2.running ∧
      (((timers.tick untouched a).1 ++ ((timers.tick untouched a).2.tick untouched b).1).Perm
          (timers.tick untouched (a + b)).1 ↔
        ∀ entry ∈ timers.entries, expiresTwice a b entry = false) := by
  simp only [tick_untouched]
  have hperm := expiredIds_append_perm hfits
  refine ⟨hperm, running_advance_advance hfits, fun h => ?_, fun h => ?_⟩
  · have hlength := (h.symm.trans hperm).length_eq
    rw [List.length_append, expiringTwice, List.length_map] at hlength
    have hnone : timers.entries.filter (expiresTwice a b) = [] := List.length_eq_zero_iff.mp (by omega)
    exact fun entry hentry => eq_false_of_ne_true (List.filter_eq_nil_iff.mp hnone entry hentry)
  · have hnone : timers.entries.filter (expiresTwice a b) = [] :=
      List.filter_eq_nil_iff.mpr fun entry hentry => ne_true_of_eq_false (h entry hentry)
    rwa [expiringTwice, hnone, List.map_nil, List.append_nil] at hperm

/-- A periodic timer of ten milliseconds, one that is not, and a free slot. -/
def metronome : TimerManager := ⟨[⟨1, 10, 5, true, true⟩, ⟨2, 12, 0, false, true⟩, {}], 0⟩

theorem metronome_tick_tick :
    ((metronome.tick untouched 7).1 ++ ((metronome.tick untouched 7).2.tick untouched 9).1).Perm [1, 2, 1] ∧
      ((metronome.tick untouched 7).2.tick untouched 9).2.running = (metronome.tick untouched 16).2.running := by
  obtain ⟨hperm, hrunning, -⟩ := tick_tick metronome 7 9 (by unfold Fits; decide)
  exact ⟨hperm, hrunning⟩

/-- **One tick reports a timer once**, however many of its intervals have passed. -/
theorem metronome_reports_differ :
    ¬((metronome.tick untouched 7).1 ++ ((metronome.tick untouched 7).2.tick untouched 9).1).Perm
      (metronome.tick untouched 16).1 := by
  intro h
  exact absurd h.length_eq (by decide)

end Fsmc.Backend.TimerManager
