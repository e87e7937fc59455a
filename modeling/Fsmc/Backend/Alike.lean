/-
# Fsmc.Backend.Alike — machines that go on in the same way.

Two machines are alike if they differ only in the slots and the generation of their timers, in the last
violation, and in what their logs held before. Every part of an operation keeps this: it makes the same calls
on both. A machine that a snapshot was read into is alike to the one it was taken of, if the snapshot leaves out
nothing that the two differ in: the deferred queue and the value of the state object.
-/
import Fsmc.Backend.RestoredTimers

namespace Fsmc.Backend

open Machine

variable {σ : Signature}

/-! ## Machines that are alike -/

/-- The same entries have followed what was there before. -/
def SameSince (base base' log log' : List (Entry σ)) : Prop :=
  ∃ since, log = base ++ since ∧ log' = base' ++ since

theorem SameSince.append {base base' log log' : List (Entry σ)} (h : SameSince base base' log log')
    (entries : List (Entry σ)) : SameSince base base' (log ++ entries) (log' ++ entries) := by
  obtain ⟨since, rfl, rfl⟩ := h
  exact ⟨since ++ entries, List.append_assoc .., List.append_assoc ..⟩

/-- Two machines that will make the same calls. -/
structure Alike (d : ℕ) (base base' : List (Entry σ)) (m m' : Machine σ) : Prop where
  same : m' = { m with timers := m'.timers, log := m'.log, violation := m'.violation }
  timers : TimerManager.Alike d m.timers m'.timers
  log : SameSince base base' m.log m'.log

namespace Alike

variable {d : ℕ} {base base' : List (Entry σ)} {m m' : Machine σ}

theorem exists_eq (h : Alike d base base' m m') :
    ∃ timers log violation, m' = { m with timers := timers, log := log, violation := violation } :=
  ⟨_, _, _, h.same⟩

theorem state (h : Alike d base base' m m') : m'.state = m.state := by rw [h.same]

theorem value (h : Alike d base base' m m') : m'.value = m.value := by rw [h.same]

theorem reg (h : Alike d base base' m m') : m'.reg = m.reg := by rw [h.same]

theorem history (h : Alike d base base' m m') : m'.history = m.history := by rw [h.same]

theorem deferred (h : Alike d base base' m m') : m'.deferred = m.deferred := by rw [h.same]

theorem ports (h : Alike d base base' m m') (out : σ.OutPorts) :
    Alike d base base' { m with out := out } { m' with out := out } := by
  obtain ⟨timers, log, violation, rfl⟩ := h.exists_eq
  exact ⟨rfl, h.timers, h.log⟩

theorem setDeferred (h : Alike d base base' m m') (queue : List (Event σ)) :
    Alike d base base' { m with deferred := queue } { m' with deferred := queue } := by
  obtain ⟨timers, log, violation, rfl⟩ := h.exists_eq
  exact ⟨rfl, h.timers, h.log⟩

theorem perform (h : Alike d base base' m m') (call : Call σ) (hook : Hook σ) (value : σ.Value) :
    Alike d base base' (m.perform call hook value).1 (m'.perform call hook value).1 ∧
      (m'.perform call hook value).2 = (m.perform call hook value).2 := by
  obtain ⟨timers, log, violation, rfl⟩ := h.exists_eq
  exact ⟨⟨rfl, h.timers, h.log.append _⟩, rfl⟩

theorem performCurrent (h : Alike d base base' m m') (call : Call σ) (hook : Hook σ) :
    Alike d base base' (m.performCurrent call hook) (m'.performCurrent call hook) := by
  obtain ⟨timers, log, violation, rfl⟩ := h.exists_eq
  exact ⟨rfl, h.timers, h.log.append _⟩

variable {P : Program σ}

theorem performAll (call : σ.State → Call σ) (hook : σ.State → Hook σ) : ∀ (states : List σ.State)
    {m m' : Machine σ}, Alike d base base' m m' →
      Alike d base base' (P.performAll call hook m states) (P.performAll call hook m' states)
  | [], _, _, h => h
  | s :: states, _, _, h => performAll call hook states (h.perform (call s) (hook s) (P.fresh s)).1

theorem exitStates (h : Alike d base base' m m') (event : Event σ) (input : σ.InPorts) (target : σ.State) :
    Alike d base base' (P.exitStates m event input target) (P.exitStates m' event input target) := by
  unfold Program.exitStates
  rw [h.state]
  exact performAll _ _ _ (h.performCurrent _ _)

theorem enterStates (h : Alike d base base' m m') (event : Event σ) (input : σ.InPorts) (source : σ.State) :
    Alike d base base' (P.enterStates m event input source) (P.enterStates m' event input source) := by
  unfold Program.enterStates
  rw [h.state]
  exact (performAll _ _ _ h).performCurrent _ _

theorem setCurrentState (h : Alike d base base' m m') (s : σ.State) (value : σ.Value) :
    Alike d base base' (P.setCurrentState m s value) (P.setCurrentState m' s value) := by
  obtain ⟨timers, log, violation, rfl⟩ := h.exists_eq
  exact ⟨rfl, Program.alike_refreshTimers h.timers s, h.log.append _⟩

theorem recordLeaving (h : Alike d base base' m m') :
    Alike d base base' (P.recordLeaving m) (P.recordLeaving m') := by
  obtain ⟨timers, log, violation, rfl⟩ := h.exists_eq
  unfold Program.recordLeaving
  split <;> exact ⟨rfl, h.timers, h.log⟩

theorem actBetween (h : Alike d base base' m m') (index : ℕ) (target : σ.State)
    (action : σ.Value × σ.Value × Data σ → σ.Value × σ.Value × Data σ) :
    Alike d base base' (P.actBetween m index target action).1 (P.actBetween m' index target action).1 ∧
      (P.actBetween m' index target action).2 = (P.actBetween m index target action).2 := by
  obtain ⟨timers, log, violation, rfl⟩ := h.exists_eq
  exact ⟨⟨rfl, h.timers, h.log.append _⟩, rfl⟩

theorem execute (h : Alike d base base' m m') (event : Event σ) (input : σ.InPorts) (row : Row σ × ℕ) :
    Alike d base base' (P.execute m event input row) (P.execute m' event input row) := by
  unfold Program.execute
  rw [h.state]
  split
  · rename_i target action heffect
    -- the row is executed on machines that stay alike, and leaves the same object for the target
    have hleft := (h.recordLeaving (P := P)).exitStates (P := P) event input target
    obtain ⟨hacted, hvalue⟩ := hleft.actBetween (P := P) row.2 target (action event input m.state)
    unfold Program.executeExternal
    dsimp only
    rw [hvalue, h.state]
    exact (hacted.setCurrentState target _).enterStates event input m.state
  · exact h.performCurrent _ _

/-! ## Dispatches -/

theorem selected (h : Alike d base base' m m') (event : Event σ) (input : σ.InPorts) :
    P.selected m' event input = P.selected m event input := by
  obtain ⟨timers, log, violation, rfl⟩ := h.exists_eq
  rfl

theorem dispatchDirect (h : Alike d base base' m m') (event : Event σ) (input : σ.InPorts) :
    Alike d base base' (P.dispatchDirect m event input).1 (P.dispatchDirect m' event input).1 ∧
      (P.dispatchDirect m' event input).2 = (P.dispatchDirect m event input).2 := by
  unfold Program.dispatchDirect
  rw [h.selected, h.state]
  split
  · exact ⟨h.execute event input _, rfl⟩
  · split <;> exact ⟨h, rfl⟩

theorem replayOne (input : σ.InPorts) : ∀ (queue before : List (Event σ)) {m m' : Machine σ},
    Alike d base base' m m' →
      (P.replayOne input m before queue = none ∧ P.replayOne input m' before queue = none) ∨
        ∃ r r', P.replayOne input m before queue = some r ∧ P.replayOne input m' before queue = some r' ∧
          Alike d base base' r r'
  | [], _, _, _, _ => Or.inl ⟨rfl, rfl⟩
  | event :: rest, before, m, m', h => by
    obtain ⟨hdirect, hstatus⟩ := h.dispatchDirect (P := P) event input
    unfold Program.replayOne
    dsimp only
    rw [hstatus]
    split
    · exact Or.inr ⟨_, _, rfl, rfl, hdirect.setDeferred _⟩
    · exact replayOne input rest _ hdirect

theorem processDeferred (input : σ.InPorts) : ∀ (n : ℕ) {m m' : Machine σ}, Alike d base base' m m' →
    Alike d base base' (P.processDeferred input n m) (P.processDeferred input n m')
  | 0, _, _, h => h
  | n + 1, m, m', h => by
    unfold Program.processDeferred
    rw [h.deferred]
    rcases replayOne (P := P) input m.deferred [] h with ⟨hnone, hnone'⟩ | ⟨r, r', hsome, hsome', halike⟩
    · rw [hnone, hnone']
      exact h
    · rw [hsome, hsome']
      exact processDeferred input n halike

theorem replay (h : Alike d base base' m m') (input : σ.InPorts) :
    Alike d base base' (if P.hasDeferred then P.processDeferred input m.deferred.length m else m)
      (if P.hasDeferred then P.processDeferred input m'.deferred.length m' else m') := by
  rw [h.deferred]
  split
  · exact processDeferred input _ h
  · exact h

theorem deferEvent (h : Alike d base base' m m') (event : Event σ) :
    Alike d base base' (P.deferEvent m event) (P.deferEvent m' event) := by
  unfold Program.deferEvent
  rw [h.deferred]
  split
  · exact h.setDeferred _
  · exact h

theorem dispatch (h : Alike d base base' m m') (event : Event σ) (input : σ.InPorts) :
    Alike d base base' (P.dispatch m event input).1 (P.dispatch m' event input).1 := by
  obtain ⟨hdirect, hstatus⟩ := h.dispatchDirect (P := P) event input
  unfold Program.dispatch
  dsimp only
  rw [hstatus]
  cases (P.dispatchDirect m event input).2 with
  | unhandled =>
    dsimp only
    rw [hdirect.state]
    split
    · exact hdirect.deferEvent event
    · exact hdirect
  | success =>
    have hreplay := hdirect.replay (P := P) input
    dsimp only
    split
    · rename_i hdeferred
      rw [if_pos hdeferred, if_pos hdeferred] at hreplay
      exact hreplay
    · exact hdirect
  | deferred => exact hdirect
  | guardRejected => exact hdirect

theorem step (h : Alike d base base' m m') (input : σ.InPorts) :
    Alike d base base' (P.step m input).1 (P.step m' input).1 := by
  have hactive := h.performCurrent (.activity m.state) (P.doActivity m.state input)
  obtain ⟨hdirect, hstatus⟩ := hactive.dispatchDirect (P := P) (.ofType P.anonymous) input
  unfold Program.step
  rw [h.state]
  dsimp only
  rw [hstatus]
  split
  · exact hdirect.replay input
  · exact hdirect

/-! ## Ticks -/

theorem beforeExpiry (h : Alike d base base' (Program.withoutPorts m) (Program.withoutPorts m')) (deltaMs : ℕ) :
    Alike d base base' (P.beforeExpiry m deltaMs) (P.beforeExpiry m' deltaMs) := by
  -- the ports are replaced before anything is called, so that they need not agree
  obtain ⟨out, timers, log, violation, rfl⟩ : ∃ out timers log violation,
      m' = { m with out := out, timers := timers, log := log, violation := violation } := by
    refine ⟨m'.out, m'.timers, m'.log, m'.violation, ?_⟩
    exact congrArg (fun x : Machine σ => { x with out := m'.out }) h.same
  unfold Program.beforeExpiry
  dsimp only
  split <;> exact ⟨rfl, h.timers, h.log.append _⟩

theorem advanceTimers (h : Alike d base base' m m') (deltaMs : ℕ) :
    Alike d base base' (Program.advanceTimers m deltaMs) (Program.advanceTimers m' deltaMs) := by
  obtain ⟨timers, log, violation, rfl⟩ := h.exists_eq
  exact ⟨rfl, h.timers.advance deltaMs, h.log⟩

theorem dispatchTimedTimer (h : Alike d base base' m m') (timerId : ℕ) :
    Alike d base base' (P.dispatchTimedTimer m timerId) (P.dispatchTimedTimer m' timerId) := by
  unfold Program.dispatchTimedTimer
  split
  · exact (h.ports default).dispatch _ _
  · exact h

theorem fireExpired {start start' : Machine σ} (hstart : Alike d base base' start start') :
    ∀ (ids : List ℕ) {m m' : Machine σ}, Alike d base base' m m' →
      Alike d base base' (P.fireExpired start.timers.generation ids m).1
          (P.fireExpired start'.timers.generation ids m').1 ∧
        (P.fireExpired start'.timers.generation ids m').2 = (P.fireExpired start.timers.generation ids m).2
  | [], _, _, h => ⟨h, rfl⟩
  | timerId :: rest, m, m', h => by
    have hgeneration := h.timers.generation_eq_iff hstart.timers
    have hrest := fireExpired hstart rest (h.dispatchTimedTimer (P := P) timerId)
    unfold Program.fireExpired
    -- a transition resets the timers of both machines or of neither
    by_cases hsame : m.timers.generation = start.timers.generation
    · rw [if_neg (not_not.mpr hsame), if_neg (not_not.mpr (hgeneration.mpr hsame))]
      exact ⟨hrest.1, congrArg (timerId :: ·) hrest.2⟩
    · rw [if_pos hsame, if_pos fun heq => hsame (hgeneration.mp heq)]
      exact ⟨h, rfl⟩

theorem checkInvariants (h : Alike d base base' m m') :
    Alike d base base' (P.checkInvariants m) (P.checkInvariants m') := by
  obtain ⟨timers, log, violation, rfl⟩ := h.exists_eq
  unfold Program.checkInvariants
  dsimp only
  split
  · exact ⟨rfl, h.timers, h.log⟩
  · split <;> exact ⟨rfl, h.timers, h.log⟩

theorem tick (h : Alike d base base' (Program.withoutPorts m) (Program.withoutPorts m')) (deltaMs : ℕ) :
    Alike d base base' (P.tick m deltaMs).1 (P.tick m' deltaMs).1 ∧
      (P.tick m' deltaMs).2 = (P.tick m deltaMs).2 := by
  have hactive := h.beforeExpiry (P := P) deltaMs
  have hexpired : (P.beforeExpiry m' deltaMs).timers.expiredIds deltaMs =
      (P.beforeExpiry m deltaMs).timers.expiredIds deltaMs := by
    rw [TimerManager.expiredIds_eq, TimerManager.expiredIds_eq, hactive.timers.active]
  obtain ⟨hfired, hids⟩ := fireExpired (P := P) hactive
    ((P.beforeExpiry m deltaMs).timers.expiredIds deltaMs) (hactive.advanceTimers deltaMs)
  unfold Program.tick
  dsimp only
  rw [hexpired]
  refine ⟨?_, hids⟩
  split
  · exact hfired.checkInvariants
  · exact hfired

theorem operate (h : Alike d base base' (Program.withoutPorts m) (Program.withoutPorts m')) (op : MachineOp σ) :
    Alike d base base' (P.operate m op) (P.operate m' op) := by
  cases op with
  | dispatch event ports => exact (h.ports _).dispatch event _
  | step ports => exact (h.ports _).step _
  | tick deltaMs => exact (h.tick deltaMs).1

theorem run (ops : List (MachineOp σ)) : ∀ {m m' : Machine σ},
    Alike d base base' (Program.withoutPorts m) (Program.withoutPorts m') →
      Alike d base base' (Program.withoutPorts (ops.foldl P.operate m))
        (Program.withoutPorts (ops.foldl P.operate m')) := by
  induction ops with
  | nil => exact fun h => h
  | cons op ops ih => exact fun h => ih ((h.operate op).ports default)

end Alike

end Fsmc.Backend
