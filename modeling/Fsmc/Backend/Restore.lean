/-
# Fsmc.Backend.Restore — a snapshot that is read into another machine.

The history that records built is built again by reading it. The deferred queue is not saved, so that the other
machine keeps its own; the state object gets its default value. Where this leaves the machines the same, the
other one goes on like the saved one under all later calls.
-/
import Fsmc.Backend.Alike
import Fsmc.Backend.HookBalance

namespace Fsmc.Backend

open Machine

variable {σ : Signature}

namespace Program

variable (P : Program σ)

/-! ## The history -/

/-- A history as records leave it. -/
structure Recorded (history : List (String × String)) : Prop where
  parents : (history.map (·.1)).Nodup
  filled : ∀ entry ∈ history, entry.1 ≠ "" ∧ entry.2 ≠ ""
  room : history.length ≤ P.historyCapacity
  without : P.hasHistory = false → history = []

/-- Reading the entries of a history records them anew. -/
def replayHistory (history : List (String × String)) : List (String × String) :=
  if P.hasHistory then history.foldl (fun h e => P.recordHistory h e.1 e.2) [] else []

theorem map_fst_modify (substate : String) : ∀ (history : List (String × String)) (i : ℕ),
    (history.modify i fun entry => (entry.1, substate)).map (·.1) = history.map (·.1)
  | [], _ => by simp
  | _ :: _, 0 => rfl
  | entry :: history, i + 1 => by
    rw [List.modify_succ_cons, List.map_cons, List.map_cons, map_fst_modify substate history i]

theorem filled_modify {substate : String} (hsubstate : substate ≠ "") : ∀ {history : List (String × String)}
    (i : ℕ), (∀ entry ∈ history, entry.1 ≠ "" ∧ entry.2 ≠ "") →
      ∀ entry ∈ history.modify i fun entry => (entry.1, substate), entry.1 ≠ "" ∧ entry.2 ≠ ""
  | [], _, h => by simp
  | first :: history, 0, h => by
    intro entry hentry
    rcases List.mem_cons.mp hentry with rfl | hentry
    · exact ⟨(h first List.mem_cons_self).1, hsubstate⟩
    · exact h entry (List.mem_cons_of_mem _ hentry)
  | first :: history, i + 1, h => by
    intro entry hentry
    rw [List.modify_succ_cons] at hentry
    rcases List.mem_cons.mp hentry with rfl | hentry
    · exact h _ List.mem_cons_self
    · exact filled_modify hsubstate i (fun e he => h e (List.mem_cons_of_mem _ he)) entry hentry

variable {P}

theorem recorded_nil : P.Recorded [] := ⟨List.nodup_nil, by simp, Nat.zero_le _, fun _ => rfl⟩

variable {history : List (String × String)}

theorem Recorded.record (h : P.Recorded history) (hhas : P.hasHistory = true)
    (parent substate : String) : P.Recorded (P.recordHistory history parent substate) := by
  have hwithout : ∀ history', P.hasHistory = false → history' = ([] : List (String × String)) := by
    intro _ hno
    rw [hhas] at hno
    cases hno
  unfold recordHistory
  split
  · exact h
  · rename_i hempty
    obtain ⟨hparent, hsubstate⟩ : parent ≠ "" ∧ substate ≠ "" := by simpa using hempty
    split
    -- the parent has an entry: its substate is replaced
    · refine ⟨?_, filled_modify hsubstate _ h.filled, ?_, hwithout _⟩
      · dsimp only
        rw [map_fst_modify]
        exact h.parents
      · dsimp only
        rw [List.length_modify]
        exact h.room
    · rename_i hnew
      split
      -- a new parent, for which there is room
      · rename_i hroom
        refine ⟨?_, ?_, ?_, hwithout _⟩
        · rw [List.map_append, List.nodup_append]
          refine ⟨h.parents, List.nodup_singleton _, ?_⟩
          intro a ha b hb heq
          obtain ⟨entry, hentry, rfl⟩ := List.mem_map.mp ha
          rw [List.map_singleton, List.mem_singleton] at hb
          exact hnew (List.any_eq_true.mpr ⟨entry, hentry, by simp [heq, hb]⟩)
        · intro entry hentry
          rcases List.mem_append.mp hentry with hentry | hentry
          · exact h.filled entry hentry
          · rw [List.mem_singleton.mp hentry]
            exact ⟨hparent, hsubstate⟩
        · rw [List.length_append, List.length_singleton]
          exact hroom
      · exact h

theorem recorded_foldl (hhas : P.hasHistory = true) (entries : List (String × String)) :
    ∀ {history : List (String × String)}, P.Recorded history →
      P.Recorded (entries.foldl (fun h e => P.recordHistory h e.1 e.2) history) := by
  induction entries with
  | nil => exact fun h => h
  | cons entry entries ih => exact fun h => ih (h.record hhas entry.1 entry.2)

theorem recorded_replayHistory (entries : List (String × String)) : P.Recorded (P.replayHistory entries) := by
  unfold replayHistory
  split
  · exact recorded_foldl ‹_› entries recorded_nil
  · exact recorded_nil

theorem foldl_recordHistory : ∀ (rest front : List (String × String)), P.Recorded (front ++ rest) →
    rest.foldl (fun h e => P.recordHistory h e.1 e.2) front = front ++ rest
  | [], front, _ => (List.append_nil front).symm
  | entry :: rest, front, h => by
    have hmem : entry ∈ front ++ entry :: rest := List.mem_append_right _ List.mem_cons_self
    obtain ⟨hparent, hsubstate⟩ := h.filled entry hmem
    -- the parents of a history are distinct, so that this one is not in the front
    have hnew : ¬ (front.any fun e => e.1 = entry.1) = true := by
      intro hany
      obtain ⟨e, he, heq⟩ := List.any_eq_true.mp hany
      have hnodup := h.parents
      rw [List.map_append, List.nodup_append] at hnodup
      exact hnodup.2.2 e.1 (List.mem_map_of_mem he) entry.1 (List.mem_map_of_mem List.mem_cons_self)
        (of_decide_eq_true heq)
    have hroom : front.length < P.historyCapacity := by
      have hlength := h.room
      rw [List.length_append, List.length_cons] at hlength
      omega
    have hrecord : P.recordHistory front entry.1 entry.2 = front ++ [entry] := by
      unfold recordHistory
      rw [if_neg (by simp [hparent, hsubstate]), if_neg hnew, if_pos hroom]
    rw [List.foldl_cons, hrecord]
    have hassoc : front ++ entry :: rest = (front ++ [entry]) ++ rest := by rw [List.append_assoc]; rfl
    rw [hassoc] at h ⊢
    exact foldl_recordHistory rest (front ++ [entry]) h

theorem Recorded.replayHistory_eq (h : P.Recorded history) :
    P.replayHistory history = history := by
  unfold replayHistory
  split
  · exact foldl_recordHistory history [] h
  · rename_i hno
    exact (h.without (Bool.not_eq_true _ ▸ hno)).symm

end Program

/-! ## Reachable machines -/

def TimerManager.setTimerDuration (timers : TimerManager) (timerId durationMs : ℕ) : TimerManager :=
  { timers with
    entries :=
      replaceFirst (holds timerId) (fun entry => { entry with intervalMs := durationMs }) timers.entries }

namespace Program

variable (P : Program σ) (L : Layout σ.Registers)

/-- The configurations that the member functions lead to. Two of them, `get_current_state_variant` and
`registers`, give access to members. -/
inductive Reachable : Machine σ → Prop
  | construct (initial : σ.State) (value : σ.Value) (reg : σ.Registers) (srv : σ.Services) :
      Reachable (P.construct initial value reg srv)
  | operate {m : Machine σ} (op : MachineOp σ) : Reachable m → Reachable (P.operate m op)
  | reset {m : Machine σ} (reg : σ.Registers) : Reachable m → Reachable (P.reset m reg)
  | access {m : Machine σ} (state : σ.State) (value : σ.Value) (reg : σ.Registers) : Reachable m →
      Reachable { m with state := state, value := value, reg := reg }
  | setTimerDuration {m : Machine σ} (timerId durationMs : ℕ) : Reachable m →
      Reachable { m with timers := m.timers.setTimerDuration timerId durationMs }
  | deserialize {m m' : Machine σ} {src : List UInt8} {bytesRead : ℕ} : Reachable m →
      P.deserialize L m src = some (m', bytesRead) → Reachable m'

/-- What holds of every reachable machine. -/
structure Sound (m : Machine σ) : Prop where
  history : P.Recorded m.history
  slots : m.timers.entries.length = P.timerCapacity
  bounded : m.timers.generation < wrap32

variable {P L}

theorem bounded_refreshTimers {timers : TimerManager} (h : timers.generation < wrap32) (s : σ.State) :
    (P.refreshTimers s timers).generation < wrap32 := by
  have hself : TimerManager.Alike 0 timers timers := ⟨rfl, rfl, h, (Nat.mod_eq_of_lt h).symm⟩
  exact (alike_refreshTimers hself s).bounded

variable {m : Machine σ}

theorem Sound.recordLeaving (h : P.Sound m) : P.Recorded (P.recordLeaving m).history := by
  unfold Program.recordLeaving
  split
  · exact recorded_foldl ‹_› _ h.history
  · exact h.history

theorem Sound.execute (h : P.Sound m) (event : Event σ) (input : σ.InPorts) (row : Row σ × ℕ) :
    P.Sound (P.execute m event input row) := by
  unfold Program.execute
  split
  · rename_i target action heffect
    refine ⟨?_, ?_, ?_⟩
    · rw [history_executeExternal]
      exact h.recordLeaving
    · rw [timers_executeExternal, length_refreshTimers]
      exact h.slots
    · rw [timers_executeExternal]
      exact bounded_refreshTimers h.bounded target
  · exact ⟨h.history, h.slots, h.bounded⟩

theorem stable_sound : P.Stable P.Sound where
  direct m event input h := by
    rcases P.dispatchDirect_eq m event input with ⟨row, _, heq⟩ | ⟨_, heq, _⟩
    · rw [heq]
      exact h.execute event input row
    · rw [heq]
      exact h
  activity _ _ h := ⟨h.history, h.slots, h.bounded⟩
  ports _ _ h := ⟨h.history, h.slots, h.bounded⟩
  deferred _ _ h := ⟨h.history, h.slots, h.bounded⟩
  residence _ _ h := ⟨h.history, h.slots, h.bounded⟩
  violation _ _ h := ⟨h.history, h.slots, h.bounded⟩
  advance m deltaMs h := by
    refine ⟨h.history, ?_, h.bounded⟩
    show (m.timers.entries.map (TimerManager.advanceEntry deltaMs)).length = P.timerCapacity
    rw [List.length_map]
    exact h.slots

theorem Sound.enterInitialState (h : P.Sound m) : P.Sound (P.enterInitialState m) := by
  refine ⟨?_, ?_, ?_⟩
  · have hhistory : (P.enterInitialState m).history = m.history :=
      P.performAll_frame (·.history) (fun _ _ _ _ => rfl) .enter
        (fun s => P.onEnter s (.ofType P.anonymous) default) (P.initialEnterCalls m.state) (withoutPorts m)
    rw [hhistory]
    exact h.history
  · rw [timers_enterInitialState, length_refreshTimers]
    exact h.slots
  · rw [timers_enterInitialState]
    exact bounded_refreshTimers h.bounded m.state

theorem Sound.overwrite (h : P.Sound m) (state : σ.State) (history : List (String × String))
    (timers : List TimerEntry) (residence : ℕ) (reg : σ.Registers) :
    P.Sound (P.overwrite m state history timers residence reg) := by
  refine ⟨recorded_replayHistory history, ?_, ?_⟩
  · exact (TimerManager.slots_restore timers _).trans ((TimerManager.length_reset _).trans h.slots)
  · have hgeneration := TimerManager.generation_restore timers m.timers.reset
    exact hgeneration.trans_lt (Nat.mod_lt _ (by decide))

theorem exists_overwrite {m m' : Machine σ} {src : List UInt8} {bytesRead : ℕ}
    (h : P.deserialize L m src = some (m', bytesRead)) :
    ∃ state history timers residence reg, m' = P.overwrite m state history timers residence reg := by
  unfold deserialize at h
  simp only [Option.bind_eq_bind, Option.bind_eq_some_iff] at h
  obtain ⟨⟨header, start⟩, -, _, -, _, -, _, -, ⟨history, bs⟩, -, ⟨timers, bs'⟩, -, ⟨registers, bs''⟩, -, _, -,
    state, -, h⟩ := h
  exact ⟨state, history, timers, header.residenceTimeMs, _, (congrArg Prod.fst (Option.some.inj h)).symm⟩

theorem Reachable.sound (h : P.Reachable L m) : P.Sound m := by
  induction h with
  | construct initial value reg srv =>
    have hbounded : 0 < wrap32 := by decide
    exact Sound.enterInitialState ⟨recorded_nil, List.length_replicate, hbounded⟩
  | operate op _ ih => exact stable_sound.operate ih op
  | reset reg _ ih => exact Sound.enterInitialState ⟨recorded_nil, ih.slots, ih.bounded⟩
  | access _ _ _ _ ih => exact ⟨ih.history, ih.slots, ih.bounded⟩
  | setTimerDuration timerId durationMs _ ih =>
    exact ⟨ih.history, (TimerManager.length_replaceFirst _ _ _).trans ih.slots, ih.bounded⟩
  | deserialize _ hread ih =>
    obtain ⟨state, history, timers, residence, reg, rfl⟩ := exists_overwrite hread
    exact ih.overwrite state history timers residence reg

/-! ## Going on like the saved machine -/

/-- What a caller sees of two machines is the same: the state object, the registers, the history, the deferred
events, the timers that expire in a tick, and the calls since they were `start` and `start'`. -/
structure SameView (P : Program σ) (start start' m m' : Machine σ) : Prop where
  state : m'.state = m.state
  value : m'.value = m.value
  reg : m'.reg = m.reg
  history : m'.history = m.history
  deferred : m'.deferred = m.deferred
  expiries : ∀ deltaMs, (P.tick m' deltaMs).2 = (P.tick m deltaMs).2
  calls : SameSince start.log start'.log m.log m'.log

/-- Two machines look the same after any calls. -/
def BehavesLike (P : Program σ) (m m' : Machine σ) : Prop :=
  ∀ ops : List (MachineOp σ), P.SameView m m' (ops.foldl P.operate m) (ops.foldl P.operate m')

variable (P L) in
/-- A snapshot that was written and read restores the behaviour, in a machine with the same services. -/
def SnapshotRestores : Prop :=
  ∀ (m other other' : Machine σ) (capacity written bytesRead : ℕ) (bytes : List UInt8),
    P.Reachable L m → P.Reachable L other → other.srv = m.srv →
      P.serialize L m capacity = some (bytes, written) →
        P.deserialize L other bytes = some (other', bytesRead) → P.BehavesLike m other'

theorem behavesLike_of_alike {d : ℕ} {m m' : Machine σ}
    (h : Alike d m.log m'.log (withoutPorts m) (withoutPorts m')) : P.BehavesLike m m' := by
  intro ops
  have hrun := Alike.run (P := P) ops h
  exact
    { state := hrun.state
      value := hrun.value
      reg := hrun.reg
      history := hrun.history
      deferred := hrun.deferred
      expiries := fun deltaMs => (hrun.tick deltaMs).2
      calls := hrun.log }

/-- A machine that a snapshot was read into is alike to the saved one, if it had the same deferred events. -/
theorem alike_overwrite {m other : Machine σ} (hm : P.Sound m) (hother : P.Sound other)
    (hvalue : m.value = P.fresh m.state) (hservices : other.srv = m.srv)
    (hdeferred : other.deferred = m.deferred) :
    ∃ d, Alike d m.log (P.overwrite other m.state m.history m.timers.activeEntries m.residence m.reg).log
      (withoutPorts m)
      (withoutPorts (P.overwrite other m.state m.history m.timers.activeEntries m.residence m.reg)) := by
  obtain ⟨d, htimers⟩ := TimerManager.exists_alike_restored (hother.slots.trans hm.slots.symm) hm.bounded
  have hhistory : P.replayHistory m.history = m.history := hm.history.replayHistory_eq
  refine ⟨d, ?_, htimers, ⟨[], (List.append_nil _).symm, (List.append_nil _).symm⟩⟩
  unfold withoutPorts overwrite
  unfold replayHistory at hhistory
  rw [hhistory, ← hvalue, hservices, hdeferred]

end Program

/-! ## A deferred event -/

/-- Machines over numbers with one byte as their register. -/
abbrev Signature.byte : Signature where
  State := ℕ
  EventType := ℕ
  Value := Unit
  Payload := Unit
  InPorts := Unit
  OutPorts := Unit
  Registers := UInt8
  Services := Unit

def byteLayout : Layout UInt8 where
  size := 1
  bytes := fun b => [b]
  ofBytes := fun bs => bs.headD 0
  length_bytes := fun _ => rfl
  ofBytes_bytes := fun _ => rfl

/-- In state 0, event 2 leads from 1 to 2 and is counted; event 3, which state 1 defers, leads back; and
`after_ms<10>` leads to 1. -/
def counting : Program Signature.byte where
  rows :=
    [⟨1, 2, fun _ _ _ _ _ _ _ => true,
        .external 2 fun _ _ _ x => (x.1, x.2.1, { x.2.2 with reg := x.2.2.reg + 1 })⟩,
      ⟨2, 3, fun _ _ _ _ _ _ _ => true, .external 1 fun _ _ _ x => x⟩,
      ⟨0, 1, fun _ _ _ _ _ _ _ => true, .external 1 fun _ _ _ x => x⟩]
  initial := 1
  parent := Program.parentOf
  depth := id
  depth_lt := Program.lt_of_parentOf
  name := fun s => toString s
  typeName := fun s => toString s
  fresh := fun _ => ()
  deferredEvents := fun s => if s = 1 then some [3] else none
  isTimed := Program.plainTimed.isTimed
  timing := Program.plainTimed.timing
  isTimed_of_timing := Program.plainTimed.isTimed_of_timing
  anonymous := 0
  deferredCapacity_pos := Program.plain.deferredCapacity_pos
  timerCapacity := 4

/-- The machine after calls. -/
def counted (ops : List (MachineOp Signature.byte)) : Machine Signature.byte :=
  ops.foldl counting.operate (counting.construct 1 () 0 ())

theorem reachable_counted (ops : List (MachineOp Signature.byte)) : counting.Reachable byteLayout (counted ops) := by
  have hrun : ∀ (ops : List (MachineOp Signature.byte)) (m : Machine Signature.byte),
      counting.Reachable byteLayout m → counting.Reachable byteLayout (ops.foldl counting.operate m) := by
    intro ops
    induction ops with
    | nil => exact fun _ h => h
    | cons op ops ih => exact fun m h => ih _ (.operate op h)
  have hstart : counting.Reachable byteLayout (counted []) :=
    Program.Reachable.construct (P := counting) 1 () 0 ()
  exact hrun ops (counted []) hstart

/-- Event 2 leads to state 2 and event 3 back; then event 3 is deferred and four milliseconds pass. -/
def savedOps : List (MachineOp Signature.byte) :=
  [.dispatch ⟨2, ()⟩ none, .dispatch ⟨3, ()⟩ none, .dispatch ⟨3, ()⟩ none, .tick 4]

theorem fits_saved : Fits counting byteLayout (counted savedOps) where
  state := by decide +kernel
  states := by decide +kernel
  residence := by decide +kernel
  history := by decide +kernel
  texts := by decide +kernel
  chars := by decide +kernel
  timers := by decide +kernel
  timer := by decide +kernel
  registers := by decide

theorem serialize_saved : ¬ 1000 < Program.serializedSize byteLayout (counted savedOps) := by decide +kernel

end Fsmc.Backend
