/-
# Fsmc.Backend.RestoredTimers — timers that are active alike.

A snapshot keeps the active timers and neither their slots nor the generation. Two managers with the same
active timers, in the same order, and as many slots stay so: time advances them alike, and a reset frees all
slots, so that arming then takes the same ones. Their generations keep their distance.
-/
import Fsmc.Backend.Snapshot
import Fsmc.Backend.TimerArming
import Mathlib.Data.Nat.ModEq

namespace Fsmc.Backend

namespace TimerManager

variable {timers timers' : TimerManager} {d : ℕ}

/-- The same active timers; the generations are `d` apart. -/
structure Alike (d : ℕ) (timers timers' : TimerManager) : Prop where
  slots : timers'.entries.length = timers.entries.length
  active : timers'.activeEntries = timers.activeEntries
  bounded : timers.generation < wrap32
  generation : timers'.generation = (timers.generation + d) % wrap32

theorem Alike.generation_eq_iff {other other' : TimerManager} (h : Alike d timers timers')
    (hother : Alike d other other') :
    timers'.generation = other'.generation ↔ timers.generation = other.generation := by
  constructor
  · intro heq
    -- both were moved by the same distance, and neither has wrapped around before
    rw [h.generation, hother.generation] at heq
    have hmod : Nat.ModEq wrap32 timers.generation other.generation := Nat.ModEq.add_right_cancel' d heq
    exact Nat.ModEq.eq_of_lt_of_lt hmod h.bounded hother.bounded
  · intro heq
    rw [h.generation, hother.generation, heq]

theorem activeEntries_advance (timers : TimerManager) (deltaMs : ℕ) : (timers.advance deltaMs).activeEntries =
      (timers.activeEntries.map (advanceEntry deltaMs)).filter (·.active) := by
  unfold activeEntries advance
  dsimp only
  induction timers.entries with
  | nil => rfl
  | cons entry rest ih =>
    rw [List.map_cons, List.filter_cons, List.filter_cons, ih]
    -- time passes an entry by that is not active, so that it does not become active
    cases hactive : entry.active with
    | true => simp [List.filter_cons]
    | false => simp [advanceEntry, hactive]

theorem expiredIds_eq (timers : TimerManager) (deltaMs : ℕ) :
    timers.expiredIds deltaMs = (timers.activeEntries.filter (expires deltaMs)).map (·.timerId) := by
  unfold expiredIds activeEntries
  rw [List.filter_filter]
  congr 2
  funext entry
  unfold expires
  cases entry.active <;> simp

theorem Alike.advance (h : Alike d timers timers') (deltaMs : ℕ) :
    Alike d (timers.advance deltaMs) (timers'.advance deltaMs) where
  slots := by
    show (List.map _ _).length = (List.map _ _).length
    rw [List.length_map, List.length_map, h.slots]
  active := by rw [activeEntries_advance, activeEntries_advance, h.active]
  bounded := h.bounded
  generation := h.generation

/-! ## Packed slots -/

/-- The active timers are in the first slots, and the other slots are free. -/
structure Packed (busy : List TimerEntry) (timers : TimerManager) : Prop where
  active : ∀ entry ∈ busy, entry.active = true
  split : ∃ free, timers.entries = busy ++ free ∧ ∀ entry ∈ free, entry.active = false

variable {busy : List TimerEntry}

theorem Packed.activeEntries (h : Packed busy timers) : timers.activeEntries = busy := by
  obtain ⟨free, hentries, hfree⟩ := h.split
  unfold TimerManager.activeEntries
  rw [hentries, List.filter_append, List.filter_eq_self.mpr h.active,
    List.filter_eq_nil_iff.mpr fun entry he => by simp [hfree entry he], List.append_nil]

theorem packed_reset (timers : TimerManager) : Packed [] timers.reset where
  active := by simp
  split := ⟨_, rfl, by simp⟩

theorem replaceFirst_append {p : TimerEntry → Bool} {f : TimerEntry → TimerEntry} {front : List TimerEntry}
    (h : ∀ entry ∈ front, p entry = false) (rest : List TimerEntry) :
    replaceFirst p f (front ++ rest) = front ++ replaceFirst p f rest := by
  induction front with
  | nil => rfl
  | cons entry front ih =>
    have hentry := h entry List.mem_cons_self
    rw [List.cons_append, replaceFirst, hentry, if_neg Bool.false_ne_true, List.cons_append,
      ih fun x hx => h x (List.mem_cons_of_mem _ hx)]

theorem replaceFirst_append_of_any {p : TimerEntry → Bool} {f : TimerEntry → TimerEntry} :
    ∀ {front : List TimerEntry}, front.any p = true → ∀ rest,
      replaceFirst p f (front ++ rest) = replaceFirst p f front ++ rest
  | [], h, _ => by cases h
  | entry :: front, h, rest => by
    rw [List.cons_append, replaceFirst, replaceFirst]
    cases hentry : p entry with
    | true => rfl
    | false =>
      have hfront : front.any p = true := by simpa [hentry] using h
      rw [if_neg Bool.false_ne_true, if_neg Bool.false_ne_true, replaceFirst_append_of_any hfront]
      rfl

theorem forall_active_replaceFirst {p : TimerEntry → Bool} {started : TimerEntry} (hstarted : started.active = true) :
    ∀ {entries : List TimerEntry}, (∀ entry ∈ entries, entry.active = true) →
      ∀ entry ∈ replaceFirst p (fun _ => started) entries, entry.active = true
  | [], _, _, he => by cases he
  | x :: rest, h, entry, he => by
    have hrest : ∀ entry ∈ rest, entry.active = true := fun e hmem => h e (List.mem_cons_of_mem _ hmem)
    unfold replaceFirst at he
    split at he
    · rcases List.mem_cons.mp he with rfl | he
      · exact hstarted
      · exact hrest _ he
    · rcases List.mem_cons.mp he with rfl | he
      · exact h _ List.mem_cons_self
      · exact forall_active_replaceFirst hstarted hrest _ he

theorem Packed.replaceFree (h : Packed busy timers) {started : TimerEntry} (hstarted : started.active = true)
    (hfree : busy.length < timers.entries.length) :
    Packed (busy ++ [started])
      { timers with
        entries := replaceFirst (fun entry => !entry.active) (fun _ => started) timers.entries } := by
  obtain ⟨free, hentries, hinactive⟩ := h.split
  refine ⟨?_, ?_⟩
  · intro entry hmem
    rcases List.mem_append.mp hmem with hmem | hmem
    · exact h.active entry hmem
    · rw [List.mem_singleton.mp hmem]
      exact hstarted
  · have hbusy : ∀ entry ∈ busy, (!entry.active) = false := fun entry he => by simp [h.active entry he]
    -- there is a free slot, and the first one is right behind the active timers
    cases free with
    | nil =>
      rw [hentries, List.append_nil] at hfree
      exact absurd hfree (Nat.lt_irrefl _)
    | cons slot free =>
      refine ⟨free, ?_, fun entry he => hinactive entry (List.mem_cons_of_mem _ he)⟩
      have hslot : (!slot.active) = true := by simp [hinactive slot List.mem_cons_self]
      dsimp only
      rw [hentries, replaceFirst_append hbusy, replaceFirst, if_pos hslot, List.append_assoc]
      rfl

/-- The active timers after one has been started, if there are `slots` slots. -/
def busyAfter (slots : ℕ) (busy : List TimerEntry) (started : TimerEntry) : List TimerEntry :=
  if busy.any (holds started.timerId) then replaceFirst (holds started.timerId) (fun _ => started) busy
  else if busy.length < slots then busy ++ [started]
  else busy

theorem Packed.startTimer (h : Packed busy timers) (timerId durationMs : ℕ) (periodic : Bool) :
    Packed (busyAfter timers.entries.length busy ⟨timerId, durationMs, 0, periodic, true⟩)
      (timers.startTimer timerId durationMs periodic).1 := by
  obtain ⟨free, hentries, hinactive⟩ := h.split
  have hholds : timers.entries.any (holds timerId) = busy.any (holds timerId) := by
    have hnone : free.any (holds timerId) = false :=
      List.any_eq_false.mpr fun entry he => by simp [holds, hinactive entry he]
    rw [hentries, List.any_append, hnone, Bool.or_false]
  have hcount : timers.activeCount = busy.length := by
    rw [← h.activeEntries]
    exact List.countP_eq_length_filter ..
  have hany := any_free_iff timers
  rw [hcount] at hany
  unfold TimerManager.startTimer busyAfter
  dsimp only
  rw [hholds]
  cases hheld : busy.any (holds timerId) with
  | true =>
    rw [if_pos rfl, if_pos rfl]
    refine ⟨forall_active_replaceFirst rfl h.active, free, ?_, hinactive⟩
    rw [hentries]
    exact replaceFirst_append_of_any hheld free
  | false =>
    rw [if_neg Bool.false_ne_true, if_neg Bool.false_ne_true]
    by_cases hfree : busy.length < timers.entries.length
    · rw [if_pos (hany.mpr hfree), if_pos hfree]
      exact h.replaceFree rfl hfree
    · rw [if_neg fun hsome => hfree (hany.mp hsome), if_neg hfree]
      exact h

theorem Packed.restore : ∀ (saved : List TimerEntry) {busy : List TimerEntry} {timers : TimerManager},
    Packed busy timers → (∀ entry ∈ saved, entry.active = true) →
      busy.length + saved.length ≤ timers.entries.length →
        Packed (busy ++ saved) (saved.foldl
          (fun ts e => ts.restoreTimer e.timerId e.intervalMs e.elapsedMs e.periodic) timers)
  | [], busy, timers, h, _, _ => by simpa using h
  | entry :: saved, busy, timers, h, hsaved, hroom => by
    rw [List.length_cons] at hroom
    have hactive := hsaved entry List.mem_cons_self
    have hentry : entry = ⟨entry.timerId, entry.intervalMs, entry.elapsedMs, entry.periodic, true⟩ := by
      rw [← hactive]
    have hnext : Packed (busy ++ [entry])
        (timers.restoreTimer entry.timerId entry.intervalMs entry.elapsedMs entry.periodic) := by
      unfold restoreTimer
      rw [← hentry]
      exact h.replaceFree hactive (by omega)
    have hlength : (timers.restoreTimer entry.timerId entry.intervalMs entry.elapsedMs
        entry.periodic).entries.length = timers.entries.length := length_replaceFirst _ _ _
    have hrest := Packed.restore saved hnext (fun e he => hsaved e (List.mem_cons_of_mem _ he))
      (by rw [hlength, List.length_append, List.length_singleton]; omega)
    rw [List.append_assoc] at hrest
    exact hrest

variable (saved : List TimerEntry)

theorem slots_restore (timers : TimerManager) :
    (saved.foldl (fun ts e => ts.restoreTimer e.timerId e.intervalMs e.elapsedMs e.periodic)
      timers).entries.length = timers.entries.length := by
  induction saved generalizing timers with
  | nil => rfl
  | cons entry saved ih =>
    rw [List.foldl_cons, ih]
    exact length_replaceFirst _ _ _

theorem generation_restore (timers : TimerManager) :
    (saved.foldl (fun ts e => ts.restoreTimer e.timerId e.intervalMs e.elapsedMs e.periodic)
      timers).generation = timers.generation := by
  induction saved generalizing timers with
  | nil => rfl
  | cons entry saved ih => exact ih _

theorem exists_alike_restored (hslots : timers'.entries.length = timers.entries.length)
    (hgen : timers.generation < wrap32) :
    ∃ d, Alike d timers (timers.activeEntries.foldl
      (fun ts e => ts.restoreTimer e.timerId e.intervalMs e.elapsedMs e.periodic) timers'.reset) := by
  have hreset : timers'.reset.entries.length = timers.entries.length := (length_reset timers').trans hslots
  have hpacked := (packed_reset timers').restore timers.activeEntries (fun e he => (List.mem_filter.mp he).2)
    (by rw [List.length_nil, Nat.zero_add, hreset]; exact List.length_filter_le _ _)
  rw [List.nil_append] at hpacked
  -- the distance is taken modulo 2 ^ 32, from the saved generation up to the restored one
  refine ⟨timers'.reset.generation + (wrap32 - timers.generation), ?_⟩
  refine ⟨(slots_restore _ _).trans hreset, hpacked.activeEntries, hgen, ?_⟩
  have hsum : timers.generation + (timers'.reset.generation + (wrap32 - timers.generation)) =
      timers'.reset.generation + wrap32 := by omega
  have hlt : timers'.reset.generation < wrap32 := Nat.mod_lt _ (by decide)
  rw [generation_restore, hsum, Nat.add_mod_right, Nat.mod_eq_of_lt hlt]

end TimerManager

namespace Program

open TimerManager

variable {σ : Signature} (P : Program σ)

/-- Two managers as they are while the timers of a state are armed. -/
structure Arming (d : ℕ) (timers timers' : TimerManager) : Prop where
  slots : timers'.entries.length = timers.entries.length
  packed : ∃ busy, Packed busy timers ∧ Packed busy timers'
  bounded : timers.generation < wrap32
  generation : timers'.generation = (timers.generation + d) % wrap32

variable {P} {d : ℕ} {timers timers' : TimerManager}

theorem Arming.alike (h : Arming d timers timers') : Alike d timers timers' := by
  obtain ⟨busy, hpacked, hpacked'⟩ := h.packed
  exact ⟨h.slots, hpacked'.activeEntries.trans hpacked.activeEntries.symm, h.bounded, h.generation⟩

theorem arming_reset (h : Alike d timers timers') : Arming d timers.reset timers'.reset where
  slots := (length_reset timers').trans (h.slots.trans (length_reset timers).symm)
  packed := ⟨[], packed_reset timers, packed_reset timers'⟩
  bounded := Nat.mod_lt _ (by decide)
  generation := by
    show (timers'.generation + 1) % wrap32 = ((timers.generation + 1) % wrap32 + d) % wrap32
    rw [h.generation, Nat.mod_add_mod, Nat.mod_add_mod, Nat.add_right_comm]

theorem generation_startTimer (timers : TimerManager) (timerId durationMs : ℕ) (periodic : Bool) :
    (timers.startTimer timerId durationMs periodic).1.generation = timers.generation := by
  unfold TimerManager.startTimer
  dsimp only
  split
  · rfl
  · split <;> rfl

theorem Arming.armTimerForRow (h : Arming d timers timers') (s : σ.State) (row : Row σ × ℕ) :
    Arming d (P.armTimerForRow s timers row) (P.armTimerForRow s timers' row) := by
  unfold Program.armTimerForRow
  split
  · exact h
  · split
    · rename_i duration periodic _ _
      -- both managers take the slot behind the same active timers
      obtain ⟨busy, hpacked, hpacked'⟩ := h.packed
      have hstarted' := hpacked'.startTimer (row.2 + 1) duration periodic
      rw [h.slots] at hstarted'
      refine ⟨by rw [length_startTimer, length_startTimer, h.slots],
        ⟨_, hpacked.startTimer (row.2 + 1) duration periodic, hstarted'⟩, ?_, ?_⟩
      · rw [generation_startTimer]
        exact h.bounded
      · rw [generation_startTimer, generation_startTimer]
        exact h.generation
    · exact h

theorem alike_refreshTimers (h : Alike d timers timers') (s : σ.State) :
    Alike d (P.refreshTimers s timers) (P.refreshTimers s timers') := by
  have hfold : ∀ (rows : List (Row σ × ℕ)) {ts ts' : TimerManager}, Arming d ts ts' →
      Arming d (rows.foldl (P.armTimerForRow s) ts) (rows.foldl (P.armTimerForRow s) ts') := by
    intro rows
    induction rows with
    | nil => exact fun harming => harming
    | cons row rows ih => exact fun harming => ih (harming.armTimerForRow s row)
  exact (hfold P.rows.zipIdx (arming_reset h)).alike

end Program

end Fsmc.Backend
