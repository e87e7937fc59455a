/-
# Fsmc.Lib.UpwardWalk — climbing the links of a parent map without a memory of where one was.

A climb ends at a node that stops it, or where there is no parent. It goes on for ever only in a cycle: among
finitely many parents, it ends unless its way leads into a cycle and past no node that stops it.
-/
import Fsmc.Lib.Ancestry
import Fsmc.Lib.Loop
import Fsmc.Lib.Walk

namespace Fsmc.Lib.UpwardWalk

open Relation Fsmc.Lib Fsmc.Lib.Ancestry

variable {α : Type*} {parent : α → Option α} {stop : α → Bool}

/-- The nodes that a climb passes and whether a node stops it; `none` when it takes more turns than given. -/
def climb (parent : α → Option α) (stop : α → Bool) : ℕ → Option α → Option (List α × Bool)
  | 0, _ => none
  | _ + 1, none => some ([], false)
  | n + 1, some a =>
    if stop a then some ([], true)
    else (climb parent stop n (parent a)).map fun rest => (a :: rest.1, rest.2)

def Ends (parent : α → Option α) (stop : α → Bool) (start : Option α) : Prop :=
  ∃ n, (climb parent stop n start).isSome = true

/-- One node is the parent of another. -/
def Up (parent : α → Option α) (a b : α) : Prop := parent a = some b

/-- A node on the way up. -/
def OnWay (parent : α → Option α) (start : Option α) (b : α) : Prop :=
  ∃ a, start = some a ∧ ReflTransGen (Up parent) a b

/-- The way up leads into a cycle. -/
def IntoCycle (parent : α → Option α) (start : Option α) : Prop :=
  ∃ c, OnWay parent start c ∧ TransGen (Up parent) c c

/-- The way up leads to a node that stops the climb. -/
def Meets (parent : α → Option α) (stop : α → Bool) (start : Option α) : Prop :=
  ∃ b, OnWay parent start b ∧ stop b = true

theorem ends_none : Ends parent stop none := ⟨1, rfl⟩

variable {a : α} {start : Option α}

theorem ends_some : Ends parent stop (some a) ↔ stop a = true ∨ Ends parent stop (parent a) := by
  constructor
  · rintro ⟨n, hn⟩
    cases n with
    | zero => simp [climb] at hn
    | succ n =>
      by_cases ha : stop a = true
      · exact .inl ha
      · rw [climb, if_neg ha, Option.isSome_map] at hn
        exact .inr ⟨n, hn⟩
  · rintro (ha | ⟨n, hn⟩)
    · exact ⟨1, by simp [climb, ha]⟩
    · refine ⟨n + 1, ?_⟩
      rw [climb]
      split
      · rfl
      · rwa [Option.isSome_map]

theorem onWay_iff {a b : α} : OnWay parent (some a) b ↔ ReflTransGen (Up parent) a b := by
  simp [OnWay]

theorem OnWay.self (a : α) : OnWay parent (some a) a := ⟨a, rfl, .refl⟩

theorem OnWay.up {a b : α} (h : OnWay parent start a) (hb : parent a = some b) :
    OnWay parent start b := by
  obtain ⟨s, hs, ha⟩ := h
  exact ⟨s, hs, ha.tail hb⟩

theorem onWay_some {a c : α} : OnWay parent (some a) c ↔ c = a ∨ OnWay parent (parent a) c := by
  constructor
  · intro h
    rcases (onWay_iff.mp h).cases_head with rfl | ⟨b, hb, h⟩
    · exact .inl rfl
    · exact .inr ⟨b, hb, h⟩
  · rintro (rfl | ⟨b, hb, h⟩)
    · exact .self c
    · exact ⟨a, rfl, .head hb h⟩

theorem no_cycle_of_no_step {r : α → α → Prop} {a c : α} (h : ∀ b, ¬ r a b) (hc : ReflTransGen r a c) :
    ¬ TransGen r c c := by
  intro hcycle
  rcases hc.cases_head with rfl | ⟨b, hb, -⟩
  · obtain ⟨b, hb, -⟩ := TransGen.head'_iff.mp hcycle
    exact h b hb
  · exact h b hb

theorem OnWay.eq_of_none {a c : α} (h : OnWay parent (some a) c) (ha : parent a = none) : c = a := by
  rcases onWay_some.mp h with heq | ⟨b, hb, -⟩
  · exact heq
  · rw [ha] at hb
    cases hb

theorem not_intoCycle_of_none (ha : parent a = none) : ¬ IntoCycle parent (some a) := by
  rintro ⟨c, hc, hcycle⟩
  refine no_cycle_of_no_step ?_ (onWay_iff.mp hc) hcycle
  intro b (hb : parent a = some b)
  rw [ha] at hb
  cases hb

theorem Ends.meets (h : Ends parent stop start) (hcycle : IntoCycle parent start) :
    Meets parent stop start := by
  obtain ⟨n, hn⟩ := h
  induction n generalizing start with
  | zero => simp [climb] at hn
  | succ n ih =>
    obtain ⟨c, hc, hloop⟩ := hcycle
    cases start with
    | none =>
      obtain ⟨_, hs, -⟩ := hc
      cases hs
    | some a =>
      by_cases ha : stop a = true
      · exact ⟨a, .self a, ha⟩
      · rw [climb, if_neg ha, Option.isSome_map] at hn
        -- the cycle is above the parent too, when the node is on it itself
        have habove : OnWay parent (parent a) c := by
          rcases onWay_some.mp hc with rfl | habove
          · obtain ⟨b, hb, hback⟩ := TransGen.head'_iff.mp hloop
            exact ⟨b, hb, hback⟩
          · exact habove
        obtain ⟨b, hb, hstop⟩ := ih ⟨c, habove, hloop⟩ hn
        exact ⟨b, onWay_some.mpr (.inr hb), hstop⟩

theorem goes_on (h : ¬ Ends parent stop start) (ha : OnWay parent start a) :
    ¬ Ends parent stop (some a) := by
  obtain ⟨s, rfl, hpath⟩ := ha
  induction hpath with
  | refl => exact h
  | tail _ hb ih =>
    intro hends
    refine ih (ends_some.mpr (.inr ?_))
    rwa [hb]

/-- **Endless climbs.** Among finitely many parents a climb ends unless its way leads into a cycle and meets no
node that stops it. -/
theorem ends_iff {nodes : List α} (hnodes : ∀ a b, parent a = some b → b ∈ nodes) (start : Option α) :
    Ends parent stop start ↔ (IntoCycle parent start → Meets parent stop start) := by
  constructor
  · exact Ends.meets
  · intro h
    by_contra hends
    have hstep : ∀ a : {a // OnWay parent start a}, ∃ b : {a // OnWay parent start a}, parent a.1 = some b.1 := by
      intro ⟨a, ha⟩
      have hgoes := goes_on hends ha
      cases hb : parent a with
      | none => exact absurd (ends_some.mpr (.inr (hb ▸ ends_none))) hgoes
      | some b => exact ⟨⟨b, ha.up hb⟩, rfl⟩
    choose next hnext using hstep
    cases start with
    | none => exact hends ends_none
    | some s =>
      let way : ℕ → {a // OnWay parent (some s) a} := fun i => next^[i] ⟨s, .self s⟩
      have hway : ∀ i, parent (way i).1 = some (way (i + 1)).1 := by
        intro i
        show parent (next^[i] _).1 = some (next^[i + 1] _).1
        rw [Function.iterate_succ_apply']
        exact hnext _
      have hmem : ∀ i, (way i).1 ∈ s :: nodes := by
        intro i
        cases i with
        | zero => exact List.mem_cons_self
        | succ i => exact List.mem_cons_of_mem _ (hnodes _ _ (hway i))
      have hcycle : IntoCycle parent (some s) := by
        by_contra hnone
        obtain ⟨i, hout | hstuck⟩ := exists_leaves (π := fun i => (way i).1)
          (U := {a | a ∈ s :: nodes}) (R := fun a b => OnWay parent (some s) a ∧ Up parent a b)
          (List.finite_toSet _) (fun c hc => by
            obtain ⟨b, ⟨hon, _⟩, _⟩ := TransGen.head'_iff.mp hc
            exact hnone ⟨c, hon, TransGen.mono (fun _ _ h => h.2) _ _ hc⟩)
        · exact hout (hmem i)
        · exact hstuck ⟨(way i).2, hway i⟩
      obtain ⟨b, hb, hstop⟩ := h hcycle
      exact goes_on hends hb (ends_some.mpr (.inl hstop))

/-- Two nodes that are each other's parents and do not stop the climb keep it for ever. -/
theorem not_ends_of_mutual {a b : α} (hab : parent a = some b) (hba : parent b = some a)
    (ha : stop a = false) (hb : stop b = false) : ¬ Ends parent stop (some a) := by
  rintro ⟨n, hn⟩
  have hnever : ∀ n, climb parent stop n (some a) = none ∧ climb parent stop n (some b) = none := by
    intro n
    induction n with
    | zero => exact ⟨rfl, rfl⟩
    | succ n ih => simp [climb, hab, hba, ha, hb, ih.1, ih.2]
  simp [(hnever n).1] at hn

theorem exists_isChain (h : Ends parent (fun _ => false) (some a)) : ∃ p, IsChain parent a p := by
  obtain ⟨n, hn⟩ := h
  induction n generalizing a with
  | zero => simp [climb] at hn
  | succ n ih =>
    rw [climb, if_neg Bool.false_ne_true, Option.isSome_map] at hn
    cases hb : parent a with
    | none => exact ⟨[a], .root hb⟩
    | some b =>
      obtain ⟨p, hp⟩ := ih (hb ▸ hn)
      exact ⟨a :: p, .cons hb hp⟩

/-! ## The walk that remembers -/

section Remembered

variable [DecidableEq α]

/-- The walk that stops at a node visited before is closed under parents, when it has turns enough. -/
theorem chainFrom_closed {nodes : List α} (hnodes : ∀ a b, parent a = some b → a ∈ nodes) {n : ℕ}
    {visited : List α} {a : α} (hn : missing nodes (· ∈ visited) < n) {x y : α}
    (hx : x ∈ chainFrom parent n visited a) (hy : parent x = some y) :
    y ∈ chainFrom parent n visited a ∨ y ∈ visited := by
  induction n generalizing visited a with
  | zero => omega
  | succ n ih =>
    rw [chainFrom] at hx ⊢
    by_cases ha : a ∈ visited
    · simp [ha] at hx
    · rw [if_neg ha] at hx ⊢
      cases hb : parent a with
      | none =>
        rw [hb] at hx
        obtain rfl : x = a := by simpa using hx
        rw [hb] at hy
        cases hy
      | some b =>
        rw [hb] at hx
        -- every turn visits a node for the first time
        have hfewer : missing nodes (· ∈ a :: visited) < missing nodes (· ∈ visited) :=
          missing_lt (fun _ h => List.mem_cons_of_mem _ h) (hnodes a b hb) ha List.mem_cons_self
        have hn' : missing nodes (· ∈ a :: visited) < n := by omega
        have hrest : y ∈ chainFrom parent n (a :: visited) b ∨ y ∈ a :: visited := by
          rcases List.mem_cons.mp hx with rfl | hx
          · obtain rfl : b = y := Option.some.inj (hb.symm.trans hy)
            obtain ⟨m, rfl⟩ : ∃ m, n = m + 1 := ⟨n - 1, by omega⟩
            by_cases hmem : b ∈ x :: visited
            · exact .inr hmem
            · left
              rw [chainFrom, if_neg hmem]
              exact List.mem_cons_self
          · exact ih hn' hx
        rcases hrest with hrest | hrest
        · exact .inl (List.mem_cons_of_mem _ hrest)
        · rcases List.mem_cons.mp hrest with rfl | hrest
          · exact .inl List.mem_cons_self
          · exact .inr hrest

theorem mem_chainFrom {nodes : List α} (hnodes : ∀ a b, parent a = some b → a ∈ nodes) {n : ℕ}
    (hn : nodes.length < n) {a x : α} : x ∈ chainFrom parent n [] a ↔ OnWay parent (some a) x := by
  have hvisits : ∀ (n : ℕ) (visited : List α) (a : α), ∀ y ∈ chainFrom parent n visited a,
      OnWay parent (some a) y := by
    intro n
    induction n with
    | zero => simp [chainFrom]
    | succ n ih =>
      intro visited a y hy
      rw [chainFrom] at hy
      split at hy
      · simp at hy
      · rcases List.mem_cons.mp hy with rfl | hy
        · exact .self y
        · cases hb : parent a with
          | none => simp [hb] at hy
          | some b =>
            rw [hb] at hy
            exact onWay_some.mpr (.inr (hb ▸ ih _ _ _ hy))
  constructor
  · exact hvisits n [] a x
  · intro hx
    -- by induction on the way up: the chain is closed under parents while there is fuel
    have hpath := onWay_iff.mp hx
    have henough : missing nodes (· ∈ ([] : List α)) < n := lt_of_le_of_lt (missing_le_length _ _) hn
    clear hx
    induction hpath with
    | refl =>
      obtain ⟨m, rfl⟩ : ∃ m, n = m + 1 := ⟨n - 1, by omega⟩
      simp [chainFrom]
    | tail _ hb ih =>
      rcases chainFrom_closed hnodes henough ih hb with h | h
      · exact h
      · simp at h

end Remembered

end Fsmc.Lib.UpwardWalk
