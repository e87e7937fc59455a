/-
# Fsmc.Lib.Ancestry — chains of ancestors in a forest given by its parent map.

The chain of a node goes from it up to a root. A node that has a chain has one only, which holds no node
twice, and the chain of each of its members is the rest of it from that member on.
-/
import Mathlib.Data.List.Perm.Subperm

namespace Fsmc.Lib.Ancestry

variable {α : Type*} {parent : α → Option α}

/-- The ancestors of a node, itself first. -/
inductive IsChain (parent : α → Option α) : α → List α → Prop
  | root {a : α} : parent a = none → IsChain parent a [a]
  | cons {a b : α} {p : List α} : parent a = some b → IsChain parent b p → IsChain parent a (a :: p)

namespace IsChain

variable {a : α} {p : List α}

theorem head (h : IsChain parent a p) : ∃ q, p = a :: q := by
  cases h with
  | root _ => exact ⟨[], rfl⟩
  | cons _ _ => exact ⟨_, rfl⟩

theorem self_mem (h : IsChain parent a p) : a ∈ p := by
  obtain ⟨q, rfl⟩ := h.head
  simp

theorem parent_mem {a b : α} (h : IsChain parent a p) (hb : parent a = some b) : b ∈ p := by
  cases h with
  | root ha => simp [ha] at hb
  | cons hparent hp =>
    have hsame : some _ = some _ := hparent.symm.trans hb
    cases hsame
    exact List.mem_cons_of_mem _ hp.self_mem

theorem unique {p q : List α} (hp : IsChain parent a p) (hq : IsChain parent a q) : p = q := by
  induction hp generalizing q with
  | root ha =>
    cases hq with
    | root _ => rfl
    | cons hb _ => simp [ha] at hb
  | cons hb _ ih =>
    cases hq with
    | root ha => simp [ha] at hb
    | cons hb' hq =>
      have hsame : some _ = some _ := hb.symm.trans hb'
      cases hsame
      rw [ih hq]

theorem congr {parent' : α → Option α} (h : IsChain parent a p)
    (heq : ∀ b ∈ p, parent' b = parent b) : IsChain parent' a p := by
  induction h with
  | root ha => exact .root ((heq _ (by simp)).trans ha)
  | cons hparent _ ih =>
    exact .cons ((heq _ (by simp)).trans hparent) (ih fun b hb => heq b (List.mem_cons_of_mem _ hb))

theorem of_mem {a b : α} (h : IsChain parent a p) (hb : b ∈ p) : ∃ l q, p = l ++ q ∧ IsChain parent b q := by
  induction h with
  | root ha =>
    rw [List.mem_singleton] at hb
    subst hb
    exact ⟨[], _, rfl, .root ha⟩
  | cons hparent hp ih =>
    rcases List.mem_cons.mp hb with rfl | hb
    · exact ⟨[], _, rfl, .cons hparent hp⟩
    · obtain ⟨l, q, rfl, hq⟩ := ih hb
      exact ⟨_ :: l, q, rfl, hq⟩

/-- A chain that came back to a node would have itself as a proper part. -/
theorem nodup (h : IsChain parent a p) : p.Nodup := by
  induction h with
  | root _ => simp
  | @cons a b p hparent hp ih =>
    refine List.nodup_cons.mpr ⟨fun hmem => ?_, ih⟩
    obtain ⟨l, q, rfl, hq⟩ := hp.of_mem hmem
    have hlength := congrArg List.length (hq.unique (.cons hparent hp))
    simp at hlength
    omega

theorem antisymm {a b : α} {p q : List α} (hp : IsChain parent a p) (hq : IsChain parent b q)
    (hb : b ∈ p) (ha : a ∈ q) : a = b := by
  obtain ⟨l, q', rfl, hq'⟩ := hp.of_mem hb
  obtain rfl := hq'.unique hq
  obtain ⟨l', p', hsplit, hp'⟩ := hq.of_mem ha
  have hlength := congrArg List.length (hp'.unique hp)
  have hlength' := congrArg List.length hsplit
  simp only [List.length_append] at hlength hlength'
  have hnil : l = [] := List.length_eq_zero_iff.mp (by omega)
  rw [hnil, List.nil_append] at hp
  obtain ⟨r, hr⟩ := hp.head
  obtain ⟨r', hr'⟩ := hq.head
  rw [hr] at hr'
  exact (List.cons.inj hr').1

theorem of_split {a b : α} {l r : List α} (h : IsChain parent a (l ++ b :: r)) : IsChain parent b (b :: r) := by
  induction l generalizing a with
  | nil =>
    obtain ⟨q, hq⟩ := h.head
    rw [List.nil_append] at h hq
    rw [(List.cons.inj hq).1] at h ⊢
    exact h
  | cons x l ih =>
    rw [List.cons_append] at h
    generalize hsplit : l ++ b :: r = p at h
    cases h with
    | root _ => simp at hsplit
    | cons _ hrest => exact ih (hsplit ▸ hrest)

theorem parent_of_split {a b c : α} {l r : List α} (h : IsChain parent a (l ++ b :: c :: r)) : parent b = some c := by
  cases h.of_split with
  | cons hparent hrest =>
    obtain ⟨q, hq⟩ := hrest.head
    rw [(List.cons.inj hq).1]
    exact hparent

theorem parent_isSome {a b : α} (h : IsChain parent a p) (hb : b ∈ p.dropLast) : (parent b).isSome = true := by
  induction h with
  | root _ => simp at hb
  | cons hparent hp ih =>
    obtain ⟨q, rfl⟩ := hp.head
    rw [List.dropLast_cons_of_ne_nil (by simp)] at hb
    rcases List.mem_cons.mp hb with rfl | hb
    · simp [hparent]
    · exact ih hb

theorem length_le {p nodes : List α} (h : IsChain parent a p)
    (hnodes : ∀ b, (parent b).isSome = true → b ∈ nodes) : p.length ≤ nodes.length + 1 := by
  have hsub : p.dropLast ⊆ nodes := fun b hb => hnodes b (h.parent_isSome hb)
  have hle := ((List.dropLast_sublist p).nodup h.nodup).subperm hsub |>.length_le
  rw [List.length_dropLast] at hle
  omega

end IsChain

section Walk

variable [DecidableEq α]

/-- Walk up from a node until a root or a node visited before. -/
def chainFrom (parent : α → Option α) : ℕ → List α → α → List α
  | 0, _, _ => []
  | n + 1, visited, a =>
    if a ∈ visited then []
    else
      a :: match parent a with
        | some b => chainFrom parent n (a :: visited) b
        | none => []

theorem chainFrom_nodup (n : ℕ) (visited : List α) (a : α) :
    (chainFrom parent n visited a).Nodup ∧ ∀ b ∈ chainFrom parent n visited a, b ∉ visited := by
  induction n generalizing visited a with
  | zero => simp [chainFrom]
  | succ n ih =>
    unfold chainFrom
    by_cases ha : a ∈ visited
    · simp [ha]
    · rw [if_neg ha]
      cases hparent : parent a with
      | none => simpa using ha
      | some b =>
        obtain ⟨hnodup, hfresh⟩ := ih (a :: visited) b
        refine ⟨List.nodup_cons.mpr ⟨fun h => hfresh a h List.mem_cons_self, hnodup⟩, fun c hc => ?_⟩
        rcases List.mem_cons.mp hc with rfl | hc
        · exact ha
        · exact fun h => hfresh c hc (List.mem_cons_of_mem _ h)

theorem IsChain.chainFrom_eq {a : α} {p visited : List α} {n : ℕ} (h : IsChain parent a p)
    (hn : p.length ≤ n) (hvisited : ∀ b ∈ visited, b ∉ p) : chainFrom parent n visited a = p := by
  induction h generalizing visited n with
  | @root a ha =>
    obtain ⟨m, rfl⟩ : ∃ m, n = m + 1 := ⟨n - 1, by simp at hn; omega⟩
    have hfresh : a ∉ visited := fun hmem => hvisited a hmem (by simp)
    simp [chainFrom, ha, hfresh]
  | @cons a b p hparent hp ih =>
    have hnodup := (IsChain.cons hparent hp).nodup
    obtain ⟨m, rfl⟩ : ∃ m, n = m + 1 := ⟨n - 1, by simp at hn; omega⟩
    have hfresh : a ∉ visited := fun hmem => hvisited a hmem (by simp)
    have hrest : chainFrom parent m (a :: visited) b = p := by
      apply ih (by simpa using hn)
      intro c hc
      rcases List.mem_cons.mp hc with rfl | hc
      · exact (List.nodup_cons.mp hnodup).1
      · exact fun hmem => hvisited c hc (List.mem_cons_of_mem _ hmem)
    simp [chainFrom, hparent, hfresh, hrest]

theorem IsChain.takeWhile_eq {a b c : α} {p q : List α} (hp : IsChain parent a p) (hb : b ∈ p)
    (hq : IsChain parent b q) (hc : c ∈ q ∨ c ∉ p) :
    p.takeWhile (fun x => x ≠ c) =
      p.takeWhile (fun x => x ≠ b) ++ q.takeWhile (fun x => x ≠ c) := by
  obtain ⟨l, q', rfl, hq'⟩ := hp.of_mem hb
  obtain rfl := hq'.unique hq
  have hdisjoint : ∀ x ∈ l, x ∉ q' := fun x hx hx' =>
    (List.nodup_append.mp hp.nodup).2.2 x hx x hx' rfl
  have hbelow : ∀ x ∈ l, decide (x ≠ b) = true := by
    intro x hx
    have hne : x ≠ b := by
      rintro rfl
      exact hdisjoint x hx hq.self_mem
    simpa using hne
  have hpass : ∀ x ∈ l, decide (x ≠ c) = true := by
    intro x hx
    have hne : x ≠ c := by
      rintro rfl
      rcases hc with hc | hc
      · exact hdisjoint x hx hc
      · exact hc (List.mem_append_left _ hx)
    simpa using hne
  obtain ⟨r, rfl⟩ := hq.head
  rw [List.takeWhile_append_of_pos hpass, List.takeWhile_append_of_pos hbelow]
  simp

/-- The first member of a chain that is in another. -/
def firstCommon (p q : List α) : Option α := p.find? fun x => x ∈ q

theorem firstCommon_mem {p q : List α} {a : α} (h : firstCommon p q = some a) : a ∈ p ∧ a ∈ q :=
  ⟨List.mem_of_find?_eq_some h, by simpa using List.find?_some h⟩

end Walk

end Fsmc.Lib.Ancestry
