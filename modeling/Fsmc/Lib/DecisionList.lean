/-
# Fsmc.Lib.DecisionList — branching through intermediate nodes.

A node carries a list of edges and is left by the one that a rule picks, such as the first that is
passable. Following picks from a node to one that has no edges *settles* it. A node in the middle can be spliced out:
each edge into it is replaced, in its place, by its compositions with the edges that leave the node.
Splicing keeps what every other node settles to, if an edge into the spliced node is the last of its
list, so that a passable edge into a node that cannot be left does not fall through to a later one.
-/
import Mathlib.Data.List.Basic

namespace Fsmc.Lib.DecisionList

variable {N E W : Type*}

/-- Edges: where one leads, whether it is passable, what it executes, and how two compose. -/
structure Edges (N E W : Type*) where
  tgt : E → N
  ok : E → Bool
  eff : E → List W
  compose : E → E → E

namespace Edges

/-- A composition leads where the second edge leads and is passable when both are. -/
structure Lawful (edges : Edges N E W) : Prop where
  tgt_compose : ∀ x e, edges.tgt (edges.compose x e) = edges.tgt e
  ok_compose : ∀ x e, edges.ok (edges.compose x e) = (edges.ok x && edges.ok e)

variable (edges : Edges N E W)

/-- What a choice comes to: where it leads and what is executed on the way, or nothing. -/
abbrev Outcome (N W : Type*) := Option (N × List W)

/-- Execute `before` first. -/
def prepend (before : List W) (o : Outcome N W) : Outcome N W :=
  o.map fun r => (r.1, before ++ r.2)

@[simp] theorem prepend_nil (o : Outcome N W) : prepend [] o = o := by
  cases o <;> rfl

@[simp] theorem prepend_prepend (before after : List W) (o : Outcome N W) :
    prepend before (prepend after o) = prepend (before ++ after) o := by
  cases o with
  | none => rfl
  | some r => simp [prepend]

@[simp] theorem prepend_none (before : List W) : prepend before (none : Outcome N W) = none := rfl

abbrev first (xs : List E) : Option E := xs.find? edges.ok

/-- Following picks from a node to one without edges. -/
inductive Settles (pick : List E → Option E) (out : N → List E) : N → Outcome N W → Prop where
  | rest {n : N} : out n = [] → Settles pick out n (some (n, []))
  | stuck {n : N} : out n ≠ [] → pick (out n) = none → Settles pick out n none
  | step {n : N} {e : E} {o : Outcome N W} : out n ≠ [] → pick (out n) = some e →
      Settles pick out (edges.tgt e) o → Settles pick out n (prepend (edges.eff e) o)

variable {edges} {pick pick' : List E → Option E}

variable {out : N → List E}

theorem Settles.deterministic {n : N} {o o' : Outcome N W}
    (h : edges.Settles pick out n o) (h' : edges.Settles pick out n o') : o = o' := by
  induction h generalizing o' with
  | rest hnil =>
    cases h' with
    | rest _ => rfl
    | stuck hne _ => exact absurd hnil hne
    | step hne _ _ => exact absurd hnil hne
  | stuck hne hnone =>
    cases h' with
    | rest hnil => exact absurd hnil hne
    | stuck _ _ => rfl
    | step _ hpick _ => simp [hnone] at hpick
  | step hne hpick _ ih =>
    cases h' with
    | rest hnil => exact absurd hnil hne
    | stuck _ hnone => simp [hnone] at hpick
    | step _ hpick' hrest =>
      have he := hpick.symm.trans hpick'
      obtain rfl := Option.some.inj he
      rw [ih hrest]

theorem Settles.congr {n : N} {o : Outcome N W}
    (hpick : ∀ n, pick (out n) = pick' (out n)) (h : edges.Settles pick out n o) :
    edges.Settles pick' out n o := by
  induction h with
  | rest hnil => exact .rest hnil
  | stuck hne hnone => exact .stuck hne ((hpick _).symm.trans hnone)
  | step hne hsome _ ih => exact .step hne ((hpick _).symm.trans hsome) ih

theorem exists_settles (rank : N → ℕ) (hmem : ∀ xs e, pick xs = some e → e ∈ xs)
    (hrank : ∀ n, ∀ e ∈ out n, out (edges.tgt e) ≠ [] → rank (edges.tgt e) < rank n) (n : N) :
    ∃ o, edges.Settles pick out n o := by
  induction hr : rank n using Nat.strongRecOn generalizing n with
  | ind r ih =>
    by_cases hnil : out n = []
    · exact ⟨_, .rest hnil⟩
    · cases hpick : pick (out n) with
      | none => exact ⟨_, .stuck hnil hpick⟩
      | some e =>
        by_cases hend : out (edges.tgt e) = []
        · exact ⟨_, .step hnil hpick (.rest hend)⟩
        · have hlt := hrank n e (hmem _ e hpick) hend
          obtain ⟨o, ho⟩ := ih (rank (edges.tgt e)) (hr ▸ hlt) (edges.tgt e) rfl
          exact ⟨_, .step hnil hpick ho⟩

/-! ## Splicing a node out -/

/-- Only the last edge of a list leads to a `special` node. -/
def OnlyLast (edges : Edges N E W) (special : N → Prop) (xs : List E) : Prop :=
  ∀ x ∈ xs.dropLast, ¬ special (edges.tgt x)

variable {c : N} {cs xs : List E} {x e : E} {special : N → Prop}

theorem OnlyLast.tail (h : edges.OnlyLast special (x :: xs)) : edges.OnlyLast special xs := by
  intro y hy
  cases xs with
  | nil => simp at hy
  | cons z xs =>
    apply h y
    rw [List.dropLast_cons_of_ne_nil (by simp)]
    exact List.mem_cons_of_mem x hy

theorem OnlyLast.head (h : edges.OnlyLast special (x :: xs)) (hx : special (edges.tgt x)) : xs = [] := by
  by_contra hne
  apply h x ?_ hx
  rw [List.dropLast_cons_of_ne_nil hne]
  exact List.mem_cons_self

theorem OnlyLast.mono {special' : N → Prop} (h : edges.OnlyLast special xs)
    (himp : ∀ n, special' n → special n) : edges.OnlyLast special' xs :=
  fun x hx hs => h x hx (himp _ hs)

theorem find?_map_compose_of_not_ok (hlaw : edges.Lawful) (h : edges.ok x = false) :
    (cs.map (edges.compose x)).find? edges.ok = none := by
  rw [List.find?_eq_none]
  intro y hy
  obtain ⟨e, -, rfl⟩ := List.mem_map.mp hy
  simp [hlaw.ok_compose, h]

theorem find?_map_compose_of_ok (hlaw : edges.Lawful) (h : edges.ok x = true) :
    (cs.map (edges.compose x)).find? edges.ok = (cs.find? edges.ok).map (edges.compose x) := by
  have hok : edges.ok ∘ edges.compose x = edges.ok := by
    funext e
    simp [hlaw.ok_compose, h]
  rw [List.find?_map, hok]

variable (edges) [DecidableEq N]

/-- Replace each edge into `c` by its compositions with the edges `cs` that leave `c`. -/
def splice (c : N) (cs xs : List E) : List E :=
  xs.flatMap fun x => if edges.tgt x = c then cs.map (edges.compose x) else [x]

variable {edges}

@[simp] theorem splice_nil : edges.splice c cs [] = [] := rfl

theorem splice_cons : edges.splice c cs (x :: xs) =
      (if edges.tgt x = c then cs.map (edges.compose x) else [x]) ++ edges.splice c cs xs :=
  List.flatMap_cons

theorem splice_ne_nil (hcs : cs ≠ []) (hxs : xs ≠ []) : edges.splice c cs xs ≠ [] := by
  cases xs with
  | nil => exact absurd rfl hxs
  | cons x xs =>
    rw [splice_cons]
    by_cases hc : edges.tgt x = c <;> simp [hc, hcs]

theorem find?_splice_of_none (hlaw : edges.Lawful) (h : xs.find? edges.ok = none) :
    (edges.splice c cs xs).find? edges.ok = none := by
  induction xs with
  | nil => rfl
  | cons x xs ih =>
    rw [List.find?_eq_none] at h
    have hx : edges.ok x = false := by simpa using h x List.mem_cons_self
    have hxs : xs.find? edges.ok = none := by
      rw [List.find?_eq_none]
      exact fun y hy => h y (List.mem_cons_of_mem x hy)
    rw [splice_cons, List.find?_append, ih hxs]
    by_cases hc : edges.tgt x = c
    · simp [hc, find?_map_compose_of_not_ok hlaw hx]
    · simp [hc, hx]

theorem find?_splice_of_ne (hlaw : edges.Lawful) (h : xs.find? edges.ok = some x) (hx : edges.tgt x ≠ c) :
    (edges.splice c cs xs).find? edges.ok = some x := by
  induction xs with
  | nil => simp at h
  | cons y xs ih =>
    rw [splice_cons, List.find?_append]
    by_cases hy : edges.ok y = true
    · have hyx : y = x := by simpa [hy] using h
      subst hyx
      simp [hx, hy]
    · have hxs : xs.find? edges.ok = some x := by simpa [hy] using h
      rw [ih hxs]
      have hy' : edges.ok y = false := by simpa using hy
      by_cases hc : edges.tgt y = c
      · simp [hc, find?_map_compose_of_not_ok hlaw hy']
      · simp [hc, hy']

theorem find?_splice_of_eq (hlaw : edges.Lawful) (hends : edges.OnlyLast (· = c) xs)
    (h : xs.find? edges.ok = some x) (hx : edges.tgt x = c) :
    (edges.splice c cs xs).find? edges.ok = (cs.find? edges.ok).map (edges.compose x) := by
  induction xs with
  | nil => simp at h
  | cons y xs ih =>
    rw [splice_cons, List.find?_append]
    by_cases hy : edges.ok y = true
    · have hyx : y = x := by simpa [hy] using h
      subst hyx
      have hnil : xs = [] := hends.head hx
      subst hnil
      simp [hx, find?_map_compose_of_ok hlaw hy]
    · have hxs : xs.find? edges.ok = some x := by simpa [hy] using h
      rw [ih hends.tail hxs]
      have hy' : edges.ok y = false := by simpa using hy
      by_cases hc : edges.tgt y = c
      · simp [hc, find?_map_compose_of_not_ok hlaw hy']
      · simp [hc, hy']

/-- Moving the compositions to the end of the list is splicing when only the last edge leads into
the spliced node. -/
theorem filter_append_eq_splice (hends : edges.OnlyLast (· = c) xs) : (xs.filter fun x => edges.tgt x ≠ c) ++
        (xs.filter fun x => edges.tgt x = c).flatMap (fun x => cs.map (edges.compose x)) =
      edges.splice c cs xs := by
  induction xs with
  | nil => rfl
  | cons x xs ih =>
    rw [splice_cons, ← ih hends.tail]
    by_cases hc : edges.tgt x = c
    · have hnil : xs = [] := hends.head hc
      subst hnil
      simp [hc]
    · simp [hc]

theorem OnlyLast.splice (hlaw : edges.Lawful) (hxs : edges.OnlyLast special xs)
    (hcs : edges.OnlyLast special cs) (hc : special c) :
    edges.OnlyLast special (edges.splice c cs xs) := by
  induction xs with
  | nil => exact hxs
  | cons x xs ih =>
    rw [splice_cons]
    by_cases hx : edges.tgt x = c
    · have hnil : xs = [] := hxs.head (hx ▸ hc)
      subst hnil
      intro y hy
      rw [if_pos hx, splice_nil, List.append_nil, ← List.map_dropLast] at hy
      obtain ⟨e, he, rfl⟩ := List.mem_map.mp hy
      rw [hlaw.tgt_compose]
      exact hcs e he
    · rw [if_neg hx]
      intro y hy
      by_cases hnil : edges.splice c cs xs = []
      · simp [hnil] at hy
      · rw [List.dropLast_append_of_ne_nil hnil] at hy
        rcases List.mem_append.mp hy with hy | hy
        · obtain rfl := List.mem_singleton.mp hy
          apply hxs y
          have hne : xs ≠ [] := by
            rintro rfl
            exact hnil rfl
          rw [List.dropLast_cons_of_ne_nil hne]
          exact List.mem_cons_self
        · exact ih hxs.tail y hy

theorem Settles.splice {out out' : N → List E} {n : N} {o : Outcome N W} (hlaw : edges.Lawful)
    (hne : out c ≠ []) (hout : ∀ n, n ≠ c → out' n = edges.splice c (out c) (out n))
    (hends : ∀ n, edges.OnlyLast (· = c) (out n)) (hloop : ∀ e ∈ out c, edges.tgt e ≠ c)
    (heff : ∀ n, ∀ x ∈ out n, edges.tgt x = c → ∀ e ∈ out c,
      edges.eff (edges.compose x e) = edges.eff x ++ edges.eff e)
    (h : edges.Settles edges.first out n o) :
    (n ≠ c → edges.Settles edges.first out' n o) ∧
      (n = c → (edges.first (out c) = none ∧ o = none) ∨
        ∃ e o', edges.first (out c) = some e ∧ edges.Settles edges.first out' (edges.tgt e) o' ∧
          o = prepend (edges.eff e) o') := by
  induction h with
  | @rest n hnil =>
    refine ⟨?_, ?_⟩
    · intro hnc
      apply Settles.rest
      rw [hout n hnc, hnil, splice_nil]
    · rintro rfl
      exact absurd hnil hne
  | @stuck n hn hnone =>
    refine ⟨?_, ?_⟩
    · intro hnc
      refine .stuck ?_ ?_
      · rw [hout n hnc]
        exact splice_ne_nil hne hn
      · rw [hout n hnc]
        exact find?_splice_of_none hlaw hnone
    · rintro rfl
      exact Or.inl ⟨hnone, rfl⟩
  | @step n e o hn hfind _ ih =>
    refine ⟨?_, ?_⟩
    · intro hnc
      have hn' : out' n ≠ [] := by
        rw [hout n hnc]
        exact splice_ne_nil hne hn
      by_cases hec : edges.tgt e = c
      · have hfind' : edges.first (out' n) = (edges.first (out c)).map (edges.compose e) := by
          rw [hout n hnc]
          exact find?_splice_of_eq hlaw (hends n) hfind hec
        have hmem : e ∈ out n := List.mem_of_find?_eq_some hfind
        rcases ih.2 hec with ⟨hcnone, rfl⟩ | ⟨e', o', hcfind, hsettles, rfl⟩
        · refine .stuck hn' ?_
          rw [hfind', hcnone]
          rfl
        · rw [hcfind] at hfind'
          rw [prepend_prepend, ← heff n e hmem hec e' (List.mem_of_find?_eq_some hcfind)]
          refine .step hn' hfind' ?_
          rwa [hlaw.tgt_compose]
      · refine .step hn' ?_ (ih.1 hec)
        rw [hout n hnc]
        exact find?_splice_of_ne hlaw hfind hec
    · rintro rfl
      exact Or.inr ⟨e, o, hfind, ih.1 (hloop e (List.mem_of_find?_eq_some hfind)), rfl⟩

end Edges

end Fsmc.Lib.DecisionList
