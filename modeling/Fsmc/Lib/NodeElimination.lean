/-
# Fsmc.Lib.NodeElimination — folding the edges on one side of a node into those on the other.

Eliminating a node drops the edges on one side of it and merges them into each of the edges on the other
side. Nodes are eliminated one after another; where no edge joins two of them and a merged edge leads to
none, the result is the same as eliminating all of them at once.
-/
import Fsmc.Lib.Loop

namespace Fsmc.Lib.NodeElimination

variable {α κ : Type*} [DecidableEq κ]

/-- Which node an edge is dropped with, which node it is merged at, and how it is merged. -/
structure Rule (α κ : Type*) where
  dropped : α → κ
  merged : α → κ
  merge : List α → α → α

variable (R : Rule α κ)

/-- The edges that are dropped with a node. -/
def Rule.droppedAt (edges : List α) (n : κ) : List α := edges.filter fun e => R.dropped e = n

/-- The edges that are merged at a node. -/
def Rule.mergedAt (edges : List α) (n : κ) : List α := edges.filter fun e => R.merged e = n

/-- What becomes of one edge when a node is eliminated; a node with edges on one side only stays. -/
def Rule.edge (edges : List α) (n : κ) (e : α) : Option α :=
  if (R.mergedAt edges n).isEmpty || (R.droppedAt edges n).isEmpty then some e
  else if R.dropped e = n then none
  else if R.merged e = n then some (R.merge (R.droppedAt edges n) e)
  else some e

def Rule.eliminate (edges : List α) (n : κ) : List α := edges.filterMap (R.edge edges n)

/-- Eliminate nodes one after another. -/
def Rule.eliminateAll (edges : List α) (nodes : List κ) : List α := nodes.foldl R.eliminate edges

/-- What becomes of one edge when nodes are eliminated one after another. -/
def Rule.follow (R : Rule α κ) : List α → List κ → α → Option α
  | _, [], e => some e
  | edges, n :: nodes, e => (R.edge edges n e).bind (follow R (R.eliminate edges n) nodes)

variable {R}

theorem Rule.eliminateAll_eq_filterMap (nodes : List κ) :
    ∀ edges : List α, R.eliminateAll edges nodes = edges.filterMap (R.follow edges nodes) := by
  induction nodes with
  | nil =>
    intro edges
    exact (List.filterMap_some).symm
  | cons n nodes ih =>
    intro edges
    show R.eliminateAll (R.eliminate edges n) nodes = _
    rw [ih]
    show (edges.filterMap (R.edge edges n)).filterMap _ = _
    rw [List.filterMap_filterMap]
    rfl

theorem Rule.follow_proj {β : Type*} (p : α → β) (hp : ∀ es e, p (R.merge es e) = p e)
    (nodes : List κ) : ∀ (edges : List α) (e t : α), R.follow edges nodes e = some t → p t = p e := by
  induction nodes with
  | nil =>
    intro edges e t h
    exact congrArg p (Option.some.inj h).symm
  | cons n nodes ih =>
    intro edges e t h
    obtain ⟨e', he', ht⟩ := Option.bind_eq_some_iff.mp h
    rw [ih _ _ _ ht]
    unfold Rule.edge at he'
    split_ifs at he' <;> obtain rfl := Option.some.inj he'
    · rfl
    · exact hp _ _
    · rfl

/-! ## Independent nodes -/

/-- Merging keeps the node that an edge is dropped with and leads where a dropped edge led. -/
structure Rule.Lawful (R : Rule α κ) : Prop where
  dropped_merge : ∀ es e, R.dropped (R.merge es e) = R.dropped e
  merged_merge : ∀ a es e, R.merged (R.merge (a :: es) e) = R.merged a

/-- No edge joins two of the nodes, and each of them has edges on both sides or on none. -/
structure Independent (R : Rule α κ) (edges : List α) (nodes : List κ) : Prop where
  apart : ∀ e ∈ edges, R.dropped e ∈ nodes → R.merged e ∉ nodes
  sides : ∀ n ∈ nodes, (∃ e ∈ edges, R.merged e = n) ↔ ∃ e ∈ edges, R.dropped e = n

/-- What becomes of an edge when all nodes are eliminated at once. -/
def Rule.atOnce (R : Rule α κ) (edges : List α) (nodes : List κ) (e : α) : Option α :=
  if R.dropped e ∈ nodes then none
  else if R.merged e ∈ nodes then some (R.merge (R.droppedAt edges (R.merged e)) e)
  else some e

theorem Rule.droppedAt_isEmpty {edges : List α} {n : κ} :
    (R.droppedAt edges n).isEmpty = true ↔ ¬ ∃ e ∈ edges, R.dropped e = n := by
  simp [Rule.droppedAt]

theorem Rule.mergedAt_isEmpty {edges : List α} {n : κ} :
    (R.mergedAt edges n).isEmpty = true ↔ ¬ ∃ e ∈ edges, R.merged e = n := by
  simp [Rule.mergedAt]

theorem Rule.edge_of_sides {edges : List α} {n : κ} (hm : ∃ e ∈ edges, R.merged e = n)
    (hd : ∃ e ∈ edges, R.dropped e = n) (e : α) :
    R.edge edges n e = if R.dropped e = n then none
      else if R.merged e = n then some (R.merge (R.droppedAt edges n) e) else some e := by
  unfold Rule.edge
  rw [if_neg]
  rw [Bool.or_eq_true, Rule.mergedAt_isEmpty, Rule.droppedAt_isEmpty]
  exact fun h => h.elim (· hm) (· hd)

theorem Rule.edge_of_no_sides {edges : List α} {n : κ} (hd : ¬ ∃ e ∈ edges, R.dropped e = n) (e : α) :
    R.edge edges n e = some e := by
  unfold Rule.edge
  rw [if_pos]
  rw [Bool.or_eq_true, Rule.droppedAt_isEmpty]
  exact Or.inr hd

variable {edges : List α} {n : κ} {nodes : List κ}

theorem Independent.merged_merge_notMem (hR : R.Lawful) (h : Independent R edges (n :: nodes))
    (hd : ∃ e ∈ edges, R.dropped e = n) (e : α) :
    R.merged (R.merge (R.droppedAt edges n) e) ∉ n :: nodes := by
  cases hout : R.droppedAt edges n with
  | nil =>
    have hempty := Rule.droppedAt_isEmpty.mp (List.isEmpty_iff.mpr hout)
    exact absurd hd hempty
  | cons a rest =>
    have ha : a ∈ R.droppedAt edges n := hout ▸ List.mem_cons_self
    obtain ⟨hmem, hdrop⟩ := List.mem_filter.mp ha
    rw [hR.merged_merge]
    exact h.apart a hmem (by simp [of_decide_eq_true hdrop])

theorem mem_eliminate (hm : ∃ e ∈ edges, R.merged e = n) (hd : ∃ e ∈ edges, R.dropped e = n) {x : α} :
    x ∈ R.eliminate edges n ↔ ∃ e ∈ edges, R.dropped e ≠ n ∧
      (R.merged e = n ∧ x = R.merge (R.droppedAt edges n) e ∨ R.merged e ≠ n ∧ x = e) := by
  unfold Rule.eliminate
  rw [List.mem_filterMap]
  refine exists_congr fun e => and_congr_right fun _ => ?_
  rw [Rule.edge_of_sides hm hd]
  by_cases h₁ : R.dropped e = n
  · simp [h₁]
  · by_cases h₂ : R.merged e = n
    · simp [h₁, h₂, eq_comm]
    · simp [h₁, h₂, eq_comm]

theorem Independent.droppedAt_eliminate (hR : R.Lawful) (h : Independent R edges (n :: nodes))
    (hd : ∃ e ∈ edges, R.dropped e = n) {m : κ} (hmem : m ∈ nodes) (hne : m ≠ n) :
    R.droppedAt (R.eliminate edges n) m = R.droppedAt edges m := by
  have hm : ∃ e ∈ edges, R.merged e = n := (h.sides n List.mem_cons_self).mpr hd
  unfold Rule.droppedAt Rule.eliminate
  rw [List.filter_filterMap, ← List.filterMap_eq_filter]
  apply List.filterMap_congr
  intro e he
  rw [Rule.edge_of_sides hm hd]
  by_cases h₁ : R.dropped e = n
  · simp [h₁, hne.symm, Option.guard]
  · by_cases h₂ : R.merged e = n
    · have hother : R.dropped e ≠ m := fun heq =>
        h.apart e he (by simp [heq, hmem]) (by simp [h₂])
      simp [h₁, h₂, hR.dropped_merge, hother, Option.guard]
    · simp [h₁, h₂, Option.guard, Option.filter_some]

theorem Independent.eliminate (hR : R.Lawful) (h : Independent R edges (n :: nodes)) :
    Independent R (R.eliminate edges n) nodes := by
  by_cases hd : ∃ e ∈ edges, R.dropped e = n
  · have hm : ∃ e ∈ edges, R.merged e = n := (h.sides n List.mem_cons_self).mpr hd
    constructor
    · intro x hx
      obtain ⟨e, he, _, ⟨_, rfl⟩ | ⟨_, rfl⟩⟩ := (mem_eliminate hm hd).mp hx
      · intro _ hin
        exact h.merged_merge_notMem hR hd e (List.mem_cons_of_mem _ hin)
      · intro hin hin'
        exact h.apart x he (List.mem_cons_of_mem _ hin) (List.mem_cons_of_mem _ hin')
    · intro m hmem
      have hold := h.sides m (List.mem_cons_of_mem _ hmem)
      constructor
      · rintro ⟨x, hx, hxm⟩
        obtain ⟨e, he, hen, ⟨_, rfl⟩ | ⟨hne, rfl⟩⟩ := (mem_eliminate hm hd).mp hx
        · exact absurd (List.mem_cons_of_mem _ (hxm ▸ hmem)) (h.merged_merge_notMem hR hd e)
        · obtain ⟨d, hdmem, hdm⟩ := hold.mp ⟨x, he, hxm⟩
          refine ⟨d, (mem_eliminate hm hd).mpr ⟨d, hdmem, ?_, Or.inr ⟨?_, rfl⟩⟩, hdm⟩
          · exact fun heq => hne (hxm.trans (hdm.symm.trans heq))
          · exact fun heq => h.apart d hdmem (by simp [hdm, hmem]) (by simp [heq])
      · rintro ⟨x, hx, hxm⟩
        obtain ⟨e, he, hen, ⟨hmn, rfl⟩ | ⟨hne, rfl⟩⟩ := (mem_eliminate hm hd).mp hx
        · rw [hR.dropped_merge] at hxm
          exact absurd (by simp [hmn]) (h.apart e he (by simp [hxm, hmem]))
        · obtain ⟨d, hdmem, hdm⟩ := hold.mpr ⟨x, he, hxm⟩
          refine ⟨d, (mem_eliminate hm hd).mpr ⟨d, hdmem, ?_, Or.inr ⟨?_, rfl⟩⟩, hdm⟩
          · exact fun heq => h.apart d hdmem (by simp [heq]) (by simp [hdm, hmem])
          · exact fun heq => hen (hxm.trans (hdm.symm.trans heq))
  · have hsame : R.eliminate edges n = edges := by
      unfold Rule.eliminate
      rw [show R.edge edges n = some from funext (Rule.edge_of_no_sides hd), List.filterMap_some]
    rw [hsame]
    exact ⟨fun e he hin hin' =>
      h.apart e he (List.mem_cons_of_mem _ hin) (List.mem_cons_of_mem _ hin'),
      fun m hmem => h.sides m (List.mem_cons_of_mem _ hmem)⟩

theorem Independent.follow_eq (hR : R.Lawful) : ∀ (nodes : List κ) (edges : List α), Independent R edges nodes →
      ∀ e ∈ edges, R.follow edges nodes e = R.atOnce edges nodes e := by
  intro nodes
  induction nodes with
  | nil =>
    intro edges _ e _
    simp [Rule.follow, Rule.atOnce]
  | cons n nodes ih =>
    intro edges h e he
    have hnext := h.eliminate hR
    unfold Rule.follow
    by_cases hd : ∃ e ∈ edges, R.dropped e = n
    · have hm : ∃ e ∈ edges, R.merged e = n := (h.sides n List.mem_cons_self).mpr hd
      rw [Rule.edge_of_sides hm hd]
      by_cases h₁ : R.dropped e = n
      · simp [Rule.atOnce, h₁]
      · by_cases h₂ : R.merged e = n
        · -- the edge is merged here, and no other node concerns it
          have hmem : R.merge (R.droppedAt edges n) e ∈ R.eliminate edges n :=
            (mem_eliminate hm hd).mpr ⟨e, he, h₁, Or.inl ⟨h₂, rfl⟩⟩
          have hdropped : R.dropped e ∉ n :: nodes := fun hin =>
            h.apart e he hin (by simp [h₂])
          have hmerged := h.merged_merge_notMem hR hd e
          rw [if_neg h₁, if_pos h₂, Option.bind_some, ih _ hnext _ hmem]
          unfold Rule.atOnce
          rw [hR.dropped_merge, if_neg (fun hin => hdropped (List.mem_cons_of_mem _ hin)),
            if_neg (fun hin => hmerged (List.mem_cons_of_mem _ hin)), if_neg hdropped,
            if_pos (by simp [h₂]), h₂]
        · have hmem : e ∈ R.eliminate edges n :=
            (mem_eliminate hm hd).mpr ⟨e, he, h₁, Or.inr ⟨h₂, rfl⟩⟩
          rw [if_neg h₁, if_neg h₂, Option.bind_some, ih _ hnext _ hmem]
          unfold Rule.atOnce
          simp only [List.mem_cons, h₁, h₂, false_or]
          by_cases hin : R.merged e ∈ nodes
          · rw [h.droppedAt_eliminate hR hd hin h₂]
          · simp [hin]
    · have hno : ¬ ∃ e ∈ edges, R.merged e = n := fun hm =>
        hd ((h.sides n List.mem_cons_self).mp hm)
      have hsame : R.eliminate edges n = edges := by
        unfold Rule.eliminate
        rw [show R.edge edges n = some from funext (Rule.edge_of_no_sides hd), List.filterMap_some]
      have h₁ : R.dropped e ≠ n := fun heq => hd ⟨e, he, heq⟩
      have h₂ : R.merged e ≠ n := fun heq => hno ⟨e, he, heq⟩
      rw [Rule.edge_of_no_sides hd, Option.bind_some, hsame, ih _ (hsame ▸ hnext) e he]
      unfold Rule.atOnce
      simp only [List.mem_cons, h₁, h₂, false_or]

/-! ## Nodes that no edge touches -/

/-- No edge is dropped with a node or merged at it. -/
def Gone (R : Rule α κ) (edges : List α) (n : κ) : Prop :=
  ∀ e ∈ edges, R.dropped e ≠ n ∧ R.merged e ≠ n

/-- A node has edges on both sides or on none, and where an edge is merged at it, the first edge that is
dropped with it leads on. -/
structure Bridged (R : Rule α κ) (edges : List α) (n : κ) : Prop where
  sides : (∃ e ∈ edges, R.merged e = n) ↔ ∃ e ∈ edges, R.dropped e = n
  leads : ∀ e ∈ edges, R.merged e = n → R.dropped e ≠ n →
    ∀ a ∈ (R.droppedAt edges n).head?, R.merged a ≠ n

theorem ends_eliminate (hR : R.Lawful) {x : α} (hx : x ∈ R.eliminate edges n) :
    (∃ e ∈ edges, R.dropped e = R.dropped x) ∧ ∃ e ∈ edges, R.merged e = R.merged x := by
  obtain ⟨e, he, hedge⟩ := List.mem_filterMap.mp hx
  unfold Rule.edge at hedge
  split_ifs at hedge with hsides hdropped hmerged
  · obtain rfl := Option.some.inj hedge
    exact ⟨⟨e, he, rfl⟩, e, he, rfl⟩
  · obtain rfl := Option.some.inj hedge
    refine ⟨⟨e, he, (hR.dropped_merge _ e).symm⟩, ?_⟩
    cases hout : R.droppedAt edges n with
    | nil => simp [hout] at hsides
    | cons a rest =>
      have ha : a ∈ R.droppedAt edges n := hout ▸ List.mem_cons_self
      exact ⟨a, (List.mem_filter.mp ha).1, (hR.merged_merge a rest e).symm⟩
  · obtain rfl := Option.some.inj hedge
    exact ⟨⟨e, he, rfl⟩, e, he, rfl⟩

theorem Gone.eliminate (hR : R.Lawful) {m : κ} (h : Gone R edges m) : Gone R (R.eliminate edges n) m := by
  intro x hx
  obtain ⟨⟨d, hd, hdropped⟩, e, he, hmerged⟩ := ends_eliminate hR hx
  exact ⟨hdropped ▸ (h d hd).1, hmerged ▸ (h e he).2⟩

theorem gone_eliminate (hR : R.Lawful) (h : Bridged R edges n) : Gone R (R.eliminate edges n) n := by
  by_cases hd : ∃ e ∈ edges, R.dropped e = n
  · intro x hx
    obtain ⟨e, he, hne, ⟨hmerged, rfl⟩ | ⟨hmerged, rfl⟩⟩ := (mem_eliminate (h.sides.mpr hd) hd).mp hx
    · rw [hR.dropped_merge]
      refine ⟨hne, ?_⟩
      have hleads := h.leads e he hmerged hne
      cases hout : R.droppedAt edges n with
      | nil => exact absurd hd (Rule.droppedAt_isEmpty.mp (List.isEmpty_iff.mpr hout))
      | cons a rest =>
        rw [hR.merged_merge]
        exact hleads a (by simp [hout])
    · exact ⟨hne, hmerged⟩
  · intro x hx
    obtain ⟨⟨d, hmem, hdropped⟩, e, he, hmerged⟩ := ends_eliminate hR hx
    exact ⟨fun heq => hd ⟨d, hmem, hdropped.trans heq⟩,
      fun heq => hd (h.sides.mp ⟨e, he, hmerged.trans heq⟩)⟩

/-- When each node is bridged at its turn, no edge touches any of them in the end, and no end is new. -/
theorem gone_eliminateAll (hR : R.Lawful) (h : Meets (Bridged R) R.eliminate nodes edges) :
    (∀ n ∈ nodes, Gone R (R.eliminateAll edges nodes) n) ∧ ∀ x ∈ R.eliminateAll edges nodes,
      (∃ e ∈ edges, R.dropped e = R.dropped x) ∧ ∃ e ∈ edges, R.merged e = R.merged x := by
  refine foldl_inv_of_meets (fun done es => (∀ n ∈ done, Gone R es n) ∧ ∀ x ∈ es,
      (∃ e ∈ edges, R.dropped e = R.dropped x) ∧ ∃ e ∈ edges, R.merged e = R.merged x)
    ?_ h ?_
  · rintro done es n - ⟨hgone, hends⟩ hok
    refine ⟨fun m hm => ?_, fun x hx => ?_⟩
    · rcases List.mem_append.mp hm with hm | hm
      · exact (hgone m hm).eliminate hR
      · rw [List.mem_singleton.mp hm]
        exact gone_eliminate hR hok
    · obtain ⟨⟨d, hd, hdropped⟩, e, he, hmerged⟩ := ends_eliminate hR hx
      rw [← hdropped, ← hmerged]
      exact ⟨(hends d hd).1, (hends e he).2⟩
  · exact ⟨fun n hn => absurd hn List.not_mem_nil, fun x hx => ⟨⟨x, hx, rfl⟩, x, hx, rfl⟩⟩

end Fsmc.Lib.NodeElimination
