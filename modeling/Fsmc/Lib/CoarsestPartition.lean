/-
# Fsmc.Lib.CoarsestPartition — the coarsest partition whose blocks move alike.

The elements have moves, each with a label and an element that it leads to; two elements of one block should have
the same moves up to the blocks that these lead to. The refinement loop compares signatures instead. If elements
with the same moves have the same signature, every partition whose blocks move alike splits each partition on
the way, so the loop ends with the coarsest one exactly if no signature hides a difference at the end.
-/
import Fsmc.Lib.PartitionRefinement

namespace Fsmc.Lib.PartitionRefinement

variable {α β β' γ ε τ κ : Type*}

/-! ## Partitions that split another one -/

/-- The blocks of one partition are unions of the blocks of another one. -/
structure Splits (coarse fine : List (List α)) : Prop where
  nonempty : ∀ b ∈ fine, b ≠ []
  inside : ∀ b ∈ fine, ∃ c ∈ coarse, b ⊆ c
  covers : ∀ c ∈ coarse, ∀ a ∈ c, ∃ b ∈ fine, a ∈ b ∧ b ⊆ c

theorem Splits.refl {partition : List (List α)} (h : ∀ b ∈ partition, b ≠ []) : Splits partition partition where
  nonempty := h
  inside := fun b hb => ⟨b, hb, List.Subset.refl b⟩
  covers := fun c hc _ ha => ⟨c, hc, ha, List.Subset.refl c⟩

theorem Splits.trans {coarse middle fine : List (List α)} (h : Splits coarse middle) (h' : Splits middle fine) :
    Splits coarse fine where
  nonempty := h'.nonempty
  inside := by
    intro b hb
    obtain ⟨c, hc, hbc⟩ := h'.inside b hb
    obtain ⟨d, hd, hcd⟩ := h.inside c hc
    exact ⟨d, hd, List.Subset.trans hbc hcd⟩
  covers := by
    intro d hd a ha
    obtain ⟨c, hc, hac, hcd⟩ := h.covers d hd a ha
    obtain ⟨b, hb, hab, hbc⟩ := h'.covers c hc a hac
    exact ⟨b, hb, hab, List.Subset.trans hbc hcd⟩

/-- The blocks that an element is in. -/
def blocksOf [DecidableEq α] (partition : List (List α)) (a : α) : List (List α) :=
  partition.filter fun b => a ∈ b

section BlocksOf

variable [DecidableEq α] {partition coarse fine : List (List α)} {a a' : α}

theorem mem_iff_of_blocksOf_eq (h : blocksOf partition a = blocksOf partition a') {b : List α}
    (hb : b ∈ partition) : a ∈ b ↔ a' ∈ b := by
  have hmem : ∀ x, x ∈ b ↔ b ∈ blocksOf partition x := by simp [blocksOf, hb]
  rw [hmem, hmem, h]

theorem blockIndex_eq_of_blocksOf_eq (h : blocksOf partition a = blocksOf partition a') :
    blockIndex partition a = blockIndex partition a' := by
  unfold blockIndex
  congr 1
  apply List.find?_congr
  rintro ⟨b, i⟩ hmem
  have hb : b ∈ partition := List.mem_of_getElem? (List.mem_zipIdx_iff_getElem?.mp (List.mem_reverse.mp hmem))
  exact decide_eq_decide.mpr (mem_iff_of_blocksOf_eq h hb)

theorem Splits.blocksOf_eq (h : Splits coarse fine) (heq : blocksOf fine a = blocksOf fine a') :
    blocksOf coarse a = blocksOf coarse a' := by
  have hmem : ∀ {x y : α}, blocksOf fine x = blocksOf fine y → ∀ c ∈ coarse, x ∈ c → y ∈ c := by
    intro x y hxy c hc hx
    obtain ⟨b, hb, hxb, hbc⟩ := h.covers c hc x hx
    exact hbc ((mem_iff_of_blocksOf_eq hxy hb).mp hxb)
  refine List.filter_congr fun c hc => decide_eq_decide.mpr ?_
  exact ⟨hmem heq c hc, hmem heq.symm c hc⟩

end BlocksOf

/-! ## Moves -/

/-- The moves of an element for each event, the element that a move leads to, and what else is seen of it. -/
structure Moves (α ε τ γ : Type*) where
  out : α → ε → List τ
  target : τ → α
  label : τ → γ

/-- What is seen of a move if an element is seen as a value. -/
def Moves.seen (m : Moves α ε τ γ) (view : α → β) (t : τ) : β × γ := (view (m.target t), m.label t)

/-- Two elements have the same moves for each event, in any order. -/
def Moves.Same (m : Moves α ε τ γ) (view : α → β) (a a' : α) : Prop :=
  ∀ e, ((m.out a e).map (m.seen view)).Perm ((m.out a' e).map (m.seen view))

/-- Elements that move alike still do if elements are seen less sharply. -/
theorem Moves.Same.coarsen {m : Moves α ε τ γ} {view : α → β} {view' : α → β'}
    (hview : ∀ x y, view x = view y → view' x = view' y) {a a' : α} (h : m.Same view a a') : m.Same view' a a' := by
  intro e
  have : Nonempty β' := ⟨view' a⟩
  have hfactors : Function.FactorsThrough view' view := fun x y hxy => hview x y hxy
  obtain ⟨g, rfl⟩ := (Function.factorsThrough_iff view').mp hfactors
  have hmap : ∀ l : List τ, l.map (m.seen (g ∘ view)) = (l.map (m.seen view)).map (Prod.map g id) := by
    intro l
    rw [List.map_map]
    rfl
  rw [hmap, hmap]
  exact (h e).map _

/-- The members of each block move alike. -/
def Moves.Uniform [DecidableEq α] (m : Moves α ε τ γ) (partition : List (List α)) : Prop :=
  ∀ b ∈ partition, ∀ a ∈ b, ∀ a' ∈ b, m.Same (blocksOf partition) a a'

/-- The coarsest partition that splits the start and whose blocks move alike. -/
structure Moves.Coarsest [DecidableEq α] (m : Moves α ε τ γ) (start partition : List (List α)) : Prop where
  splits : Splits start partition
  uniform : m.Uniform partition
  coarsest : ∀ other, Splits start other → m.Uniform other → Splits partition other

variable [LinearOrder κ] [DecidableEq α]

/-- The signatures hide no difference between members of one block. -/
def Moves.Faithful (m : Moves α ε τ γ) (sig : (α → Option ℕ) → α → κ) (partition : List (List α)) : Prop :=
  ∀ b ∈ partition, ∀ a ∈ b, ∀ a' ∈ b, sig (blockIndex partition) a = sig (blockIndex partition) a' →
    m.Same (blocksOf partition) a a'

section Refine

variable {m : Moves α ε τ γ} {sig : (α → Option ℕ) → α → κ} {start partition other : List (List α)}

theorem mem_split_of_subset {block b : List α} (hb : b ≠ []) (hsub : b ⊆ block)
    (hsig : ∀ a ∈ b, ∀ a' ∈ b, sig (blockIndex partition) a = sig (blockIndex partition) a') :
    ∃ c ∈ split sig partition block, b ⊆ c := by
  unfold split
  split
  · exact ⟨block, List.mem_singleton_self _, hsub⟩
  · obtain ⟨a, ha⟩ := List.exists_mem_of_ne_nil b hb
    refine ⟨_, List.mem_map_of_mem (mem_keysOf.mpr ⟨a, hsub ha, rfl⟩), fun x hx => ?_⟩
    exact List.mem_filter.mpr ⟨hsub hx, decide_eq_true (hsig x hx a ha)⟩

theorem mem_of_mem_split {block c : List α} (hc : c ∈ split sig partition block) {a x : α} (ha : a ∈ c)
    (hx : x ∈ block) (hsig : sig (blockIndex partition) x = sig (blockIndex partition) a) : x ∈ c := by
  unfold split at hc
  split at hc
  · rwa [List.mem_singleton.mp hc]
  · obtain ⟨k, -, rfl⟩ := List.mem_map.mp hc
    have hk := of_decide_eq_true (List.mem_filter.mp ha).2
    exact List.mem_filter.mpr ⟨hx, decide_eq_true (hsig.trans hk)⟩

theorem splits_refineOnce (h : ∀ b ∈ partition, b ≠ []) : Splits partition (refineOnce sig partition).1 where
  nonempty := by
    intro b hb
    obtain ⟨block, hblock, hb⟩ := List.mem_flatMap.mp hb
    exact (split_ne_nil (h block hblock)).2 b hb
  inside := by
    intro b hb
    obtain ⟨block, hblock, hb⟩ := List.mem_flatMap.mp hb
    exact ⟨block, hblock, (sublist_of_mem_split hb).subset⟩
  covers := by
    intro c hc a ha
    have hone : ∀ x ∈ [a], ∀ y ∈ [a], sig (blockIndex partition) x = sig (blockIndex partition) y := by
      intro x hx y hy
      rw [List.mem_singleton.mp hx, List.mem_singleton.mp hy]
    have hsub : [a] ⊆ c := List.cons_subset.mpr ⟨ha, List.nil_subset c⟩
    obtain ⟨b, hb, hab⟩ := mem_split_of_subset (List.cons_ne_nil a []) hsub hone
    exact ⟨b, List.mem_flatMap.mpr ⟨c, hc, hb⟩, hab (List.mem_singleton_self a), (sublist_of_mem_split hb).subset⟩

variable (hsig : ∀ ν a a', m.Same ν a a' → sig ν a = sig ν a')

include hsig

/-- A partition whose blocks move alike and that splits the blocks before a pass splits those after it. -/
theorem Splits.refineOnce (huniform : m.Uniform other) (h : Splits partition other) :
    Splits (PartitionRefinement.refineOnce sig partition).1 other := by
  have hsame : ∀ b ∈ other, ∀ a ∈ b, ∀ a' ∈ b, sig (blockIndex partition) a = sig (blockIndex partition) a' :=
    fun b hb a ha a' ha' => hsig _ _ _ ((huniform b hb a ha a' ha').coarsen fun _ _ hxy =>
      blockIndex_eq_of_blocksOf_eq (h.blocksOf_eq hxy))
  refine ⟨h.nonempty, fun b hb => ?_, fun c hc a ha => ?_⟩
  · obtain ⟨block, hblock, hsub⟩ := h.inside b hb
    obtain ⟨c, hc, hbc⟩ := mem_split_of_subset (h.nonempty b hb) hsub (hsame b hb)
    exact ⟨c, List.mem_flatMap.mpr ⟨block, hblock, hc⟩, hbc⟩
  · obtain ⟨block, hblock, hc⟩ := List.mem_flatMap.mp hc
    obtain ⟨b, hb, hab, hsub⟩ := h.covers block hblock a ((sublist_of_mem_split hc).subset ha)
    exact ⟨b, hb, hab, fun x hx => mem_of_mem_split hc ha (hsub hx) (hsame b hb x hx a hab)⟩

/-- **The loop ends with the coarsest partition** whose blocks move alike if and only if the signatures hide no
difference there. -/
theorem refine_coarsest_iff (hstart : Refines start start) {fuel : ℕ} (h : refine sig fuel start = some partition) :
    m.Coarsest start partition ↔ m.Faithful sig partition := by
  constructor
  · exact fun hcoarsest b hb a ha a' ha' _ => hcoarsest.uniform b hb a ha a' ha'
  · intro hfaithful
    have huniform : m.Uniform partition := fun b hb a ha a' ha' =>
      hfaithful b hb a ha a' ha' (refine_uniform hstart h hb ha ha')
    refine ⟨?_, huniform, fun other hsplits hother => ?_⟩
    · obtain ⟨last, ⟨hlast, -⟩, -, rfl⟩ := whileChanged_spec (fun p => Splits start p ∧ ∀ b ∈ p, b ≠ [])
        (fun p hp => ⟨hp.1.trans (splits_refineOnce hp.2), (splits_refineOnce hp.2).nonempty⟩)
        ⟨Splits.refl hstart.nonempty, hstart.nonempty⟩ h
      exact hlast.trans (splits_refineOnce hlast.nonempty)
    · obtain ⟨last, hlast, -, rfl⟩ := whileChanged_spec (fun p => Splits p other)
        (fun p hp => Splits.refineOnce hsig hother hp) hsplits h
      exact Splits.refineOnce hsig hother hlast

end Refine

end Fsmc.Lib.PartitionRefinement
