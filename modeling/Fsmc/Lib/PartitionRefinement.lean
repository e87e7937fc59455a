/-
# Fsmc.Lib.PartitionRefinement — splitting blocks until a signature tells no two members apart.

A partition is a list of blocks. A pass splits each block by a signature that may look at the number of
any element's block; the loop ends when no block is split. Every block of the result lies inside a block
of the start, in its order, and its members have the same signature.
-/
import Fsmc.Lib.Loop
import Mathlib.Data.List.Dedup
import Mathlib.Data.List.Sort
import Mathlib.Data.List.Find
import Mathlib.Data.List.Pairwise

namespace Fsmc.Lib.PartitionRefinement

variable {α κ : Type*} [LinearOrder κ]

/-! ## Grouping by a key -/

/-- The keys that occur, in order. -/
def keysOf (key : α → κ) (l : List α) : List κ := (l.map key).dedup.insertionSort (· ≤ ·)

/-- The elements grouped by key, the groups in the order of the keys. -/
def groupBy (key : α → κ) (l : List α) : List (List α) :=
  (keysOf key l).map fun k => l.filter fun a => key a = k

section GroupBy

variable {key : α → κ} {l b : List α}

theorem mem_keysOf {k : κ} : k ∈ keysOf key l ↔ ∃ a ∈ l, key a = k := by
  simp [keysOf]

theorem keysOf_nodup : (keysOf key l).Nodup :=
  (List.perm_insertionSort _ _).nodup_iff.mpr (List.nodup_dedup _)

theorem exists_key_of_mem_groupBy (h : b ∈ groupBy key l) : ∃ k, b = l.filter fun a => key a = k := by
  obtain ⟨k, -, rfl⟩ := List.mem_map.mp h
  exact ⟨k, rfl⟩

theorem sublist_of_mem_groupBy (h : b ∈ groupBy key l) : b.Sublist l := by
  obtain ⟨k, rfl⟩ := exists_key_of_mem_groupBy h
  exact List.filter_sublist

theorem ne_nil_of_mem_groupBy (h : b ∈ groupBy key l) : b ≠ [] := by
  obtain ⟨k, hk, rfl⟩ := List.mem_map.mp h
  obtain ⟨a, ha, hkey⟩ := mem_keysOf.mp hk
  intro hnil
  have hmem : a ∈ l.filter fun a => key a = k := List.mem_filter.mpr ⟨ha, by simpa using hkey⟩
  rw [hnil] at hmem
  exact absurd hmem List.not_mem_nil

theorem key_eq_of_mem_groupBy (h : b ∈ groupBy key l) {a a' : α} (ha : a ∈ b) (ha' : a' ∈ b) : key a = key a' := by
  obtain ⟨k, rfl⟩ := exists_key_of_mem_groupBy h
  have hk := of_decide_eq_true (List.mem_filter.mp ha).2
  have hk' := of_decide_eq_true (List.mem_filter.mp ha').2
  exact hk.trans hk'.symm

theorem flatMap_filter_perm (ks : List κ) (hnodup : ks.Nodup) (l : List α)
    (h : ∀ a ∈ l, key a ∈ ks) : (ks.flatMap fun k => l.filter fun a => key a = k).Perm l := by
  induction ks generalizing l with
  | nil =>
    have hnil : l = [] := List.eq_nil_iff_forall_not_mem.mpr fun a ha =>
      absurd (h a ha) List.not_mem_nil
    rw [hnil]
    exact List.Perm.refl _
  | cons k ks ih =>
    obtain ⟨hk, hks⟩ := List.nodup_cons.mp hnodup
    have hrest : (ks.flatMap fun k' => l.filter fun a => key a = k') =
        ks.flatMap fun k' => (l.filter fun a => !decide (key a = k)).filter fun a => key a = k' := by
      apply List.flatMap_congr
      intro k' hk'
      rw [List.filter_filter]
      apply List.filter_congr
      intro a _
      have hne : k' ≠ k := by
        rintro rfl
        exact hk hk'
      by_cases ha : key a = k'
      · simp [ha, hne]
      · simp [ha]
    rw [List.flatMap_cons, hrest]
    have hperm := ih hks (l.filter fun a => !decide (key a = k)) (by
      intro a ha
      obtain ⟨ha, hne⟩ := List.mem_filter.mp ha
      have hne' : key a ≠ k := by simpa using hne
      exact (List.mem_cons.mp (h a ha)).resolve_left hne')
    exact (hperm.append_left _).trans (List.filter_append_perm _ l)

theorem groupBy_flatten_perm (key : α → κ) (l : List α) : (groupBy key l).flatten.Perm l := by
  unfold groupBy
  rw [← List.flatMap_def]
  exact flatMap_filter_perm _ keysOf_nodup l fun a ha => mem_keysOf.mpr ⟨a, ha, rfl⟩

theorem groupBy_eq_singleton (hne : l ≠ []) (h : (groupBy key l).length ≤ 1) : groupBy key l = [l] := by
  have hperm := groupBy_flatten_perm key l
  cases hgroups : groupBy key l with
  | nil =>
    rw [hgroups] at hperm
    exact absurd hperm.symm.eq_nil hne
  | cons b rest =>
    rw [hgroups] at h hperm
    have hrest : rest = [] := List.length_eq_zero_iff.mp (by
      simp only [List.length_cons] at h
      omega)
    subst hrest
    have hmem : b ∈ groupBy key l := by simp [hgroups]
    have hlen : b.length = l.length := by simpa using hperm.length_eq
    rw [(sublist_of_mem_groupBy hmem).eq_of_length hlen]

end GroupBy

/-! ## Refinement -/

variable [DecidableEq α]

/-- The number of the block that an element is in. -/
def blockIndex (partition : List (List α)) (a : α) : Option ℕ :=
  (partition.zipIdx.reverse.find? fun p => a ∈ p.1).map (·.2)

/-- The parts that a block is split into; a block with at most one member is left alone. -/
def split (sig : (α → Option ℕ) → α → κ) (partition : List (List α)) (block : List α) :
    List (List α) :=
  if block.length ≤ 1 then [block] else groupBy (sig (blockIndex partition)) block

/-- One pass over the blocks. -/
def refineOnce (sig : (α → Option ℕ) → α → κ) (partition : List (List α)) :
    List (List α) × Bool :=
  (partition.flatMap (split sig partition),
    partition.any fun block => 1 < (split sig partition block).length)

/-- Passes until no block is split. -/
def refine (sig : (α → Option ℕ) → α → κ) (fuel : ℕ) (partition : List (List α)) :
    Option (List (List α)) :=
  whileChanged (refineOnce sig) fuel partition

/-- Elements are told apart by a numbering only if their signatures are told apart. -/
def Stable (sig : (α → Option ℕ) → α → κ) (ν : α → Option ℕ) : Prop :=
  ∀ a a' i, ν a = some i → ν a' = some i → sig ν a = sig ν a'

theorem exists_of_blockIndex {partition : List (List α)} {a : α} {i : ℕ}
    (h : blockIndex partition a = some i) : ∃ b, partition[i]? = some b ∧ a ∈ b := by
  obtain ⟨⟨b, j⟩, hfind, rfl⟩ := Option.map_eq_some_iff.mp h
  have hmem := List.mem_reverse.mp (List.mem_of_find?_eq_some hfind)
  have ha : a ∈ b := by simpa using List.find?_some hfind
  exact ⟨b, List.mem_zipIdx_iff_getElem?.mp hmem, ha⟩

theorem blockIndex_isSome {partition : List (List α)} {a : α} {b : List α} (hb : b ∈ partition)
    (ha : a ∈ b) : (blockIndex partition a).isSome = true := by
  unfold blockIndex
  rw [Option.isSome_map, List.find?_isSome]
  obtain ⟨i, hi⟩ := List.mem_iff_getElem?.mp hb
  exact ⟨(b, i), List.mem_reverse.mpr (List.mem_zipIdx_iff_getElem?.mpr hi), by simpa using ha⟩

/-- A partition that comes from another one by splitting blocks. -/
structure Refines (start partition : List (List α)) : Prop where
  nonempty : ∀ b ∈ partition, b ≠ []
  perm : partition.flatten.Perm start.flatten
  sublist : ∀ b ∈ partition, ∃ b₀ ∈ start, b.Sublist b₀

section Refine

variable {sig : (α → Option ℕ) → α → κ} {start partition : List (List α)}

theorem split_perm (block : List α) : (split sig partition block).flatten.Perm block := by
  unfold split
  split
  · simp
  · exact groupBy_flatten_perm _ _

theorem sublist_of_mem_split {block b : List α} (h : b ∈ split sig partition block) : b.Sublist block := by
  unfold split at h
  split at h
  · rw [List.mem_singleton.mp h]
  · exact sublist_of_mem_groupBy h

theorem split_ne_nil {block : List α} (hne : block ≠ []) :
    split sig partition block ≠ [] ∧ ∀ b ∈ split sig partition block, b ≠ [] := by
  unfold split
  split
  · exact ⟨by simp, fun b hb => by rwa [List.mem_singleton.mp hb]⟩
  · refine ⟨?_, fun b hb => ne_nil_of_mem_groupBy hb⟩
    intro hnil
    have hperm := groupBy_flatten_perm (sig (blockIndex partition)) block
    rw [hnil] at hperm
    exact hne hperm.symm.eq_nil

variable (blocks : List (List α)) {fuel : ℕ} {result : List (List α)}

theorem flatten_flatMap_split_perm :
    (blocks.flatMap (split sig partition)).flatten.Perm blocks.flatten := by
  induction blocks with
  | nil => exact List.Perm.refl _
  | cons b blocks ih =>
    rw [List.flatMap_cons, List.flatten_append, List.flatten_cons]
    exact (split_perm b).append ih

theorem Refines.refineOnce (h : Refines start partition) : Refines start (refineOnce sig partition).1 where
  nonempty := by
    intro b hb
    obtain ⟨block, hblock, hb⟩ := List.mem_flatMap.mp hb
    exact (split_ne_nil (h.nonempty block hblock)).2 b hb
  perm := (flatten_flatMap_split_perm partition).trans h.perm
  sublist := by
    intro b hb
    obtain ⟨block, hblock, hb⟩ := List.mem_flatMap.mp hb
    obtain ⟨b₀, hb₀, hsub⟩ := h.sublist block hblock
    exact ⟨b₀, hb₀, (sublist_of_mem_split hb).trans hsub⟩

theorem split_eq_of_unchanged (h : Refines start partition)
    (hflag : (PartitionRefinement.refineOnce sig partition).2 = false) {b : List α} (hb : b ∈ partition) :
    split sig partition b = [b] := by
  have hle : (split sig partition b).length ≤ 1 := by
    have hnot := List.any_eq_false.mp hflag b hb
    simp only [decide_eq_true_eq] at hnot
    omega
  unfold split at hle ⊢
  split
  · rfl
  · next hlarge =>
      rw [if_neg hlarge] at hle
      exact groupBy_eq_singleton (h.nonempty b hb) hle

theorem sig_eq_of_split_eq {b : List α} (hb : split sig partition b = [b]) {a a' : α} (ha : a ∈ b)
    (ha' : a' ∈ b) : sig (blockIndex partition) a = sig (blockIndex partition) a' := by
  unfold split at hb
  split at hb
  · next hsmall =>
      have heq : a = a' := by
        match b, hsmall with
        | [], _ => exact absurd ha List.not_mem_nil
        | [c], _ => exact (List.mem_singleton.mp ha).trans (List.mem_singleton.mp ha').symm
      rw [heq]
  · have hgroup : b ∈ groupBy (sig (blockIndex partition)) b := by
      rw [hb]
      exact List.mem_singleton_self b
    exact key_eq_of_mem_groupBy hgroup ha ha'

theorem refineOnce_unchanged (h : Refines start partition)
    (hflag : (PartitionRefinement.refineOnce sig partition).2 = false) :
    (PartitionRefinement.refineOnce sig partition).1 = partition ∧
      Stable sig (blockIndex partition) := by
  refine ⟨?_, ?_⟩
  · show partition.flatMap (split sig partition) = partition
    rw [List.flatMap_congr fun b hb => split_eq_of_unchanged h hflag hb]
    exact List.flatMap_singleton' partition
  · intro a a' i ha ha'
    obtain ⟨b, hb, hab⟩ := exists_of_blockIndex ha
    obtain ⟨b', hb', hab'⟩ := exists_of_blockIndex ha'
    obtain rfl : b = b' := Option.some.inj (hb.symm.trans hb')
    exact sig_eq_of_split_eq (split_eq_of_unchanged h hflag (List.mem_of_getElem? hb)) hab hab'

omit [DecidableEq α] in
theorem Refines.length_le (h : Refines start partition) : partition.length ≤ start.flatten.length := by
  rw [← h.perm.length_eq]
  have hne := h.nonempty
  clear h
  induction partition with
  | nil => simp
  | cons b partition ih =>
    have hb : 0 < b.length := List.length_pos_iff.mpr (hne b List.mem_cons_self)
    have hrest := ih fun b' hb' => hne b' (List.mem_cons_of_mem _ hb')
    rw [List.length_cons, List.flatten_cons, List.length_append]
    omega

theorem length_lt_of_split (hne : ∀ b ∈ blocks, b ≠ [])
    (h : (blocks.any fun block => 1 < (split sig partition block).length) = true) :
    blocks.length < (blocks.flatMap (split sig partition)).length := by
  have hle : ∀ blocks : List (List α), (∀ b ∈ blocks, b ≠ []) →
      blocks.length ≤ (blocks.flatMap (split sig partition)).length := by
    intro blocks
    induction blocks with
    | nil => simp
    | cons b blocks ih =>
      intro hne
      have hb : split sig partition b ≠ [] := (split_ne_nil (hne b List.mem_cons_self)).1
      have hpos := List.length_pos_iff.mpr hb
      have hrest := ih fun b' hb' => hne b' (List.mem_cons_of_mem _ hb')
      rw [List.flatMap_cons, List.length_append, List.length_cons]
      omega
  induction blocks with
  | nil => simp at h
  | cons b blocks ih =>
    have hb : split sig partition b ≠ [] := (split_ne_nil (hne b List.mem_cons_self)).1
    have hpos := List.length_pos_iff.mpr hb
    have hrest : ∀ b' ∈ blocks, b' ≠ [] := fun b' hb' => hne b' (List.mem_cons_of_mem _ hb')
    rw [List.flatMap_cons, List.length_append, List.length_cons]
    rw [List.any_cons, Bool.or_eq_true, decide_eq_true_eq] at h
    rcases h with hsplit | hany
    · have := hle blocks hrest
      omega
    · have := ih hrest hany
      omega

/-- **Termination.** There are at most as many passes as elements. -/
theorem refine_isSome (hstart : Refines start start)
    (hfuel : start.flatten.length < fuel) : (refine sig fuel start).isSome = true := by
  refine whileChanged_isSome (Refines start) (fun p => start.flatten.length - p.length)
    (fun _ hp => hp.refineOnce) ?_ hstart (by omega)
  intro p hp hflag
  have hlt : p.length < (PartitionRefinement.refineOnce sig p).1.length :=
    length_lt_of_split p hp.nonempty hflag
  have hnext : Refines start (PartitionRefinement.refineOnce sig p).1 := hp.refineOnce
  have hle := hnext.length_le
  omega

/-- **The result** is stable, and refines the start. -/
theorem refine_spec (hstart : Refines start start)
    (h : refine sig fuel start = some result) :
    Refines start result ∧ Stable sig (blockIndex result) := by
  obtain ⟨last, hlast, hflag, hresult⟩ := whileChanged_spec (Refines start)
    (fun _ hp => hp.refineOnce) hstart h
  obtain ⟨heq, hstable⟩ := refineOnce_unchanged hlast hflag
  rw [heq] at hresult
  subst hresult
  exact ⟨hlast, hstable⟩

theorem refine_uniform (hstart : Refines start start)
    (h : refine sig fuel start = some result) {b : List α} (hb : b ∈ result) {a a' : α} (ha : a ∈ b)
    (ha' : a' ∈ b) : sig (blockIndex result) a = sig (blockIndex result) a' := by
  obtain ⟨last, hlast, hflag, hresult⟩ := whileChanged_spec (Refines start)
    (fun _ hp => hp.refineOnce) hstart h
  rw [(refineOnce_unchanged hlast hflag).1] at hresult
  subst hresult
  exact sig_eq_of_split_eq (split_eq_of_unchanged hlast hflag hb) ha ha'

end Refine

/-! ## Representatives -/

/-- The members of a block, each with the first one, which stands for them. -/
def mergeBlock : List α → List (α × α)
  | [] => []
  | first :: rest => rest.map fun a => (a, first)

/-- The elements that are replaced, with what replaces them. -/
def remapping (partition : List (List α)) : List (α × α) := partition.flatMap mergeBlock

/-- What stands for an element. -/
def representative (partition : List (List α)) (a : α) : α :=
  ((remapping partition).reverse.lookup a).getD a

section Representative

variable {partition : List (List α)} {a c : α} {b : List α}

omit [DecidableEq α] in
theorem mem_mergeBlock_iff : (a, c) ∈ mergeBlock b ↔ ∃ rest, b = c :: rest ∧ a ∈ rest := by
  cases b with
  | nil => simp [mergeBlock]
  | cons first rest =>
    simp only [mergeBlock, List.mem_map, Prod.mk.injEq, List.cons.injEq]
    constructor
    · rintro ⟨a', ha', rfl, rfl⟩
      exact ⟨rest, ⟨rfl, rfl⟩, ha'⟩
    · rintro ⟨rest', ⟨rfl, rfl⟩, ha⟩
      exact ⟨a, ha, rfl, rfl⟩

omit [DecidableEq α] in
theorem mem_remapping_iff : (a, c) ∈ remapping partition ↔ ∃ rest, c :: rest ∈ partition ∧ a ∈ rest := by
  unfold remapping
  rw [List.mem_flatMap]
  constructor
  · rintro ⟨b, hb, hmem⟩
    obtain ⟨rest, rfl, ha⟩ := mem_mergeBlock_iff.mp hmem
    exact ⟨rest, hb, ha⟩
  · rintro ⟨rest, hb, ha⟩
    exact ⟨_, hb, mem_mergeBlock_iff.mpr ⟨rest, rfl, ha⟩⟩

theorem representative_cases (partition : List (List α)) (a : α) :
    (representative partition a = a ∧ ∀ c, (a, c) ∉ remapping partition) ∨
      (a, representative partition a) ∈ remapping partition := by
  unfold representative
  cases hlookup : (remapping partition).reverse.lookup a with
  | none =>
    refine Or.inl ⟨rfl, fun c hc => ?_⟩
    have hnone := List.lookup_eq_none_iff.mp hlookup (a, c) (List.mem_reverse.mpr hc)
    simp at hnone
  | some c =>
    obtain ⟨l₁, l₂, hsplit, -⟩ := List.lookup_eq_some_iff.mp hlookup
    right
    apply List.mem_reverse.mp
    rw [hsplit]
    simp

theorem block_unique (hnodup : partition.flatten.Nodup) {b b' : List α} (hb : b ∈ partition)
    (hb' : b' ∈ partition) (ha : a ∈ b) (ha' : a ∈ b') : b = b' := by
  by_contra hne
  have hsymm : Std.Symm fun l l' : List α => List.Disjoint l l' := ⟨fun _ _ h => h.symm⟩
  have hdisjoint := List.Pairwise.forall (List.nodup_flatten.mp hnodup).2 hb hb' hne
  exact hdisjoint ha ha'

theorem blockIndex_eq_of_mem (hnodup : partition.flatten.Nodup) {a' : α} (hb : b ∈ partition)
    (ha : a ∈ b) (ha' : a' ∈ b) : blockIndex partition a = blockIndex partition a' := by
  unfold blockIndex
  congr 1
  apply List.find?_congr
  rintro ⟨b', i⟩ hmem
  have hb' : b' ∈ partition := by
    have hget := List.mem_zipIdx_iff_getElem?.mp (List.mem_reverse.mp hmem)
    exact List.mem_of_getElem? hget
  apply decide_eq_decide.mpr
  constructor
  · intro h
    rwa [block_unique hnodup hb' hb h ha]
  · intro h
    rwa [block_unique hnodup hb' hb h ha']

theorem representative_of_mem (hnodup : partition.flatten.Nodup) {rest : List α}
    (hb : c :: rest ∈ partition) (ha : a ∈ c :: rest) : representative partition a = c := by
  rcases representative_cases partition a with ⟨heq, hnot⟩ | hmem
  · rcases List.mem_cons.mp ha with rfl | ha
    · exact heq
    · exact absurd (mem_remapping_iff.mpr ⟨rest, hb, ha⟩) (hnot c)
  · obtain ⟨rest', hb', ha'⟩ := mem_remapping_iff.mp hmem
    have heq := block_unique hnodup hb hb' ha (List.mem_cons_of_mem _ ha')
    exact (List.cons.inj heq).1.symm

theorem eq_or_block_of_representative_eq (hnodup : partition.flatten.Nodup) {a a' : α}
    (h : representative partition a = representative partition a') :
    a = a' ∨ ∃ b ∈ partition, a ∈ b ∧ a' ∈ b := by
  rcases representative_cases partition a with ⟨heq, -⟩ | hmem
  · rcases representative_cases partition a' with ⟨heq', -⟩ | hmem'
    · exact Or.inl (heq.symm.trans (h.trans heq'))
    · obtain ⟨rest, hb, ha'⟩ := mem_remapping_iff.mp hmem'
      refine Or.inr ⟨_, hb, ?_, List.mem_cons_of_mem _ ha'⟩
      rw [← h, heq]
      exact List.mem_cons_self
  · obtain ⟨rest, hb, ha⟩ := mem_remapping_iff.mp hmem
    rcases representative_cases partition a' with ⟨heq', -⟩ | hmem'
    · refine Or.inr ⟨_, hb, List.mem_cons_of_mem _ ha, ?_⟩
      rw [h, heq']
      exact List.mem_cons_self
    · obtain ⟨rest', hb', ha'⟩ := mem_remapping_iff.mp hmem'
      have hblock := block_unique hnodup hb hb' (a := representative partition a)
        List.mem_cons_self (by rw [h]; exact List.mem_cons_self)
      refine Or.inr ⟨_, hb, List.mem_cons_of_mem _ ha, ?_⟩
      rw [hblock]
      exact List.mem_cons_of_mem _ ha'

theorem representative_not_replaced (hnodup : partition.flatten.Nodup) (a c : α) :
    (representative partition a, c) ∉ remapping partition := by
  rcases representative_cases partition a with ⟨heq, hnot⟩ | hmem
  · rw [heq]
    exact hnot c
  · intro hreplaced
    obtain ⟨rest, hb, -⟩ := mem_remapping_iff.mp hmem
    obtain ⟨rest', hb', hrest'⟩ := mem_remapping_iff.mp hreplaced
    have heq := block_unique hnodup hb hb' List.mem_cons_self (List.mem_cons_of_mem _ hrest')
    obtain ⟨rfl, rfl⟩ := List.cons.inj heq
    have hblock := (List.nodup_flatten.mp hnodup).1 _ hb
    exact (List.nodup_cons.mp hblock).1 hrest'

end Representative

end Fsmc.Lib.PartitionRefinement
