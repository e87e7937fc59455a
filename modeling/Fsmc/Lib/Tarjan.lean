/-
# Fsmc.Lib.Tarjan — Tarjan's strongly connected components, with its correctness proof.

The algorithm is the recursive one: every vertex gets an index when it is entered and a low link that
the scan of its successors lowers; a vertex whose low link is still its index when the scan is over
closes a component, which is what lies above it on the stack.

The proof follows the colours of the depth-first search. `G` is the set of *grey* vertices, those whose
scan is not over; a visited vertex is on the stack or in a closed component. `DfsInv` is what holds
between any two steps. `LoopInv` is what the scan of the successors of one vertex keeps, and `Entered`
is what a finished call leaves behind; each is proved from the other by induction on the depth of the
calls that are still allowed. `components_spec` is the result: the components are the classes of mutual
reachability, and every vertex of the graph is in one of them.
-/
import Fsmc.Lib.Loop
import Fsmc.Lib.Walk
import Mathlib.Data.Set.Insert

namespace Fsmc.Lib

open Relation

variable {α : Type*}

def SuccStep (succ : α → List α) (a b : α) : Prop := b ∈ succ a

/-- A walk along successors. -/
abbrev Reach (succ : α → List α) : α → α → Prop := ReflTransGen (SuccStep succ)

/-- The variables of the search. -/
structure Dfs (α : Type*) where
  indexMap : α → Option Nat
  lowlinkMap : α → Nat
  onStack : α → Bool
  stack : List α
  index : Nat
  sccs : List (List α)

namespace Dfs

/-- Nothing visited yet. -/
def empty : Dfs α := ⟨fun _ => none, fun _ => 0, fun _ => false, [], 0, []⟩

/-- The vertex has been given an index. -/
def Visited (st : Dfs α) (x : α) : Prop := (st.indexMap x).isSome = true

instance (st : Dfs α) (x : α) : Decidable (st.Visited x) := inferInstanceAs (Decidable (_ = true))

/-- The index of a visited vertex. -/
def indexOf (st : Dfs α) (x : α) : Nat := (st.indexMap x).getD 0

section Operations

variable [DecidableEq α]

/-- A new vertex gets the next index and goes on the stack. -/
def enter (v : α) (st : Dfs α) : Dfs α :=
  { st with
    indexMap := Function.update st.indexMap v (some st.index)
    lowlinkMap := Function.update st.lowlinkMap v st.index
    onStack := Function.update st.onStack v true
    stack := v :: st.stack
    index := st.index + 1 }

/-- `lowlink[v] = min(lowlink[v], i)`. -/
def lower (v : α) (i : Nat) (st : Dfs α) : Dfs α :=
  { st with lowlinkMap := Function.update st.lowlinkMap v (min (st.lowlinkMap v) i) }

/-- Splits a stack after `v`: what is popped, down to `v`, and what stays. -/
def popUntil (v : α) : List α → List α × List α
  | [] => ([], [])
  | w :: rest => if w = v then ([w], rest) else (w :: (popUntil v rest).1, (popUntil v rest).2)

/-- The stack down to `v` becomes a component. -/
def close (v : α) (st : Dfs α) : Dfs α :=
  { st with
    onStack := fun x => st.onStack x && !decide (x ∈ (popUntil v st.stack).1)
    stack := (popUntil v st.stack).2
    sccs := st.sccs ++ [(popUntil v st.stack).1] }

/-- After the scan: a vertex whose low link is its own index closes a component. -/
def finish (v : α) (st : Dfs α) : Dfs α :=
  if some (st.lowlinkMap v) = st.indexMap v then st.close v else st

end Operations

end Dfs

section Algorithm

variable [DecidableEq α]

/-- Looking at the successor `w` of `v`; `call` is the search from a vertex not visited yet. -/
def scanSucc (call : α → Dfs α → Option (Dfs α)) (v : α) (st : Dfs α) (w : α) : Option (Dfs α) :=
  match st.indexMap w with
  | none => (call w st).map fun st' => st'.lower v (st'.lowlinkMap w)
  | some i => some (if st.onStack w then st.lower v i else st)

/-- The depth-first search from `v`, with at most `n` nested calls. -/
def strongconnect (succ : α → List α) : Nat → α → Dfs α → Option (Dfs α)
  | 0, _, _ => none
  | n + 1, v, st =>
    ((succ v).foldlM (scanSucc (strongconnect succ n) v) (st.enter v)).map (Dfs.finish v)

/-- The search from a vertex, unless it has been visited before. -/
def visit (succ : α → List α) (n : Nat) (st : Dfs α) (s : α) : Option (Dfs α) :=
  if st.Visited s then some st else strongconnect succ n s st

/-- The search from every vertex of `roots` in turn. -/
def components (succ : α → List α) (n : Nat) (roots : List α) : Option (Dfs α) :=
  roots.foldlM (visit succ n) Dfs.empty

end Algorithm

/-! ## The invariant -/

/-- What holds between any two steps of a search inside `univ`, `G` being the grey vertices. -/
structure DfsInv (succ : α → List α) (univ : List α) (G : Set α) (st : Dfs α) : Prop where
  inside : ∀ x, st.Visited x → x ∈ univ
  visited_iff : ∀ x, st.Visited x ↔ x ∈ st.stack ∨ x ∈ st.sccs.flatten
  nodup : (st.stack ++ st.sccs.flatten).Nodup
  onStack_iff : ∀ x, st.onStack x = true ↔ x ∈ st.stack
  index_lt : ∀ x, st.Visited x → st.indexOf x < st.index
  sorted : st.stack.Pairwise fun x y => st.indexOf y < st.indexOf x
  grey_stack : ∀ g ∈ G, g ∈ st.stack
  upward : ∀ x ∈ st.stack, ∀ y ∈ st.stack, st.indexOf x ≤ st.indexOf y → Reach succ x y
  toGrey : ∀ y ∈ st.stack, ∃ g ∈ G, st.indexOf g ≤ st.indexOf y ∧ Reach succ y g
  black : ∀ x, st.Visited x → x ∉ G → ∀ w ∈ succ x, st.Visited w
  done : ∀ x ∈ st.sccs.flatten, ∀ w ∈ succ x, w ∈ st.sccs.flatten
  isClass : ∀ c ∈ st.sccs, c ≠ [] ∧ ∀ x ∈ c, ∀ y, y ∈ c ↔ Reach succ x y ∧ Reach succ y x

/-- What a call never changes: the index and the low link of vertices visited before it. -/
structure Frame (st st' : Dfs α) : Prop where
  index_eq : ∀ x, st.Visited x → st'.indexMap x = st.indexMap x
  lowlink_eq : ∀ x, st.Visited x → st'.lowlinkMap x = st.lowlinkMap x

/-- What a call for `v` leaves behind. -/
structure Entered (succ : α → List α) (univ : List α) (G : Set α) (v : α) (st st' : Dfs α) : Prop where
  inv : DfsInv succ univ G st'
  frame : Frame st st'
  index_self : st'.indexMap v = some st.index
  stack_eq : ∃ new, st'.stack = new ++ st.stack ∧
    ∀ x ∈ new, ∀ y ∈ st.stack, y ∈ succ x → st'.lowlinkMap v ≤ st.indexOf y
  witness : st'.lowlinkMap v = st.index ∨
    ∃ y ∈ st'.stack, st'.indexOf y = st'.lowlinkMap v ∧ Reach succ v y

/-- What the scan of the successors of `v` keeps, when those in `scanned` have been looked at and the
call for `v` started in `st₀`. -/
structure LoopInv (succ : α → List α) (univ : List α) (G : Set α) (v : α) (st₀ : Dfs α) (scanned : List α)
    (st : Dfs α) : Prop where
  inv : DfsInv succ univ (insert v G) st
  frame : Frame st₀ st
  index_self : st.indexMap v = some st₀.index
  stack_eq : ∃ new, st.stack = new ++ v :: st₀.stack ∧
    ∀ x ∈ new, ∀ y ∈ st₀.stack, y ∈ succ x → st.lowlinkMap v ≤ st₀.indexOf y
  low_le : st.lowlinkMap v ≤ st₀.index
  witness : ∃ y ∈ st.stack, st.indexOf y = st.lowlinkMap v ∧ Reach succ v y
  looked : ∀ w ∈ scanned, st.Visited w ∧ (w ∈ st₀.stack → st.lowlinkMap v ≤ st₀.indexOf w)

section Correctness

variable {succ : α → List α} {univ : List α} {G : Set α} {v : α} {st st' st₀ : Dfs α}

variable {x : α} {scanned : List α} {top : List α}

theorem ne_of_visited (hx : st.Visited x) (hv : ¬ st.Visited v) : x ≠ v := by
  rintro rfl
  exact hv hx

theorem Frame.visited (h : Frame st st') (hx : st.Visited x) : st'.Visited x := by
  rw [Dfs.Visited, h.index_eq x hx]
  exact hx

theorem Frame.indexOf_eq (h : Frame st st') (hx : st.Visited x) : st'.indexOf x = st.indexOf x := by
  rw [Dfs.indexOf, h.index_eq x hx, Dfs.indexOf]

theorem Frame.trans {st'' : Dfs α} (h : Frame st st') (h' : Frame st' st'') : Frame st st'' where
  index_eq x hx := (h'.index_eq x (h.visited hx)).trans (h.index_eq x hx)
  lowlink_eq x hx := (h'.lowlink_eq x (h.visited hx)).trans (h.lowlink_eq x hx)

theorem DfsInv.visited_of_stack (h : DfsInv succ univ G st) (hx : x ∈ st.stack) : st.Visited x :=
  (h.visited_iff x).mpr (Or.inl hx)

theorem dfsInv_empty : DfsInv succ univ (∅ : Set α) Dfs.empty where
  inside _ hx := by simp [Dfs.Visited, Dfs.empty] at hx
  visited_iff x := by simp [Dfs.Visited, Dfs.empty]
  nodup := List.nodup_nil
  onStack_iff x := by simp [Dfs.empty]
  index_lt _ hx := by simp [Dfs.Visited, Dfs.empty] at hx
  sorted := List.Pairwise.nil
  grey_stack g hg := absurd hg (Set.notMem_empty g)
  upward _ hx := absurd hx List.not_mem_nil
  toGrey _ hy := absurd hy List.not_mem_nil
  black _ hx := by simp [Dfs.Visited, Dfs.empty] at hx
  done _ hx := absurd hx List.not_mem_nil
  isClass c hc := absurd hc List.not_mem_nil

variable [DecidableEq α]

theorem Dfs.popUntil_append {new rest : List α} (hv : v ∉ new) :
    Dfs.popUntil v (new ++ v :: rest) = (new ++ [v], rest) := by
  induction new with
  | nil => simp [Dfs.popUntil]
  | cons w new ih =>
    have hwv : w ≠ v := fun h => hv (h ▸ List.mem_cons_self)
    have hnew : v ∉ new := fun h => hv (List.mem_cons_of_mem _ h)
    rw [List.cons_append, Dfs.popUntil, if_neg hwv, ih hnew]
    rfl

theorem DfsInv.lower (h : DfsInv succ univ G st) (v : α) (i : Nat) : DfsInv succ univ G (st.lower v i) :=
  ⟨h.inside, h.visited_iff, h.nodup, h.onStack_iff, h.index_lt, h.sorted, h.grey_stack, h.upward, h.toGrey,
    h.black, h.done, h.isClass⟩

/-! ## Entering a vertex -/

theorem Dfs.indexMap_enter_self : (st.enter v).indexMap v = some st.index :=
  Function.update_self ..

theorem Dfs.indexMap_enter_of_ne (hx : x ≠ v) : (st.enter v).indexMap x = st.indexMap x :=
  Function.update_of_ne hx ..

theorem Dfs.visited_enter : (st.enter v).Visited x ↔ x = v ∨ st.Visited x := by
  by_cases hx : x = v
  · simp [Dfs.Visited, hx, Dfs.indexMap_enter_self]
  · simp [Dfs.Visited, hx, Dfs.indexMap_enter_of_ne hx]

theorem Dfs.frame_enter (hv : ¬ st.Visited v) : Frame st (st.enter v) where
  index_eq _ hx := Dfs.indexMap_enter_of_ne (ne_of_visited hx hv)
  lowlink_eq _ hx := Function.update_of_ne (ne_of_visited hx hv) ..

theorem DfsInv.enter (h : DfsInv succ univ G st) (hmem : v ∈ univ) (hv : ¬ st.Visited v)
    (hG : ∀ g ∈ G, Reach succ g v) : DfsInv succ univ (insert v G) (st.enter v) := by
  have hframe : Frame st (st.enter v) := Dfs.frame_enter hv
  have hself : (st.enter v).indexOf v = st.index := by
    rw [Dfs.indexOf, Dfs.indexMap_enter_self, Option.getD_some]
  have hold : ∀ x ∈ st.stack, (st.enter v).indexOf x = st.indexOf x :=
    fun x hx => hframe.indexOf_eq (h.visited_of_stack hx)
  have hlt : ∀ x ∈ st.stack, (st.enter v).indexOf x < (st.enter v).indexOf v := by
    intro x hx
    rw [hself, hold x hx]
    exact h.index_lt x (h.visited_of_stack hx)
  have hreach : ∀ x ∈ st.stack, Reach succ x v := by
    intro x hx
    obtain ⟨g, hg, _, hxg⟩ := h.toGrey x hx
    exact hxg.trans (hG g hg)
  refine ⟨?_, ?_, ?_, ?_, ?_, ?_, ?_, ?_, ?_, ?_, h.done, h.isClass⟩
  · intro x hx
    rcases Dfs.visited_enter.mp hx with rfl | hx
    · exact hmem
    · exact h.inside x hx
  · intro x
    rw [Dfs.visited_enter, h.visited_iff]
    simp only [Dfs.enter, List.mem_cons, or_assoc]
  · refine List.nodup_cons.mpr ⟨fun hmem => hv ((h.visited_iff v).mpr ?_), h.nodup⟩
    exact List.mem_append.mp hmem
  · intro x
    by_cases hx : x = v
    · simp [Dfs.enter, hx]
    · simp only [Dfs.enter, Function.update_of_ne hx, List.mem_cons, hx, false_or]
      exact h.onStack_iff x
  · intro x hx
    rcases Dfs.visited_enter.mp hx with rfl | hx
    · rw [hself]
      exact Nat.lt_succ_self _
    · rw [hframe.indexOf_eq hx]
      exact Nat.lt_succ_of_lt (h.index_lt x hx)
  · refine List.pairwise_cons.mpr ⟨hlt, h.sorted.imp_of_mem fun {x y} hx hy hxy => ?_⟩
    rw [hold x hx, hold y hy]
    exact hxy
  · rintro g (rfl | hg)
    · exact List.mem_cons_self
    · exact List.mem_cons_of_mem _ (h.grey_stack g hg)
  · intro x hx y hy hxy
    rcases List.mem_cons.mp hx with hxv | hx
    · rcases List.mem_cons.mp hy with hyv | hy
      · rw [hxv, hyv]
      · rw [hxv] at hxy
        exact absurd hxy (Nat.not_le_of_lt (hlt y hy))
    · rcases List.mem_cons.mp hy with hyv | hy
      · rw [hyv]
        exact hreach x hx
      · rw [hold x hx, hold y hy] at hxy
        exact h.upward x hx y hy hxy
  · intro y hy
    rcases List.mem_cons.mp hy with rfl | hy
    · exact ⟨y, Set.mem_insert _ _, le_rfl, ReflTransGen.refl⟩
    · obtain ⟨g, hg, hgy, hyg⟩ := h.toGrey y hy
      refine ⟨g, Set.mem_insert_of_mem _ hg, ?_, hyg⟩
      rw [hold g (h.grey_stack g hg), hold y hy]
      exact hgy
  · intro x hx hxG w hw
    rcases Dfs.visited_enter.mp hx with rfl | hx
    · exact absurd (Set.mem_insert _ _) hxG
    · exact hframe.visited (h.black x hx (fun hg => hxG (Set.mem_insert_of_mem _ hg)) w hw)

theorem loopInv_enter (h : DfsInv succ univ G st) (hmem : v ∈ univ) (hv : ¬ st.Visited v)
    (hG : ∀ g ∈ G, Reach succ g v) : LoopInv succ univ G v st [] (st.enter v) where
  inv := h.enter hmem hv hG
  frame := Dfs.frame_enter hv
  index_self := Dfs.indexMap_enter_self
  stack_eq := ⟨[], rfl, fun _ hx => absurd hx List.not_mem_nil⟩
  low_le := by simp [Dfs.enter]
  witness := by
    refine ⟨v, List.mem_cons_self, ?_, ReflTransGen.refl⟩
    simp [Dfs.indexOf, Dfs.enter]
  looked _ hw := absurd hw List.not_mem_nil

/-! ## Scanning a successor -/

variable {i : Nat} {n : Nat}

theorem Dfs.lowlink_lower_self : (st.lower v i).lowlinkMap v = min (st.lowlinkMap v) i :=
  Function.update_self ..

theorem Dfs.frame_lower (h : Frame st₀ st) (hv : ¬ st₀.Visited v) : Frame st₀ (st.lower v i) where
  index_eq := h.index_eq
  lowlink_eq x hx :=
    (Function.update_of_ne (ne_of_visited hx hv) ..).trans (h.lowlink_eq x hx)

theorem LoopInv.lower {w : α} (h : LoopInv succ univ G v st₀ scanned st) (hv : ¬ st₀.Visited v)
    (hi : i < st.lowlinkMap v → ∃ y ∈ st.stack, st.indexOf y = i ∧ Reach succ v y)
    (hw : st.Visited w) (hwi : w ∈ st₀.stack → min (st.lowlinkMap v) i ≤ st₀.indexOf w) :
    LoopInv succ univ G v st₀ (scanned ++ [w]) (st.lower v i) where
  inv := h.inv.lower v i
  frame := Dfs.frame_lower h.frame hv
  index_self := h.index_self
  stack_eq := by
    obtain ⟨new, hstack, hnew⟩ := h.stack_eq
    refine ⟨new, hstack, fun x hx y hy hxy => ?_⟩
    rw [Dfs.lowlink_lower_self]
    exact le_trans (min_le_left _ _) (hnew x hx y hy hxy)
  low_le := by
    rw [Dfs.lowlink_lower_self]
    exact le_trans (min_le_left _ _) h.low_le
  witness := by
    rw [Dfs.lowlink_lower_self]
    rcases Nat.lt_or_ge i (st.lowlinkMap v) with hlt | hge
    · rw [min_eq_right hlt.le]
      exact hi hlt
    · rw [min_eq_left hge]
      exact h.witness
  looked := by
    intro x hx
    rw [Dfs.lowlink_lower_self]
    rcases List.mem_append.mp hx with hx | hx
    · obtain ⟨hvis, hlow⟩ := h.looked x hx
      exact ⟨hvis, fun hmem => le_trans (min_le_left _ _) (hlow hmem)⟩
    · rw [List.mem_singleton.mp hx]
      exact ⟨hw, hwi⟩

theorem LoopInv.scan_visited {w : α}
    (h : LoopInv succ univ G v st₀ scanned st) (h₀ : DfsInv succ univ G st₀) (hv : ¬ st₀.Visited v)
    (hvw : w ∈ succ v) (hw : st.indexMap w = some i) :
    LoopInv succ univ G v st₀ (scanned ++ [w]) (if st.onStack w then st.lower v i else st) := by
  have hvis : st.Visited w := by rw [Dfs.Visited, hw]; rfl
  have hindex : st.indexOf w = i := by rw [Dfs.indexOf, hw, Option.getD_some]
  by_cases hstack : st.onStack w = true
  · rw [if_pos hstack]
    refine h.lower hv (fun _ => ⟨w, (h.inv.onStack_iff w).mp hstack, hindex, ?_⟩) hvis fun hmem => ?_
    · exact ReflTransGen.single hvw
    · rw [← h.frame.indexOf_eq (h₀.visited_of_stack hmem), hindex]
      exact min_le_right _ _
  · rw [if_neg hstack]
    obtain ⟨new, heq, _⟩ := id h.stack_eq
    refine { h with looked := fun x hx => ?_ }
    rcases List.mem_append.mp hx with hx | hx
    · exact h.looked x hx
    · rw [List.mem_singleton.mp hx]
      refine ⟨hvis, fun hmem => absurd ((h.inv.onStack_iff w).mpr ?_) hstack⟩
      rw [heq]
      exact List.mem_append_right _ (List.mem_cons_of_mem _ hmem)

theorem LoopInv.scan_new {w : α}
    (h : LoopInv succ univ G v st₀ scanned st) (h₀ : DfsInv succ univ G st₀) (hv : ¬ st₀.Visited v)
    (hvw : w ∈ succ v) (hw : ¬ st.Visited w) (hcall : Entered succ univ (insert v G) w st st') :
    LoopInv succ univ G v st₀ (scanned ++ [w]) (st'.lower v (st'.lowlinkMap w)) := by
  have hvis : st.Visited v := by rw [Dfs.Visited, h.index_self]; rfl
  have hlow : st'.lowlinkMap v = st.lowlinkMap v := hcall.frame.lowlink_eq v hvis
  obtain ⟨new, heq, hnew⟩ := h.stack_eq
  obtain ⟨fresh, heq', hfresh⟩ := hcall.stack_eq
  have hsub : ∀ x ∈ st₀.stack, x ∈ st.stack := by
    intro x hx
    rw [heq]
    exact List.mem_append_right _ (List.mem_cons_of_mem _ hx)
  -- the low link of `v` after the call bounds every edge from the new part of the stack
  have hedges : ∀ x ∈ fresh ++ new, ∀ y ∈ st₀.stack, y ∈ succ x →
      min (st'.lowlinkMap v) (st'.lowlinkMap w) ≤ st₀.indexOf y := by
    intro x hx y hy hxy
    rcases List.mem_append.mp hx with hx | hx
    · refine le_trans (min_le_right _ _) ?_
      rw [← h.frame.indexOf_eq (h₀.visited_of_stack hy)]
      exact hfresh x hx y (hsub y hy) hxy
    · rw [hlow]
      exact le_trans (min_le_left _ _) (hnew x hx y hy hxy)
  have hwvis : st'.Visited w := by rw [Dfs.Visited, hcall.index_self]; rfl
  refine
    { inv := hcall.inv.lower v _
      frame := Dfs.frame_lower (h.frame.trans hcall.frame) hv
      index_self := (hcall.frame.index_eq v hvis).trans h.index_self
      stack_eq := ⟨fresh ++ new, ?_, ?_⟩
      low_le := ?_
      witness := ?_
      looked := ?_ }
  · show st'.stack = _
    rw [heq', heq, List.append_assoc]
  · intro x hx y hy hxy
    rw [Dfs.lowlink_lower_self]
    exact hedges x hx y hy hxy
  · rw [Dfs.lowlink_lower_self, hlow]
    exact le_trans (min_le_left _ _) h.low_le
  · rw [Dfs.lowlink_lower_self, hlow]
    rcases Nat.lt_or_ge (st'.lowlinkMap w) (st.lowlinkMap v) with hlt | hge
    · rw [min_eq_right hlt.le]
      rcases hcall.witness with hself | ⟨y, hy, hyw, hwy⟩
      · -- a closed `w` has a larger index than `v`
        have hindex : st₀.index < st.index := by
          have hlt' := h.inv.index_lt v hvis
          rwa [Dfs.indexOf, h.index_self, Option.getD_some] at hlt'
        have hle := h.low_le
        omega
      · exact ⟨y, hy, hyw, ReflTransGen.head hvw hwy⟩
    · rw [min_eq_left hge]
      obtain ⟨y, hy, hyv, hreach⟩ := h.witness
      refine ⟨y, ?_, ?_, hreach⟩
      · show y ∈ st'.stack
        rw [heq']
        exact List.mem_append_right _ hy
      · exact (hcall.frame.indexOf_eq (h.inv.visited_of_stack hy)).trans hyv
  · intro x hx
    rw [Dfs.lowlink_lower_self]
    rcases List.mem_append.mp hx with hx | hx
    · obtain ⟨hxvis, hxlow⟩ := h.looked x hx
      refine ⟨hcall.frame.visited hxvis, fun hmem => ?_⟩
      rw [hlow]
      exact le_trans (min_le_left _ _) (hxlow hmem)
    · rw [List.mem_singleton.mp hx]
      exact ⟨hwvis, fun hmem => absurd (h.frame.visited (h₀.visited_of_stack hmem)) hw⟩

/-! ## Closing a component -/

theorem LoopInv.visited_succ (h : LoopInv succ univ G v st₀ (succ v) st)
    (hx : st.Visited x) (hxG : x ∉ G) : ∀ w ∈ succ x, st.Visited w := by
  intro w hw
  by_cases hxv : x = v
  · exact (h.looked w (hxv ▸ hw)).1
  · exact h.inv.black x hx (fun hmem => (Set.mem_insert_iff.mp hmem).elim hxv hxG) w hw

theorem LoopInv.entered_of_lt (h : LoopInv succ univ G v st₀ (succ v) st) (hlt : st.lowlinkMap v < st₀.index) :
    Entered succ univ G v st₀ st := by
  obtain ⟨new, heq, hnew⟩ := h.stack_eq
  obtain ⟨y₀, hy₀, hindex, hvy₀⟩ := h.witness
  have hself : st.indexOf v = st₀.index := by rw [Dfs.indexOf, h.index_self, Option.getD_some]
  -- the witness of the low link leads to a grey vertex below `v`
  obtain ⟨g₀, hg₀, hle₀, hreach₀⟩ := h.inv.toGrey y₀ hy₀
  have hg₀G : g₀ ∈ G := by
    rcases hg₀ with rfl | hg₀
    · omega
    · exact hg₀
  refine
    { inv :=
        { h.inv with
          grey_stack := fun g hg => h.inv.grey_stack g (Set.mem_insert_of_mem _ hg)
          toGrey := ?_
          black := fun x hx hxG => h.visited_succ hx hxG }
      frame := h.frame
      index_self := h.index_self
      stack_eq := ⟨new ++ [v], by rw [heq, List.append_assoc]; rfl, ?_⟩
      witness := Or.inr h.witness }
  · intro y hy
    obtain ⟨g, hg, hle, hreach⟩ := h.inv.toGrey y hy
    rcases hg with rfl | hg
    · exact ⟨g₀, hg₀G, by omega, hreach.trans (hvy₀.trans hreach₀)⟩
    · exact ⟨g, hg, hle, hreach⟩
  · intro x hx y hy hxy
    rcases List.mem_append.mp hx with hx | hx
    · exact hnew x hx y hy hxy
    · rw [List.mem_singleton.mp hx] at hxy
      exact (h.looked y hxy).2 hy

/-- What lies on the stack from `v` upwards, once the scan of `v` is over. -/
structure IsTop (succ : α → List α) (v : α) (st₀ st : Dfs α) (top : List α) : Prop where
  stack_eq : st.stack = top ++ st₀.stack
  pop_eq : Dfs.popUntil v st.stack = (top, st₀.stack)
  nodup : (st₀.stack ++ (st.sccs.flatten ++ top)).Nodup
  mem_self : v ∈ top
  above : ∀ x ∈ top, st.indexOf v ≤ st.indexOf x
  low_le : ∀ x ∈ top, ∀ y ∈ st₀.stack, y ∈ succ x → st.lowlinkMap v ≤ st₀.indexOf y

theorem LoopInv.exists_isTop (h : LoopInv succ univ G v st₀ (succ v) st) : ∃ top, IsTop succ v st₀ st top := by
  obtain ⟨new, heq, hnew⟩ := h.stack_eq
  have hnodup : (new ++ v :: st₀.stack ++ st.sccs.flatten).Nodup := heq ▸ h.inv.nodup
  have hvnew : v ∉ new := by
    intro hmem
    have hne := (List.nodup_append.mp (List.nodup_append.mp hnodup).1).2.2 v hmem v List.mem_cons_self
    exact hne rfl
  have hperm : (new ++ v :: st₀.stack ++ st.sccs.flatten).Perm
      (st₀.stack ++ (st.sccs.flatten ++ (new ++ [v]))) := by
    have hsplit : new ++ v :: st₀.stack ++ st.sccs.flatten =
        (new ++ [v]) ++ (st₀.stack ++ st.sccs.flatten) := by simp
    rw [hsplit, ← List.append_assoc st₀.stack]
    exact List.perm_append_comm
  refine ⟨new ++ [v],
    { stack_eq := by simp [heq]
      pop_eq := by rw [heq, Dfs.popUntil_append hvnew]
      nodup := hperm.nodup_iff.mp hnodup
      mem_self := List.mem_append_right _ List.mem_cons_self
      above := ?_
      low_le := ?_ }⟩
  · intro x hx
    cases List.mem_append.mp hx with
    | inl hx =>
      have hsorted := h.inv.sorted
      rw [heq] at hsorted
      exact ((List.pairwise_append.mp hsorted).2.2 x hx v List.mem_cons_self).le
    | inr hx => rw [List.mem_singleton.mp hx]
  · intro x hx y hy hxy
    cases List.mem_append.mp hx with
    | inl hx => exact hnew x hx y hy hxy
    | inr hx =>
      rw [List.mem_singleton.mp hx] at hxy
      exact (h.looked y hxy).2 hy

theorem IsTop.mem_stack_iff (ht : IsTop succ v st₀ st top) : x ∈ st.stack ↔ x ∈ top ∨ x ∈ st₀.stack := by
  rw [ht.stack_eq, List.mem_append]

theorem IsTop.not_mem_old (ht : IsTop succ v st₀ st top) (hx : x ∈ top) : x ∉ st₀.stack :=
  fun hold => (List.nodup_append.mp ht.nodup).2.2 x hold x (List.mem_append_right _ hx) rfl

theorem IsTop.not_mem_done (ht : IsTop succ v st₀ st top) (hx : x ∈ top) : x ∉ st.sccs.flatten :=
  fun hdone => (List.nodup_append.mp (List.nodup_append.mp ht.nodup).2.1).2.2 x hdone x hx rfl

theorem IsTop.stays (ht : IsTop succ v st₀ st top)
    (h : LoopInv succ univ G v st₀ (succ v) st) (h₀ : DfsInv succ univ G st₀)
    (hlow : st.lowlinkMap v = st₀.index) {x w : α} (hx : x ∈ top) (hw : w ∈ succ x) :
    w ∈ top ∨ w ∈ st.sccs.flatten := by
  have hxG : x ∉ G := fun hg => ht.not_mem_old hx (h₀.grey_stack x hg)
  have hxvis : st.Visited x := h.inv.visited_of_stack (ht.mem_stack_iff.mpr (Or.inl hx))
  cases (h.inv.visited_iff w).mp (h.visited_succ hxvis hxG w hw) with
  | inr hdone => exact Or.inr hdone
  | inl hstack =>
    cases ht.mem_stack_iff.mp hstack with
    | inl htop => exact Or.inl htop
    | inr hold =>
      -- an edge to the rest of the stack would have lowered the low link of `v`
      have hlt : st₀.indexOf w < st₀.index := h₀.index_lt w (h₀.visited_of_stack hold)
      have hle : st.lowlinkMap v ≤ st₀.indexOf w := ht.low_le x hx w hold hw
      omega

theorem IsTop.isClass (ht : IsTop succ v st₀ st top)
    (h : LoopInv succ univ G v st₀ (succ v) st) (h₀ : DfsInv succ univ G st₀)
    (hG : ∀ g ∈ G, Reach succ g v) (hlow : st.lowlinkMap v = st₀.index) (hx : x ∈ top)
    (y : α) : y ∈ top ↔ Reach succ x y ∧ Reach succ y x := by
  have hdone : Closed (SuccStep succ) {x | x ∈ st.sccs.flatten} := fun a b ha hab =>
    h.inv.done a ha b hab
  have hclosed : Closed (SuccStep succ) {x | x ∈ top ∨ x ∈ st.sccs.flatten} := by
    intro a b ha hab
    cases ha with
    | inl ha => exact ht.stays h h₀ hlow ha hab
    | inr ha => exact Or.inr (hdone a b ha hab)
  have hself : v ∈ st.stack := ht.mem_stack_iff.mpr (Or.inl ht.mem_self)
  have hfrom : ∀ z ∈ top, Reach succ v z := fun z hz =>
    h.inv.upward v hself z (ht.mem_stack_iff.mpr (Or.inl hz)) (ht.above z hz)
  have hto : ∀ z ∈ top, Reach succ z v := by
    intro z hz
    obtain ⟨g, hg, _, hreach⟩ := h.inv.toGrey z (ht.mem_stack_iff.mpr (Or.inl hz))
    cases Set.mem_insert_iff.mp hg with
    | inl hgv => exact hgv ▸ hreach
    | inr hg => exact hreach.trans (hG g hg)
  constructor
  · intro hy
    exact ⟨(hto x hx).trans (hfrom y hy), (hto y hy).trans (hfrom x hx)⟩
  · intro hreach
    cases hclosed.walk (Or.inl hx) hreach.1 with
    | inl hy => exact hy
    | inr hy => exact absurd (hdone.walk hy hreach.2) (ht.not_mem_done hx)

theorem LoopInv.entered_of_eq (h : LoopInv succ univ G v st₀ (succ v) st)
    (h₀ : DfsInv succ univ G st₀) (hG : ∀ g ∈ G, Reach succ g v)
    (hlow : st.lowlinkMap v = st₀.index) : Entered succ univ G v st₀ (st.close v) := by
  obtain ⟨top, ht⟩ := h.exists_isTop
  have hold : ∀ y ∈ st₀.stack, st.indexOf y = st₀.indexOf y :=
    fun y hy => h.frame.indexOf_eq (h₀.visited_of_stack hy)
  refine
    { inv :=
        { inside := h.inv.inside
          visited_iff := ?_
          nodup := ?_
          onStack_iff := ?_
          index_lt := h.inv.index_lt
          sorted := ?_
          grey_stack := ?_
          upward := ?_
          toGrey := ?_
          black := fun x hx hxG => h.visited_succ hx hxG
          done := ?_
          isClass := ?_ }
      frame := ⟨h.frame.index_eq, h.frame.lowlink_eq⟩
      index_self := h.index_self
      stack_eq := ⟨[], by simp [Dfs.close, ht.pop_eq], fun x hx => absurd hx List.not_mem_nil⟩
      witness := Or.inl hlow }
  all_goals simp only [Dfs.close, ht.pop_eq, List.flatten_append, List.flatten_cons,
    List.flatten_nil, List.append_nil]
  · intro x
    refine (h.inv.visited_iff x).trans ?_
    rw [ht.mem_stack_iff, List.mem_append (t := top)]
    tauto
  · exact ht.nodup
  · intro x
    rw [Bool.and_eq_true, h.inv.onStack_iff, ht.mem_stack_iff, Bool.not_eq_true',
      decide_eq_false_iff_not]
    constructor
    · intro hx
      exact hx.1.resolve_left hx.2
    · exact fun hx => ⟨Or.inr hx, fun hmem => ht.not_mem_old hmem hx⟩
  · refine h₀.sorted.imp_of_mem fun {x y} hx hy hxy => ?_
    show st.indexOf y < st.indexOf x
    rw [hold x hx, hold y hy]
    exact hxy
  · exact h₀.grey_stack
  · intro x hx y hy hxy
    exact h.inv.upward x (ht.mem_stack_iff.mpr (Or.inr hx)) y (ht.mem_stack_iff.mpr (Or.inr hy)) hxy
  · intro y hy
    obtain ⟨g, hg, hle, hreach⟩ := h₀.toGrey y hy
    refine ⟨g, hg, ?_, hreach⟩
    show st.indexOf g ≤ st.indexOf y
    rw [hold g (h₀.grey_stack g hg), hold y hy]
    exact hle
  · intro x hx w hw
    cases List.mem_append.mp hx with
    | inl hx => exact List.mem_append_left _ (h.inv.done x hx w hw)
    | inr hx => exact List.mem_append.mpr (ht.stays h h₀ hlow hx hw).symm
  · intro c hc
    cases List.mem_append.mp hc with
    | inl hc => exact h.inv.isClass c hc
    | inr hc =>
      rw [List.mem_singleton.mp hc]
      exact ⟨List.ne_nil_of_mem ht.mem_self, fun x hx y => ht.isClass h h₀ hG hlow hx y⟩

theorem LoopInv.finish (h : LoopInv succ univ G v st₀ (succ v) st)
    (h₀ : DfsInv succ univ G st₀) (hG : ∀ g ∈ G, Reach succ g v) :
    Entered succ univ G v st₀ (st.finish v) := by
  by_cases hroot : st.lowlinkMap v = st₀.index
  · rw [Dfs.finish, h.index_self, if_pos (congrArg some hroot)]
    exact h.entered_of_eq h₀ hG hroot
  · rw [Dfs.finish, h.index_self, if_neg (fun heq => hroot (Option.some.inj heq))]
    exact h.entered_of_lt (lt_of_le_of_ne h.low_le hroot)

/-! ## The calls -/

omit [DecidableEq α] in
theorem LoopInv.missing_lt (h : LoopInv succ univ G v st₀ scanned st)
    (hv : ¬ st₀.Visited v) : missing univ st.Visited < missing univ st₀.Visited := by
  have hvis : st.Visited v := by rw [Dfs.Visited, h.index_self]; rfl
  exact Lib.missing_lt (fun x hx => h.frame.visited hx) (h.inv.inside v hvis) hv hvis

theorem foldlM_scanSucc {call : α → Dfs α → Option (Dfs α)} (h₀ : DfsInv succ univ G st₀) (hv : ¬ st₀.Visited v)
    (hcall : ∀ w ∈ succ v, ∀ st, DfsInv succ univ (insert v G) st → ¬ st.Visited w →
      missing univ st.Visited < missing univ st₀.Visited →
      ∃ st', call w st = some st' ∧ Entered succ univ (insert v G) w st st')
    {rest scanned : List α} (hsucc : succ v = scanned ++ rest)
    (h : LoopInv succ univ G v st₀ scanned st) :
    ∃ st', rest.foldlM (scanSucc call v) st = some st' ∧
      LoopInv succ univ G v st₀ (succ v) st' := by
  induction rest generalizing scanned st with
  | nil =>
    rw [hsucc, List.append_nil]
    exact ⟨st, rfl, h⟩
  | cons w rest ih =>
    have hvw : w ∈ succ v := by
      rw [hsucc]
      exact List.mem_append_right _ List.mem_cons_self
    have hnext : ∃ st', scanSucc call v st w = some st' ∧
        LoopInv succ univ G v st₀ (scanned ++ [w]) st' := by
      rcases hw : st.indexMap w with _ | i
      · have hnew : ¬ st.Visited w := by simp [Dfs.Visited, hw]
        obtain ⟨st', hst', hentered⟩ := hcall w hvw st h.inv hnew (h.missing_lt hv)
        refine ⟨_, ?_, h.scan_new h₀ hv hvw hnew hentered⟩
        simp [scanSucc, hw, hst']
      · refine ⟨_, ?_, h.scan_visited h₀ hv hvw hw⟩
        simp [scanSucc, hw]
    obtain ⟨st', hst', hloop⟩ := hnext
    obtain ⟨r, hr, hdone⟩ := ih (by rw [hsucc, List.append_assoc]; rfl) hloop
    refine ⟨r, ?_, hdone⟩
    rw [List.foldlM_cons, hst']
    exact hr

/-- **A call does its job**, whenever as many nested calls are allowed as there are vertices left. -/
theorem strongconnect_spec (huniv : ∀ a ∈ univ, ∀ w ∈ succ a, w ∈ univ)
    (h : DfsInv succ univ G st) (hmem : v ∈ univ) (hv : ¬ st.Visited v)
    (hG : ∀ g ∈ G, Reach succ g v) (hn : missing univ st.Visited < n) :
    ∃ st', strongconnect succ n v st = some st' ∧ Entered succ univ G v st st' := by
  induction n generalizing G v st with
  | zero => exact absurd hn (Nat.not_lt_zero _)
  | succ n ih =>
    have hcall : ∀ w ∈ succ v, ∀ st₁, DfsInv succ univ (insert v G) st₁ → ¬ st₁.Visited w →
        missing univ st₁.Visited < missing univ st.Visited →
        ∃ st', strongconnect succ n w st₁ = some st' ∧
          Entered succ univ (insert v G) w st₁ st' := by
      intro w hw st₁ h₁ hw₁ hlt
      refine ih h₁ (huniv v hmem w hw) hw₁ ?_ (by omega)
      rintro g (rfl | hg)
      · exact ReflTransGen.single hw
      · exact (hG g hg).tail hw
    obtain ⟨r, hr, hloop⟩ := foldlM_scanSucc h hv hcall (List.nil_append _).symm
      (loopInv_enter h hmem hv hG)
    exact ⟨r.finish v, by rw [strongconnect, hr]; rfl, hloop.finish h hG⟩

theorem foldlM_visit {roots : List α} (huniv : ∀ a ∈ univ, ∀ w ∈ succ a, w ∈ univ)
    (hroots : ∀ s ∈ roots, s ∈ univ) (hn : univ.length < n) {rest scanned : List α}
    (hsplit : roots = scanned ++ rest) (h : DfsInv succ univ (∅ : Set α) st)
    (hscanned : ∀ s ∈ scanned, st.Visited s) :
    ∃ st', rest.foldlM (visit succ n) st = some st' ∧ DfsInv succ univ (∅ : Set α) st' ∧
      ∀ s ∈ roots, st'.Visited s := by
  induction rest generalizing scanned st with
  | nil =>
    rw [hsplit, List.append_nil]
    exact ⟨st, rfl, h, hscanned⟩
  | cons s rest ih =>
    have hnext : ∃ st₁, visit succ n st s = some st₁ ∧ DfsInv succ univ (∅ : Set α) st₁ ∧
        ∀ x ∈ scanned ++ [s], st₁.Visited x := by
      by_cases hvis : st.Visited s
      · refine ⟨st, if_pos hvis, h, fun x hx => ?_⟩
        rcases List.mem_append.mp hx with hx | hx
        · exact hscanned x hx
        · rwa [List.mem_singleton.mp hx]
      · obtain ⟨st₁, hst₁, hentered⟩ := strongconnect_spec huniv h
          (hroots s (by rw [hsplit]; simp)) hvis (fun g hg => absurd hg (Set.notMem_empty g))
          (lt_of_le_of_lt (missing_le_length _ _) hn)
        refine ⟨st₁, (if_neg hvis).trans hst₁, hentered.inv, fun x hx => ?_⟩
        rcases List.mem_append.mp hx with hx | hx
        · exact hentered.frame.visited (hscanned x hx)
        · rw [List.mem_singleton.mp hx, Dfs.Visited, hentered.index_self]
          rfl
    obtain ⟨st₁, hst₁, h₁, hscanned₁⟩ := hnext
    obtain ⟨st', hst', hrest⟩ := ih (by rw [hsplit, List.append_assoc]; rfl) h₁ hscanned₁
    refine ⟨st', ?_, hrest⟩
    rw [List.foldlM_cons, hst₁]
    exact hst'

/-- **The components are the classes of mutual reachability.** Every vertex searched from is in one of
them, and no vertex is listed twice. -/
theorem components_spec {roots : List α} (huniv : ∀ a ∈ univ, ∀ w ∈ succ a, w ∈ univ)
    (hroots : ∀ s ∈ roots, s ∈ univ) (hn : univ.length < n) :
    ∃ st, components succ n roots = some st ∧
      (∀ c ∈ st.sccs, c ≠ [] ∧ ∀ x ∈ c, ∀ y, y ∈ c ↔ Reach succ x y ∧ Reach succ y x) ∧
      (∀ s ∈ roots, s ∈ st.sccs.flatten) ∧ (∀ x ∈ st.sccs.flatten, x ∈ univ) ∧
      st.sccs.flatten.Nodup := by
  obtain ⟨st, hst, hinv, hvis⟩ := foldlM_visit huniv hroots hn (List.nil_append roots).symm
    dfsInv_empty (fun s hs => absurd hs List.not_mem_nil)
  -- without grey vertices the stack is empty
  have hstack : ∀ x, x ∉ st.stack := by
    intro x hx
    obtain ⟨g, hg, _⟩ := hinv.toGrey x hx
    exact absurd hg (Set.notMem_empty g)
  refine ⟨st, hst, hinv.isClass, fun s hs => ?_, fun x hx => ?_, ?_⟩
  · exact ((hinv.visited_iff s).mp (hvis s hs)).resolve_left (hstack s)
  · exact hinv.inside x ((hinv.visited_iff x).mpr (Or.inr hx))
  · exact (List.nodup_append.mp hinv.nodup).2.1

end Correctness

end Fsmc.Lib
