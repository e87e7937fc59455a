/-
# Fsmc.Lib.SearchTree — the predecessor map of a breadth-first search is a tree of shortest paths.

`EdgePath` is a path given by the edges it takes. A search that is never told to stop leaves behind, for
every state it has seen and that is not the start, the edge through which it was discovered;
`searchFrom_tree` gives each state a depth such that this edge comes from one level above, and such that
no edge leads down by more than one level. The first fact makes the way back to the start a path as long
as the depth, the second makes no path shorter (`depth_le_length`).

The invariant of the loop is the classical one: the queue is sorted by depth, and nothing that has been
seen is more than one level below its head.
-/
import Fsmc.Lib.Worklist

namespace Fsmc.Lib

variable {α ε : Type*}

/-! ## Paths with their edges -/

/-- `es` are the edges of a path from `a` to `b`. -/
def EdgePath (out : α → List ε) (target : ε → α) (a : α) : List ε → α → Prop
  | [], b => a = b
  | e :: es, b => e ∈ out a ∧ EdgePath out target (target e) es b

variable {out : α → List ε} {target : ε → α} {s : α}

variable {a b : α} {es : List ε} {depth : α → ℕ}

@[simp] theorem edgePath_nil : EdgePath out target a [] b ↔ a = b := Iff.rfl

@[simp] theorem edgePath_cons {e : ε} :
    EdgePath out target a (e :: es) b ↔ e ∈ out a ∧ EdgePath out target (target e) es b := Iff.rfl

theorem EdgePath.concat {e : ε} (h : EdgePath out target a es b)
    (he : e ∈ out b) : EdgePath out target a (es ++ [e]) (target e) := by
  induction es generalizing a with
  | nil =>
    rw [edgePath_nil] at h
    subst h
    exact ⟨he, rfl⟩
  | cons e' es ih => exact ⟨h.1, ih h.2⟩

/-! ## Trees of shortest paths -/

variable [DecidableEq α]

/-- The predecessor map of `f` is a tree with root `s`, and `depth` is the level of a state in it. -/
structure SearchTree (out : α → List ε) (target : ε → α) (s : α) (f : Frontier α ε)
    (depth : α → ℕ) : Prop where
  root : depth s = 0
  entry : ∀ x ∈ f.seen, x ≠ s → ∃ y e, f.predecessors.lookup x = some (y, e) ∧ y ∈ f.seen ∧
    e ∈ out y ∧ target e = x ∧ depth x = depth y + 1

/-- What the loop keeps. -/
structure TreeInv (out : α → List ε) (target : ε → α) (s : α) (f : Frontier α ε)
    (depth : α → ℕ) : Prop extends SearchTree out target s f depth where
  start_seen : s ∈ f.seen
  queue_seen : ∀ x ∈ f.queue, x ∈ f.seen
  sorted : f.queue.Pairwise (depth · ≤ depth ·)
  bound : ∀ c ∈ f.queue, ∀ x ∈ f.seen, depth x ≤ depth c + 1
  near : ∀ x ∈ f.seen, x ∉ f.queue → ∀ e ∈ out x, target e ∈ f.seen ∧ depth (target e) ≤ depth x + 1

omit [DecidableEq α] in
theorem near_depth_le {seen : List α}
    (hnear : ∀ x ∈ seen, ∀ e ∈ out x, target e ∈ seen ∧ depth (target e) ≤ depth x + 1)
    (ha : a ∈ seen) (h : EdgePath out target a es b) :
    depth b ≤ depth a + es.length := by
  induction es generalizing a with
  | nil =>
    rw [edgePath_nil] at h
    exact le_of_eq (congrArg depth h.symm)
  | cons e es ih =>
    obtain ⟨hseen, hdepth⟩ := hnear a ha e h.1
    have hrest := ih hseen h.2
    rw [List.length_cons]
    omega

theorem treeInv_start : TreeInv out target s (Frontier.start s) (fun _ => 0) where
  root := rfl
  entry := fun _ hx hne => absurd (List.mem_singleton.mp hx) hne
  start_seen := List.mem_singleton_self s
  queue_seen := fun _ hx => hx
  sorted := List.pairwise_singleton _ _
  bound := fun _ _ _ _ => Nat.zero_le _
  near := fun _ hx hq => absurd hx hq

/-! ## Looking at the edges of one state -/

/-- The loop over the edges of `curr` queues new states only, at the end, and gives each an entry. Older
entries stay. -/
theorem foldl_discover_spec (target : ε → α) (curr : α) (es : List ε) (f : Frontier α ε) :
    (∃ added, (es.foldl (Frontier.discover target curr) f).queue = f.queue ++ added ∧
        ∀ x ∈ added, x ∉ f.seen) ∧
      (∀ x ∈ f.seen, (es.foldl (Frontier.discover target curr) f).predecessors.lookup x =
        f.predecessors.lookup x) ∧
      ∀ x ∈ (es.foldl (Frontier.discover target curr) f).seen, x ∉ f.seen →
        ∃ e ∈ es, target e = x ∧
          (es.foldl (Frontier.discover target curr) f).predecessors.lookup x = some (curr, e) := by
  induction es generalizing f with
  | nil =>
    refine ⟨⟨[], (List.append_nil _).symm, fun x hx => absurd hx List.not_mem_nil⟩,
      fun _ _ => rfl, fun x hx hnew => absurd hx hnew⟩
  | cons e es ih =>
    rw [List.foldl_cons]
    by_cases he : target e ∈ f.seen
    · rw [Frontier.discover, if_pos he]
      obtain ⟨hqueue, hold, hnew⟩ := ih f
      refine ⟨hqueue, hold, fun x hx hxnew => ?_⟩
      obtain ⟨e', he', hentry⟩ := hnew x hx hxnew
      exact ⟨e', List.mem_cons_of_mem _ he', hentry⟩
    · rw [Frontier.discover, if_neg he]
      set f₁ : Frontier α ε := ⟨f.queue ++ [target e], target e :: f.seen,
        (target e, curr, e) :: f.predecessors⟩ with hf₁
      obtain ⟨⟨added, hqueue, hadded⟩, hold, hnew⟩ := ih f₁
      refine ⟨⟨target e :: added, ?_, ?_⟩, fun x hx => ?_, fun x hx hxnew => ?_⟩
      · rw [hqueue, List.append_assoc]
        rfl
      · intro x hx
        rcases List.mem_cons.mp hx with rfl | hx
        · exact he
        · exact fun h => hadded x hx (List.mem_cons_of_mem _ h)
      · have hne : (x == target e) = false := by
          rw [beq_eq_false_iff_ne]
          exact fun h => he (h ▸ hx)
        rw [hold x (List.mem_cons_of_mem _ hx), hf₁, List.lookup_cons, hne]
      · by_cases hxe : x = target e
        · subst hxe
          refine ⟨e, List.mem_cons_self, rfl, ?_⟩
          rw [hold _ List.mem_cons_self, hf₁, List.lookup_cons, beq_self_eq_true]
        · have hx₁ : x ∉ f₁.seen := fun h => (List.mem_cons.mp h).elim hxe hxnew
          obtain ⟨e', he', hentry⟩ := hnew x hx hx₁
          exact ⟨e', List.mem_cons_of_mem _ he', hentry⟩

theorem TreeInv.expand {f : Frontier α ε} {curr : α} {rest : List α}
    (h : TreeInv out target s f depth) (hq : f.queue = curr :: rest) :
    TreeInv out target s (Frontier.expand out target curr { f with queue := rest })
      (fun x => if x ∈ f.seen then depth x else depth curr + 1) := by
  have hcurr : curr ∈ f.seen := h.queue_seen curr (hq ▸ List.mem_cons_self)
  have hrest : ∀ x ∈ rest, x ∈ f.seen := fun x hx => h.queue_seen x (hq ▸ List.mem_cons_of_mem _ hx)
  have hsorted : (∀ x ∈ rest, depth curr ≤ depth x) ∧ rest.Pairwise (depth · ≤ depth ·) :=
    List.pairwise_cons.mp (hq ▸ h.sorted)
  have hbound : ∀ x ∈ f.seen, depth x ≤ depth curr + 1 := h.bound curr (hq ▸ List.mem_cons_self)
  have hseen : ∀ {x}, x ∈ (Frontier.expand out target curr { f with queue := rest }).seen ↔
      x ∈ f.seen ∨ ∃ e ∈ out curr, target e = x := Frontier.mem_seen_foldl_discover
  obtain ⟨⟨added, hqueue, hadded⟩, hold, hnew⟩ := foldl_discover_spec target curr (out curr)
    { f with queue := rest }
  -- every state lies at most one level below `curr`, and every queued one at least at its level
  have hle : ∀ x, (if x ∈ f.seen then depth x else depth curr + 1) ≤ depth curr + 1 := by
    intro x
    split
    · next hx => exact hbound x hx
    · exact le_rfl
  have hge : ∀ x ∈ rest ++ added,
      depth curr ≤ (if x ∈ f.seen then depth x else depth curr + 1) := by
    intro x hx
    split
    · next hxs =>
        rcases List.mem_append.mp hx with hx | hx
        · exact hsorted.1 x hx
        · exact absurd hxs (hadded x hx)
    · omega
  refine ⟨⟨?_, ?_⟩, hseen.mpr (Or.inl h.start_seen), ?_, ?_, ?_, ?_⟩
  · rw [if_pos h.start_seen]
    exact h.root
  · intro x hx hne
    by_cases hxs : x ∈ f.seen
    · obtain ⟨y, e, hlookup, hy, he, htarget, hdepth⟩ := h.entry x hxs hne
      refine ⟨y, e, (hold x hxs).trans hlookup, hseen.mpr (Or.inl hy), he, htarget, ?_⟩
      rw [if_pos hxs, if_pos hy]
      exact hdepth
    · obtain ⟨e, he, htarget, hlookup⟩ := hnew x hx hxs
      refine ⟨curr, e, hlookup, hseen.mpr (Or.inl hcurr), he, htarget, ?_⟩
      rw [if_neg hxs, if_pos hcurr]
  · exact Frontier.queue_seen_foldl_discover hrest
  · unfold Frontier.expand
    rw [hqueue]
    refine List.pairwise_append.mpr ⟨?_, ?_, ?_⟩
    · refine hsorted.2.imp_of_mem fun {a b} ha hb hab => ?_
      rw [if_pos (hrest a ha), if_pos (hrest b hb)]
      exact hab
    · refine List.pairwise_of_forall_mem_list fun a ha b hb => ?_
      rw [if_neg (hadded a ha), if_neg (hadded b hb)]
    · intro a ha b hb
      rw [if_neg (hadded b hb)]
      exact hle a
  · intro c hc x _
    have hc' : c ∈ rest ++ added := hqueue ▸ hc
    exact le_trans (hle x) (Nat.succ_le_succ (hge c hc'))
  · intro x hx hxq e he
    have hxq' : x ∉ rest ++ added := fun hmem => hxq (hqueue ▸ hmem)
    by_cases hxs : x ∈ f.seen
    · by_cases hxc : x = curr
      · subst hxc
        refine ⟨hseen.mpr (Or.inr ⟨e, he, rfl⟩), ?_⟩
        rw [if_pos hxs]
        exact hle _
      · have hxold : x ∉ f.queue := by
          rw [hq]
          exact fun hmem => (List.mem_cons.mp hmem).elim hxc
            fun hmem => hxq' (List.mem_append_left _ hmem)
        obtain ⟨hts, hdepth⟩ := h.near x hxs hxold e he
        refine ⟨hseen.mpr (Or.inl hts), ?_⟩
        rw [if_pos hxs, if_pos hts]
        exact hdepth
    · -- a new state is still queued
      exact absurd (Frontier.queued_of_new hx hxs) hxq

/-! ## The whole search -/

theorem search_tree {n : Nat} {f g : Frontier α ε} {found : Bool} (hf : TreeInv out target s f depth)
    (h : search out target (fun _ => false) n f = some (found, g)) :
    ∃ depth', TreeInv out target s g depth' ∧ g.queue = [] := by
  induction n generalizing f depth with
  | zero => simp [search] at h
  | succ n ih =>
    rcases hq : f.queue with _ | ⟨curr, rest⟩
    · simp only [search, hq, Option.some.injEq, Prod.mk.injEq] at h
      obtain ⟨_, rfl⟩ := h
      exact ⟨depth, hf, hq⟩
    · simp only [search, hq] at h
      rw [if_neg (by simp)] at h
      exact ih (hf.expand hq) h

variable {univ : List α}

/-- **Breadth-first search finds shortest paths.** The predecessor map is a tree, and no path from the
start is shorter than the depth of the state it leads to. -/
theorem searchFrom_tree (huniv : ∀ a, ∀ e ∈ out a, target e ∈ univ) (s : α) :
    ∃ depth, SearchTree out target s (searchFrom huniv (fun _ => false) s).2 depth ∧
      ∀ x es, EdgePath out target s es x → depth x ≤ es.length := by
  obtain ⟨depth, hinv, hqueue⟩ := search_tree treeInv_start
    (Option.some_get (search_start_isSome huniv s)).symm
  refine ⟨depth, hinv.toSearchTree, fun x es hpath => ?_⟩
  have hnear : ∀ x ∈ _, ∀ e ∈ out x, target e ∈ _ ∧ depth (target e) ≤ depth x + 1 :=
    fun x hx => hinv.near x hx (by rw [hqueue]; exact List.not_mem_nil)
  have hdepth := near_depth_le hnear hinv.start_seen hpath
  rwa [hinv.root, Nat.zero_add] at hdepth

end Fsmc.Lib
