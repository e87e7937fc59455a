/-
# Fsmc.Lib.Worklist — breadth-first search with a queue, a seen set and a predecessor map.

The search is over a graph given by its outgoing edges: `out a` lists the edges of `a` in the order in
which they are scanned, `target e` is where an edge leads. A target that has not been seen is marked,
queued, and remembered together with the edge it was discovered through. The search may be told to
stop early at a state (`stop`); a plain reachability search never stops.

`search` is `none` only while the queue is not yet drained. `search_isSome` is the termination rule
(fuel beyond the number of states and queued entries is enough), `search_spec` says what the search
has found: exactly the states that a walk reaches, or a state at which to stop.
-/
import Fsmc.Lib.Loop
import Fsmc.Lib.Walk

namespace Fsmc.Lib

open Relation

variable {α ε : Type*}

/-- One step along some edge. -/
def EdgeStep (out : α → List ε) (target : ε → α) (a b : α) : Prop := ∃ e ∈ out a, target e = b

/-- The state of a search: what is queued, what has been seen, and through which edge. -/
structure Frontier (α ε : Type*) where
  queue : List α
  seen : List α
  predecessors : List (α × α × ε)

namespace Frontier

/-- A search that starts in `s`. -/
def start (s : α) : Frontier α ε := ⟨[s], [s], []⟩

variable [DecidableEq α] (out : α → List ε) (target : ε → α)

/-- Looking at the edge `e` out of `curr`. -/
def discover (curr : α) (f : Frontier α ε) (e : ε) : Frontier α ε :=
  if target e ∈ f.seen then f
  else
    { queue := f.queue ++ [target e]
      seen := target e :: f.seen
      predecessors := (target e, curr, e) :: f.predecessors }

/-- Looking at all edges out of `curr`. -/
def expand (curr : α) (f : Frontier α ε) : Frontier α ε :=
  (out curr).foldl (discover target curr) f

variable {target}

variable {curr : α} {f : Frontier α ε} {es : List ε}

variable {x : α}

theorem mem_seen_discover {e : ε} : x ∈ (discover target curr f e).seen ↔ x ∈ f.seen ∨ target e = x := by
  by_cases he : target e ∈ f.seen
  · rw [discover, if_pos he]
    exact ⟨Or.inl, fun h => h.elim id fun h => h ▸ he⟩
  · rw [discover, if_neg he, List.mem_cons, or_comm, eq_comm (a := x)]

theorem mem_seen_foldl_discover :
    x ∈ (es.foldl (discover target curr) f).seen ↔ x ∈ f.seen ∨ ∃ e ∈ es, target e = x := by
  induction es generalizing f with
  | nil => simp
  | cons e es ih =>
    rw [List.foldl_cons, ih, mem_seen_discover, or_assoc]
    simp only [List.mem_cons, exists_eq_or_imp]

theorem queue_sub_foldl_discover (hx : x ∈ f.queue) : x ∈ (es.foldl (discover target curr) f).queue := by
  induction es generalizing f with
  | nil => exact hx
  | cons e es ih =>
    rw [List.foldl_cons]
    refine ih ?_
    by_cases he : target e ∈ f.seen
    · rwa [discover, if_pos he]
    · rw [discover, if_neg he]
      exact List.mem_append_left _ hx

theorem queued_of_new (hx : x ∈ (es.foldl (discover target curr) f).seen) (hnew : x ∉ f.seen) :
    x ∈ (es.foldl (discover target curr) f).queue := by
  induction es generalizing f with
  | nil => exact absurd hx hnew
  | cons e es ih =>
    rw [List.foldl_cons] at hx ⊢
    by_cases he : target e ∈ f.seen
    · rw [discover, if_pos he] at hx ⊢
      exact ih hx hnew
    · by_cases hxe : x = target e
      · refine queue_sub_foldl_discover ?_
        rw [discover, if_neg he, hxe]
        exact List.mem_append_right _ (List.mem_singleton_self _)
      · refine ih hx ?_
        rw [discover, if_neg he]
        exact fun h => (List.mem_cons.mp h).elim hxe hnew

theorem queue_seen_foldl_discover (hsub : ∀ x ∈ f.queue, x ∈ f.seen) :
    ∀ x ∈ (es.foldl (discover target curr) f).queue,
      x ∈ (es.foldl (discover target curr) f).seen := by
  induction es generalizing f with
  | nil => exact hsub
  | cons e es ih =>
    rw [List.foldl_cons]
    refine ih fun x hx => ?_
    by_cases he : target e ∈ f.seen
    · rw [discover, if_pos he] at hx ⊢
      exact hsub x hx
    · rw [discover, if_neg he] at hx ⊢
      rcases List.mem_append.mp hx with hx | hx
      · exact List.mem_cons_of_mem _ (hsub x hx)
      · rw [List.mem_singleton.mp hx]
        exact List.mem_cons_self

/-! ## The loop -/

variable (target)

/-- The measure of the loop: queued entries, and states still to be seen. -/
def work (univ : List α) (f : Frontier α ε) : Nat :=
  f.queue.length + missing univ (· ∈ f.seen)

variable {target}

theorem work_foldl_discover_le {univ : List α} (hes : ∀ e ∈ es, target e ∈ univ) :
    work univ (es.foldl (discover target curr) f) ≤ work univ f := by
  induction es generalizing f with
  | nil => exact le_rfl
  | cons e es ih =>
    rw [List.foldl_cons]
    refine le_trans (ih fun e' he' => hes e' (List.mem_cons_of_mem _ he')) ?_
    by_cases he : target e ∈ f.seen
    · rw [discover, if_pos he]
    · have hlt : missing univ (· ∈ target e :: f.seen) < missing univ (· ∈ f.seen) :=
        missing_lt (fun x hx => List.mem_cons_of_mem _ hx) (hes e List.mem_cons_self) he
          List.mem_cons_self
      rw [discover, if_neg he]
      simp only [work, List.length_append, List.length_singleton]
      omega

end Frontier

variable [DecidableEq α]

/-- Takes states off the queue and looks at their edges, until the queue is empty (`false`) or a state
to stop at comes up (`true`). -/
def search (out : α → List ε) (target : ε → α) (stop : α → Bool) :
    Nat → Frontier α ε → Option (Bool × Frontier α ε)
  | 0, _ => none
  | n + 1, f =>
    match f.queue with
    | [] => some (false, f)
    | curr :: rest =>
      if stop curr then some (true, { f with queue := rest })
      else search out target stop n (Frontier.expand out target curr { f with queue := rest })

section Search

variable {out : α → List ε} {target : ε → α} {stop : α → Bool} {s : α}

/-- **Termination rule.** Fuel beyond the work left is enough. -/
theorem search_isSome {univ : List α} (huniv : ∀ a, ∀ e ∈ out a, target e ∈ univ) {n : Nat}
    {f : Frontier α ε} (hn : f.work univ < n) : (search out target stop n f).isSome = true := by
  induction n generalizing f with
  | zero => exact absurd hn (Nat.not_lt_zero _)
  | succ n ih =>
    rcases hq : f.queue with _ | ⟨curr, rest⟩
    · simp [search, hq]
    · simp only [search, hq]
      by_cases hstop : stop curr = true
      · simp [hstop]
      · rw [if_neg hstop]
        refine ih (lt_of_le_of_lt (Frontier.work_foldl_discover_le (huniv curr)) ?_)
        simp only [Frontier.work, hq, List.length_cons] at hn ⊢
        omega

theorem search_start_isSome {univ : List α} (huniv : ∀ a, ∀ e ∈ out a, target e ∈ univ) (s : α) :
    (search out target stop (univ.length + 2) (Frontier.start s)).isSome = true := by
  refine search_isSome huniv ?_
  calc (Frontier.start s).work univ ≤ 1 + univ.length :=
        Nat.add_le_add_left (missing_le_length _ _) _
    _ < univ.length + 2 := by omega

/-- What the loop keeps: seen states are reached from `s`, queued states are seen, and a seen state is
still queued or has been looked at, all its targets being seen. -/
structure SearchInv (out : α → List ε) (target : ε → α) (stop : α → Bool) (s : α)
    (f : Frontier α ε) : Prop where
  start_seen : s ∈ f.seen
  queue_seen : ∀ x ∈ f.queue, x ∈ f.seen
  reached : ∀ x ∈ f.seen, ReflTransGen (EdgeStep out target) s x
  looked : ∀ x ∈ f.seen, x ∈ f.queue ∨
    stop x = false ∧ ∀ y, EdgeStep out target x y → y ∈ f.seen

omit [DecidableEq α] in
theorem searchInv_start : SearchInv out target stop s (Frontier.start s) where
  start_seen := List.mem_singleton_self s
  queue_seen := fun _ hx => hx
  reached := fun _ hx => List.mem_singleton.mp hx ▸ ReflTransGen.refl
  looked := fun _ hx => Or.inl hx

theorem SearchInv.expand {f : Frontier α ε} {curr : α} {rest : List α}
    (h : SearchInv out target stop s f) (hq : f.queue = curr :: rest) (hstop : stop curr = false) :
    SearchInv out target stop s (Frontier.expand out target curr { f with queue := rest }) where
  start_seen := Frontier.mem_seen_foldl_discover.mpr (Or.inl h.start_seen)
  queue_seen := Frontier.queue_seen_foldl_discover fun x hx =>
    h.queue_seen x (hq ▸ List.mem_cons_of_mem _ hx)
  reached := by
    intro x hx
    rcases Frontier.mem_seen_foldl_discover.mp hx with hx | ⟨e, he, rfl⟩
    · exact h.reached x hx
    · exact (h.reached curr (h.queue_seen curr (hq ▸ List.mem_cons_self))).tail ⟨e, he, rfl⟩
  looked := by
    intro x hx
    by_cases hold : x ∈ f.seen
    · -- `curr` has just been looked at, everything else is as it was
      by_cases hcurr : x = curr
      · right
        rw [hcurr]
        exact ⟨hstop, fun y hy => Frontier.mem_seen_foldl_discover.mpr (Or.inr hy)⟩
      · rcases h.looked x hold with hqueued | ⟨hx', hall⟩
        · left
          have hrest : x ∈ rest := (List.mem_cons.mp (hq ▸ hqueued)).resolve_left hcurr
          exact Frontier.queue_sub_foldl_discover hrest
        · right
          exact ⟨hx', fun y hy => Frontier.mem_seen_foldl_discover.mpr (Or.inl (hall y hy))⟩
    · exact Or.inl (Frontier.queued_of_new hx hold)

/-- **What a search finds.** It stops at a state that a walk from `s` reaches, or it has seen exactly the
states that walks from `s` reach, none of which is one to stop at. -/
theorem search_spec {n : Nat} {f g : Frontier α ε} {found : Bool}
    (hf : SearchInv out target stop s f) (h : search out target stop n f = some (found, g)) :
    (found = true ∧ ∃ x, ReflTransGen (EdgeStep out target) s x ∧ stop x = true) ∨
      (found = false ∧ (∀ x, x ∈ g.seen ↔ ReflTransGen (EdgeStep out target) s x) ∧
        ∀ x ∈ g.seen, stop x = false) := by
  induction n generalizing f with
  | zero => simp [search] at h
  | succ n ih =>
    rcases hq : f.queue with _ | ⟨curr, rest⟩
    · simp only [search, hq, Option.some.injEq, Prod.mk.injEq] at h
      obtain ⟨rfl, rfl⟩ := h
      have hall : ∀ x ∈ f.seen, stop x = false ∧ ∀ y, EdgeStep out target x y → y ∈ f.seen :=
        fun x hx => (hf.looked x hx).resolve_left (by rw [hq]; exact List.not_mem_nil)
      refine Or.inr ⟨rfl, fun x => ⟨hf.reached x, fun hx => ?_⟩, fun x hx => (hall x hx).1⟩
      exact Closed.walk (D := {x | x ∈ f.seen}) (fun a b ha hab => (hall a ha).2 b hab)
        hf.start_seen hx
    · simp only [search, hq] at h
      by_cases hstop : stop curr = true
      · rw [if_pos hstop] at h
        simp only [Option.some.injEq, Prod.mk.injEq] at h
        exact Or.inl ⟨h.1.symm, curr, hf.reached curr (hf.queue_seen curr (hq ▸ List.mem_cons_self)),
          hstop⟩
      · rw [if_neg hstop] at h
        exact ih (hf.expand hq (by simpa using hstop)) h

variable {univ : List α}

/-- The search from `s` in a graph whose edges lead into `univ`: enough fuel makes it total. -/
def searchFrom (huniv : ∀ a, ∀ e ∈ out a, target e ∈ univ) (stop : α → Bool) (s : α) :
    Bool × Frontier α ε :=
  (search out target stop (univ.length + 2) (Frontier.start s)).get (search_start_isSome huniv s)

theorem searchFrom_spec (huniv : ∀ a, ∀ e ∈ out a, target e ∈ univ) (stop : α → Bool) (s : α) :
    ((searchFrom huniv stop s).1 = true ∧
        ∃ x, ReflTransGen (EdgeStep out target) s x ∧ stop x = true) ∨
      ((searchFrom huniv stop s).1 = false ∧
        (∀ x, x ∈ (searchFrom huniv stop s).2.seen ↔ ReflTransGen (EdgeStep out target) s x) ∧
        ∀ x ∈ (searchFrom huniv stop s).2.seen, stop x = false) :=
  search_spec searchInv_start (Option.some_get (search_start_isSome huniv s)).symm

theorem searchFrom_found (huniv : ∀ a, ∀ e ∈ out a, target e ∈ univ) : (searchFrom huniv stop s).1 = true ↔
      ∃ x, ReflTransGen (EdgeStep out target) s x ∧ stop x = true := by
  rcases searchFrom_spec huniv stop s with ⟨hfound, h⟩ | ⟨hfound, hseen, hstop⟩
  · exact ⟨fun _ => h, fun _ => hfound⟩
  · rw [hfound]
    refine ⟨fun h => absurd h (by simp), ?_⟩
    rintro ⟨x, hx, hx'⟩
    rw [hstop x ((hseen x).mpr hx)] at hx'
    exact absurd hx' (by simp)

end Search

end Fsmc.Lib
