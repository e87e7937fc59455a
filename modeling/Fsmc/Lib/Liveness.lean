/-
# Fsmc.Lib.Liveness — which values may still be used, by a backward data-flow analysis of a graph.

Every node uses and defines some values. The analysis sweeps over the nodes, updating in place what is
live before and after each, until a sweep changes nothing. It terminates, and a value is live before a
node exactly when some path leads to a use of it through nodes that do not define it.
-/
import Fsmc.Lib.Loop
import Mathlib.Data.Finset.Union
import Mathlib.Logic.Function.Basic

namespace Fsmc.Lib.Liveness

variable {ι α : Type*} [DecidableEq ι] [DecidableEq α]

/-- A graph whose nodes use and define values. -/
structure Flow (ι α : Type*) where
  nodes : List ι
  succ : ι → List ι
  uses : ι → Finset α
  defs : ι → Finset α

/-- What is live before and after each node. -/
structure Facts (ι α : Type*) where
  liveIn : ι → Finset α
  liveOut : ι → Finset α

/-- Nothing is live yet. -/
def Facts.bot : Facts ι α := ⟨fun _ => ∅, fun _ => ∅⟩

namespace Flow

variable (g : Flow ι α)

/-- What is live before a node, given what is live after it. -/
def inOf (n : ι) (out : Finset α) : Finset α := (out \ g.defs n) ∪ g.uses n

/-- What is live after a node, given what is live before its successors. -/
def outOf (f : Facts ι α) (n : ι) : Finset α := (g.succ n).toFinset.biUnion f.liveIn

def update (f : Facts ι α) (n : ι) : Facts ι α where
  liveIn := Function.update f.liveIn n (g.inOf n (g.outOf f n))
  liveOut := Function.update f.liveOut n (g.outOf f n)

/-- Whether the update of a node changes something. -/
def changes (f : Facts ι α) (n : ι) : Bool :=
  g.outOf f n ≠ f.liveOut n || g.inOf n (g.outOf f n) ≠ f.liveIn n

/-- One turn of a sweep, with the flag that says whether anything has changed. -/
def turn (st : Facts ι α × Bool) (n : ι) : Facts ι α × Bool :=
  (g.update st.1 n, st.2 || g.changes st.1 n)

def sweep (f : Facts ι α) : Facts ι α × Bool := g.nodes.foldl g.turn (f, false)

/-- Sweeps until one changes nothing. -/
def analyse (fuel : ℕ) : Option (Facts ι α) := whileChanged g.sweep fuel Facts.bot

/-- The value is used on some path before it is defined. -/
inductive Live : ι → α → Prop
  | use {n : ι} {v : α} : n ∈ g.nodes → v ∈ g.uses n → Live n v
  | step {n m : ι} {v : α} : n ∈ g.nodes → m ∈ g.succ n → v ∉ g.defs n → Live m v → Live n v

/-- The value is live before some successor. -/
def LiveAfter (n : ι) (v : α) : Prop := ∃ m ∈ g.succ n, g.Live m v

/-! ## What a sweep keeps -/

/-- Facts that were found on paths, each following from what was known when it was last updated. -/
structure Justified (f : Facts ι α) : Prop where
  liveIn : ∀ n v, v ∈ f.liveIn n → g.Live n v
  liveOut : ∀ n v, v ∈ f.liveOut n → g.LiveAfter n v
  growing : ∀ n, f.liveOut n ⊆ g.outOf f n ∧ f.liveIn n ⊆ g.inOf n (f.liveOut n)

variable {g} {f : Facts ι α}

theorem justified_bot : g.Justified Facts.bot where
  liveIn := by simp [Facts.bot]
  liveOut := by simp [Facts.bot]
  growing := by simp [Facts.bot]

theorem liveIn_update_self (n : ι) : (g.update f n).liveIn n = g.inOf n (g.outOf f n) := Function.update_self ..

theorem liveIn_update_of_ne {n m : ι} (h : m ≠ n) : (g.update f n).liveIn m = f.liveIn m :=
  Function.update_of_ne h ..

theorem liveOut_update_self (n : ι) : (g.update f n).liveOut n = g.outOf f n :=
  Function.update_self ..

theorem liveOut_update_of_ne {n m : ι} (h : m ≠ n) : (g.update f n).liveOut m = f.liveOut m :=
  Function.update_of_ne h ..

variable {n : ι}

omit [DecidableEq ι] in
theorem inOf_mono {out out' : Finset α} (h : out ⊆ out') : g.inOf n out ⊆ g.inOf n out' :=
  Finset.union_subset_union_left (Finset.sdiff_subset_sdiff h (Finset.Subset.refl _))

theorem outOf_mono {f' : Facts ι α} (h : ∀ m, f.liveIn m ⊆ f'.liveIn m) : g.outOf f n ⊆ g.outOf f' n := by
  intro v hv
  obtain ⟨m, hm, hvm⟩ := Finset.mem_biUnion.mp hv
  exact Finset.mem_biUnion.mpr ⟨m, hm, h m hvm⟩

theorem liveIn_subset_update (h : g.Justified f) (n m : ι) : f.liveIn m ⊆ (g.update f n).liveIn m := by
  by_cases hm : m = n
  · subst hm
    rw [liveIn_update_self]
    exact (h.growing m).2.trans (inOf_mono (h.growing m).1)
  · rw [liveIn_update_of_ne hm]

theorem liveOut_subset_update (h : g.Justified f) (n m : ι) : f.liveOut m ⊆ (g.update f n).liveOut m := by
  by_cases hm : m = n
  · subst hm
    rw [liveOut_update_self]
    exact (h.growing m).1
  · rw [liveOut_update_of_ne hm]

variable {v : α} (ns : List ι) {fuel : ℕ}

theorem liveAfter_of_mem_outOf (h : g.Justified f) (hv : v ∈ g.outOf f n) : g.LiveAfter n v := by
  obtain ⟨m, hm, hvm⟩ := Finset.mem_biUnion.mp hv
  exact ⟨m, List.mem_toFinset.mp hm, h.liveIn m v hvm⟩

theorem justified_update (h : g.Justified f) (hn : n ∈ g.nodes) : g.Justified (g.update f n) where
  liveIn := by
    intro m v hv
    by_cases hm : m = n
    · subst hm
      rw [liveIn_update_self] at hv
      rcases Finset.mem_union.mp hv with hout | huse
      · obtain ⟨hout, hdef⟩ := Finset.mem_sdiff.mp hout
        obtain ⟨k, hk, hlive⟩ := liveAfter_of_mem_outOf h hout
        exact .step hn hk hdef hlive
      · exact .use hn huse
    · rw [liveIn_update_of_ne hm] at hv
      exact h.liveIn m v hv
  liveOut := by
    intro m v hv
    by_cases hm : m = n
    · subst hm
      rw [liveOut_update_self] at hv
      exact liveAfter_of_mem_outOf h hv
    · rw [liveOut_update_of_ne hm] at hv
      exact h.liveOut m v hv
  growing := by
    intro m
    have hgrow : g.outOf f m ⊆ g.outOf (g.update f n) m :=
      outOf_mono fun k => liveIn_subset_update h n k
    by_cases hm : m = n
    · subst hm
      rw [liveOut_update_self, liveIn_update_self]
      exact ⟨hgrow, Finset.Subset.refl _⟩
    · rw [liveOut_update_of_ne hm, liveIn_update_of_ne hm]
      exact ⟨(h.growing m).1.trans hgrow, (h.growing m).2⟩

/-! ## Sweeps -/

theorem update_eq_self (h : g.changes f n = false) : g.update f n = f := by
  simp only [changes, Bool.or_eq_false_iff, decide_eq_false_iff_not, not_not] at h
  unfold update
  rw [h.2, h.1, Function.update_eq_self, Function.update_eq_self]

theorem foldl_turn_flag (st : Facts ι α × Bool) (h : st.2 = true) : (ns.foldl g.turn st).2 = true := by
  induction ns generalizing st with
  | nil => exact h
  | cons n ns ih => exact ih _ (by simp [turn, h])

theorem exists_of_changes (h : g.Justified f) (hchanges : g.changes f n = true) :
    ∃ v, (v ∉ f.liveIn n ∧ v ∈ (g.update f n).liveIn n) ∨
      (v ∉ f.liveOut n ∧ v ∈ (g.update f n).liveOut n) := by
  rw [liveIn_update_self, liveOut_update_self]
  simp only [changes, Bool.or_eq_true, decide_eq_true_eq] at hchanges
  rcases hchanges with hout | hin
  · have hss : f.liveOut n ⊂ g.outOf f n :=
      Finset.ssubset_iff_subset_ne.mpr ⟨(h.growing n).1, Ne.symm hout⟩
    obtain ⟨v, hv, hnot⟩ := Finset.exists_of_ssubset hss
    exact ⟨v, Or.inr ⟨hnot, hv⟩⟩
  · have hss : f.liveIn n ⊂ g.inOf n (g.outOf f n) :=
      Finset.ssubset_iff_subset_ne.mpr
        ⟨(h.growing n).2.trans (inOf_mono (h.growing n).1), Ne.symm hin⟩
    obtain ⟨v, hv, hnot⟩ := Finset.exists_of_ssubset hss
    exact ⟨v, Or.inl ⟨hnot, hv⟩⟩

theorem foldl_turn_subset (hns : ∀ n ∈ ns, n ∈ g.nodes) (st : Facts ι α × Bool) (h : g.Justified st.1) :
    g.Justified (ns.foldl g.turn st).1 ∧ ∀ m, st.1.liveIn m ⊆ (ns.foldl g.turn st).1.liveIn m ∧
      st.1.liveOut m ⊆ (ns.foldl g.turn st).1.liveOut m := by
  induction ns generalizing st with
  | nil => exact ⟨h, fun m => ⟨Finset.Subset.refl _, Finset.Subset.refl _⟩⟩
  | cons n ns ih =>
    obtain ⟨hjust, hsub⟩ := ih (fun m hm => hns m (List.mem_cons_of_mem _ hm)) (g.turn st n)
      (justified_update h (hns n List.mem_cons_self))
    exact ⟨hjust, fun m => ⟨(liveIn_subset_update h n m).trans (hsub m).1,
      (liveOut_subset_update h n m).trans (hsub m).2⟩⟩

theorem foldl_turn_unchanged (st : Facts ι α × Bool) (hflag : (ns.foldl g.turn st).2 = false) :
    (ns.foldl g.turn st).1 = st.1 ∧ ∀ n ∈ ns, g.changes st.1 n = false := by
  induction ns generalizing st with
  | nil => exact ⟨rfl, by simp⟩
  | cons n ns ih =>
    rw [List.foldl_cons] at hflag
    have hchanges : g.changes st.1 n = false := by
      by_contra hcontra
      have htrue : (ns.foldl g.turn (g.turn st n)).2 = true :=
        foldl_turn_flag ns (g.turn st n) (by simp [turn, hcontra])
      rw [hflag] at htrue
      exact absurd htrue (by simp)
    have hturn : (g.turn st n).1 = st.1 := update_eq_self hchanges
    obtain ⟨heq, hrest⟩ := ih _ hflag
    rw [hturn] at heq hrest
    refine ⟨heq, ?_⟩
    intro m hm
    rcases List.mem_cons.mp hm with rfl | hm
    · exact hchanges
    · exact hrest m hm

theorem foldl_turn_changed (hns : ∀ n ∈ ns, n ∈ g.nodes) (st : Facts ι α × Bool)
    (h : g.Justified st.1) (hstart : st.2 = false) (hflag : (ns.foldl g.turn st).2 = true) :
    ∃ m ∈ ns, ∃ v, (v ∉ st.1.liveIn m ∧ v ∈ (ns.foldl g.turn st).1.liveIn m) ∨
      (v ∉ st.1.liveOut m ∧ v ∈ (ns.foldl g.turn st).1.liveOut m) := by
  induction ns generalizing st with
  | nil =>
    rw [List.foldl_nil, hstart] at hflag
    exact absurd hflag (by simp)
  | cons n ns ih =>
    rw [List.foldl_cons] at hflag
    have hns' : ∀ m ∈ ns, m ∈ g.nodes := fun m hm => hns m (List.mem_cons_of_mem _ hm)
    have hupdate : g.Justified (g.turn st n).1 := justified_update h (hns n List.mem_cons_self)
    cases hchanges : g.changes st.1 n with
    | true =>
      obtain ⟨v, hv⟩ := exists_of_changes h hchanges
      have hsub := (foldl_turn_subset ns hns' (g.turn st n) hupdate).2 n
      exact ⟨n, List.mem_cons_self, v,
        hv.imp (And.imp_right fun hmem => hsub.1 hmem) (And.imp_right fun hmem => hsub.2 hmem)⟩
    | false =>
      obtain ⟨m, hm, v, hv⟩ := ih hns' (g.turn st n) hupdate (by simp [turn, hstart, hchanges])
        hflag
      refine ⟨m, List.mem_cons_of_mem _ hm, v, hv.imp (And.imp_left ?_) (And.imp_left ?_)⟩
      · exact fun hnot hmem => hnot (liveIn_subset_update h n m hmem)
      · exact fun hnot hmem => hnot (liveOut_subset_update h n m hmem)

theorem justified_sweep (h : g.Justified f) : g.Justified (g.sweep f).1 :=
  (foldl_turn_subset g.nodes (fun _ hn => hn) (f, false) h).1

/-! ## The result -/

theorem mem_liveIn_of_live
    (hdone : ∀ n ∈ g.nodes, g.changes f n = false) (hlive : g.Live n v) : v ∈ f.liveIn n := by
  have hin : ∀ n ∈ g.nodes, g.inOf n (g.outOf f n) = f.liveIn n := by
    intro n hn
    have hchanges := hdone n hn
    simp only [changes, Bool.or_eq_false_iff, decide_eq_false_iff_not, not_not] at hchanges
    exact hchanges.2
  induction hlive with
  | use hn huse =>
    rw [← hin _ hn]
    exact Finset.mem_union_right _ huse
  | step hn hm hdef _ ih =>
    rw [← hin _ hn]
    apply Finset.mem_union_left
    apply Finset.mem_sdiff.mpr
    exact ⟨Finset.mem_biUnion.mpr ⟨_, List.mem_toFinset.mpr hm, ih⟩, hdef⟩

theorem analyse_spec {r : Facts ι α} (h : g.analyse fuel = some r) : (∀ n v, v ∈ r.liveIn n ↔ g.Live n v) ∧
      ∀ n ∈ g.nodes, ∀ v, v ∈ r.liveOut n ↔ g.LiveAfter n v := by
  obtain ⟨last, hjust, hflag, hr⟩ := whileChanged_spec g.Justified
    (fun _ hf => justified_sweep hf) justified_bot h
  obtain ⟨heq, hdone⟩ := foldl_turn_unchanged g.nodes (last, false) hflag
  unfold sweep at hr
  rw [heq] at hr
  subst hr
  refine ⟨fun n v => ⟨hjust.liveIn n v, mem_liveIn_of_live hdone⟩, ?_⟩
  intro n hn v
  refine ⟨hjust.liveOut n v, ?_⟩
  rintro ⟨m, hm, hlive⟩
  have hchanges := hdone n hn
  simp only [changes, Bool.or_eq_false_iff, decide_eq_false_iff_not, not_not] at hchanges
  rw [← hchanges.1]
  exact Finset.mem_biUnion.mpr ⟨m, List.mem_toFinset.mpr hm, mem_liveIn_of_live hdone hlive⟩

/-- The facts that there can be, about values of `univ`. -/
def possible (univ : List α) : List (Bool × ι × α) :=
  ([true, false] : List Bool) ×ˢ (g.nodes ×ˢ univ)

/-- Whether a fact has been found. -/
def found (f : Facts ι α) (x : Bool × ι × α) : Prop :=
  if x.1 then x.2.2 ∈ f.liveIn x.2.1 else x.2.2 ∈ f.liveOut x.2.1

instance (f : Facts ι α) : DecidablePred (found f) := fun x => by
  unfold found
  infer_instance

omit [DecidableEq ι] [DecidableEq α] in
theorem mem_univ_of_live {univ : List α} (huniv : ∀ n, ∀ v ∈ g.uses n, v ∈ univ)
    (h : g.Live n v) : v ∈ univ := by
  induction h with
  | use _ huse => exact huniv _ _ huse
  | step _ _ _ _ ih => exact ih

/-- **Termination.** Every sweep but the last finds a fact. -/
theorem analyse_isSome {univ : List α} (huniv : ∀ n, ∀ v ∈ g.uses n, v ∈ univ)
    (hfuel : (g.possible univ).length < fuel) : (g.analyse fuel).isSome = true := by
  refine whileChanged_isSome g.Justified (fun f => missing (g.possible univ) (found f))
    (fun _ hf => justified_sweep hf) ?_ justified_bot (lt_of_le_of_lt (missing_le_length _ _) hfuel)
  intro f hf hflag
  obtain ⟨hjust, hsub⟩ := foldl_turn_subset g.nodes (fun _ hn => hn) (f, false) hf
  obtain ⟨m, hm, v, hv⟩ :=
    foldl_turn_changed g.nodes (fun _ hn => hn) (f, false) hf rfl hflag
  have hmono : ∀ x, found f x → found (g.sweep f).1 x := by
    rintro ⟨b, n, v⟩ hx
    cases b with
    | true => exact (hsub n).1 hx
    | false => exact (hsub n).2 hx
  rcases hv with ⟨hnot, hmem⟩ | ⟨hnot, hmem⟩
  · have hv : v ∈ univ := mem_univ_of_live huniv (hjust.liveIn m v hmem)
    exact missing_lt (x := (true, m, v)) hmono (by simp [possible, hm, hv]) hnot hmem
  · obtain ⟨k, -, hlive⟩ := hjust.liveOut m v hmem
    have hv : v ∈ univ := mem_univ_of_live huniv hlive
    exact missing_lt (x := (false, m, v)) hmono (by simp [possible, hm, hv]) hnot hmem

/-! ## The equations -/

variable (g) in
/-- A solution of the data-flow equations. -/
structure Solution (f : Facts ι α) : Prop where
  liveOut : ∀ n ∈ g.nodes, f.liveOut n = g.outOf f n
  liveIn : ∀ n ∈ g.nodes, f.liveIn n = g.inOf n (f.liveOut n)

variable (g) in
/-- A solution that is contained in every other one. -/
structure LeastSolution (f : Facts ι α) : Prop extends g.Solution f where
  liveOut_subset : ∀ f', g.Solution f' → ∀ n ∈ g.nodes, f.liveOut n ⊆ f'.liveOut n
  liveIn_subset : ∀ f', g.Solution f' → ∀ n, f.liveIn n ⊆ f'.liveIn n

theorem Solution.mem_liveIn (h : g.Solution f) (hlive : g.Live n v) : v ∈ f.liveIn n := by
  apply mem_liveIn_of_live _ hlive
  intro n hn
  simp only [changes, Bool.or_eq_false_iff, decide_eq_false_iff_not, not_not]
  refine ⟨(h.liveOut n hn).symm, ?_⟩
  rw [← h.liveOut n hn]
  exact (h.liveIn n hn).symm

theorem Solution.mem_liveOut (h : g.Solution f) (hn : n ∈ g.nodes)
    (hlive : g.LiveAfter n v) : v ∈ f.liveOut n := by
  obtain ⟨m, hm, hlive⟩ := hlive
  rw [h.liveOut n hn]
  exact Finset.mem_biUnion.mpr ⟨m, List.mem_toFinset.mpr hm, h.mem_liveIn hlive⟩

theorem analyse_leastSolution {r : Facts ι α} (h : g.analyse fuel = some r) : g.LeastSolution r := by
  obtain ⟨hin, hout⟩ := analyse_spec h
  refine ⟨⟨?_, ?_⟩, ?_, ?_⟩
  · intro n hn
    ext v
    rw [hout n hn]
    simp only [LiveAfter, outOf, Finset.mem_biUnion, List.mem_toFinset, hin]
  · intro n hn
    ext v
    rw [hin, inOf, Finset.mem_union, Finset.mem_sdiff, hout n hn]
    constructor
    · rintro (⟨-, huse⟩ | ⟨-, hm, hdef, hlive⟩)
      · exact Or.inr huse
      · exact Or.inl ⟨⟨_, hm, hlive⟩, hdef⟩
    · rintro (⟨⟨m, hm, hlive⟩, hdef⟩ | huse)
      · exact .step hn hm hdef hlive
      · exact .use hn huse
  · intro f' hf' n hn v hv
    exact hf'.mem_liveOut hn ((hout n hn v).mp hv)
  · intro f' hf' n v hv
    exact hf'.mem_liveIn ((hin n v).mp hv)

end Flow

end Fsmc.Lib.Liveness
