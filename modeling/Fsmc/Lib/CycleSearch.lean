/-
# Fsmc.Lib.CycleSearch — cycles by a depth-first search in three colours.

A vertex is grey while its successors are scanned and black afterwards; a grey successor closes a cycle. The
search may go on after it has found one, or stop at once and leave its grey vertices as they are. Either way it
finds a cycle if and only if a root reaches one.
-/
import Fsmc.Lib.Tarjan

namespace Fsmc.Lib.CycleSearch

open Relation

variable {α : Type*} [DecidableEq α]

/-- The colours of a depth-first search. -/
inductive Colour where
  | white | grey | black
  deriving DecidableEq

/-- The colours, and whether a cycle was found. -/
abbrev Search (α : Type*) := (α → Colour) × Bool

/-- One successor. A search that stops scans no further once it has found a cycle. -/
def scan (stop : Bool) (call : α → Search α → Search α) (st : Search α) (v : α) : Search α :=
  if stop && st.2 then st
  else
    match st.1 v with
    | .grey => (st.1, true)
    | .white => call v st
    | .black => st

/-- Visit a white vertex, with a number of nested calls. -/
def visit (stop : Bool) (succ : α → List α) : ℕ → α → Search α → Search α
  | 0, _, st => st
  | n + 1, u, st =>
    let scanned := (succ u).foldl (scan stop (visit stop succ n)) (Function.update st.1 u .grey, st.2)
    if stop && scanned.2 then scanned else (Function.update scanned.1 u .black, scanned.2)

/-- Visit the roots that are still white. Each visit begins without a cycle. -/
def searchFrom (stop : Bool) (succ : α → List α) (n : ℕ) (st : Search α) (root : α) : Search α :=
  match st.1 root with
  | .white => ((visit stop succ n root (st.1, false)).1, st.2 || (visit stop succ n root (st.1, false)).2)
  | _ => st

/-- Whether the search from the roots finds a cycle. -/
def findsCycle (stop : Bool) (succ : α → List α) (n : ℕ) (roots : List α) : Bool :=
  (roots.foldl (searchFrom stop succ n) (fun _ => .white, false)).2

variable {stop : Bool} {succ : α → List α}

def ReachesCycle (succ : α → List α) (root : α) : Prop :=
  ∃ x, Reach succ root x ∧ TransGen (SuccStep succ) x x

/-- Every vertex stands before its successors. -/
def Topological (succ : α → List α) : List α → Prop
  | [] => True
  | x :: rest => (∀ v ∈ succ x, v ∈ rest) ∧ Topological succ rest

/-- The grey vertices, and the black ones in an order in which every vertex stands before its successors. -/
structure Fits (succ : α → List α) (colours : α → Colour) (grey : α → Prop) (done : List α) : Prop where
  grey : ∀ x, colours x = .grey ↔ grey x
  black : ∀ x, colours x = .black ↔ x ∈ done
  order : Topological succ done

omit [DecidableEq α] in
theorem Topological.succ_mem : ∀ {done : List α}, Topological succ done → ∀ {x y : α}, x ∈ done →
    SuccStep succ x y → y ∈ done
  | z :: rest, h, x, y, hx, hxy => by
    rcases List.mem_cons.mp hx with rfl | hx
    · exact List.mem_cons_of_mem _ (h.1 y hxy)
    · exact List.mem_cons_of_mem _ (h.2.succ_mem hx hxy)

omit [DecidableEq α] in
theorem Topological.reach_mem {done : List α} (h : Topological succ done) {x y : α} (hx : x ∈ done)
    (hxy : Reach succ x y) : y ∈ done := by
  induction hxy with
  | refl => exact hx
  | tail _ hstep ih => exact h.succ_mem ih hstep

omit [DecidableEq α] in
theorem Topological.acyclic : ∀ {done : List α}, Topological succ done → ∀ {x : α}, x ∈ done →
    ¬ TransGen (SuccStep succ) x x
  | z :: rest, h, x, hx, hcycle => by
    obtain ⟨y, hxy, hyx⟩ := TransGen.head'_iff.mp hcycle
    have hrest : x ∈ rest := by
      rcases List.mem_cons.mp hx with rfl | hx
      · exact h.2.reach_mem (h.1 y hxy) hyx
      · exact hx
    exact h.2.acyclic hrest hcycle

variable {grey : α → Prop}

omit [DecidableEq α] in
theorem Fits.white_iff {colours : α → Colour} {done : List α} (h : Fits succ colours grey done)
    (x : α) : colours x = .white ↔ ¬ grey x ∧ x ∉ done := by
  rw [← h.grey, ← h.black]
  cases colours x <;> simp

omit [DecidableEq α] in
theorem Fits.not_white_of_not_white {colours colours' : α → Colour} {new done : List α}
    (h' : Fits succ colours' grey (new ++ done)) (h : Fits succ colours grey done) {x : α}
    (hx : colours x ≠ .white) : colours' x ≠ .white := by
  rw [Ne, h.white_iff] at hx
  rw [Ne, h'.white_iff, List.mem_append]
  tauto

/-! ## The search -/

omit [DecidableEq α] in
theorem foldl_scan_found {call : α → Search α → Search α} (hcall : ∀ v st, st.2 = true → (call v st).2 = true) :
    ∀ (vs : List α) (st : Search α), st.2 = true → (vs.foldl (scan stop call) st).2 = true
  | [], _, h => h
  | v :: vs, st, h => by
    refine foldl_scan_found hcall vs _ ?_
    unfold scan
    split
    · exact h
    · split
      · rfl
      · exact hcall v st h
      · exact h

theorem visit_found : ∀ (n : ℕ) (u : α) (st : Search α), st.2 = true → (visit stop succ n u st).2 = true
  | 0, _, _, h => h
  | n + 1, u, st, h => by
    have hscanned :
        ((succ u).foldl (scan stop (visit stop succ n)) (Function.update st.1 u .grey, st.2)).2 = true :=
      foldl_scan_found (visit_found n) (succ u) _ h
    unfold visit
    dsimp only
    split <;> exact hscanned

theorem foldl_searchFrom_found {n : ℕ} (roots : List α) (st : Search α) (h : st.2 = true) :
    (roots.foldl (searchFrom stop succ n) st).2 = true := by
  induction roots generalizing st with
  | nil => exact h
  | cons r roots ih =>
    refine ih _ ?_
    unfold searchFrom
    split
    · rw [h]
      rfl
    · exact h

/-- How many vertices are still white. -/
def whites (univ : List α) (st : Search α) : ℕ := missing univ fun x => st.1 x ≠ .white

/-- What a visit leaves behind: a cycle that the root reaches, or more black vertices. -/
def Visited (succ : α → List α) (root : α) (grey : α → Prop) (done : List α) (targets : List α)
    (st : Search α) : Prop :=
  (st.2 = true → ReachesCycle succ root) ∧
    (st.2 = false → ∃ new, Fits succ st.1 grey (new ++ done) ∧ targets ⊆ new ++ done)

section Spec

variable {univ : List α} (hclosed : ∀ x ∈ univ, ∀ y, SuccStep succ x y → y ∈ univ) {root : α}

/-- What a visit of a white vertex does, with as many nested calls as there are white vertices. -/
def VisitSpec (stop : Bool) (succ : α → List α) (univ : List α) (root : α) (n : ℕ) : Prop :=
  ∀ (u : α) (st : Search α) (grey : α → Prop) (done : List α), st.2 = false → st.1 u = .white → u ∈ univ →
    (∀ x, grey x → Reach succ x u) → Reach succ root u → Fits succ st.1 grey done → whites univ st ≤ n →
      Visited succ root grey done [u] (visit stop succ n u st)

include hclosed

theorem foldl_scan_spec {n : ℕ} (hvisit : VisitSpec stop succ univ root n) {u : α} (hu : u ∈ univ)
    {grey : α → Prop} (hgrey : ∀ x, grey x → Reach succ x u) (hroot : Reach succ root u) :
    ∀ (vs : List α) (st : Search α) (done : List α), (∀ v ∈ vs, SuccStep succ u v) → st.2 = false →
      Fits succ st.1 grey done → whites univ st ≤ n →
        Visited succ root grey done vs (vs.foldl (scan stop (visit stop succ n)) st)
  | [], st, done, _, hst, hfits, _ =>
    ⟨fun h => absurd (hst.symm.trans h) Bool.false_ne_true, fun _ => ⟨[], hfits, List.nil_subset _⟩⟩
  | v :: vs, st, done, hvs, hst, hfits, hwhites => by
    have hv : SuccStep succ u v := hvs v List.mem_cons_self
    have hrest : ∀ w ∈ vs, SuccStep succ u w := fun w hw => hvs w (List.mem_cons_of_mem _ hw)
    rw [List.foldl_cons]
    -- A found cycle stays found, so that nothing is left to show for the rest.
    have hfinish : ∀ st', st'.2 = true → ReachesCycle succ root →
        Visited succ root grey done (v :: vs) (vs.foldl (scan stop (visit stop succ n)) st') := by
      intro st' hst' hcycle
      refine ⟨fun _ => hcycle, fun h => ?_⟩
      rw [foldl_scan_found (visit_found n) vs st' hst'] at h
      cases h
    have hstop : (stop && st.2) = false := by rw [hst, Bool.and_false]
    cases hcolour : st.1 v with
    | grey =>
      have hscan : scan stop (visit stop succ n) st v = (st.1, true) := by simp [scan, hstop, hcolour]
      rw [hscan]
      have hback : Reach succ v u := hgrey v ((hfits.grey v).mp hcolour)
      exact hfinish _ rfl ⟨v, hroot.tail hv, TransGen.tail' hback hv⟩
    | black =>
      have hscan : scan stop (visit stop succ n) st v = st := by simp [scan, hstop, hcolour]
      rw [hscan]
      obtain ⟨hfound, hmore⟩ := foldl_scan_spec hvisit hu hgrey hroot vs st done hrest hst hfits hwhites
      refine ⟨hfound, fun h => ?_⟩
      obtain ⟨new, hnew, hsub⟩ := hmore h
      have hdone : v ∈ done := (hfits.black v).mp hcolour
      exact ⟨new, hnew, List.cons_subset.mpr ⟨List.mem_append_right _ hdone, hsub⟩⟩
    | white =>
      have hscan : scan stop (visit stop succ n) st v = visit stop succ n v st := by
        simp [scan, hstop, hcolour]
      rw [hscan]
      obtain ⟨hfound, hmore⟩ := hvisit v st grey done hst hcolour (hclosed u hu v hv)
        (fun x hx => (hgrey x hx).tail hv) (hroot.tail hv) hfits hwhites
      cases hresult : (visit stop succ n v st).2 with
      | true => exact hfinish _ hresult (hfound hresult)
      | false =>
        obtain ⟨new, hnew, hsub⟩ := hmore hresult
        have hwhites' : whites univ (visit stop succ n v st) ≤ n := by
          refine le_trans (missing_mono fun x hx => ?_) hwhites
          exact hnew.not_white_of_not_white hfits hx
        obtain ⟨hfound', hmore'⟩ := foldl_scan_spec hvisit hu hgrey hroot vs _ (new ++ done) hrest hresult
          hnew hwhites'
        refine ⟨hfound', fun h => ?_⟩
        obtain ⟨later, hlater, hsub'⟩ := hmore' h
        rw [← List.append_assoc] at hlater hsub'
        refine ⟨later ++ new, hlater, List.cons_subset.mpr ⟨?_, hsub'⟩⟩
        rw [List.append_assoc]
        exact List.mem_append_right _ (hsub List.mem_cons_self)

theorem visitSpec : ∀ n, VisitSpec stop succ univ root n
  | 0, u, st, _, _, _, hwhite, hu, _, _, _, hwhites => by
    -- There is a white vertex, so that the number is not zero.
    have hpos : 0 < whites univ st :=
      List.countP_pos_iff.mpr ⟨u, hu, by simp [hwhite]⟩
    omega
  | n + 1, u, st, grey, done, hst, hwhite, hu, hgrey, hroot, hfits, hwhites => by
    obtain ⟨hnotGrey, hnotDone⟩ := (hfits.white_iff u).mp hwhite
    have hentered : Fits succ (Function.update st.1 u .grey) (fun x => grey x ∨ x = u) done := by
      refine ⟨fun x => ?_, fun x => ?_, hfits.order⟩
      · by_cases hx : x = u
        · simp [hx]
        · rw [Function.update_of_ne hx, hfits.grey]
          simp [hx]
      · by_cases hx : x = u
        · simp [hx, hnotDone]
        · rw [Function.update_of_ne hx, hfits.black]
    have hless : whites univ (Function.update st.1 u .grey, st.2) < whites univ st := by
      refine missing_lt (fun x hx => ?_) hu (fun h => h hwhite) (by simp)
      by_cases hxu : x = u
      · simp [hxu]
      · show Function.update st.1 u .grey x ≠ .white
        rwa [Function.update_of_ne hxu]
    have habove : ∀ x, grey x ∨ x = u → Reach succ x u := by
      rintro x (hx | rfl)
      · exact hgrey x hx
      · exact ReflTransGen.refl
    obtain ⟨hfound, hmore⟩ := foldl_scan_spec hclosed (visitSpec n) hu habove hroot (succ u)
      (Function.update st.1 u .grey, st.2) done (fun v hv => hv) hst hentered (by omega)
    unfold visit
    dsimp only
    split
    · rename_i hstopped
      rw [Bool.and_eq_true] at hstopped
      exact ⟨hfound, fun h => absurd (h.symm.trans hstopped.2) Bool.false_ne_true⟩
    · refine ⟨hfound, fun h => ?_⟩
      obtain ⟨new, hnew, hsub⟩ := hmore h
      have hnotNew : u ∉ new ++ done := fun hmem => by
        have hblack := (hnew.black u).mpr hmem
        rw [(hnew.grey u).mpr (Or.inr rfl)] at hblack
        cases hblack
      refine ⟨u :: new, ⟨fun x => ?_, fun x => ?_, hsub, hnew.order⟩, ?_⟩
      · dsimp only
        by_cases hx : x = u
        · simp [hx, hnotGrey]
        · rw [Function.update_of_ne hx, hnew.grey]
          simp [hx]
      · dsimp only
        by_cases hx : x = u
        · simp [hx]
        · rw [Function.update_of_ne hx, hnew.black, List.cons_append, List.mem_cons]
          simp [hx]
      · exact List.cons_subset.mpr ⟨List.mem_cons_self, List.nil_subset _⟩

variable (stop) in
theorem foldl_searchFrom_spec {n : ℕ} (hn : univ.length ≤ n) : ∀ (roots : List α) (st : Search α) (done : List α),
    (∀ r ∈ roots, r ∈ univ) → st.2 = false → Fits succ st.1 (fun _ => False) done →
      ((roots.foldl (searchFrom stop succ n) st).2 = true → ∃ r ∈ roots, ReachesCycle succ r) ∧
        ((roots.foldl (searchFrom stop succ n) st).2 = false → ∀ r ∈ roots, ¬ ReachesCycle succ r)
  | [], st, _, _, hst, _ => by
    refine ⟨fun h => absurd (hst.symm.trans h) Bool.false_ne_true, fun _ r hr => absurd hr List.not_mem_nil⟩
  | r :: roots, st, done, hroots, hst, hfits => by
    have hr : r ∈ univ := hroots r List.mem_cons_self
    have hrest : ∀ r' ∈ roots, r' ∈ univ := fun r' hr' => hroots r' (List.mem_cons_of_mem _ hr')
    -- Among black vertices there is no cycle.
    have hblack : ∀ {colours : α → Colour} {more : List α},
        Fits succ colours (fun _ => False) more → r ∈ more →
        ¬ ReachesCycle succ r := fun hmore hmem ⟨_, hreach, hcycle⟩ =>
      hmore.order.acyclic (hmore.order.reach_mem hmem hreach) hcycle
    rw [List.foldl_cons]
    cases hcolour : st.1 r with
    | grey => exact ((hfits.grey r).mp hcolour).elim
    | black =>
      have hsame : searchFrom stop succ n st r = st := by simp [searchFrom, hcolour]
      rw [hsame]
      obtain ⟨hfound, hmissed⟩ := foldl_searchFrom_spec hn roots st done hrest hst hfits
      refine ⟨fun h => ?_, fun h r' hr' => ?_⟩
      · obtain ⟨r', hr', hcycle⟩ := hfound h
        exact ⟨r', List.mem_cons_of_mem _ hr', hcycle⟩
      · rcases List.mem_cons.mp hr' with rfl | hr'
        · exact hblack hfits ((hfits.black _).mp hcolour)
        · exact hmissed h r' hr'
    | white =>
      have hvisit : searchFrom stop succ n st r = visit stop succ n r (st.1, false) := by
        simp [searchFrom, hcolour, hst]
      have hwhites : whites univ (st.1, false) ≤ n := (missing_le_length univ _).trans hn
      obtain ⟨hfound, hmore⟩ := visitSpec hclosed n r (st.1, false) (fun _ => False) done rfl hcolour hr
        (fun _ h => h.elim) ReflTransGen.refl hfits hwhites
      rw [hvisit]
      cases hresult : (visit stop succ n r (st.1, false)).2 with
      | true =>
        refine ⟨fun _ => ⟨r, List.mem_cons_self, hfound hresult⟩, fun h => ?_⟩
        rw [foldl_searchFrom_found roots _ hresult] at h
        cases h
      | false =>
        obtain ⟨new, hnew, hsub⟩ := hmore hresult
        obtain ⟨hfound', hmissed'⟩ := foldl_searchFrom_spec hn roots _ (new ++ done) hrest hresult hnew
        refine ⟨fun h => ?_, fun h r' hr' => ?_⟩
        · obtain ⟨r', hr', hcycle⟩ := hfound' h
          exact ⟨r', List.mem_cons_of_mem _ hr', hcycle⟩
        · rcases List.mem_cons.mp hr' with rfl | hr'
          · exact hblack hnew (hsub List.mem_cons_self)
          · exact hmissed' h r' hr'

theorem findsCycle_iff {n : ℕ} (hn : univ.length ≤ n) {roots : List α} (hroots : ∀ r ∈ roots, r ∈ univ) :
    findsCycle stop succ n roots = true ↔ ∃ r ∈ roots, ReachesCycle succ r := by
  have hfits : Fits succ (fun _ : α => Colour.white) (fun _ => False) [] :=
    ⟨fun _ => by simp, fun _ => by simp, trivial⟩
  obtain ⟨hfound, hmissed⟩ := foldl_searchFrom_spec stop hclosed hn roots (fun _ => .white, false) []
    hroots rfl hfits
  refine ⟨hfound, ?_⟩
  rintro ⟨r, hr, hcycle⟩
  by_contra hnot
  exact hmissed (Bool.not_eq_true _ ▸ hnot) r hr hcycle

end Spec

end Fsmc.Lib.CycleSearch
