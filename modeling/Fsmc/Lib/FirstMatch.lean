/-
# Fsmc.Lib.FirstMatch — first match in a list sorted by a key.

A table that is searched from the front chooses by position. Sorting the table by a key beforehand
makes the choice one by key: the first match in a stably sorted list is the match of least key, and
among the matches of that key the one that came first before the sort.
-/
import Mathlib.Data.List.MinMax
import Mathlib.Data.List.Sort

namespace Fsmc.Lib.FirstMatch

variable {α κ : Type*} [LinearOrder κ] {key : α → κ} {l l' : List α} {a : α}

/-! ## The first of the least elements -/

/-- `a` is the first of the elements of least key in `pre ++ a :: post`. -/
structure IsFirstLeast (key : α → κ) (pre : List α) (a : α) (post : List α) : Prop where
  before : ∀ b ∈ pre, key a < key b
  after : ∀ b ∈ post, key a ≤ key b

variable {pre post : List α}

theorem argmin_of_isFirstLeast (h : IsFirstLeast key pre a post) :
    (pre ++ a :: post).argmin key = some a := by
  induction pre with
  | nil =>
    show (a :: post).argmin key = some a
    rw [List.argmin_cons]
    cases hmin : post.argmin key with
    | none => rfl
    | some c =>
      have hle : key a ≤ key c := h.after c (List.argmin_mem hmin)
      simp [not_lt.mpr hle]
  | cons b pre ih =>
    have hpre : (pre ++ a :: post).argmin key = some a :=
      ih ⟨fun c hc => h.before c (List.mem_cons_of_mem b hc), h.after⟩
    rw [List.cons_append, List.argmin_cons, hpre]
    simp [h.before b List.mem_cons_self]

variable {p : α → Bool}

theorem IsFirstLeast.filter (h : IsFirstLeast key pre a post) :
    IsFirstLeast key (pre.filter p) a (post.filter p) :=
  ⟨fun b hb => h.before b (List.mem_of_mem_filter hb),
    fun b hb => h.after b (List.mem_of_mem_filter hb)⟩

theorem exists_isFirstLeast_of_argmin (h : l.argmin key = some a) :
    ∃ pre post, l = pre ++ a :: post ∧ IsFirstLeast key pre a post := by
  induction l generalizing a with
  | nil => simp at h
  | cons b l ih =>
    rw [List.argmin_cons] at h
    cases hmin : l.argmin key with
    | none =>
      have hl : l = [] := List.argmin_eq_none.mp hmin
      have hab : b = a := by simpa [hmin] using h
      subst hl hab
      exact ⟨[], [], rfl, by simp, by simp⟩
    | some c =>
      simp only [hmin] at h
      by_cases hcb : key c < key b
      · have hca : c = a := by simpa [hcb] using h
        subst hca
        obtain ⟨pre, post, rfl, hleast⟩ := ih hmin
        refine ⟨b :: pre, post, rfl, ?_, hleast.after⟩
        intro d hd
        rcases List.mem_cons.mp hd with rfl | hd
        · exact hcb
        · exact hleast.before d hd
      · have hba : b = a := by simpa [hcb] using h
        subst hba
        refine ⟨[], l, rfl, by simp, ?_⟩
        intro d hd
        exact (not_lt.mp hcb).trans (List.le_of_mem_argmin hd hmin)

theorem head?_filter_of_argmin (h : l.argmin key = some a) : (l.filter fun b => key b = key a).head? = some a := by
  obtain ⟨pre, post, rfl, hleast⟩ := exists_isFirstLeast_of_argmin h
  have hpre : pre.filter (fun b => key b = key a) = [] := by
    rw [List.filter_eq_nil_iff]
    intro b hb
    simpa using (hleast.before b hb).ne'
  simp [List.filter_append, hpre]

theorem argmin_filter_of_argmin (h : l.argmin key = some a) (ha : p a = true) : (l.filter p).argmin key = some a := by
  obtain ⟨pre, post, rfl, hleast⟩ := exists_isFirstLeast_of_argmin h
  rw [List.filter_append, List.filter_cons_of_pos ha]
  exact argmin_of_isFirstLeast hleast.filter

theorem exists_append_of_argmin_filter (h : (l.filter p).argmin key = some a) :
    ∃ pre post, l = pre ++ a :: post ∧ p a = true ∧
      IsFirstLeast key (pre.filter p) a (post.filter p) := by
  obtain ⟨pre, post, hfilter, hleast⟩ := exists_isFirstLeast_of_argmin h
  obtain ⟨pre', rest, rfl, hpre, hrest⟩ := List.filter_eq_append_iff.mp hfilter
  obtain ⟨skipped, post', rfl, hskipped, ha, hpost⟩ := List.filter_eq_cons_iff.mp hrest
  refine ⟨pre' ++ skipped, post', by simp, ha, ?_⟩
  have hnil : skipped.filter p = [] := by
    rw [List.filter_eq_nil_iff]
    exact hskipped
  rw [List.filter_append, hnil, List.append_nil, hpre, hpost]
  exact hleast

theorem argmin_congr (h : ∀ k, (l.filter fun b => key b = k) = l'.filter fun b => key b = k) :
    l.argmin key = l'.argmin key := by
  have hmem : ∀ b, b ∈ l ↔ b ∈ l' := by
    intro b
    have hb := congrArg (b ∈ ·) (h (key b))
    simpa using hb
  cases hmin : l.argmin key with
  | none =>
    have hl : l = [] := List.argmin_eq_none.mp hmin
    have hl' : l' = [] := by
      rw [List.eq_nil_iff_forall_not_mem]
      intro b hb
      have hb' := (hmem b).mpr hb
      simp [hl] at hb'
    simp [hl']
  | some a =>
    have ha : a ∈ l' := (hmem a).mp (List.argmin_mem hmin)
    cases hmin' : l'.argmin key with
    | none => simp [List.argmin_eq_none.mp hmin'] at ha
    | some a' =>
      have ha' : a' ∈ l := (hmem a').mpr (List.argmin_mem hmin')
      have hkey : key a = key a' :=
        le_antisymm (List.le_of_mem_argmin ha' hmin) (List.le_of_mem_argmin ha hmin')
      have hhead := head?_filter_of_argmin hmin
      have hhead' := head?_filter_of_argmin hmin'
      rw [h, hkey, hhead'] at hhead
      exact hhead.symm

theorem argmin_map {β : Type*} {f : β → α} {m : List β} :
    (m.map f).argmin key = (m.argmin fun b => key (f b)).map f := by
  induction m with
  | nil => rfl
  | cons b m ih =>
    rw [List.map_cons, List.argmin_cons, List.argmin_cons, ih]
    cases m.argmin fun b => key (f b) with
    | none => rfl
    | some c => by_cases hlt : key (f c) < key (f b) <;> simp [hlt]

theorem argmin_of_pairwise (h : l.Pairwise fun a b => key a ≤ key b) : l.argmin key = l.head? := by
  cases l with
  | nil => rfl
  | cons a l =>
    have hleast : IsFirstLeast key [] a l := ⟨by simp, (List.pairwise_cons.mp h).1⟩
    exact argmin_of_isFirstLeast hleast

/-- Elements that are no less than those before them do not change what is least. -/
theorem argmin_append_of_le (hl : l ≠ []) (h : ∀ a ∈ l, ∀ b ∈ l', key a ≤ key b) :
    (l ++ l').argmin key = l.argmin key := by
  cases hmin : l.argmin key with
  | none => exact absurd (List.argmin_eq_none.mp hmin) hl
  | some a =>
    have ha : a ∈ l := List.argmin_mem hmin
    obtain ⟨pre, post, rfl, hleast⟩ := exists_isFirstLeast_of_argmin hmin
    rw [List.append_assoc, List.cons_append]
    apply argmin_of_isFirstLeast
    refine ⟨hleast.before, ?_⟩
    intro b hb
    rcases List.mem_append.mp hb with hb | hb
    · exact hleast.after b hb
    · exact h a ha b hb

theorem eq_filter_append_filter (h : l.Pairwise fun a b => p a = true → p b = true) :
    l = (l.filter fun a => !p a) ++ l.filter p := by
  induction l with
  | nil => rfl
  | cons a l ih =>
    obtain ⟨ha, hl⟩ := List.pairwise_cons.mp h
    cases hp : p a with
    | false => simpa [hp] using ih hl
    | true =>
      have hall : l.filter p = l := List.filter_eq_self.mpr fun b hb => ha b hb hp
      have hnone : (l.filter fun a => !p a) = [] := by
        rw [List.filter_eq_nil_iff]
        intro b hb
        simp [ha b hb hp]
      simp [hp, hall, hnone]

/-! ## Searching a sorted list -/

theorem find?_of_pairwise (h : l.Pairwise fun a b => key a ≤ key b) : l.find? p = (l.filter p).argmin key := by
  induction l with
  | nil => rfl
  | cons b l ih =>
    obtain ⟨hb, hl⟩ := List.pairwise_cons.mp h
    by_cases hp : p b
    · have hleast : IsFirstLeast key [] b (l.filter p) :=
        ⟨by simp, fun c hc => hb c (List.mem_of_mem_filter hc)⟩
      rw [List.find?_cons_of_pos hp, List.filter_cons_of_pos hp]
      exact (argmin_of_isFirstLeast hleast).symm
    · rw [List.find?_cons_of_neg hp, List.filter_cons_of_neg hp]
      exact ih hl

/-- Sort by a key, keeping the order of elements of one key. -/
def sortByKey (key : α → κ) (l : List α) : List α := l.mergeSort fun a b => key a ≤ key b

theorem pairwise_sortByKey : (sortByKey key l).Pairwise fun a b => key a ≤ key b := by
  have hsorted : (sortByKey key l).Pairwise fun a b => decide (key a ≤ key b) = true :=
    List.pairwise_mergeSort
      (fun a b c hab hbc => by simpa using le_trans (of_decide_eq_true hab) (of_decide_eq_true hbc))
      (fun a b => by simpa using le_total (key a) (key b)) l
  exact hsorted.imp fun h => of_decide_eq_true h

theorem sortByKey_perm : (sortByKey key l).Perm l := List.mergeSort_perm l _

theorem filter_key_sortByKey (k : κ) :
    ((sortByKey key l).filter fun b => key b = k) = l.filter fun b => key b = k := by
  have hle : (l.filter fun b => key b = k).Pairwise fun a b => decide (key a ≤ key b) = true := by
    rw [List.pairwise_filter]
    refine List.pairwise_of_forall ?_
    intro a b ha hb
    simp only [decide_eq_true_eq] at ha hb ⊢
    rw [ha, hb]
  have hsub : (l.filter fun b => key b = k).Sublist (sortByKey key l) :=
    List.sublist_mergeSort
      (fun a b c hab hbc => by simpa using le_trans (of_decide_eq_true hab) (of_decide_eq_true hbc))
      (fun a b => by simpa using le_total (key a) (key b)) hle List.filter_sublist
  have hsub' := hsub.filter fun b => key b = k
  rw [List.filter_filter] at hsub'
  simp only [Bool.and_self] at hsub'
  have hlen : (l.filter fun b => key b = k).length =
      ((sortByKey key l).filter fun b => key b = k).length :=
    (sortByKey_perm.filter _).length_eq.symm
  exact (hsub'.eq_of_length hlen).symm

theorem find?_sortByKey (p : α → Bool) : (sortByKey key l).find? p = (l.filter p).argmin key := by
  rw [find?_of_pairwise pairwise_sortByKey]
  apply argmin_congr
  intro k
  have hcomm : ∀ m : List α,
      ((m.filter p).filter fun b => key b = k) = (m.filter fun b => key b = k).filter p := by
    intro m
    rw [List.filter_filter, List.filter_filter]
    exact List.filter_congr fun b _ => Bool.and_comm _ _
  rw [hcomm, hcomm, filter_key_sortByKey]

/-- Sorting does not change the least of the matches by another key, when the matches of one value of
that key have one sorting key. -/
theorem argmin_filter_sortByKey {κ' : Type*} [LinearOrder κ'] {key' : α → κ'} (p : α → Bool)
    (f : κ' → κ) (h : ∀ a ∈ l, p a = true → key a = f (key' a)) (hf : Function.Injective f) :
    ((sortByKey key l).filter p).argmin key' = (l.filter p).argmin key' := by
  apply argmin_congr
  intro k
  have hkey : ∀ m : List α, (∀ a ∈ m, p a = true → key a = f (key' a)) →
      ((m.filter p).filter fun b => key' b = k) = (m.filter fun b => key b = f k).filter p := by
    intro m hm
    rw [List.filter_filter, List.filter_filter]
    apply List.filter_congr
    intro b hb
    by_cases hp : p b = true
    · simp [hp, hm b hb hp, hf.eq_iff]
    · simp [hp]
  rw [hkey l h, hkey (sortByKey key l) fun a ha => h a (sortByKey_perm.mem_iff.mp ha),
    filter_key_sortByKey]

theorem find?_of_imp {α : Type*} {p q : α → Bool} {l : List α} {a : α} (h : l.find? p = some a)
    (himp : ∀ b ∈ l, q b = true → p b = true) (ha : q a = true) : l.find? q = some a := by
  obtain ⟨-, pre, post, rfl, hpre⟩ := List.find?_eq_some_iff_append.mp h
  rw [List.find?_eq_some_iff_append]
  refine ⟨ha, pre, post, rfl, fun b hb => ?_⟩
  rw [Bool.not_eq_true', Bool.eq_false_iff]
  intro hq
  have hnot := hpre b hb
  rw [himp b (List.mem_append_left _ hb) hq] at hnot
  exact Bool.noConfusion hnot

theorem forall₂_find? {α β : Type*} {R : α → β → Prop} {p : α → Bool} {q : β → Bool}
    (hpq : ∀ a b, R a b → p a = q b) {l : List α} {l' : List β} (h : List.Forall₂ R l l') :
    Option.Rel R (l.find? p) (l'.find? q) := by
  induction h with
  | nil => exact .none
  | @cons a b l l' hab _ ih =>
    rw [List.find?_cons, List.find?_cons, ← hpq a b hab]
    cases p a with
    | true => exact .some hab
    | false => exact ih

end Fsmc.Lib.FirstMatch
