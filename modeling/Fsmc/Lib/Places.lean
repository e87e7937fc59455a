/-
# Fsmc.Lib.Places — the places of the elements that have a property.

Where elements are erased from a list, those behind them move, so that the places of the elements with a
property stay the same only where all of these stand before whatever is erased. Where a list is sorted by a
key, an element goes to the place that the keys of the others give it.
-/
import Fsmc.Lib.FirstMatch
import Mathlib.Data.List.Basic
import Mathlib.Data.List.NodupEquivFin
import Mathlib.Order.WellFounded

namespace Fsmc.Lib.Places

open Fsmc.Lib.FirstMatch

variable {α : Type*} {q : α → Prop} {l l' : List α}

/-- The element at a place has a property. -/
def HasAt (q : α → Prop) (l : List α) (i : ℕ) : Prop := ∃ a, l[i]? = some a ∧ q a

/-- The elements with a property stand at the same places of two lists. -/
def SamePlaces (q : α → Prop) (l l' : List α) : Prop := ∀ i, HasAt q l' i ↔ HasAt q l i

theorem SamePlaces.refl (q : α → Prop) (l : List α) : SamePlaces q l l := fun _ => Iff.rfl

variable {i : ℕ} {erased : α → Prop}

theorem HasAt.lt_length (h : HasAt q l i) : i < l.length := by
  obtain ⟨a, ha, -⟩ := h
  exact (List.getElem?_eq_some_iff.mp ha).1

theorem forall_split_cons {p : List α → α → List α → Prop} {a : α} :
    (∀ before b rest, a :: l = before ++ b :: rest → p before b rest) ↔
      p [] a l ∧ ∀ before b rest, l = before ++ b :: rest → p (a :: before) b rest := by
  constructor
  · intro hall
    refine ⟨hall [] a l rfl, fun before b rest hsplit => ?_⟩
    exact hall (a :: before) b rest (by rw [hsplit, List.cons_append])
  · rintro ⟨hhead, htail⟩ before b rest hsplit
    cases before with
    | nil =>
      obtain ⟨rfl, rfl⟩ := List.cons.inj hsplit
      exact hhead
    | cons c before =>
      obtain ⟨rfl, hsplit'⟩ := List.cons.inj hsplit
      exact htail before b rest hsplit'

theorem hasAt_map {β : Type*} {f : β → α} {m : List β} :
    HasAt q (m.map f) i ↔ HasAt (fun b => q (f b)) m i := by
  unfold HasAt
  rw [List.getElem?_map]
  constructor
  · rintro ⟨a, ha, hq⟩
    obtain ⟨b, hb, rfl⟩ := Option.map_eq_some_iff.mp ha
    exact ⟨b, hb, hq⟩
  · rintro ⟨b, hb, hq⟩
    exact ⟨f b, by rw [hb]; rfl, hq⟩

/-! ## Erasing elements -/

theorem HasAt.of_sublist (h : l'.Sublist l) (hi : HasAt q l' i) : ∃ j, i ≤ j ∧ HasAt q l j := by
  obtain ⟨f, hf⟩ := List.sublist_iff_exists_orderEmbedding_getElem?_eq.mp h
  obtain ⟨a, ha, hq⟩ := hi
  exact ⟨f i, StrictMono.le_apply f.strictMono, a, by rw [← hf i, ha], hq⟩

/-- Behind an element that is erased nothing stays where it is: if it did, something would have to stand
behind it, and so on. -/
theorem SamePlaces.not_hasAt {d : ℕ} (hsub : l'.Sublist (l.eraseIdx d)) (h : SamePlaces q l l')
    (hdi : d ≤ i) : ¬ HasAt q l i := by
  have hascent : ∀ i, d ≤ i → HasAt q l i → ∃ j, i < j ∧ HasAt q l j := by
    intro i hdi hi
    obtain ⟨j, hij, a, ha, hq⟩ := ((h i).mpr hi).of_sublist hsub
    rw [List.getElem?_eraseIdx_of_ge (hdi.trans hij)] at ha
    exact ⟨j + 1, Nat.lt_succ_of_le hij, a, ha, hq⟩
  have hfar : ∀ n i, l.length ≤ i + n → d ≤ i → ¬ HasAt q l i := by
    intro n
    induction n with
    | zero => exact fun i hlen _ hi => absurd hi.lt_length (Nat.not_lt.mpr hlen)
    | succ n ih =>
      intro i hlen hdi hi
      obtain ⟨j, hij, hj⟩ := hascent i hdi hi
      exact ih j (by omega) (hdi.trans hij.le) hj
  exact hfar l.length i (by omega) hdi

theorem forall_not_hasAt : (∀ i, ¬ HasAt q l i) ↔ ∀ a ∈ l, ¬ q a := by
  constructor
  · intro h a ha hq
    obtain ⟨i, hi⟩ := List.mem_iff_getElem?.mp ha
    exact h i ⟨a, hi, hq⟩
  · rintro h i ⟨a, ha, hq⟩
    exact h a (List.mem_of_getElem? ha) hq

/-- Nothing that is erased stands before an element with the property, or is one. -/
def OnlyBehind (erased q : α → Prop) (l : List α) : Prop :=
  ∀ d i, d ≤ i → HasAt erased l d → ¬ HasAt q l i

theorem onlyBehind_cons {a : α} : OnlyBehind erased q (a :: l) ↔
      (erased a → ∀ b ∈ a :: l, ¬ q b) ∧ OnlyBehind erased q l := by
  constructor
  · intro h
    refine ⟨fun ha => forall_not_hasAt.mp fun i => h 0 i (Nat.zero_le i) ⟨a, rfl, ha⟩, ?_⟩
    exact fun d i hdi hd hi => h (d + 1) (i + 1) (Nat.succ_le_succ hdi) hd hi
  · rintro ⟨ha, hl⟩ d i hdi ⟨b, hb, herased⟩ hi
    cases d with
    | zero =>
      obtain rfl : a = b := Option.some.inj hb
      exact forall_not_hasAt.mpr (ha herased) i hi
    | succ d =>
      cases i with
      | zero => omega
      | succ i => exact hl d i (Nat.le_of_succ_le_succ hdi) ⟨b, hb, herased⟩ hi

/-- Where a list is gone through from its front, what is kept stays where it is exactly if the elements
with the property stand before all others that are erased. -/
theorem samePlaces_erase_iff {erase : List α → List α} (hnil : erase [] = [])
    (hkeep : ∀ a l, ¬ erased a → erase (a :: l) = a :: erase l)
    (herase : ∀ a l, erased a → (erase (a :: l)).Sublist l) :
    SamePlaces q l (erase l) ↔ OnlyBehind erased q l := by
  induction l with
  | nil =>
    rw [hnil]
    exact ⟨fun _ _ i _ _ hi => absurd hi.lt_length (Nat.not_lt_zero i), fun _ => SamePlaces.refl q []⟩
  | cons a l ih =>
    rw [onlyBehind_cons]
    by_cases ha : erased a
    · constructor
      · intro h
        have hnone : ∀ i, ¬ HasAt q (a :: l) i := fun i =>
          h.not_hasAt (d := 0) (herase a l ha) (Nat.zero_le i)
        exact ⟨fun _ => forall_not_hasAt.mp hnone, fun d i _ _ hi => hnone (i + 1) hi⟩
      · rintro ⟨hq, -⟩ i
        have hq := hq ha
        have hleft : ∀ b ∈ erase (a :: l), ¬ q b := fun b hb =>
          hq b (List.mem_cons_of_mem _ ((herase a l ha).subset hb))
        exact iff_of_false (forall_not_hasAt.mpr hleft i) (forall_not_hasAt.mpr hq i)
    · have htail : SamePlaces q (a :: l) (a :: erase l) ↔ SamePlaces q l (erase l) := by
        constructor
        · exact fun h i => h (i + 1)
        · intro h i
          cases i with
          | zero => exact Iff.rfl
          | succ i => exact h i
      rw [hkeep a l ha, htail, ih]
      exact ⟨fun h => ⟨fun ha' => absurd ha' ha, h⟩, fun h => h.2⟩

theorem samePlaces_filter_iff (keep : α → Bool) :
    SamePlaces q l (l.filter keep) ↔ OnlyBehind (fun a => keep a = false) q l := by
  apply samePlaces_erase_iff
  · rfl
  · intro a l ha
    exact List.filter_cons_of_pos (by simpa using ha)
  · intro a l ha
    rw [List.filter_cons_of_neg (by simp [ha])]
    exact List.filter_sublist

theorem samePlaces_foldl_eraseP_iff {β : Type*} (isOf : β → α → Bool) (tests : List β) :
    SamePlaces q l (tests.foldl (fun l f => l.eraseP (isOf f)) l) ↔
      OnlyBehind (fun a => ∃ f ∈ tests, isOf f a = true) q l := by
  have hsub : ∀ (tests : List β) (l : List α),
      (tests.foldl (fun l f => l.eraseP (isOf f)) l).Sublist l := by
    intro tests
    induction tests with
    | nil => exact List.Sublist.refl
    | cons f tests ih => exact fun l => (ih _).trans List.eraseP_sublist
  apply samePlaces_erase_iff
  · induction tests with
    | nil => rfl
    | cons f tests ih => exact ih
  · induction tests with
    | nil => exact fun a l _ => rfl
    | cons f tests ih =>
      intro a l ha
      have hf : ¬ isOf f a = true := fun h => ha ⟨f, List.mem_cons_self, h⟩
      rw [List.foldl_cons, List.eraseP_cons_of_neg hf]
      exact ih a _ fun ⟨g, hg, h⟩ => ha ⟨g, List.mem_cons_of_mem _ hg, h⟩
  · induction tests with
    | nil => exact fun a l ⟨f, hf, _⟩ => absurd hf List.not_mem_nil
    | cons f tests ih =>
      rintro a l ⟨g, hg, h⟩
      rw [List.foldl_cons]
      by_cases hf : isOf f a = true
      · rw [List.eraseP_cons_of_pos hf]
        exact hsub tests l
      · have hg : g ∈ tests := (List.mem_cons.mp hg).resolve_left fun heq => hf (heq ▸ h)
        rw [List.eraseP_cons_of_neg hf]
        exact (ih a _ ⟨g, hg, h⟩).trans List.eraseP_sublist

/-! ## Sorting -/

section Sorting

variable {κ : Type*} [LinearOrder κ] {key : α → κ}

/-- The place to which a stable sort moves an element: behind all smaller keys and behind the elements of
its own key that stood before it. -/
def sortedPlace (key : α → κ) (l before : List α) (a : α) : ℕ :=
  l.countP (fun b => key b < key a) + before.countP fun b => key b = key a

theorem sortByKey_eq (k : κ) (l : List α) : sortByKey key l =
    ((sortByKey key l).filter fun b => key b < k) ++ ((l.filter fun b => key b = k) ++
      (sortByKey key l).filter fun b => k < key b) := by
  have hsorted : (sortByKey key l).Pairwise fun a b => key a ≤ key b := pairwise_sortByKey
  have hsmaller := eq_filter_append_filter (p := fun b => decide (k ≤ key b)) (l := sortByKey key l)
    (hsorted.imp fun hab ha => decide_eq_true ((of_decide_eq_true ha).trans hab))
  have hlarger := eq_filter_append_filter (p := fun b => decide (k < key b))
    (l := (sortByKey key l).filter fun b => decide (k ≤ key b))
    ((hsorted.filter _).imp fun hab ha => decide_eq_true ((of_decide_eq_true ha).trans_le hab))
  rw [List.filter_filter, List.filter_filter] at hlarger
  have hlt : ((sortByKey key l).filter fun b => !decide (k ≤ key b)) =
      (sortByKey key l).filter fun b => key b < k :=
    List.filter_congr fun b _ => by rw [← decide_not, decide_eq_decide, not_le]
  have heq : ((sortByKey key l).filter fun b => !decide (k < key b) && decide (k ≤ key b)) =
      l.filter fun b => key b = k := by
    rw [← filter_key_sortByKey]
    refine List.filter_congr fun b _ => ?_
    rw [← decide_not, ← Bool.decide_and, decide_eq_decide, not_lt]
    exact le_antisymm_iff.symm
  have hgt : ((sortByKey key l).filter fun b => decide (k < key b) && decide (k ≤ key b)) =
      (sortByKey key l).filter fun b => k < key b := by
    refine List.filter_congr fun b _ => ?_
    rw [← Bool.decide_and, decide_eq_decide]
    exact ⟨fun h => h.1, fun h => ⟨h, h.le⟩⟩
  rw [hlt] at hsmaller
  rw [heq, hgt] at hlarger
  exact hsmaller.trans (by rw [hlarger])

theorem length_filter_lt (k : κ) (l : List α) :
    ((sortByKey key l).filter fun b => key b < k).length = l.countP fun b => key b < k := by
  rw [← List.countP_eq_length_filter]
  exact sortByKey_perm.countP_eq _

theorem getElem?_sortByKey (before after : List α) (a : α) :
    (sortByKey key (before ++ a :: after))[sortedPlace key (before ++ a :: after) before a]? = some a := by
  rw [sortByKey_eq (key a), List.filter_append, List.filter_cons_of_pos (by simp)]
  unfold sortedPlace
  rw [← length_filter_lt, List.getElem?_append_right (Nat.le_add_right _ _), Nat.add_sub_cancel_left,
    List.countP_eq_length_filter, List.append_assoc, List.getElem?_append_right le_rfl, Nat.sub_self]
  rfl

theorem exists_split_of_filter {p : α → Bool} {a : α} : ∀ {l : List α} {r : ℕ},
    (l.filter p)[r]? = some a → ∃ before after, l = before ++ a :: after ∧ before.countP p = r
  | [], r, h => by simp at h
  | b :: l, r, h => by
    by_cases hb : p b = true
    · rw [List.filter_cons_of_pos hb] at h
      cases r with
      | zero =>
        obtain rfl : b = a := Option.some.inj h
        exact ⟨[], l, rfl, rfl⟩
      | succ r =>
        obtain ⟨before, after, rfl, hcount⟩ := exists_split_of_filter (l := l) h
        exact ⟨b :: before, after, rfl, by rw [List.countP_cons_of_pos hb, hcount]⟩
    · rw [List.filter_cons_of_neg hb] at h
      obtain ⟨before, after, rfl, hcount⟩ := exists_split_of_filter h
      exact ⟨b :: before, after, rfl, by rw [List.countP_cons_of_neg hb, hcount]⟩

theorem exists_split_of_sortByKey {m : ℕ} {a : α} (h : (sortByKey key l)[m]? = some a) :
    ∃ before after, l = before ++ a :: after ∧ sortedPlace key l before a = m := by
  rw [sortByKey_eq (key a)] at h
  have hlength := @length_filter_lt α κ _ key (key a) l
  by_cases hm : m < ((sortByKey key l).filter fun b => key b < key a).length
  · rw [List.getElem?_append_left hm] at h
    have hlt := (List.mem_filter.mp (List.mem_of_getElem? h)).2
    exact absurd (of_decide_eq_true hlt) (lt_irrefl _)
  · rw [List.getElem?_append_right (Nat.not_lt.mp hm)] at h
    by_cases hr : m - ((sortByKey key l).filter fun b => key b < key a).length <
        (l.filter fun b => key b = key a).length
    · rw [List.getElem?_append_left hr] at h
      obtain ⟨before, after, hl, hcount⟩ := exists_split_of_filter h
      refine ⟨before, after, hl, ?_⟩
      unfold sortedPlace
      omega
    · rw [List.getElem?_append_right (Nat.not_lt.mp hr)] at h
      have hlt := (List.mem_filter.mp (List.mem_of_getElem? h)).2
      exact absurd (of_decide_eq_true hlt) (lt_irrefl _)

/-- The places stay the same exactly if every element is moved to where one of its kind stood. -/
theorem samePlaces_sortByKey_iff : SamePlaces q l (sortByKey key l) ↔ ∀ before a after, l = before ++ a :: after →
      (q a ↔ HasAt q l (sortedPlace key l before a)) := by
  constructor
  · rintro h before a after rfl
    rw [← h]
    have hat := @getElem?_sortByKey α κ _ key before after a
    constructor
    · exact fun hq => ⟨a, hat, hq⟩
    · rintro ⟨b, hb, hq⟩
      rw [hat] at hb
      exact Option.some.inj hb ▸ hq
  · intro h m
    constructor
    · rintro ⟨a, ha, hq⟩
      obtain ⟨before, after, hl, rfl⟩ := exists_split_of_sortByKey ha
      exact (h before a after hl).mp hq
    · intro hm
      have hlt : m < (sortByKey key l).length := by
        rw [sortByKey_perm.length_eq]
        exact hm.lt_length
      obtain ⟨before, after, hl, hplace⟩ :=
        exists_split_of_sortByKey (List.getElem?_eq_getElem hlt)
      refine ⟨_, List.getElem?_eq_getElem hlt, (h before _ after hl).mpr ?_⟩
      rw [hplace]
      exact hm

end Sorting

end Fsmc.Lib.Places
