/-
# Fsmc.Emitter.ExactNames — which texts are qualified as they should be.

A free occurrence of a name is a word outside of literals that is no member of something else. A word can only
grow, and only in front, so what the sweep for one name does wrong no later name puts right: a text is qualified
as it should be exactly if every sweep finds the free occurrences of its name and no others.
-/
import Fsmc.Emitter.NameSweep
import Fsmc.Lib.Places

namespace Fsmc.Emitter

open Fsmc.Ir Fsmc.Cpp

/-! ## What should be qualified -/

/-- Where a place is: outside of literals, inside of one, or behind a backslash in one. -/
inductive Literal where
  | outside
  | inside (quote : Char)
  | escaped (quote : Char)
  deriving DecidableEq

/-- Behind a character that is in no word; behind the digits of a number an apostrophe separates digits. -/
def Literal.next (before : List Char) (c : Char) : Literal → Literal
  | .outside => if c = '"' ∨ (c = '\'' ∧ ¬ before.head?.any Char.isDigit) then .inside c else .outside
  | .inside quote => if c = quote then .outside else if c = '\\' then .escaped quote else .inside quote
  | .escaped quote => .inside quote

def Literal.word (w : List Char) : Literal → Literal
  | .escaped quote => if w = [] then .escaped quote else .inside quote
  | s => s

/-- What comes next is a member of what was read, the last character first, or qualified by it. -/
def selects (read : List Char) : Bool :=
  match read.dropWhile isSpace with
  | '.' :: _ => true
  | '>' :: '-' :: read => read.head? ≠ some '-'
  | ':' :: ':' :: _ => true
  | _ => false

/-- A word of an expression, with the character before it; it is free when it is in no literal and no member of
something else. -/
structure Item where
  sep : Char
  word : List Char
  free : Bool
  deriving DecidableEq

/-- The items of some words; `before` is the word before them and `read` all that was read, backwards. -/
def scan : Literal → List Char → List Char → List (Char × List Char) → List Item
  | _, _, _, [] => []
  | s, before, read, (c, w) :: pairs =>
    ⟨c, w, s.next before c = .outside && !selects (c :: read)⟩ ::
      scan ((s.next before c).word w) w (w.reverse ++ c :: read) pairs

/-- The words of a text, with a blank before the first. -/
def pairsOf (text : String) : List (Char × List Char) := (' ', (chunks text.toList).1) :: (chunks text.toList).2

def itemsOf (text : String) : List Item := scan .outside [] [] (pairsOf text)

/-- The names that are replaced, in their order, with what is put in front of them. -/
def stagesOf (model : FsmIr) : List (List Char × List Char) :=
  (variableNames model).map (fun n => ("reg.".toList, n.toList)) ++
    (inPortNames model).map fun n => ("in.".toList, n.toList)

/-- What a word should become: a free occurrence of a name, or of a member of it, gets the scope of the name. -/
def specifiedWord (stages : List (List Char × List Char)) (it : Item) : List Char :=
  if it.free then ((stages.find? fun st => leads st.2 it.word).elim [] (·.1)) ++ it.word else it.word

/-- Items with other words. -/
def shown (f : Item → List Char) (items : List Item) : List (Char × List Char) := items.map fun it => (it.sep, f it)

variable (f : Item → List Char) {w : List Char} {it : Item} {scope : List Char}
  {ps qs : List (Char × List Char)} (text : String)

theorem shown_cons (it : Item) (items : List Item) :
    shown f (it :: items) = (it.sep, f it) :: shown f items := rfl

/-- The expression that a text should become. -/
def specified (model : FsmIr) (text : String) : String :=
  String.ofList (unspell (shown (specifiedWord (stagesOf model)) (itemsOf text)))

/-- Items with the ones before them. -/
def withPrev : Option Item → List Item → List (Option Item × Item)
  | _, [] => []
  | p, it :: items => (p, it) :: withPrev (some it) items

/-- The word before is free and the name alone. -/
def alone (name : List Char) (p : Option Item) : Bool := p.any fun it => it.free && it.word = name

/-! ## One name -/

/-- Stages with different names, all of them identifiers, and the scopes of registers and in-ports. -/
structure Sound (stages : List (List Char × List Char)) : Prop where
  names : ∀ st ∈ stages, IsName st.2
  scopes : ∀ st ∈ stages, st.1 = "reg.".toList ∨ st.1 = "in.".toList
  nodup : (stages.map (·.2)).Nodup

section Scopes

variable {stages : List (List Char × List Char)} {st : List Char × List Char}

theorem Sound.joins_scope (h : Sound stages) (hst : st ∈ stages) : ∀ c ∈ st.1, joins c = true := by
  rcases h.scopes st hst with hscope | hscope <;> rw [hscope] <;> decide +kernel

theorem Sound.dot_mem_scope (h : Sound stages) (hst : st ∈ stages) : '.' ∈ st.1 := by
  rcases h.scopes st hst with hscope | hscope <;> rw [hscope] <;> decide +kernel

theorem Sound.length_scope (h : Sound stages) (hst : st ∈ stages) : 3 ≤ st.1.length ∧ st.1.length ≤ 4 := by
  rcases h.scopes st hst with hscope | hscope <;> rw [hscope] <;> decide +kernel

theorem Sound.append_ne (h : Sound stages) (hst : st ∈ stages) {w u : List Char} (hle : w.length ≤ u.length) :
    st.1 ++ u ≠ w := by
  intro heq
  have hlength : (st.1 ++ u).length = w.length := by rw [heq]
  have hscope := (h.length_scope hst).1
  rw [List.length_append] at hlength
  omega

end Scopes

theorem leads_unique {a b w : List Char} (ha : IsName a) (hb : IsName b) (haw : leads a w = true)
    (hbw : leads b w = true) : a = b := by
  rcases leads_iff.mp haw with rfl | ⟨u, rfl⟩
  · rcases leads_iff.mp hbw with rfl | ⟨v, hv⟩
    · rfl
    · exact absurd rfl (ha.ne_dot '.' (by rw [← hv]; simp))
  · rcases leads_iff.mp hbw with hw | hprefix
    · exact absurd rfl (hb.ne_dot '.' (by rw [← hw]; simp))
    · have hsplit : b ++ ['.'] <+: a ++ '.' :: u := by simpa using hprefix
      exact (before_dot_eq hb.ne_dot ha.ne_dot hsplit).symm

theorem Sound.left {l r : List (List Char × List Char)} (h : Sound (l ++ r)) : Sound l where
  names st hst := h.names st (List.mem_append_left _ hst)
  scopes st hst := h.scopes st (List.mem_append_left _ hst)
  nodup := by
    have hnodup := h.nodup
    rw [List.map_append] at hnodup
    exact hnodup.of_append_left

variable {done : List (List Char × List Char)} {model : FsmIr}

theorem Sound.find?_eq_none {st : List Char × List Char}
    {rest : List (List Char × List Char)} (h : Sound (done ++ st :: rest))
    (hw : leads st.2 w = true) : done.find? (fun s => leads s.2 w) = none := by
  apply List.find?_eq_none.mpr
  intro s hs hsw
  have hsame : s.2 = st.2 := leads_unique (h.names s (List.mem_append_left _ hs))
    (h.names st (List.mem_append_right _ List.mem_cons_self)) hsw hw
  have hnodup := h.nodup
  rw [List.map_append, List.map_cons] at hnodup
  exact (List.nodup_append.mp hnodup).2.2 s.2 (List.mem_map_of_mem hs) st.2 List.mem_cons_self hsame

theorem Sound.not_leads {done rest : List (List Char × List Char)} {st : List Char × List Char}
    (h : Sound (done ++ st :: rest)) (hw : leads st.2 w = true) :
    ∀ s ∈ rest, leads s.2 w = false := by
  intro s hs
  by_contra hne
  have hsw : leads s.2 w = true := by simpa using hne
  have hsame : s.2 = st.2 := leads_unique (h.names s (by simp [hs])) (h.names st (by simp)) hsw hw
  have hnodup := h.nodup
  rw [List.map_append, List.map_cons] at hnodup
  have hcons := (List.nodup_append.mp hnodup).2.1
  exact (List.nodup_cons.mp hcons).1 (hsame ▸ List.mem_map_of_mem hs)

@[simp] theorem specifiedWord_nil (it : Item) : specifiedWord [] it = it.word := by simp [specifiedWord]

theorem specifiedWord_of_none {stages : List (List Char × List Char)}
    (h : (stages.find? fun s => leads s.2 it.word) = none) : specifiedWord stages it = it.word := by
  simp [specifiedWord, h]

theorem specifiedWord_of_some {stages : List (List Char × List Char)} {s : List Char × List Char}
    (hfree : it.free = true) (h : (stages.find? fun s => leads s.2 it.word) = some s) :
    specifiedWord stages it = s.1 ++ it.word := by
  simp [specifiedWord, h, hfree]

theorem specifiedWord_of_not_free (stages : List (List Char × List Char)) (h : ¬ it.free = true) :
    specifiedWord stages it = it.word := by
  simp [specifiedWord, h]

theorem specifiedWord_append {st : List Char × List Char} (h : Sound (done ++ [st])) (it : Item) :
    specifiedWord (done ++ [st]) it =
      if it.free = true ∧ leads st.2 it.word = true then st.1 ++ specifiedWord done it else specifiedWord done it := by
  unfold specifiedWord
  by_cases hfree : it.free = true
  · by_cases hleads : leads st.2 it.word = true
    · have hnone := h.find?_eq_none hleads
      simp [hfree, hleads, List.find?_append, hnone]
    · cases hfind : done.find? (fun s => leads s.2 it.word) <;> simp [hfree, hleads, List.find?_append, hfind]
  · simp [hfree]

/-- A stage finds, in the words that the stages before it should leave, the free occurrences of its name. -/
def StageOk (done : List (List Char × List Char)) (st : List Char × List Char) (p : Option Item)
    (items : List Item) : Prop :=
  ∀ x ∈ withPrev p items, (leads st.2 (specifiedWord done x.2) = true ∧ alone st.2 x.1 = false ↔
    x.2.free = true ∧ leads st.2 x.2.word = true)

theorem sweep_eq_iff {st : List Char × List Char} (h : Sound (done ++ [st])) (items : List Item) (p : Option Item) :
    sweep st.1 st.2 (alone st.2 p) (shown (specifiedWord done) items) =
      shown (specifiedWord (done ++ [st])) items ↔ StageOk done st p items := by
  have hst : st ∈ done ++ [st] := List.mem_append_right _ List.mem_cons_self
  have hname := h.names st hst
  induction items generalizing p with
  | nil => simp [shown, sweep, StageOk, withPrev]
  | cons it items ih =>
    have hgrows : st.1 ++ specifiedWord done it ≠ specifiedWord done it := h.append_ne hst le_rfl
    have hstep : StageOk done st p (it :: items) ↔
        ((leads st.2 (specifiedWord done it) = true ∧ alone st.2 p = false ↔
          it.free = true ∧ leads st.2 it.word = true) ∧ StageOk done st (some it) items) := by
      simp [StageOk, withPrev]
    have hrest : StageOk done st (some it) items ↔ _ := (ih (some it)).symm
    rw [hstep, hrest, shown_cons, shown_cons, sweep, specifiedWord_append h]
    by_cases hfound : leads st.2 (specifiedWord done it) = true ∧ alone st.2 p = false
    · by_cases hshould : it.free = true ∧ leads st.2 it.word = true
      · -- found where it should be: the next word is blocked if this one is the name alone
        have hplain : specifiedWord done it = it.word := specifiedWord_of_none (h.find?_eq_none hshould.2)
        have hnext : decide (specifiedWord done it = st.2) = alone st.2 (some it) := by
          simp [alone, hplain, hshould.1]
        simp [hfound, hshould, hnext, shown]
      · simp [hfound, hshould, hgrows]
    · by_cases hshould : it.free = true ∧ leads st.2 it.word = true
      · have hmissed : (!alone st.2 p && leads st.2 (specifiedWord done it)) = false := by
          rw [Bool.eq_false_iff]
          simpa [and_comm] using hfound
        simp [hmissed, hshould, hfound, hgrows.symm]
      · have hmissed : (!alone st.2 p && leads st.2 (specifiedWord done it)) = false := by
          rw [Bool.eq_false_iff]
          simpa [and_comm] using hfound
        have hnext : alone st.2 (some it) = false := by
          rw [Bool.eq_false_iff]
          intro halone
          have hboth : it.free = true ∧ it.word = st.2 := by simpa [alone] using halone
          exact hshould ⟨hboth.1, hboth.2 ▸ leads_self _⟩
        simp [hmissed, hshould, hfound, hnext, shown]

/-! ## All names -/

/-- The sweeps for all names, one after the other. -/
def sweepAll (stages : List (List Char × List Char)) (pairs : List (Char × List Char)) : List (Char × List Char) :=
  stages.foldl (fun ps st => sweep st.1 st.2 false ps) pairs

/-- A word only grows, in front, by a scope; and only when one of the names leads it. -/
def Grown (stages : List (List Char × List Char)) (w r : List Char) : Prop :=
  r = w ∨ (∃ st ∈ stages, leads st.2 w = true) ∧ ∃ st ∈ stages, ∃ u, r = st.1 ++ u ∧ w.length ≤ u.length

theorem sweep_grows (scope name : List Char) (pairs : List (Char × List Char)) : ∀ blocked : Bool,
    List.Forall₂ (fun p q => q.1 = p.1 ∧ (q.2 = p.2 ∨ leads name p.2 = true ∧ q.2 = scope ++ p.2)) pairs
      (sweep scope name blocked pairs) := by
  induction pairs with
  | nil => exact fun _ => .nil
  | cons p pairs ih =>
    intro blocked
    obtain ⟨c, w⟩ := p
    rw [sweep]
    split
    · rename_i hfound
      rw [Bool.and_eq_true] at hfound
      exact .cons ⟨rfl, .inr ⟨hfound.2, rfl⟩⟩ (ih _)
    · exact .cons ⟨rfl, .inl rfl⟩ (ih _)

theorem forall₂_comp {α β γ : Type*} {R : α → β → Prop} {S : β → γ → Prop} {T : α → γ → Prop}
    (h : ∀ a b c, R a b → S b c → T a c) {l : List α} {l' : List β} {l'' : List γ} (hR : List.Forall₂ R l l')
    (hS : List.Forall₂ S l' l'') : List.Forall₂ T l l'' := by
  induction hR generalizing l'' with
  | nil =>
    cases hS
    exact .nil
  | cons hab _ ih =>
    cases hS with
    | cons hbc hrest => exact .cons (h _ _ _ hab hbc) (ih hrest)

theorem sweepAll_grows (stages : List (List Char × List Char)) : ∀ pairs : List (Char × List Char),
    List.Forall₂ (fun p q => q.1 = p.1 ∧ Grown stages p.2 q.2) pairs (sweepAll stages pairs) := by
  induction stages with
  | nil => exact fun pairs => List.forall₂_same.mpr fun _ _ => ⟨rfl, .inl rfl⟩
  | cons st stages ih =>
    intro pairs
    refine forall₂_comp ?_ (sweep_grows st.1 st.2 pairs false) (ih _)
    rintro p q r ⟨hpq, hq⟩ ⟨hqr, hr⟩
    refine ⟨hqr.trans hpq, ?_⟩
    rcases hq with hsame | ⟨hleads, hgrown⟩
    · rw [hsame] at hr
      rcases hr with hr | ⟨⟨s, hs, hsp⟩, t, ht, u, hu, hle⟩
      · exact .inl hr
      · exact .inr ⟨⟨s, List.mem_cons_of_mem _ hs, hsp⟩, t, List.mem_cons_of_mem _ ht, u, hu, hle⟩
    · refine .inr ⟨⟨st, List.mem_cons_self, hleads⟩, ?_⟩
      rcases hr with hr | ⟨-, t, ht, u, hu, hle⟩
      · exact ⟨st, List.mem_cons_self, p.2, hr.trans hgrown, le_rfl⟩
      · rw [hgrown, List.length_append] at hle
        exact ⟨t, List.mem_cons_of_mem _ ht, u, hu, by omega⟩

theorem eventWord_scope (h : scope = "reg.".toList ∨ scope = "in.".toList) (u : List Char) :
    eventWord (scope ++ u) = scope ++ u := by
  unfold eventWord
  cases hat : eventAt (scope ++ u) with
  | none => rfl
  | some member =>
    exfalso
    obtain ⟨name, hname, hsplit⟩ := eventAt_suffix hat
    have hnames : ∀ name ∈ eventNames, (∀ c ∈ name, c ≠ '.') ∧ name ≠ "reg".toList ∧ name ≠ "in".toList := by
      decide +kernel
    obtain ⟨hdot, hreg, hin⟩ := hnames name hname
    have hprefix : name ++ ['.'] <+: scope ++ u := ⟨member, by rw [hsplit]; simp⟩
    rcases h with rfl | rfl
    · exact hreg (before_dot_eq hdot (by decide +kernel) hprefix)
    · exact hin (before_dot_eq hdot (by decide +kernel) hprefix)

theorem length_eventWord_le (w : List Char) : (eventWord w).length ≤ w.length + 2 := by
  unfold eventWord
  cases hat : eventAt w with
  | none => exact Nat.le_add_right _ _
  | some member =>
    obtain ⟨name, hname, rfl⟩ := eventAt_suffix hat
    have hpos : ∀ name ∈ eventNames, 0 < name.length := by decide +kernel
    have hcmd : ("cmd.".toList).length = 4 := by decide +kernel
    have := hpos name hname
    simp only [List.length_append, List.length_cons, hcmd]
    omega

theorem eventWords_shown (items : List Item) :
    eventWords (shown f items) = shown (fun it => eventWord (f it)) items := by
  simp [eventWords, shown]

theorem shown_inj {f g : Item → List Char} {items : List Item} :
    shown f items = shown g items ↔ ∀ it ∈ items, f it = g it := by
  simp [shown]

/-- Where a name finds too much or too little, no later name and not the event puts it right. -/
theorem sweep_eq_of_final {done rest : List (List Char × List Char)} {st : List Char × List Char}
    (h : Sound (done ++ st :: rest)) (items : List Item) : ∀ (blocked : Bool) (finals : List (Char × List Char)),
      List.Forall₂ (fun p q => q.1 = p.1 ∧ Grown rest p.2 q.2)
        (sweep st.1 st.2 blocked (shown (specifiedWord done) items)) finals →
      eventWords finals = shown (specifiedWord (done ++ st :: rest)) items →
        sweep st.1 st.2 blocked (shown (specifiedWord done) items) = shown (specifiedWord (done ++ [st])) items := by
  have hone : Sound (done ++ [st]) := by
    have hassoc : done ++ st :: rest = (done ++ [st]) ++ rest := by simp
    exact (hassoc ▸ h).left
  have hst : st ∈ done ++ st :: rest := List.mem_append_right _ List.mem_cons_self
  induction items with
  | nil => exact fun _ _ _ _ => rfl
  | cons it items ih =>
    intro blocked finals hgrown hfinal
    rw [shown_cons, sweep] at hgrown ⊢
    rw [shown_cons, specifiedWord_append hone]
    by_cases hfound : (!blocked && leads st.2 (specifiedWord done it)) = true
    · rw [if_pos hfound] at hgrown ⊢
      obtain ⟨r, finals, ⟨-, hr⟩, hrest, rfl⟩ := List.forall₂_cons_left_iff.mp hgrown
      obtain ⟨hhead, htail⟩ := List.cons.inj hfinal
      rw [ih _ finals hrest htail]
      have hword : eventWord r.2 = specifiedWord (done ++ st :: rest) it := congrArg Prod.snd hhead
      by_cases hshould : it.free = true ∧ leads st.2 it.word = true
      · rw [if_pos hshould]
      · -- the word is complete without the scope, and has it
        exfalso
        rw [Bool.and_eq_true] at hfound
        have hcomplete : specifiedWord (done ++ st :: rest) it = specifiedWord done it := by
          by_cases hfree : it.free = true
          · cases hfind : done.find? fun s => leads s.2 it.word with
            | some s => simp [specifiedWord, List.find?_append, hfind]
            | none => exact absurd ⟨hfree, specifiedWord_of_none hfind ▸ hfound.2⟩ hshould
          · rw [specifiedWord_of_not_free _ hfree, specifiedWord_of_not_free _ hfree]
        have hlonger : ∃ s ∈ done ++ st :: rest, ∃ u, r.2 = s.1 ++ u ∧ (specifiedWord done it).length ≤ u.length := by
          rcases hr with hr | ⟨-, s, hs, u, hu, hle⟩
          · exact ⟨st, hst, _, hr, le_rfl⟩
          · rw [List.length_append] at hle
            exact ⟨s, by simp [hs], u, hu, by omega⟩
        obtain ⟨s, hs, u, hu, hle⟩ := hlonger
        rw [hu, eventWord_scope (h.scopes s hs), hcomplete] at hword
        exact h.append_ne hs hle hword
    · rw [if_neg hfound] at hgrown ⊢
      obtain ⟨r, finals, ⟨-, hr⟩, hrest, rfl⟩ := List.forall₂_cons_left_iff.mp hgrown
      obtain ⟨hhead, htail⟩ := List.cons.inj hfinal
      rw [ih _ finals hrest htail]
      have hword : eventWord r.2 = specifiedWord (done ++ st :: rest) it := congrArg Prod.snd hhead
      by_cases hshould : it.free = true ∧ leads st.2 it.word = true
      · -- the word needs the scope, and nothing puts it there
        exfalso
        have hnone := hone.find?_eq_none hshould.2
        have hplain : specifiedWord done it = it.word := specifiedWord_of_none hnone
        have hneeds : specifiedWord (done ++ st :: rest) it = st.1 ++ it.word := by
          simp [specifiedWord, List.find?_append, hnone, hshould.1, hshould.2]
        have hsame : r.2 = it.word := by
          rw [hplain] at hr
          rcases hr with hr | ⟨⟨s, hs, hsw⟩, -⟩
          · exact hr
          · rw [h.not_leads hshould.2 s hs] at hsw
            cases hsw
        rw [hsame, hneeds] at hword
        have hle := length_eventWord_le it.word
        have hscope : 3 ≤ st.1.length := (h.length_scope hst).1
        rw [hword, List.length_append] at hle
        omega
      · rw [if_neg hshould]

/-- The replacements leave the words that they should exactly if every name is found where it should be, and no
word that is left is a member of the event. -/
theorem sweepAll_eq_iff (rest : List (List Char × List Char)) : ∀ {done : List (List Char × List Char)},
    Sound (done ++ rest) → ∀ items : List Item,
      (eventWords (sweepAll rest (shown (specifiedWord done) items)) =
          shown (specifiedWord (done ++ rest)) items ↔
        (∀ l st r, rest = l ++ st :: r → StageOk (done ++ l) st none items) ∧
          ∀ it ∈ items, eventWord (specifiedWord (done ++ rest) it) = specifiedWord (done ++ rest) it) := by
  induction rest with
  | nil =>
    intro done _ items
    rw [List.append_nil, sweepAll, List.foldl_nil, eventWords_shown, shown_inj]
    simp
  | cons st rest ih =>
    intro done h items
    have hassoc : done ++ st :: rest = (done ++ [st]) ++ rest := by simp
    have hone : Sound (done ++ [st]) := (hassoc ▸ h).left
    have hfirst := sweep_eq_iff hone items none
    have hlater := ih (hassoc ▸ h) items
    have hsplits : (∀ l s r, st :: rest = l ++ s :: r → StageOk (done ++ l) s none items) ↔
        StageOk done st none items ∧ ∀ l s r, rest = l ++ s :: r → StageOk (done ++ [st] ++ l) s none items := by
      rw [Lib.Places.forall_split_cons]
      simp
    have hsweep : sweepAll (st :: rest) (shown (specifiedWord done) items) =
        sweepAll rest (sweep st.1 st.2 false (shown (specifiedWord done) items)) := rfl
    rw [hsplits, hsweep, hassoc, and_assoc]
    constructor
    · intro hfinal
      -- a word that goes wrong at this name is wrong at the end
      have hnow := sweep_eq_of_final h items false _ (sweepAll_grows rest _) (hfinal.trans (by rw [hassoc]))
      rw [hnow] at hfinal
      exact ⟨hfirst.mp hnow, hlater.mp hfinal⟩
    · rintro ⟨hnow, hthen⟩
      have hequal : sweep st.1 st.2 false (shown (specifiedWord done) items) = _ := hfirst.mpr hnow
      rw [hequal]
      exact hlater.mpr hthen

/-! ## Texts -/

/-- Words of a text, the first behind a blank. -/
structure Worded (pairs : List (Char × List Char)) : Prop where
  first : ∃ w rest, pairs = (' ', w) :: rest
  seps : ∀ p ∈ pairs, joins p.1 = false
  words : ∀ p ∈ pairs, ∀ c ∈ p.2, joins c = true

theorem Worded.chunked {c : Char} {pairs : List (Char × List Char)} (h : Worded ((c, w) :: pairs)) :
    Chunked w pairs :=
  ⟨h.words (c, w) List.mem_cons_self, fun p hp => h.words p (List.mem_cons_of_mem _ hp),
    fun p hp => h.seps p (List.mem_cons_of_mem _ hp)⟩

theorem Worded.unspell_inj (hp : Worded ps) (hq : Worded qs)
    (h : unspell ps = unspell qs) : ps = qs := by
  obtain ⟨w, ps, rfl⟩ := hp.first
  obtain ⟨v, qs, rfl⟩ := hq.first
  have hchunks := congrArg chunks h
  rw [unspell_cons, unspell_cons, hp.chunked.chunks_eq, hq.chunked.chunks_eq] at hchunks
  obtain ⟨rfl, rfl⟩ := Prod.mk.inj hchunks
  rfl

theorem worded_pairsOf : Worded (pairsOf text) where
  first := ⟨_, _, rfl⟩
  seps p hp := by
    rcases List.mem_cons.mp hp with rfl | hp
    · exact (by decide : joins ' ' = false)
    · exact (chunked_chunks text.toList).seps p hp
  words p hp := by
    rcases List.mem_cons.mp hp with rfl | hp
    · exact (chunked_chunks text.toList).first
    · exact (chunked_chunks text.toList).words p hp

theorem unspell_pairsOf : unspell (pairsOf text) = text.toList := spell_chunks text.toList

theorem Worded.of_forall₂ (h : Worded ps)
    (hqs : List.Forall₂ (fun p q => q.1 = p.1 ∧ ((∀ c ∈ p.2, joins c = true) → ∀ c ∈ q.2, joins c = true)) ps qs) :
    Worded qs := by
  have hall : ∀ q ∈ qs, joins q.1 = false ∧ ∀ c ∈ q.2, joins c = true := by
    -- the induction is on the pairs, so the shape of the first is put aside
    have hseps := h.seps
    have hwords := h.words
    clear h
    induction hqs with
    | nil => simp
    | cons hpq _ ih =>
      intro q hq
      rcases List.mem_cons.mp hq with rfl | hq
      · exact ⟨hpq.1 ▸ hseps _ List.mem_cons_self, hpq.2 (hwords _ List.mem_cons_self)⟩
      · exact ih (fun p hp => hseps p (List.mem_cons_of_mem _ hp)) (fun p hp => hwords p (List.mem_cons_of_mem _ hp))
          q hq
  refine ⟨?_, fun q hq => (hall q hq).1, fun q hq => (hall q hq).2⟩
  obtain ⟨w, ps, rfl⟩ := h.first
  cases hqs with
  | @cons _ q _ qs hpq _ =>
    obtain ⟨c, v⟩ := q
    obtain rfl : c = ' ' := hpq.1
    exact ⟨v, qs, rfl⟩

theorem Worded.sweep {ps : List (Char × List Char)} (h : Worded ps)
    (hscope : ∀ c ∈ scope, joins c = true) (name : List Char) (blocked : Bool) :
    Worded (sweep scope name blocked ps) := by
  refine h.of_forall₂ ((sweep_grows scope name ps blocked).imp ?_)
  rintro p q ⟨hsep, hword⟩
  refine ⟨hsep, fun hp c hc => ?_⟩
  rcases hword with hword | ⟨-, hword⟩ <;> rw [hword] at hc
  · exact hp c hc
  · exact (List.mem_append.mp hc).elim (hscope c) (hp c)

theorem Worded.eventWords {ps : List (Char × List Char)} (h : Worded ps) : Worded (eventWords ps) := by
  refine h.of_forall₂ ?_
  unfold Emitter.eventWords
  rw [List.forall₂_map_right_iff]
  refine List.forall₂_same.mpr fun p _ => ⟨rfl, fun hp c hc => ?_⟩
  change c ∈ eventWord p.2 at hc
  unfold eventWord at hc
  cases hat : eventAt p.2 with
  | none =>
    rw [hat] at hc
    exact hp c hc
  | some member =>
    rw [hat] at hc
    obtain ⟨name, -, hsplit⟩ := eventAt_suffix hat
    have hcmd : ∀ c ∈ "cmd.".toList, joins c = true := by decide +kernel
    exact (List.mem_append.mp hc).elim (hcmd c) fun hc => hp c (by rw [hsplit]; simp [hc])

theorem foldl_qualifyName_sweep {scope : String} (hscope : ∀ c ∈ scope.toList, joins c = true) {names : List String}
    (hnames : ∀ n ∈ names, IsName n.toList) : ∀ {ps : List (Char × List Char)}, Worded ps →
      names.foldl (fun text n => qualifyName scope n text) (unspell ps) =
          unspell (sweepAll (names.map fun n => (scope.toList, n.toList)) ps) ∧
        Worded (sweepAll (names.map fun n => (scope.toList, n.toList)) ps) := by
  induction names with
  | nil => exact fun h => ⟨rfl, h⟩
  | cons n names ih =>
    intro ps h
    have hn := hnames n List.mem_cons_self
    have hrest := ih (fun m hm => hnames m (List.mem_cons_of_mem _ hm)) (h.sweep hscope n.toList false)
    obtain ⟨w, rest, rfl⟩ := h.first
    rw [List.foldl_cons, qualifyName_sweep hn h.chunked, hrest.1]
    exact ⟨rfl, hrest.2⟩

theorem sweepAll_append (l r : List (List Char × List Char)) (ps : List (Char × List Char)) :
    sweepAll (l ++ r) ps = sweepAll r (sweepAll l ps) := List.foldl_append

theorem qualifyExpression_sweep
    (hnames : ∀ n ∈ variableNames model ++ inPortNames model, IsName n.toList) (text : String) :
    qualifyExpression text model =
        String.ofList (unspell (eventWords (sweepAll (stagesOf model) (pairsOf text)))) ∧
      Worded (sweepAll (stagesOf model) (pairsOf text)) := by
  obtain ⟨hregs, hworded⟩ := foldl_qualifyName_sweep isScope_reg.joins
    (fun n hn => hnames n (List.mem_append_left _ hn)) (worded_pairsOf text)
  obtain ⟨hins, hworded'⟩ := foldl_qualifyName_sweep isScope_in.joins
    (fun n hn => hnames n (List.mem_append_right _ hn)) hworded
  rw [← sweepAll_append] at hins hworded'
  refine ⟨?_, hworded'⟩
  have hvars : model.vars.foldl (fun text v => qualifyName "reg." v.name text) text.toList =
      (variableNames model).foldl (fun text n => qualifyName "reg." n text) text.toList :=
    (List.foldl_map (f := fun v : VariableDefinition => v.name)
      (g := fun text n => qualifyName "reg." n text)).symm
  have hports : ∀ start : List Char,
      (model.ports.filter (·.isIn)).foldl (fun text p => qualifyName "in." p.name text) start =
        (inPortNames model).foldl (fun text n => qualifyName "in." n text) start := fun start =>
    (List.foldl_map (f := fun p : PortDefinition => p.name)
      (g := fun text n => qualifyName "in." n text)).symm
  unfold qualifyExpression
  dsimp only
  rw [hvars, ← unspell_pairsOf text, hregs, hports, hins]
  obtain ⟨w, rest, hfirst⟩ := hworded'.first
  have hstages : stagesOf model = (variableNames model).map (fun n => ("reg.".toList, n.toList)) ++
      (inPortNames model).map fun n => ("in.".toList, n.toList) := rfl
  rw [hstages, hfirst, replaceEvent_unspell (hfirst ▸ hworded').chunked (by simp)]

theorem shown_scan (pairs : List (Char × List Char)) : ∀ (s : Literal) (before read : List Char),
    shown (specifiedWord []) (scan s before read pairs) = pairs := by
  induction pairs with
  | nil => exact fun _ _ _ => rfl
  | cons p pairs ih =>
    intro s before read
    rw [scan, shown_cons, ih, specifiedWord_nil]

theorem shown_itemsOf : shown (specifiedWord []) (itemsOf text) = pairsOf text :=
  shown_scan (pairsOf text) .outside [] []

/-! ## Exactly which texts -/

/-- Every declared name is found where it is free and nowhere else. -/
structure Qualifies (model : FsmIr) (text : String) : Prop where
  /-- A word with a declared name is free, unless it is in a literal and one character behind a free occurrence of
  the name alone; a free one is not behind such an occurrence. -/
  own : ∀ x ∈ withPrev none (itemsOf text), ∀ st ∈ stagesOf model, leads st.2 x.2.word = true →
    (x.2.free = true ↔ alone st.2 x.1 = false)
  /-- No later name is that of the scope that a name has got, unless a free occurrence of that is before it. -/
  scopes : ∀ l st r, stagesOf model = l ++ st :: r → ∀ x ∈ withPrev none (itemsOf text), x.2.free = true →
    ∀ s ∈ l, leads s.2 x.2.word = true → s.1 = st.2 ++ ['.'] → alone st.2 x.1 = true
  /-- What reads as a member of the event by another name is one of a declared name. -/
  event : ∀ it ∈ itemsOf text, eventWord it.word ≠ it.word →
    it.free = true ∧ ∃ st ∈ stagesOf model, leads st.2 it.word = true

/-- The names are identifiers, and no two are the same. -/
structure DistinctNames (model : FsmIr) : Prop where
  names : ∀ n ∈ variableNames model ++ inPortNames model, IsName n.toList
  distinct : (variableNames model ++ model.ports.map (·.name)).Nodup

theorem DistinctNames.nodup (h : DistinctNames model) : (variableNames model ++ inPortNames model).Nodup := by
  refine h.distinct.sublist (List.Sublist.append (List.Sublist.refl _) ?_)
  exact List.filter_sublist.map _

theorem DistinctNames.sound (h : DistinctNames model) : Sound (stagesOf model) where
  names st hst := by
    rcases List.mem_append.mp hst with hst | hst <;> obtain ⟨n, hn, rfl⟩ := List.mem_map.mp hst
    · exact h.names n (List.mem_append_left _ hn)
    · exact h.names n (List.mem_append_right _ hn)
  scopes st hst := by
    rcases List.mem_append.mp hst with hst | hst <;> obtain ⟨n, -, rfl⟩ := List.mem_map.mp hst
    · exact .inl rfl
    · exact .inr rfl
  nodup := by
    have hnames : (stagesOf model).map (·.2) = (variableNames model ++ inPortNames model).map String.toList := by
      rw [stagesOf, List.map_append, List.map_append, List.map_map, List.map_map]
      rfl
    rw [hnames]
    exact h.nodup.map fun _ _ heq => String.toList_inj.mp heq

theorem leads_scope {name scope : List Char} (hname : IsName name)
    (hscope : scope = "reg.".toList ∨ scope = "in.".toList) (w : List Char) :
    leads name (scope ++ w) = true ↔ scope = name ++ ['.'] := by
  have hsplit : ∃ s : List Char, (∀ c ∈ s, c ≠ '.') ∧ scope = s ++ ['.'] := by
    rcases hscope with rfl | rfl
    · exact ⟨"reg".toList, by decide +kernel, by decide +kernel⟩
    · exact ⟨"in".toList, by decide +kernel, by decide +kernel⟩
  obtain ⟨s, hs, rfl⟩ := hsplit
  rw [leads_iff]
  constructor
  · rintro (heq | hprefix)
    · exact absurd rfl (hname.ne_dot '.' (by rw [← heq]; simp))
    · rw [List.append_assoc] at hprefix
      rw [before_dot_eq hname.ne_dot hs hprefix]
  · intro heq
    exact .inr ⟨w, by rw [heq]⟩

theorem stageOk_iff {st : List Char × List Char} (h : Sound (done ++ [st]))
    (items : List Item) : StageOk done st none items ↔ ∀ x ∈ withPrev none items,
      (leads st.2 x.2.word = true → (x.2.free = true ↔ alone st.2 x.1 = false)) ∧
        (x.2.free = true → ∀ s ∈ done, leads s.2 x.2.word = true → s.1 = st.2 ++ ['.'] →
          alone st.2 x.1 = true) := by
  have hname := h.names st (List.mem_append_right _ List.mem_cons_self)
  refine forall₂_congr fun x _ => ?_
  -- either no earlier name leads the word, or one does, and then this one does not
  obtain ⟨p, it⟩ := x
  dsimp only
  cases hfind : done.find? fun s => leads s.2 it.word with
  | none =>
    have hplain : specifiedWord done it = it.word := specifiedWord_of_none hfind
    have hno : ∀ s ∈ done, leads s.2 it.word = true → False := fun s hs hsw =>
      (List.find?_eq_none.mp hfind s hs) hsw
    rw [hplain]
    constructor
    · intro hiff
      refine ⟨fun hleads => ?_, fun _ s hs hsw _ => (hno s hs hsw).elim⟩
      exact ⟨fun hfree => (hiff.mpr ⟨hfree, hleads⟩).2, fun hopen => (hiff.mp ⟨hleads, hopen⟩).1⟩
    · rintro ⟨hown, -⟩
      exact ⟨fun ⟨hleads, hopen⟩ => ⟨(hown hleads).mpr hopen, hleads⟩,
        fun ⟨hfree, hleads⟩ => ⟨hleads, (hown hleads).mp hfree⟩⟩
  | some s =>
    have hs := List.mem_of_find?_eq_some hfind
    have hsw : leads s.2 it.word = true := by simpa using List.find?_some hfind
    have hother : leads st.2 it.word = false := by
      by_contra hne
      have hnone := h.find?_eq_none (by simpa using hne : leads st.2 it.word = true)
      rw [hfind] at hnone
      cases hnone
    have honly : ∀ s' ∈ done, leads s'.2 it.word = true → s'.1 = s.1 := by
      intro s' hs' hsw'
      have hsame : s'.2 = s.2 := leads_unique (h.names s' (List.mem_append_left _ hs'))
        (h.names s (List.mem_append_left _ hs)) hsw' hsw
      have hdone : (done.map (·.2)).Nodup := h.left.nodup
      exact congrArg Prod.fst (List.inj_on_of_nodup_map hdone hs' hs hsame)
    by_cases hfree : it.free = true
    · have hscoped : specifiedWord done it = s.1 ++ it.word := specifiedWord_of_some hfree hfind
      rw [hscoped, leads_scope hname (h.scopes s (List.mem_append_left _ hs)) it.word]
      constructor
      · intro hiff
        refine ⟨fun hleads => absurd hleads (by simp [hother]), fun _ s' hs' hsw' heq => ?_⟩
        by_contra hopen
        have hboth := hiff.mp ⟨(honly s' hs' hsw') ▸ heq, by simpa using hopen⟩
        rw [hother] at hboth
        exact Bool.false_ne_true hboth.2
      · rintro ⟨-, hblocked⟩
        constructor
        · rintro ⟨heq, hopen⟩
          rw [hblocked hfree s hs hsw heq] at hopen
          cases hopen
        · rintro ⟨-, hleads⟩
          rw [hother] at hleads
          cases hleads
    · rw [specifiedWord_of_not_free done hfree]
      simp [hother, hfree]

theorem event_iff {stages : List (List Char × List Char)} (h : Sound stages) (it : Item) :
    eventWord (specifiedWord stages it) = specifiedWord stages it ↔
      (eventWord it.word ≠ it.word → it.free = true ∧ ∃ st ∈ stages, leads st.2 it.word = true) := by
  by_cases hfree : it.free = true
  · cases hfind : stages.find? fun s => leads s.2 it.word with
    | none =>
      have hno : ¬ ∃ st ∈ stages, leads st.2 it.word = true := by
        rintro ⟨s, hs, hsw⟩
        exact (List.find?_eq_none.mp hfind s hs) hsw
      rw [specifiedWord_of_none hfind]
      simp only [hno, and_false]
      tauto
    | some s =>
      have hs := List.mem_of_find?_eq_some hfind
      have hsw : leads s.2 it.word = true := by simpa using List.find?_some hfind
      rw [specifiedWord_of_some hfree hfind]
      exact ⟨fun _ _ => ⟨hfree, s, hs, hsw⟩, fun _ => eventWord_scope (h.scopes s hs) _⟩
  · rw [specifiedWord_of_not_free stages hfree]
    simp only [hfree, Bool.false_eq_true, false_and]
    tauto

theorem worded_specified (h : Sound (stagesOf model)) (text : String) :
    Worded (shown (specifiedWord (stagesOf model)) (itemsOf text)) := by
  refine (shown_itemsOf text ▸ worded_pairsOf text).of_forall₂ ?_
  unfold shown
  rw [List.forall₂_map_left_iff, List.forall₂_map_right_iff]
  refine List.forall₂_same.mpr fun it _ => ⟨rfl, fun hword c hc => ?_⟩
  change c ∈ specifiedWord (stagesOf model) it at hc
  change ∀ c ∈ specifiedWord [] it, joins c = true at hword
  rw [specifiedWord_nil] at hword
  by_cases hfree : it.free = true
  · cases hfind : (stagesOf model).find? fun s => leads s.2 it.word with
    | none =>
      rw [specifiedWord_of_none hfind] at hc
      exact hword c hc
    | some s =>
      rw [specifiedWord_of_some hfree hfind] at hc
      have hs := List.mem_of_find?_eq_some hfind
      exact (List.mem_append.mp hc).elim (h.joins_scope hs c) (hword c)
  · rw [specifiedWord_of_not_free _ hfree] at hc
    exact hword c hc

/-- A text is qualified as it should be exactly if every declared name is found where it is free. -/
theorem qualifyExpression_eq_iff (h : DistinctNames model) (text : String) :
    qualifyExpression text model = specified model text ↔ Qualifies model text := by
  have hsound := h.sound
  obtain ⟨hqualified, hworded⟩ := qualifyExpression_sweep h.names text
  have hexact := @sweepAll_eq_iff (stagesOf model) [] hsound (itemsOf text)
  rw [shown_itemsOf, List.nil_append] at hexact
  -- texts are compared by their words
  have htexts : qualifyExpression text model = specified model text ↔
      eventWords (sweepAll (stagesOf model) (pairsOf text)) =
        shown (specifiedWord (stagesOf model)) (itemsOf text) := by
    rw [hqualified, specified]
    constructor
    · intro heq
      exact hworded.eventWords.unspell_inj (worded_specified hsound text) (String.ofList_injective heq)
    · exact fun heq => by rw [heq]
  have hstages : (∀ l st r, stagesOf model = l ++ st :: r → StageOk ([] ++ l) st none (itemsOf text)) ↔
      ∀ l st r, stagesOf model = l ++ st :: r → ∀ x ∈ withPrev none (itemsOf text),
        (leads st.2 x.2.word = true → (x.2.free = true ↔ alone st.2 x.1 = false)) ∧
          (x.2.free = true → ∀ s ∈ l, leads s.2 x.2.word = true → s.1 = st.2 ++ ['.'] →
            alone st.2 x.1 = true) := by
    refine forall_congr' fun l => forall_congr' fun st => forall_congr' fun r => forall_congr' fun hsplit => ?_
    have hassoc : stagesOf model = (l ++ [st]) ++ r := by rw [hsplit]; simp
    exact stageOk_iff (hassoc ▸ hsound).left (itemsOf text)
  rw [htexts, hexact, hstages]
  constructor
  · rintro ⟨hall, hevent⟩
    refine ⟨fun x hx st hst => ?_, fun l st r hsplit x hx => (hall l st r hsplit x hx).2, fun it hit =>
      (event_iff hsound it).mp (hevent it hit)⟩
    obtain ⟨l, r, hsplit⟩ := List.append_of_mem hst
    exact (hall l st r hsplit x hx).1
  · intro hq
    refine ⟨fun l st r hsplit x hx => ⟨hq.own x hx st ?_, hq.scopes l st r hsplit x hx⟩, fun it hit =>
      (event_iff hsound it).mpr (hq.event it hit)⟩
    rw [hsplit]
    exact List.mem_append_right _ List.mem_cons_self

end Fsmc.Emitter
