/-
# Fsmc.Emitter.NameSweep — the search and replace, word by word.

Read word by word, the replacement of a name is a sweep: a word that is the name, or a member of it, gets the
scope in front, unless the word before was the name alone and was found itself. The replacement of the event works
on each word by itself.
-/
import Fsmc.Emitter.QualifiedNames

namespace Fsmc.Emitter

open Fsmc.Ir Fsmc.Cpp

/-! ## Words with what is in front of them -/

/-- A word that is a name or a member of it. -/
def leads (name w : List Char) : Bool := w = name || (name ++ ['.']).isPrefixOf w

/-- The words behind the replacement of a name, each with the character before it; `blocked` is whether that
character was taken by a match. -/
def sweep (scope name : List Char) : Bool → List (Char × List Char) → List (Char × List Char)
  | _, [] => []
  | blocked, (c, w) :: pairs =>
    if !blocked && leads name w then (c, scope ++ w) :: sweep scope name (w = name) pairs
    else (c, w) :: sweep scope name false pairs

/-- The text of words behind characters, but for the first character. -/
def unspell (pairs : List (Char × List Char)) : List Char := (spell pairs).tail

@[simp] theorem unspell_cons (c : Char) (w : List Char) (pairs : List (Char × List Char)) :
    unspell ((c, w) :: pairs) = w ++ spell pairs := rfl

theorem leads_iff {name w : List Char} : leads name w = true ↔ w = name ∨ name ++ ['.'] <+: w := by
  simp [leads]

variable {pairs : List (Char × List Char)} {w : List Char}

theorem nameAt_leads {name w : List Char} (hname : IsName name) (h : Chunked w pairs) :
    (w = name ∧ nameAt name (w ++ spell pairs) = some (behind pairs)) ∨
      (∃ u, w = name ++ '.' :: u ∧ nameAt name (w ++ spell pairs) = some (['.'], u ++ spell pairs)) ∨
        leads name w = false ∧ nameAt name (w ++ spell pairs) = none := by
  by_cases hmember : name ++ ['.'] <+: w
  · obtain ⟨u, rfl⟩ := hmember
    refine .inr (.inl ⟨u, by simp, ?_⟩)
    have hdot : isIdentChar '.' = false := by decide
    unfold nameAt
    rw [if_pos ⟨'.' :: (u ++ spell pairs), by simp⟩]
    simp [hdot]
  · have hat := nameAt_eq hname h hmember
    by_cases hw : w = name
    · exact .inl ⟨hw, by rw [hat, if_pos hw]⟩
    · refine .inr (.inr ⟨?_, by rw [hat, if_neg hw]⟩)
      rw [Bool.eq_false_iff]
      exact fun hleads => (leads_iff.mp hleads).elim hw hmember

theorem leads_self (name : List Char) : leads name name = true := leads_iff.mpr (.inl rfl)

theorem leads_member (name u : List Char) : leads name (name ++ '.' :: u) = true :=
  leads_iff.mpr (.inr ⟨u, by simp⟩)

/-- Behind a character that can stand before a name, the replacement is the sweep; behind a match, it is the
sweep that is blocked. -/
theorem replaceName_sweep {scope name : List Char} (hname : IsName name) :
    ∀ (k : ℕ) {w₀ : List Char} {pairs : List (Char × List Char)}, pairs.length ≤ k → Chunked w₀ pairs →
      (∀ n, (spell pairs).length < n →
        replaceName scope name n false (spell pairs) = spell (sweep scope name false pairs)) ∧
      ∀ n, (spell pairs).length ≤ n →
        (behind pairs).1 ++ replaceName scope name n false (behind pairs).2 = spell (sweep scope name true pairs)
  | _, _, [], _, _ => ⟨fun n _ => replaceName_nil scope name n, fun n _ => replaceName_nil scope name n⟩
  | k + 1, w₀, (c, w) :: rest, hk, h => by
    rw [List.length_cons] at hk
    obtain ⟨hopen, hblocked⟩ := replaceName_sweep hname k (show rest.length ≤ k by omega) h.tail
    have hw : ∀ d ∈ w, joins d = true := h.words (c, w) List.mem_cons_self
    have hc : joins c = false := h.seps (c, w) List.mem_cons_self
    -- a word in which nothing is found is passed over
    have hpass : ∀ n, w.length + (spell rest).length < n → replaceName scope name n false (w ++ spell rest) =
        w ++ spell (sweep scope name false rest) := by
      intro n hn
      obtain ⟨m, rfl⟩ : ∃ m, n = m + w.length := ⟨n - w.length, by omega⟩
      rw [replaceName_word hw, hopen m (by omega)]
    constructor
    · intro n hn
      rw [spell_cons, List.length_cons, List.length_append] at hn
      obtain ⟨m, rfl⟩ : ∃ m, n = m + 1 := ⟨n - 1, by omega⟩
      rw [spell_cons, replaceName]
      simp only [Bool.false_eq_true, if_false, hc]
      rcases nameAt_leads hname h.tail with ⟨rfl, hat⟩ | ⟨u, rfl, hat⟩ | ⟨hleads, hat⟩
      · rw [hat, sweep, leads_self]
        simp [hblocked m (by omega)]
      · have hu : ∀ d ∈ u, joins d = true := fun d hd => hw d (by simp [hd])
        rw [List.length_append, List.length_cons] at hn
        obtain ⟨j, rfl⟩ : ∃ j, m = j + u.length := ⟨m - u.length, by omega⟩
        rw [hat, sweep, leads_member]
        simp [replaceName_word hu, hopen j (by omega)]
      · rw [hat, sweep, hleads]
        simp [hpass m (by omega)]
    · intro n hn
      rw [spell_cons, List.length_cons, List.length_append] at hn
      unfold behind
      dsimp only
      rw [hpass n (by omega), sweep]
      simp

variable {c : Char}

theorem qualifyName_sweep {scope name : String} (hname : IsName name.toList) (h : Chunked w pairs) :
    qualifyName scope name (unspell ((c, w) :: pairs)) =
      unspell (sweep scope.toList name.toList false ((c, w) :: pairs)) := by
  obtain ⟨hopen, hblocked⟩ := @replaceName_sweep scope.toList _ hname pairs.length w pairs le_rfl h
  unfold qualifyName
  rw [unspell_cons, replaceName_start, List.length_append]
  rcases nameAt_leads hname h with ⟨rfl, hat⟩ | ⟨u, rfl, hat⟩ | ⟨hleads, hat⟩
  · rw [hat, sweep, leads_self]
    simp [hblocked _ (Nat.le_add_left _ _)]
  · have hu : ∀ d ∈ u, joins d = true := fun d hd => h.first d (by simp [hd])
    have hfuel : (name.toList ++ '.' :: u).length + (spell pairs).length =
        name.toList.length + 1 + (spell pairs).length + u.length := by
      simp
      omega
    rw [hat, sweep, leads_member, hfuel]
    have hlt : (spell pairs).length < name.toList.length + 1 + (spell pairs).length := by omega
    simp [replaceName_word hu, hopen _ hlt]
  · have hfuel : w.length + (spell pairs).length + 1 = (spell pairs).length + 1 + w.length := by omega
    rw [hat, sweep, hleads, hfuel]
    simp [replaceName_word h.first, hopen _ (Nat.lt_succ_self _)]

/-! ## The event -/

/-- A word behind the replacement of the event. -/
def eventWord (w : List Char) : List Char :=
  match eventAt w with
  | some member => "cmd.".toList ++ member
  | none => w

theorem eventAt_append (h : Chunked w pairs) : eventAt (w ++ spell pairs) = (eventAt w).map (· ++ spell pairs) := by
  have hjoins : ∀ name ∈ eventNames, ∀ c ∈ name ++ ['.'], joins c = true := by decide +kernel
  unfold eventAt
  generalize hnames : eventNames = names at hjoins
  clear hnames
  induction names with
  | nil => rfl
  | cons name names ih =>
    have hrest := ih fun n hn => hjoins n (List.mem_cons_of_mem _ hn)
    rw [List.findSome?_cons, List.findSome?_cons]
    by_cases hin : name ++ ['.'] <+: w
    · obtain ⟨u, rfl⟩ := hin
      have hdrop : ∀ t : List Char, ((name ++ ['.'] ++ u) ++ t).drop (name.length + 1) = u ++ t := by
        intro t
        rw [List.append_assoc, List.drop_left' (by simp)]
      have hdrop' : (name ++ ['.'] ++ u).drop (name.length + 1) = u := List.drop_left' (by simp)
      rw [if_pos ((List.prefix_append _ _).trans (List.prefix_append _ _)), if_pos (List.prefix_append _ _), hdrop,
        hdrop']
      cases u with
      | nil =>
        -- the dot is the last of the word, and what is behind the word begins no member
        cases pairs with
        | nil => simp
        | cons p pairs =>
          obtain ⟨c, v⟩ := p
          have hc : joins c = false := h.seps (c, v) List.mem_cons_self
          have halpha : c.isAlpha = false ∧ c ≠ '_' := by
            simp only [joins, isIdentChar, Char.isAlphanum, Bool.or_eq_false_iff, decide_eq_false_iff_not] at hc
            exact ⟨hc.1.1.1, hc.1.2⟩
          simpa [halpha.1, halpha.2] using hrest
      | cons c u =>
        by_cases hc : (c.isAlpha || decide (c = '_')) = true
        · simp [hc]
        · simpa [hc] using hrest
    · have hout : ¬ name ++ ['.'] <+: w ++ spell pairs := fun hstarts =>
        hin (prefix_of_joins h (hjoins name List.mem_cons_self) hstarts)
      rw [if_neg hin, if_neg hout]
      exact hrest

theorem eventAt_suffix {text member : List Char} (h : eventAt text = some member) :
    ∃ name ∈ eventNames, text = name ++ '.' :: member := by
  obtain ⟨name, hname, hat⟩ := List.exists_of_findSome?_eq_some h
  refine ⟨name, hname, ?_⟩
  split at hat
  · rename_i hprefix
    obtain ⟨u, rfl⟩ := hprefix
    rw [List.drop_left' (by simp)] at hat
    cases u with
    | nil => simp at hat
    | cons c u =>
      obtain ⟨-, rfl⟩ := Option.ite_none_right_eq_some.mp hat |>.imp_right Option.some.inj
      simp
  · cases hat

theorem replaceEvent_word (hw : ∀ c ∈ w, joins c = true) (n : ℕ) (text : List Char) :
    replaceEvent (n + w.length) false (w ++ text) = w ++ replaceEvent n false text := by
  induction w with
  | nil => rfl
  | cons c w ih =>
    have hrest := ih fun d hd => hw d (List.mem_cons_of_mem _ hd)
    rw [List.length_cons, ← Nat.add_assoc, List.cons_append, replaceEvent]
    simp only [Bool.false_eq_true, if_false, hw c List.mem_cons_self, if_true, hrest]
    rfl

theorem isIdentChar_of_sep (h : joins c = false) : isIdentChar c = false := by
  rw [joins, Bool.or_eq_false_iff] at h
  exact h.1

theorem takeWhile_spell (hseps : ∀ p ∈ pairs, joins p.1 = false) (m : List Char) :
    (m ++ spell pairs).takeWhile isIdentChar = m.takeWhile isIdentChar ∧
      (m ++ spell pairs).dropWhile isIdentChar = m.dropWhile isIdentChar ++ spell pairs := by
  induction m with
  | nil =>
    cases pairs with
    | nil => simp
    | cons p pairs => simp [spell, isIdentChar_of_sep (hseps p List.mem_cons_self)]
  | cons d m ih => by_cases hd : isIdentChar d = true <;> simp [hd, ih.1, ih.2]

/-- What the replacement of the event makes of the words of a text. -/
def eventWords (pairs : List (Char × List Char)) : List (Char × List Char) :=
  pairs.map fun p => (p.1, eventWord p.2)

theorem replaceEvent_member {w m : List Char} (h : Chunked w pairs)
    (hm : eventAt w = some m) {n : ℕ} (hn : w.length + (spell pairs).length ≤ n)
    (ih : ∀ n, (spell pairs).length < n → replaceEvent n false (spell pairs) = spell (eventWords pairs)) :
    "cmd.".toList ++ (m ++ spell pairs).takeWhile isIdentChar ++
        replaceEvent n false ((m ++ spell pairs).dropWhile isIdentChar) =
      eventWord w ++ spell (eventWords pairs) := by
  obtain ⟨name, -, rfl⟩ := eventAt_suffix hm
  obtain ⟨htake, hdrop⟩ := takeWhile_spell h.seps m
  have hrest : ∀ d ∈ m.dropWhile isIdentChar, joins d = true := fun d hd =>
    h.first d (by simp [List.dropWhile_suffix isIdentChar |>.subset hd])
  have hle : (m.dropWhile isIdentChar).length ≤ m.length := (List.dropWhile_suffix isIdentChar).length_le
  rw [List.length_append, List.length_cons] at hn
  obtain ⟨j, rfl⟩ : ∃ j, n = j + (m.dropWhile isIdentChar).length := ⟨n - (m.dropWhile isIdentChar).length, by omega⟩
  rw [htake, hdrop, replaceEvent_word hrest, ih j (by omega), eventWord, hm]
  simp only [List.append_assoc, ← List.append_assoc (m.takeWhile isIdentChar), List.takeWhile_append_dropWhile]

theorem replaceEvent_spell : ∀ {w₀ : List Char} {pairs : List (Char × List Char)}, Chunked w₀ pairs →
    ∀ n, (spell pairs).length < n → replaceEvent n false (spell pairs) = spell (eventWords pairs)
  | _, [], _, n, _ => by cases n <;> rfl
  | w₀, (c, w) :: rest, h, n, hn => by
    rw [spell_cons, List.length_cons, List.length_append] at hn
    obtain ⟨m, rfl⟩ : ∃ m, n = m + 1 := ⟨n - 1, by omega⟩
    have hc : joins c = false := h.seps (c, w) List.mem_cons_self
    have ih := replaceEvent_spell h.tail
    have hat := eventAt_append h.tail
    rw [spell_cons, replaceEvent]
    simp only [Bool.false_eq_true, if_false, hc]
    -- the word is replaced as a whole or passed as a whole
    cases hmember : eventAt w with
    | some u =>
      have hall := replaceEvent_member h.tail hmember (show w.length + (spell rest).length ≤ m by omega) ih
      rw [hmember] at hat
      rw [hat, Option.map_some]
      simp only [hall]
      rfl
    | none =>
      rw [hmember] at hat
      rw [hat, Option.map_none]
      obtain ⟨j, rfl⟩ : ∃ j, m = j + w.length := ⟨m - w.length, by omega⟩
      simp only [replaceEvent_word h.tail.first, ih j (by omega), eventWords, List.map_cons, spell_cons,
        eventWord, hmember]

theorem replaceEvent_unspell (h : Chunked w pairs) {n : ℕ} (hn : w.length + (spell pairs).length < n) :
    replaceEvent n true (unspell ((c, w) :: pairs)) = unspell (eventWords ((c, w) :: pairs)) := by
  obtain ⟨m, rfl⟩ : ∃ m, n = m + 1 := ⟨n - 1, by omega⟩
  have hat := eventAt_append h
  have ih := replaceEvent_spell h
  rw [unspell_cons]
  cases hmember : eventAt w with
  | some u =>
    have hall := replaceEvent_member h hmember (show w.length + (spell pairs).length ≤ m by omega) ih
    rw [hmember, Option.map_some] at hat
    rw [replaceEvent.eq_def]
    simp only [if_true, hat, hall]
    rfl
  | none =>
    rw [hmember, Option.map_none] at hat
    have hclosed : replaceEvent (m + 1) true (w ++ spell pairs) = replaceEvent (m + 1) false (w ++ spell pairs) := by
      rw [replaceEvent.eq_def, replaceEvent.eq_def]
      simp [hat]
    obtain ⟨j, hj⟩ : ∃ j, m + 1 = j + w.length := ⟨m + 1 - w.length, by omega⟩
    rw [hclosed, hj, replaceEvent_word h.first, ih j (by omega)]
    simp [eventWords, eventWord, hmember]

end Fsmc.Emitter
