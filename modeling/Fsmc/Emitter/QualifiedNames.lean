/-
# Fsmc.Emitter.QualifiedNames — what the search and replace does to a text.

A text is taken as words with single characters between them. A name is found where a word is that name, unless
the character in front of it was taken by the match before; so all its places are found where no two of them
have only one character between them. Read as tokens, such a text is the one before with the name renamed.
-/
import Fsmc.Emitter.Qualify
import Fsmc.Frontend.PrintedGuards

namespace Fsmc.Emitter

open Fsmc.Ir Fsmc.Cpp Fsmc.Frontend.PrintedGuards

/-! ## Words -/

/-- The word that a text begins with, and the other words, each behind a character that is in none. -/
def chunks : List Char → List Char × List (Char × List Char)
  | [] => ([], [])
  | c :: text =>
    if joins c then (c :: (chunks text).1, (chunks text).2)
    else ([], (c, (chunks text).1) :: (chunks text).2)

/-- The text that words behind characters are. -/
def spell (pairs : List (Char × List Char)) : List Char := pairs.flatMap fun p => p.1 :: p.2

@[simp] theorem spell_nil : spell [] = [] := rfl

@[simp] theorem spell_cons (c : Char) (w : List Char) (pairs : List (Char × List Char)) :
    spell ((c, w) :: pairs) = c :: (w ++ spell pairs) := rfl

/-- The words of a text; some may be empty. -/
def wordsOf (text : List Char) : List (List Char) := (chunks text).1 :: (chunks text).2.map (·.2)

theorem spell_chunks (text : List Char) : (chunks text).1 ++ spell (chunks text).2 = text := by
  induction text with
  | nil => rfl
  | cons c text ih =>
    unfold chunks
    split
    · rw [List.cons_append, ih]
    · rw [List.nil_append, spell_cons, ih]

/-- Words and what is between them. -/
structure Chunked (w : List Char) (pairs : List (Char × List Char)) : Prop where
  first : ∀ c ∈ w, joins c = true
  words : ∀ p ∈ pairs, ∀ c ∈ p.2, joins c = true
  seps : ∀ p ∈ pairs, joins p.1 = false

theorem chunked_chunks (text : List Char) : Chunked (chunks text).1 (chunks text).2 := by
  induction text with
  | nil => exact ⟨by simp [chunks], by simp [chunks], by simp [chunks]⟩
  | cons c text ih =>
    obtain ⟨hfirst, hwords, hseps⟩ := ih
    unfold chunks
    split
    · rename_i hc
      refine ⟨fun d hd => ?_, hwords, hseps⟩
      rcases List.mem_cons.mp hd with rfl | hd
      · exact hc
      · exact hfirst d hd
    · rename_i hc
      refine ⟨by simp, fun p hp => ?_, fun p hp => ?_⟩
      · rcases List.mem_cons.mp hp with rfl | hp
        · exact hfirst
        · exact hwords p hp
      · rcases List.mem_cons.mp hp with rfl | hp
        · simpa using hc
        · exact hseps p hp

theorem chunks_append {w : List Char} (hw : ∀ c ∈ w, joins c = true) (text : List Char) :
    chunks (w ++ text) = (w ++ (chunks text).1, (chunks text).2) := by
  induction w with
  | nil => rfl
  | cons c w ih =>
    rw [List.cons_append, chunks, if_pos (hw c List.mem_cons_self),
      ih fun d hd => hw d (List.mem_cons_of_mem _ hd)]
    rfl

theorem Chunked.chunks_eq {w : List Char} {pairs : List (Char × List Char)} (h : Chunked w pairs) :
    chunks (w ++ spell pairs) = (w, pairs) := by
  induction pairs generalizing w with
  | nil => rw [chunks_append h.first, spell_nil, chunks, List.append_nil]
  | cons p pairs ih =>
    obtain ⟨c, w'⟩ := p
    have hc : joins c = false := h.seps (c, w') List.mem_cons_self
    have hrest := ih ⟨h.words (c, w') List.mem_cons_self, fun q hq => h.words q (List.mem_cons_of_mem _ hq),
      fun q hq => h.seps q (List.mem_cons_of_mem _ hq)⟩
    rw [chunks_append h.first, spell_cons, chunks, if_neg (by simp [hc]), hrest, List.append_nil]

/-! ## Finding a name -/

/-- A name as the patterns look for it. -/
def IsName (name : List Char) : Prop := name ≠ [] ∧ ∀ c ∈ name, isIdentChar c = true

theorem joins_of_isIdentChar {c : Char} (h : isIdentChar c = true) : joins c = true := by
  rw [joins, h, Bool.true_or]

/-- What is behind a name that the text ends with, or goes on behind. -/
def behind : List (Char × List Char) → List Char × List Char
  | [] => ([], [])
  | (c, w) :: pairs => ([c], w ++ spell pairs)

theorem prefix_of_joins {l w : List Char} {pairs : List (Char × List Char)} (h : Chunked w pairs)
    (hl : ∀ c ∈ l, joins c = true) (hstarts : l <+: w ++ spell pairs) : l <+: w := by
  rcases List.prefix_or_prefix_of_prefix hstarts (List.prefix_append w _) with hin | ⟨u, rfl⟩
  · exact hin
  · rw [List.prefix_append_right_inj] at hstarts
    cases u with
    | nil => simp
    | cons d u =>
      cases pairs with
      | nil => simp at hstarts
      | cons p pairs =>
        obtain ⟨c, w'⟩ := p
        rw [spell_cons, List.cons_prefix_cons] at hstarts
        have hsep : joins c = false := h.seps (c, w') List.mem_cons_self
        rw [← hstarts.1, hl d (by simp)] at hsep
        cases hsep

theorem nameAt_eq {name w : List Char} {pairs : List (Char × List Char)} (hname : IsName name)
    (h : Chunked w pairs) (hmember : ¬ name ++ ['.'] <+: w) :
    nameAt name (w ++ spell pairs) = if w = name then some (behind pairs) else none := by
  unfold nameAt
  by_cases hw : w = name
  · subst hw
    rw [if_pos (List.prefix_append _ _), if_pos rfl, List.drop_left]
    cases pairs with
    | nil => rfl
    | cons p pairs =>
      obtain ⟨c, w'⟩ := p
      have hc : isIdentChar c = false := by
        have hjoins : joins c = false := h.seps (c, w') List.mem_cons_self
        rw [joins, Bool.or_eq_false_iff] at hjoins
        exact hjoins.1
      simp [spell_cons, hc, behind]
  · rw [if_neg hw]
    split
    · rename_i hprefix
      -- the name ends inside the word, before a character that an identifier goes on with
      have hinside : name <+: w := prefix_of_joins h (fun c hc => joins_of_isIdentChar (hname.2 c hc)) hprefix
      obtain ⟨u, rfl⟩ := hinside
      rw [List.append_assoc, List.drop_left]
      cases u with
      | nil => exact absurd (List.append_nil _) hw
      | cons d u =>
        have hdot : d ≠ '.' := by
          rintro rfl
          exact hmember ⟨u, by simp⟩
        have hd : isIdentChar d = true := by
          have hjoins := h.first d (List.mem_append_right _ List.mem_cons_self)
          simpa [joins, hdot] using hjoins
        simp [hd]
    · rfl

/-! ## Replacing a name -/

/-- A word behind the replacement of a name. -/
def renameWord (scope name w : List Char) : List Char := if w = name then scope ++ name else w

/-- A text in which all places of a name are found: no two of them have a single character between them, and none
goes on with a member. -/
structure Spaced (name : List Char) (words : List (List Char)) : Prop where
  apart : ¬ [name, name] <:+: words
  member : ∀ w ∈ words, ¬ name ++ ['.'] <+: w

theorem Spaced.tail {name w : List Char} {words : List (List Char)} (h : Spaced name (w :: words)) :
    Spaced name words :=
  ⟨fun hin => h.apart (hin.trans (List.suffix_cons w words).isInfix),
    fun v hv => h.member v (List.mem_cons_of_mem _ hv)⟩

theorem Chunked.tail {w w' : List Char} {c : Char} {pairs : List (Char × List Char)}
    (h : Chunked w ((c, w') :: pairs)) : Chunked w' pairs :=
  ⟨h.words (c, w') List.mem_cons_self, fun p hp => h.words p (List.mem_cons_of_mem _ hp),
    fun p hp => h.seps p (List.mem_cons_of_mem _ hp)⟩

theorem replaceName_word {scope name w : List Char} (hw : ∀ c ∈ w, joins c = true) (n : ℕ) (text : List Char) :
    replaceName scope name (n + w.length) false (w ++ text) = w ++ replaceName scope name n false text := by
  induction w with
  | nil => rfl
  | cons c w ih =>
    have hrest := ih fun d hd => hw d (List.mem_cons_of_mem _ hd)
    rw [List.length_cons, ← Nat.add_assoc, List.cons_append, replaceName]
    simp only [Bool.false_eq_true, if_false, hw c List.mem_cons_self, if_true, hrest]
    rfl

theorem replaceName_nil (scope name : List Char) (n : ℕ) : replaceName scope name n false [] = [] := by
  cases n <;> rfl

/-- Behind a place where no name can begin, the words are renamed. -/
def Renames (scope name : List Char) (pairs : List (Char × List Char)) : Prop :=
  ∀ n, (spell pairs).length < n → replaceName scope name n false (spell pairs) =
    spell (pairs.map fun p => (p.1, renameWord scope name p.2))

theorem replaceName_behind {scope name w : List Char} {pairs : List (Char × List Char)}
    (h : Chunked w pairs) (hspaced : Spaced name (name :: pairs.map (·.2)))
    (ih : ∀ p rest, pairs = p :: rest → Renames scope name rest) {n : ℕ} (hn : (spell pairs).length ≤ n) :
    (behind pairs).1 ++ replaceName scope name n false (behind pairs).2 =
      spell (pairs.map fun p => (p.1, renameWord scope name p.2)) := by
  cases pairs with
  | nil => exact replaceName_nil scope name n
  | cons p rest =>
    obtain ⟨c, w'⟩ := p
    have hne : w' ≠ name := by
      rintro rfl
      exact hspaced.apart ⟨[], rest.map (·.2), rfl⟩
    rw [spell_cons, List.length_cons, List.length_append] at hn
    obtain ⟨k, rfl⟩ : ∃ k, n = k + w'.length := ⟨n - w'.length, by omega⟩
    unfold behind
    dsimp only
    rw [replaceName_word (h.words (c, w') List.mem_cons_self), ih _ rest rfl k (by omega), List.map_cons,
      spell_cons, renameWord, if_neg hne]
    rfl

theorem renames_of_spaced {scope name : List Char} (hname : IsName name) :
    ∀ (k : ℕ) {w : List Char} {pairs : List (Char × List Char)}, pairs.length ≤ k → Chunked w pairs →
      Spaced name (pairs.map (·.2)) → Renames scope name pairs
  | _, _, [], _, _, _ => fun n _ => replaceName_nil scope name n
  | k + 1, w₀, (c, w) :: rest, hk, h, hspaced => by
    intro n hn
    rw [List.length_cons] at hk
    rw [spell_cons, List.length_cons, List.length_append] at hn
    obtain ⟨m, rfl⟩ : ∃ m, n = m + 1 := ⟨n - 1, by omega⟩
    have hc : joins c = false := h.seps (c, w) List.mem_cons_self
    have hfound := nameAt_eq hname h.tail (hspaced.member w List.mem_cons_self)
    rw [spell_cons, replaceName]
    simp only [Bool.false_eq_true, if_false, hc, hfound]
    by_cases hw : w = name
    · have hrest : ∀ p rest', rest = p :: rest' → Renames scope name rest' := by
        rintro p rest' rfl
        rw [List.length_cons] at hk
        exact renames_of_spaced hname k (by omega) h.tail.tail hspaced.tail.tail
      have hbehind := replaceName_behind h.tail (hw ▸ hspaced) hrest (show (spell rest).length ≤ m by omega)
      rw [if_pos hw, List.map_cons, spell_cons, renameWord, if_pos hw, ← hbehind]
      simp
    · obtain ⟨j, rfl⟩ : ∃ j, m = j + w.length := ⟨m - w.length, by omega⟩
      rw [if_neg hw, List.map_cons, spell_cons, renameWord, if_neg hw]
      dsimp only
      rw [replaceName_word (h.words (c, w) List.mem_cons_self),
        renames_of_spaced hname k (by omega) h.tail hspaced.tail j (by omega)]

theorem replaceName_start (scope name text : List Char) (n : ℕ) : replaceName scope name (n + 1) true text =
      match nameAt name text with
      | some (tail, rest) => scope ++ name ++ tail ++ replaceName scope name n false rest
      | none => replaceName scope name (n + 1) false text := by
  rw [replaceName.eq_def]
  simp only [if_true]
  cases hfound : nameAt name text with
  | some found => rfl
  | none =>
    simp only
    rw [replaceName.eq_def]
    simp

theorem qualifyName_eq {scope name : String} {w : List Char} {pairs : List (Char × List Char)}
    (hname : IsName name.toList) (h : Chunked w pairs) (hspaced : Spaced name.toList (w :: pairs.map (·.2))) :
    qualifyName scope name (w ++ spell pairs) =
      renameWord scope.toList name.toList w ++
        spell (pairs.map fun p => (p.1, renameWord scope.toList name.toList p.2)) := by
  have hfound := nameAt_eq hname h (hspaced.member w List.mem_cons_self)
  unfold qualifyName
  rw [replaceName_start, hfound, List.length_append]
  by_cases hw : w = name.toList
  · have hrest : ∀ p rest, pairs = p :: rest → Renames scope.toList name.toList rest := by
      rintro p rest rfl
      exact renames_of_spaced hname _ le_rfl h.tail hspaced.tail.tail
    have hbehind := replaceName_behind h (hw ▸ hspaced) hrest (Nat.le_add_left _ w.length)
    rw [if_pos hw, renameWord, if_pos hw, ← hbehind]
    simp
  · have hfuel : w.length + (spell pairs).length + 1 = (spell pairs).length + 1 + w.length := by omega
    rw [if_neg hw, renameWord, if_neg hw, hfuel]
    dsimp only
    rw [replaceName_word h.first, renames_of_spaced hname _ le_rfl h hspaced.tail _ (Nat.lt_succ_self _)]

/-! ## Texts with other words -/

/-- A text with other words in place of its own. -/
def mapWords (f : List Char → List Char) (text : List Char) : List Char :=
  f (chunks text).1 ++ spell ((chunks text).2.map fun p => (p.1, f p.2))

def KeepsWords (f : List Char → List Char) : Prop := ∀ w, (∀ c ∈ w, joins c = true) → ∀ c ∈ f w, joins c = true

theorem Chunked.map {f : List Char → List Char} (hf : KeepsWords f) {w : List Char}
    {pairs : List (Char × List Char)} (h : Chunked w pairs) :
    Chunked (f w) (pairs.map fun p => (p.1, f p.2)) where
  first := hf w h.first
  words p hp := by
    obtain ⟨q, hq, rfl⟩ := List.mem_map.mp hp
    exact hf q.2 (h.words q hq)
  seps p hp := by
    obtain ⟨q, hq, rfl⟩ := List.mem_map.mp hp
    exact h.seps q hq

theorem chunks_mapWords {f : List Char → List Char} (hf : KeepsWords f) (text : List Char) :
    chunks (mapWords f text) = (f (chunks text).1, (chunks text).2.map fun p => (p.1, f p.2)) :=
  ((chunked_chunks text).map hf).chunks_eq

theorem wordsOf_mapWords {f : List Char → List Char} (hf : KeepsWords f) (text : List Char) :
    wordsOf (mapWords f text) = (wordsOf text).map f := by
  unfold wordsOf
  rw [chunks_mapWords hf, List.map_cons, List.map_map, List.map_map]
  rfl

theorem mapWords_mapWords {f : List Char → List Char} (hf : KeepsWords f) (g : List Char → List Char)
    (text : List Char) : mapWords g (mapWords f text) = mapWords (fun w => g (f w)) text := by
  rw [mapWords, chunks_mapWords hf, List.map_map]
  rfl

theorem mapWords_self (text : List Char) : mapWords (fun w => w) text = text := by
  unfold mapWords
  rw [List.map_id']
  exact spell_chunks text

theorem qualifyName_eq_mapWords {scope name : String} {text : List Char} (hname : IsName name.toList)
    (h : Spaced name.toList (wordsOf text)) :
    qualifyName scope name text = mapWords (renameWord scope.toList name.toList) text := by
  have hall := @qualifyName_eq scope name _ _ hname (chunked_chunks text) h
  rw [spell_chunks] at hall
  exact hall

/-! ## Replacing all names -/

/-- Names that are not taken for one of the scopes, or for a constant. -/
structure PlainName (name : String) : Prop where
  isName : IsName name.toList
  notReg : name ≠ "reg"
  notIn : name ≠ "in"
  notTrue : name ≠ "true"

/-- A word behind the replacement of some names. -/
def scopeWord (scope : String) (names : List String) (w : List Char) : List Char :=
  if String.ofList w ∈ names then scope.toList ++ w else w

theorem keepsWords_scopeWord {scope : String} (hscope : ∀ c ∈ scope.toList, joins c = true) (names : List String) :
    KeepsWords (scopeWord scope names) := by
  intro w hw c hc
  unfold scopeWord at hc
  split at hc
  · rcases List.mem_append.mp hc with hc | hc
    · exact hscope c hc
    · exact hw c hc
  · exact hw c hc

theorem scope_append_ne {scope : String} (hdot : '.' ∈ scope.toList) {name : String} (hname : IsName name.toList)
    (w : List Char) : String.ofList (scope.toList ++ w) ≠ name := by
  rintro rfl
  have hident := hname.2 '.' (by simp [hdot])
  exact absurd hident (by decide)

theorem foldl_renameWord {scope : String} (hdot : '.' ∈ scope.toList) {names : List String}
    (hnames : ∀ n ∈ names, IsName n.toList) (w : List Char) :
    names.foldl (fun w n => renameWord scope.toList n.toList w) w = scopeWord scope names w := by
  have hdone : ∀ {names : List String}, (∀ n ∈ names, IsName n.toList) → ∀ w,
      names.foldl (fun w n => renameWord scope.toList n.toList w) (scope.toList ++ w) = scope.toList ++ w := by
    intro names
    induction names with
    | nil => exact fun _ _ => rfl
    | cons n names ih =>
      intro hnames w
      have hne : scope.toList ++ w ≠ n.toList := by
        intro heq
        refine scope_append_ne hdot (hnames n List.mem_cons_self) w ?_
        rw [heq, String.ofList_toList]
      rw [List.foldl_cons, renameWord, if_neg hne]
      exact ih (fun m hm => hnames m (List.mem_cons_of_mem _ hm)) w
  induction names with
  | nil => rfl
  | cons n names ih =>
    have hrest : ∀ m ∈ names, IsName m.toList := fun m hm => hnames m (List.mem_cons_of_mem _ hm)
    rw [List.foldl_cons, renameWord]
    by_cases hw : w = n.toList
    · have hmem : String.ofList w ∈ n :: names := by
        rw [hw, String.ofList_toList]
        exact List.mem_cons_self
      rw [if_pos hw, ← hw, hdone hrest, scopeWord, if_pos hmem]
    · have hiff : String.ofList w ∈ n :: names ↔ String.ofList w ∈ names := by
        rw [List.mem_cons]
        refine or_iff_right fun heq => hw ?_
        rw [← heq, String.toList_ofList]
      rw [if_neg hw, ih hrest, scopeWord, scopeWord]
      simp only [hiff]

theorem before_dot_eq {l l' : List Char} (hl : ∀ c ∈ l, c ≠ '.') (hl' : ∀ c ∈ l', c ≠ '.') {text : List Char}
    (h : l ++ ['.'] <+: l' ++ '.' :: text) : l = l' := by
  obtain ⟨rest, hrest⟩ := h
  have hbefore : ∀ {l : List Char}, (∀ c ∈ l, c ≠ '.') → ∀ rest, (l ++ '.' :: rest).takeWhile (· ≠ '.') = l := by
    intro l hl rest
    rw [List.takeWhile_append_of_pos fun c hc => decide_eq_true (hl c hc)]
    simp
  rw [← hbefore hl rest, ← hbefore hl' text, ← hrest, List.append_assoc]
  rfl

theorem IsName.ne_dot {name : List Char} (h : IsName name) : ∀ c ∈ name, c ≠ '.' := by
  rintro c hc rfl
  exact absurd (h.2 '.' hc) (by decide)

/-- The text that is put in front of a name. -/
structure IsScope (scope : String) : Prop where
  scope_eq : scope = "reg." ∨ scope = "in."

theorem IsScope.joins {scope : String} (h : IsScope scope) : ∀ c ∈ scope.toList, joins c = true := by
  rcases h.scope_eq with rfl | rfl <;> decide +kernel

theorem IsScope.dot {scope : String} (h : IsScope scope) : '.' ∈ scope.toList := by
  rcases h.scope_eq with rfl | rfl <;> decide +kernel

theorem PlainName.not_member {name scope : String} (hname : PlainName name) (hscope : IsScope scope)
    (w : List Char) : ¬ name.toList ++ ['.'] <+: scope.toList ++ w := by
  intro h
  have hsplit : ∀ {s : String}, (∀ c ∈ s.toList, c ≠ '.') → scope.toList = s.toList ++ ['.'] → name = s := by
    intro s hs hscope
    rw [hscope, List.append_assoc] at h
    exact String.toList_inj.mp (before_dot_eq hname.isName.ne_dot hs h)
  rcases hscope.scope_eq with rfl | rfl
  · exact hname.notReg (hsplit (s := "reg") (by decide +kernel) (by decide +kernel))
  · exact hname.notIn (hsplit (s := "in") (by decide +kernel) (by decide +kernel))

theorem Spaced.mapWords {f : List Char → List Char} (hf : KeepsWords f) {name : List Char} {text : List Char}
    (h : Spaced name (wordsOf text)) (hsame : ∀ w, f w = name → w = name)
    (hmember : ∀ w, name ++ ['.'] <+: f w → f w = w) : Spaced name (wordsOf (mapWords f text)) := by
  rw [wordsOf_mapWords hf]
  constructor
  · rintro ⟨l, r, hin⟩
    have hsplit := hin.symm
    rw [List.append_assoc] at hsplit
    obtain ⟨l', rest, hwords, -, hrest⟩ := List.map_eq_append_iff.mp hsplit
    obtain ⟨u, rest', rfl, hu, hrest'⟩ := List.map_eq_cons_iff.mp hrest
    obtain ⟨v, r', rfl, hv, -⟩ := List.map_eq_cons_iff.mp hrest'
    rw [hsame u hu, hsame v hv] at hwords
    exact h.apart ⟨l', r', by rw [hwords]; simp⟩
  · intro w hw hprefix
    obtain ⟨u, hu, rfl⟩ := List.mem_map.mp hw
    rw [hmember u hprefix] at hprefix
    exact h.member u hu hprefix

theorem eq_of_scopeWord {scope : String} (hscope : IsScope scope) {names : List String} {name : String}
    (hname : PlainName name) {w : List Char} (h : scopeWord scope names w = name.toList) : w = name.toList := by
  unfold scopeWord at h
  split at h
  · refine absurd ?_ (scope_append_ne hscope.dot hname.isName w)
    rw [h, String.ofList_toList]
  · exact h

theorem scopeWord_of_member {scope : String} (hscope : IsScope scope) {names : List String} {name : String}
    (hname : PlainName name) {w : List Char} (h : name.toList ++ ['.'] <+: scopeWord scope names w) :
    scopeWord scope names w = w := by
  unfold scopeWord at h ⊢
  split
  · rename_i hmem
    rw [if_pos hmem] at h
    exact absurd h (hname.not_member hscope w)
  · rfl

theorem Spaced.scope {scope : String} (hscope : IsScope scope) (names : List String) {name : String}
    (hname : PlainName name) {text : List Char} (h : Spaced name.toList (wordsOf text)) :
    Spaced name.toList (wordsOf (Emitter.mapWords (scopeWord scope names) text)) :=
  h.mapWords (keepsWords_scopeWord hscope.joins names) (fun _ hw => eq_of_scopeWord hscope hname hw) fun _ hw =>
    scopeWord_of_member hscope hname hw

theorem foldl_qualifyName {scope : String} (hscope : IsScope scope) {names : List String}
    (hnames : ∀ n ∈ names, PlainName n) :
    ∀ {text : List Char}, (∀ n ∈ names, Spaced n.toList (wordsOf text)) →
      names.foldl (fun text n => qualifyName scope n text) text = mapWords (scopeWord scope names) text := by
  induction names with
  | nil =>
    intro text _
    have hself : scopeWord scope [] = fun w => w := by
      funext w
      simp [scopeWord]
    rw [hself, mapWords_self]
    rfl
  | cons n names ih =>
    intro text hspaced
    have hn := hnames n List.mem_cons_self
    have hrest : ∀ m ∈ names, PlainName m := fun m hm => hnames m (List.mem_cons_of_mem _ hm)
    have hone : renameWord scope.toList n.toList = scopeWord scope [n] := by
      funext w
      exact @foldl_renameWord scope hscope.dot [n] (by simpa using hn.isName) w
    have hkeeps := keepsWords_scopeWord hscope.joins [n]
    rw [List.foldl_cons, qualifyName_eq_mapWords hn.isName (hspaced n List.mem_cons_self), hone,
      ih hrest fun m hm => (hspaced m (List.mem_cons_of_mem _ hm)).scope hscope [n] (hrest m hm),
      mapWords_mapWords hkeeps]
    congr 1
    funext w
    rw [← hone, ← foldl_renameWord hscope.dot (fun m hm => (hrest m hm).isName),
      ← foldl_renameWord hscope.dot fun m hm => (hnames m hm).isName]
    rfl

/-! ## The event -/

/-- No word is a member of the event. -/
def EventFree (words : List (List Char)) : Prop := ∀ w ∈ words, ∀ name ∈ eventNames, ¬ name ++ ['.'] <+: w

theorem eventAt_eq_none {w : List Char} {pairs : List (Char × List Char)} (h : Chunked w pairs)
    (hfree : ∀ name ∈ eventNames, ¬ name ++ ['.'] <+: w) : eventAt (w ++ spell pairs) = none := by
  unfold eventAt
  rw [List.findSome?_eq_none_iff]
  intro name hname
  refine if_neg fun hprefix => hfree name hname (prefix_of_joins h ?_ hprefix)
  have hall : ∀ name ∈ eventNames, ∀ c ∈ name ++ ['.'], joins c = true := by decide +kernel
  exact hall name hname

theorem replaceEvent_eq : ∀ (n : ℕ) (start : Bool) {w : List Char} {pairs : List (Char × List Char)},
    Chunked w pairs → (start = true → ∀ name ∈ eventNames, ¬ name ++ ['.'] <+: w) →
      EventFree (pairs.map (·.2)) → replaceEvent n start (w ++ spell pairs) = w ++ spell pairs
  | 0, _, _, _, _, _, _ => rfl
  | n + 1, start, w, pairs, h, hfirst, hfree => by
    have hnone : (if start then eventAt (w ++ spell pairs) else none) = none := by
      cases start with
      | true => exact eventAt_eq_none h (hfirst rfl)
      | false => rfl
    rw [replaceEvent.eq_def]
    simp only [hnone]
    cases w with
    | cons c w =>
      have hrest := replaceEvent_eq n false (w := w)
        ⟨fun d hd => h.first d (List.mem_cons_of_mem _ hd), h.words, h.seps⟩ (fun hno => Bool.noConfusion hno) hfree
      simp only [List.cons_append, h.first c List.mem_cons_self, if_true]
      rw [hrest]
    | nil =>
      cases pairs with
      | nil => rfl
      | cons p pairs =>
        obtain ⟨c, w'⟩ := p
        have hc : joins c = false := h.seps (c, w') List.mem_cons_self
        have hevent := eventAt_eq_none h.tail (hfree w' List.mem_cons_self)
        have hrest := replaceEvent_eq n false h.tail (fun hno => Bool.noConfusion hno)
          fun v hv => hfree v (List.mem_cons_of_mem _ hv)
        simp only [List.nil_append, spell_cons, hc, Bool.false_eq_true, if_false, hevent, hrest]

/-! ## Expressions -/

/-- The names that are qualified by `reg.`. -/
def variableNames (model : FsmIr) : List String := model.vars.map (·.name)

/-- The names that are qualified by `in.`. -/
def inPortNames (model : FsmIr) : List String := (model.ports.filter (·.isIn)).map (·.name)

/-- What a word of an expression is replaced by. -/
def qualifiedWord (model : FsmIr) (w : List Char) : List Char :=
  scopeWord "in." (inPortNames model) (scopeWord "reg." (variableNames model) w)

/-- The names of variables and in-ports are identifiers other than `reg`, `in` and `true`. -/
def PlainNames (model : FsmIr) : Prop := ∀ n ∈ variableNames model ++ inPortNames model, PlainName n

/-- A text of words, operators, brackets and blanks in which every name that is declared is found. -/
structure Qualifiable (model : FsmIr) (text : String) : Prop where
  spaced : ∀ n ∈ variableNames model ++ inPortNames model, Spaced n.toList (wordsOf text.toList)
  event : EventFree (wordsOf text.toList)
  chars : ∀ c ∈ text.toList, joins c = true ∨ isSymbol c = true ∨ (delimiter c).isSome = true

theorem isScope_reg : IsScope "reg." := ⟨Or.inl rfl⟩

theorem isScope_in : IsScope "in." := ⟨Or.inr rfl⟩

theorem keepsWords_qualifiedWord (model : FsmIr) : KeepsWords (qualifiedWord model) := fun w hw =>
  keepsWords_scopeWord isScope_in.joins _ _ (keepsWords_scopeWord isScope_reg.joins _ w hw)

theorem EventFree.scope {scope : String} (hscope : IsScope scope) (names : List String) {words : List (List Char)}
    (h : EventFree words) : EventFree (words.map (scopeWord scope names)) := by
  intro w hw name hname hprefix
  obtain ⟨u, hu, rfl⟩ := List.mem_map.mp hw
  unfold scopeWord at hprefix
  split at hprefix
  · have hnames : ∀ name ∈ eventNames, (∀ c ∈ name, c ≠ '.') ∧ name ≠ "reg".toList ∧ name ≠ "in".toList := by
      decide +kernel
    obtain ⟨hdot, hreg, hin⟩ := hnames name hname
    rcases hscope.scope_eq with rfl | rfl
    · exact hreg (before_dot_eq hdot (by decide +kernel) hprefix)
    · exact hin (before_dot_eq hdot (by decide +kernel) hprefix)
  · exact h u hu name hname hprefix

theorem qualifyExpression_eq {model : FsmIr} (hnames : PlainNames model) {text : String}
    (h : Qualifiable model text) :
    qualifyExpression text model = String.ofList (mapWords (qualifiedWord model) text.toList) := by
  have hvars : ∀ n ∈ variableNames model, PlainName n := fun n hn => hnames n (List.mem_append_left _ hn)
  have hports : ∀ n ∈ inPortNames model, PlainName n := fun n hn => hnames n (List.mem_append_right _ hn)
  have hregisters : model.vars.foldl (fun text v => qualifyName "reg." v.name text) text.toList =
      mapWords (scopeWord "reg." (variableNames model)) text.toList := by
    rw [← foldl_qualifyName isScope_reg hvars fun n hn => h.spaced n (List.mem_append_left _ hn)]
    exact (List.foldl_map (f := fun v : VariableDefinition => v.name)
      (g := fun text n => qualifyName "reg." n text)).symm
  have hboth : (model.ports.filter (·.isIn)).foldl (fun text p => qualifyName "in." p.name text)
      (mapWords (scopeWord "reg." (variableNames model)) text.toList) =
        mapWords (qualifiedWord model) text.toList := by
    have hspaced : ∀ n ∈ inPortNames model,
        Spaced n.toList (wordsOf (mapWords (scopeWord "reg." (variableNames model)) text.toList)) := fun n hn =>
      (h.spaced n (List.mem_append_right _ hn)).scope isScope_reg _ (hports n hn)
    have hall := foldl_qualifyName isScope_in hports hspaced
    rw [mapWords_mapWords (keepsWords_scopeWord isScope_reg.joins _)] at hall
    rw [show mapWords (qualifiedWord model) text.toList = _ from hall.symm]
    exact (List.foldl_map (f := fun p : PortDefinition => p.name)
      (g := fun text n => qualifyName "in." n text)).symm
  have hfree : EventFree (wordsOf (mapWords (qualifiedWord model) text.toList)) := by
    have hmap : (wordsOf text.toList).map (qualifiedWord model) =
        ((wordsOf text.toList).map (scopeWord "reg." (variableNames model))).map
          (scopeWord "in." (inPortNames model)) := List.map_map.symm
    rw [wordsOf_mapWords (keepsWords_qualifiedWord model), hmap]
    exact (h.event.scope isScope_reg _).scope isScope_in _
  have hevent : ∀ n, replaceEvent n true (mapWords (qualifiedWord model) text.toList) =
      mapWords (qualifiedWord model) text.toList := by
    intro n
    have hchunks := chunked_chunks (mapWords (qualifiedWord model) text.toList)
    have hall := replaceEvent_eq n true hchunks (fun _ => hfree _ List.mem_cons_self)
      fun w hw => hfree w (List.mem_cons_of_mem _ hw)
    rw [spell_chunks] at hall
    exact hall
  unfold qualifyExpression
  dsimp only
  rw [hregisters, hboth, hevent]

/-! ## Tokens -/

/-- A token with its word renamed. -/
def renameTok (f : List Char → List Char) : Tok → Tok
  | .word s => .word (String.ofList (f s.toList))
  | t => t

theorem not_isSymbol_of_joins {c : Char} (h : joins c = true) : isSymbol c = false := by
  by_contra hne
  have hsymbols : ∀ c ∈ ['!', '&', '|', '^', '=', '<', '>', '+', '-', '*', '/', '%', ','], joins c = false := by
    decide
  rw [Bool.not_eq_false] at hne
  rw [hsymbols c (of_decide_eq_true hne)] at h
  cases h

theorem delimiter_of_joins {c : Char} (h : joins c = true) : delimiter c = none := by
  by_contra hne
  have hdelimiters : ∀ c ∈ [' ', '\t', '\n', '\x0b', '\x0c', '\r', '(', ')'], joins c = false := by decide
  have hmem : c ∈ [' ', '\t', '\n', '\x0b', '\x0c', '\r', '(', ')'] := by
    unfold delimiter at hne
    split at hne
    · rename_i hspace
      have hcases : c = ' ' ∨ c = '\t' ∨ c = '\n' ∨ c = '\x0b' ∨ c = '\x0c' ∨ c = '\r' := by
        simpa [isSpace, or_assoc] using hspace
      rcases hcases with rfl | rfl | rfl | rfl | rfl | rfl <;> decide
    · split at hne
      · rename_i hopen
        rw [hopen]
        decide
      · split at hne
        · rename_i hclose
          rw [hclose]
          decide
        · exact absurd rfl hne
  rw [hdelimiters c hmem] at h
  cases h

/-- A run of operator characters, or none. -/
def IsOpRun (run : List Char) : Prop := run = [] ∨ ∃ c rest, run = c :: rest ∧ isSymbol c = true

theorem munch_ops (run : List Char) : ∀ t ∈ munch run, ∃ s, t = .op s := by
  induction run using munch.induct with
  | case1 => simp [munch]
  | case2 c => simp [munch]
  | case3 c d cs hmem ih =>
    intro t ht
    rw [munch, if_pos hmem, List.mem_cons] at ht
    rcases ht with rfl | ht
    · exact ⟨_, rfl⟩
    · exact ih t ht
  | case4 c d cs hmem ih =>
    intro t ht
    rw [munch, if_neg hmem, List.mem_cons] at ht
    rcases ht with rfl | ht
    · exact ⟨_, rfl⟩
    · exact ih t ht

theorem map_flush (f : List Char → List Char) {run : List Char} (h : IsOpRun run) :
    (flush run).map (renameTok f) = flush run := by
  rcases h with rfl | ⟨c, rest, rfl, hc⟩
  · rfl
  · unfold flush
    dsimp only
    rw [if_pos hc]
    refine (List.map_congr_left fun t ht => ?_).trans (List.map_id _)
    obtain ⟨s, rfl⟩ := munch_ops _ t ht
    rfl

theorem lexFrom_word {w : List Char} (hne : w ≠ []) (hw : ∀ c ∈ w, joins c = true) {run : List Char}
    (hrun : IsOpRun run) (text : List Char) : lexFrom (w ++ text) run = flush run ++ lexFrom text w := by
  have hgo : ∀ (w : List Char) (a : Char) (acc : List Char), (∀ c ∈ w, joins c = true) → joins a = true →
      lexFrom (w ++ text) (a :: acc) = lexFrom text (a :: acc ++ w) := by
    intro w
    induction w with
    | nil => intro a acc _ _; rw [List.append_nil]; rfl
    | cons c w ih =>
      intro a acc hw ha
      have hc := hw c List.mem_cons_self
      have hon : goesOn (a :: acc) c = true := by
        simp [goesOn, not_isSymbol_of_joins ha, not_isSymbol_of_joins hc]
      rw [List.cons_append, lexFrom_run (delimiter_of_joins hc), if_pos hon, List.cons_append,
        ih a (acc ++ [c]) (fun d hd => hw d (List.mem_cons_of_mem _ hd)) ha]
      simp
  cases w with
  | nil => exact absurd rfl hne
  | cons a w =>
    have ha := hw a List.mem_cons_self
    have hrest := hgo w a [] (fun d hd => hw d (List.mem_cons_of_mem _ hd)) ha
    rw [List.cons_append, lexFrom_run (delimiter_of_joins ha)]
    rcases hrun with rfl | ⟨c, rest, rfl, hc⟩
    · rw [if_pos (show goesOn [] a = true from rfl)]
      exact hrest
    · have hoff : goesOn (c :: rest) a = false := by simp [goesOn, hc, not_isSymbol_of_joins ha]
      rw [if_neg (by simp [hoff]), hrest]
      rfl

theorem lexFrom_behind {w : List Char} (hne : w ≠ []) (hw : ∀ c ∈ w, joins c = true) {pairs : List (Char × List Char)}
    (hseps : ∀ p ∈ pairs, isSymbol p.1 = true ∨ (delimiter p.1).isSome = true) :
    lexFrom (spell pairs) w = .word (String.ofList w) :: lexFrom (spell pairs) [] := by
  obtain ⟨a, rest, rfl⟩ := List.exists_cons_of_ne_nil hne
  have ha := not_isSymbol_of_joins (hw a List.mem_cons_self)
  have hflush : flush (a :: rest) = [.word (String.ofList (a :: rest))] := by
    unfold flush
    simp [ha]
  cases pairs with
  | nil => exact hflush
  | cons p pairs =>
    obtain ⟨c, w'⟩ := p
    rw [spell_cons]
    cases hc : delimiter c with
    | some toks =>
      rw [lexFrom_delimiter hc, lexFrom_delimiter hc, hflush]
      rfl
    | none =>
      have hsymbol : isSymbol c = true := by
        rcases hseps (c, w') List.mem_cons_self with h | h
        · exact h
        · rw [hc] at h
          cases h
      have hoff : goesOn (a :: rest) c = false := by simp [goesOn, ha, hsymbol]
      rw [lexFrom_run hc, lexFrom_run hc, if_neg (by simp [hoff]), if_pos (show goesOn [] c = true from rfl),
        hflush]
      rfl

section

variable {f : List Char → List Char} (hf : KeepsWords f) (hempty : ∀ w, f w = [] ↔ w = [])

/-- The characters between words are those of operators, brackets and blanks. -/
def OpSeps (pairs : List (Char × List Char)) : Prop :=
  ∀ p ∈ pairs, isSymbol p.1 = true ∨ (delimiter p.1).isSome = true

/-- With other words, the tokens are those with these words. -/
def Renamed (f : List Char → List Char) (pairs : List (Char × List Char)) : Prop :=
  ∀ run, IsOpRun run → lexFrom (spell (pairs.map fun p => (p.1, f p.2))) run =
    (lexFrom (spell pairs) run).map (renameTok f)

include hf hempty

theorem Renamed.first {w : List Char} {pairs : List (Char × List Char)} (h : Renamed f pairs)
    (hchunked : Chunked w pairs) (hseps : OpSeps pairs) {run : List Char} (hrun : IsOpRun run) :
    lexFrom (f w ++ spell (pairs.map fun p => (p.1, f p.2))) run =
      (lexFrom (w ++ spell pairs) run).map (renameTok f) := by
  by_cases hw : w = []
  · rw [hw, (hempty []).mpr rfl]
    exact h run hrun
  · have hfw : f w ≠ [] := fun hnil => hw ((hempty w).mp hnil)
    have hseps' : OpSeps (pairs.map fun p => (p.1, f p.2)) := by
      intro p hp
      obtain ⟨q, hq, rfl⟩ := List.mem_map.mp hp
      exact hseps q hq
    rw [lexFrom_word hfw (hf w hchunked.first) hrun, lexFrom_behind hfw (hf w hchunked.first) hseps',
      lexFrom_word hw hchunked.first hrun, lexFrom_behind hw hchunked.first hseps, List.map_append,
      map_flush f hrun, List.map_cons, h [] (Or.inl rfl), renameTok, String.toList_ofList]

theorem renamed_of_opSeps : ∀ {w : List Char} {pairs : List (Char × List Char)}, Chunked w pairs →
    OpSeps pairs → Renamed f pairs
  | _, [], _, _ => fun run hrun => (map_flush f hrun).symm
  | _, (c, w') :: pairs, hchunked, hseps => by
    have htail : OpSeps pairs := fun p hp => hseps p (List.mem_cons_of_mem _ hp)
    have hrest := renamed_of_opSeps hchunked.tail htail
    intro run hrun
    rw [List.map_cons, spell_cons, spell_cons]
    cases hc : delimiter c with
    | some toks =>
      have htoks : toks.map (renameTok f) = toks := by
        unfold delimiter at hc
        split at hc
        · cases hc
          rfl
        · split at hc
          · cases hc
            rfl
          · split at hc
            · cases hc
              rfl
            · cases hc
      rw [lexFrom_delimiter hc, lexFrom_delimiter hc, hrest.first hf hempty hchunked.tail htail (Or.inl rfl),
        List.map_append, List.map_append, map_flush f hrun, htoks]
    | none =>
      have hsymbol : isSymbol c = true := by
        rcases hseps (c, w') List.mem_cons_self with h | h
        · exact h
        · rw [hc] at h
          cases h
      have hon : goesOn run c = true := by
        rcases hrun with rfl | ⟨d, rest, rfl, hd⟩
        · rfl
        · simp [goesOn, hd, hsymbol]
      have hrun' : IsOpRun (run ++ [c]) := by
        rcases hrun with rfl | ⟨d, rest, rfl, hd⟩
        · exact Or.inr ⟨c, [], rfl, hsymbol⟩
        · exact Or.inr ⟨d, rest ++ [c], rfl, hd⟩
      rw [lexFrom_run hc, lexFrom_run hc, if_pos hon, if_pos hon]
      exact hrest.first hf hempty hchunked.tail htail hrun'

theorem lex_mapWords {text : List Char}
    (hchars : ∀ c ∈ text, joins c = true ∨ isSymbol c = true ∨ (delimiter c).isSome = true) :
    lexFrom (mapWords f text) [] = (lexFrom text []).map (renameTok f) := by
  have hchunks := chunked_chunks text
  have hsplit := spell_chunks text
  have hseps : OpSeps (chunks text).2 := by
    intro p hp
    have hmem : p.1 ∈ text := by
      rw [← hsplit]
      exact List.mem_append_right _ (List.mem_flatMap.mpr ⟨p, hp, List.mem_cons_self⟩)
    refine (hchars p.1 hmem).resolve_left ?_
    rw [hchunks.seps p hp]
    exact Bool.false_ne_true
  have hall := (renamed_of_opSeps hf hempty hchunks hseps).first hf hempty hchunks hseps (Or.inl rfl)
  rw [hsplit] at hall
  exact hall

end

/-! ## What the text means -/

/-- An expression with its words and calls renamed. -/
def renameExpr (q : String → String) : Expr → Expr
  | .word s => .word (q s)
  | .call f none => .call (q f) none
  | .call f (some e) => .call (q f) (some (renameExpr q e))
  | .unary op e => .unary op (renameExpr q e)
  | .binary op l r => .binary op (renameExpr q l) (renameExpr q r)

/-- What words and calls mean by their new names. -/
def renameMeaning (q : String → String) (M : Frontend.PrintedGuards.Meaning) : Frontend.PrintedGuards.Meaning :=
  { M with
    word := fun s => M.word (q s)
    call := fun f arg => M.call (q f) arg }

theorem eval_renameExpr (L : Lang) (q : String → String) (M : Frontend.PrintedGuards.Meaning) :
    ∀ e : Expr, eval L M (renameExpr q e) = eval L (renameMeaning q M) e
  | .word s => by rw [renameExpr, eval, eval]; rfl
  | .call f none => by rw [renameExpr, eval, eval]; rfl
  | .call f (some e) => by rw [renameExpr, eval, eval, eval_renameExpr L q M e]; rfl
  | .unary op e => by rw [renameExpr, eval, eval, eval_renameExpr L q M e]; rfl
  | .binary op l r => by
    rw [renameExpr, eval, eval, eval_renameExpr L q M l, eval_renameExpr L q M r]
    rfl

theorem exists_of_map_renameTok {f : List Char → List Char} {ts r : List Tok} {t : Tok} (ht : ∀ w, t ≠ .word w)
    (h : ts.map (renameTok f) = t :: r) : ∃ r', ts = t :: r' := by
  obtain ⟨u, r', rfl, hu, -⟩ := List.map_eq_cons_iff.mp h
  cases u with
  | word w => exact absurd hu.symm (ht _)
  | _ => exact ⟨r', by rw [← hu]; rfl⟩

theorem Reads.rename {L : Lang} (f : List Char → List Char) {q : String → String}
    (hq : ∀ s, q s = String.ofList (f s.toList)) {m : Option Expr} {n : ℕ} {ts r : List Tok} {e : Expr}
    (h : Reads L m n ts e r) :
    Reads L (m.map (renameExpr q)) n (ts.map (renameTok f)) (renameExpr q e) (r.map (renameTok f)) := by
  have hword : ∀ w, renameTok f (.word w) = .word (q w) := fun w => by rw [renameTok, hq]
  induction h with
  | word hr =>
    rw [List.map_cons, hword]
    refine .word fun r' hopen => ?_
    obtain ⟨r'', hr'⟩ := exists_of_map_renameTok (fun w => Tok.noConfusion) hopen
    exact hr r'' hr'
  | call₀ =>
    rw [List.map_cons, hword]
    exact .call₀
  | call hts he ih =>
    rw [List.map_cons, hword]
    refine .call (fun r' hclose => ?_) ih
    obtain ⟨r'', hr'⟩ := exists_of_map_renameTok (fun w => Tok.noConfusion) hclose
    exact hts r'' hr'
  | bracket he ih => exact .bracket ih
  | operand hts he ih =>
    refine .operand (fun s r' hop => ?_) ih
    obtain ⟨r'', hr'⟩ := exists_of_map_renameTok (fun w => Tok.noConfusion) hop
    exact hts s r'' hr'
  | prefixed hs he ih => exact .prefixed hs ih
  | chain hn he hrest ih ih' => exact .chain hn ih ih'
  | stop hr =>
    refine .stop fun s r' hop => ?_
    obtain ⟨r'', hr'⟩ := exists_of_map_renameTok (fun w => Tok.noConfusion) hop
    exact hr s r'' hr'
  | more hs he hrest ih ih' => exact .more hs ih ih'

/-- The name that a word of an expression is replaced by. -/
def qualifiedName (model : FsmIr) (name : String) : String := String.ofList (qualifiedWord model name.toList)

theorem scopeWord_eq_nil {scope : String} {names : List String}
    (hnames : ∀ n ∈ names, PlainName n) (w : List Char) : scopeWord scope names w = [] ↔ w = [] := by
  unfold scopeWord
  split
  · rename_i hmem
    have hw : w ≠ [] := by
      have hname := (hnames _ hmem).isName.1
      rwa [String.toList_ofList] at hname
    simp [hw]
  · exact Iff.rfl

theorem qualifiedWord_eq_nil {model : FsmIr} (hnames : PlainNames model) (w : List Char) :
    qualifiedWord model w = [] ↔ w = [] :=
  (scopeWord_eq_nil (fun n hn => hnames n (List.mem_append_right _ hn)) _).trans
    (scopeWord_eq_nil (fun n hn => hnames n (List.mem_append_left _ hn)) w)

theorem textHolds_qualifyExpression {model : FsmIr} (hnames : PlainNames model) {text : String}
    (h : Qualifiable model text) {e : Expr} (he : ReadsAs .cpp 1 text e) (M : Frontend.PrintedGuards.Meaning) :
    textHolds .cpp M (qualifyExpression text model) =
      textHolds .cpp (renameMeaning (qualifiedName model) M) text := by
  have hread : ReadsAs .cpp 1 (qualifyExpression text model) (renameExpr (qualifiedName model) e) := by
    unfold ReadsAs lex
    rw [qualifyExpression_eq hnames h, String.toList_ofList,
      lex_mapWords (keepsWords_qualifiedWord model) (qualifiedWord_eq_nil hnames) h.chars]
    exact Reads.rename (qualifiedWord model) (fun _ => rfl) he
  rw [textHolds_eq hread le_rfl (by decide), textHolds_eq he le_rfl (by decide)]
  unfold truth
  rw [eval_renameExpr]

end Fsmc.Emitter
