/-
# Fsmc.Smv.Lines — the lines of a module, one by one.

Each kind of line that the exporter writes is read in one way: a comment and a declaration change nothing but the
data, the enumeration of the states gives the states, and a transition without a comment behind it is one statement
that leaves nothing for the next line.
-/
import Fsmc.Smv.Reading
import Fsmc.Smv.Text

namespace Fsmc.Smv.Parser

open Fsmc.Ir Fsmc.Cpp Fsmc.Frontend.GuardNames
open Fsmc.Frontend.LtlParser (trim)

variable (directive : List Char → Draft → Draft)

/-! ## What a line leaves as it is -/

/-- A machine that differs in its data and its name only. -/
def OnlyData (d d' : Draft) : Prop :=
  ∃ name vars booleans signals,
    d' = { d with name := name, vars := vars, booleans := booleans, signals := signals }

namespace OnlyData

theorem refl (d : Draft) : OnlyData d d := ⟨d.name, d.vars, d.booleans, d.signals, rfl⟩

theorem trans {d₁ d₂ d₃ : Draft} (h : OnlyData d₁ d₂) (h' : OnlyData d₂ d₃) : OnlyData d₁ d₃ := by
  obtain ⟨_, _, _, _, rfl⟩ := h
  obtain ⟨name, vars, booleans, signals, rfl⟩ := h'
  exact ⟨name, vars, booleans, signals, rfl⟩

end OnlyData

theorem onlyData_parseEnumEvents (line : List Char) (d : Draft) : OnlyData d (parseEnumEvents line d) := by
  unfold parseEnumEvents
  generalize List.filter _ _ = names
  induction names generalizing d with
  | nil => exact OnlyData.refl d
  | cons n names ih => exact OnlyData.trans ⟨d.name, d.vars, d.booleans, _, rfl⟩ (ih (d.addEvent n))

theorem onlyData_addVariable (d : Draft) (var : VariableDefinition) (boolean : Bool) :
    OnlyData d (d.addVariable var boolean) := ⟨d.name, _, _, d.signals, rfl⟩

theorem onlyData_parseVariableDecl (line : List Char) (d : Draft) : OnlyData d (parseVariableDecl line d) := by
  unfold parseVariableDecl
  split
  · dsimp only
    split
    · exact OnlyData.refl d
    · split
      · exact onlyData_addVariable d _ _
      · split <;> exact onlyData_addVariable d _ _
  · exact OnlyData.refl d

theorem onlyData_parseInit {line : List Char} (h : starts line "init(state)" = false) (d : Draft) :
    OnlyData d (parseInit line d) := by
  unfold parseInit
  split
  · exact OnlyData.refl d
  · rw [h, if_neg Bool.false_ne_true]
    split
    · exact ⟨d.name, _, d.booleans, d.signals, rfl⟩
    · exact OnlyData.refl d

theorem onlyData_readModuleName (trimmed : List Char) (d : Draft) : OnlyData d (readModuleName trimmed d) := by
  unfold readModuleName
  dsimp only
  split
  · exact ⟨_, d.vars, d.booleans, d.signals, rfl⟩
  · exact OnlyData.refl d

/-- A reader that has read data only. -/
structure Keeps (r r' : Reader) : Prop where
  currentSection : r'.currentSection = r.currentSection
  caseAccumulator : r'.caseAccumulator = r.caseAccumulator
  model : OnlyData r.model r'.model

namespace Keeps

theorem refl (r : Reader) : Keeps r r := ⟨rfl, rfl, OnlyData.refl r.model⟩

theorem trans {r₁ r₂ r₃ : Reader} (h : Keeps r₁ r₂) (h' : Keeps r₂ r₃) : Keeps r₁ r₃ :=
  ⟨h'.currentSection.trans h.currentSection, h'.caseAccumulator.trans h.caseAccumulator, h.model.trans h'.model⟩

theorem foldl {currentSection : Section} {lines : List (List Char)}
    (h : ∀ l ∈ lines, ∀ r : Reader, r.currentSection = currentSection → Keeps r (readLine directive r l)) :
    ∀ {r : Reader}, r.currentSection = currentSection → Keeps r (lines.foldl (readLine directive) r) := by
  induction lines with
  | nil => exact fun _ => refl _
  | cons l lines ih =>
    intro r hr
    have hfirst := h l List.mem_cons_self r hr
    exact hfirst.trans (ih (fun l' hl' => h l' (List.mem_cons_of_mem _ hl')) (hfirst.currentSection.trans hr))

end Keeps

/-! ## Which branch reads a line -/

section Branches

variable {directive} {r : Reader} {line t : List Char}

theorem readLine_comment (htrim : trim line = t) (hcomment : starts t "--" = true)
    (hname : starts t "-- nuXmv / SMV Formal Model:" = false) (hdirective : contains t "@fsm:" = false) :
    readLine directive r line = r := by
  have hne : t ≠ [] := by
    rintro rfl
    exact Bool.noConfusion hcomment
  have hmodule : starts t "MODULE" = false := by
    obtain ⟨rest, rfl⟩ := starts_iff.mp hcomment
    rfl
  unfold readLine
  dsimp only
  rw [htrim, if_neg hne, hname, if_neg Bool.false_ne_true, hmodule, if_neg Bool.false_ne_true, if_pos hcomment]
  unfold readComment
  rw [hdirective, if_neg Bool.false_ne_true]

theorem readLine_inSection (htrim : trim line = t) (hcolon : ':' ∈ t) (hdash : t.head? ≠ some '-')
    (hmodule : starts t "MODULE" = false) (hnext : contains t "next(state)" = false)
    (hltl : starts t "LTLSPEC" = false) (hinvar : starts t "INVARSPEC" = false) :
    readLine directive r line = readInSection r t := by
  have hne : t ≠ [] := List.ne_nil_of_mem hcolon
  have hcomment : ∀ p ∈ ["-- nuXmv / SMV Formal Model:", "--"], starts t p = false := fun p hp => by
    refine starts_eq_false (c := '-') ?_ hdash
    revert p
    decide
  have hother : ∀ word : List Char, ':' ∉ word → t ≠ word := by
    rintro word hword rfl
    exact hword hcolon
  unfold readLine
  dsimp only
  rw [htrim, if_neg hne, hcomment _ List.mem_cons_self, if_neg Bool.false_ne_true, hmodule, if_neg Bool.false_ne_true,
    hcomment _ (List.mem_cons_of_mem _ List.mem_cons_self), if_neg Bool.false_ne_true,
    if_neg (hother _ (by decide)), if_neg (hother _ (by decide)), hnext, if_neg (fun h => Bool.noConfusion h.1),
    if_neg (not_or.mpr ⟨hother _ (by decide), hother _ (by decide)⟩), hltl, if_neg Bool.false_ne_true, hinvar,
    if_neg Bool.false_ne_true]

theorem readLine_module (htrim : trim line = t) (hmodule : starts t "MODULE" = true) :
    Keeps r (readLine directive r line) := by
  have hne : t ≠ [] := by
    rintro rfl
    exact Bool.noConfusion hmodule
  have hname : starts t "-- nuXmv / SMV Formal Model:" = false := by
    obtain ⟨rest, rfl⟩ := starts_iff.mp hmodule
    rfl
  unfold readLine
  dsimp only
  rw [htrim, if_neg hne, hname, if_neg Bool.false_ne_true, if_pos hmodule]
  exact ⟨rfl, rfl, onlyData_readModuleName t r.model⟩

end Branches

/-! ## Declarations -/

theorem trim_terminated (before : List Char) {body : List Char} (hb : ∀ c ∈ before, isBlank c = true) (hne : body ≠ [])
    (hbody : ∀ c ∈ body.head?, isBlank c = false) (after : List Char) :
    ∃ rest, rest <+: after ∧ trim (before ++ body ++ ';' :: after) = body ++ ';' :: rest := by
  refine ⟨after.rdropWhile isBlank, List.rdropWhile_prefix _ _, ?_⟩
  have hdrop : (before ++ body ++ ';' :: after).dropWhile isBlank = body ++ ';' :: after := by
    rw [List.append_assoc, List.dropWhile_append_of_pos hb]
    cases body with
    | nil => exact absurd rfl hne
    | cons c body => exact List.dropWhile_cons_of_neg (by simp [hbody c rfl])
  show ((before ++ body ++ ';' :: after).dropWhile isBlank).rdropWhile isBlank = _
  rw [hdrop, rdropWhile_append_cons (by decide)]

theorem eq_of_prefix_append {p q a b : List Char} {c : Char} (hp : c ∉ p) (ha : c ∉ a)
    (h : p ++ c :: q <+: a ++ c :: b) : p = a := by
  obtain ⟨s, h⟩ := h
  have htake := congrArg (List.takeWhile (· ≠ c)) h
  have hfirst : ∀ {l r : List Char}, c ∉ l → (l ++ c :: r).takeWhile (· ≠ c) = l := by
    intro l r hl
    rw [List.takeWhile_append_of_pos]
    · simp
    · intro d hd
      have hne : d ≠ c := fun heq => hl (heq ▸ hd)
      simpa using hne
  rwa [List.append_assoc, List.cons_append, hfirst hp, hfirst ha] at htake

theorem parseEnumStates_of_notMem {line : List Char} (h : '{' ∉ line) (d : Draft) : parseEnumStates line d = d := by
  have hnone : braced line = none := by
    unfold braced
    dsimp only
    rw [List.idxOf_eq_length h, if_neg (by omega)]
  unfold parseEnumStates
  rw [hnone]
  rfl

/-- A declared name, its type and what follows the semicolon. -/
structure Declared where
  name : List Char
  type : List Char
  after : List Char

def Declared.text (decl : Declared) : List Char :=
  [' ', ' '] ++ (decl.name ++ [' ', ':', ' '] ++ decl.type) ++ ';' :: decl.after

/-- A declaration that gives a variable and nothing else. -/
structure Declared.Harmless (decl : Declared) : Prop where
  nonempty : decl.name ≠ []
  word : ∀ c ∈ decl.name, isIdentChar c = true
  type : ∀ c ∈ ['\n', '(', '{'], c ∉ decl.type
  keyword : ∀ p ∈ ["LTLSPEC", "INVARSPEC"], ¬ p.toList <+: decl.name
  newline : '\n' ∉ decl.after
  nextState : contains decl.after "next(state)" = false
  state : decl.name = "state".toList → '{' ∉ decl.after

namespace Declared.Harmless

variable {decl : Declared}

theorem newline_notMem (h : decl.Harmless) : '\n' ∉ decl.text := by
  have hname : '\n' ∉ decl.name := fun hmem => absurd (h.word _ hmem) (by decide)
  have htype := h.type '\n' (by decide)
  have hafter := h.newline
  unfold Declared.text
  simp [hname, htype, hafter]

theorem keeps (h : decl.Harmless) {r : Reader} (hr : r.currentSection = .var) :
    Keeps r (readLine directive r decl.text) := by
  have hblank : ∀ c, isIdentChar c = true → isBlank c = false := fun c hc =>
    (tight_of_word (by simpa using hc : ∀ d ∈ [c], isIdentChar d = true)).1 c rfl
  have hhead : ∀ c ∈ (decl.name ++ [' ', ':', ' '] ++ decl.type).head?, isIdentChar c = true := by
    intro c hc
    rw [List.append_assoc, List.head?_append_of_ne_nil _ h.nonempty] at hc
    exact h.word c (List.mem_of_mem_head? hc)
  obtain ⟨rest, hrest, htrim⟩ := trim_terminated [' ', ' '] (by simp [isBlank])
    (by simp : decl.name ++ [' ', ':', ' '] ++ decl.type ≠ []) (fun c hc => hblank c (hhead c hc)) decl.after
  have hsplit : decl.name ++ [' ', ':', ' '] ++ decl.type ++ ';' :: rest =
      decl.name ++ ' ' :: (':' :: ' ' :: decl.type ++ ';' :: rest) := by simp
  by_cases hmodule : starts (decl.name ++ [' ', ':', ' '] ++ decl.type ++ ';' :: rest) "MODULE" = true
  · exact readLine_module htrim hmodule
  have hkeyword : ∀ p ∈ ["LTLSPEC", "INVARSPEC"],
      starts (decl.name ++ [' ', ':', ' '] ++ decl.type ++ ';' :: rest) p = false := by
    intro p hp
    have hspace : ' ' ∉ p.toList := by
      revert p
      decide
    rw [Bool.eq_false_iff, Ne, starts_iff, hsplit]
    exact fun hstart => h.keyword p hp (prefix_of_prefix_append hstart hspace)
  have hnext : contains (decl.name ++ [' ', ':', ' '] ++ decl.type ++ ';' :: rest) "next(state)" = false := by
    rw [Bool.eq_false_iff, Ne, contains_iff]
    intro hocc
    rcases infix_split (by decide) hocc with hocc | hocc
    · have hmem : '(' ∈ decl.name ++ [' ', ':', ' '] ++ decl.type := hocc.subset (by decide)
      simp only [List.mem_append] at hmem
      rcases hmem with (hmem | hmem) | hmem
      · exact absurd (h.word _ hmem) (by decide)
      · exact absurd hmem (by decide)
      · exact h.type '(' (by decide) hmem
    · exact absurd (contains_iff.mpr (hocc.trans hrest.isInfix)) (by rw [h.nextState]; exact Bool.false_ne_true)
  have hdash : (decl.name ++ [' ', ':', ' '] ++ decl.type ++ ';' :: rest).head? ≠ some '-' := by
    intro hdash
    rw [List.head?_append_of_ne_nil _ (by simp)] at hdash
    exact absurd (hhead _ hdash) (by decide)
  rw [Declared.text, readLine_inSection htrim (by simp) hdash (Bool.eq_false_iff.mpr hmodule) hnext
    (hkeyword _ (by decide)) (hkeyword _ (by decide))]
  unfold readInSection
  rw [hr]
  dsimp only
  split
  · rename_i hstate
    have hname : decl.name = "state".toList := by
      rcases hstate with hstate | hstate
      · rw [starts_iff, hsplit] at hstate
        refine (eq_of_prefix_append (p := "state".toList) (q := [':']) (c := ' ') (by decide) ?_ hstate).symm
        exact fun hmem => absurd (h.word _ hmem) (by decide)
      · rw [starts_iff, hsplit] at hstate
        have hstart := prefix_of_prefix_append hstate (by decide)
        exact absurd (h.word ':' (hstart.subset (by decide))) (by decide)
    have hbrace : '{' ∉ decl.name ++ [' ', ':', ' '] ++ decl.type ++ ';' :: rest := by
      have hno : '{' ∉ decl.name := fun hmem => absurd (h.word _ hmem) (by decide)
      have htype := h.type '{' (by decide)
      have hrest' : '{' ∉ rest := fun hmem => h.state hname (hrest.subset hmem)
      simp [hno, htype, hrest']
    rw [parseEnumStates_of_notMem hbrace]
    exact ⟨hr.symm, rfl, OnlyData.refl r.model⟩
  · split
    · exact ⟨hr.symm, rfl, onlyData_parseEnumEvents _ r.model⟩
    · exact ⟨hr.symm, rfl, onlyData_parseVariableDecl _ r.model⟩

end Declared.Harmless

/-! ## Enumerations -/

/-- The names of an enumeration, of which there is one at least. -/
def enumContent (first : String) (rest : List String) : List Char :=
  first.toList ++ (rest.map String.toList).flatMap ([',', ' '] ++ ·)

/-- The line of an enumeration. -/
def enumText (label : List Char) (first : String) (rest : List String) : List Char :=
  [' ', ' '] ++ (label ++ " : \x7b".toList ++ enumContent first rest ++ "\x7d".toList) ++ [';']

section Enumerations

variable {first : String} {rest : List String} (h : ∀ name ∈ first :: rest, ∀ c ∈ name.toList, isIdentChar c = true)

include h in
theorem mem_enumContent {c : Char} (hc : c ∈ enumContent first rest) : isIdentChar c = true ∨ c = ',' ∨ c = ' ' := by
  rcases List.mem_append.mp hc with hc | hc
  · exact Or.inl (h first List.mem_cons_self c hc)
  · obtain ⟨l, hl, hc⟩ := List.mem_flatMap.mp hc
    obtain ⟨name, hname, rfl⟩ := List.mem_map.mp hl
    rcases List.mem_append.mp hc with hc | hc
    · exact Or.inr (by simpa using hc)
    · exact Or.inl (h name (List.mem_cons_of_mem _ hname) c hc)

include h in
theorem notMem_enumContent {c : Char} (hc : (isIdentChar c || c = ',' || c = ' ') = false) :
    c ∉ enumContent first rest := by
  intro hmem
  rcases mem_enumContent h hmem with hident | rfl | rfl
  · simp [hident] at hc
  all_goals exact absurd hc (by decide)

theorem listed_enumContent (h : ∀ name ∈ first :: rest, KeptName name) :
    listed (enumContent first rest) = first :: rest := by
  have hcomma : ∀ name ∈ first :: rest, ',' ∉ name.toList := fun name hname hmem =>
    absurd (isIdentChar_of_isIdentifier (h name hname).1 _ hmem) (by decide)
  have hne : ∀ name ∈ first :: rest, name ≠ "" := fun name hname => (h name hname).ne_empty
  have hrestComma : ∀ l ∈ rest.map String.toList, ',' ∉ l := by
    simpa using fun name hname => hcomma name (List.mem_cons_of_mem _ hname)
  have hpieces : ∀ l ∈ first.toList :: rest.map String.toList, l ≠ [] := by
    simpa using ⟨hne first List.mem_cons_self, fun name hname => hne name (List.mem_cons_of_mem _ hname)⟩
  have hlines := getlines_intercalate (hcomma first List.mem_cons_self) hrestComma hpieces (by decide)
  have hrest : ((rest.map String.toList).map (' ' :: ·)).map identOf = rest := by
    rw [List.map_map, List.map_map]
    refine (List.map_congr_left fun name hname => ?_).trans (List.map_id rest)
    have hident := identOf_padded (h name (List.mem_cons_of_mem _ hname)) [' '] [] (by simp [isBlank]) (by simp)
    rwa [List.append_nil] at hident
  unfold listed
  rw [enumContent, hlines, List.map_cons, hrest, identOf_kept (h first List.mem_cons_self)]
  exact List.filter_eq_self.mpr fun name hname => by simpa using (h name hname).ne_empty

variable {label : List Char}

include h in
theorem braced_enum (hlabel : '{' ∉ label ∧ '}' ∉ label) :
    braced (label ++ " : \x7b".toList ++ enumContent first rest ++ "\x7d".toList ++ [';']) =
      some (enumContent first rest) := by
  have hopen : '{' ∉ enumContent first rest := notMem_enumContent h (by decide)
  have hclose : '}' ∉ enumContent first rest := notMem_enumContent h (by decide)
  have hsplit : label ++ " : \x7b".toList ++ enumContent first rest ++ "\x7d".toList ++ [';'] =
      (label ++ " : ".toList) ++ '{' :: (enumContent first rest ++ '}' :: [';']) := by
    simp only [List.append_assoc]
    rfl
  have hopenIdx : ((label ++ " : ".toList) ++ '{' :: (enumContent first rest ++ '}' :: [';'])).idxOf '{' =
      (label ++ " : ".toList).length := by
    rw [List.idxOf_append_of_notMem, List.idxOf_cons_self, Nat.add_zero]
    exact fun hmem => (List.mem_append.mp hmem).elim hlabel.1 (by decide)
  have hcloseIdx : ((label ++ " : ".toList) ++ '{' :: (enumContent first rest ++ '}' :: [';'])).idxOf '}' =
      (label ++ " : ".toList).length + (enumContent first rest).length + 1 := by
    rw [List.idxOf_append_of_notMem, List.idxOf_cons_ne _ (by decide), List.idxOf_append_of_notMem hclose,
      List.idxOf_cons_self]
    · omega
    · exact fun hmem => (List.mem_append.mp hmem).elim hlabel.2 (by decide)
  rw [hsplit]
  unfold braced
  dsimp only
  rw [hopenIdx, hcloseIdx, if_pos]
  · congr 1
    rw [List.append_cons, List.append_assoc, ← List.append_assoc]
    have hlength : ((label ++ " : ".toList) ++ ['{'] ++ enumContent first rest).length =
        (label ++ " : ".toList).length + (enumContent first rest).length + 1 := by
      simp only [List.length_append, List.length_singleton]
      omega
    rw [← List.append_assoc, ← hlength, List.take_left', List.drop_left']
    · simp
    · rfl
  · simp only [List.length_append, List.length_cons]
    omega

include h in
theorem readLine_enum {r : Reader} (hlabel : label = "state".toList ∨ label = "event".toList) :
    readLine directive r (enumText label first rest) =
      readInSection r (label ++ " : \x7b".toList ++ enumContent first rest ++ "\x7d".toList ++ [';']) := by
  have hchars : '(' ∉ label := by rcases hlabel with rfl | rfl <;> decide
  have hhead : (label ++ " : \x7b".toList ++ enumContent first rest ++ "\x7d".toList ++ [';']).head? = some 's' ∨
      (label ++ " : \x7b".toList ++ enumContent first rest ++ "\x7d".toList ++ [';']).head? = some 'e' := by
    rcases hlabel with rfl | rfl
    · exact Or.inl rfl
    · exact Or.inr rfl
  have hstart : ∀ {p : String} {c : Char}, p.toList.head? = some c → c ≠ 's' → c ≠ 'e' →
      starts (label ++ " : \x7b".toList ++ enumContent first rest ++ "\x7d".toList ++ [';']) p = false := by
    intro p c hp hs he
    refine starts_eq_false hp ?_
    rcases hhead with hhead | hhead
    · rw [hhead]
      exact fun heq => hs (Option.some.inj heq).symm
    · rw [hhead]
      exact fun heq => he (Option.some.inj heq).symm
  have hblank : ∀ c ∈ (label ++ " : \x7b".toList ++ enumContent first rest ++ "\x7d".toList).head?, isBlank c = false := by
    intro c hc
    rcases hlabel with rfl | rfl
    · cases hc
      decide
    · cases hc
      decide
  obtain ⟨rest', hrest, htrim⟩ := trim_terminated [' ', ' '] (by simp [isBlank]) (by simp) hblank []
  rw [List.prefix_nil.mp hrest] at htrim
  have hparen : '(' ∉ label ++ " : \x7b".toList ++ enumContent first rest ++ "\x7d".toList ++ [';'] := by
    have hcontent : '(' ∉ enumContent first rest := notMem_enumContent h (by decide)
    simp only [List.mem_append, not_or]
    exact ⟨⟨⟨⟨hchars, by decide⟩, hcontent⟩, by decide⟩, by decide⟩
  have hcolon : ':' ∈ label ++ " : \x7b".toList ++ enumContent first rest ++ "\x7d".toList ++ [';'] := by
    simp only [List.mem_append]
    exact Or.inl (Or.inl (Or.inl (Or.inr (by decide))))
  have hdash : (label ++ " : \x7b".toList ++ enumContent first rest ++ "\x7d".toList ++ [';']).head? ≠ some '-' := by
    rcases hhead with hhead | hhead <;> (rw [hhead]; decide)
  exact readLine_inSection htrim hcolon hdash (hstart rfl (by decide) (by decide))
    (contains_eq_false (c := '(') (by decide) hparen) (hstart rfl (by decide) (by decide))
    (hstart rfl (by decide) (by decide))

theorem readLine_states (h : ∀ name ∈ first :: rest, KeptName name) {r : Reader} (hr : r.currentSection = .var) :
    readLine directive r (enumText "state".toList first rest) =
      { r with model := (first :: rest).foldl Draft.addState r.model } := by
  have hstarts : starts ("state".toList ++ " : \x7b".toList ++ enumContent first rest ++ "\x7d".toList ++ [';']) "state :" =
      true := rfl
  have hword : ∀ name ∈ first :: rest, ∀ c ∈ name.toList, isIdentChar c = true := fun name hname =>
    isIdentChar_of_isIdentifier (h name hname).1
  rw [readLine_enum directive hword (Or.inl rfl)]
  unfold readInSection
  rw [hr]
  dsimp only
  rw [if_pos (Or.inl hstarts)]
  unfold parseEnumStates
  rw [braced_enum hword (by decide), Option.map_some, Option.getD_some, listed_enumContent h]

include h in
theorem keeps_events {r : Reader} (hr : r.currentSection = .var) :
    Keeps r (readLine directive r (enumText "event".toList first rest)) := by
  have hstate : ¬ (
      starts ("event".toList ++ " : \x7b".toList ++ enumContent first rest ++ "\x7d".toList ++ [';']) "state :" = true ∨
      starts ("event".toList ++ " : \x7b".toList ++ enumContent first rest ++ "\x7d".toList ++ [';']) "state:" = true) := by
    rintro (h | h) <;> exact Bool.noConfusion h
  have hevent : starts ("event".toList ++ " : \x7b".toList ++ enumContent first rest ++ "\x7d".toList ++ [';']) "event :" =
      true := rfl
  rw [readLine_enum directive h (Or.inr rfl)]
  unfold readInSection
  rw [hr]
  dsimp only
  rw [if_neg hstate, if_pos (Or.inl hevent)]
  exact ⟨hr.symm, rfl, onlyData_parseEnumEvents _ r.model⟩

end Enumerations

/-! ## Initial values -/

/-- The line of an initial value. -/
def initText (name value : List Char) : List Char := "  init(".toList ++ name ++ ") := ".toList ++ value ++ [';']

theorem readLine_init {r : Reader} (hr : r.currentSection = .assignInit) {name value : List Char}
    (hname : ∀ c ∈ name, isIdentChar c = true) (hnext : contains value "next(state)" = false) :
    readLine directive r (initText name value) =
      { r with model := parseInit ("init(".toList ++ name ++ ") := ".toList ++ value ++ [';']) r.model } := by
  have hne : "init(".toList ++ name ++ ") := ".toList ++ value ≠ [] := List.cons_ne_nil _ _
  obtain ⟨rest, hrest, htrim⟩ := trim_terminated [' ', ' '] (by simp [isBlank]) hne (fun c hc => by cases hc; decide) []
  rw [List.prefix_nil.mp hrest] at htrim
  have htext : initText name value = [' ', ' '] ++ ("init(".toList ++ name ++ ") := ".toList ++ value) ++ ';' :: [] :=
    rfl
  have hcolon : ':' ∈ "init(".toList ++ name ++ ") := ".toList ++ value ++ [';'] := by
    simp only [List.mem_append]
    exact Or.inl (Or.inl (Or.inr (by decide)))
  have hno : contains ("init(".toList ++ name ++ ") := ".toList ++ value ++ [';']) "next(state)" = false := by
    rw [Bool.eq_false_iff, Ne, contains_iff]
    intro hocc
    have hsplit : "init(".toList ++ name ++ ") := ".toList ++ value ++ [';'] =
        ("init".toList ++ '(' :: (name ++ ") :=".toList)) ++ ' ' :: (value ++ ';' :: []) := by
      rw [List.append_assoc, List.append_assoc, List.append_assoc, List.append_assoc]
      show _ = ("init".toList ++ '(' :: (name ++ ") :=".toList)) ++ ' ' :: (value ++ ';' :: [])
      rw [List.append_assoc, List.cons_append, List.append_assoc]
      rfl
    rw [hsplit] at hocc
    rcases infix_split (by decide) hocc with hocc | hocc
    · have hopen : '(' ∉ name ++ ") :=".toList := fun hmem => (List.mem_append.mp hmem).elim
        (fun hmem => absurd (hname _ hmem) (by decide)) (by decide)
      have hsuffix := suffix_of_infix (p := "next".toList) (q := "state)".toList) (by decide) (by decide) hopen hocc
      exact absurd hsuffix (by decide)
    · rcases infix_split (by decide) hocc with hocc | hocc
      · exact absurd (contains_iff.mpr hocc) (by rw [hnext]; exact Bool.false_ne_true)
      · exact absurd (hocc.subset (by decide : '(' ∈ "next(state)".toList)) List.not_mem_nil
  have hdash : ("init(".toList ++ name ++ ") := ".toList ++ value ++ [';']).head? ≠ some '-' := by
    show some 'i' ≠ some '-'
    decide
  rw [htext, readLine_inSection htrim hcolon hdash rfl hno rfl rfl]
  unfold readInSection
  rw [hr]

theorem keeps_init {r : Reader} (hr : r.currentSection = .assignInit) {name value : List Char}
    (hname : ∀ c ∈ name, isIdentChar c = true) (hstate : name ≠ "state".toList)
    (hnext : contains value "next(state)" = false) : Keeps r (readLine directive r (initText name value)) := by
  have hstarts : starts ("init(".toList ++ name ++ ") := ".toList ++ value ++ [';']) "init(state)" = false := by
    rw [Bool.eq_false_iff, Ne, starts_iff]
    intro hstart
    have hcancel : "state".toList ++ ')' :: [] <+: name ++ ')' :: (" := ".toList ++ value ++ [';']) := by
      rw [List.append_assoc, List.append_assoc, List.append_assoc] at hstart
      exact (List.prefix_append_right_inj "init(".toList).mp hstart
    refine hstate (eq_of_prefix_append (c := ')') (by decide) ?_ hcancel).symm
    exact fun hmem => absurd (hname _ hmem) (by decide)
  rw [readLine_init directive hr hname hnext]
  exact ⟨rfl, rfl, onlyData_parseInit hstarts r.model⟩

theorem readLine_initialState {r : Reader} (hr : r.currentSection = .assignInit) {A : String} (hA : KeptName A) :
    readLine directive r (initText "state".toList A.toList) =
      { r with model := { r.model with initialState := A } } := by
  have hno : '(' ∉ A.toList := fun hmem => absurd (isIdentChar_of_isIdentifier hA.1 _ hmem) (by decide)
  rw [readLine_init directive hr (by decide) (contains_eq_false (c := '(') (by decide) hno)]
  have hfind : findSub ":=".toList ("init(".toList ++ "state".toList ++ ") := ".toList ++ A.toList ++ [';']) =
      some 12 := by
    have hcolon : ∀ c ∈ "init(state) ".toList, c ∉ ":=".toList.head? := by decide
    exact findSub_append (by decide) hcolon
  have htight : Tight (A.toList ++ [';']) := by
    have happend := hA.tight.append (b := [';']) (by simp [Tight, isBlank]) (toList_ne_nil_of_isIdentifier hA.1)
      (by simp) []
    rwa [List.append_nil] at happend
  have hassigned : assigned ("init(".toList ++ "state".toList ++ ") := ".toList ++ A.toList ++ [';']) 12 =
      A.toList := by
    have htrim : trim ([' '] ++ (A.toList ++ [';']) ++ []) = A.toList ++ [';'] :=
      trim_padded [' '] [] (by simp [isBlank]) (by simp) htight
    rw [List.append_nil] at htrim
    show trim (withoutSemicolon (trim ([' '] ++ (A.toList ++ [';'])))) = A.toList
    rw [htrim, withoutSemicolon, List.getLast?_concat, if_pos rfl, List.dropLast_concat, trim_tight hA.tight]
  have hstarts : starts ("init(".toList ++ "state".toList ++ ") := ".toList ++ A.toList ++ [';']) "init(state)" =
      true := rfl
  unfold parseInit
  rw [hfind]
  dsimp only
  rw [hstarts, if_pos rfl, hassigned, String.ofList_toList, hA.2]

/-! ## Transitions -/

theorem drain_statement {body : List Char} (hsemi : ';' ∉ body) (htight : Tight (body ++ [';'])) (d : Draft) :
    drain ((body ++ [';']).length + 1) (body ++ [';']) d =
      ([], if contains (body ++ [';']) "TRUE :" ∨ contains (body ++ [';']) "TRUE:" then d
        else parseTransitionCase (body ++ [';']) d) := by
  have hidx : (body ++ [';']).idxOf ';' = body.length := by
    rw [List.idxOf_append_of_notMem hsemi]
    simp
  have hlength : (body ++ [';']).length = body.length + 1 := by simp
  have htake : (body ++ [';']).take (body.length + 1) = body ++ [';'] := List.take_of_length_le hlength.le
  have hdrop : (body ++ [';']).drop (body.length + 1) = [] := List.drop_of_length_le hlength.le
  rw [drain, if_pos (by simp), hidx, htake, hdrop, trim_tight htight, hlength, drain, trim_blank (by simp),
    if_neg List.not_mem_nil]

theorem readLine_statement {r : Reader} (hr : r.currentSection = .assignNextState) (hacc : r.caseAccumulator = [])
    {src tgt : String} {ev : Option String} {guard : Option PrintedGuard} (hsrc : KeptName src) (htgt : KeptName tgt)
    (hev : ∀ e ∈ ev, KeptName e ∧ e ≠ "none") (hguard : ∀ g ∈ guard, g.Legible (ev = none))
    (h : Undisturbed src ev guard) :
    readLine directive r ("    ".toList ++ statementText src ev guard tgt) =
      { r with
        model := addTransitionFrom tgt (ev.getD "") (String.ofList ((guard.map (·.core)).getD [])) "" r.model src } := by
  have hkept : ∀ e ∈ ev, KeptName e := fun e he => (hev e he).1
  have hbody : statementText src ev guard tgt =
      conditionText src ev guard ++ [' ', ':', ' '] ++ tgt.toList ++ [';'] := by simp [statementText]
  have hsemi : ';' ∉ conditionText src ev guard ++ [' ', ':', ' '] ++ tgt.toList := by
    have hcond := statement_semicolon hsrc hkept h ';' (by decide)
    have hname : ';' ∉ tgt.toList := fun hmem => absurd (isIdentChar_of_isIdentifier htgt.1 _ hmem) (by decide)
    simp [hcond, hname]
  have htight : Tight (statementText src ev guard tgt) := by
    rw [hbody]
    have happend := (tight_conditionText hsrc hev hguard).append (b := [';']) (by simp [Tight, isBlank])
      (List.cons_ne_nil _ _) (by simp) ([' ', ':', ' '] ++ tgt.toList)
    rwa [← List.append_assoc] at happend
  have htrim : trim ("    ".toList ++ statementText src ev guard tgt) = statementText src ev guard tgt := by
    have hpadded := trim_padded "    ".toList [] (by decide) (by simp) htight
    rwa [List.append_nil] at hpadded
  have hhead : (statementText src ev guard tgt).head? = some 's' := rfl
  have hstart : ∀ {p : String} {c : Char}, p.toList.head? = some c → c ≠ 's' →
      starts (statementText src ev guard tgt) p = false := fun hp hc =>
    starts_eq_false hp (by rw [hhead]; exact fun heq => hc (Option.some.inj heq).symm)
  have htruth := statement_truth hsrc htgt hkept h
  have hcase := parseTransitionCase_statement hsrc htgt hev hguard (statement_comment hsrc htgt hkept h) r.model
  have hdrain := drain_statement hsemi (hbody ▸ htight) r.model
  rw [← hbody, hcase, htruth _ (by decide), htruth _ (by decide), if_neg (by simp)] at hdrain
  rw [readLine_inSection htrim (by simp [statementText]) (by rw [hhead]; decide) (hstart rfl (by decide))
    (statement_nextState hsrc htgt hkept h) (hstart rfl (by decide)) (hstart rfl (by decide))]
  unfold readInSection
  rw [hr]
  dsimp only
  rw [if_pos hacc, hdrain, hacc]

theorem readLine_stay {r : Reader} (hr : r.currentSection = .assignNextState) (hacc : r.caseAccumulator = []) :
    readLine directive r "    TRUE : state;".toList = r := by
  have hdrain : drain ("TRUE : state;".toList.length + 1) "TRUE : state;".toList r.model = ([], r.model) :=
    drain_statement (by decide : ';' ∉ "TRUE : state".toList) (by simp [Tight, isBlank]) r.model
  have hread : readLine directive r "    TRUE : state;".toList = readInSection r "TRUE : state;".toList :=
    readLine_inSection rfl (by decide) (by decide) rfl rfl rfl rfl
  rw [hread]
  unfold readInSection
  rw [hr]
  dsimp only
  rw [if_pos hacc, hdrain]
  obtain ⟨currentSection, caseAccumulator, model⟩ := r
  cases hr
  cases hacc
  rfl

/-! ## The lines around -/

theorem readLine_var (r : Reader) : readLine directive r "VAR".toList = { r with currentSection := .var } := rfl

theorem readLine_assign (r : Reader) :
    readLine directive r "ASSIGN".toList = { r with currentSection := .assignInit } := rfl

theorem readLine_next (r : Reader) :
    readLine directive r "  next(state) := case".toList = { r with currentSection := .assignNextState } := rfl

theorem readLine_esac (r : Reader) : readLine directive r "  esac;".toList = { r with currentSection := .none } := rfl

end Fsmc.Smv.Parser
