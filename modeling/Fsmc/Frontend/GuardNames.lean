/-
# Fsmc.Frontend.GuardNames — the names of guards.

An atomic guard is known by a name that is made from its text, and the first text that is registered
under a name stays. What the name does not show is laid down as rules on the pieces of a text: two texts
have one name exactly when the rules lead from one to the other.
-/
import Fsmc.Ir.GraphOps
import Mathlib.Data.List.DropRight
import Mathlib.Logic.Relation

namespace Fsmc.Frontend.GuardNames

open Fsmc.Ir

/-! ## Making a name -/

/-- What a turn of the loop of `sanitize_identifier` reads. -/
inductive Piece where
  | letter (c : Char)
  | gap
  | operator (spelling : List Char)
  deriving DecidableEq

/-- The characters that are kept. -/
def isWordChar (c : Char) : Bool :=
  ('a' ≤ c && c ≤ 'z') || ('A' ≤ c && c ≤ 'Z') || ('0' ≤ c && c ≤ '9') || c = '_'

/-- The branches of the loop; other characters are dropped. -/
def pieces : List Char → List Piece
  | [] => []
  | '<' :: '=' :: rest => .operator ['l', 't', 'e'] :: pieces rest
  | '<' :: rest => .operator ['l', 't'] :: pieces rest
  | '>' :: '=' :: rest => .operator ['g', 't', 'e'] :: pieces rest
  | '>' :: rest => .operator ['g', 't'] :: pieces rest
  | '=' :: '=' :: rest => .operator ['e', 'q'] :: pieces rest
  | '!' :: '=' :: rest => .operator ['n', 'e', 'q'] :: pieces rest
  | c :: rest =>
    if isWordChar c then .letter c :: pieces rest
    else if c = ' ' || c = '-' || c = '.' then .gap :: pieces rest
    -- brackets, arithmetic operators, commas, and `=` or `!` by themselves
    else pieces rest

/-- What the branches append to the result. -/
def push (result : List Char) : Piece → List Char
  | .letter c => result ++ [c]
  | .gap => if result.isEmpty || result.getLast? ≠ some '_' then result ++ ['_'] else result
  | .operator spelling =>
    (if !result.isEmpty && result.getLast? ≠ some '_' then result ++ ['_'] else result) ++ spelling ++ ['_']

/-- Underscores at the end are removed, but not the first character, and a digit is not left first. -/
def finish : List Char → List Char
  | [] => []
  | c :: rest =>
    if '0' ≤ c && c ≤ '9' then '_' :: c :: rest.rdropWhile (· = '_') else c :: rest.rdropWhile (· = '_')

def sanitizeIdentifier (str : String) : String := String.ofList (finish ((pieces str.toList).foldl push []))

/-! ## What follows a result -/

/-- What the pieces add to a result that ends with a character, or to an empty one. -/
def spellFrom : Option Char → List Piece → List Char
  | _, [] => []
  | _, .letter c :: ps => c :: spellFrom (some c) ps
  | prev, .gap :: ps => if prev = some '_' then spellFrom prev ps else '_' :: spellFrom (some '_') ps
  | prev, .operator spelling :: ps =>
    (if prev = none ∨ prev = some '_' then [] else ['_']) ++ spelling ++ '_' :: spellFrom (some '_') ps

theorem foldl_push (ps : List Piece) : ∀ result : List Char,
    ps.foldl push result = result ++ spellFrom result.getLast? ps := by
  induction ps with
  | nil => exact fun result => (List.append_nil result).symm
  | cons p ps ih =>
    intro result
    rw [List.foldl_cons, ih]
    cases p with
    | letter c => simp [push, spellFrom]
    | gap =>
      by_cases hlast : result.getLast? = some '_'
      · have hne : result.isEmpty = false := by
          cases result with
          | nil => cases hlast
          | cons c result => rfl
        simp [push, spellFrom, hlast, hne]
      · simp [push, spellFrom, hlast]
    | operator spelling =>
      have hpush : push result (.operator spelling) = result ++
          ((if result.getLast? = none ∨ result.getLast? = some '_' then [] else ['_']) ++ spelling) ++
            ['_'] := by
        cases result using List.reverseRecOn with
        | nil => simp [push]
        | append_singleton result c =>
          by_cases hc : c = '_'
          · simp [push, hc]
          · simp [push, hc]
      rw [hpush, List.getLast?_concat]
      simp [spellFrom]

theorem sanitizeIdentifier_eq (str : String) :
    sanitizeIdentifier str = String.ofList (finish (spellFrom none (pieces str.toList))) := by
  unfold sanitizeIdentifier
  rw [foldl_push]
  rfl

/-- The character that the next piece follows. -/
def lastOf (prev : Option Char) (spelled : List Char) : Option Char := spelled.getLast?.or prev

theorem lastOf_append (prev : Option Char) (l r : List Char) : lastOf prev (l ++ r) = lastOf (lastOf prev l) r := by
  unfold lastOf
  rw [List.getLast?_append]
  cases r.getLast? <;> rfl

theorem spellFrom_append (ps qs : List Piece) : ∀ prev : Option Char,
    spellFrom prev (ps ++ qs) = spellFrom prev ps ++ spellFrom (lastOf prev (spellFrom prev ps)) qs := by
  induction ps with
  | nil => exact fun prev => rfl
  | cons p ps ih =>
    intro prev
    cases p with
    | letter c =>
      have hlast : lastOf prev (c :: spellFrom (some c) ps) = lastOf (some c) (spellFrom (some c) ps) :=
        lastOf_append prev [c] _
      simp only [List.cons_append, spellFrom, ih, hlast]
    | gap =>
      simp only [List.cons_append, spellFrom, ih]
      split
      · rfl
      · have hlast : lastOf prev ('_' :: spellFrom (some '_') ps) =
            lastOf (some '_') (spellFrom (some '_') ps) := lastOf_append prev ['_'] _
        rw [hlast, List.cons_append]
    | operator spelling =>
      simp only [List.cons_append, spellFrom, ih]
      have hlast : ∀ l : List Char, lastOf prev (l ++ '_' :: spellFrom (some '_') ps) =
          lastOf (some '_') (spellFrom (some '_') ps) := by
        intro l
        rw [lastOf_append]
        exact lastOf_append _ ['_'] _
      rw [hlast]
      simp only [List.append_assoc, List.cons_append]

/-! ## What a name does not show -/

def letters (text : List Char) : List Piece := text.map .letter

/-- Pieces after which a gap is not seen. -/
def Piece.blank : Piece → Bool
  | letter c => c = '_'
  | gap => true
  | operator _ => true

/-- The last piece is one of these. -/
def EndsBlank (ps : List Piece) : Prop := ∃ p ∈ ps.getLast?, p.blank = true

/-- One step between texts that get one name. -/
inductive Rewrites : List Piece → List Piece → Prop
  | firstOperator {w : List Char} {r : List Piece} :
      Rewrites (.operator w :: r) (letters w ++ .letter '_' :: r)
  | operator {l r : List Piece} {w : List Char} :
      l ≠ [] → Rewrites (l ++ .operator w :: r) (l ++ .gap :: letters w ++ .letter '_' :: r)
  | blankGap {l r : List Piece} : EndsBlank l → Rewrites (l ++ .gap :: r) (l ++ r)
  | gap {l r : List Piece} : ¬EndsBlank l → Rewrites (l ++ .gap :: r) (l ++ .letter '_' :: r)
  | trailing {l : List Piece} : l ≠ [] → Rewrites (l ++ [.letter '_']) l
  | digit {d : Char} {r : List Piece} :
      ('0' ≤ d && d ≤ '9') = true → Rewrites (.letter d :: r) (.letter '_' :: .letter d :: r)

/-- Texts between which the steps lead, forwards and backwards. -/
def Alike (ps qs : List Piece) : Prop := Relation.EqvGen Rewrites ps qs

def nameOf (ps : List Piece) : List Char := finish (spellFrom none ps)

theorem spellFrom_letters (text : List Char) : ∀ prev, spellFrom prev (letters text) = text := by
  induction text with
  | nil => exact fun _ => rfl
  | cons c text ih => exact fun prev => congrArg (c :: ·) (ih (some c))

theorem spellFrom_ne_nil {ps : List Piece} (h : ps ≠ []) : spellFrom none ps ≠ [] := by
  cases ps with
  | nil => exact absurd rfl h
  | cons p ps => cases p <;> simp [spellFrom]

theorem lastOf_ne_none {ps : List Piece} (h : ps ≠ []) : lastOf none (spellFrom none ps) ≠ none := by
  unfold lastOf
  rw [Option.or_none]
  exact fun hnone => spellFrom_ne_nil h (List.getLast?_eq_none_iff.mp hnone)

theorem lastOf_eq_iff {ps : List Piece} : lastOf none (spellFrom none ps) = some '_' ↔ EndsBlank ps := by
  cases ps using List.reverseRecOn with
  | nil => simp [lastOf, spellFrom, EndsBlank]
  | append_singleton ps p =>
    rw [spellFrom_append, lastOf_append]
    have hends : EndsBlank (ps ++ [p]) ↔ p.blank = true := by simp [EndsBlank]
    rw [hends]
    generalize lastOf none (spellFrom none ps) = prev
    cases p with
    | letter c => simp [spellFrom, lastOf, Piece.blank]
    | gap =>
      by_cases hprev : prev = some '_'
      · simp [spellFrom, lastOf, Piece.blank, hprev]
      · simp [spellFrom, lastOf, Piece.blank, hprev]
    | operator spelling =>
      have hlast : spellFrom prev [.operator spelling] =
          ((if prev = none ∨ prev = some '_' then [] else ['_']) ++ spelling) ++ ['_'] := by
        simp [spellFrom]
      rw [hlast, lastOf_append]
      simp [lastOf, Piece.blank]

theorem finish_append_underscore {text : List Char} (h : text ≠ []) : finish (text ++ ['_']) = finish text := by
  cases text with
  | nil => exact absurd rfl h
  | cons c text =>
    have htrim : (text ++ ['_']).rdropWhile (· = '_') = text.rdropWhile (· = '_') :=
      List.rdropWhile_concat_pos _ _ _ (by decide)
    show (if _ then _ :: _ :: (text ++ ['_']).rdropWhile _ else _ :: (text ++ ['_']).rdropWhile _) = _
    rw [htrim]
    rfl

theorem rdropWhile_cons_of_ne {c : Char} (hc : c ≠ '_') (text : List Char) :
    (c :: text).rdropWhile (· = '_') = c :: text.rdropWhile (· = '_') := by
  induction text using List.reverseRecOn with
  | nil => simp [List.rdropWhile, hc]
  | append_singleton text d ih =>
    by_cases hd : d = '_'
    · subst hd
      rw [← List.cons_append, List.rdropWhile_concat_pos _ _ _ (by decide),
        List.rdropWhile_concat_pos _ _ _ (by decide), ih]
    · rw [← List.cons_append, List.rdropWhile_concat_neg _ _ _ (by simpa using hd),
        List.rdropWhile_concat_neg _ _ _ (by simpa using hd), List.cons_append]

variable {ps qs : List Piece} {guardName : String} {done : List Atom}

theorem Rewrites.nameOf_eq (h : Rewrites ps qs) : nameOf ps = nameOf qs := by
  unfold nameOf
  cases h with
  | @firstOperator w r =>
    congr 1
    rw [spellFrom_append, spellFrom_letters]
    simp [spellFrom]
  | @operator l r w hl =>
    congr 1
    have hne := lastOf_ne_none hl
    rw [spellFrom_append, List.append_assoc, spellFrom_append l]
    congr 1
    generalize lastOf none (spellFrom none l) = prev at hne
    rw [List.cons_append]
    by_cases hprev : prev = some '_'
    · simp [spellFrom, spellFrom_append, spellFrom_letters, hprev]
    · simp [spellFrom, spellFrom_append, spellFrom_letters, hprev, hne]
  | @blankGap l r hl =>
    congr 1
    rw [spellFrom_append, spellFrom_append, lastOf_eq_iff.mpr hl]
    simp [spellFrom]
  | @gap l r hl =>
    congr 1
    -- A separator that is not dropped spells an underscore, as the letter would.
    have hprev : ¬lastOf none (spellFrom none l) = some '_' := fun h => hl (lastOf_eq_iff.mp h)
    rw [spellFrom_append, spellFrom_append]
    simp [spellFrom, hprev]
  | trailing hl =>
    rw [spellFrom_append]
    exact finish_append_underscore (spellFrom_ne_nil hl)
  | @digit d r hd =>
    have hne : d ≠ '_' := by
      rintro rfl
      exact absurd hd (by decide)
    show finish (d :: spellFrom (some d) r) = finish ('_' :: d :: spellFrom (some d) r)
    rw [finish, finish, if_pos hd, if_neg (by decide), rdropWhile_cons_of_ne hne]

theorem Alike.nameOf_eq (h : Alike ps qs) : nameOf ps = nameOf qs := by
  induction h with
  | rel _ _ h => exact h.nameOf_eq
  | refl => rfl
  | symm _ _ _ ih => exact ih.symm
  | trans _ _ _ _ _ ih ih' => exact ih.trans ih'

theorem Alike.trans {ps qs rs : List Piece} (h : Alike ps qs) (h' : Alike qs rs) : Alike ps rs :=
  Relation.EqvGen.trans _ _ _ h h'

theorem Rewrites.alike (h : Rewrites ps qs) : Alike ps qs := .rel _ _ h

theorem alike_gap (l r : List Piece) :
    Alike (l ++ .gap :: r) (l ++ letters (spellFrom (lastOf none (spellFrom none l)) [.gap]) ++ r) := by
  by_cases hends : EndsBlank l
  · have hnone : spellFrom (lastOf none (spellFrom none l)) [.gap] = [] := by
      rw [lastOf_eq_iff.mpr hends]
      rfl
    rw [hnone]
    simpa [letters] using (Rewrites.blankGap (r := r) hends).alike
  · have hone : spellFrom (lastOf none (spellFrom none l)) [.gap] = ['_'] := by
      have hprev : ¬lastOf none (spellFrom none l) = some '_' := fun h => hends (lastOf_eq_iff.mp h)
      simp [spellFrom, hprev]
    rw [hone]
    simpa [letters] using (Rewrites.gap (r := r) hends).alike

theorem alike_letters (ps : List Piece) : ∀ text : List Char,
    Alike (letters text ++ ps) (letters (text ++ spellFrom text.getLast? ps)) := by
  have hlast : ∀ text : List Char, lastOf none (spellFrom none (letters text)) = text.getLast? := by
    intro text
    rw [spellFrom_letters]
    exact Option.or_none
  have hmore : ∀ text more : List Char, letters text ++ letters more = letters (text ++ more) :=
    fun text more => (List.map_append).symm
  induction ps with
  | nil =>
    intro text
    rw [List.append_nil, show spellFrom text.getLast? [] = [] from rfl, List.append_nil]
    exact .refl _
  | cons p ps ih =>
    intro text
    cases p with
    | letter c =>
      have h := ih (text ++ [c])
      rw [← hmore, List.append_assoc, List.append_assoc, List.getLast?_concat] at h
      exact h
    | gap =>
      have h := alike_gap (letters text) ps
      rw [hlast, hmore] at h
      refine Alike.trans h ?_
      have hnext := ih (text ++ spellFrom text.getLast? [.gap])
      have hsplit : text ++ spellFrom text.getLast? (.gap :: ps) =
          text ++ spellFrom text.getLast? [.gap] ++
            spellFrom (text ++ spellFrom text.getLast? [.gap]).getLast? ps := by
        rw [List.append_assoc]
        congr 1
        rw [show Piece.gap :: ps = [.gap] ++ ps from rfl, spellFrom_append]
        congr 2
        unfold lastOf
        rw [List.getLast?_append]
      rw [hsplit]
      exact hnext
    | operator w =>
      by_cases htext : text = []
      · subst htext
        have hnext := ih (w ++ ['_'])
        rw [List.getLast?_concat, ← hmore, List.append_assoc] at hnext
        refine (Rewrites.firstOperator (w := w) (r := ps)).alike.trans ?_
        simpa [letters, spellFrom] using hnext
      · have hne : letters text ≠ [] := fun h => htext (List.map_eq_nil_iff.mp h)
        refine (Rewrites.operator (r := ps) (w := w) hne).alike.trans ?_
        have hgap := alike_gap (letters text) (letters w ++ .letter '_' :: ps)
        rw [hlast, hmore] at hgap
        have hlastNe : text.getLast? ≠ none := fun h => htext (List.getLast?_eq_none_iff.mp h)
        have hnext := ih (text ++ spellFrom text.getLast? [.gap] ++ (w ++ ['_']))
        have hspelled : text ++ spellFrom text.getLast? (.operator w :: ps) =
            text ++ spellFrom text.getLast? [.gap] ++ (w ++ ['_']) ++ spellFrom (some '_') ps := by
          by_cases hprev : text.getLast? = some '_'
          · simp [spellFrom, hprev]
          · simp [spellFrom, hprev, hlastNe]
        rw [← List.append_assoc, List.getLast?_concat, List.append_assoc (_ ++ _) w] at hnext
        rw [hspelled]
        rw [List.append_assoc, List.cons_append]
        refine Alike.trans hgap ?_
        rw [← hmore _ (w ++ ['_']), List.append_assoc] at hnext
        simpa [letters] using hnext

theorem alike_finish (text : List Char) : Alike (letters text) (letters (finish text)) := by
  cases text with
  | nil => exact .refl _
  | cons c text =>
    have htrim : Alike (letters (c :: text)) (letters (c :: text.rdropWhile (· = '_'))) := by
      induction text using List.reverseRecOn with
      | nil => exact .refl _
      | append_singleton text d ih =>
        by_cases hd : d = '_'
        · subst hd
          rw [List.rdropWhile_concat_pos _ _ _ (by decide)]
          have hstep : Rewrites (letters (c :: text) ++ [.letter '_']) (letters (c :: text)) :=
            .trailing (by simp [letters])
          refine Alike.trans ?_ ih
          simpa [letters] using hstep.alike
        · rw [List.rdropWhile_concat_neg _ _ _ (by simpa using hd)]
          exact .refl _
    rw [finish]
    split
    · next hdigit => exact htrim.trans (Rewrites.digit hdigit).alike
    · exact htrim

theorem alike_nameOf (ps : List Piece) : Alike ps (letters (nameOf ps)) := by
  have h := alike_letters ps []
  exact Alike.trans h (alike_finish _)

/-- Two texts get one name exactly when the steps lead from one to the other. -/
theorem sanitizeIdentifier_eq_iff {a b : String} :
    sanitizeIdentifier a = sanitizeIdentifier b ↔ Alike (pieces a.toList) (pieces b.toList) := by
  rw [sanitizeIdentifier_eq, sanitizeIdentifier_eq, String.ofList_inj]
  constructor
  · intro h
    have hnames : nameOf (pieces a.toList) = nameOf (pieces b.toList) := h
    refine (alike_nameOf _).trans ?_
    rw [hnames]
    exact .symm _ _ (alike_nameOf _)
  · exact Alike.nameOf_eq

/-! ## Registering guards -/

/-- A guard gets the texts that it lacks. -/
def fillGuard (rawExpr expr : Option String) (g : GuardModel) : GuardModel :=
  { g with
    rawExpression := g.rawExpression.or rawExpr
    normalizedExpression := g.normalizedExpression.or expr }

/-- `add_guard`; the description is left out. -/
def addGuard (guards : List GuardModel) (guardName : String) (rawExpr expr : Option String) :
    List GuardModel :=
  if guardName = "" then guards
  else if guards.any fun g => g.name = guardName then
    modifyFirst (fun g => g.name = guardName) (fillGuard rawExpr expr) guards
  else guards ++ [{ name := guardName, rawExpression := rawExpr, normalizedExpression := expr }]

/-- `resolve_leaf`: the text that stands for a guard name. -/
def resolveLeaf (guards : List GuardModel) (name : String) : String :=
  match guards.find? fun gm => gm.name = name with
  | some g =>
    match g.rawExpression with
    | some raw => if raw ≠ "" then raw else name
    | none => name
  | none => name

/-- An atomic guard of a transition: a text that has a name. -/
structure Atom where
  raw : String
  named : sanitizeIdentifier raw ≠ ""

/-- The name of an atomic guard. -/
def Atom.name (a : Atom) : String := sanitizeIdentifier a.raw

theorem Atom.name_ne (a : Atom) : a.name ≠ "" := a.named

/-- The guards of a transition are registered with their texts, and then by their names. -/
def registerGuards (guards : List GuardModel) (atoms : List Atom) : List GuardModel :=
  atoms.foldl (fun gs a => addGuard gs a.name none none)
    (atoms.foldl (fun gs a => addGuard gs a.name (some a.raw) none) guards)

/-- The guards of a model, of which each transition has some. -/
def registerAll (transitions : List (List Atom)) : List GuardModel := transitions.foldl registerGuards []

/-- The text that is kept for a name, if there is a guard of that name. -/
def keptText (guards : List GuardModel) (name : String) : Option (Option String) :=
  (guards.find? fun g => g.name = name).map (·.rawExpression)

theorem find?_modifyFirst_key {α κ : Type*} [DecidableEq κ] {key : α → κ} {f : α → α} {k k' : κ}
    (hf : ∀ a, key (f a) = key a) : ∀ l : List α,
      (modifyFirst (fun a => key a = k) f l).find? (fun a => key a = k') =
        if k' = k then (l.find? fun a => key a = k).map f else l.find? fun a => key a = k'
  | [] => by simp [modifyFirst]
  | a :: l => by
    unfold modifyFirst
    by_cases hk : key a = k
    · by_cases hk' : k' = k
      · simp [hk, hk', hf]
      · have hne : ¬k = k' := fun h => hk' h.symm
        simp [hk, hk', hf, hne]
    · by_cases hk' : key a = k'
      · have hne : ¬k' = k := fun h => hk (hk'.trans h)
        simp [hk', hne]
      · simp [hk, hk', find?_modifyFirst_key hf l]

variable {guards : List GuardModel}

theorem find?_addGuard (hname : guardName ≠ "") (rawExpr expr : Option String) (name : String) :
    (addGuard guards guardName rawExpr expr).find? (fun g => g.name = name) =
      if name = guardName then
        some (match guards.find? fun g => g.name = guardName with
          | some g => fillGuard rawExpr expr g
          | none => ⟨guardName, rawExpr, expr⟩)
      else guards.find? fun g => g.name = name := by
  unfold addGuard
  rw [if_neg hname]
  by_cases hany : (guards.any fun g => g.name = guardName) = true
  · rw [if_pos hany, @find?_modifyFirst_key _ _ _ GuardModel.name (fillGuard rawExpr expr) _ _ fun _ => rfl]
    by_cases heq : name = guardName
    · rw [if_pos heq, if_pos heq]
      cases hfind : guards.find? fun g => g.name = guardName with
      | none =>
        obtain ⟨g, hg, hgname⟩ := List.any_eq_true.mp hany
        exact absurd hgname (List.find?_eq_none.mp hfind g hg)
      | some g => rfl
    · rw [if_neg heq, if_neg heq]
  · rw [if_neg hany, List.find?_append]
    have hnone : (guards.find? fun g => g.name = guardName) = none :=
      List.find?_eq_none.mpr fun g hg hgname => hany (List.any_eq_true.mpr ⟨g, hg, hgname⟩)
    by_cases heq : name = guardName
    · subst heq
      simp [hnone]
    · have hne : ¬guardName = name := fun h => heq h.symm
      simp [heq, hne]

theorem keptText_addGuard (hname : guardName ≠ "") (rawExpr : Option String) (name : String) :
    keptText (addGuard guards guardName rawExpr none) name =
      if name = guardName then
        match keptText guards guardName with
        | some kept => some (kept.or rawExpr)
        | none => some rawExpr
      else keptText guards name := by
  unfold keptText
  rw [find?_addGuard hname]
  split
  · cases guards.find? fun g => g.name = guardName <;> rfl
  · rfl

/-- For each name the text of the first guard is kept. -/
def FirstsKept (guards : List GuardModel) (done : List Atom) : Prop :=
  ∀ name, keptText guards name = (done.find? fun a => a.name = name).map fun a => some a.raw

theorem FirstsKept.addText (h : FirstsKept guards done)
    (a : Atom) : FirstsKept (addGuard guards a.name (some a.raw) none) (done ++ [a]) := by
  intro name
  rw [keptText_addGuard a.name_ne, h, h, List.find?_append]
  by_cases heq : name = a.name
  · subst heq
    cases done.find? fun b => b.name = a.name with
    | none => simp
    | some b => simp
  · have hne : ¬a.name = name := fun h => heq h.symm
    simp [heq, hne]

theorem FirstsKept.addName (h : FirstsKept guards done)
    {a : Atom} (ha : a ∈ done) : FirstsKept (addGuard guards a.name none none) done := by
  intro name
  rw [keptText_addGuard a.name_ne, h, h]
  by_cases heq : name = a.name
  · subst heq
    cases hfind : done.find? fun b => b.name = a.name with
    | none => exact absurd (decide_eq_true rfl) (List.find?_eq_none.mp hfind a ha)
    | some b => simp
  · simp [heq]

theorem FirstsKept.registerGuards (h : FirstsKept guards done) (atoms : List Atom) :
    FirstsKept (registerGuards guards atoms) (done ++ atoms) := by
  have htexts : ∀ (atoms : List Atom) {guards : List GuardModel} {done : List Atom},
      FirstsKept guards done →
        FirstsKept (atoms.foldl (fun gs a => addGuard gs a.name (some a.raw) none) guards) (done ++ atoms) := by
    intro atoms
    induction atoms with
    | nil => exact fun h => by simpa using h
    | cons a atoms ih =>
      intro guards done h
      have hrest := ih (h.addText a)
      rwa [List.append_assoc] at hrest
  have hnames : ∀ (atoms : List Atom) {guards : List GuardModel} {done : List Atom},
      FirstsKept guards done → (∀ a ∈ atoms, a ∈ done) →
        FirstsKept (atoms.foldl (fun gs a => addGuard gs a.name none none) guards) done := by
    intro atoms
    induction atoms with
    | nil => exact fun h _ => h
    | cons a atoms ih =>
      intro guards done h hall
      exact ih (h.addName (hall a List.mem_cons_self)) fun b hb => hall b (List.mem_cons_of_mem _ hb)
  exact hnames atoms (htexts atoms h) fun a ha => List.mem_append_right _ ha

theorem firstsKept_registerAll (transitions : List (List Atom)) :
    FirstsKept (registerAll transitions) transitions.flatten := by
  have hfold : ∀ (transitions : List (List Atom)) {guards : List GuardModel} {done : List Atom},
      FirstsKept guards done →
        FirstsKept (transitions.foldl registerGuards guards) (done ++ transitions.flatten) := by
    intro transitions
    induction transitions with
    | nil => exact fun h => by simpa using h
    | cons atoms transitions ih =>
      intro guards done h
      have hrest := ih (h.registerGuards atoms)
      rwa [List.append_assoc] at hrest
  have hstart : FirstsKept [] [] := fun _ => rfl
  exact hfold transitions hstart

theorem resolveLeaf_registerAll {transitions : List (List Atom)} {a : Atom} (ha : a ∈ transitions.flatten) :
    ∃ b ∈ transitions.flatten, b.name = a.name ∧ resolveLeaf (registerAll transitions) a.name = b.raw := by
  have hkept := firstsKept_registerAll transitions a.name
  cases hfind : transitions.flatten.find? fun b => b.name = a.name with
  | none => exact absurd (decide_eq_true rfl) (List.find?_eq_none.mp hfind a ha)
  | some b =>
    rw [hfind] at hkept
    obtain ⟨g, hg, hraw⟩ := Option.map_eq_some_iff.mp hkept
    have hne : b.raw ≠ "" := fun h => b.named (by rw [h]; rfl)
    refine ⟨b, List.mem_of_find?_eq_some hfind, by simpa using List.find?_some hfind, ?_⟩
    unfold resolveLeaf
    rw [hg]
    dsimp only
    rw [hraw]
    exact if_pos hne

/-! ## Guards with different meanings -/

/-- Guards that mean different things have different names, and a name stands for a text that means what
each guard of that name means. -/
structure KeepsGuards {D : Type*} (denote : String → D → Bool) (transitions : List (List Atom)) : Prop where
  names : ∀ a ∈ transitions.flatten, ∀ b ∈ transitions.flatten,
    denote a.raw ≠ denote b.raw → a.name ≠ b.name
  lookup : ∀ a ∈ transitions.flatten,
    denote (resolveLeaf (registerAll transitions) a.name) = denote a.raw

/-- A comparison of the sum of two variables. -/
def sumGuard : Atom := ⟨"a + b > 5", by decide⟩

/-- The same comparison of their product. -/
def productGuard : Atom := ⟨"a * b > 5", by decide⟩

/-- What the two texts mean. -/
def compares (text : String) (v : ℤ × ℤ) : Bool :=
  if text = "a * b > 5" then 5 < v.1 * v.2 else 5 < v.1 + v.2

end Fsmc.Frontend.GuardNames
