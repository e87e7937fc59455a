/-
# Fsmc.Ir.TargetText — assignment targets as texts.

A target has a scope, a name, a path of members and at most one constant index, which stands behind the members.
A text may have more: the reader cuts it at the first index, whatever stands behind, and drops an index that does
not start with a number.
-/
import Mathlib.Algebra.Ring.Nat
import Fsmc.Cpp.Lines
import Fsmc.Ir.Action

namespace Fsmc.Ir.LValueTarget

open Fsmc.Cpp

/-! ## Reading -/

/-- `std::stoul`, `none` where it throws. -/
def stoul (text : List Char) : Option ℕ :=
  let body := text.dropWhile isSpace
  let digits := (if body.head? = some '-' ∨ body.head? = some '+' then body.tail else body).takeWhile Char.isDigit
  let n := Nat.ofDigitChars 10 digits 0
  if digits = [] ∨ 2 ^ 64 ≤ n then none
  else some (if body.head? = some '-' then (2 ^ 64 - n) % 2 ^ 64 else n)

/-- The constant index that a text between brackets is, if it can be read as a number. -/
def readIndex (text : List Char) : Option UInt32 := (stoul text).map UInt32.ofNat

def scopePrefix : LValueScope → List Char
  | .register => ['r', 'e', 'g', '.']
  | .outPort => ['o', 'u', 't', '.']
  | .local => ['l', 'o', 'c', 'a', 'l', '.']

/-- The scope, and the text behind its prefix. -/
def readScope (text : List Char) : LValueScope × List Char :=
  if scopePrefix .outPort <+: text then (.outPort, text.drop 4)
  else if scopePrefix .register <+: text then (.register, text.drop 4)
  else if scopePrefix .local <+: text then (.local, text.drop 6)
  else (.register, text)

/-- The index, and the text before the first bracket; a bracket that is not closed is no index. -/
def cutIndex (text : List Char) : Option UInt32 × List Char :=
  let bracket := text.dropWhile (· ≠ '[')
  if ']' ∈ bracket then (readIndex (bracket.tail.takeWhile (· ≠ ']')), text.takeWhile (· ≠ '['))
  else (none, text)

/-- The name up to the first dot, and the members behind it; there is no empty member at the end. -/
def readPath (text : List Char) : String × List String :=
  (String.ofList (text.takeWhile (· ≠ '.')),
    (getlines '.' (text.dropWhile (· ≠ '.')).tail []).map String.ofList)

/-- A text without white space around it. -/
def trimmed (text : List Char) : List Char := (text.dropWhile isSpace).rdropWhile isSpace

/-- `parse_from_string`, on a new target. -/
def parseFromString (text : List Char) : LValueTarget :=
  if trimmed text = [] then {}
  else
    let (scope, body) := readScope (trimmed text)
    let (constantIndex, path) := cutIndex body
    { name := (readPath path).1, scope, memberPath := (readPath path).2, constantIndex }

/-- `LValueTarget::scoped_path`. -/
def scopedPath (t : LValueTarget) : String := String.ofList (scopePrefix t.scope) ++ t.fullPath

/-! ## Locations -/

/-- How a location is reached from another one. -/
inductive Selector where
  | member (name : String)
  | element (index : ℤ)
  deriving DecidableEq

structure Location where
  scope : LValueScope
  name : String
  path : List Selector
  deriving DecidableEq

/-- The location that a target denotes. -/
def location (t : LValueTarget) : Location where
  scope := t.scope
  name := t.name
  path := t.memberPath.map .member ++ t.constantIndex.toList.map fun k => .element k.toNat

/-- A name of a variable or member. -/
structure IsWord (name : String) : Prop where
  nonempty : name.toList ≠ []
  chars : ∀ c ∈ name.toList, c ≠ '.' ∧ c ≠ '[' ∧ c ≠ ']' ∧ isSpace c = false

/-- A part of the text of a target behind its name. -/
inductive Accessor where
  | member (name : String)
  | index (text : List Char)
  deriving DecidableEq

/-- How a part is written. -/
def Accessor.text : Accessor → List Char
  | .member name => '.' :: name.toList
  | .index text => '[' :: (text ++ [']'])

/-- The text of a target: members and indices in any order. The name is no prefix of a scope. -/
structure TargetText where
  scope : Option LValueScope
  name : String
  accessors : List Accessor
  nameWord : IsWord name
  members : ∀ member, .member member ∈ accessors → IsWord member
  unscoped : scope = none → ∀ s member, accessors.head? = some (.member member) →
    name.toList ++ ['.'] ≠ scopePrefix s

/-- How it is written. -/
def TargetText.text (txt : TargetText) : List Char :=
  (txt.scope.map scopePrefix).getD [] ++ (txt.name.toList ++ txt.accessors.flatMap Accessor.text)

abbrev Valuation := String → ℤ

/-- What the parts of a text select, given the value of the text of an index. -/
def Accessor.select (value : List Char → ℤ) : Accessor → Selector
  | .member name => .member name
  | .index text => .element (value text)

/-- The location that a text denotes under a valuation. -/
def TargetText.location (txt : TargetText) (value : List Char → ℤ) : Location where
  scope := txt.scope.getD .register
  name := txt.name
  path := txt.accessors.map (Accessor.select value)

/-- Whatever the values of the variables are, the target that is read denotes the location of the text. -/
def SameLocation (value : Valuation → List Char → ℤ) (txt : TargetText) : Prop :=
  ∀ ρ, (parseFromString txt.text).location = txt.location (value ρ)

/-- A target that is read from a text is read again from its own text. -/
def Reparses (text : List Char) : Prop :=
  parseFromString (parseFromString text).scopedPath.toList = parseFromString text

/-- The text has at most one index, which stands behind the members; its value is the same for all values of
the variables, and it is read as that. -/
def Direct (value : Valuation → List Char → ℤ) (txt : TargetText) : Prop :=
  ∃ members : List String, txt.accessors = members.map .member ∨
    ∃ (text : List Char) (k : UInt32), txt.accessors = members.map .member ++ [.index text] ∧
      readIndex (text.takeWhile (· ≠ ']')) = some k ∧ ∀ ρ, value ρ text = k.toNat

/-- A text without a dot at its end. -/
def undot (text : List Char) : List Char := if text.getLast? = some '.' then text.dropLast else text

/-- The text of the name and the members, without a dot at its end. -/
def pathText (text : List Char) : List Char := undot (cutIndex (readScope (trimmed text)).2).2

/-- The name and the members end with no dot, and with no white space unless an index is behind them. -/
def Settled (text : List Char) : Prop :=
  (pathText text).getLast? ≠ some '.' ∧
    ((cutIndex (readScope (trimmed text)).2).1 = none → ∀ c ∈ (pathText text).getLast?, isSpace c = false)

/-! ## Paths -/

/-- The text of a name and members. -/
def joined (path : String × List String) : List Char :=
  path.1.toList ++ path.2.flatMap fun member => '.' :: member.toList

theorem undot_append {a b : List Char} (hb : b ≠ []) : undot (a ++ b) = a ++ undot b := by
  have hlast : (a ++ b).getLast? = b.getLast? := List.getLast?_append_of_ne_nil _ hb
  unfold undot
  rw [hlast]
  split
  · exact List.dropLast_append_of_ne_nil hb
  · rfl

theorem undot_part (text : List Char) : undot text <+: text := by
  unfold undot
  split
  · exact List.dropLast_prefix _
  · exact List.prefix_refl _

theorem flatMap_getlines (rest : List Char) : ∀ {cur : List Char}, '.' ∉ cur →
    (getlines '.' rest cur).flatMap ('.' :: ·) = undot ('.' :: (cur ++ rest)) := by
  induction rest with
  | nil =>
    intro cur hcur
    cases cur with
    | nil => rfl
    | cons c cur =>
      have hlast : ('.' :: c :: cur).getLast? ≠ some '.' := by
        rw [List.getLast?_cons_cons]
        exact fun h => hcur (List.mem_of_getLast? h)
      rw [List.append_nil, undot, if_neg hlast, getlines, if_neg (List.cons_ne_nil _ _)]
      simp
  | cons c rest ih =>
    intro cur hcur
    rw [getlines]
    split
    · next hc =>
        subst hc
        have hsplit : '.' :: (cur ++ '.' :: rest) = ('.' :: cur) ++ '.' :: rest := rfl
        rw [List.flatMap_cons, @ih [] List.not_mem_nil, hsplit, undot_append (List.cons_ne_nil _ _)]
        rfl
    · next hc =>
        have hnext : '.' ∉ cur ++ [c] := by
          rw [List.mem_append, List.mem_singleton]
          exact fun h => h.elim hcur fun heq => hc heq.symm
        rw [ih hnext, List.append_assoc]
        rfl

theorem joined_readPath (text : List Char) : joined (readPath text) = undot text := by
  have hname : '.' ∉ text.takeWhile (· ≠ '.') := fun h => by simpa using List.mem_takeWhile_imp h
  have hmap : ∀ ls : List (List Char), (ls.map String.ofList).flatMap (fun member => '.' :: member.toList) =
      ls.flatMap ('.' :: ·) := by
    intro ls
    rw [List.flatMap_map]
    simp
  unfold joined readPath
  rw [String.toList_ofList, hmap]
  cases hrest : text.dropWhile (· ≠ '.') with
  | nil =>
    have htext : text.takeWhile (· ≠ '.') = text := by
      have := List.takeWhile_append_dropWhile (p := fun c : Char => decide (c ≠ '.')) (l := text)
      rwa [hrest, List.append_nil] at this
    rw [htext] at hname ⊢
    rw [undot, if_neg fun h => hname (List.mem_of_getLast? h)]
    simp [getlines]
  | cons c rest =>
    obtain rfl : c = '.' := by
      have := List.head?_dropWhile_not (fun c : Char => decide (c ≠ '.')) text
      rw [hrest] at this
      simpa using this
    rw [List.tail_cons, flatMap_getlines rest List.not_mem_nil, List.nil_append]
    conv_rhs => rw [← List.takeWhile_append_dropWhile (p := fun c : Char => decide (c ≠ '.')) (l := text), hrest,
      undot_append (List.cons_ne_nil _ _)]

theorem getlines_concat (rest : List Char) : ∀ {cur : List Char}, cur ++ rest ≠ [] → rest.getLast? ≠ some '.' →
    getlines '.' (rest ++ ['.']) cur = getlines '.' rest cur := by
  induction rest with
  | nil =>
    intro cur hne _
    rw [List.append_nil] at hne
    simp [getlines, hne]
  | cons c rest ih =>
    intro cur _ hlast
    have hlast' : rest ≠ [] → rest.getLast? ≠ some '.' := by
      intro hne h
      exact hlast ((List.getLast?_append_of_ne_nil [c] hne).trans h)
    rw [List.cons_append, getlines, getlines]
    split
    · next hc =>
        have hne : rest ≠ [] := by
          rintro rfl
          exact hlast (by rw [hc]; rfl)
        rw [ih (by simpa using hne) (hlast' hne)]
    · cases rest with
      | nil => rw [ih (by simp) (by simp)]
      | cons d rest => exact ih (by simp) (hlast' (List.cons_ne_nil _ _))

theorem readPath_of_notMem {name : List Char} (h : '.' ∉ name) : readPath name = (String.ofList name, []) := by
  have hall : ∀ c ∈ name, decide (c ≠ '.') = true := fun c hc => decide_eq_true fun heq => h (heq ▸ hc)
  unfold readPath
  rw [List.takeWhile_eq_self_iff.mpr hall, List.dropWhile_eq_nil_iff.mpr hall]
  rfl

theorem readPath_append {name : List Char} (h : '.' ∉ name) (rest : List Char) :
    readPath (name ++ '.' :: rest) = (String.ofList name, (getlines '.' rest []).map String.ofList) := by
  have hall : ∀ c ∈ name, decide (c ≠ '.') = true := fun c hc => decide_eq_true fun heq => h (heq ▸ hc)
  unfold readPath
  rw [List.takeWhile_append_of_pos hall, List.dropWhile_append_of_pos hall]
  simp

variable {text : List Char} {members : List String} {rest : List Accessor}

theorem readPath_concat (h : text.getLast? ≠ some '.') : readPath (text ++ ['.']) = readPath text := by
  by_cases hdot : '.' ∈ text
  · obtain ⟨name, rest, rfl, hname⟩ := List.eq_append_cons_of_mem hdot
    have hrest : rest ≠ [] := by
      rintro rfl
      exact h (by simp)
    have hlast : rest.getLast? ≠ some '.' := by
      intro hl
      refine h ((List.getLast?_append_of_ne_nil _ (List.cons_ne_nil _ _)).trans ?_)
      exact (List.getLast?_append_of_ne_nil ['.'] hrest).trans hl
    rw [List.append_assoc, List.cons_append, readPath_append hname, readPath_append hname,
      getlines_concat rest (by simpa using hrest) hlast]
  · rw [readPath_of_notMem hdot, readPath_append hdot]
    rfl

theorem readPath_undot_iff (text : List Char) :
    readPath (undot text) = readPath text ↔ (undot text).getLast? ≠ some '.' := by
  constructor
  · intro h hdot
    have hjoined := congrArg joined h
    rw [joined_readPath, joined_readPath, undot, if_pos hdot] at hjoined
    have hlength := congrArg List.length hjoined
    have hpos : 0 < (undot text).length := List.length_pos_iff.mpr fun hnil => by rw [hnil] at hdot; cases hdot
    rw [List.length_dropLast] at hlength
    omega
  · intro hdot
    by_cases hend : text.getLast? = some '.'
    · have htext : undot text ++ ['.'] = text := by
        rw [undot, if_pos hend]
        exact List.dropLast_append_getLast? _ hend
      conv_rhs => rw [← htext]
      exact (readPath_concat hdot).symm
    · rw [show undot text = text from if_neg hend]

/-! ## Scopes and indices -/

theorem parseFromString_eq (text : List Char) : parseFromString text =
      { name := (readPath (cutIndex (readScope (trimmed text)).2).2).1
        scope := (readScope (trimmed text)).1
        memberPath := (readPath (cutIndex (readScope (trimmed text)).2).2).2
        constantIndex := (cutIndex (readScope (trimmed text)).2).1 } := by
  unfold parseFromString
  split
  · next h =>
      rw [h]
      rfl
  · rfl

variable (s : LValueScope) {name : String} (txt : TargetText)

theorem readScope_scopePrefix (body : List Char) : readScope (scopePrefix s ++ body) = (s, body) := by
  cases s <;> simp [readScope, scopePrefix]

theorem scopePrefix_eq : ∃ c word, scopePrefix s = c :: (word ++ ['.']) ∧ isSpace c = false ∧
    '.' ∉ c :: word ∧ '[' ∉ c :: word := by
  cases s
  · exact ⟨'r', ['e', 'g'], rfl, by decide, by decide, by decide⟩
  · exact ⟨'o', ['u', 't'], rfl, by decide, by decide, by decide⟩
  · exact ⟨'l', ['o', 'c', 'a', 'l'], rfl, by decide, by decide, by decide⟩

def indexText : Option UInt32 → List Char
  | none => []
  | some k => '[' :: ((toString k.toNat).toList ++ [']'])

theorem toList_scopedPath (t : LValueTarget) :
    t.scopedPath.toList = scopePrefix t.scope ++ (joined (t.name, t.memberPath) ++ indexText t.constantIndex) := by
  have hfold : ∀ (members : List String) (name : String),
      (members.foldl (fun res member => res ++ "." ++ member) name).toList = joined (name, members) := by
    intro members
    induction members with
    | nil => exact fun name => (List.append_nil _).symm
    | cons member members ih =>
      intro name
      rw [List.foldl_cons, ih]
      simp [joined]
  have hclose : ("]" : String).toList = [']'] := rfl
  have hopen : ("[" : String).toList = ['['] := rfl
  unfold scopedPath fullPath
  cases t.constantIndex with
  | none => simp [hfold, indexText]
  | some k => simp [hfold, indexText, hopen, hclose]

theorem digits_toString (n : ℕ) : (toString n).toList = Nat.toDigits 10 n := Nat.toList_repr

theorem isDigit_of_mem_toString {n : ℕ} {c : Char} (h : c ∈ (toString n).toList) : c.isDigit = true := by
  rw [digits_toString] at h
  exact Nat.isDigit_of_mem_toDigits (by omega) (by omega) h

theorem isSpace_of_isDigit {c : Char} (h : c.isDigit = true) : isSpace c = false := by
  by_contra hspace
  rw [Bool.not_eq_false] at hspace
  unfold isSpace at hspace
  simp only [Bool.or_eq_true, decide_eq_true_eq] at hspace
  rcases hspace with ((((rfl | rfl) | rfl) | rfl) | rfl) | rfl <;> exact absurd h (by decide)

theorem stoul_toString {n : ℕ} (h : n < 2 ^ 64) : stoul (toString n).toList = some n := by
  have hvalue : Nat.ofDigitChars 10 (toString n).toList 0 = n := by
    rw [digits_toString]
    exact Nat.ofDigitChars_toDigits (by omega) (by omega)
  have hdigit : ∀ c ∈ (toString n).toList, c.isDigit = true := fun c => isDigit_of_mem_toString
  have hne : (toString n).toList ≠ [] := by
    rw [digits_toString]
    exact Nat.toDigits_ne_nil
  generalize (toString n).toList = digits at hvalue hdigit hne
  obtain ⟨d, ds, rfl⟩ := List.exists_cons_of_ne_nil hne
  have hd : d.isDigit = true := hdigit d List.mem_cons_self
  have hminus : d ≠ '-' := by
    rintro rfl
    exact absurd hd (by decide)
  have hplus : d ≠ '+' := by
    rintro rfl
    exact absurd hd (by decide)
  unfold stoul
  rw [List.dropWhile_cons_of_neg (by simp [isSpace_of_isDigit hd])]
  simp only [List.head?_cons, Option.some.injEq, hminus, hplus, or_self, if_false,
    List.takeWhile_eq_self_iff.mpr hdigit, hvalue, hne, false_or]
  rw [if_neg (by omega)]

theorem readIndex_toString (k : UInt32) : readIndex (toString k.toNat).toList = some k := by
  have hlt := k.toNat_lt
  unfold readIndex
  rw [stoul_toString (by omega), Option.map_some, UInt32.ofNat_toNat]

/-- No bracket that is opened is closed. -/
def Unclosed (text : List Char) : Prop := ']' ∉ text.dropWhile (· ≠ '[')

theorem cutIndex_of_unclosed (h : Unclosed text) : cutIndex text = (none, text) := if_neg h

theorem unclosed_of_notMem (h : '[' ∉ text) : Unclosed text := by
  have hnil : text.dropWhile (· ≠ '[') = [] :=
    List.dropWhile_eq_nil_iff.mpr fun c hc => decide_eq_true fun heq => h (heq ▸ hc)
  unfold Unclosed
  rw [hnil]
  exact List.not_mem_nil

theorem cutIndex_append {path : List Char} (h : '[' ∉ path) (index rest : List Char) :
    cutIndex (path ++ '[' :: (index ++ ']' :: rest)) = (readIndex (index.takeWhile (· ≠ ']')), path) := by
  have hall : ∀ c ∈ path, decide (c ≠ '[') = true := fun c hc => decide_eq_true fun heq => h (heq ▸ hc)
  have htake : (index ++ ']' :: rest).takeWhile (fun c => decide (c ≠ ']')) =
      index.takeWhile (fun c => decide (c ≠ ']')) := by
    rw [List.takeWhile_append]
    split
    · next hlen =>
        rw [List.takeWhile_cons_of_neg (by simp), List.append_nil, (List.takeWhile_prefix _).eq_of_length hlen]
    · rfl
  unfold cutIndex
  dsimp only
  rw [List.dropWhile_append_of_pos hall, List.takeWhile_append_of_pos hall,
    List.dropWhile_cons_of_neg (by simp), List.takeWhile_cons_of_neg (by simp), List.tail_cons, htake, List.append_nil]
  exact if_pos (by simp)

theorem cutIndex_cases (text : List Char) :
    '[' ∉ (cutIndex text).2 ∨ (cutIndex text).1 = none ∧ Unclosed (cutIndex text).2 := by
  unfold cutIndex
  dsimp only
  split
  · exact Or.inl fun h => by simpa using List.mem_takeWhile_imp h
  · next h => exact Or.inr ⟨rfl, h⟩

theorem Unclosed.of_part {part text : List Char} (h : Unclosed text) (hpart : part <+: text) : Unclosed part := by
  obtain ⟨rest, rfl⟩ := hpart
  intro hmem
  refine h ?_
  rw [List.dropWhile_append]
  split
  · next hnil =>
      rw [List.isEmpty_iff.mp hnil] at hmem
      exact absurd hmem List.not_mem_nil
  · exact List.mem_append_left _ hmem

/-! ## Reading again -/

theorem trimmed_scopePrefix (body : List Char) :
    trimmed (scopePrefix s ++ body) = scopePrefix s ++ body.rdropWhile isSpace := by
  obtain ⟨c, word, hstart, hc, -, -⟩ := scopePrefix_eq s
  unfold trimmed
  rw [hstart, List.cons_append, List.dropWhile_cons_of_neg (by simp [hc])]
  have hsplit : c :: (word ++ ['.'] ++ body) = (c :: word) ++ '.' :: body := by simp
  rw [hsplit, rdropWhile_append_cons (by decide)]
  simp

theorem rdropWhile_eq_self_iff : text.rdropWhile isSpace = text ↔ ∀ c ∈ text.getLast?, isSpace c = false := by
  rw [List.rdropWhile_eq_self_iff]
  cases text using List.reverseRecOn <;> simp

/-- A target that stands in its own text is read from it up to white space at the end of its path. -/
theorem parseFromString_scopedPath (t : LValueTarget) (hpath : '[' ∉ joined (t.name, t.memberPath) ∨
    t.constantIndex = none ∧ Unclosed (joined (t.name, t.memberPath))) :
    parseFromString t.scopedPath.toList =
      { name := (readPath (if t.constantIndex = none then (joined (t.name, t.memberPath)).rdropWhile isSpace
          else joined (t.name, t.memberPath))).1
        scope := t.scope
        memberPath := (readPath (if t.constantIndex = none then (joined (t.name, t.memberPath)).rdropWhile isSpace
          else joined (t.name, t.memberPath))).2
        constantIndex := t.constantIndex } := by
  rw [toList_scopedPath, parseFromString_eq, trimmed_scopePrefix, readScope_scopePrefix]
  generalize joined (t.name, t.memberPath) = path at hpath ⊢
  cases hindex : t.constantIndex with
  | none =>
    have hunclosed : Unclosed path := hpath.elim unclosed_of_notMem And.right
    have hcut := cutIndex_of_unclosed (hunclosed.of_part (List.rdropWhile_prefix (p := isSpace) path))
    rw [indexText, List.append_nil, hcut, if_pos rfl]
  | some k =>
    have hnone : '[' ∉ path := hpath.resolve_right fun h => by simp [hindex] at h
    have hkeep : (path ++ indexText (some k)).rdropWhile isSpace = path ++ indexText (some k) := by
      have hsplit : path ++ indexText (some k) = (path ++ '[' :: (toString k.toNat).toList) ++ ']' :: [] := by
        simp [indexText]
      rw [hsplit, rdropWhile_append_cons (by decide)]
      rfl
    have hdigits : (toString k.toNat).toList.takeWhile (· ≠ ']') = (toString k.toNat).toList := by
      refine List.takeWhile_eq_self_iff.mpr fun c hc => decide_eq_true ?_
      rintro rfl
      exact absurd (isDigit_of_mem_toString hc) (by decide)
    rw [hkeep, indexText, cutIndex_append hnone, hdigits, readIndex_toString, if_neg (by simp)]

/-- A parsed target is read again from its own text if and only if its path ends with no dot, and with no white
space that is not followed by an index. -/
theorem reparses_iff (text : List Char) : Reparses text ↔ Settled text := by
  unfold Reparses Settled pathText
  have hcases := cutIndex_cases (readScope (trimmed text)).2
  rw [parseFromString_eq text]
  generalize (readScope (trimmed text)).1 = scope
  generalize (cutIndex (readScope (trimmed text)).2).1 = index at hcases ⊢
  generalize (cutIndex (readScope (trimmed text)).2).2 = path at hcases ⊢
  have hjoined : joined ((readPath path).1, (readPath path).2) = undot path := joined_readPath path
  have hpath : '[' ∉ undot path ∨ index = none ∧ Unclosed (undot path) :=
    hcases.imp (fun h hmem => h ((undot_part path).subset hmem)) fun h => ⟨h.1, h.2.of_part (undot_part path)⟩
  rw [parseFromString_scopedPath _ (by rw [hjoined]; exact hpath)]
  dsimp only
  rw [hjoined, LValueTarget.mk.injEq]
  simp only [true_and, and_true]
  rw [← Prod.ext_iff]
  cases index with
  | some k => simp [readPath_undot_iff]
  | none =>
    rw [if_pos rfl, ← readPath_undot_iff]
    by_cases hblank : (undot path).rdropWhile isSpace = undot path
    · rw [hblank]
      exact ⟨fun h => ⟨h, fun _ => rdropWhile_eq_self_iff.mp hblank⟩, And.left⟩
    · refine ⟨fun h => absurd ?_ hblank, fun h => absurd (rdropWhile_eq_self_iff.mpr (h.2 rfl)) hblank⟩
      -- What is read again is not longer than what is left after trimming.
      have hagain := congrArg joined h
      rw [joined_readPath, joined_readPath] at hagain
      have hlength := (undot_part ((undot path).rdropWhile isSpace)).length_le
      rw [hagain] at hlength
      have hpart := List.rdropWhile_prefix isSpace (l := undot path)
      exact hpart.eq_of_length (Nat.le_antisymm hpart.length_le hlength)

/-! ## Reading a text -/

theorem exists_members : ∀ accessors : List Accessor, ∃ (members : List String) (rest : List Accessor),
    accessors = members.map Accessor.member ++ rest ∧ (rest = [] ∨ ∃ text more, rest = .index text :: more)
  | [] => ⟨[], [], rfl, Or.inl rfl⟩
  | .member name :: accessors => by
    obtain ⟨members, rest, rfl, hrest⟩ := exists_members accessors
    exact ⟨name :: members, rest, rfl, hrest⟩
  | .index text :: accessors => ⟨[], .index text :: accessors, rfl, Or.inr ⟨text, accessors, rfl⟩⟩

theorem joined_nil (name : String) : joined (name, []) = name.toList := List.append_nil _

theorem readPath_joined (hname : IsWord name)
    (hmembers : ∀ member ∈ members, IsWord member) : readPath (joined (name, members)) = (name, members) := by
  have hdot : '.' ∉ name.toList := fun h => (hname.chars '.' h).1 rfl
  have hget : ∀ (members : List String), (∀ member ∈ members, IsWord member) → ∀ member, IsWord member →
      getlines '.' (member.toList ++ members.flatMap fun member => '.' :: member.toList) [] =
        (member :: members).map String.toList := by
    intro members
    induction members with
    | nil =>
      intro _ member hmember
      have hnone : '.' ∉ member.toList := fun h => (hmember.chars '.' h).1 rfl
      rw [List.flatMap_nil, getlines_append hnone, List.nil_append, getlines, if_neg hmember.nonempty]
      rfl
    | cons next members ih =>
      intro hall member hmember
      have hnone : '.' ∉ member.toList := fun h => (hmember.chars '.' h).1 rfl
      rw [List.flatMap_cons, List.cons_append, getlines_piece hnone,
        ih (fun m hm => hall m (List.mem_cons_of_mem _ hm)) next (hall next List.mem_cons_self)]
      rfl
  have hback : ∀ ls : List String, (ls.map String.toList).map String.ofList = ls := by
    intro ls
    rw [List.map_map]
    simp
  cases members with
  | nil => rw [joined_nil, readPath_of_notMem hdot, String.ofList_toList]
  | cons member members =>
    have htext : joined (name, member :: members) =
        name.toList ++ '.' :: (member.toList ++ members.flatMap fun member => '.' :: member.toList) := by
      simp [joined]
    rw [htext, readPath_append hdot, String.ofList_toList,
      hget members (fun m hm => hmembers m (List.mem_cons_of_mem _ hm)) member (hmembers member List.mem_cons_self),
      hback]

/-- What stands behind the scope. -/
def TargetText.body (txt : TargetText) : List Char := txt.name.toList ++ txt.accessors.flatMap Accessor.text

theorem IsWord.head (h : IsWord name) : ∀ c ∈ name.toList.head?, isSpace c = false :=
  fun c hc => (h.chars c (List.mem_of_mem_head? hc)).2.2.2

theorem IsWord.last (h : IsWord name) : ∀ c ∈ name.toList.getLast?, isSpace c = false :=
  fun c hc => (h.chars c (List.mem_of_getLast? hc)).2.2.2

theorem TargetText.body_last : ∀ c ∈ txt.body.getLast?, isSpace c = false := by
  have hmembers := txt.members
  unfold TargetText.body
  generalize txt.accessors = accessors at hmembers ⊢
  cases accessors using List.reverseRecOn with
  | nil =>
    rw [List.flatMap_nil, List.append_nil]
    exact txt.nameWord.last
  | append_singleton accessors last =>
    have hne : last.text ≠ [] := by cases last <;> exact List.cons_ne_nil _ _
    rw [List.flatMap_append, List.flatMap_singleton, ← List.append_assoc, List.getLast?_append_of_ne_nil _ hne]
    cases last with
    | member name =>
      have hname : IsWord name := hmembers name (by simp)
      show ∀ c ∈ (['.'] ++ name.toList).getLast?, _
      rw [List.getLast?_append_of_ne_nil _ hname.nonempty]
      exact hname.last
    | index text =>
      show ∀ c ∈ (('[' :: text) ++ [']']).getLast?, _
      rw [List.getLast?_concat]
      intro c hc
      obtain rfl := Option.some.inj hc
      rfl

theorem TargetText.not_scoped (h : txt.scope = none) (s : LValueScope) :
    ¬ scopePrefix s <+: txt.body := by
  obtain ⟨c, word, hstart, -, hdot, hbracket⟩ := scopePrefix_eq s
  have hname : '.' ∉ txt.name.toList := fun hmem => (txt.nameWord.chars '.' hmem).1 rfl
  have hword : scopePrefix s = (c :: word) ++ ['.'] := hstart
  rintro ⟨rest, hrest⟩
  have htake : ∀ (front rest : List Char), '.' ∉ front → (front ++ '.' :: rest).takeWhile (· ≠ '.') = front := by
    intro front rest hfront
    have hall : ∀ d ∈ front, decide (d ≠ '.') = true := fun d hd => decide_eq_true fun heq => hfront (heq ▸ hd)
    rw [List.takeWhile_append_of_pos hall]
    simp
  unfold TargetText.body at hrest
  rw [hword, List.append_assoc, List.singleton_append] at hrest
  cases haccessors : txt.accessors with
  | nil =>
    rw [haccessors, List.flatMap_nil, List.append_nil] at hrest
    exact hname (hrest ▸ by simp)
  | cons first accessors =>
    rw [haccessors, List.flatMap_cons] at hrest
    cases first with
    | member member =>
      have heq := congrArg (List.takeWhile fun d => decide (d ≠ '.')) hrest
      rw [htake _ _ hdot, Accessor.text, List.cons_append, htake _ _ hname] at heq
      refine txt.unscoped h s member (by rw [haccessors]; rfl) ?_
      rw [hword, heq]
    | index text =>
      -- The first dot would be in the name, or the bracket in the prefix of the scope.
      have hsplit : (c :: word) ++ '.' :: rest =
          txt.name.toList ++ '[' :: (text ++ [']'] ++ accessors.flatMap Accessor.text) := hrest
      rcases List.append_eq_append_iff.mp hsplit with ⟨part, hpart, heq⟩ | ⟨part, hpart, heq⟩
      · cases part with
        | nil => exact absurd (List.cons.inj heq).1 (by decide)
        | cons d part => exact hname (by simp [hpart, ← (List.cons.inj heq).1])
      · cases part with
        | nil => exact absurd (List.cons.inj heq).1 (by decide)
        | cons d part => exact hbracket (by simp [hpart, ← (List.cons.inj heq).1])

theorem TargetText.readScope_text :
    readScope (trimmed txt.text) = (txt.scope.getD .register, txt.body) := by
  have hlast := rdropWhile_eq_self_iff.mpr txt.body_last
  unfold TargetText.text
  show readScope (trimmed ((txt.scope.map scopePrefix).getD [] ++ txt.body)) = _
  cases hscope : txt.scope with
  | some s =>
    rw [Option.map_some, Option.getD_some, trimmed_scopePrefix, hlast, readScope_scopePrefix, Option.getD_some]
  | none =>
    have hfirst : ∀ c ∈ txt.body.head?, isSpace c = false := by
      unfold TargetText.body
      rw [List.head?_append_of_ne_nil _ txt.nameWord.nonempty]
      exact txt.nameWord.head
    have htrimmed : trimmed txt.body = txt.body := by
      have hpadded := trim_padded (List.forall_mem_nil _) (List.forall_mem_nil _) hfirst txt.body_last
      rwa [List.nil_append, List.append_nil] at hpadded
    rw [Option.map_none, Option.getD_none, List.nil_append, htrimmed, readScope,
      if_neg (txt.not_scoped hscope _), if_neg (txt.not_scoped hscope _), if_neg (txt.not_scoped hscope _),
      Option.getD_none]

/-- The index that is read of the parts behind the members. -/
def leadingIndex : List Accessor → Option UInt32
  | .index text :: _ => readIndex (text.takeWhile (· ≠ ']'))
  | _ => none

theorem TargetText.cutIndex_body (haccessors : txt.accessors = members.map .member ++ rest)
    (hrest : rest = [] ∨ ∃ text more, rest = .index text :: more) (hmembers : ∀ member ∈ members, IsWord member) :
    cutIndex txt.body = (leadingIndex rest, joined (txt.name, members)) := by
  have hbody : txt.body = joined (txt.name, members) ++ rest.flatMap Accessor.text := by
    unfold TargetText.body joined
    rw [haccessors, List.flatMap_append, List.flatMap_map, List.append_assoc]
    rfl
  have hnone : '[' ∉ joined (txt.name, members) := by
    unfold joined
    rw [List.mem_append, List.mem_flatMap]
    rintro (hmem | ⟨member, hmember, hmem⟩)
    · exact (txt.nameWord.chars '[' hmem).2.1 rfl
    · rcases List.mem_cons.mp hmem with heq | hmem
      · exact absurd heq (by decide)
      · exact ((hmembers member hmember).chars '[' hmem).2.1 rfl
  rw [hbody]
  rcases hrest with rfl | ⟨text, more, rfl⟩
  · rw [List.flatMap_nil, List.append_nil, cutIndex_of_unclosed (unclosed_of_notMem hnone)]
    rfl
  · have htail : (Accessor.index text :: more).flatMap Accessor.text =
        '[' :: (text ++ ']' :: more.flatMap Accessor.text) := by
      rw [List.flatMap_cons, Accessor.text]
      simp
    rw [htail, cutIndex_append hnone]
    rfl

theorem TargetText.isWord_member
    (haccessors : txt.accessors = members.map .member ++ rest) : ∀ member ∈ members, IsWord member := by
  intro member hmember
  refine txt.members member ?_
  rw [haccessors]
  exact List.mem_append_left _ (List.mem_map_of_mem hmember)

/-- The target that is read has the scope and the name of the text, the members up to the first index, and that
index if it can be read. -/
theorem TargetText.parse_text (haccessors : txt.accessors = members.map .member ++ rest)
    (hrest : rest = [] ∨ ∃ text more, rest = .index text :: more) :
    parseFromString txt.text =
      { name := txt.name, scope := txt.scope.getD .register, memberPath := members
        constantIndex := leadingIndex rest } := by
  have hmembers := txt.isWord_member haccessors
  rw [parseFromString_eq, txt.readScope_text, txt.cutIndex_body haccessors hrest hmembers,
    readPath_joined txt.nameWord hmembers]

theorem index_after_members {text : List Char} {more : List Accessor} : ∀ {members members' : List String}
    {rest : List Accessor}, members.map .member ++ .index text :: more = members'.map .member ++ rest →
      (rest = [] ∨ ∃ text' more', rest = .index text' :: more') → members = members' ∧ rest = .index text :: more
  | [], [], _, h, _ => ⟨rfl, h.symm⟩
  | [], _ :: _, _, h, _ => nomatch (List.cons.inj h).1
  | _ :: _, [], _, h, hrest => by
    rcases hrest with rfl | ⟨text', more', rfl⟩
    · cases h
    · cases (List.cons.inj h).1
  | member :: members, member' :: members', _, h, hrest => by
    obtain ⟨hmember, hrest'⟩ := List.cons.inj h
    obtain ⟨rfl, htail⟩ := index_after_members hrest' hrest
    exact ⟨by rw [Accessor.member.inj hmember], htail⟩

theorem sameLocation_iff (value : Valuation → List Char → ℤ) (txt : TargetText) :
    SameLocation value txt ↔ Direct value txt := by
  obtain ⟨members, rest, haccessors, hrest⟩ := exists_members txt.accessors
  have hmap : ∀ ρ, (members.map Accessor.member).map (Accessor.select (value ρ)) = members.map .member := by
    intro ρ
    rw [List.map_map]
    rfl
  have hpath : SameLocation value txt ↔ ∀ ρ, (leadingIndex rest).toList.map (fun k => Selector.element k.toNat) =
      rest.map (Accessor.select (value ρ)) := by
    unfold SameLocation TargetText.location location
    rw [txt.parse_text haccessors hrest, haccessors]
    simp [hmap]
  rw [hpath]
  unfold Direct
  rcases hrest with rfl | ⟨text, more, rfl⟩
  · refine ⟨fun _ => ⟨members, Or.inl (by simpa using haccessors)⟩, fun _ _ => rfl⟩
  · constructor
    · intro h
      cases hindex : readIndex (text.takeWhile (· ≠ ']')) with
      | none =>
        have hnil := h fun _ => 0
        rw [leadingIndex, hindex] at hnil
        cases hnil
      | some k =>
        simp only [leadingIndex, hindex, Option.toList_some, List.map_cons, List.map_nil, List.cons.injEq] at h
        have hmore : more = [] := List.map_eq_nil_iff.mp (h fun _ => 0).2.symm
        subst hmore
        refine ⟨members, Or.inr ⟨text, k, haccessors, hindex, fun ρ => ?_⟩⟩
        exact (Selector.element.inj (h ρ).1).symm
    · rintro ⟨members', heq | ⟨text', k, heq, hindex, hvalue⟩⟩ ρ
      · rw [haccessors, ← List.append_nil (members'.map _)] at heq
        exact absurd (index_after_members heq (Or.inl rfl)).2 (List.cons_ne_nil _ _).symm
      · rw [haccessors] at heq
        obtain ⟨-, htail⟩ := index_after_members heq (Or.inr ⟨text', [], rfl⟩)
        obtain ⟨hindices, rfl⟩ := List.cons.inj htail
        obtain rfl := Accessor.index.inj hindices
        rw [leadingIndex, hindex, List.map_singleton, Accessor.select, hvalue ρ]
        rfl

/-- A text is read as its location if and only if it is direct, and what is read is read again from its own text
if and only if its path is settled. -/
theorem targets_survive_iff (value : Valuation → List Char → ℤ) :
    (∀ txt : TargetText, SameLocation value txt ↔ Direct value txt) ∧ ∀ text, Reparses text ↔ Settled text :=
  ⟨sameLocation_iff value, reparses_iff⟩

/-- A member of an array element. -/
def memberOfElement : TargetText where
  scope := none
  name := "a"
  accessors := [.index ['2'], .member "b"]
  nameWord := ⟨by decide, by decide⟩
  members := by
    intro member hmember
    obtain rfl : member = "b" := by simpa using hmember
    exact ⟨by decide, by decide⟩
  unscoped := by simp

/-- An array element whose index is a variable. -/
def variableElement : TargetText where
  scope := none
  name := "a"
  accessors := [.index ['i']]
  nameWord := ⟨by decide, by decide⟩
  members := by simp
  unscoped := by simp

/-- The member is dropped, and so is the index: both texts denote other locations than the targets that are read. -/
theorem suffixes_dropped : (memberOfElement.text = ['a', '[', '2', ']', '.', 'b'] ∧
      parseFromString memberOfElement.text = parseFromString ['a', '[', '2', ']'] ∧
        ¬ SameLocation (fun _ _ => 2) memberOfElement) ∧
    (variableElement.text = ['a', '[', 'i', ']'] ∧ parseFromString variableElement.text = parseFromString ['a'] ∧
      ¬ SameLocation (fun ρ text => ρ (String.ofList text)) variableElement) :=
  ⟨⟨by decide +kernel, by decide +kernel, fun h => absurd (h fun _ => 0) (by decide +kernel)⟩,
    ⟨by decide +kernel, by decide +kernel, fun h => absurd (h fun _ => 0) (by decide +kernel)⟩⟩

end Fsmc.Ir.LValueTarget
