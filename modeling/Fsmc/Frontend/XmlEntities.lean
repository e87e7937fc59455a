/-
# Fsmc.Frontend.XmlEntities — escaping and unescaping texts of XML.

The writer replaces five characters by entities. The reader replaces the entities one after another in the whole
text, the ampersand first, and then decodes numeric references. So an ampersand that was written as an entity is read
again as the start of another one: a text comes back exactly when no other entity and no numeric reference is in it.
-/
import Fsmc.Cpp.Double
import Fsmc.Cpp.Search

namespace Fsmc.Frontend.XmlEntities

open Fsmc.Cpp

/-! ## Writing -/

/-- What `escape_xml` writes for a character. -/
def escapeChar (c : Char) : List Char :=
  if c = '&' then ['&', 'a', 'm', 'p', ';']
  else if c = '<' then ['&', 'l', 't', ';']
  else if c = '>' then ['&', 'g', 't', ';']
  else if c = '"' then ['&', 'q', 'u', 'o', 't', ';']
  else if c = '\'' then ['&', 'a', 'p', 'o', 's', ';']
  else [c]

def escapeXml (input : List Char) : List Char := input.flatMap escapeChar

/-! ## Reading -/

/-- `replace_all` of a text by one character; the number is that of characters to pass over. -/
def replaceAll (pattern : List Char) (by' : Char) : ℕ → List Char → List Char
  | _, [] => []
  | skip + 1, _ :: text => replaceAll pattern by' skip text
  | 0, c :: text =>
    if pattern <+: c :: text then by' :: replaceAll pattern by' (pattern.length - 1) text
    else c :: replaceAll pattern by' 0 text

/-- `std::stoi` with a base, `none` where it throws. -/
def stoi (base : ℕ) (text : List Char) : Option ℤ :=
  let (negative, body) := scanSign (text.dropWhile isSpace)
  let digits := match body with
    | '0' :: x :: d :: rest =>
      if base = 16 ∧ (x = 'x' ∨ x = 'X') ∧ (digitValue 16 d).isSome then d :: rest else body
    | _ => body
  let (m, count, _) := scanDigits base digits 0
  if count = 0 then none else some (if negative then -m else m)

/-- The number of a numeric reference, from the text between its start and its semicolon. -/
def codeOf (codeStr : List Char) : Option ℤ :=
  match codeStr with
  | [] => none
  | c :: rest =>
    if c = 'x' ∨ c = 'X' then stoi 16 rest
    else if c.isDigit then stoi 10 codeStr else none

/-- The character of a numeric reference at the start of a text, and how long the reference is. -/
def referenceAt (text : List Char) : Option (Char × ℕ) :=
  if ['&', '#'] <+: text ∧ ';' ∈ text.drop 2 ∧ ((text.drop 2).takeWhile (· ≠ ';')).length + 2 ≤ 8 then
    (codeOf ((text.drop 2).takeWhile (· ≠ ';'))).bind fun code =>
      if 0 ≤ code ∧ code ≤ 255 then
        some (Char.ofNat code.toNat, ((text.drop 2).takeWhile (· ≠ ';')).length + 3)
      else none
  else none

/-- The loop over numeric references. -/
def decodeReferences : ℕ → List Char → List Char
  | _, [] => []
  | skip + 1, _ :: text => decodeReferences skip text
  | 0, c :: text =>
    match referenceAt (c :: text) with
    | some (ch, len) => ch :: decodeReferences (len - 1) text
    | none =>
      if ['&', '#'] <+: c :: text then c :: '#' :: decodeReferences 1 text
      else c :: decodeReferences 0 text

def unescapeXml (str : List Char) : List Char :=
  let str := replaceAll (escapeChar '&') '&' 0 str
  let str := replaceAll (escapeChar '<') '<' 0 str
  let str := replaceAll (escapeChar '>') '>' 0 str
  let str := replaceAll (escapeChar '"') '"' 0 str
  let str := replaceAll (escapeChar '\'') '\'' 0 str
  decodeReferences 0 str

example : unescapeXml "a &lt;b&#x41;&#300;".toList = "a <bA&#300;".toList := by decide +kernel

/-- A text without the entities of the four other characters and without a numeric reference that is decoded. -/
structure Literal (v : List Char) : Prop where
  entities : ∀ x ∈ ['<', '>', '"', '\''], ¬ escapeChar x <:+: v
  references : ∀ s, s <:+ v → referenceAt s = none

/-! ## Replacing -/

variable {pattern v w : List Char} {x c : Char}

theorem replaceAll_skip (pattern : List Char) (x : Char) (w v : List Char) :
    replaceAll pattern x w.length (w ++ v) = replaceAll pattern x 0 v := by
  induction w with
  | nil => rfl
  | cons c w ih => exact ih

theorem length_replaceAll_le (pattern : List Char) (x : Char) : ∀ (skip : ℕ) (v : List Char),
    (replaceAll pattern x skip v).length ≤ v.length
  | _, [] => by simp [replaceAll]
  | skip + 1, c :: v => by
    rw [replaceAll]
    exact (length_replaceAll_le pattern x skip v).trans (Nat.le_succ _)
  | 0, c :: v => by
    rw [replaceAll]
    split
    · exact Nat.succ_le_succ (length_replaceAll_le pattern x _ v)
    · exact Nat.succ_le_succ (length_replaceAll_le pattern x 0 v)

theorem replaceAll_eq_self (x : Char) (h : ¬ pattern <:+: v) : replaceAll pattern x 0 v = v := by
  induction v with
  | nil => rfl
  | cons c v ih =>
    have hstart : ¬ pattern <+: c :: v := fun hp => h hp.isInfix
    rw [replaceAll, if_neg hstart, ih fun hocc => h (hocc.trans (List.suffix_cons c v).isInfix)]

theorem length_replaceAll_lt (x : Char) (hlen : 2 ≤ pattern.length) (h : pattern <:+: v) :
    (replaceAll pattern x 0 v).length < v.length := by
  induction v with
  | nil =>
    rw [List.infix_nil] at h
    rw [h] at hlen
    simp at hlen
  | cons c v ih =>
    rw [replaceAll]
    split
    · next hstart =>
        obtain ⟨rest, hrest⟩ := hstart
        obtain ⟨d, pattern', rfl⟩ : ∃ d p, pattern = d :: p := by
          cases pattern with
          | nil => simp at hlen
          | cons d p => exact ⟨d, p, rfl⟩
        obtain ⟨rfl, htail⟩ := List.cons.inj hrest
        have htail' : v = pattern' ++ rest := htail.symm
        have hle := length_replaceAll_le (d :: pattern') x 0 rest
        rw [show (d :: pattern').length - 1 = pattern'.length from rfl, htail', replaceAll_skip]
        simp only [List.length_cons, List.length_append] at hlen hle ⊢
        omega
    · next hstart =>
        have hocc : pattern <:+: v := (List.infix_cons_iff.mp h).resolve_left hstart
        exact Nat.succ_lt_succ (ih hocc)

theorem replaceAll_append (hpattern : pattern.head? = some '&') (hw : '&' ∉ w) (x : Char) (v : List Char) :
    replaceAll pattern x 0 (w ++ v) = w ++ replaceAll pattern x 0 v := by
  induction w with
  | nil => rfl
  | cons c w ih =>
    have hstart : ¬ pattern <+: c :: (w ++ v) := by
      rintro ⟨rest, hrest⟩
      cases pattern with
      | nil => cases hpattern
      | cons d p =>
        obtain rfl : d = '&' := Option.some.inj hpattern
        exact hw (List.mem_cons.mpr (Or.inl (List.cons.inj hrest).1))
    rw [List.cons_append, replaceAll, if_neg hstart, ih fun hmem => hw (List.mem_cons_of_mem _ hmem),
      List.cons_append]

/-! ## Entities -/

/-- The characters that have an entity. -/
def special : List Char := ['&', '<', '>', '"', '\'']

/-- A text in which only some characters are escaped. -/
def escapeOnly (S : List Char) (v : List Char) : List Char := v.flatMap fun c => if c ∈ S then escapeChar c else [c]

theorem escapeChar_eq (hx : x ∈ special) : ∃ body, escapeChar x = '&' :: body ∧ body ≠ [] ∧
    (∀ c ∈ body, c ∉ special) := by
  simp only [special, List.mem_cons, List.not_mem_nil, or_false] at hx
  rcases hx with rfl | rfl | rfl | rfl | rfl <;> exact ⟨_, rfl, by decide, by decide⟩

theorem eq_of_starts (hx : x ∈ special) (hc : c ∈ special) (h : escapeChar x <+: escapeChar c ++ v) : x = c := by
  simp only [special, List.mem_cons, List.not_mem_nil, or_false] at hx hc
  rcases hx with rfl | rfl | rfl | rfl | rfl <;> rcases hc with rfl | rfl | rfl | rfl | rfl <;>
    first
      | rfl
      | simp [escapeChar] at h

theorem head_escapeChar (hx : x ∈ special) : (escapeChar x).head? = some '&' := by
  obtain ⟨body, heq, -, -⟩ := escapeChar_eq hx
  rw [heq]
  rfl

theorem replaceAll_entity (hx : x ∈ special) (v : List Char) :
    replaceAll (escapeChar x) x 0 (escapeChar x ++ v) = x :: replaceAll (escapeChar x) x 0 v := by
  obtain ⟨body, heq, -, -⟩ := escapeChar_eq hx
  have hstart : escapeChar x <+: '&' :: (body ++ v) := ⟨v, by rw [heq]; rfl⟩
  have htext : escapeChar x ++ v = '&' :: (body ++ v) := by rw [heq]; rfl
  rw [htext, replaceAll, if_pos hstart]
  congr 1
  have hlen : (escapeChar x).length - 1 = body.length := by rw [heq]; rfl
  rw [hlen]
  exact replaceAll_skip _ _ _ _

theorem replaceAll_other (hx : x ∈ special) (hc : c ∈ special) (hne : x ≠ c) (v : List Char) :
    replaceAll (escapeChar x) x 0 (escapeChar c ++ v) = escapeChar c ++ replaceAll (escapeChar x) x 0 v := by
  obtain ⟨body, heq, -, hbody⟩ := escapeChar_eq hc
  have hstart : ¬ escapeChar x <+: '&' :: (body ++ v) := by
    intro h
    have htext : escapeChar c ++ v = '&' :: (body ++ v) := by rw [heq]; rfl
    exact hne (eq_of_starts hx hc (htext ▸ h))
  have hamp : '&' ∉ body := fun hmem => hbody '&' hmem (by decide)
  rw [heq, List.cons_append, replaceAll, if_neg hstart, replaceAll_append (head_escapeChar hx) hamp]
  rfl

theorem replaceAll_amp {S : List Char} (hS : ∀ y ∈ S, y ∈ special) (hamp : '&' ∈ S) (v : List Char) :
    replaceAll (escapeChar '&') '&' 0 (escapeOnly S v) = escapeOnly (S.filter (· ≠ '&')) v := by
  have hspecial : '&' ∈ special := by decide
  induction v with
  | nil => rfl
  | cons c v ih =>
    unfold escapeOnly at ih ⊢
    rw [List.flatMap_cons, List.flatMap_cons]
    by_cases hc : c = '&'
    · subst hc
      rw [if_pos hamp, if_neg (by simp), replaceAll_entity hspecial, ih]
      rfl
    · by_cases hmem : c ∈ S
      · rw [if_pos hmem, if_pos (by simp [hmem, hc]), replaceAll_other hspecial (hS c hmem) (Ne.symm hc), ih]
      · rw [if_neg hmem, if_neg (by simp [hmem]),
          replaceAll_append (head_escapeChar hspecial) (by simpa using Ne.symm hc), ih]

theorem prefix_of_escapeOnly {S body : List Char} (hS : ∀ y ∈ S, y ∈ special) (hbody : '&' ∉ body) :
    ∀ {v : List Char}, body <+: escapeOnly S v → ∃ v', v = body ++ v' := by
  induction body with
  | nil => exact fun {v} _ => ⟨v, rfl⟩
  | cons b body ih =>
    intro v h
    cases v with
    | nil => simp [escapeOnly] at h
    | cons d v =>
      have htext : escapeOnly S (d :: v) = (if d ∈ S then escapeChar d else [d]) ++ escapeOnly S v := rfl
      rw [htext] at h
      by_cases hd : d ∈ S
      · obtain ⟨rest, heq, -, -⟩ := escapeChar_eq (hS d hd)
        rw [if_pos hd, heq, List.cons_append, List.cons_prefix_cons] at h
        exact absurd (List.mem_cons.mpr (Or.inl h.1.symm)) hbody
      · rw [if_neg hd, List.singleton_append, List.cons_prefix_cons] at h
        obtain ⟨rfl, h⟩ := h
        obtain ⟨v', rfl⟩ := ih (fun hmem => hbody (List.mem_cons_of_mem _ hmem)) h
        exact ⟨v', rfl⟩

theorem replaceAll_escapeOnly {S : List Char} (hS : ∀ y ∈ S, y ∈ special) (hamp : '&' ∉ S) (hx : x ∈ special)
    (hmem : x ∈ S) (hne : x ≠ '&') : ∀ (n : ℕ) (v : List Char), v.length ≤ n →
      replaceAll (escapeChar x) x 0 (escapeOnly S v) =
        escapeOnly (S.filter (· ≠ x)) (replaceAll (escapeChar x) x 0 v)
  | _, [], _ => rfl
  | 0, c :: v, h => absurd h (by simp)
  | n + 1, c :: v, h => by
    have ih := replaceAll_escapeOnly hS hamp hx hmem hne n
    have hlen : v.length ≤ n := Nat.le_of_succ_le_succ h
    have htext : escapeOnly S (c :: v) = (if c ∈ S then escapeChar c else [c]) ++ escapeOnly S v := rfl
    have hcons : ∀ (d : Char) (t : List Char), escapeOnly (S.filter (· ≠ x)) (d :: t) =
        (if d ∈ S.filter (· ≠ x) then escapeChar d else [d]) ++ escapeOnly (S.filter (· ≠ x)) t := fun _ _ => rfl
    have hkept : ∀ d, d ≠ '&' → ∀ t, replaceAll (escapeChar x) x 0 (d :: t) =
        d :: replaceAll (escapeChar x) x 0 t := fun d hd t =>
      replaceAll_append (w := [d]) (head_escapeChar hx) (by simpa using Ne.symm hd) x t
    by_cases hc : c = '&'
    · subst hc
      rw [htext, if_neg hamp, List.singleton_append]
      obtain ⟨body, heq, -, hbody⟩ := escapeChar_eq hx
      have hbody' : '&' ∉ body := fun hmem => hbody '&' hmem (by decide)
      by_cases hstart : body <+: escapeOnly S v
      · -- the entity was written out
        obtain ⟨v', rfl⟩ := prefix_of_escapeOnly hS hbody' hstart
        have hplain : escapeOnly S (body ++ v') = body ++ escapeOnly S v' := by
          unfold escapeOnly
          rw [List.flatMap_append]
          congr 1
          have hmap : ∀ d ∈ body, (if d ∈ S then escapeChar d else [d]) = [d] := fun d hd =>
            if_neg fun hmem => hbody d hd (hS d hmem)
          rw [List.flatMap_congr hmap]
          simp
        have hfold : ∀ t, '&' :: (body ++ t) = escapeChar x ++ t := by
          intro t
          rw [heq]
          rfl
        have hlen' : v'.length ≤ n := by
          rw [List.length_append] at hlen
          omega
        rw [hplain, hfold, hfold, replaceAll_entity hx, replaceAll_entity hx, ih v' hlen', hcons, if_neg (by simp)]
        rfl
      · have hno : ∀ t, ¬ body <+: t → replaceAll (escapeChar x) x 0 ('&' :: t) =
            '&' :: replaceAll (escapeChar x) x 0 t := by
          intro t ht
          rw [replaceAll, if_neg]
          rw [heq, List.cons_prefix_cons]
          exact fun hp => ht hp.2
        have hstart' : ¬ body <+: v := by
          rintro ⟨v', rfl⟩
          apply hstart
          unfold escapeOnly
          rw [List.flatMap_append]
          have hmap : ∀ d ∈ body, (if d ∈ S then escapeChar d else [d]) = [d] := fun d hd =>
            if_neg fun hmem => hbody d hd (hS d hmem)
          rw [List.flatMap_congr hmap]
          simp
        rw [hno _ hstart, hno _ hstart', ih v hlen, hcons, if_neg (by simp [hamp])]
        rfl
    · rw [hkept c hc, htext, hcons]
      by_cases hcS : c ∈ S
      · by_cases hcx : c = x
        · subst hcx
          rw [if_pos hcS, replaceAll_entity hx, if_neg (by simp), ih v hlen]
          rfl
        · rw [if_pos hcS, replaceAll_other hx (hS c hcS) (Ne.symm hcx), if_pos (by simp [hcS, hcx]), ih v hlen]
      · rw [if_neg hcS, if_neg (by simp [hcS]), List.singleton_append, hkept c hc, ih v hlen]
        rfl

/-! ## Numeric references -/

theorem referenceAt_spec {len : ℕ} (h : referenceAt v = some (x, len)) :
    ['&', '#'] <+: v ∧ 3 ≤ len ∧ len ≤ v.length := by
  unfold referenceAt at h
  split at h
  · next hcond =>
      obtain ⟨hstart, hsemi, -⟩ := hcond
      obtain ⟨code, -, hcode⟩ := Option.bind_eq_some_iff.mp h
      split at hcode
      · obtain ⟨-, rfl⟩ := Prod.mk.inj (Option.some.inj hcode)
        have htake : ((v.drop 2).takeWhile (· ≠ ';')).length < (v.drop 2).length := by
          have hsplit := congrArg List.length (List.takeWhile_append_dropWhile (p := (· ≠ ';')) (l := v.drop 2))
          have hrest : (v.drop 2).dropWhile (· ≠ ';') ≠ [] := by
            intro hnil
            have hall := List.dropWhile_eq_nil_iff.mp hnil ';' hsemi
            simp at hall
          have hpos := List.length_pos_iff.mpr hrest
          rw [List.length_append] at hsplit
          omega
        rw [List.length_drop] at htake
        exact ⟨hstart, by omega, by omega⟩
      · cases hcode
  · cases h

theorem length_decodeReferences_le : ∀ (skip : ℕ) (v : List Char), skip ≤ v.length →
    (decodeReferences skip v).length + skip ≤ v.length
  | 0, [], _ => le_rfl
  | skip + 1, [], h => absurd h (by simp)
  | skip + 1, c :: v, h => by
    have ih := length_decodeReferences_le skip v (Nat.le_of_succ_le_succ h)
    rw [decodeReferences, List.length_cons]
    omega
  | 0, c :: v, _ => by
    rw [decodeReferences]
    cases href : referenceAt (c :: v) with
    | some r =>
      obtain ⟨ch, len⟩ := r
      obtain ⟨-, hlow, hhigh⟩ := referenceAt_spec href
      rw [List.length_cons] at hhigh
      have ih := length_decodeReferences_le (len - 1) v (by omega)
      simp only [List.length_cons]
      omega
    | none =>
      dsimp only
      split
      · next hstart =>
          have hlen : 1 ≤ v.length := by
            obtain ⟨rest, hrest⟩ := hstart
            rw [← (List.cons.inj hrest).2]
            simp
          have ih := length_decodeReferences_le 1 v hlen
          simp only [List.length_cons]
          omega
      · have ih := length_decodeReferences_le 0 v (Nat.zero_le _)
        simp only [List.length_cons]
        omega

theorem decodeReferences_eq_self : ∀ (n : ℕ) (v : List Char), v.length ≤ n →
    (∀ s, s <:+ v → referenceAt s = none) → decodeReferences 0 v = v
  | _, [], _, _ => rfl
  | 0, c :: v, h, _ => absurd h (by simp)
  | n + 1, c :: v, h, hno => by
    have hlen : v.length ≤ n := Nat.le_of_succ_le_succ h
    have htail : ∀ s, s <:+ v → referenceAt s = none := fun s hs => hno s (hs.trans (List.suffix_cons c v))
    rw [decodeReferences, hno _ (List.suffix_refl _)]
    dsimp only
    split
    · next hstart =>
        obtain ⟨rest, hrest⟩ := hstart
        obtain ⟨rfl, htext⟩ := List.cons.inj hrest
        have htext' : v = '#' :: rest := htext.symm
        subst htext'
        have hskip : decodeReferences 1 ('#' :: rest) = decodeReferences 0 rest := rfl
        have hrestlen : rest.length ≤ n := (Nat.le_succ _).trans hlen
        rw [hskip, decodeReferences_eq_self n rest hrestlen fun s hs => htail s (hs.trans (List.suffix_cons _ _))]
    · rw [decodeReferences_eq_self n v hlen htail]

theorem length_decodeReferences_lt : ∀ (n : ℕ) (v : List Char), v.length ≤ n →
    (∃ s, s <:+ v ∧ referenceAt s ≠ none) → (decodeReferences 0 v).length < v.length
  | _, [], _, h => by
    obtain ⟨s, hs, href⟩ := h
    rw [List.suffix_nil.mp hs] at href
    exact absurd rfl href
  | 0, c :: v, h, _ => absurd h (by simp)
  | n + 1, c :: v, h, hsome => by
    have hlen : v.length ≤ n := Nat.le_of_succ_le_succ h
    rw [decodeReferences]
    cases href : referenceAt (c :: v) with
    | some r =>
      obtain ⟨ch, len⟩ := r
      obtain ⟨-, hlow, hhigh⟩ := referenceAt_spec href
      rw [List.length_cons] at hhigh
      have hle := length_decodeReferences_le (len - 1) v (by omega)
      simp only [List.length_cons]
      omega
    | none =>
      -- the reference is further behind
      obtain ⟨s, hs, hne⟩ := hsome
      have hs' : s <:+ v := by
        rcases List.suffix_cons_iff.mp hs with rfl | hs
        · exact absurd href hne
        · exact hs
      dsimp only
      split
      · next hstart =>
          obtain ⟨rest, hrest⟩ := hstart
          obtain ⟨rfl, htext⟩ := List.cons.inj hrest
          have htext' : v = '#' :: rest := htext.symm
          subst htext'
          have hs'' : s <:+ rest := by
            rcases List.suffix_cons_iff.mp hs' with rfl | hs'
            · refine absurd ?_ hne
              unfold referenceAt
              rw [if_neg fun hcond => ?_]
              obtain ⟨t, ht⟩ := hcond.1
              exact absurd (List.cons.inj ht).1 (by decide)
            · exact hs'
          have hskip : decodeReferences 1 ('#' :: rest) = decodeReferences 0 rest := rfl
          have ih := length_decodeReferences_lt n rest ((Nat.le_succ _).trans hlen) ⟨s, hs'', hne⟩
          rw [hskip]
          simp only [List.length_cons]
          omega
      · have ih := length_decodeReferences_lt n v hlen ⟨s, hs', hne⟩
        simp only [List.length_cons]
        omega

/-! ## Both ways -/

/-- What the reader makes of an escaped text: the text itself, as if it had been read. -/
theorem unescapeXml_escapeXml (v : List Char) : unescapeXml (escapeXml v) =
    decodeReferences 0 (replaceAll (escapeChar '\'') '\'' 0 (replaceAll (escapeChar '"') '"' 0
      (replaceAll (escapeChar '>') '>' 0 (replaceAll (escapeChar '<') '<' 0 v)))) := by
  have hall : escapeXml v = escapeOnly special v := by
    unfold escapeXml escapeOnly
    apply List.flatMap_congr
    intro c _
    split
    · rfl
    · next hc =>
        simp only [special, List.mem_cons, List.not_mem_nil, or_false, not_or] at hc
        obtain ⟨h1, h2, h3, h4, h5⟩ := hc
        simp [escapeChar, h1, h2, h3, h4, h5]
  have hnil : ∀ t, escapeOnly [] t = t := by
    intro t
    unfold escapeOnly
    simp
  unfold unescapeXml
  dsimp only
  rw [hall, replaceAll_amp (fun _ h => h) (by decide)]
  rw [replaceAll_escapeOnly (by decide) (by decide) (by decide) (by decide) (by decide) _ _ le_rfl,
    replaceAll_escapeOnly (by decide) (by decide) (by decide) (by decide) (by decide) _ _ le_rfl,
    replaceAll_escapeOnly (by decide) (by decide) (by decide) (by decide) (by decide) _ _ le_rfl,
    replaceAll_escapeOnly (by decide) (by decide) (by decide) (by decide) (by decide) _ _ le_rfl]
  congr 1
  exact hnil _

/-- **A text comes back** from its escaped form exactly if it is literal. -/
theorem unescapeXml_escapeXml_eq_iff (v : List Char) : unescapeXml (escapeXml v) = v ↔ Literal v := by
  rw [unescapeXml_escapeXml]
  have hlen : ∀ x ∈ ['<', '>', '"', '\''], 2 ≤ (escapeChar x).length := by decide
  constructor
  · intro h
    -- no step can have made the text shorter
    have h1 := length_replaceAll_le (escapeChar '<') '<' 0 v
    have h2 := length_replaceAll_le (escapeChar '>') '>' 0 (replaceAll (escapeChar '<') '<' 0 v)
    have h3 := length_replaceAll_le (escapeChar '"') '"' 0 (replaceAll (escapeChar '>') '>' 0
      (replaceAll (escapeChar '<') '<' 0 v))
    have h4 := length_replaceAll_le (escapeChar '\'') '\'' 0 (replaceAll (escapeChar '"') '"' 0
      (replaceAll (escapeChar '>') '>' 0 (replaceAll (escapeChar '<') '<' 0 v)))
    have h5 := length_decodeReferences_le 0 (replaceAll (escapeChar '\'') '\'' 0 (replaceAll (escapeChar '"') '"' 0
      (replaceAll (escapeChar '>') '>' 0 (replaceAll (escapeChar '<') '<' 0 v)))) (Nat.zero_le _)
    rw [h] at h5
    have keep : ∀ x ∈ ['<', '>', '"', '\''], ∀ t, t.length ≤ (replaceAll (escapeChar x) x 0 t).length →
        ¬ escapeChar x <:+: t := by
      intro x hx t ht hocc
      exact absurd (length_replaceAll_lt x (hlen x hx) hocc) (not_lt.mpr ht)
    have n1 := keep '<' (by decide) v (by omega)
    have e1 := replaceAll_eq_self '<' n1
    rw [e1] at h h2 h3 h4 h5
    have n2 := keep '>' (by decide) v (by omega)
    have e2 := replaceAll_eq_self '>' n2
    rw [e2] at h h3 h4 h5
    have n3 := keep '"' (by decide) v (by omega)
    have e3 := replaceAll_eq_self '"' n3
    rw [e3] at h h4 h5
    have n4 := keep '\'' (by decide) v (by omega)
    have e4 := replaceAll_eq_self '\'' n4
    rw [e4] at h
    refine ⟨?_, ?_⟩
    · intro x hx
      simp only [List.mem_cons, List.not_mem_nil, or_false] at hx
      rcases hx with rfl | rfl | rfl | rfl
      · exact n1
      · exact n2
      · exact n3
      · exact n4
    · intro s hs
      by_contra hne
      have hlt := length_decodeReferences_lt _ v le_rfl ⟨s, hs, hne⟩
      rw [h] at hlt
      exact lt_irrefl _ hlt
  · intro h
    rw [replaceAll_eq_self '<' (h.entities '<' (by decide)), replaceAll_eq_self '>' (h.entities '>' (by decide)),
      replaceAll_eq_self '"' (h.entities '"' (by decide)), replaceAll_eq_self '\'' (h.entities '\'' (by decide))]
    exact decodeReferences_eq_self _ v le_rfl h.references

end Fsmc.Frontend.XmlEntities
