/-
# Fsmc.Frontend.XmlReader — reading elements that were written as XML.

The reader goes from tag to tag with a stack of open elements, and ends on every text. A printed tree of elements is
read to the end, and what is read is the tree with every attribute value escaped and unescaped. So it is the tree
itself exactly when all values are literal.
-/
import Fsmc.Frontend.XmlEntities
import Fsmc.Ir.Action

namespace Fsmc.Frontend.XmlReader

open Fsmc.Cpp Fsmc.Frontend.XmlEntities

/-! ## Elements -/

/-- The entries of a `std::map`, in the order in which they were made. -/
abbrev Attributes := List (List Char × List Char)

structure XmlNode where
  tag : List Char := []
  attributes : Attributes := []
  textContent : List Char := []
  children : List XmlNode := []

def setAttr (attrs : Attributes) (name value : List Char) : Attributes :=
  if attrs.any fun a => a.1 = name then attrs.map fun a => if a.1 = name then (name, value) else a
  else attrs ++ [(name, value)]

/-! ## Tags -/

def trimSv (text : List Char) : List Char := (text.dropWhile isSpace).rdropWhile isSpace

/-- A character of the name of an attribute. -/
def inName (c : Char) : Bool := c ≠ '=' && !isSpace c

/-- The loop over attributes, `none` while it is running. -/
def attrLoop : ℕ → List Char → Attributes → Option Attributes
  | 0, _, _ => none
  | fuel + 1, body, attrs =>
    let body := body.dropWhile isSpace
    if body = [] then some attrs
    else
      let name := body.takeWhile inName
      match (body.dropWhile inName).dropWhile isSpace with
      | '=' :: rest =>
        match rest.dropWhile isSpace with
        | [] => attrLoop fuel [] attrs
        | quote :: rest =>
          if quote = '"' ∨ quote = '\'' then
            attrLoop fuel ((rest.dropWhile (· ≠ quote)).drop 1)
              (setAttr attrs name (unescapeXml (rest.takeWhile (· ≠ quote))))
          else attrLoop fuel (quote :: rest) attrs
      | rest => attrLoop fuel rest (if name = [] then attrs else setAttr attrs name "true".toList)

/-- A character of a tag name. -/
def inTag (c : Char) : Bool := !isSpace c && c ≠ '/'

def parseTagBody (body : List Char) : Option (List Char × Attributes) :=
  let body := body.dropWhile isSpace
  (attrLoop (body.length + 1) (body.dropWhile inTag) []).map fun attrs => (body.takeWhile inTag, attrs)

/-- The body of a tag up to the bracket that closes it outside quotes, and what follows. -/
def scanTag : Option Char → List Char → Option (List Char × List Char)
  | _, [] => none
  | some quote, c :: text => (scanTag (if c = quote then none else some quote) text).map fun r => (c :: r.1, r.2)
  | none, c :: text =>
    if c = '"' ∨ c = '\'' then (scanTag (some c) text).map fun r => (c :: r.1, r.2)
    else if c = '>' then some ([], text)
    else (scanTag none text).map fun r => (c :: r.1, r.2)

/-! ## The reader -/

/-- The text that is left, the innermost open element and those around it; the last one is the root. -/
structure State where
  text : List Char
  top : XmlNode
  below : List XmlNode

/-- What a turn of the loop does: go on, leave the loop, or return an error. -/
inductive Next where
  | goOn (st : State)
  | stop (st : State)
  | fail (err : String)
  | running

def XmlNode.addText (node : XmlNode) (text : List Char) : XmlNode :=
  { node with textContent := node.textContent ++ text }

/-- Adds the text before a tag. -/
def XmlNode.addTrimmed (node : XmlNode) (text : List Char) : XmlNode :=
  if trimSv text = [] then node else node.addText (unescapeXml (trimSv text))

def XmlNode.addChild (node child : XmlNode) : XmlNode := { node with children := node.children ++ [child] }

/-- Goes on behind the next `>`. -/
def behindClose (text : List Char) : Option (List Char) :=
  match text.dropWhile (· ≠ '>') with
  | [] => none
  | _ :: rest => some rest

/-- Closes the innermost element, if it is not the root. -/
def State.pop (st : State) (text : List Char) : State :=
  match st.below with
  | [] => { st with text }
  | parent :: below => ⟨text, parent.addChild st.top, below⟩

/-- A turn that begins at a tag. -/
def tagStep (st : State) (rest : List Char) : Next :=
  if "<![CDATA[".toList <+: rest then
    match findSub "]]>".toList (rest.drop 9) with
    | none => .fail "Malformed XML: unclosed CDATA section"
    | some i => .goOn { st with text := rest.drop (9 + (i + 3)), top := st.top.addText ((rest.drop 9).take i) }
  else if "<!--".toList <+: rest then
    match findSub "-->".toList (rest.drop 4) with
    | none => .stop st
    | some i => .goOn { st with text := rest.drop (4 + (i + 3)) }
  else if "<?".toList <+: rest ∨ "<!".toList <+: rest then
    match behindClose (rest.drop 2) with
    | none => .stop st
    | some text => .goOn { st with text }
  else if "</".toList <+: rest then
    match behindClose (rest.drop 2) with
    | none => .fail "Malformed XML: unclosed closing tag"
    | some text => .goOn (st.pop text)
  else
    match scanTag none (rest.drop 1) with
    | none => .fail "Malformed XML: unclosed opening tag"
    | some (body, text) =>
      let isSelfClosing := body.getLast? = some '/'
      match parseTagBody (if isSelfClosing then body.dropLast else body) with
      | none => .running
      | some (tag, attributes) =>
        if isSelfClosing then .goOn { st with text, top := st.top.addChild { tag, attributes } }
        else .goOn ⟨text, { tag, attributes }, st.top :: st.below⟩

/-- A turn of the loop. -/
def step (st : State) : Next :=
  let st' := { st with top := st.top.addTrimmed (st.text.takeWhile (· ≠ '<')) }
  match st.text.dropWhile (· ≠ '<') with
  | [] => .stop st'
  | c :: rest => tagStep st' (c :: rest)

/-- What is returned when the loop is over. -/
def finish (st : State) : Except String XmlNode :=
  match st.below with
  | _ :: _ => .error ("Malformed XML: unclosed tag <" ++ String.ofList st.top.tag ++ ">")
  | [] =>
    match st.top.children with
    | [] => .error "Empty XML document"
    | [child] => .ok child
    | _ => .ok st.top

/-- The loop, `none` while it is running. -/
def run : ℕ → State → Option (Except String XmlNode)
  | 0, _ => none
  | fuel + 1, st =>
    if st.text = [] then some (finish st)
    else
      match step st with
      | .goOn st' => run fuel st'
      | .stop st' => some (finish st')
      | .fail err => some (.error err)
      | .running => none

def start (xmlText : List Char) : State := ⟨xmlText, { tag := "__ROOT__".toList }, []⟩

def parse (xmlText : List Char) : Option (Except String XmlNode) := run (xmlText.length + 1) (start xmlText)

/-! ## The loops end -/

variable {st st' : State} {text rest : List Char}

theorem length_dropWhile_le (p : Char → Bool) (l : List Char) : (l.dropWhile p).length ≤ l.length :=
  (List.dropWhile_suffix p).length_le

theorem attrLoop_isSome : ∀ (fuel : ℕ) (body : List Char) (attrs : Attributes), body.length < fuel →
    (attrLoop fuel body attrs).isSome = true
  | 0, _, _, h => absurd h (Nat.not_lt_zero _)
  | fuel + 1, body, attrs, h => by
    rw [attrLoop]
    split
    · rfl
    · next hne =>
        have hbody := length_dropWhile_le isSpace body
        have h1 := length_dropWhile_le inName (body.dropWhile isSpace)
        have h2 := length_dropWhile_le isSpace ((body.dropWhile isSpace).dropWhile inName)
        split
        · next rest hrest =>
            rw [hrest, List.length_cons] at h2
            have h3 := length_dropWhile_le isSpace rest
            split
            · exact attrLoop_isSome fuel _ _ (by simp; omega)
            · next quote rest' hquote =>
                rw [hquote, List.length_cons] at h3
                split
                · apply attrLoop_isSome
                  have h4 := length_dropWhile_le (· ≠ quote) rest'
                  rw [List.length_drop]
                  omega
                · exact attrLoop_isSome fuel _ _ (by rw [List.length_cons]; omega)
        · next hno =>
            -- the name is not empty, for no equals sign stands here
            have hname : ((body.dropWhile isSpace).dropWhile inName).length < (body.dropWhile isSpace).length := by
              cases hfirst : body.dropWhile isSpace with
              | nil => exact absurd hfirst hne
              | cons c cs =>
                have hspace : isSpace c = false := by
                  have hhead := List.head?_dropWhile_not isSpace body
                  rw [hfirst] at hhead
                  exact hhead
                have hin : inName c = true := by
                  unfold inName
                  rw [hspace, Bool.not_false, Bool.and_true, decide_eq_true_eq]
                  rintro rfl
                  refine hno cs ?_
                  rw [hfirst, List.dropWhile_cons_of_neg (by decide), List.dropWhile_cons_of_neg (by decide)]
                rw [List.dropWhile_cons_of_pos hin]
                exact Nat.lt_succ_of_le (length_dropWhile_le inName cs)
            exact attrLoop_isSome fuel _ _ (by omega)

theorem parseTagBody_isSome (body : List Char) : (parseTagBody body).isSome = true := by
  unfold parseTagBody
  rw [Option.isSome_map]
  apply attrLoop_isSome
  have h := length_dropWhile_le inTag (body.dropWhile isSpace)
  omega

theorem length_scanTag : ∀ (quote : Option Char) (text : List Char) {body rest : List Char},
    scanTag quote text = some (body, rest) → rest.length < text.length
  | none, [], _, _, h => by cases h
  | some _, [], _, _, h => by cases h
  | some quote, c :: text, body, rest, h => by
    rw [scanTag] at h
    obtain ⟨r, hr, heq⟩ := Option.map_eq_some_iff.mp h
    obtain ⟨-, rfl⟩ := Prod.mk.inj heq
    exact Nat.lt_succ_of_lt (length_scanTag _ text hr)
  | none, c :: text, body, rest, h => by
    rw [scanTag] at h
    split at h
    · obtain ⟨r, hr, heq⟩ := Option.map_eq_some_iff.mp h
      obtain ⟨-, rfl⟩ := Prod.mk.inj heq
      exact Nat.lt_succ_of_lt (length_scanTag _ text hr)
    · split at h
      · obtain ⟨-, rfl⟩ := Prod.mk.inj (Option.some.inj h)
        exact Nat.lt_succ_self _
      · obtain ⟨r, hr, heq⟩ := Option.map_eq_some_iff.mp h
        obtain ⟨-, rfl⟩ := Prod.mk.inj heq
        exact Nat.lt_succ_of_lt (length_scanTag _ text hr)

theorem length_behindClose (h : behindClose text = some rest) : rest.length ≤ text.length := by
  unfold behindClose at h
  have hle := length_dropWhile_le (· ≠ '>') text
  split at h
  · cases h
  · next hdrop =>
      obtain rfl := Option.some.inj h
      rw [hdrop, List.length_cons] at hle
      omega

theorem length_tagStep (hne : rest ≠ []) (h : tagStep st rest = .goOn st') : st'.text.length < rest.length := by
  have hpos := List.length_pos_iff.mpr hne
  have hdrop := List.length_drop (i := 2) (l := rest)
  unfold tagStep at h
  split at h
  · split at h
    · cases h
    · obtain rfl := Next.goOn.inj h
      rw [List.length_drop]
      omega
  · split at h
    · split at h
      · cases h
      · obtain rfl := Next.goOn.inj h
        rw [List.length_drop]
        omega
    · split at h
      · split at h
        · cases h
        · next hclose =>
            obtain rfl := Next.goOn.inj h
            have hle := length_behindClose hclose
            dsimp only
            omega
      · split at h
        · split at h
          · cases h
          · next hclose =>
              obtain rfl := Next.goOn.inj h
              have hle := length_behindClose hclose
              unfold State.pop
              split <;> dsimp only <;> omega
        · split at h
          · cases h
          · next hscan =>
              have hlt := length_scanTag _ _ hscan
              rw [List.length_drop] at hlt
              dsimp only at h
              split at h
              · cases h
              · split at h
                · obtain rfl := Next.goOn.inj h
                  dsimp only
                  omega
                · obtain rfl := Next.goOn.inj h
                  dsimp only
                  omega

theorem length_step (h : step st = .goOn st') : st'.text.length < st.text.length := by
  unfold step at h
  have hle := length_dropWhile_le (· ≠ '<') st.text
  split at h
  · cases h
  · next c rest hrest =>
      have hlt := length_tagStep (List.cons_ne_nil c rest) h
      rw [hrest] at hle
      omega

theorem tagStep_ne_running : tagStep st rest ≠ .running := by
  unfold tagStep
  split
  · split <;> simp
  · split
    · split <;> simp
    · split
      · split <;> simp
      · split
        · split <;> simp
        · split
          · simp
          · dsimp only
            split
            · next hnone =>
                exact absurd hnone (Option.isSome_iff_ne_none.mp (parseTagBody_isSome _))
            · split <;> simp

theorem step_ne_running (st : State) : step st ≠ .running := by
  unfold step
  split
  · simp
  · exact tagStep_ne_running

theorem run_isSome : ∀ (fuel : ℕ) (st : State), st.text.length < fuel → (run fuel st).isSome = true
  | 0, _, h => absurd h (Nat.not_lt_zero _)
  | fuel + 1, st, h => by
    rw [run]
    split
    · rfl
    · cases hstep : step st with
      | goOn st' =>
        have hlt := length_step hstep
        exact run_isSome fuel st' (by omega)
      | stop st' => rfl
      | fail err => rfl
      | running => exact absurd hstep (step_ne_running st)

theorem run_eq : ∀ (fuel fuel' : ℕ) (st : State), st.text.length < fuel → st.text.length < fuel' →
    run fuel st = run fuel' st
  | 0, _, _, h, _ => absurd h (Nat.not_lt_zero _)
  | _ + 1, 0, _, _, h => absurd h (Nat.not_lt_zero _)
  | fuel + 1, fuel' + 1, st, h, h' => by
    rw [run, run]
    split
    · rfl
    · cases hstep : step st with
      | goOn st' =>
        have hlt := length_step hstep
        exact run_eq fuel fuel' st' (by omega) (by omega)
      | stop st' => rfl
      | fail err => rfl
      | running => rfl

def outcome (st : State) : Option (Except String XmlNode) := run (st.text.length + 1) st

theorem outcome_eq_of_step (h : step st = .goOn st') : outcome st = outcome st' := by
  have hlt := length_step h
  have hne : st.text ≠ [] := by
    intro hnil
    rw [hnil] at hlt
    simp at hlt
  unfold outcome
  rw [run, if_neg hne, h]
  exact run_eq _ _ _ hlt (Nat.lt_succ_self _)

/-! ## Printed elements -/

def isNameChar (c : Char) : Bool := Ir.isIdentChar c || c = '-' || c = '.' || c = ':'

/-- A name of an element or an attribute. -/
structure IsName (name : List Char) : Prop where
  nonempty : name ≠ []
  chars : ∀ c ∈ name, isNameChar c = true

/-- How an attribute is written. -/
def attrText (a : List Char × List Char) : List Char := ' ' :: (a.1 ++ '=' :: '"' :: (escapeXml a.2 ++ ['"']))

/-- What stands in the brackets of a tag. -/
def tagText (tag : List Char) (attrs : Attributes) : List Char := tag ++ attrs.flatMap attrText

/-- Names, and attributes with different names. -/
structure IsTag (tag : List Char) (attrs : Attributes) : Prop where
  tag : IsName tag
  names : ∀ a ∈ attrs, IsName a.1
  nodup : (attrs.map Prod.fst).Nodup

def Blanks (ws : List Char) : Prop := ∀ c ∈ ws, isSpace c = true

/-- The texts of elements in a row, with white space around them. -/
inductive Prints : List XmlNode → List Char → Prop
  | nil {ws : List Char} (hws : Blanks ws) : Prints [] ws
  | leaf {tag : List Char} {attrs : Attributes} {nodes : List XmlNode} {ws text : List Char} (hws : Blanks ws)
      (htag : IsTag tag attrs) (h : Prints nodes text) :
      Prints (⟨tag, attrs, [], []⟩ :: nodes) (ws ++ '<' :: (tagText tag attrs ++ '/' :: '>' :: text))
  | node {tag : List Char} {attrs : Attributes} {children nodes : List XmlNode} {ws content text : List Char}
      (hws : Blanks ws) (htag : IsTag tag attrs) (hchildren : Prints children content) (h : Prints nodes text) :
      Prints (⟨tag, attrs, [], children⟩ :: nodes)
        (ws ++ '<' :: (tagText tag attrs ++ '>' :: (content ++ '<' :: '/' :: (tag ++ '>' :: text))))

/-- An attribute with its value written and read. -/
def recodeAttr (a : List Char × List Char) : List Char × List Char := (a.1, unescapeXml (escapeXml a.2))

mutual

/-- An element with all values written and read. -/
def XmlNode.recode : XmlNode → XmlNode
  | ⟨tag, attrs, text, children⟩ => ⟨tag, attrs.map recodeAttr, text, recodeAll children⟩

/-- Elements with all values written and read. -/
def recodeAll : List XmlNode → List XmlNode
  | [] => []
  | node :: nodes => node.recode :: recodeAll nodes

end

mutual

/-- The values of an element and of those in it. -/
def XmlNode.values : XmlNode → List (List Char)
  | ⟨_, attrs, _, children⟩ => attrs.map Prod.snd ++ valuesAll children

def valuesAll : List XmlNode → List (List Char)
  | [] => []
  | node :: nodes => node.values ++ valuesAll nodes

end

theorem isNameChar_ne {c d : Char} (hc : isNameChar c = true) (hd : isNameChar d = false) : c ≠ d := by
  rintro rfl
  rw [hc] at hd
  cases hd

variable {c : Char} {ws : List Char}

theorem isSpace_of_isNameChar (hc : isNameChar c = true) : isSpace c = false := by
  rw [Bool.eq_false_iff]
  intro hspace
  unfold isSpace at hspace
  simp only [Bool.or_eq_true, decide_eq_true_eq] at hspace
  rcases hspace with ((((rfl | rfl) | rfl) | rfl) | rfl) | rfl <;> exact absurd hc (by decide)

theorem quote_notMem_escapeXml (v : List Char) : '"' ∉ escapeXml v := by
  intro hmem
  obtain ⟨c, -, hc⟩ := List.mem_flatMap.mp hmem
  unfold escapeChar at hc
  repeat' split at hc
  all_goals simp at hc
  · exact absurd hc.symm ‹_›

/-! ## Reading tags -/

theorem takeWhile_run {p : Char → Bool} {w t : List Char} (hw : ∀ d ∈ w, p d = true) (hc : p c = false) :
    (w ++ c :: t).takeWhile p = w ∧ (w ++ c :: t).dropWhile p = c :: t := by
  rw [List.takeWhile_append_of_pos hw, List.dropWhile_append_of_pos hw, List.takeWhile_cons_of_neg (by simp [hc]),
    List.dropWhile_cons_of_neg (by simp [hc]), List.append_nil]
  exact ⟨rfl, rfl⟩

theorem attrLoop_attr {name : List Char} (hname : IsName name) (value more : List Char) (fuel : ℕ)
    (attrs : Attributes) : attrLoop (fuel + 1) (attrText (name, value) ++ more) attrs =
      attrLoop fuel more (setAttr attrs name (unescapeXml (escapeXml value))) := by
  obtain ⟨c, w, rfl⟩ : ∃ c w, name = c :: w := by
    cases name with
    | nil => exact absurd rfl hname.nonempty
    | cons c w => exact ⟨c, w, rfl⟩
  have hin : ∀ d ∈ c :: w, inName d = true := by
    intro d hd
    have hchar := hname.chars d hd
    unfold inName
    rw [isSpace_of_isNameChar hchar, Bool.not_false, Bool.and_true, decide_eq_true_eq]
    exact isNameChar_ne hchar (by decide)
  have htext : attrText (c :: w, value) ++ more =
      ' ' :: ((c :: w) ++ '=' :: '"' :: (escapeXml value ++ '"' :: more)) := by
    simp [attrText]
  have hspace : (' ' :: ((c :: w) ++ '=' :: '"' :: (escapeXml value ++ '"' :: more))).dropWhile isSpace =
      (c :: w) ++ '=' :: '"' :: (escapeXml value ++ '"' :: more) := by
    have hc := isSpace_of_isNameChar (hname.chars c List.mem_cons_self)
    rw [List.dropWhile_cons_of_pos (by decide), List.cons_append, List.dropWhile_cons_of_neg (by simp [hc])]
  obtain ⟨htake, hdrop⟩ := takeWhile_run (p := inName) (t := '"' :: (escapeXml value ++ '"' :: more)) (c := '=') hin
    (by decide)
  have hquote : ∀ d ∈ escapeXml value, decide (d ≠ '"') = true := by
    intro d hd
    rw [decide_eq_true_eq]
    rintro rfl
    exact quote_notMem_escapeXml value hd
  obtain ⟨hvalue, hrest⟩ := takeWhile_run (p := fun d => decide (d ≠ '"')) (t := more) (c := '"') hquote (by decide)
  have hequals : ('=' :: '"' :: (escapeXml value ++ '"' :: more)).dropWhile isSpace =
      '=' :: '"' :: (escapeXml value ++ '"' :: more) := List.dropWhile_cons_of_neg (by decide)
  have hopen : ('"' :: (escapeXml value ++ '"' :: more)).dropWhile isSpace = '"' :: (escapeXml value ++ '"' :: more) :=
    List.dropWhile_cons_of_neg (by decide)
  have hne : (c :: w) ++ '=' :: '"' :: (escapeXml value ++ '"' :: more) ≠ [] := List.cons_ne_nil _ _
  rw [attrLoop, htext, hspace]
  dsimp only
  rw [if_neg hne, htake, hdrop, hequals]
  simp only [hopen]
  rw [if_pos (Or.inl trivial), hvalue, hrest]
  rfl

theorem setAttr_of_notMem {attrs : Attributes} {name value : List Char} (h : name ∉ attrs.map Prod.fst) :
    setAttr attrs name value = attrs ++ [(name, value)] := by
  refine if_neg fun hany => ?_
  obtain ⟨a, ha, hname⟩ := List.any_eq_true.mp hany
  exact h (List.mem_map.mpr ⟨a, ha, of_decide_eq_true hname⟩)

theorem attrLoop_attrs : ∀ (attrs acc : Attributes) (fuel : ℕ), (∀ a ∈ attrs, IsName a.1) →
    ((acc ++ attrs).map Prod.fst).Nodup → (attrs.flatMap attrText).length < fuel →
      attrLoop fuel (attrs.flatMap attrText) acc = some (acc ++ attrs.map recodeAttr)
  | _, _, 0, _, _, h => absurd h (Nat.not_lt_zero _)
  | [], acc, fuel + 1, _, _, _ => by
    rw [List.map_nil, List.append_nil]
    rfl
  | (name, value) :: attrs, acc, fuel + 1, hnames, hnodup, hfuel => by
    obtain ⟨hname, hnames⟩ := List.forall_mem_cons.mp hnames
    have hfresh : name ∉ acc.map Prod.fst := by
      intro hmem
      rw [List.map_append, List.map_cons] at hnodup
      exact (List.nodup_append.mp hnodup).2.2 name hmem name List.mem_cons_self rfl
    rw [List.flatMap_cons, attrLoop_attr hname, setAttr_of_notMem hfresh, attrLoop_attrs attrs _ fuel hnames]
    · rw [List.append_assoc]
      rfl
    · rw [List.map_append, List.map_append, List.append_assoc]
      rw [List.map_append] at hnodup
      exact hnodup
    · rw [List.flatMap_cons, List.length_append] at hfuel
      have hpos : 0 < (attrText (name, value)).length := Nat.succ_pos _
      omega

theorem inTag_of_isNameChar (hc : isNameChar c = true) : inTag c = true := by
  unfold inTag
  rw [isSpace_of_isNameChar hc, Bool.not_false, Bool.true_and, decide_eq_true_eq]
  exact isNameChar_ne hc (by decide)

theorem IsName.exists_cons {name : List Char} (h : IsName name) : ∃ c w, name = c :: w ∧ isNameChar c = true := by
  cases name with
  | nil => exact absurd rfl h.nonempty
  | cons c w => exact ⟨c, w, rfl, h.chars c List.mem_cons_self⟩

variable {tag : List Char} {attrs : Attributes}

theorem parseTagBody_tagText (h : IsTag tag attrs) :
    parseTagBody (tagText tag attrs) = some (tag, attrs.map recodeAttr) := by
  have hspace : (tagText tag attrs).dropWhile isSpace = tagText tag attrs := by
    obtain ⟨c, w, rfl, hc⟩ := h.tag.exists_cons
    exact List.dropWhile_cons_of_neg (by simp [isSpace_of_isNameChar hc])
  have hin : ∀ d ∈ tag, inTag d = true := fun d hd => inTag_of_isNameChar (h.tag.chars d hd)
  have hsplit : (tagText tag attrs).takeWhile inTag = tag ∧
      (tagText tag attrs).dropWhile inTag = attrs.flatMap attrText := by
    unfold tagText
    cases attrs with
    | nil =>
      rw [List.flatMap_nil, List.append_nil, List.takeWhile_eq_self_iff.mpr hin, List.dropWhile_eq_nil_iff.mpr hin]
      exact ⟨rfl, rfl⟩
    | cons a attrs =>
      rw [List.flatMap_cons, attrText, List.cons_append]
      exact takeWhile_run hin (by decide)
  have hloop := attrLoop_attrs attrs [] ((tagText tag attrs).length + 1) h.names h.nodup (by
    unfold tagText
    rw [List.length_append]
    omega)
  unfold parseTagBody
  rw [hspace]
  dsimp only
  rw [hsplit.1, hsplit.2, hloop]
  rfl

/-- The scan for the bracket goes over such a text and is outside quotes behind it. -/
def Skips (w : List Char) : Prop := ∀ t, scanTag none (w ++ t) = (scanTag none t).map fun r => (w ++ r.1, r.2)

variable {v w : List Char}

theorem Skips.append (hv : Skips v) (hw : Skips w) : Skips (v ++ w) := by
  intro t
  rw [List.append_assoc, hv, hw, Option.map_map]
  congr 1
  funext r
  exact congrArg (·, r.2) (List.append_assoc v w r.1).symm

theorem skips_of_plain : ∀ {w : List Char}, (∀ d ∈ w, d ≠ '"' ∧ d ≠ '\'' ∧ d ≠ '>') → Skips w
  | [], _, t => by simp
  | d :: w, h, t => by
    obtain ⟨⟨hdouble, hsingle, hclose⟩, hw⟩ := List.forall_mem_cons.mp h
    rw [List.cons_append, scanTag, if_neg (by simp [hdouble, hsingle]), if_neg hclose, skips_of_plain hw t,
      Option.map_map]
    rfl

theorem scanTag_quoted : ∀ (w t : List Char), '"' ∉ w →
    scanTag (some '"') (w ++ '"' :: t) = (scanTag none t).map fun r => (w ++ '"' :: r.1, r.2)
  | [], t, _ => by
    rw [List.nil_append, scanTag, if_pos rfl]
    rfl
  | d :: w, t, h => by
    rw [List.mem_cons, not_or] at h
    rw [List.cons_append, scanTag, if_neg (Ne.symm h.1), scanTag_quoted w t h.2, Option.map_map]
    rfl

theorem skips_of_isName (h : IsName w) : Skips w :=
  skips_of_plain fun d hd =>
    ⟨isNameChar_ne (h.chars d hd) (by decide), isNameChar_ne (h.chars d hd) (by decide),
      isNameChar_ne (h.chars d hd) (by decide)⟩

theorem skips_attrText {a : List Char × List Char} (h : IsName a.1) : Skips (attrText a) := by
  have hquoted : Skips ('"' :: (escapeXml a.2 ++ ['"'])) := by
    intro t
    rw [List.cons_append, scanTag, if_pos (Or.inl rfl), List.append_assoc, List.singleton_append,
      scanTag_quoted _ t (quote_notMem_escapeXml a.2), Option.map_map]
    congr 1
    funext r
    simp
  have heq : attrText a = [' '] ++ (a.1 ++ (['='] ++ '"' :: (escapeXml a.2 ++ ['"']))) := rfl
  rw [heq]
  exact Skips.append (skips_of_plain (by decide))
    (Skips.append (skips_of_isName h) (Skips.append (skips_of_plain (by decide)) hquoted))

theorem skips_attrs : ∀ {attrs : Attributes}, (∀ a ∈ attrs, IsName a.1) → Skips (attrs.flatMap attrText)
  | [], _ => skips_of_plain (by simp)
  | a :: attrs, h => by
    obtain ⟨ha, h⟩ := List.forall_mem_cons.mp h
    rw [List.flatMap_cons]
    exact Skips.append (skips_attrText ha) (skips_attrs h)

theorem skips_tagText (h : IsTag tag attrs) : Skips (tagText tag attrs) :=
  Skips.append (skips_of_isName h.tag) (skips_attrs h.names)

theorem getLast?_tagText (h : IsTag tag attrs) : (tagText tag attrs).getLast? ≠ some '/' := by
  unfold tagText
  rcases List.eq_nil_or_concat attrs with rfl | ⟨before, a, rfl⟩
  · rw [List.flatMap_nil, List.append_nil]
    intro hlast
    exact isNameChar_ne (h.tag.chars _ (List.mem_of_getLast? hlast)) (by decide) rfl
  · have heq : tag ++ (before.concat a).flatMap attrText =
        (tag ++ before.flatMap attrText ++ ' ' :: (a.1 ++ '=' :: '"' :: escapeXml a.2)) ++ ['"'] := by
      simp [attrText]
    rw [heq, List.getLast?_concat]
    decide

/-! ## Reading printed elements -/

theorem not_prefix_of_ne {p t : List Char} {a c d : Char} (hp : p[1]? = some d) (hne : c ≠ d) :
    ¬ p <+: a :: c :: t := by
  intro hprefix
  obtain ⟨hlen, hget⟩ := List.getElem?_eq_some_iff.mp hp
  have hsecond := hprefix.getElem hlen
  rw [hget] at hsecond
  exact hne hsecond.symm

theorem tagStep_opening {t body text : List Char} (hc : isNameChar c = true) (st : State)
    (hscan : scanTag none (c :: t) = some (body, text))
    (hbody : parseTagBody (if body.getLast? = some '/' then body.dropLast else body) = some (tag, attrs)) :
    tagStep st ('<' :: c :: t) =
      if body.getLast? = some '/' then .goOn { st with text, top := st.top.addChild { tag, attributes := attrs } }
      else .goOn ⟨text, { tag, attributes := attrs }, st.top :: st.below⟩ := by
  have hbang : c ≠ '!' := isNameChar_ne hc (by decide)
  have hask : c ≠ '?' := isNameChar_ne hc (by decide)
  have hslash : c ≠ '/' := isNameChar_ne hc (by decide)
  have hpi : ¬ "<?".toList <+: '<' :: c :: t := not_prefix_of_ne rfl hask
  have hdecl : ¬ "<!".toList <+: '<' :: c :: t := not_prefix_of_ne rfl hbang
  unfold tagStep
  rw [if_neg (not_prefix_of_ne rfl hbang : ¬ "<![CDATA[".toList <+: _),
    if_neg (not_prefix_of_ne rfl hbang : ¬ "<!--".toList <+: _), if_neg (not_or.mpr ⟨hpi, hdecl⟩),
    if_neg (not_prefix_of_ne rfl hslash : ¬ "</".toList <+: _)]
  rw [List.drop_succ_cons, List.drop_zero, hscan]
  dsimp only
  rw [hbody]

theorem tagStep_leaf (h : IsTag tag attrs) (st : State) (text : List Char) :
    tagStep st ('<' :: (tagText tag attrs ++ '/' :: '>' :: text)) =
      .goOn { st with text, top := st.top.addChild { tag, attributes := attrs.map recodeAttr } } := by
  have hscan : scanTag none (tagText tag attrs ++ '/' :: '>' :: text) = some (tagText tag attrs ++ ['/'], text) := by
    rw [skips_tagText h]
    rfl
  have hlast : (tagText tag attrs ++ ['/']).getLast? = some '/' := List.getLast?_concat
  have hbody : parseTagBody (if (tagText tag attrs ++ ['/']).getLast? = some '/' then
      (tagText tag attrs ++ ['/']).dropLast else tagText tag attrs ++ ['/']) = some (tag, attrs.map recodeAttr) := by
    rw [if_pos hlast, List.dropLast_concat]
    exact parseTagBody_tagText h
  obtain ⟨c, w, heq, hc⟩ := h.tag.exists_cons
  have htext : tagText tag attrs ++ '/' :: '>' :: text = c :: (w ++ attrs.flatMap attrText ++ '/' :: '>' :: text) := by
    rw [tagText, heq]
    rfl
  rw [htext] at hscan ⊢
  rw [tagStep_opening hc st hscan hbody, if_pos hlast]

theorem tagStep_node (h : IsTag tag attrs) (st : State) (text : List Char) :
    tagStep st ('<' :: (tagText tag attrs ++ '>' :: text)) =
      .goOn ⟨text, { tag, attributes := attrs.map recodeAttr }, st.top :: st.below⟩ := by
  have hscan : scanTag none (tagText tag attrs ++ '>' :: text) = some (tagText tag attrs, text) := by
    rw [skips_tagText h]
    simp [scanTag]
  have hlast := getLast?_tagText h
  have hbody : parseTagBody (if (tagText tag attrs).getLast? = some '/' then (tagText tag attrs).dropLast
      else tagText tag attrs) = some (tag, attrs.map recodeAttr) := by
    rw [if_neg hlast]
    exact parseTagBody_tagText h
  obtain ⟨c, w, heq, hc⟩ := h.tag.exists_cons
  have htext : tagText tag attrs ++ '>' :: text = c :: (w ++ attrs.flatMap attrText ++ '>' :: text) := by
    rw [tagText, heq]
    rfl
  rw [htext] at hscan ⊢
  rw [tagStep_opening hc st hscan hbody, if_neg hlast]

theorem addTrimmed_blanks (hws : Blanks ws) (node : XmlNode) : node.addTrimmed ws = node := by
  unfold XmlNode.addTrimmed trimSv
  rw [List.dropWhile_eq_nil_iff.mpr hws]
  rfl

theorem tagStep_close (h : IsName tag) (st : State) (text : List Char) :
    tagStep st ('<' :: '/' :: (tag ++ '>' :: text)) = .goOn (st.pop text) := by
  have hclose : behindClose (tag ++ '>' :: text) = some text := by
    have hne : ∀ d ∈ tag, decide (d ≠ '>') = true := fun d hd =>
      decide_eq_true (isNameChar_ne (h.chars d hd) (by decide))
    unfold behindClose
    rw [(takeWhile_run hne (by decide)).2]
  have hbang : '/' ≠ '!' := by decide
  have hpi : ¬ "<?".toList <+: '<' :: '/' :: (tag ++ '>' :: text) := not_prefix_of_ne rfl (by decide)
  have hdecl : ¬ "<!".toList <+: '<' :: '/' :: (tag ++ '>' :: text) := not_prefix_of_ne rfl hbang
  have hslash : "</".toList <+: '<' :: '/' :: (tag ++ '>' :: text) := ⟨tag ++ '>' :: text, rfl⟩
  unfold tagStep
  rw [if_neg (not_prefix_of_ne rfl hbang : ¬ "<![CDATA[".toList <+: _),
    if_neg (not_prefix_of_ne rfl hbang : ¬ "<!--".toList <+: _), if_neg (not_or.mpr ⟨hpi, hdecl⟩), if_pos hslash]
  rw [List.drop_succ_cons, List.drop_succ_cons, List.drop_zero, hclose]

theorem step_blanks (hws : Blanks ws) (t : List Char) (top : XmlNode) (below : List XmlNode) :
    step ⟨ws ++ '<' :: t, top, below⟩ = tagStep ⟨ws ++ '<' :: t, top, below⟩ ('<' :: t) := by
  have hno : ∀ d ∈ ws, decide (d ≠ '<') = true := by
    intro d hd
    rw [decide_eq_true_eq]
    rintro rfl
    exact absurd (hws _ hd) (by decide)
  obtain ⟨htake, hdrop⟩ := takeWhile_run (t := t) (c := '<') hno (by decide)
  unfold step
  dsimp only
  rw [htake, hdrop, addTrimmed_blanks hws]

/-- The element with elements added at its end. -/
def XmlNode.addChildren (node : XmlNode) (nodes : List XmlNode) : XmlNode :=
  { node with children := node.children ++ nodes }

theorem addChildren_nil (node : XmlNode) : node.addChildren [] = node := by
  cases node
  rw [XmlNode.addChildren, List.append_nil]

theorem addChildren_addChild (node child : XmlNode) (nodes : List XmlNode) :
    (node.addChild child).addChildren nodes = node.addChildren (child :: nodes) := by
  unfold XmlNode.addChildren XmlNode.addChild
  rw [List.append_assoc]
  rfl

/-- Printed elements are read into the innermost element, and only white space is left of them. -/
theorem outcome_prints {nodes : List XmlNode} {text : List Char} (h : Prints nodes text) :
    ∀ (rest : List Char) (top : XmlNode) (below : List XmlNode), ∃ ws, Blanks ws ∧
      outcome ⟨text ++ rest, top, below⟩ = outcome ⟨ws ++ rest, top.addChildren (recodeAll nodes), below⟩ := by
  induction h with
  | @nil ws hws =>
    intro rest top below
    refine ⟨ws, hws, ?_⟩
    rw [recodeAll, addChildren_nil]
  | @leaf tag attrs nodes ws text hws htag h ih =>
    intro rest top below
    obtain ⟨ws', hws', hrest⟩ := ih rest (top.addChild ⟨tag, attrs.map recodeAttr, [], []⟩) below
    refine ⟨ws', hws', ?_⟩
    have htext : ws ++ '<' :: (tagText tag attrs ++ '/' :: '>' :: text) ++ rest =
        ws ++ '<' :: (tagText tag attrs ++ '/' :: '>' :: (text ++ rest)) := by
      simp
    have hstep := (step_blanks hws (tagText tag attrs ++ '/' :: '>' :: (text ++ rest)) top below).trans
      (tagStep_leaf htag _ (text ++ rest))
    rw [htext, outcome_eq_of_step hstep, hrest, addChildren_addChild, recodeAll, XmlNode.recode, recodeAll]
  | @node tag attrs children nodes ws content text hws htag hchildren h ihchildren ih =>
    intro rest top below
    obtain ⟨inner, hinner, hcontent⟩ := ihchildren ('<' :: '/' :: (tag ++ '>' :: (text ++ rest)))
      ⟨tag, attrs.map recodeAttr, [], []⟩ (top :: below)
    obtain ⟨ws', hws', hrest⟩ :=
      ih rest (top.addChild ⟨tag, attrs.map recodeAttr, [], recodeAll children⟩) below
    refine ⟨ws', hws', ?_⟩
    have htext : ws ++ '<' :: (tagText tag attrs ++ '>' :: (content ++ '<' :: '/' :: (tag ++ '>' :: text))) ++ rest =
        ws ++ '<' :: (tagText tag attrs ++ '>' :: (content ++ '<' :: '/' :: (tag ++ '>' :: (text ++ rest)))) := by
      simp
    have hopen := (step_blanks hws _ top below).trans
      (tagStep_node htag _ (content ++ '<' :: '/' :: (tag ++ '>' :: (text ++ rest))))
    have hclose := (step_blanks hinner ('/' :: (tag ++ '>' :: (text ++ rest)))
      ((⟨tag, attrs.map recodeAttr, [], []⟩ : XmlNode).addChildren (recodeAll children)) (top :: below)).trans
      (tagStep_close htag.tag _ (text ++ rest))
    rw [htext, outcome_eq_of_step hopen, hcontent, outcome_eq_of_step hclose]
    exact hrest.trans (by rw [addChildren_addChild, recodeAll, XmlNode.recode])

theorem outcome_blanks (hws : Blanks ws) (top : XmlNode) (below : List XmlNode) :
    outcome ⟨ws, top, below⟩ = some (finish ⟨[], top, below⟩) := by
  unfold outcome
  rw [run]
  split
  · next hnil =>
      obtain rfl : ws = [] := hnil
      rfl
  · have hno : ∀ d ∈ ws, decide (d ≠ '<') = true := by
      intro d hd
      rw [decide_eq_true_eq]
      rintro rfl
      exact absurd (hws _ hd) (by decide)
    have hstep : step ⟨ws, top, below⟩ = .stop ⟨ws, top, below⟩ := by
      unfold step
      dsimp only
      rw [List.takeWhile_eq_self_iff.mpr hno, List.dropWhile_eq_nil_iff.mpr hno, addTrimmed_blanks hws]
    rw [hstep]
    rfl

theorem parse_prints {t : XmlNode} {text : List Char} (h : Prints [t] text) : parse text = some (.ok t.recode) := by
  obtain ⟨ws, hws, heq⟩ := outcome_prints h [] { tag := "__ROOT__".toList } []
  rw [List.append_nil, List.append_nil, outcome_blanks hws] at heq
  exact heq

theorem map_recodeAttr_eq_iff (attrs : Attributes) :
    attrs.map recodeAttr = attrs ↔ ∀ v ∈ attrs.map Prod.snd, Literal v := by
  calc attrs.map recodeAttr = attrs
      ↔ attrs.map recodeAttr = attrs.map id := by rw [List.map_id]
    _ ↔ ∀ a ∈ attrs, recodeAttr a = id a := List.map_inj_left
    _ ↔ ∀ a ∈ attrs, Literal a.2 := by
        refine forall₂_congr fun a _ => ?_
        rw [← unescapeXml_escapeXml_eq_iff]
        exact ⟨fun h => congrArg Prod.snd h, fun h => congrArg (a.1, ·) h⟩
    _ ↔ ∀ v ∈ attrs.map Prod.snd, Literal v := by rw [List.forall_mem_map]

mutual

theorem recode_eq_iff : ∀ node : XmlNode, node.recode = node ↔ ∀ v ∈ node.values, Literal v
  | ⟨tag, attrs, text, children⟩ => by
    rw [XmlNode.recode, XmlNode.values, List.forall_mem_append, ← map_recodeAttr_eq_iff,
      ← recodeAll_eq_iff children]
    simp

theorem recodeAll_eq_iff : ∀ nodes : List XmlNode, recodeAll nodes = nodes ↔ ∀ v ∈ valuesAll nodes, Literal v
  | [] => by simp [recodeAll, valuesAll]
  | node :: nodes => by
    rw [recodeAll, valuesAll, List.forall_mem_append, List.cons.injEq, recode_eq_iff node, recodeAll_eq_iff nodes]

end

/-- The reader ends on every text, and gives back a written element exactly when all values in it are literal. -/
theorem parse_inverts_printing_iff (input : List Char) (t : XmlNode) (text : List Char) (h : Prints [t] text) :
    parse input ≠ none ∧ (parse text = some (.ok t) ↔ ∀ v ∈ t.values, Literal v) := by
  constructor
  · exact Option.isSome_iff_ne_none.mp (run_isSome _ (start input) (Nat.lt_succ_self _))
  · rw [parse_prints h, ← recode_eq_iff, Option.some_inj, Except.ok.injEq]

theorem prints_single (value : List Char) :
    Prints [⟨['a'], [(['v'], value)], [], []⟩] ('<' :: (tagText ['a'] [(['v'], value)] ++ ['/', '>'])) := by
  have hname : ∀ {c : Char}, isNameChar c = true → IsName [c] := by
    intro c hc
    exact ⟨List.cons_ne_nil _ _, fun d hd => by rwa [List.mem_singleton.mp hd]⟩
  have htag : IsTag ['a'] [(['v'], value)] := by
    refine ⟨hname (by decide), fun a ha => ?_, by simp⟩
    rw [List.mem_singleton.mp ha]
    exact hname (by decide)
  exact Prints.leaf (fun c hc => absurd hc List.not_mem_nil) htag (.nil fun c hc => absurd hc List.not_mem_nil)

theorem parse_inverts_printing_plain :
    Prints [⟨['a'], [(['v'], "x<&".toList)], [], []⟩] "<a v=\"x&lt;&amp;\"/>".toList ∧
      parse "<a v=\"x&lt;&amp;\"/>".toList = some (.ok ⟨['a'], [(['v'], "x<&".toList)], [], []⟩) := by
  have hprints := prints_single "x<&".toList
  refine ⟨hprints, (parse_inverts_printing_iff [] _ _ hprints).2.mpr ?_⟩
  intro v hv
  obtain rfl := List.mem_singleton.mp hv
  exact (unescapeXml_escapeXml_eq_iff _).mp (by decide +kernel)

/-- An entity in a value is written with its ampersand escaped, and read as the character it stands for. -/
theorem entity_in_value_is_decoded : Prints [⟨['a'], [(['v'], "&lt;".toList)], [], []⟩] "<a v=\"&amp;lt;\"/>".toList ∧
      parse "<a v=\"&amp;lt;\"/>".toList = some (.ok ⟨['a'], [(['v'], ['<'])], [], []⟩) :=
  ⟨prints_single "&lt;".toList, parse_prints (prints_single "&lt;".toList)⟩

end Fsmc.Frontend.XmlReader
