/-
# Fsmc.Ir.Adjacency — the transitions that a state lists.

Each state lists the positions of the transitions that leave it and of those that enter it. The lists are
made anew from the transitions; nothing else keeps them up to date, so whether they are right is a
property of a machine.
-/
import Fsmc.Ir.GraphOps
import Mathlib.Data.List.Basic

namespace Fsmc.Ir

/-! ## The two ends of a transition -/

/-- The end of a transition that a list of a state is about. -/
inductive Side where
  | outgoing | incoming
  deriving DecidableEq, Repr

namespace Side

/-- `outgoing_transitions` or `incoming_transitions`. -/
def get : Side → StateNode → List ℕ
  | outgoing, s => s.outgoingTransitions
  | incoming, s => s.incomingTransitions

def put : Side → List ℕ → StateNode → StateNode
  | outgoing, l, s => { s with outgoingTransitions := l }
  | incoming, l, s => { s with incomingTransitions := l }

/-- `source` or `target`. -/
def first : Side → TransitionEdge → String
  | outgoing, t => t.source
  | incoming, t => t.target

/-- `source_ids` or `target_ids`. -/
def others : Side → TransitionEdge → List String
  | outgoing, t => t.sourceIds
  | incoming, t => t.targetIds

@[simp] theorem get_put (side : Side) (l : List ℕ) (s : StateNode) : side.get (side.put l s) = l := by
  cases side <;> rfl

theorem get_put_of_ne {side side' : Side} (h : side ≠ side') (l : List ℕ) (s : StateNode) :
    side'.get (side.put l s) = side'.get s := by
  cases side <;> cases side' <;> first | rfl | exact absurd rfl h

end Side

/-! ## Rebuilding the lists -/

def unlisted (s : StateNode) : StateNode := { s with outgoingTransitions := [], incomingTransitions := [] }

/-- List a position. -/
def pushIndex (side : Side) (i : ℕ) (s : StateNode) : StateNode := side.put (side.get s ++ [i]) s

/-- List a position that is not listed. -/
def pushNewIndex (side : Side) (i : ℕ) (s : StateNode) : StateNode :=
  if i ∈ side.get s then s else pushIndex side i s

/-- One further end of a transition. -/
def indexOther (side : Side) (i : ℕ) (t : TransitionEdge) (ir : FsmIr) (id : String) : FsmIr :=
  if id ≠ side.first t then ir.modifyState id (pushNewIndex side i) else ir

/-- One side of a transition: its first end and then the others. -/
def indexEnd (side : Side) (i : ℕ) (t : TransitionEdge) (ir : FsmIr) : FsmIr :=
  (side.others t).foldl (indexOther side i t)
    (if side.first t = "" then ir else ir.modifyState (side.first t) (pushIndex side i))

/-- One turn of the loop. -/
def indexTransition (ir : FsmIr) (p : TransitionEdge × ℕ) : FsmIr :=
  indexEnd .incoming p.2 p.1 (indexEnd .outgoing p.2 p.1 ir)

def rebuildAdjacencyIndices (ir : FsmIr) : FsmIr :=
  ir.transitions.zipIdx.foldl indexTransition { ir with states := ir.states.map unlisted }

/-! ## Lists that are right -/

/-- The position of the state that a name stands for. -/
def placeOf (states : List StateNode) (name : String) : Option ℕ := states.findIdx? fun s => s.name = name

/-- The names by which a transition touches states on a side. -/
def Side.names (side : Side) (t : TransitionEdge) : List String :=
  (if side.first t = "" then [] else [side.first t]) ++ (side.others t).filter (· ≠ side.first t)

/-- A transition leaves, or enters, the state at a position. -/
def Touches (states : List StateNode) (side : Side) (t : TransitionEdge) (k : ℕ) : Prop :=
  ∃ name ∈ side.names t, placeOf states name = some k

instance (states : List StateNode) (side : Side) (t : TransitionEdge) (k : ℕ) :
    Decidable (Touches states side t k) :=
  inferInstanceAs (Decidable (∃ name ∈ side.names t, placeOf states name = some k))

/-- Every state lists exactly the positions of the transitions that leave it and of those that enter it. -/
def Indexed (ir : FsmIr) : Prop :=
  ∀ side k s, ir.states[k]? = some s → ∀ i, i ∈ side.get s ↔
    ∃ t, ir.transitions[i]? = some t ∧ Touches ir.states side t k

theorem placeOf_congr {states states' : List StateNode}
    (h : states.map (·.name) = states'.map (·.name)) (name : String) :
    placeOf states name = placeOf states' name := by
  have hplace : ∀ states : List StateNode,
      placeOf states name = (states.map (·.name)).findIdx? fun n => n = name := by
    intro states
    unfold placeOf
    rw [List.findIdx?_map]
    rfl
  rw [hplace, hplace, h]

theorem getElem?_modifyFirst (f : StateNode → StateNode) (name : String) : ∀ (states : List StateNode)
    (k : ℕ), (modifyFirst (fun s => s.name = name) f states)[k]? =
      if placeOf states name = some k then (states[k]?).map f else states[k]?
  | [], k => by simp [modifyFirst]
  | s :: states, k => by
    unfold modifyFirst placeOf
    rw [List.findIdx?_cons]
    by_cases hs : s.name = name
    · cases k with
      | zero => simp [hs]
      | succ k => simp [hs]
    · have ih := getElem?_modifyFirst f name states
      cases k with
      | zero => simp [hs]
      | succ k =>
        have hk := ih k
        unfold placeOf at hk
        simp [hs, hk]

/-! ## Rebuilt lists are right -/

/-- The list of the state at a position. -/
def listAt (side : Side) (ir : FsmIr) (k : ℕ) : List ℕ := ((ir.states[k]?).map side.get).getD []

/-- The states of two machines have the same names. -/
def SameNames (ir ir' : FsmIr) : Prop := ir'.states.map (·.name) = ir.states.map (·.name)

variable {ir ir' : FsmIr}

theorem touches_congr (h : SameNames ir ir') (side : Side) (t : TransitionEdge) (k : ℕ) :
    Touches ir'.states side t k ↔ Touches ir.states side t k := by
  unfold Touches
  exact exists_congr fun name => and_congr_right fun _ => by rw [placeOf_congr h]

/-- A machine that differs from another one by the lists of its states only. -/
structure Relisted (ir ir' : FsmIr) : Prop where
  states : ir'.states.map unlisted = ir.states.map unlisted
  rest : ir' = { ir with states := ir'.states }

theorem Relisted.refl (ir : FsmIr) : Relisted ir ir := ⟨rfl, rfl⟩

theorem Relisted.trans {ir ir' ir'' : FsmIr} (h : Relisted ir ir') (h' : Relisted ir' ir'') : Relisted ir ir'' := by
  refine ⟨h'.states.trans h.states, ?_⟩
  rw [h'.rest, h.rest]

theorem Relisted.sameNames (h : Relisted ir ir') : SameNames ir ir' := by
  have hnames : ∀ states : List StateNode,
      states.map (·.name) = (states.map unlisted).map (·.name) := by
    intro states
    rw [List.map_map]
    rfl
  show ir'.states.map _ = ir.states.map _
  rw [hnames ir'.states, h.states, ← hnames]

theorem Relisted.transitions (h : Relisted ir ir') : ir'.transitions = ir.transitions := by
  rw [h.rest]

theorem relisted_modifyState (ir : FsmIr) (name : String) {f : StateNode → StateNode}
    (hf : ∀ s, unlisted (f s) = unlisted s) : Relisted ir (ir.modifyState name f) :=
  ⟨map_modifyFirst hf ir.states, rfl⟩

variable (side : Side) {t : TransitionEdge}

@[simp] theorem unlisted_pushIndex (i : ℕ) (s : StateNode) :
    unlisted (pushIndex side i s) = unlisted s := by
  cases side <;> rfl

@[simp] theorem unlisted_pushNewIndex (i : ℕ) (s : StateNode) :
    unlisted (pushNewIndex side i s) = unlisted s := by
  unfold pushNewIndex
  split
  · rfl
  · exact unlisted_pushIndex side i s

theorem relisted_indexOther (i : ℕ) (t : TransitionEdge) (ir : FsmIr) (id : String) :
    Relisted ir (indexOther side i t ir id) := by
  unfold indexOther
  split
  · exact relisted_modifyState ir id (unlisted_pushNewIndex side i)
  · exact .refl ir

theorem relisted_others (i : ℕ) (t : TransitionEdge) (ids : List String) :
    ∀ ir : FsmIr, Relisted ir (ids.foldl (indexOther side i t) ir) := by
  induction ids with
  | nil => exact Relisted.refl
  | cons id ids ih => exact fun ir => (relisted_indexOther side i t ir id).trans (ih _)

theorem relisted_first (i : ℕ) (t : TransitionEdge) (ir : FsmIr) :
    Relisted ir (if side.first t = "" then ir else ir.modifyState (side.first t) (pushIndex side i)) := by
  split
  · exact .refl ir
  · exact relisted_modifyState ir _ (unlisted_pushIndex side i)

theorem relisted_indexEnd (i : ℕ) (t : TransitionEdge) (ir : FsmIr) :
    Relisted ir (indexEnd side i t ir) :=
  (relisted_first side i t ir).trans (relisted_others side i t _ _)

theorem relisted_foldl (ps : List (TransitionEdge × ℕ)) :
    ∀ ir : FsmIr, Relisted ir (ps.foldl indexTransition ir) := by
  induction ps with
  | nil => exact Relisted.refl
  | cons p ps ih =>
    intro ir
    have hturn : Relisted ir (indexTransition ir p) :=
      (relisted_indexEnd _ _ _ ir).trans (relisted_indexEnd _ _ _ _)
    exact hturn.trans (ih _)

theorem relisted_rebuildAdjacencyIndices (ir : FsmIr) : Relisted ir (rebuildAdjacencyIndices ir) := by
  have hcleared : Relisted ir { ir with states := ir.states.map unlisted } := by
    refine ⟨?_, rfl⟩
    show (ir.states.map unlisted).map unlisted = _
    rw [List.map_map]
    rfl
  exact hcleared.trans (relisted_foldl _ _)

theorem rebuildAdjacencyIndices_congr (h : Relisted ir ir') :
    rebuildAdjacencyIndices ir' = rebuildAdjacencyIndices ir := by
  unfold rebuildAdjacencyIndices
  have hcleared : { ir' with states := ir'.states.map unlisted } =
      { ir with states := ir.states.map unlisted } := by
    rw [h.states, h.rest]
  rw [hcleared, h.transitions]

theorem listAt_modifyState (ir : FsmIr) (name : String) (f : StateNode → StateNode) (k : ℕ)
    {g : List ℕ → List ℕ} (hg : ∀ s, side.get (f s) = g (side.get s)) :
    listAt side (ir.modifyState name f) k =
      if placeOf ir.states name = some k then g (listAt side ir k) else listAt side ir k := by
  unfold listAt
  show ((((modifyFirst _ f ir.states)[k]?).map side.get).getD []) = _
  rw [getElem?_modifyFirst]
  by_cases hplace : placeOf ir.states name = some k
  · rw [if_pos hplace, if_pos hplace]
    obtain ⟨hk, -⟩ := List.findIdx?_eq_some_iff_getElem.mp hplace
    rw [List.getElem?_eq_getElem hk]
    exact hg _
  · rw [if_neg hplace, if_neg hplace]

theorem listAt_others {side : Side} {i : ℕ} {k : ℕ} (ids : List String) :
    ∀ ir : FsmIr, listAt side (ids.foldl (indexOther side i t) ir) k =
      if i ∉ listAt side ir k ∧ ∃ id ∈ ids.filter (· ≠ side.first t), placeOf ir.states id = some k then
        listAt side ir k ++ [i]
      else listAt side ir k := by
  induction ids with
  | nil => intro ir; simp
  | cons id ids ih =>
    intro ir
    have hnames := (relisted_indexOther side i t ir id).sameNames
    have hplace : ∀ name, placeOf (indexOther side i t ir id).states name = placeOf ir.states name :=
      placeOf_congr hnames
    rw [List.foldl_cons, ih]
    simp only [hplace]
    have hlist : listAt side (indexOther side i t ir id) k =
        if id ≠ side.first t ∧ placeOf ir.states id = some k ∧ i ∉ listAt side ir k then
          listAt side ir k ++ [i]
        else listAt side ir k := by
      unfold indexOther
      by_cases hid : id ≠ side.first t
      · rw [if_pos hid, listAt_modifyState (g := fun l => if i ∈ l then l else l ++ [i])]
        · by_cases hk : placeOf ir.states id = some k
          · by_cases hi : i ∈ listAt side ir k <;> simp [hid, hk, hi]
          · simp [hk]
        · intro s
          unfold pushNewIndex pushIndex
          split
          · rfl
          · rw [Side.get_put]
      · rw [if_neg hid, if_neg fun h => hid h.1]
    by_cases hi : i ∈ listAt side ir k
    · rw [if_neg fun h => h.2.2 hi] at hlist
      rw [hlist, if_neg fun h => h.1 hi, if_neg fun h => h.1 hi]
    · by_cases hid : id ≠ side.first t
      · rw [List.filter_cons_of_pos (by simpa using hid)]
        by_cases hk : placeOf ir.states id = some k
        · -- The position is listed here, so a later name of the state does not list it again.
          rw [if_pos ⟨hid, hk, hi⟩] at hlist
          rw [hlist, if_neg fun h => h.1 (by simp), if_pos ⟨hi, id, List.mem_cons_self, hk⟩]
        · rw [if_neg fun h => hk h.2.1] at hlist
          rw [hlist]
          exact if_congr (by simp [hi, hk]) rfl rfl
      · rw [if_neg fun h => hid h.1] at hlist
        rw [hlist, List.filter_cons_of_neg (by simpa using hid)]

theorem listAt_indexEnd {side : Side} {i : ℕ} {k : ℕ} {ir : FsmIr} (hi : i ∉ listAt side ir k) :
    listAt side (indexEnd side i t ir) k =
      if Touches ir.states side t k then listAt side ir k ++ [i] else listAt side ir k := by
  have hplace : ∀ name, placeOf (if side.first t = "" then ir
      else ir.modifyState (side.first t) (pushIndex side i)).states name = placeOf ir.states name :=
    placeOf_congr (relisted_first side i t ir).sameNames
  have hlist : listAt side (if side.first t = "" then ir
      else ir.modifyState (side.first t) (pushIndex side i)) k =
      if side.first t ≠ "" ∧ placeOf ir.states (side.first t) = some k then listAt side ir k ++ [i]
      else listAt side ir k := by
    by_cases hempty : side.first t = ""
    · rw [if_pos hempty, if_neg fun h => h.1 hempty]
    · rw [if_neg hempty, listAt_modifyState (g := (· ++ [i]))]
      · simp [hempty]
      · exact fun s => side.get_put _ s
  unfold indexEnd
  generalize (if side.first t = "" then ir
    else ir.modifyState (side.first t) (pushIndex side i)) = m at hplace hlist ⊢
  rw [listAt_others]
  simp only [hplace]
  by_cases hempty : side.first t = ""
  · rw [if_neg fun h => h.1 hempty] at hlist
    rw [hlist]
    exact if_congr (by simp [Touches, Side.names, hempty, hi]) rfl rfl
  · by_cases hk : placeOf ir.states (side.first t) = some k
    · have htouches : Touches ir.states side t k := ⟨side.first t, by simp [Side.names, hempty], hk⟩
      rw [if_pos ⟨hempty, hk⟩] at hlist
      rw [hlist, if_neg fun h => h.1 (by simp), if_pos htouches]
    · rw [if_neg fun h => hk h.2] at hlist
      rw [hlist]
      exact if_congr (by simp [Touches, Side.names, hempty, hk, hi]) rfl rfl

theorem listAt_indexEnd_of_ne {side side' : Side} (h : side ≠ side') (i : ℕ) (t : TransitionEdge) (k : ℕ)
    (ir : FsmIr) : listAt side' (indexEnd side i t ir) k = listAt side' ir k := by
  have hmodify : ∀ (m : FsmIr) (name : String) (f : StateNode → StateNode),
      (∀ s, side'.get (f s) = side'.get s) → listAt side' (m.modifyState name f) k = listAt side' m k := by
    intro m name f hf
    rw [listAt_modifyState side' m name f k (g := id) hf]
    exact ite_self _
  have hpush : ∀ s, side'.get (pushIndex side i s) = side'.get s := fun s => Side.get_put_of_ne h _ s
  have hothers : ∀ (ids : List String) (m : FsmIr),
      listAt side' (ids.foldl (indexOther side i t) m) k = listAt side' m k := by
    intro ids
    induction ids with
    | nil => exact fun m => rfl
    | cons id ids ih =>
      intro m
      rw [List.foldl_cons, ih]
      unfold indexOther
      split
      · apply hmodify
        intro s
        unfold pushNewIndex
        split
        · rfl
        · exact hpush s
      · rfl
  unfold indexEnd
  rw [hothers]
  split
  · rfl
  · exact hmodify ir _ _ hpush

theorem listAt_foldl (k : ℕ) (ts : List TransitionEdge) : ∀ (n : ℕ) (ir : FsmIr),
    (∀ i ∈ listAt side ir k, i < n) →
      listAt side ((ts.zipIdx n).foldl indexTransition ir) k =
        listAt side ir k ++
          ((ts.zipIdx n).filter fun p => Touches ir.states side p.1 k).map (·.2) := by
  induction ts with
  | nil => intro n ir _; simp
  | cons t ts ih =>
    intro n ir hlt
    have hnot : n ∉ listAt side ir k := fun h => absurd (hlt n h) (Nat.lt_irrefl n)
    have hstep : listAt side (indexTransition ir (t, n)) k =
        if Touches ir.states side t k then listAt side ir k ++ [n] else listAt side ir k := by
      unfold indexTransition
      cases side with
      | outgoing => rw [listAt_indexEnd_of_ne (by decide), listAt_indexEnd hnot]
      | incoming =>
        have hother : listAt .incoming (indexEnd .outgoing n t ir) k = listAt .incoming ir k :=
          listAt_indexEnd_of_ne (by decide) n t k ir
        rw [listAt_indexEnd (by rw [hother]; exact hnot), hother]
        simp only [touches_congr (relisted_indexEnd .outgoing n t ir).sameNames]
    have hnames : SameNames ir (indexTransition ir (t, n)) :=
      ((relisted_indexEnd _ _ _ _).trans (relisted_indexEnd _ _ _ _)).sameNames
    rw [List.zipIdx_cons, List.foldl_cons, ih]
    · simp only [touches_congr hnames]
      rw [hstep, List.filter_cons]
      by_cases ht : Touches ir.states side t k
      · simp [ht]
      · simp [ht]
    · intro i hi
      rw [hstep] at hi
      split at hi
      · rcases List.mem_append.mp hi with hi | hi
        · exact Nat.lt_succ_of_lt (hlt i hi)
        · obtain rfl := List.mem_singleton.mp hi
          exact Nat.lt_succ_self i
      · exact Nat.lt_succ_of_lt (hlt i hi)

theorem listAt_rebuildAdjacencyIndices (ir : FsmIr) (k : ℕ) :
    listAt side (rebuildAdjacencyIndices ir) k =
      (ir.transitions.zipIdx.filter fun p => Touches ir.states side p.1 k).map (·.2) := by
  have hempty : listAt side { ir with states := ir.states.map unlisted } k = [] := by
    unfold listAt
    show (((ir.states.map unlisted)[k]?).map side.get).getD [] = []
    rw [List.getElem?_map, Option.map_map]
    cases ir.states[k]? with
    | none => rfl
    | some s => cases side <;> rfl
  have hnames : SameNames ir { ir with states := ir.states.map unlisted } := by
    show (ir.states.map unlisted).map _ = _
    rw [List.map_map]
    rfl
  unfold rebuildAdjacencyIndices
  rw [listAt_foldl side k ir.transitions 0 _ (by rw [hempty]; exact nofun), hempty, List.nil_append]
  simp only [touches_congr hnames]

theorem indexed_rebuildAdjacencyIndices (ir : FsmIr) : Indexed (rebuildAdjacencyIndices ir) := by
  intro side k s hs i
  have hlist : listAt side (rebuildAdjacencyIndices ir) k = side.get s := by
    unfold listAt
    rw [hs]
    rfl
  rw [← hlist, listAt_rebuildAdjacencyIndices, (relisted_rebuildAdjacencyIndices ir).transitions]
  simp only [touches_congr (relisted_rebuildAdjacencyIndices ir).sameNames]
  constructor
  · intro hi
    obtain ⟨⟨t, j⟩, hp, rfl⟩ := List.mem_map.mp hi
    obtain ⟨hp, htouches⟩ := List.mem_filter.mp hp
    exact ⟨t, List.mem_zipIdx_iff_getElem?.mp hp, of_decide_eq_true htouches⟩
  · rintro ⟨t, ht, htouches⟩
    refine List.mem_map.mpr ⟨(t, i), List.mem_filter.mpr ⟨?_, decide_eq_true htouches⟩, rfl⟩
    exact List.mem_zipIdx_iff_getElem?.mpr ht

end Fsmc.Ir
