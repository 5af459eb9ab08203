import Sicada.Unfold

namespace Sicada

section Synchronizing

variable {L W : Type} [ArcLabel L]

/- The residual strings by their ids, the empty one first. -/
structure Strings (L : Type) where
  strings : List (List L)

namespace Strings

def intern (table : Strings L) (string : List L) : ℕ × Strings L :=
  let (id, strings) := BiTable.findId table.strings string
  (id, ⟨strings⟩)

def new : Strings L := (intern ⟨[]⟩ []).2

/- Ids are only ever those that `intern` has given. -/
def get (table : Strings L) (id : ℕ) : List L := table.strings.getD id []

def head (table : Strings L) (id : ℕ) (label : L) : L := (table.get id).headD label

def append (table : Strings L) (id : ℕ) (label : L) : ℕ × Strings L :=
  if label = epsilon then (id, table) else table.intern (table.get id ++ [label])

def tail (table : Strings L) (id : ℕ) (label : L) : ℕ × Strings L :=
  if (table.get id).isEmpty then table.intern []
  else
    let (rest, table) := table.intern (table.get id).tail
    table.append rest label

def isEmpty (table : Strings L) (id : ℕ) (label : L) : Prop :=
  (table.get id).isEmpty ∧ label = epsilon

instance (table : Strings L) (id : ℕ) (label : L) : Decidable (table.isEmpty id label) :=
  inferInstanceAs (Decidable (_ ∧ _))

def len (table : Strings L) (id : ℕ) : ℕ := (table.get id).length

end Strings

/- A state of the input and what each side is holding back; without a state what is left is paid
out. -/
structure Synchronize.Element where
  state : Option ℕ
  istring : ℕ
  ostring : ℕ
deriving DecidableEq

namespace Synchronize

variable [Zero W] [One W] [DecidableEq W] (ifst : VectorFst L W)

/- The strings held back, and the result so far. -/
abbrev State (L W : Type) := Strings L × UnfoldLoop Element L W

open UnfoldLoop (findState addMove)

def addArc (state : ℕ) (element : Element) (l : State L W) (arc : Arc L W) : State L W :=
  let (strings, loop) := l
  if ¬ strings.isEmpty element.istring arc.ilabel ∧
      ¬ strings.isEmpty element.ostring arc.olabel then
    let ilabel := strings.head element.istring arc.ilabel
    let olabel := strings.head element.ostring arc.olabel
    let (istring, strings) := strings.tail element.istring arc.ilabel
    let (ostring, strings) := strings.tail element.ostring arc.olabel
    (strings, addMove state loop
      ⟨ilabel, olabel, arc.weight, ⟨some arc.nextstate, istring, ostring⟩⟩)
  else
    let (istring, strings) := strings.append element.istring arc.ilabel
    let (ostring, strings) := strings.append element.ostring arc.olabel
    (strings, addMove state loop
      ⟨epsilon, epsilon, arc.weight, ⟨some arc.nextstate, istring, ostring⟩⟩)

def addArcs (state : ℕ) (element : Element) (l : State L W) : State L W :=
  match element.state with
  | some inputState => (ifst.arcs inputState).foldl (addArc state element) l
  | none => l

/- What the path that ends here is still holding back is paid out. -/
def addFinal (state : ℕ) (element : Element) (l : State L W) : State L W :=
  let (strings, loop) := l
  let weight := match element.state with
    | some inputState => ifst.finalWeight inputState
    | none => 1
  let held := strings.len element.istring + strings.len element.ostring
  if weight ≠ 0 ∧ 0 < held then
    let ilabel := strings.head element.istring epsilon
    let olabel := strings.head element.ostring epsilon
    let (istring, strings) := strings.tail element.istring epsilon
    let (ostring, strings) := strings.tail element.ostring epsilon
    (strings, addMove state loop ⟨ilabel, olabel, weight, ⟨none, istring, ostring⟩⟩)
  else if weight ≠ 0 ∧ held = 0 then
    (strings, { loop with ofst := loop.ofst.setFinal state weight })
  else (strings, loop)

def step (l : State L W) : Option (State L W) :=
  l.2.elements[l.2.next]?.map fun element =>
    let state := l.2.next
    let l := (l.1, { l.2 with next := state + 1 })
    addFinal ifst state element (addArcs ifst state element l)

end Synchronize

open Synchronize in
/- `none` is a loop cut off by the fuel. -/
def synchronize [Zero W] [One W] [DecidableEq W] (fuel : ℕ) (ifst ofst : VectorFst L W) :
    Option (VectorFst L W) :=
  let ofst := ofst.deleteAllStates
  let iprops := ifst.properties &&& kFstProperties
  match ifst.start with
  | none => some (ofst.setProperties (synchronizeProperties iprops) kFstProperties)
  | some istart =>
    let (empty, strings) := Strings.new.intern ([] : List L)
    let first : Element := ⟨some istart, empty, empty⟩
    let (start, loop) := UnfoldLoop.findState first ⟨[], ofst, 0⟩
    let loop := { loop with ofst := loop.ofst.setStart (some start) }
    (Loop.runLoop (step ifst) fuel (strings, loop)).map fun l =>
      l.2.ofst.setProperties (synchronizeProperties iprops) kFstProperties

end Synchronizing

/- A state of the input and the strings that each side is holding back. -/
structure Synchronize.Held (L : Type) where
  state : Option ℕ
  istring : List L
  ostring : List L
deriving DecidableEq

namespace SynchronizeRuns

open Synchronize UnfoldLoop

variable {L W : Type} [ArcLabel L]

/- A string with a label after it, unless that is epsilon. -/
def appendOf (string : List L) (label : L) : List L :=
  if label = epsilon then string else string ++ [label]

section Tables

variable {table table' : Strings L} {id : ℕ} {string : List L}

/- A table with an id in it, come from another. -/
structure Has (table table' : Strings L) (id : ℕ) (string : List L) : Prop where
  grow : table.strings <+: table'.strings
  nodup : table'.strings.Nodup
  lt : id < table'.strings.length
  get : table'.get id = string

theorem get_of_grow (hgrow : table.strings <+: table'.strings) (hid : id < table.strings.length) :
    table'.get id = table.get id := by
  have hget := ListLemmas.getElem?_of_grow hgrow (List.getElem?_eq_getElem hid)
  unfold Strings.get
  rw [List.getD_eq_getElem?_getD, List.getD_eq_getElem?_getD, hget, List.getElem?_eq_getElem hid]

theorem Has.grown (h : Has table table' id string) {other : ℕ}
    (hother : other < table.strings.length) :
    other < table'.strings.length ∧ table'.get other = table.get other :=
  ⟨hother.trans_le h.grow.length_le, get_of_grow h.grow hother⟩

theorem has_intern (hnodup : table.strings.Nodup) (string : List L) :
    Has table (table.intern string).2 (table.intern string).1 string := by
  obtain ⟨hgrow, hnodup', hid, -⟩ := BiTable.findId_spec hnodup string
  refine ⟨hgrow, hnodup', (List.getElem?_eq_some_iff.mp hid).1, ?_⟩
  change (BiTable.findId table.strings string).2.getD _ [] = string
  rw [List.getD_eq_getElem?_getD]
  exact congrArg (·.getD []) hid

theorem has_append (hnodup : table.strings.Nodup) (hid : id < table.strings.length) (label : L) :
    Has table (table.append id label).2 (table.append id label).1
      (appendOf (table.get id) label) := by
  unfold Strings.append appendOf
  split
  · exact ⟨List.prefix_rfl, hnodup, hid, rfl⟩
  · exact has_intern hnodup _

theorem has_tail (hnodup : table.strings.Nodup) (id : ℕ) (label : L) :
    Has table (table.tail id label).2 (table.tail id label).1
      (appendOf (table.get id) label).tail := by
  unfold Strings.tail
  split
  · next hempty =>
    have htail : (appendOf (table.get id) label).tail = [] := by
      rw [List.isEmpty_iff.mp hempty]
      unfold appendOf
      split <;> rfl
    rw [htail]
    exact has_intern hnodup []
  · next hne =>
    obtain ⟨first, rest, hstring⟩ := List.exists_cons_of_ne_nil fun h => hne (List.isEmpty_iff.mpr h)
    have hrest := has_intern hnodup (table.get id).tail
    have happend := has_append hrest.nodup hrest.lt label
    have htail : (appendOf (table.get id) label).tail =
        appendOf ((table.intern (table.get id).tail).2.get
          (table.intern (table.get id).tail).1) label := by
      rw [hrest.get, hstring]
      unfold appendOf
      split <;> rfl
    rw [htail]
    exact ⟨hrest.grow.trans happend.grow, happend.nodup, happend.lt, happend.get⟩

theorem isEmpty_iff (table : Strings L) (id : ℕ) (label : L) :
    table.isEmpty id label ↔ appendOf (table.get id) label = [] := by
  unfold Strings.isEmpty appendOf
  split
  · next hlabel => simp [hlabel]
  · next hlabel => simp [hlabel]

theorem head_eq (table : Strings L) (id : ℕ) (label : L) :
    table.head id label = (appendOf (table.get id) label).headD epsilon := by
  unfold Strings.head appendOf
  split
  · next hlabel => rw [hlabel]
  · cases table.get id <;> rfl

end Tables

section Graph

variable [Zero W] [One W] [DecidableEq W] (ifst : VectorFst L W)

/- One label comes off each side if there is one, and nothing comes off otherwise. -/
def heldMove (held : Held L) (arc : Arc L W) : UnfoldMove (Held L) L W :=
  let istring := appendOf held.istring arc.ilabel
  let ostring := appendOf held.ostring arc.olabel
  if istring ≠ [] ∧ ostring ≠ [] then
    ⟨istring.headD epsilon, ostring.headD epsilon, arc.weight,
      ⟨some arc.nextstate, istring.tail, ostring.tail⟩⟩
  else ⟨epsilon, epsilon, arc.weight, ⟨some arc.nextstate, istring, ostring⟩⟩

def endWeight : Option ℕ → W
  | some state => ifst.finalWeight state
  | none => 1

def Empty (held : Held L) : Prop := held.istring = [] ∧ held.ostring = []

instance (held : Held L) : Decidable (Empty held) := inferInstanceAs (Decidable (_ ∧ _))

def payMove (held : Held L) : UnfoldMove (Held L) L W :=
  ⟨held.istring.headD epsilon, held.ostring.headD epsilon, endWeight ifst held.state,
    ⟨none, held.istring.tail, held.ostring.tail⟩⟩

/- What a path that ends is still holding back is paid out. -/
def payMoves (held : Held L) : List (UnfoldMove (Held L) L W) :=
  if endWeight ifst held.state ≠ 0 ∧ ¬ Empty held then [payMove ifst held] else []

def heldArcs (held : Held L) : List (Arc L W) :=
  match held.state with
  | some state => ifst.arcs state
  | none => []

def heldOut (held : Held L) : List (UnfoldMove (Held L) L W) :=
  (heldArcs ifst held).map (heldMove held) ++ payMoves ifst held

def heldFinal (held : Held L) : W := if Empty held then endWeight ifst held.state else 0

end Graph

section Reading

variable [Zero W] [One W] [DecidableEq W] {ifst : VectorFst L W}

def readHeld (table : Strings L) (element : Element) : Held L :=
  ⟨element.state, table.get element.istring, table.get element.ostring⟩

def Valid (table : Strings L) (element : Element) : Prop :=
  element.istring < table.strings.length ∧ element.ostring < table.strings.length

/- The states of the loop, with the strings in place of their ids. -/
structure Reads (l : State L W) (u : UnfoldLoop (Held L) L W) : Prop where
  nodup : l.1.strings.Nodup
  valid : ∀ element ∈ l.2.elements, Valid l.1 element
  elements : u.elements = l.2.elements.map (readHeld l.1)
  ofst : u.ofst = l.2.ofst
  next : u.next = l.2.next

variable {table : Strings L} {element : Element} {l : State L W} {u : UnfoldLoop (Held L) L W}

theorem Valid.grow {table' : Strings L} (hgrow : table.strings <+: table'.strings)
    (h : Valid table element) :
    Valid table' element ∧ readHeld table' element = readHeld table element := by
  have hle := hgrow.length_le
  refine ⟨⟨h.1.trans_le hle, h.2.trans_le hle⟩, ?_⟩
  unfold readHeld
  rw [get_of_grow hgrow h.1, get_of_grow hgrow h.2]

theorem Reads.grow (h : Reads l u) (hgrow : l.1.strings <+: table.strings)
    (hnodup : table.strings.Nodup) :
    Reads (table, l.2) u := by
  refine ⟨hnodup, fun element he => ((h.valid element he).grow hgrow).1, ?_, h.ofst, h.next⟩
  rw [h.elements]
  apply List.map_congr_left
  intro element he
  exact ((h.valid element he).grow hgrow).2.symm

theorem readHeld_injective (hnodup : table.strings.Nodup) {element' : Element}
    (h : Valid table element) (h' : Valid table element')
    (heq : readHeld table element = readHeld table element') : element = element' := by
  have hget : ∀ {id id' : ℕ}, id < table.strings.length → id' < table.strings.length →
      table.get id = table.get id' → id = id' := by
    intro id id' hid hid' hsame
    unfold Strings.get at hsame
    rw [List.getD_eq_getElem?_getD, List.getD_eq_getElem?_getD, List.getElem?_eq_getElem hid,
      List.getElem?_eq_getElem hid'] at hsame
    exact (hnodup.getElem_inj_iff).mp hsame
  obtain ⟨state, istring, ostring⟩ := element
  obtain ⟨state', istring', ostring'⟩ := element'
  injection heq with hstate histring hostring
  obtain rfl : istring = istring' := hget h.1 h'.1 histring
  obtain rfl : ostring = ostring' := hget h.2 h'.2 hostring
  obtain rfl : state = state' := hstate
  rfl

theorem reads_addMove {loop : UnfoldLoop Element L W} (h : Reads (table, loop) u)
    (hvalid : Valid table element) (state : ℕ) (ilabel olabel : L) (weight : W) :
    Reads (table, addMove state loop ⟨ilabel, olabel, weight, element⟩)
      (addMove state u ⟨ilabel, olabel, weight, readHeld table element⟩) := by
  obtain ⟨elements, ofst, next⟩ := u
  obtain ⟨hnodup, hall, helements, hofst, hnext⟩ := h
  dsimp only at hnodup hall helements hofst hnext
  subst helements hofst hnext
  have hfind : BiTable.findId (loop.elements.map (readHeld table)) (readHeld table element) =
      ((BiTable.findId loop.elements element).1,
        (BiTable.findId loop.elements element).2.map (readHeld table)) :=
    BiTable.findId_map fun other hother heq =>
      readHeld_injective hnodup (hall other hother) hvalid heq
  have hmem : ∀ other ∈ (BiTable.findId loop.elements element).2, Valid table other := by
    intro other hother
    rcases BiTable.findId_cases loop.elements element with ⟨id, hlt, hid⟩ | hid
    · rw [hid] at hother
      exact hall other hother
    · rw [hid] at hother
      rcases List.mem_append.mp hother with hother | hother
      · exact hall other hother
      · rw [List.mem_singleton.mp hother]
        exact hvalid
  unfold addMove UnfoldLoop.findState
  dsimp only
  rw [hfind]
  dsimp only
  rw [List.length_map]
  split
  · exact ⟨hnodup, hmem, rfl, rfl, rfl⟩
  · exact ⟨hnodup, hall, rfl, rfl, rfl⟩

theorem heldMove_of_both {held : Held L} {arc : Arc L W}
    (hi : appendOf held.istring arc.ilabel ≠ []) (ho : appendOf held.ostring arc.olabel ≠ []) :
    heldMove held arc = ⟨(appendOf held.istring arc.ilabel).headD epsilon,
      (appendOf held.ostring arc.olabel).headD epsilon, arc.weight,
      ⟨some arc.nextstate, (appendOf held.istring arc.ilabel).tail,
        (appendOf held.ostring arc.olabel).tail⟩⟩ := by
  unfold heldMove
  dsimp only
  rw [if_pos ⟨hi, ho⟩]

theorem heldMove_of_not {held : Held L} {arc : Arc L W}
    (h : ¬ (appendOf held.istring arc.ilabel ≠ [] ∧ appendOf held.ostring arc.olabel ≠ [])) :
    heldMove held arc = ⟨epsilon, epsilon, arc.weight, ⟨some arc.nextstate,
      appendOf held.istring arc.ilabel, appendOf held.ostring arc.olabel⟩⟩ := by
  unfold heldMove
  dsimp only
  rw [if_neg h]

/- Two strings put in the table one after the other. -/
theorem reads_addMove_of_has {table₁ table₂ : Strings L} {loop : UnfoldLoop Element L W}
    (h : Reads (table, loop) u) {istring ostring : List L} {id id' : ℕ}
    (hi : Has table table₁ id istring) (ho : Has table₁ table₂ id' ostring) (state : ℕ)
    (ilabel olabel : L) (weight : W) (dest : Option ℕ) :
    Reads (table₂, addMove state loop ⟨ilabel, olabel, weight, ⟨dest, id, id'⟩⟩)
      (addMove state u ⟨ilabel, olabel, weight, ⟨dest, istring, ostring⟩⟩) := by
  obtain ⟨hlt, hget⟩ := ho.grown hi.lt
  have hread : readHeld table₂ ⟨dest, id, id'⟩ = ⟨dest, istring, ostring⟩ := by
    unfold readHeld
    rw [hget, hi.get, ho.get]
  rw [← hread]
  exact reads_addMove (h.grow (hi.grow.trans ho.grow) ho.nodup) ⟨hlt, ho.lt⟩ _ _ _ _

theorem reads_addArc (h : Reads l u) (hvalid : Valid l.1 element) (state : ℕ) (arc : Arc L W) :
    Reads (addArc state element l arc) (addMove state u (heldMove (readHeld l.1 element) arc)) ∧
      l.1.strings <+: (addArc state element l arc).1.strings := by
  obtain ⟨table, loop⟩ := l
  unfold addArc
  dsimp only at hvalid ⊢
  split
  · next hboth =>
    rw [isEmpty_iff, isEmpty_iff] at hboth
    have hi := has_tail h.nodup element.istring arc.ilabel
    have ho := has_tail hi.nodup element.ostring arc.olabel
    have hget := (hi.grown hvalid.2).2
    rw [hget] at ho
    rw [heldMove_of_both hboth.1 hboth.2, head_eq, head_eq]
    exact ⟨reads_addMove_of_has h hi ho _ _ _ _ _, hi.grow.trans ho.grow⟩
  · next hnot =>
    rw [isEmpty_iff, isEmpty_iff] at hnot
    have hi := has_append h.nodup hvalid.1 arc.ilabel
    obtain ⟨hlt, hget⟩ := hi.grown hvalid.2
    have ho := has_append hi.nodup hlt arc.olabel
    rw [hget] at ho
    rw [heldMove_of_not hnot]
    exact ⟨reads_addMove_of_has h hi ho _ _ _ _ _, hi.grow.trans ho.grow⟩

theorem reads_foldl_addArc (h : Reads l u) (hvalid : Valid l.1 element) (state : ℕ)
    (arcs : List (Arc L W)) :
    Reads (arcs.foldl (addArc state element) l)
      ((arcs.map (heldMove (readHeld l.1 element))).foldl (addMove state) u) ∧
      l.1.strings <+: (arcs.foldl (addArc state element) l).1.strings := by
  induction arcs generalizing l u with
  | nil => exact ⟨h, List.prefix_rfl⟩
  | cons arc arcs ih =>
    obtain ⟨hreads, hgrow⟩ := reads_addArc h hvalid state arc
    obtain ⟨hvalid', hread⟩ := hvalid.grow hgrow
    obtain ⟨hreads', hgrow'⟩ := ih hreads hvalid'
    rw [hread] at hreads'
    exact ⟨hreads', hgrow.trans hgrow'⟩

variable (ifst) in
theorem reads_addArcs {l : State L W} {u : UnfoldLoop (Held L) L W} (h : Reads l u)
    {element : Element} (hvalid : Valid l.1 element) (state : ℕ) :
    Reads (addArcs ifst state element l)
      (((heldArcs ifst (readHeld l.1 element)).map (heldMove (readHeld l.1 element))).foldl
        (addMove state) u) ∧
      l.1.strings <+: (addArcs ifst state element l).1.strings := by
  unfold addArcs heldArcs readHeld
  cases element.state with
  | none => exact ⟨h, List.prefix_rfl⟩
  | some inputState => exact reads_foldl_addArc h hvalid state (ifst.arcs inputState)

theorem empty_readHeld :
    Empty (readHeld table element) ↔
      ¬ 0 < table.len element.istring + table.len element.ostring := by
  unfold Empty readHeld Strings.len
  dsimp only
  rw [← List.length_eq_zero_iff, ← List.length_eq_zero_iff]
  omega

theorem appendOf_epsilon (string : List L) : appendOf string epsilon = string := if_pos rfl

theorem addFinal_eq (table : Strings L) (state : ℕ) (element : Element)
    (loop : UnfoldLoop Element L W) : addFinal ifst state element (table, loop) =
      let weight := endWeight ifst (readHeld table element).state
      let held := table.len element.istring + table.len element.ostring
      let istring := table.tail element.istring epsilon
      let ostring := istring.2.tail element.ostring epsilon
      if weight ≠ 0 ∧ 0 < held then
        (ostring.2, addMove state loop ⟨table.head element.istring epsilon,
          table.head element.ostring epsilon, weight, ⟨none, istring.1, ostring.1⟩⟩)
      else if weight ≠ 0 ∧ held = 0 then
        (table, { loop with ofst := loop.ofst.setFinal state weight })
      else (table, loop) := by
  unfold addFinal readHeld endWeight
  cases element.state <;> rfl

variable (ifst) in
theorem reads_addFinal {l : State L W} {u : UnfoldLoop (Held L) L W} (h : Reads l u)
    {element : Element} (hvalid : Valid l.1 element) (state : ℕ) :
    let held := readHeld l.1 element
    let u' := (payMoves ifst held).foldl (addMove state) u
    let ofst := if heldFinal ifst held = 0 then u'.ofst
      else u'.ofst.setFinal state (heldFinal ifst held)
    Reads (addFinal ifst state element l) { u' with ofst := ofst } := by
  obtain ⟨table, loop⟩ := l
  rw [addFinal_eq table]
  dsimp only at hvalid ⊢
  by_cases hzero : endWeight ifst (readHeld table element).state = 0
  · have hpay : payMoves ifst (readHeld table element) = [] := if_neg fun hboth => hboth.1 hzero
    have hfinal : heldFinal ifst (readHeld table element) = 0 := by
      unfold heldFinal
      rw [hzero, ite_self]
    rw [if_neg fun hboth => hboth.1 hzero, if_neg fun hboth => hboth.1 hzero, hpay, if_pos hfinal]
    exact h
  · by_cases hempty : Empty (readHeld table element)
    · have hheld := empty_readHeld.mp hempty
      have hpay : payMoves ifst (readHeld table element) = [] := if_neg fun hboth => hboth.2 hempty
      have hfinal : heldFinal ifst (readHeld table element) =
          endWeight ifst (readHeld table element).state := if_pos hempty
      rw [if_neg fun hboth => hheld hboth.2, if_pos ⟨hzero, Nat.eq_zero_of_not_pos hheld⟩, hpay,
        hfinal, if_neg hzero]
      have hofst : u.ofst = loop.ofst := h.ofst
      refine ⟨h.nodup, h.valid, h.elements, ?_, h.next⟩
      rw [List.foldl_nil, hofst]
    · have hheld := not_not.mp (mt empty_readHeld.mpr hempty)
      have hpay : payMoves ifst (readHeld table element) =
          [payMove ifst (readHeld table element)] := if_pos ⟨hzero, hempty⟩
      have hfinal : heldFinal ifst (readHeld table element) = 0 := if_neg hempty
      have hi := has_tail h.nodup element.istring epsilon
      have ho := has_tail hi.nodup element.ostring epsilon
      rw [appendOf_epsilon] at hi
      rw [(hi.grown hvalid.2).2, appendOf_epsilon] at ho
      rw [if_pos ⟨hzero, hheld⟩, hpay, if_pos hfinal, head_eq, head_eq, appendOf_epsilon,
        appendOf_epsilon]
      exact reads_addMove_of_has h hi ho _ _ _ _ _

theorem reads_step (h : Reads l u) :
    Option.Rel Reads (step ifst l) (expand (heldOut ifst) (heldFinal ifst) u) := by
  obtain ⟨table, elements, ofst, next⟩ := l
  obtain ⟨elements', ofst', next'⟩ := u
  obtain ⟨hnodup, hvalid, helements, hofst, hnext⟩ := h
  dsimp only at hnodup hvalid helements hofst hnext
  subst helements hofst hnext
  unfold step expand
  dsimp only
  rw [List.getElem?_map]
  cases hget : elements[next']? with
  | none => exact .none
  | some element =>
    apply Option.Rel.some
    have hmem := List.mem_of_getElem? hget
    have hreads : Reads (table, ⟨elements, ofst', next' + 1⟩)
        ⟨elements.map (readHeld table), ofst', next' + 1⟩ := ⟨hnodup, hvalid, rfl, rfl, rfl⟩
    obtain ⟨hreads', hgrow⟩ := reads_addArcs ifst hreads (hvalid element hmem) next'
    obtain ⟨hvalid', hread⟩ := (hvalid element hmem).grow hgrow
    have hfinal := reads_addFinal ifst hreads' hvalid' next'
    rw [hread] at hfinal
    unfold heldOut
    simp only [List.foldl_append]
    exact hfinal

/- The loop of the program unfolds the graph of what is held. -/
theorem synchronize_eq {istart : ℕ} (hstart : ifst.start = some istart) (fuel : ℕ)
    (ofst : VectorFst L W) : Option.Rel (fun res u => ∃ l : State L W, Reads l u ∧
        res = l.2.ofst.setProperties
          (synchronizeProperties (ifst.properties &&& kFstProperties)) kFstProperties)
      (synchronize fuel ifst ofst)
      (Loop.runLoop (expand (heldOut ifst) (heldFinal ifst)) fuel
        (begun ⟨some istart, [], []⟩ ofst)) := by
  have hnew : (Strings.new.intern ([] : List L)) = (0, ⟨[[]]⟩) := rfl
  have hfirst : Reads (⟨[[]]⟩, ⟨[⟨some istart, 0, 0⟩],
      ofst.deleteAllStates.addState.setStart (some 0), 0⟩)
      (begun ⟨some istart, [], []⟩ ofst) := by
    refine ⟨List.nodup_singleton _, fun element he => ?_, rfl, rfl, rfl⟩
    rw [List.mem_singleton.mp he]
    exact ⟨Nat.zero_lt_one, Nat.zero_lt_one⟩
  have hrel : Option.Rel Reads (Loop.runLoop (step ifst) fuel _)
      (Loop.runLoop (expand (heldOut ifst) (heldFinal ifst)) fuel _) :=
    Loop.runLoop_rel (fun _ _ => reads_step) fuel hfirst
  unfold synchronize
  rw [hstart]
  dsimp only
  rw [hnew]
  change Option.Rel _ (Option.map _ (Loop.runLoop (step ifst) fuel (⟨[[]]⟩,
    ⟨[⟨some istart, 0, 0⟩], ofst.deleteAllStates.addState.setStart (some 0), 0⟩))) _
  generalize Loop.runLoop (step ifst) fuel _ = x at hrel
  generalize Loop.runLoop (expand (heldOut ifst) (heldFinal ifst)) fuel _ = y at hrel
  cases hrel with
  | none => exact .none
  | some h => exact .some ⟨_, h, rfl⟩

end Reading

end SynchronizeRuns

end Sicada
