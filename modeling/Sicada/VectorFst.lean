import Sicada.Properties

set_option linter.unusedSectionVars false

namespace Sicada

variable {L W : Type} [ArcLabel L]

structure VectorState (L W : Type) where
  finalWeight : W
  arcs : List (Arc L W)
  niepsilons : ℕ
  noepsilons : ℕ
deriving DecidableEq

/- One off a `usize` counter, which wraps round below zero. -/
def decrement (n : ℕ) : ℕ := if n = 0 then 2 ^ 64 - 1 else n - 1

namespace VectorState

def new [Zero W] : VectorState L W := ⟨0, [], 0, 0⟩

def incrementNumEpsilons (s : VectorState L W) (arc : Arc L W) : VectorState L W :=
  { s with
    niepsilons := if arc.ilabel = epsilon then s.niepsilons + 1 else s.niepsilons
    noepsilons := if arc.olabel = epsilon then s.noepsilons + 1 else s.noepsilons }

def addArc (s : VectorState L W) (arc : Arc L W) : VectorState L W :=
  let s := s.incrementNumEpsilons arc
  { s with arcs := s.arcs ++ [arc] }

/- One round of the loop of `deleteArcsN`: the last arc is popped and taken off the counts. -/
def popArc (s : VectorState L W) : VectorState L W :=
  match s.arcs.getLast? with
  | some arc =>
    { s with
      arcs := s.arcs.dropLast
      niepsilons := if arc.ilabel = epsilon then decrement s.niepsilons else s.niepsilons
      noepsilons := if arc.olabel = epsilon then decrement s.noepsilons else s.noepsilons }
  | none => s

def deleteArcsN (s : VectorState L W) (n : ℕ) : VectorState L W :=
  popArc^[min n s.arcs.length] s

def deleteAllArcs (s : VectorState L W) : VectorState L W :=
  { s with arcs := [], niepsilons := 0, noepsilons := 0 }

end VectorState

structure VectorFst (L W : Type) where
  states : List (VectorState L W)
  start : Option ℕ
  properties : BitVec 64
deriving DecidableEq

namespace VectorFst

def staticProperties : BitVec 64 := kExpanded ||| kMutable

def new : VectorFst L W := ⟨[], none, kNullProperties ||| staticProperties⟩

section Reading

variable [Zero W] (fst : VectorFst L W) (state : ℕ)

def numStates : ℕ := fst.states.length

def finalWeight : W := (fst.states[state]?.map (·.finalWeight)).getD 0

def arcs : List (Arc L W) := (fst.states[state]?.map (·.arcs)).getD []

def numArcs : ℕ := (fst.states[state]?.map (·.arcs.length)).getD 0

def numInputEpsilons : ℕ := (fst.states[state]?.map (·.niepsilons)).getD 0

def numOutputEpsilons : ℕ := (fst.states[state]?.map (·.noepsilons)).getD 0

end Reading

section ReadingLemmas

variable {fst : VectorFst L W} {state : ℕ} {s : VectorState L W}

theorem arcs_of_getElem? (h : fst.states[state]? = some s) : fst.arcs state = s.arcs := by
  simp [arcs, h]

theorem finalWeight_of_getElem? [Zero W] (h : fst.states[state]? = some s) : fst.finalWeight state = s.finalWeight := by
  simp [finalWeight, h]

theorem numArcs_eq (fst : VectorFst L W) (state : ℕ) : fst.numArcs state = (fst.arcs state).length := by
  unfold numArcs arcs
  cases fst.states[state]? <;> rfl

theorem arcs_of_le (h : fst.numStates ≤ state) :
    fst.arcs state = [] := by
  have hnone : fst.states[state]? = none := List.getElem?_eq_none h
  simp [arcs, hnone]

theorem finalWeight_of_le [Zero W] (h : fst.numStates ≤ state) :
    fst.finalWeight state = 0 := by
  have hnone : fst.states[state]? = none := List.getElem?_eq_none h
  simp [finalWeight, hnone]

/- What holds at the states there are holds everywhere. -/
theorem forall_arcs_of_lt {P : ℕ → Arc L W → Prop}
    (h : ∀ s < fst.numStates, ∀ arc ∈ fst.arcs s, P s arc) : ∀ s, ∀ arc ∈ fst.arcs s, P s arc := by
  intro s arc harc
  by_cases hs : s < fst.numStates
  · exact h s hs arc harc
  · rw [arcs_of_le (Nat.le_of_not_lt hs)] at harc
    cases harc

theorem forall_finalWeight_of_lt [Zero W] {P : W → Prop} (hzero : P 0)
    (h : ∀ s < fst.numStates, P (fst.finalWeight s)) : ∀ s, P (fst.finalWeight s) := by
  intro s
  by_cases hs : s < fst.numStates
  · exact h s hs
  · rw [finalWeight_of_le (Nat.le_of_not_lt hs)]
    exact hzero

/- What is read of an FST one of whose states is replaced. -/
theorem arcs_set (h : fst.states[state]? = some s) (t : VectorState L W) (start : Option ℕ)
    (props : BitVec 64) :
    (⟨fst.states.set state t, start, props⟩ : VectorFst L W).arcs =
      Function.update fst.arcs state t.arcs := by
  funext other
  have hlt : state < fst.states.length := (List.getElem?_eq_some_iff.mp h).1
  by_cases ho : other = state
  · subst ho
    simp [arcs, List.getElem?_set_self hlt]
  · rw [Function.update_of_ne ho]
    simp [arcs, List.getElem?_set_ne (Ne.symm ho)]

theorem finalWeight_set [Zero W] (h : fst.states[state]? = some s) (t : VectorState L W) (start : Option ℕ)
    (props : BitVec 64) :
    (⟨fst.states.set state t, start, props⟩ : VectorFst L W).finalWeight =
      Function.update fst.finalWeight state t.finalWeight := by
  funext other
  have hlt : state < fst.states.length := (List.getElem?_eq_some_iff.mp h).1
  by_cases ho : other = state
  · subst ho
    simp [finalWeight, List.getElem?_set_self hlt]
  · rw [Function.update_of_ne ho]
    simp [finalWeight, List.getElem?_set_ne (Ne.symm ho)]

end ReadingLemmas

section Mutating

variable [Zero W] [One W] [DecidableEq W]

def updatePropertiesAfterAddArc (fst : VectorFst L W) (state : ℕ) : VectorFst L W :=
  match fst.states[state]? with
  | some vstate =>
    let numArcs := vstate.arcs.length
    match vstate.arcs[numArcs - 1]? with
    | some arc =>
      let prevArc := if 2 ≤ numArcs then vstate.arcs[numArcs - 2]? else none
      { fst with properties := addArcProperties fst.properties state arc prevArc }
    | none => fst
  | none => fst

@[simp] theorem updatePropertiesAfterAddArc_states (fst : VectorFst L W) (state : ℕ) :
    (fst.updatePropertiesAfterAddArc state).states = fst.states := by
  unfold updatePropertiesAfterAddArc
  split
  · dsimp only
    split <;> rfl
  · rfl

@[simp] theorem updatePropertiesAfterAddArc_start (fst : VectorFst L W) (state : ℕ) :
    (fst.updatePropertiesAfterAddArc state).start = fst.start := by
  unfold updatePropertiesAfterAddArc
  split
  · dsimp only
    split <;> rfl
  · rfl

/- `none` is the sentinel `no_state`, by which a start state is taken away. -/
def setStart (fst : VectorFst L W) (state : Option ℕ) : VectorFst L W :=
  { fst with start := state, properties := setStartProperties fst.properties }

def setFinal (fst : VectorFst L W) (state : ℕ) (weight : W) : VectorFst L W :=
  match fst.states[state]? with
  | some s =>
    { fst with
      states := fst.states.set state { s with finalWeight := weight }
      properties := setFinalProperties fst.properties s.finalWeight weight }
  | none => fst

def setProperties (fst : VectorFst L W) (props mask : BitVec 64) : VectorFst L W :=
  { fst with properties := (fst.properties &&& (~~~mask ||| kError)) ||| (props &&& mask) }

def addState (fst : VectorFst L W) : VectorFst L W :=
  { fst with
    states := fst.states ++ [VectorState.new]
    properties := addStateProperties fst.properties }

def addStates (fst : VectorFst L W) (n : ℕ) : VectorFst L W :=
  { fst with
    states := fst.states ++ List.replicate n VectorState.new
    properties := addStateProperties fst.properties }

/- States are added one by one until there are `n`. -/
def growTo (fst : VectorFst L W) (n : ℕ) : VectorFst L W := addState^[n - fst.numStates] fst

def addArc (fst : VectorFst L W) (state : ℕ) (arc : Arc L W) : VectorFst L W :=
  match fst.states[state]? with
  | some s =>
    updatePropertiesAfterAddArc { fst with states := fst.states.set state (s.addArc arc) } state
  | none => fst

def deleteArcsN (fst : VectorFst L W) (state n : ℕ) : VectorFst L W :=
  match fst.states[state]? with
  | some s =>
    { fst with
      states := fst.states.set state (s.deleteArcsN n)
      properties := deleteArcsProperties fst.properties }
  | none => fst

def deleteArcs (fst : VectorFst L W) (state : ℕ) : VectorFst L W :=
  match fst.states[state]? with
  | some s =>
    { fst with
      states := fst.states.set state s.deleteAllArcs
      properties := deleteArcsProperties fst.properties }
  | none => fst

def deleteAllStates (fst : VectorFst L W) : VectorFst L W :=
  { fst with
    states := []
    start := none
    properties := deleteAllStatesProperties fst.properties staticProperties }

/- The new number of each state of `states` from `next` on, `none` for a deleted one. -/
def newIds (dstates : List ℕ) : List (VectorState L W) → ℕ → ℕ → List (Option ℕ)
  | [], _, _ => []
  | _ :: states, state, next =>
    if state ∈ dstates then none :: newIds dstates states (state + 1) next
    else some next :: newIds dstates states (state + 1) (next + 1)

/- The states kept, moved down over the deleted ones in the order they had. -/
def keptStates (dstates : List ℕ) : List (VectorState L W) → ℕ → List (VectorState L W)
  | [], _ => []
  | s :: states, state =>
    if state ∈ dstates then keptStates dstates states (state + 1)
    else s :: keptStates dstates states (state + 1)

/- The arcs whose destination is kept, renumbered; an arc to no state at all is an index out of
bounds. -/
def remapArcs (newid : List (Option ℕ)) : List (Arc L W) → Option (List (Arc L W))
  | [] => some []
  | arc :: arcs =>
    newid[arc.nextstate]?.bind fun t =>
      (remapArcs newid arcs).map fun rest =>
        match t with
        | some next => { arc with nextstate := next } :: rest
        | none => rest

def remapState (newid : List (Option ℕ)) (s : VectorState L W) : Option (VectorState L W) :=
  (remapArcs newid s.arcs).map fun arcs =>
    { s with
      arcs := arcs
      niepsilons := arcs.countP (·.ilabel = epsilon)
      noepsilons := arcs.countP (·.olabel = epsilon) }

def remapStates (newid : List (Option ℕ)) : List (VectorState L W) → Option (List (VectorState L W))
  | [] => some []
  | s :: states =>
    (remapState newid s).bind fun s => (remapStates newid states).map fun states => s :: states

def remapStart (newid : List (Option ℕ)) : Option ℕ → Option (Option ℕ)
  | some startId => newid[startId]?
  | none => some none

def deleteStates (fst : VectorFst L W) (dstates : List ℕ) : Option (VectorFst L W) :=
  if dstates = [] then some fst
  else
    let newid := newIds dstates fst.states 0 0
    (remapStates newid (keptStates dstates fst.states 0)).bind fun states =>
      (remapStart newid fst.start).map fun start =>
        ⟨states, start, deleteStatesProperties fst.properties⟩

/- The arcs of a state rewritten by a mutator that may carry state `σ` from arc to arc. The
counts of the state are left as they were. -/
def mutateArcsLoop {σ : Type} (mutator : Arc L W → σ → Arc L W × σ) :
    List (Arc L W) → BitVec 64 → σ → List (Arc L W) × BitVec 64 × σ
  | [], props, m => ([], props, m)
  | old :: arcs, props, m =>
    let (arc, m) := mutator old m
    let (rest, props, m) := mutateArcsLoop mutator arcs (setArcProperties props old arc) m
    (arc :: rest, props, m)

def mutateArcs {σ : Type} (fst : VectorFst L W) (state : ℕ)
    (mutator : Arc L W → σ → Arc L W × σ) (m : σ) : VectorFst L W × σ :=
  match fst.states[state]? with
  | some s =>
    let (arcs, props, m) := mutateArcsLoop mutator s.arcs fst.properties m
    ({ fst with states := fst.states.set state { s with arcs := arcs }, properties := props }, m)
  | none => (fst, m)

variable {fst : VectorFst L W} {state : ℕ} {s : VectorState L W}

theorem addArc_of_some (arc : Arc L W) (h : fst.states[state]? = some s) : fst.addArc state arc =
      ⟨fst.states.set state (s.addArc arc), fst.start,
        addArcProperties fst.properties state arc s.arcs.getLast?⟩ := by
  have hlt : state < fst.states.length := (List.getElem?_eq_some_iff.mp h).1
  have hprev : (if 2 ≤ (s.arcs ++ [arc]).length
      then (s.arcs ++ [arc])[(s.arcs ++ [arc]).length - 2]? else none) = s.arcs.getLast? := by
    cases harcs : s.arcs with
    | nil => simp
    | cons a as =>
      have hle : 2 ≤ (a :: as ++ [arc]).length := by simp
      have hidx : (a :: as ++ [arc]).length - 2 = (a :: as).length - 1 := by simp
      rw [if_pos hle, hidx, List.getElem?_append_left (by simp), List.getLast?_eq_getElem?]
  have hlast : (s.arcs ++ [arc])[(s.arcs ++ [arc]).length - 1]? = some arc := by simp
  have hself : (fst.states.set state (s.addArc arc))[state]? = some (s.addArc arc) :=
    List.getElem?_set_self hlt
  have hself' : (s.addArc arc).arcs = s.arcs ++ [arc] := rfl
  simp only [addArc, h, updatePropertiesAfterAddArc, hself, hself', hlast]
  rw [hprev]

theorem arcs_addArc (arc : Arc L W) (h : fst.states[state]? = some s) :
    (fst.addArc state arc).arcs = Function.update fst.arcs state (s.arcs ++ [arc]) := by
  rw [addArc_of_some arc h, arcs_set h]
  rfl

theorem finalWeight_addArc (fst : VectorFst L W) (state : ℕ) (arc : Arc L W) :
    (fst.addArc state arc).finalWeight = fst.finalWeight := by
  cases h : fst.states[state]? with
  | none => rw [addArc, h]
  | some s =>
    rw [addArc_of_some arc h, finalWeight_set h]
    exact Function.update_eq_self_iff.mpr (finalWeight_of_getElem? h).symm

theorem arcs_addStates (fst : VectorFst L W) (n : ℕ) : (fst.addStates n).arcs = fst.arcs := by
  funext state
  simp only [arcs, addStates, List.getElem?_append, List.getElem?_replicate]
  split
  · rfl
  · next h =>
    have hnone : fst.states[state]? = none := List.getElem?_eq_none (by omega)
    rw [hnone]
    split <;> rfl

theorem finalWeight_addStates (fst : VectorFst L W) (n : ℕ) :
    (fst.addStates n).finalWeight = fst.finalWeight := by
  funext state
  simp only [finalWeight, addStates, List.getElem?_append, List.getElem?_replicate]
  split
  · rfl
  · next h =>
    have hnone : fst.states[state]? = none := List.getElem?_eq_none (by omega)
    rw [hnone]
    split <;> rfl

theorem growTo_eq (fst : VectorFst L W) (n : ℕ) :
    (fst.growTo n).arcs = fst.arcs ∧ (fst.growTo n).finalWeight = fst.finalWeight ∧
      (fst.growTo n).start = fst.start ∧
      (fst.growTo n).numStates = fst.numStates + (n - fst.numStates) := by
  unfold growTo
  generalize n - fst.numStates = k
  induction k generalizing fst with
  | zero => exact ⟨rfl, rfl, rfl, rfl⟩
  | succ k ih =>
    obtain ⟨harcs, hfinal, hstart, hnum⟩ := ih fst.addState
    rw [Function.iterate_succ_apply]
    refine ⟨harcs.trans (arcs_addStates fst 1), hfinal.trans (finalWeight_addStates fst 1),
      hstart, ?_⟩
    rw [hnum]
    simp only [numStates, addState, List.length_append, List.length_singleton]
    omega

theorem arcs_setFinal (fst : VectorFst L W) (state : ℕ) (weight : W) :
    (fst.setFinal state weight).arcs = fst.arcs := by
  unfold setFinal
  split
  next s h =>
    rw [arcs_set h]
    exact Function.update_eq_self_iff.mpr (arcs_of_getElem? h).symm
  next => rfl

theorem finalWeight_setFinal (weight : W) (h : state < fst.numStates) :
    (fst.setFinal state weight).finalWeight =
      Function.update fst.finalWeight state weight := by
  have hsome : fst.states[state]? = some fst.states[state] := List.getElem?_eq_getElem h
  simp only [setFinal, hsome]
  exact finalWeight_set hsome _ _ _

@[simp] theorem numStates_setFinal (fst : VectorFst L W) (state : ℕ) (weight : W) :
    (fst.setFinal state weight).numStates = fst.numStates := by
  unfold setFinal
  split <;> simp [numStates]

@[simp] theorem numStates_addArc (fst : VectorFst L W) (state : ℕ) (arc : Arc L W) :
    (fst.addArc state arc).numStates = fst.numStates := by
  unfold addArc
  split <;> simp [numStates]

@[simp] theorem start_setFinal (fst : VectorFst L W) (state : ℕ) (weight : W) :
    (fst.setFinal state weight).start = fst.start := by
  unfold setFinal
  split <;> rfl

theorem setFinal_of_some (weight : W) (h : fst.states[state]? = some s) :
    fst.setFinal state weight =
      ⟨fst.states.set state { s with finalWeight := weight }, fst.start,
        setFinalProperties fst.properties s.finalWeight weight⟩ := by
  simp [setFinal, h]

theorem setFinal_of_none (weight : W) (h : fst.states[state]? = none) :
    fst.setFinal state weight = fst := by
  simp [setFinal, h]

theorem addArc_states_of_some (arc : Arc L W) (h : fst.states[state]? = some s) :
    (fst.addArc state arc).states = fst.states.set state (s.addArc arc) := by
  simp [addArc, h]

theorem addArc_of_none (arc : Arc L W) (h : fst.states[state]? = none) :
    fst.addArc state arc = fst := by
  simp [addArc, h]

@[simp] theorem addArc_start (fst : VectorFst L W) (state : ℕ) (arc : Arc L W) :
    (fst.addArc state arc).start = fst.start := by
  unfold addArc
  split <;> simp

theorem deleteArcs_reads {s : ℕ} (hs : s < fst.numStates) :
    (fst.deleteArcs s).arcs = Function.update fst.arcs s [] ∧
      (fst.deleteArcs s).finalWeight = fst.finalWeight ∧
      (fst.deleteArcs s).numStates = fst.numStates ∧ (fst.deleteArcs s).start = fst.start := by
  have hsome : fst.states[s]? = some fst.states[s] := List.getElem?_eq_getElem hs
  have heq : fst.deleteArcs s = ⟨fst.states.set s fst.states[s].deleteAllArcs, fst.start,
      deleteArcsProperties fst.properties⟩ := by
    simp only [deleteArcs, hsome]
  rw [heq]
  refine ⟨arcs_set hsome _ _ _, ?_, by simp [numStates], rfl⟩
  rw [finalWeight_set hsome]
  exact Function.update_eq_self_iff.mpr (finalWeight_of_getElem? hsome).symm

section AddArcs

variable {fst : VectorFst L W} {state : ℕ}

@[simp] theorem numStates_addArcs (arcs : List (Arc L W)) :
    (arcs.foldl (fun f arc => f.addArc state arc) fst).numStates = fst.numStates := by
  induction arcs generalizing fst with
  | nil => rfl
  | cons arc arcs ih => rw [List.foldl_cons, ih, numStates_addArc]

@[simp] theorem start_addArcs (arcs : List (Arc L W)) :
    (arcs.foldl (fun f arc => f.addArc state arc) fst).start = fst.start := by
  induction arcs generalizing fst with
  | nil => rfl
  | cons arc arcs ih => rw [List.foldl_cons, ih, addArc_start]

@[simp] theorem finalWeight_addArcs (arcs : List (Arc L W)) :
    (arcs.foldl (fun f arc => f.addArc state arc) fst).finalWeight = fst.finalWeight := by
  induction arcs generalizing fst with
  | nil => rfl
  | cons arc arcs ih => rw [List.foldl_cons, ih, finalWeight_addArc]

theorem arcs_addArcs (h : state < fst.numStates) (arcs : List (Arc L W)) :
    (arcs.foldl (fun f arc => f.addArc state arc) fst).arcs =
      Function.update fst.arcs state (fst.arcs state ++ arcs) := by
  induction arcs generalizing fst with
  | nil => rw [List.append_nil, Function.update_eq_self]; rfl
  | cons arc arcs ih =>
    have hsome : fst.states[state]? = some fst.states[state] := List.getElem?_eq_getElem h
    have hlt : state < (fst.addArc state arc).numStates := by rwa [numStates_addArc]
    rw [List.foldl_cons, ih hlt, arcs_addArc arc hsome, Function.update_self,
      Function.update_idem, arcs_of_getElem? hsome, List.append_assoc]
    rfl

end AddArcs

end Mutating

end VectorFst

end Sicada
