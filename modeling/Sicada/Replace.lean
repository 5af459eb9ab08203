import Sicada.BiTable
import Sicada.Library.Loop
import Sicada.VectorFst

namespace Sicada

variable {L W : Type} [ArcLabel L]

inductive ReplaceLabelType where
  | neither
  | input
  | output
  | both
  deriving DecidableEq

namespace ReplaceLabelType

def epsilonOnInput : ReplaceLabelType → Bool
  | .neither | .output => true
  | _ => false

def epsilonOnOutput : ReplaceLabelType → Bool
  | .neither | .input => true
  | _ => false

end ReplaceLabelType

structure ReplaceOptions (L : Type) where
  root : L
  callLabelType : ReplaceLabelType
  returnLabelType : ReplaceLabelType
  callOutputLabel : Option L
  returnLabel : L

namespace ReplaceOptions

def new (root : L) : ReplaceOptions L := ⟨root, .input, .neither, none, epsilon⟩

/- Nothing marks the calls. -/
def epsilonCalls (root : L) : ReplaceOptions L := ⟨root, .neither, .neither, some epsilon, epsilon⟩

def makesATransducer (opts : ReplaceOptions L) : Bool :=
  opts.callLabelType = .input || opts.callLabelType = .output ||
    (opts.callLabelType = .both && opts.callOutputLabel.isSome) ||
    opts.returnLabelType = .input || opts.returnLabelType = .output

end ReplaceOptions

@[ext]
structure StateTuple where
  prefixId : ℕ
  fstId : ℕ
  fstState : ℕ
deriving DecidableEq

/- One frame on top of another stack. `none` is `no_state`, which only the empty stack has. -/
structure PrefixEntry where
  parent : ℕ
  fstId : ℕ
  returnState : Option ℕ
deriving DecidableEq

namespace PrefixTable

/- Only the empty stack, its own parent. -/
def new : List PrefixEntry := (BiTable.findId [] ⟨0, 0, none⟩).2

def push (entries : List PrefixEntry) (prefixId fstId returnState : ℕ) : ℕ × List PrefixEntry :=
  BiTable.findId entries ⟨prefixId, fstId, some returnState⟩

def top (entries : List PrefixEntry) (prefixId : ℕ) : Option (ℕ × ℕ × ℕ) :=
  if prefixId = 0 then none
  else entries[prefixId]?.bind fun entry =>
    entry.returnState.map fun state => (entry.parent, entry.fstId, state)

end PrefixTable

/- The map of the labels, in which a later FST takes the place of an earlier one. -/
def nonterminal (fsts : List (L × VectorFst L W)) (label : L) : Option ℕ :=
  fsts.zipIdx.foldl (fun found entry => if entry.1.1 = label then some entry.2 else found) none

def fstAt [Zero W] (fsts : List (L × VectorFst L W)) (fstId : ℕ) : VectorFst L W :=
  (fsts[fstId]?.map (·.2)).getD VectorFst.new

/- The FST an output label calls. Epsilon is never a call. -/
def calledFst (fsts : List (L × VectorFst L W)) (olabel : L) : Option ℕ :=
  if olabel = epsilon then none else nonterminal fsts olabel

/- The same, with a look at the least and the greatest label before the one at the map. -/
def calledBy (fsts : List (L × VectorFst L W)) (olabel : L) : Option ℕ :=
  let minNonterminal := (fsts.map (·.1)).min?
  let maxNonterminal := (fsts.map (·.1)).max?
  if olabel ≠ epsilon ∧ minNonterminal.any (· ≤ olabel) ∧ maxNonterminal.any (olabel ≤ ·) then
    nonterminal fsts olabel
  else none

inductive Mark where
  | white
  | grey
  | black
  deriving DecidableEq

/- Each frame is an FST and the calls out of it still to be walked. -/
structure CallWalk where
  mark : ℕ → Mark
  stack : List (ℕ × List ℕ)

section Walking

variable [Zero W]

/- The FSTs an FST calls, in the order of its arcs. -/
def callsFrom (fsts : List (L × VectorFst L W)) (fstId : ℕ) : List ℕ :=
  ((fstAt fsts fstId).states.flatMap (·.arcs)).filterMap fun arc => calledFst fsts arc.olabel

/- One round of the walk; it fails at a call back to an FST on the stack. -/
def callWalkStep (fsts : List (L × VectorFst L W)) (walk : CallWalk) :
    Except ℕ (Option CallWalk) :=
  match walk.stack with
  | [] => .ok none
  | (node, []) :: stack => .ok (some ⟨Function.update walk.mark node .black, stack⟩)
  | (node, callee :: calls) :: stack =>
    match walk.mark callee with
    | .grey => .error callee
    | .black => .ok (some { walk with stack := (node, calls) :: stack })
    | .white => .ok (some ⟨Function.update walk.mark callee .grey,
        (callee, callsFrom fsts callee) :: (node, calls) :: stack⟩)

def callWalkStart (fsts : List (L × VectorFst L W)) (root : ℕ) : CallWalk :=
  ⟨Function.update (fun _ => .white) root .grey, [(root, callsFrom fsts root)]⟩

/- The FST of a call cycle reachable from the root, by its place; the outer `none` is a walk that
the fuel has cut off. -/
def recursiveNonterminal (fuel : ℕ) (fsts : List (L × VectorFst L W)) (root : ℕ) :
    Option (Option ℕ) :=
  (Loop.tryLoop (callWalkStep fsts) fuel (callWalkStart fsts root)).map fun result =>
    match result with
    | .error callee => some callee
    | .ok _ => none

end Walking

/- The properties the result has, from those of the FSTs going in. -/
def propertiesOf (fsts : List (L × VectorFst L W)) (root : ℕ) (opts : ReplaceOptions L) :
    BitVec 64 :=
  let count : Option L := ArcLabel.fromI64 fsts.length
  let allNegative := fsts.all fun entry => ¬ epsilon ≤ entry.1
  let denseRange := fsts.all fun entry => count.any (entry.1 ≤ ·) && ¬ entry.1 ≤ epsilon
  replaceProperties (fsts.map fun entry => entry.2.properties &&& kCopyProperties) root
    { epsilonOnCall := opts.callLabelType.epsilonOnInput
      epsilonOnReturn := opts.returnLabelType.epsilonOnInput
      outEpsilonOnCall := opts.callLabelType.epsilonOnOutput
      outEpsilonOnReturn := opts.returnLabelType.epsilonOnOutput
      replaceTransducer := opts.makesATransducer
      noEmptyFsts := fsts.all fun entry => entry.2.start.isSome
      allILabelSorted := fsts.all fun entry => entry.2.properties &&& kILabelSorted ≠ 0
      allOLabelSorted := fsts.all fun entry => entry.2.properties &&& kOLabelSorted ≠ 0
      allNegativeOrDense := allNegative || denseRange }

structure ReplaceTables where
  prefixes : List PrefixEntry
  states : List StateTuple
  pending : List ℕ

structure ReplaceLoop (L W : Type) where
  tables : ReplaceTables
  ofst : VectorFst L W

namespace ReplaceTables

def findState (l : ReplaceTables) (tuple : StateTuple) : ℕ × ReplaceTables :=
  let (id, states) := BiTable.findId l.states tuple
  (id, { l with
    states := states
    pending := if id = l.states.length then id :: l.pending else l.pending })

end ReplaceTables

section Expanding

variable [Zero W] [One W] [DecidableEq W]

/- A state reached through a call returns where it is final. -/
def replaceReturn (opts : ReplaceOptions L) (tuple : StateTuple) (finalWeight : W)
    (l : ReplaceTables) : ReplaceTables × List (Arc L W) :=
  if finalWeight ≠ 0 then
    match PrefixTable.top l.prefixes tuple.prefixId with
    | some (parent, caller, resume) =>
      let (nextstate, l) := l.findState ⟨parent, caller, resume⟩
      (l, [⟨if opts.returnLabelType.epsilonOnInput then epsilon else opts.returnLabel,
        if opts.returnLabelType.epsilonOnOutput then epsilon else opts.returnLabel,
        finalWeight, nextstate⟩])
    | none => (l, [])
  else (l, [])

def replaceArc (fsts : List (L × VectorFst L W)) (opts : ReplaceOptions L) (tuple : StateTuple)
    (acc : ReplaceTables × List (Arc L W)) (arc : Arc L W) : ReplaceTables × List (Arc L W) :=
  match calledBy fsts arc.olabel with
  | none =>
    let (nextstate, l) := acc.1.findState { tuple with fstState := arc.nextstate }
    (l, acc.2 ++ [⟨arc.ilabel, arc.olabel, arc.weight, nextstate⟩])
  | some called =>
    match (fstAt fsts called).start with
    | none => acc
    | some calledStart =>
      let (prefixId, prefixes) :=
        PrefixTable.push acc.1.prefixes tuple.prefixId tuple.fstId arc.nextstate
      let (nextstate, l) :=
        { acc.1 with prefixes := prefixes }.findState ⟨prefixId, called, calledStart⟩
      (l, acc.2 ++ [⟨if opts.callLabelType.epsilonOnInput then epsilon else arc.ilabel,
        if opts.callLabelType.epsilonOnOutput then epsilon
        else opts.callOutputLabel.getD arc.olabel,
        arc.weight, nextstate⟩])

/- One round of the loop: a state is taken off the list and given its arcs. -/
def replaceStep (fsts : List (L × VectorFst L W)) (opts : ReplaceOptions L)
    (l : ReplaceLoop L W) : Option (ReplaceLoop L W) :=
  match l.tables.pending with
  | [] => none
  | id :: pending =>
    let tuple := l.tables.states.getD id ⟨0, 0, 0⟩
    let fst := fstAt fsts tuple.fstId
    let finalWeight := fst.finalWeight tuple.fstState
    let ofst := if tuple.prefixId = 0 then l.ofst.setFinal id finalWeight else l.ofst
    let (tables, arcs) := (fst.arcs tuple.fstState).foldl (replaceArc fsts opts tuple)
      (replaceReturn opts tuple finalWeight { l.tables with pending := pending })
    let ofst := ofst.growTo tables.states.length
    some ⟨tables, arcs.foldl (fun ofst arc => ofst.addArc id arc) ofst⟩

def recursionError [ToString L] (fsts : List (L × VectorFst L W)) (callee : ℕ) : String :=
  let label := ((fsts[callee]?).map fun entry => toString entry.1).getD ""
  "Replace: the non-terminal " ++ label ++ " calls itself, directly or through others, so the " ++
    "expansion has no end"

/- `none` is a run that the fuel has cut off. -/
def replace [ToString L] (fuel : ℕ) (fsts : List (L × VectorFst L W)) (ofst : VectorFst L W)
    (opts : ReplaceOptions L) : Option (Except String (VectorFst L W)) :=
  let ofst := ofst.deleteAllStates.setProperties 0 kFstProperties
  match nonterminal fsts opts.root with
  | none => some (.error ("Replace: no FST for the root label " ++ toString opts.root))
  | some root =>
    match recursiveNonterminal fuel fsts root with
    | none => none
    | some (some callee) =>
      some (.error (recursionError fsts callee))
    | some none =>
      let props := propertiesOf fsts root opts
      match (fstAt fsts root).start with
      | none => some (.ok (ofst.setProperties props kFstProperties))
      | some rootStart =>
        let (start, tables) :=
          ReplaceTables.findState ⟨PrefixTable.new, [], []⟩ ⟨0, root, rootStart⟩
        let ofst := ofst.addState.setStart (some start)
        (Loop.runLoop (replaceStep fsts opts) fuel ⟨tables, ofst⟩).map
          fun l => .ok (l.ofst.setProperties props kFstProperties)

end Expanding

end Sicada
