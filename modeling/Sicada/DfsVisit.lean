import Sicada.Library.Loop
import Sicada.VectorFst

namespace Sicada.DfsVisit

open Relation Loop

variable {L W σ : Type} [ArcLabel L] [Zero W]

inductive StateColor where
  | white
  | grey
  | black
deriving DecidableEq

/- A frame of the search: a state, the arcs of it still to be walked, and the arc its parent
descended on. -/
structure DfsFrame (L W : Type) where
  stateId : ℕ
  arcs : List (Arc L W)
  enteredBy : Option (ℕ × Arc L W)

/- A visitor reports to a state `σ` of its own; `false` asks the search to stop. -/
structure DfsVisitor (L W σ : Type) where
  initVisit : σ → σ
  initState : ℕ → ℕ → σ → Bool × σ
  treeArc : ℕ → Arc L W → σ → Bool × σ
  backArc : ℕ → Arc L W → σ → Bool × σ
  forwardOrCrossArc : ℕ → Arc L W → σ → Bool × σ
  finishState : ℕ → Option (ℕ × Arc L W) → σ → σ
  finishVisit : σ → σ

structure DfsSearch (L W σ : Type) where
  stateColor : ℕ → StateColor
  nstates : ℕ
  stack : List (DfsFrame L W)
  dfs : Bool
  rootIdx : ℕ
  visitor : σ

def nextWhite (stateColor : ℕ → StateColor) (nstates rootIdx : ℕ) : ℕ :=
  ((List.range' rootIdx (nstates - rootIdx)).find? fun s => stateColor s = .white).getD nstates

section Searching

variable (fst : VectorFst L W) (visitor : DfsVisitor L W σ) (filter : Arc L W → Bool)
  (accessOnly : Bool) (start : ℕ)

/- The root of the next tree; with `accessOnly` there is none. -/
def nextRoot (d : DfsSearch L W σ) : ℕ :=
  if accessOnly then d.nstates
  else nextWhite d.stateColor d.nstates (if d.rootIdx = start then 0 else d.rootIdx + 1)

def pushState (s : ℕ) (enteredBy : Option (ℕ × Arc L W)) (d : DfsSearch L W σ) :
    DfsSearch L W σ :=
  let (dfs, v) := visitor.initState s d.rootIdx d.visitor
  { d with
    stateColor := Function.update d.stateColor s .grey
    stack := ⟨s, fst.arcs s, enteredBy⟩ :: d.stack
    dfs := dfs
    visitor := v }

def popState (frame : DfsFrame L W) (stack : List (DfsFrame L W)) (d : DfsSearch L W σ) :
    DfsSearch L W σ :=
  let d := { d with
    stateColor := Function.update d.stateColor frame.stateId .black
    stack := stack
    visitor := visitor.finishState frame.stateId frame.enteredBy d.visitor }
  if stack.isEmpty then { d with rootIdx := nextRoot accessOnly start d } else d

/- The arc is off its frame already. -/
def walkArc (s : ℕ) (arc : Arc L W) (d : DfsSearch L W σ) : DfsSearch L W σ :=
  let d := { d with nstates := max d.nstates (arc.nextstate + 1) }
  if filter arc then
    match d.stateColor arc.nextstate with
    | .white =>
      let (dfs, v) := visitor.treeArc s arc d.visitor
      if dfs then pushState fst visitor arc.nextstate (some (s, arc)) { d with visitor := v }
      else { d with dfs := false, visitor := v }
    | .grey =>
      let (dfs, v) := visitor.backArc s arc d.visitor
      { d with dfs := dfs, visitor := v }
    | .black =>
      let (dfs, v) := visitor.forwardOrCrossArc s arc d.visitor
      { d with dfs := dfs, visitor := v }
  else d

/- One round of the search: a new tree, an arc walked, or a state finished. -/
def dfsStep (d : DfsSearch L W σ) : Option (DfsSearch L W σ) :=
  match d.stack with
  | [] =>
    if d.dfs ∧ d.rootIdx < d.nstates then some (pushState fst visitor d.rootIdx none d) else none
  | frame :: stack =>
    match d.dfs, frame.arcs with
    | true, arc :: arcs =>
      some (walkArc fst visitor filter frame.stateId arc
        { d with stack := { frame with arcs := arcs } :: stack })
    | _, _ => some (popState visitor accessOnly start frame stack d)

/- Past every state the search can come to know of. -/
def stateBound : ℕ :=
  ((fst.states.flatMap (·.arcs)).map fun arc => arc.nextstate + 1).foldl max fst.numStates

/- Each state is entered and left once and each arc is walked once. -/
def dfsFuel : ℕ := ((List.range (stateBound fst)).map fun s => (fst.arcs s).length + 2).sum + 1

def startSearch (v : σ) : DfsSearch L W σ :=
  { stateColor := fun _ => .white
    nstates := fst.numStates
    stack := []
    dfs := true
    rootIdx := start
    visitor := v }

def searchFrom (v : σ) : DfsSearch L W σ :=
  (runLoop (dfsStep fst visitor filter accessOnly start) (dfsFuel fst)
    (startSearch fst start v)).getD (startSearch fst start v)

def dfsVisit (v : σ) : σ :=
  let v := visitor.initVisit v
  match fst.start with
  | none => visitor.finishVisit v
  | some start => visitor.finishVisit (searchFrom fst visitor filter accessOnly start v).visitor

/- Visits `fst` depth first, following every arc. -/
def dfsVisitAny (v : σ) : σ := dfsVisit fst visitor (fun _ => true) false v

end Searching

/- An arc is off the frame `frame` on top. -/
def takeArc (frame : DfsFrame L W) (arc : Arc L W) (arcs : List (Arc L W))
    (stack : List (DfsFrame L W)) (d : DfsSearch L W σ) : DfsSearch L W σ :=
  { d with
    stack := { frame with arcs := arcs } :: stack
    nstates := max d.nstates (arc.nextstate + 1) }

/- All that one round can do. -/
inductive DfsMove (fst : VectorFst L W) (visitor : DfsVisitor L W σ) (filter : Arc L W → Bool)
    (accessOnly : Bool) (start : ℕ) (d : DfsSearch L W σ) : DfsSearch L W σ → Prop
  | newTree (hstack : d.stack = []) (hdfs : d.dfs = true) (hroot : d.rootIdx < d.nstates) :
      DfsMove fst visitor filter accessOnly start d (pushState fst visitor d.rootIdx none d)
  | finish {frame : DfsFrame L W} {stack : List (DfsFrame L W)} (hstack : d.stack = frame :: stack)
      (harcs : d.dfs = true → frame.arcs = []) :
      DfsMove fst visitor filter accessOnly start d
        (popState visitor accessOnly start frame stack d)
  | skip {frame : DfsFrame L W} {stack : List (DfsFrame L W)} {arc : Arc L W}
      {arcs : List (Arc L W)} (hstack : d.stack = frame :: stack) (harcs : frame.arcs = arc :: arcs)
      (hdfs : d.dfs = true) (hfilter : filter arc = false) :
      DfsMove fst visitor filter accessOnly start d (takeArc frame arc arcs stack d)
  | descend {frame : DfsFrame L W} {stack : List (DfsFrame L W)} {arc : Arc L W}
      {arcs : List (Arc L W)} (hstack : d.stack = frame :: stack)
      (harcs : frame.arcs = arc :: arcs) (hdfs : d.dfs = true) (hfilter : filter arc = true)
      (hwhite : d.stateColor arc.nextstate = .white)
      (htree : (visitor.treeArc frame.stateId arc d.visitor).1 = true) :
      DfsMove fst visitor filter accessOnly start d
        (pushState fst visitor arc.nextstate (some (frame.stateId, arc))
          { takeArc frame arc arcs stack d with
            visitor := (visitor.treeArc frame.stateId arc d.visitor).2 })
  | refuse {frame : DfsFrame L W} {stack : List (DfsFrame L W)} {arc : Arc L W}
      {arcs : List (Arc L W)} (hstack : d.stack = frame :: stack)
      (harcs : frame.arcs = arc :: arcs) (hdfs : d.dfs = true) (hfilter : filter arc = true)
      (hwhite : d.stateColor arc.nextstate = .white)
      (htree : (visitor.treeArc frame.stateId arc d.visitor).1 = false) :
      DfsMove fst visitor filter accessOnly start d
        { takeArc frame arc arcs stack d with
          dfs := false
          visitor := (visitor.treeArc frame.stateId arc d.visitor).2 }
  | back {frame : DfsFrame L W} {stack : List (DfsFrame L W)} {arc : Arc L W}
      {arcs : List (Arc L W)} (hstack : d.stack = frame :: stack)
      (harcs : frame.arcs = arc :: arcs) (hdfs : d.dfs = true) (hfilter : filter arc = true)
      (hgrey : d.stateColor arc.nextstate = .grey) :
      DfsMove fst visitor filter accessOnly start d
        { takeArc frame arc arcs stack d with
          dfs := (visitor.backArc frame.stateId arc d.visitor).1
          visitor := (visitor.backArc frame.stateId arc d.visitor).2 }
  | cross {frame : DfsFrame L W} {stack : List (DfsFrame L W)} {arc : Arc L W}
      {arcs : List (Arc L W)} (hstack : d.stack = frame :: stack)
      (harcs : frame.arcs = arc :: arcs) (hdfs : d.dfs = true) (hfilter : filter arc = true)
      (hblack : d.stateColor arc.nextstate = .black) :
      DfsMove fst visitor filter accessOnly start d
        { takeArc frame arc arcs stack d with
          dfs := (visitor.forwardOrCrossArc frame.stateId arc d.visitor).1
          visitor := (visitor.forwardOrCrossArc frame.stateId arc d.visitor).2 }

section Moves

variable {fst : VectorFst L W} {visitor : DfsVisitor L W σ} {filter : Arc L W → Bool}
  {accessOnly : Bool} {start : ℕ} {d d' : DfsSearch L W σ}

theorem walkArc_move {frame : DfsFrame L W} {stack : List (DfsFrame L W)} {arc : Arc L W}
    {arcs : List (Arc L W)} (hstack : d.stack = frame :: stack) (harcs : frame.arcs = arc :: arcs)
    (hdfs : d.dfs = true) : DfsMove fst visitor filter accessOnly start d
      (walkArc fst visitor filter frame.stateId arc
        { d with stack := { frame with arcs := arcs } :: stack }) := by
  unfold walkArc
  dsimp only
  split
  next hfilter =>
    split
    next hwhite =>
      split
      next htree => exact .descend hstack harcs hdfs hfilter hwhite htree
      next htree =>
        exact .refuse hstack harcs hdfs hfilter hwhite (Bool.not_eq_true _ ▸ htree)
    next hgrey => exact .back hstack harcs hdfs hfilter hgrey
    next hblack => exact .cross hstack harcs hdfs hfilter hblack
  next hfilter => exact .skip hstack harcs hdfs (Bool.not_eq_true _ ▸ hfilter)

theorem dfsStep_move (h : dfsStep fst visitor filter accessOnly start d = some d') :
    DfsMove fst visitor filter accessOnly start d d' := by
  unfold dfsStep at h
  split at h
  next hstack =>
    split at h
    next hgo =>
      cases h
      exact .newTree hstack hgo.1 hgo.2
    next => cases h
  next frame stack hstack =>
    split at h
    next arc arcs hdfs harcs =>
      cases h
      exact walkArc_move hstack harcs hdfs
    next hnone =>
      cases h
      refine .finish hstack ?_
      intro hdfs
      cases harcs : frame.arcs with
      | nil => rfl
      | cons arc arcs => exact absurd harcs (hnone arc arcs hdfs)

theorem dfsStep_none (h : dfsStep fst visitor filter accessOnly start d = none) :
    d.stack = [] ∧ (d.dfs = true → d.nstates ≤ d.rootIdx) := by
  unfold dfsStep at h
  split at h
  next hstack =>
    refine ⟨hstack, ?_⟩
    intro hdfs
    by_contra hlt
    simp [hdfs, Nat.lt_of_not_le hlt] at h
  next => split at h <;> cases h

theorem nextWhite_spec {stateColor : ℕ → StateColor} {nstates rootIdx : ℕ}
    (hle : rootIdx ≤ nstates) :
    (nextWhite stateColor nstates rootIdx < nstates →
      stateColor (nextWhite stateColor nstates rootIdx) = .white) ∧
      ∀ s < nextWhite stateColor nstates rootIdx, rootIdx ≤ s → stateColor s ≠ .white := by
  unfold nextWhite
  cases hfind : (List.range' rootIdx (nstates - rootIdx)).find? fun s => stateColor s = .white with
  | none =>
    refine ⟨fun h => absurd h (lt_irrefl _), ?_⟩
    intro s hs hrs hwhite
    rw [Option.getD_none] at hs
    have hmem : s ∈ List.range' rootIdx (nstates - rootIdx) := by
      rw [List.mem_range'_1]
      omega
    exact List.find?_eq_none.mp hfind s hmem (by simpa using hwhite)
  | some r =>
    rw [Option.getD_some]
    obtain ⟨hr, before, after, hsplit, hbefore⟩ := List.find?_eq_some_iff_append.mp hfind
    refine ⟨fun _ => by simpa using hr, ?_⟩
    intro s hs hrs hwhite
    have hr' : r ∈ List.range' rootIdx (nstates - rootIdx) := by
      rw [hsplit]
      simp
    have hmem : s ∈ before ++ r :: after := by
      rw [← hsplit, List.mem_range'_1]
      rw [List.mem_range'_1] at hr'
      omega
    have hsorted : (before ++ r :: after).Pairwise (· < ·) := hsplit ▸ List.pairwise_lt_range'
    rcases List.mem_append.mp hmem with hmem | hmem
    · have := hbefore s hmem
      simp [hwhite] at this
    · rcases List.mem_cons.mp hmem with rfl | hmem
      · exact lt_irrefl _ hs
      · have hlt := (List.pairwise_cons.mp (List.pairwise_append.mp hsorted).2.1).1 s hmem
        omega

end Moves

end Sicada.DfsVisit
