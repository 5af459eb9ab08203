import Sicada.CcVisitors

namespace Sicada

open DfsVisit CcVisitors

variable {L W W' : Type} [ArcLabel L]

namespace Reverse

section Start

variable [Zero W] [One W] [DecidableEq W] (isMember : W → Bool) (ifst : VectorFst L W)

/- The only final state there is, if there is just one. -/
def singleFinal : List ℕ → Option ℕ → Option ℕ
  | [], ostart => ostart
  | s :: states, ostart =>
    if isMember (ifst.finalWeight s) = false ∨ ifst.finalWeight s = 0 then singleFinal states ostart
    else if ostart.isSome then none
    else singleFinal states (some s)

/- Where the reversed FST starts, or `none` for a superinitial state, with what the search for
components says of the properties of the two FSTs. -/
def reversedStart (requireSuperinitial : Bool) : Option ℕ × BitVec 64 × BitVec 64 :=
  if requireSuperinitial then (none, 0, 0)
  else
    match singleFinal isMember ifst (List.range ifst.numStates) none with
    | none => (none, 0, 0)
    | some ostart =>
      if ifst.finalWeight ostart = 1 then (some ostart, 0, 0)
      else
        let visitor := dfsVisitAny ifst (sccVisitor isMember false ifst) (SccVisitor.new 0)
        let comp := visitor.scc ostart
        let count := (List.range visitor.len).countP fun s => visitor.scc s = comp
        if ostart < visitor.len ∧ 1 < count then (none, visitor.building, 0)
        else if (ifst.arcs ostart).any fun arc => arc.nextstate = ostart then
          (none, visitor.building, 0)
        else (some ostart, visitor.building, kInitialAcyclic)

end Start

section Arcs

variable [Zero W] [DecidableEq W] [Zero W'] [One W'] [Mul W'] [DecidableEq W'] (isMember : W → Bool)
  (reverse : W → W') (ifst : VectorFst L W) (offset ostart : ℕ)

def reverseArc (os : ℕ) (ofst : VectorFst L W') (iarc : Arc L W) : VectorFst L W' :=
  let nos := iarc.nextstate + offset
  let revWeight := if offset = 0 ∧ nos = ostart then
    reverse (ifst.finalWeight ostart) * reverse iarc.weight else reverse iarc.weight
  (ofst.growTo (nos + 1)).addArc nos ⟨iarc.ilabel, iarc.olabel, revWeight, os⟩

def reverseState (ofst : VectorFst L W') (is : ℕ) : VectorFst L W' :=
  let os := is + offset
  let ofst := ofst.growTo (os + 1)
  let ofst := if some is = ifst.start then ofst.setFinal os 1 else ofst
  let weight := ifst.finalWeight is
  let ofst := if isMember weight ∧ weight ≠ 0 ∧ offset = 1 then
    ofst.addArc 0 ⟨epsilon, epsilon, reverse weight, os⟩ else ofst
  (ifst.arcs is).foldl (reverseArc reverse ifst offset ostart os) ofst

end Arcs

end Reverse

open Reverse in
def reverse [Zero W] [One W] [DecidableEq W] [Zero W'] [One W'] [Mul W'] [DecidableEq W']
    (isMember : W → Bool) (reverseWeight : W → W') (ifst : VectorFst L W) (ofst : VectorFst L W')
    (requireSuperinitial : Bool) : VectorFst L W' :=
  let ofst := ofst.deleteAllStates
  let (single, dfsIprops, dfsOprops) := reversedStart isMember ifst requireSuperinitial
  let (ostart, offset, ofst) := match single with
    | some s => (s, 0, ofst)
    | none => (ofst.numStates, 1, ofst.addState)
  let ofst := (List.range ifst.numStates).foldl
    (reverseState isMember reverseWeight ifst offset ostart) ofst
  let ofst := ofst.setStart (some ostart)
  let ofst := if offset = 0 ∧ some ostart = ifst.start then
    ofst.setFinal ostart (reverseWeight (ifst.finalWeight ostart)) else ofst
  let iprops := (ifst.properties &&& kCopyProperties) ||| dfsIprops
  let oprops := (ofst.properties &&& kFstProperties) ||| dfsOprops
  ofst.setProperties (reverseProperties iprops (offset = 1) ||| oprops) kFstProperties

end Sicada
