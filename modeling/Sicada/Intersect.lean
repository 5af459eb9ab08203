import Sicada.ComposeExact
import Sicada.ConnectExact
import Sicada.ScanExact

namespace Sicada

section Intersecting

variable {L W : Type} [ArcLabel L] [Zero W] [One W] [Mul W] [DecidableEq W]

/- The composition as it is called, trimmed at its end. -/
def compose (fuel : ℕ) (isMember : W → Bool) (fst1 fst2 ofst : VectorFst L W) :
    Option (VectorFst L W) :=
  (composeOptions fuel fst1 fst2 ofst
    (priorityMatchInput ⟨sortedCopy fst1 true, true⟩ ⟨sortedCopy fst2 false, false⟩)).bind
      (VectorFst.connect isMember)

def notAcceptorMessage (which : String) : String :=
  "Intersect: the " ++ which ++ " argument is not an acceptor"

/- Both arguments are tested before either is refused. -/
def intersect (fuel : ℕ) (isMember : W → Bool) (fst1 fst2 ofst : VectorFst L W) :
    Option (Except OpenFstError (VectorFst L W)) :=
  let (tested1, fst1) := fst1.testedProperties kAcceptor
  let (tested2, fst2) := fst2.testedProperties kAcceptor
  if tested1 &&& kAcceptor = 0 then
    some (.error (.invalidOperation (notAcceptorMessage "1st")))
  else if tested2 &&& kAcceptor = 0 then
    some (.error (.invalidOperation (notAcceptorMessage "2nd")))
  else (compose fuel isMember fst1 fst2 ofst).map .ok

end Intersecting

namespace Intersect

open PropertyBits ScanExact Paths ComposePaths ComposeCanonical ComposeExact SortedCopy Relations
  ConnectExact

variable {L W : Type} [ArcLabel L] [CommSemiring W] [DecidableEq W] [NoZeroDivisors W]
  {fst1 fst2 : VectorFst L W} {isMember : W → Bool}

/- Trimming drops no path of the composition. -/
theorem compose_bijOn (h1 : SortedBitHonest true fst1) (h2 : SortedBitHonest false fst2)
    (hlabels1 : EveryArc (fun arc => arc.olabel ≠ noLabel) fst1)
    (hlabels2 : EveryArc (fun arc => arc.ilabel ≠ noLabel) fst2)
    (hmember : ∀ w, isMember w = true) (ofst : VectorFst L W) : ∃ fuel result,
      (∀ fuel', fuel ≤ fuel' → compose fuel' isMember fst1 fst2 ofst = some result) ∧
      ∃ F, Set.BijOn F (acceptingPaths result) (meetingPaths fst1 fst2) ∧
        ∀ p ∈ acceptingPaths result, Agrees result fst1 fst2 p (F p) := by
  have hprepared := prepared_of_copies h1 h2 hlabels1 hlabels2
  obtain ⟨fuel, composed, hrun, F, hbij, hagrees⟩ := composeThrough_copies h1 h2 hlabels1 hlabels2
    (sequenceCanonical hprepared)
    (priorityMatchInput ⟨sortedCopy fst1 true, true⟩ ⟨sortedCopy fst2 false, false⟩) ofst
  obtain ⟨result, hconnect, -, G, hbij', hread⟩ := connect_samePaths
    (composeThrough_inRange hprepared (hrun fuel le_rfl)) fun s => hmember (composed.finalWeight s)
  refine ⟨fuel, result, fun fuel' hle => ?_, F ∘ G, hbij.comp hbij', fun p hp => ?_⟩
  · have hcomposed : composeOptions fuel' fst1 fst2 ofst _ = some composed := hrun fuel' hle
    unfold compose
    rw [hcomposed]
    exact hconnect
  · obtain ⟨hreading, hlast⟩ := hread p hp
    obtain ⟨hin, hout, hweight⟩ := hagrees (G p) (hbij'.mapsTo hp)
    have hsame : pathWeight composed (G p) = pathWeight result p :=
      congrArg₂ (· * ·) (arcsWeight_eq_of_reading hreading) hlast
    exact ⟨(istring_eq_of_reading hreading).symm.trans hin,
      (ostring_eq_of_reading hreading).symm.trans hout, hsame.symm.trans hweight⟩

def letterRun : List (MutableOp ℤ (Tropical (WithTop ℕ))) :=
  [.addStates 2, .setStart (some 0), .addArc 0 ⟨1, 1, Tropical.trop 1, 1⟩, .addArc 0 ⟨0, 0, 1, 0⟩,
    .setFinal 1 1]

end Intersect

end Sicada
