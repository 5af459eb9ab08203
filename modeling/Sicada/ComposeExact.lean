import Sicada.ComposeCanonical
import Sicada.ComposePaths
import Sicada.SortedCopy

namespace Sicada.ComposeExact

open PropertyBits Paths Walk ComposeMoves ComposeInterleave ComposeCanonical ComposePaths
  ListLemmas SortedCopy

variable {L W : Type} [ArcLabel L] [CommSemiring W] [DecidableEq W]

section Start

variable {filter : ArcFilter L W} {left right : VectorFst L W}
  {matchInput : ComposeStateTuple → Bool}

/- Where the loop of the composition starts: the pair of start states, not yet expanded. -/
def startLoop (start : ComposeStateTuple) (ofst : VectorFst L W) : ComposeLoop L W :=
  ⟨[start], [0], {0}, ofst.deleteAllStates.addState.setStart (some 0)⟩

theorem startLoop_inv (start1 start2 : ℕ) (ofst : VectorFst L W) :
    ComposeInv filter left right matchInput ⟨start1, start2, .default⟩
      (startLoop ⟨start1, start2, .default⟩ ofst) := by
  refine ⟨List.nodup_singleton _, ?_, rfl, rfl, rfl, rfl, List.nodup_singleton _, ?_, ?_, ?_⟩
  · intro tuple htuple
    obtain rfl := List.mem_singleton.mp htuple
    exact mem_tuples.mpr
      ⟨Finset.mem_insert_self _ _, Finset.mem_insert_self _ _⟩
  · intro q hq
    obtain rfl := List.mem_singleton.mp hq
    exact Nat.zero_lt_one
  · intro q hq
    obtain rfl := List.mem_singleton.mp hq
    exact ⟨rfl, rfl⟩
  · intro q tuple htuple hq
    have hlt : q < 1 := (List.getElem?_eq_some_iff.mp htuple).1
    exact absurd (List.mem_singleton.mpr (by omega)) hq

theorem bijOn_empty_of_start {result : VectorFst L W} (hresult : result.start = none)
    (hstart : left.start = none ∨ right.start = none) :
    ∃ F, Set.BijOn F (acceptingPaths result) (meetingPaths left right) ∧
      ∀ p ∈ acceptingPaths result, Agrees result left right p (F p) := by
  have hmeeting : meetingPaths left right = ∅ := by
    ext pq
    simp only [meetingPaths, Set.mem_ofPred_eq, Set.mem_empty_iff_false, iff_false]
    rintro ⟨h1, h2, -⟩
    rcases hstart with hstart | hstart
    · rwa [acceptingPaths_of_none hstart] at h1
    · rwa [acceptingPaths_of_none hstart] at h2
  rw [acceptingPaths_of_none hresult, hmeeting]
  exact ⟨fun p => (p, p), Set.bijOn_empty _, fun p hp => hp.elim⟩

theorem composeThrough_eq {start1 start2 : ℕ} (hstart1 : left.start = some start1)
    (hstart2 : right.start = some start2) (fuel : ℕ) (ofst : VectorFst L W) :
    composeThrough filter fuel ⟨left, true⟩ ⟨right, false⟩ matchInput ofst =
      (Loop.runLoop (composeStepThrough filter ⟨left, true⟩ ⟨right, false⟩ matchInput) fuel
        (startLoop ⟨start1, start2, .default⟩ ofst)).map fun l => l.ofst.setProperties
          (composeProperties (left.properties &&& kFstProperties)
            (right.properties &&& kFstProperties)) kFstProperties := by
  simp only [composeThrough, hstart1, hstart2]
  rfl

/- Each arc of a finished composition stands for a move. -/
theorem move_of_arc (h : Prepared left right) {start : ComposeStateTuple} {l : ComposeLoop L W}
    (hinv : ComposeInv filter left right matchInput start l) (hpending : l.pending = []) {s : ℕ}
    {arc : Arc L W} (harc : arc ∈ l.ofst.arcs s) : ∃ m, Meets left right (tupleOf l s) m ∧
      Stands l.states (protoOf filter (tupleOf l s) m) arc := by
  have hs : s < l.states.length := by
    by_contra hle
    rw [VectorFst.arcs_of_le (by rw [hinv.numStates]; omega)] at harc
    exact absurd harc List.not_mem_nil
  obtain ⟨hall, -⟩ := expanded_of_finished hinv hpending hs
  obtain ⟨p, hp, hstands⟩ := forall₂_mem_right hall harc
  obtain ⟨m, hm, rfl⟩ := List.mem_map.mp hp
  exact ⟨m, ((mem_movesOf h).mp hm).1, hstands⟩

/- Whatever comes of the loop is empty, or finished. -/
theorem composeThrough_finished (h : Prepared left right) {fuel : ℕ}
    {ofst result : VectorFst L W} (hrun : composeThrough filter fuel ⟨left, true⟩ ⟨right, false⟩
      matchInput ofst = some result) : ∃ reached : VectorFst L W,
    result = reached.setProperties (composeProperties (left.properties &&& kFstProperties)
      (right.properties &&& kFstProperties)) kFstProperties ∧
    (reached.start = none ∧ (∀ s, reached.arcs s = []) ∨ ∃ start l, l.ofst = reached ∧
      ComposeInv filter left right matchInput start l ∧ l.pending = []) := by
  cases hstart1 : left.start with
  | none =>
    simp only [composeThrough, hstart1] at hrun
    exact ⟨_, (Option.some.inj hrun).symm, Or.inl ⟨rfl, fun _ => rfl⟩⟩
  | some start1 =>
    cases hstart2 : right.start with
    | none =>
      simp only [composeThrough, hstart1, hstart2] at hrun
      exact ⟨_, (Option.some.inj hrun).symm, Or.inl ⟨rfl, fun _ => rfl⟩⟩
    | some start2 =>
      rw [composeThrough_eq hstart1 hstart2] at hrun
      obtain ⟨l, hl, rfl⟩ := Option.map_eq_some_iff.mp hrun
      obtain ⟨hinv, hstop⟩ := Loop.runLoop_invariant
        (fun l l' hl hstep => (composeStep_inv h hl hstep).1)
        (startLoop_inv start1 start2 ofst) hl
      refine ⟨l.ofst, rfl, Or.inr ⟨_, l, rfl, hinv, ?_⟩⟩
      cases hp : l.pending with
      | nil => rfl
      | cons q pending => simp [composeStepThrough, hp] at hstop

/- Whatever comes of the loop leads nowhere out of itself. -/
theorem composeThrough_inRange (h : Prepared left right) {fuel : ℕ} {ofst result : VectorFst L W}
    (hrun : composeThrough filter fuel ⟨left, true⟩ ⟨right, false⟩ matchInput ofst =
      some result) : result.InRange := by
  obtain ⟨reached, rfl, ⟨hstart, harcs⟩ | ⟨start, l, rfl, hinv, hpending⟩⟩ :=
    composeThrough_finished h hrun
  · refine ⟨fun s hs => ?_, fun s arc harc => ?_⟩
    · exact absurd (hstart.symm.trans hs) (by simp)
    · change arc ∈ reached.arcs s at harc
      rw [harcs] at harc
      exact absurd harc List.not_mem_nil
  · refine ⟨fun s hs => ?_, fun s arc harc => ?_⟩
    · obtain rfl : 0 = s := Option.some.inj (hinv.start.symm.trans hs)
      exact hinv.numStates ▸ (List.getElem?_eq_some_iff.mp hinv.first).1
    · obtain ⟨m, -, hstands⟩ := move_of_arc h hinv hpending harc
      exact hinv.numStates ▸ (List.getElem?_eq_some_iff.mp hstands.2.2.2).1

/- The loop ends, and through a filter that takes every pair of paths that meet apart in one way its
result has one path for each. -/
theorem composeThrough_bijOn (h : Prepared left right) (hfinals : FinalsMultiply left right)
    (filter : ArcFilter L W)
    (hsplit : ∀ start1 start2, Set.BijOn (fun p => (firsts p, seconds p))
      (movesFrom filter left right ⟨start1, start2, .default⟩)
      {pq | pq.1 ∈ acceptingFrom left start1 ∧ pq.2 ∈ acceptingFrom right start2 ∧
        ostring pq.1 = istring pq.2})
    (matchInput : ComposeStateTuple → Bool) (ofst : VectorFst L W) : ∃ fuel result,
      (∀ fuel', fuel ≤ fuel' → composeThrough filter fuel' ⟨left, true⟩ ⟨right, false⟩ matchInput
        ofst = some result) ∧
      ∃ F, Set.BijOn F (acceptingPaths result) (meetingPaths left right) ∧
        ∀ p ∈ acceptingPaths result, Agrees result left right p (F p) := by
  cases hstart1 : left.start with
  | none =>
    refine ⟨0, _, fun fuel' _ => by simp only [composeThrough, hstart1]; rfl, ?_⟩
    exact bijOn_empty_of_start rfl (Or.inl hstart1)
  | some start1 =>
    cases hstart2 : right.start with
    | none =>
      refine ⟨0, _, fun fuel' _ => by simp only [composeThrough, hstart1, hstart2]; rfl, ?_⟩
      exact bijOn_empty_of_start rfl (Or.inr hstart2)
    | some start2 =>
      have hinit : ComposeInv filter left right matchInput _ _ :=
        startLoop_inv start1 start2 ofst
      obtain ⟨fuel, l, hrun, hinv, hpending⟩ := composeLoop_terminates h hinit
      refine ⟨fuel, l.ofst.setProperties (composeProperties (left.properties &&& kFstProperties)
        (right.properties &&& kFstProperties)) kFstProperties, ?_,
        finished_bijOn h hfinals hinv hpending (hsplit start1 start2) hstart1 hstart2⟩
      intro fuel' hfuel
      rw [composeThrough_eq hstart1 hstart2, Loop.runLoop_mono hfuel hrun]
      rfl

end Start

section Copies

variable {fst copy : VectorFst L W}

/- The paths of a copy are those of the FST, each arc at the place it had before the sort. -/
theorem copy_bijOn (h : IsCopy fst copy) :
    ∃ G, Set.BijOn G (acceptingPaths copy) (acceptingPaths fst) ∧
      ∀ p ∈ acceptingPaths copy, istring (G p) = istring p ∧ ostring (G p) = ostring p ∧
        pathWeight fst (G p) = pathWeight copy p := by
  choose σ hplace hinj hsurj using fun s => exists_places (h.arcs s)
  have hcovers : Covers (Leaves copy) follow (Leaves fst) follow id
      (fun s e => (σ s e.1, e.2)) fun _ => True := by
    refine ⟨?_, fun _ _ _ _ => rfl, fun _ _ _ _ => trivial, ?_, ?_⟩
    · intro s e _ he
      exact hplace s e.1 e.2 he
    · intro s e e' _ he he' heq
      obtain ⟨hidx, harc⟩ := Prod.mk.inj heq
      exact Prod.ext (hinj s _ _ _ _ he he' hidx) harc
    · intro s e _ he
      obtain ⟨k, hk, hidx⟩ := hsurj s e.1 e.2 he
      exact ⟨(k, e.2), hk, Prod.ext hidx rfl⟩
  refine ⟨_, bijOn_of_covers hcovers h.start h.finalWeight, fun p hp => ?_⟩
  have hp' := acceptingFrom_start hp
  obtain ⟨s, hs⟩ : ∃ s, copy.start.getD 0 = s := ⟨_, rfl⟩
  rw [hs] at hp' ⊢
  have hlabels : (Covers.project follow (fun s e => (σ s e.1, e.2)) s p).map (·.2) =
      p.map (·.2) := hcovers.map_project (fun _ _ _ _ => rfl) trivial hp'
  have hread : ∀ {X : Type} (f : Arc L W → X),
      (Covers.project follow (fun s e => (σ s e.1, e.2)) s p).map (fun e => f e.2) =
        p.map fun e => f e.2 := by
    intro X f
    have hmap := congrArg (List.map f) hlabels
    rwa [List.map_map, List.map_map] at hmap
  have hend := hcovers.walkEnd_project trivial hp'
  refine ⟨?_, ?_, ?_⟩
  · unfold istring
    rw [hread]
  · unfold ostring
    rw [hread]
  · unfold pathWeight weightFrom
    rw [hread, ← h.start, hs, h.finalWeight]
    exact congrArg (fun t => _ * fst.finalWeight t) hend

theorem meetingPaths_bijOn {fst1 fst2 left right : VectorFst L W} (h1 : IsCopy fst1 left)
    (h2 : IsCopy fst2 right) :
    ∃ G, Set.BijOn G (meetingPaths left right) (meetingPaths fst1 fst2) ∧
      ∀ result p, ∀ pq ∈ meetingPaths left right, Agrees result left right p pq →
        Agrees result fst1 fst2 p (G pq) := by
  obtain ⟨G1, hbij1, hsame1⟩ := copy_bijOn h1
  obtain ⟨G2, hbij2, hsame2⟩ := copy_bijOn h2
  refine ⟨fun pq => (G1 pq.1, G2 pq.2), ⟨?_, ?_, ?_⟩, ?_⟩
  · rintro ⟨p1, p2⟩ ⟨hp1, hp2, hmeet⟩
    refine ⟨hbij1.mapsTo hp1, hbij2.mapsTo hp2, ?_⟩
    rw [(hsame1 p1 hp1).2.1, (hsame2 p2 hp2).1]
    exact hmeet
  · rintro ⟨p1, p2⟩ ⟨hp1, hp2, -⟩ ⟨q1, q2⟩ ⟨hq1, hq2, -⟩ heq
    obtain ⟨heq1, heq2⟩ := Prod.mk.inj heq
    exact Prod.ext (hbij1.injOn hp1 hq1 heq1) (hbij2.injOn hp2 hq2 heq2)
  · rintro ⟨q1, q2⟩ ⟨hq1, hq2, hmeet⟩
    obtain ⟨p1, hp1, rfl⟩ := hbij1.surjOn hq1
    obtain ⟨p2, hp2, rfl⟩ := hbij2.surjOn hq2
    refine ⟨(p1, p2), ⟨hp1, hp2, ?_⟩, rfl⟩
    rwa [← (hsame1 p1 hp1).2.1, ← (hsame2 p2 hp2).1]
  · rintro result p ⟨p1, p2⟩ ⟨hp1, hp2, -⟩ ⟨hin, hout, hweight⟩
    obtain ⟨hin1, -, hweight1⟩ := hsame1 p1 hp1
    obtain ⟨-, hout2, hweight2⟩ := hsame2 p2 hp2
    refine ⟨hin.trans hin1.symm, hout.trans hout2.symm, ?_⟩
    rw [hweight, ← hweight1, ← hweight2]

end Copies

theorem everyArc_of_copy {fst copy : VectorFst L W} (h : IsCopy fst copy) {P : Arc L W → Prop}
    (hP : EveryArc P fst) : EveryArc P copy :=
  fun s arc harc => hP s arc ((h.arcs s).mem_iff.mp harc)

theorem prepared_of_copies {fst1 fst2 : VectorFst L W} (h1 : SortedBitHonest true fst1)
    (h2 : SortedBitHonest false fst2) (hlabels1 : EveryArc (fun arc => arc.olabel ≠ noLabel) fst1)
    (hlabels2 : EveryArc (fun arc => arc.ilabel ≠ noLabel) fst2) :
    Prepared (sortedCopy fst1 true) (sortedCopy fst2 false) := by
  obtain ⟨hcopy1, hsorted1⟩ := sortedCopy_spec h1
  obtain ⟨hcopy2, hsorted2⟩ := sortedCopy_spec h2
  exact ⟨hsorted1, hsorted2, everyArc_of_copy hcopy1 hlabels1, everyArc_of_copy hcopy2 hlabels2,
    hcopy1.ocounts, hcopy2.icounts⟩

section Copied

variable [NoZeroDivisors W] {fst1 fst2 : VectorFst L W}
  (h1 : SortedBitHonest true fst1) (h2 : SortedBitHonest false fst2)
  (hlabels1 : EveryArc (fun arc => arc.olabel ≠ noLabel) fst1)
  (hlabels2 : EveryArc (fun arc => arc.ilabel ≠ noLabel) fst2)

include h1 h2 hlabels1 hlabels2

theorem composeThrough_copies {filter : ArcFilter L W}
    (canon : Canonical filter (sortedCopy fst1 true) (sortedCopy fst2 false))
    (matchInput : ComposeStateTuple → Bool) (ofst : VectorFst L W) :
    ∃ fuel result,
      (∀ fuel', fuel ≤ fuel' → composeThrough filter fuel' ⟨sortedCopy fst1 true, true⟩
        ⟨sortedCopy fst2 false, false⟩ matchInput ofst = some result) ∧
      ∃ F, Set.BijOn F (acceptingPaths result) (meetingPaths fst1 fst2) ∧
        ∀ p ∈ acceptingPaths result, Agrees result fst1 fst2 p (F p) := by
  obtain ⟨fuel, result, hrun, F, hbij, hagrees⟩ :=
    composeThrough_bijOn (prepared_of_copies h1 h2 hlabels1 hlabels2) (finalsMultiply _ _) filter
      (fun _ _ => split_bijOn canon rfl) matchInput ofst
  obtain ⟨G, hbij', hagrees'⟩ := meetingPaths_bijOn (sortedCopy_spec h1).1 (sortedCopy_spec h2).1
  refine ⟨fuel, result, hrun, G ∘ F, hbij'.comp hbij, ?_⟩
  intro p hp
  exact hagrees' result p (F p) (hbij.mapsTo hp) (hagrees p hp)

end Copied

/- The composition has one accepting path for each pair of accepting paths that meet, and no
others, whichever side is matched at each state. -/
theorem compose_paths_exact [NoZeroDivisors W] {fst1 fst2 : VectorFst L W}
    (h1 : SortedBitHonest true fst1) (h2 : SortedBitHonest false fst2)
    (hlabels1 : EveryArc (fun arc => arc.olabel ≠ noLabel) fst1)
    (hlabels2 : EveryArc (fun arc => arc.ilabel ≠ noLabel) fst2)
    (matchInput : ComposeStateTuple → Bool) (ofst : VectorFst L W) :
    ∃ fuel result,
      (∀ fuel', fuel ≤ fuel' → composeOptions fuel' fst1 fst2 ofst matchInput = some result) ∧
      ∃ F, Set.BijOn F (acceptingPaths result) (meetingPaths fst1 fst2) ∧
        ∀ p ∈ acceptingPaths result, istring p = istring (F p).1 ∧ ostring p = ostring (F p).2 ∧
          pathWeight result p = pathWeight fst1 (F p).1 * pathWeight fst2 (F p).2 := by
  exact composeThrough_copies h1 h2 hlabels1 hlabels2
    (sequenceCanonical (prepared_of_copies h1 h2 hlabels1 hlabels2)) matchInput ofst

/- An epsilon on either side before the label both sides agree on. -/
def leftRun : List (MutableOp ℤ (Tropical (WithTop ℕ))) :=
  [.addStates 3, .setStart (some 0), .addArc 0 ⟨1, 0, Tropical.trop 1, 1⟩, .addArc 1 ⟨2, 3, 1, 2⟩,
    .setFinal 2 1]

def rightRun : List (MutableOp ℤ (Tropical (WithTop ℕ))) :=
  [.addStates 3, .setStart (some 0), .addArc 0 ⟨0, 5, 1, 1⟩, .addArc 1 ⟨3, 6, Tropical.trop (2 : ℕ), 2⟩,
    .setFinal 2 1]

theorem epsilon_runs : ∃ fst1 fst2, runOps MutableOp.apply leftRun VectorFst.new = some fst1 ∧
    runOps MutableOp.apply rightRun VectorFst.new = some fst2 ∧ SortedBitHonest true fst1 ∧
      SortedBitHonest false fst2 ∧ (∀ s, ∀ arc ∈ fst1.arcs s, arc.olabel ≠ noLabel) ∧
        ∀ s, ∀ arc ∈ fst2.arcs s, arc.ilabel ≠ noLabel := by
  obtain ⟨fst1, hrun1, hlabels1⟩ : ∃ fst, runOps MutableOp.apply leftRun VectorFst.new = some fst ∧
      ∀ s < fst.numStates, ∀ arc ∈ fst.arcs s, arc.olabel ≠ noLabel := ⟨_, rfl, by decide⟩
  obtain ⟨fst2, hrun2, hlabels2⟩ : ∃ fst, runOps MutableOp.apply rightRun VectorFst.new = some fst ∧
      ∀ s < fst.numStates, ∀ arc ∈ fst.arcs s, arc.ilabel ≠ noLabel := ⟨_, rfl, by decide⟩
  exact ⟨fst1, fst2, hrun1, hrun2, sortedBitHonest_of_honest (honest_of_run hrun1) true,
    sortedBitHonest_of_honest (honest_of_run hrun2) false, VectorFst.forall_arcs_of_lt hlabels1,
    VectorFst.forall_arcs_of_lt hlabels2⟩

theorem compose_paths_exact_epsilons :
    ∃ fst1 fst2, runOps MutableOp.apply leftRun VectorFst.new = some fst1 ∧
      runOps MutableOp.apply rightRun VectorFst.new = some fst2 ∧
      ∃ fuel result, composeOptions fuel fst1 fst2 VectorFst.new (fun tuple => tuple.s1 ≤ tuple.s2) =
          some result ∧
        ∃ F, Set.BijOn F (acceptingPaths result) (meetingPaths fst1 fst2) ∧
          ∀ p ∈ acceptingPaths result, istring p = istring (F p).1 ∧ ostring p = ostring (F p).2 ∧
            pathWeight result p = pathWeight fst1 (F p).1 * pathWeight fst2 (F p).2 := by
  obtain ⟨fst1, fst2, hrun1, hrun2, hbit1, hbit2, hlabels1, hlabels2⟩ := epsilon_runs
  obtain ⟨fuel, result, hresult, hpaths⟩ := compose_paths_exact hbit1 hbit2
    hlabels1 hlabels2 (fun tuple => tuple.s1 ≤ tuple.s2) VectorFst.new
  exact ⟨fst1, fst2, hrun1, hrun2, fuel, result, hresult fuel le_rfl, hpaths⟩

/- Each kind of filter has an interleaving of its own to pick. -/
theorem exists_canonical {left right : VectorFst L W} (h : Prepared left right)
    (kind : ComposeFilterKind) : Nonempty (Canonical (kind.filter left right) left right) := by
  cases kind with
  | sequence => exact ⟨sequenceCanonical h⟩
  | altSequence => exact ⟨altSequenceCanonical h⟩
  | matching => exact ⟨matchCanonical h⟩

end Sicada.ComposeExact
