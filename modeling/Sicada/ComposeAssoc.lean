import Sicada.ComposeExact
import Sicada.ScanExact

namespace Sicada.ComposeAssoc

open PropertyBits ScanExact Paths ComposeMoves ComposePaths ComposeCanonical ComposeExact
  SortedCopy

variable {L W : Type} [ArcLabel L] [CommSemiring W] [DecidableEq W]

/- Two sets that stand one to one for a third stand one to one for each other. -/
theorem exists_bijOn {α β γ : Type} [Nonempty β] {s : Set α} {t : Set β} {u : Set γ} {f : α → γ}
    {g : β → γ} (hf : Set.BijOn f s u) (hg : Set.BijOn g t u) :
    ∃ F, Set.BijOn F s t ∧ ∀ x ∈ s, g (F x) = f x := by
  choose! F hmaps heq using fun x (hx : x ∈ s) => hg.surjOn (hf.mapsTo hx)
  refine ⟨F, ⟨hmaps, fun x hx y hy hxy => ?_, fun y hy => ?_⟩, heq⟩
  · exact hf.injOn hx hy (by rw [← heq x hx, ← heq y hy, hxy])
  · obtain ⟨x, hx, hxy⟩ := hf.surjOn (hg.mapsTo hy)
    exact ⟨x, hx, hg.injOn (hmaps x hx) hy ((heq x hx).trans hxy)⟩

/- Composing sets no bit for the order of the arcs. -/
theorem not_held_composeProperties (props props' : BitVec 64) (byOutput : Bool) :
    ¬ Held (composeProperties props props') (sortedBit byOutput) := by
  have hplace : sortedBit byOutput = BitVec.twoPow 64 (if byOutput then 30 else 28) := by
    cases byOutput <;> decide
  rw [hplace, held_iff_getLsbD (by split <;> decide)]
  unfold composeProperties
  dsimp only
  split_ifs <;> simp [kError, kAcceptor, kAccessible, kNoEpsilons, kNoIEpsilons, kNoOEpsilons,
    kAcyclic, kInitialAcyclic, kIDeterministic, kODeterministic]

section Composed

variable {filter : ArcFilter L W} {left right ofst result : VectorFst L W}
  {matchInput : ComposeStateTuple → Bool} {fuel : ℕ} (h : Prepared left right)
  (hrun : composeThrough filter fuel ⟨left, true⟩ ⟨right, false⟩ matchInput ofst = some result)

include h hrun

theorem sortedBitHonest_composed (byOutput : Bool) : SortedBitHonest byOutput result := by
  obtain ⟨reached, rfl, -⟩ := composeThrough_finished h hrun
  intro hheld
  rcases held_or hheld with hkept | hset
  · cases byOutput <;> exact absurd (held_and hkept).2 (by decide)
  · exact absurd (held_and hset).1 (not_held_composeProperties _ _ byOutput)

/- The labels of a composition are labels of its operands, or epsilon. -/
theorem labels_composed :
    (EveryArc (fun arc => arc.ilabel ≠ noLabel) left →
      EveryArc (fun arc => arc.ilabel ≠ noLabel) result) ∧
    (EveryArc (fun arc => arc.olabel ≠ noLabel) right →
      EveryArc (fun arc => arc.olabel ≠ noLabel) result) := by
  obtain ⟨reached, rfl, ⟨-, harcs⟩ | ⟨start, l, rfl, hinv, hpending⟩⟩ :=
    composeThrough_finished h hrun
  · have hnone : ∀ s, ∀ arc ∈ reached.arcs s, False := fun s arc harc => by simp [harcs] at harc
    exact ⟨fun _ s arc harc => (hnone s arc harc).elim, fun _ s arc harc => (hnone s arc harc).elim⟩
  · refine ⟨fun hall s arc harc => ?_, fun hall s arc harc => ?_⟩
    · obtain ⟨⟨_ | e1, e2⟩, hmeets, hilabel, -⟩ := move_of_arc h hinv hpending harc
      · exact hilabel ▸ ArcLabel.epsilon_ne_noLabel
      · refine hilabel ▸ hall (tupleOf l s).s1 e1.2 (mem_of_leaves ?_)
        cases e2 <;> exact hmeets.1
    · obtain ⟨⟨e1, _ | e2⟩, hmeets, -, holabel, -⟩ := move_of_arc h hinv hpending harc
      · exact holabel ▸ ArcLabel.epsilon_ne_noLabel
      · refine holabel ▸ hall (tupleOf l s).s2 e2.2 (mem_of_leaves ?_)
        cases e1 <;> first | exact hmeets.1 | exact hmeets.2.1

end Composed

section Assoc

variable [NoZeroDivisors W] {fst1 fst2 fst3 : VectorFst L W}

/- What is known of a composition as an operand of the next. -/
theorem composed_spec (h1 : SortedBitHonest true fst1) (h2 : SortedBitHonest false fst2)
    (hlabels1 : EveryArc (fun arc => arc.olabel ≠ noLabel) fst1)
    (hlabels2 : EveryArc (fun arc => arc.ilabel ≠ noLabel) fst2)
    (matchInput : ComposeStateTuple → Bool) (ofst : VectorFst L W) : ∃ fuel result,
      (∀ fuel', fuel ≤ fuel' → composeOptions fuel' fst1 fst2 ofst matchInput = some result) ∧
      (∃ F, Set.BijOn F (acceptingPaths result) (meetingPaths fst1 fst2) ∧
        ∀ p ∈ acceptingPaths result, Agrees result fst1 fst2 p (F p)) ∧
      (∀ byOutput, SortedBitHonest byOutput result) ∧
      (EveryArc (fun arc => arc.ilabel ≠ noLabel) fst1 →
        EveryArc (fun arc => arc.ilabel ≠ noLabel) result) ∧
      (EveryArc (fun arc => arc.olabel ≠ noLabel) fst2 →
        EveryArc (fun arc => arc.olabel ≠ noLabel) result) := by
  have hprepared := prepared_of_copies h1 h2 hlabels1 hlabels2
  obtain ⟨fuel, result, hrun, hpaths⟩ := composeThrough_copies h1 h2 hlabels1 hlabels2
    (sequenceCanonical hprepared) matchInput ofst
  obtain ⟨hi, ho⟩ := labels_composed hprepared (hrun fuel le_rfl)
  exact ⟨fuel, result, hrun, hpaths, sortedBitHonest_composed hprepared (hrun fuel le_rfl),
    fun hall => hi (everyArc_of_copy (sortedCopy_spec h1).1 hall),
    fun hall => ho (everyArc_of_copy (sortedCopy_spec h2).1 hall)⟩

/- The paths of three FSTs of which each meets the next. -/
def meetingTriples (fst1 fst2 fst3 : VectorFst L W) :
    Set (List (ℕ × Arc L W) × List (ℕ × Arc L W) × List (ℕ × Arc L W)) :=
  {t | (t.1, t.2.1) ∈ meetingPaths fst1 fst2 ∧ t.2 ∈ meetingPaths fst2 fst3}

variable {composed : VectorFst L W}
  {F : List (ℕ × Arc L W) → List (ℕ × Arc L W) × List (ℕ × Arc L W)}

theorem bijOn_left (hF : Set.BijOn F (acceptingPaths composed) (meetingPaths fst1 fst2))
    (hagrees : ∀ p ∈ acceptingPaths composed, Agrees composed fst1 fst2 p (F p)) :
    Set.BijOn (fun pq => ((F pq.1).1, (F pq.1).2, pq.2)) (meetingPaths composed fst3)
      (meetingTriples fst1 fst2 fst3) := by
  refine ⟨?_, ?_, ?_⟩
  · rintro ⟨q, p3⟩ ⟨hq, hp3, hmeet⟩
    have hpair := hF.mapsTo hq
    exact ⟨hpair, hpair.2.1, hp3, (hagrees q hq).2.1.symm.trans hmeet⟩
  · rintro ⟨q, p3⟩ ⟨hq, -, -⟩ ⟨q', p3'⟩ ⟨hq', -, -⟩ heq
    obtain ⟨hfirst, hrest⟩ := Prod.mk.inj heq
    obtain ⟨hsecond, rfl⟩ := Prod.mk.inj hrest
    exact congrArg (·, p3) (hF.injOn hq hq' (Prod.ext hfirst hsecond))
  · rintro ⟨p1, p2, p3⟩ ⟨hpair, hmeets⟩
    obtain ⟨q, hq, heq⟩ := hF.surjOn hpair
    refine ⟨(q, p3), ⟨hq, hmeets.2.1, ?_⟩, by simp [heq]⟩
    rw [(hagrees q hq).2.1, heq]
    exact hmeets.2.2

theorem bijOn_right (hF : Set.BijOn F (acceptingPaths composed) (meetingPaths fst2 fst3))
    (hagrees : ∀ p ∈ acceptingPaths composed, Agrees composed fst2 fst3 p (F p)) :
    Set.BijOn (fun pq => (pq.1, F pq.2)) (meetingPaths fst1 composed)
      (meetingTriples fst1 fst2 fst3) := by
  refine ⟨?_, ?_, ?_⟩
  · rintro ⟨p1, q⟩ ⟨hp1, hq, hmeet⟩
    have hpair := hF.mapsTo hq
    exact ⟨⟨hp1, hpair.1, hmeet.trans (hagrees q hq).1⟩, hpair⟩
  · rintro ⟨p1, q⟩ ⟨-, hq, -⟩ ⟨p1', q'⟩ ⟨-, hq', -⟩ heq
    obtain ⟨rfl, hrest⟩ := Prod.mk.inj heq
    exact congrArg (p1, ·) (hF.injOn hq hq' hrest)
  · rintro ⟨p1, t⟩ ⟨hmeets, hpair⟩
    obtain ⟨q, hq, rfl⟩ := hF.surjOn hpair
    exact ⟨(p1, q), ⟨hmeets.1, hq, hmeets.2.2.trans (hagrees q hq).1.symm⟩, rfl⟩

/- Composing three FSTs ends from the left and from the right, with the same paths. -/
def Associates (fst1 fst2 fst3 ofst : VectorFst L W) (matchInput : ComposeStateTuple → Bool) :
    Prop :=
  ∃ fuel first second left right,
    (∀ fuel', fuel ≤ fuel' → composeOptions fuel' fst1 fst2 ofst matchInput = some first ∧
      composeOptions fuel' first fst3 ofst matchInput = some left ∧
      composeOptions fuel' fst2 fst3 ofst matchInput = some second ∧
      composeOptions fuel' fst1 second ofst matchInput = some right) ∧
    ∃ H, Set.BijOn H (acceptingPaths left) (acceptingPaths right) ∧
      ∀ p ∈ acceptingPaths left, istring (H p) = istring p ∧ ostring (H p) = ostring p ∧
        pathWeight right (H p) = pathWeight left p

theorem compose_assoc (h1 : SortedBitHonest true fst1) (h2 : ∀ side, SortedBitHonest side fst2)
    (h3 : SortedBitHonest false fst3)
    (hlabels1 : EveryArc (fun arc => arc.olabel ≠ noLabel) fst1)
    (hlabels2 : EveryArc (fun arc => arc.ilabel ≠ noLabel ∧ arc.olabel ≠ noLabel) fst2)
    (hlabels3 : EveryArc (fun arc => arc.ilabel ≠ noLabel) fst3)
    (matchInput : ComposeStateTuple → Bool) (ofst : VectorFst L W) :
    Associates fst1 fst2 fst3 ofst matchInput := by
  obtain ⟨n, first, hfirst, ⟨F, hF, hagreesF⟩, hhonest, -, holabels⟩ :=
    composed_spec h1 (h2 false) hlabels1 (fun s arc harc => (hlabels2 s arc harc).1) matchInput ofst
  obtain ⟨m, second, hsecond, ⟨G, hG, hagreesG⟩, hhonest', hilabels, -⟩ :=
    composed_spec (h2 true) h3 (fun s arc harc => (hlabels2 s arc harc).2) hlabels3 matchInput ofst
  obtain ⟨k, left, hleft, ⟨P, hP, hagreesP⟩, -⟩ := composed_spec (hhonest true) h3
    (holabels fun s arc harc => (hlabels2 s arc harc).2) hlabels3 matchInput ofst
  obtain ⟨j, right, hright, ⟨Q, hQ, hagreesQ⟩, -⟩ := composed_spec h1 (hhonest' false) hlabels1
    (hilabels fun s arc harc => (hlabels2 s arc harc).1) matchInput ofst
  obtain ⟨H, hH, heq⟩ := exists_bijOn ((bijOn_left hF hagreesF).comp hP)
    ((bijOn_right hG hagreesG).comp hQ)
  refine ⟨n + m + k + j, first, second, left, right, fun fuel' hle => ⟨hfirst _ (by omega),
    hleft _ (by omega), hsecond _ (by omega), hright _ (by omega)⟩, H, hH, fun p hp => ?_⟩
  obtain ⟨hp1, hrest⟩ := Prod.mk.inj (heq p hp)
  obtain ⟨hfirst, -, -⟩ := hP.mapsTo hp
  obtain ⟨-, hsecond, -⟩ := hQ.mapsTo (hH.mapsTo hp)
  obtain ⟨hin, hout, hweight⟩ := hagreesP p hp
  obtain ⟨hin', hout', hweight'⟩ := hagreesQ (H p) (hH.mapsTo hp)
  obtain ⟨hinF, -, hweightF⟩ := hagreesF _ hfirst
  obtain ⟨-, houtG, hweightG⟩ := hagreesG _ hsecond
  rw [hin, hout, hweight, hin', hout', hweight', hinF, houtG, hweightF, hweightG]
  rw [hp1, hrest, mul_assoc]
  exact ⟨rfl, rfl, rfl⟩

theorem compose_assoc_epsilons : ∃ fst, runOps MutableOp.apply leftRun VectorFst.new = some fst ∧
    Associates fst fst fst VectorFst.new fun _ => true := by
  obtain ⟨fst, hrun, hlabels⟩ : ∃ fst, runOps MutableOp.apply leftRun VectorFst.new = some fst ∧
      ∀ s < fst.numStates, ∀ arc ∈ fst.arcs s, arc.ilabel ≠ noLabel ∧ arc.olabel ≠ noLabel :=
    ⟨_, rfl, by decide⟩
  have hbits := sortedBitHonest_of_honest (honest_of_run hrun)
  have hall := VectorFst.forall_arcs_of_lt hlabels
  exact ⟨fst, hrun, compose_assoc (hbits true) hbits (hbits false)
    (fun s arc harc => (hall s arc harc).2) hall (fun s arc harc => (hall s arc harc).1) _ _⟩

end Assoc

end Sicada.ComposeAssoc
