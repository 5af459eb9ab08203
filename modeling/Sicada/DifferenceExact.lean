import Sicada.ComplementRuns
import Sicada.ConnectExact

namespace Sicada.DifferenceExact

open PropertyBits ScanExact SortedCopy Paths Walk Relations ComplementPaths ComplementRuns
  ComposeExact ComposeCanonical ComposePaths ConnectExact

variable {L W : Type} [RhoLabel L] [CommSemiring W] [DecidableEq W] {fst : VectorFst L W}

section Checks

/- Of what the two checks ask for, each bit is right. -/
theorem held_required (h : Honest fst) :
    (Held (fst.testedProperties requiredProperties).1 kAcceptor ↔ Holds fst .acceptor) ∧
      (Held (fst.testedProperties requiredProperties).1 kIDeterministic ↔
        Holds fst .iDeterministic) ∧
      (Held (fst.testedProperties requiredProperties).1 kNoEpsilons ↔ ¬ Holds fst .epsilons) ∧
      (Held (fst.testedProperties requiredProperties).1 kUnweighted ↔ ¬ Holds fst .weighted) :=
  ⟨tested_positive h .acceptor (by decide) fun props => held_acceptor (by decide) props,
    tested_positive h .iDeterministic (by decide) fun props => held_iDeterministic (by decide) props (by decide),
    tested_negative h .epsilons (by decide) fun props => held_noEpsilons (by decide) props,
    tested_negative h .weighted (by decide) fun props => held_unweighted (by decide) props⟩

theorem and_required {props : BitVec 64} : props &&& requiredProperties = requiredProperties ↔
    Held props kAcceptor ∧ Held props kIDeterministic ∧ Held props kNoEpsilons ∧
      Held props kUnweighted := by
  constructor
  · intro hall
    have hbit : ∀ bit : BitVec 64, Held requiredProperties bit → Held props bit := by
      intro bit hbit
      rw [← hall] at hbit
      exact (held_and hbit).1
    exact ⟨hbit _ (by decide), hbit _ (by decide), hbit _ (by decide), hbit _ (by decide)⟩
  · rintro ⟨h1, h2, h3, h4⟩
    have h1' : props &&& kAcceptor = kAcceptor :=
      (and_eq_of_held (p := .acceptor)).1 h1
    have h2' : props &&& kIDeterministic = kIDeterministic :=
      (and_eq_of_held (p := .iDeterministic)).1 h2
    have h3' : props &&& kNoEpsilons = kNoEpsilons := (and_eq_of_held (p := .epsilons)).2 h3
    have h4' : props &&& kUnweighted = kUnweighted := (and_eq_of_held (p := .weighted)).2 h4
    unfold requiredProperties
    rw [BitVec.and_or_distrib_left, BitVec.and_or_distrib_left, BitVec.and_or_distrib_left, h1',
      h2', h3', h4']

theorem tested_required (h : Honest fst) :
    (fst.testedProperties requiredProperties).1 = requiredProperties ↔ Conforming fst := by
  obtain ⟨hacceptor, hdet, heps, hweighted⟩ := held_required h
  have hmask : (fst.testedProperties requiredProperties).1 &&& requiredProperties =
      (fst.testedProperties requiredProperties).1 := by
    unfold VectorFst.testedProperties
    dsimp only
    rw [BitVec.and_assoc, BitVec.and_self]
  rw [← hmask, and_required, hacceptor, hdet, heps, hweighted]
  exact ⟨fun ⟨h1, h2, h3, h4⟩ => ⟨h1, h2, h3, h4⟩, fun ⟨h1, h2, h3, h4⟩ => ⟨h1, h2, h3, h4⟩⟩

/- A check writes down what it has found. -/
theorem held_discover {cache props : BitVec 64} {p : TrinaryProperty} :
    (Held props p.positive → ¬ Held cache p.negative →
      Held (discover cache props (knownProperties props)) p.positive) ∧
    (Held props p.negative → ¬ Held cache p.positive →
      Held (discover cache props (knownProperties props)) p.negative) := by
  obtain ⟨hcache, hcache'⟩ := getLsbD_known (cache &&& knownProperties props) p
  obtain ⟨hprops, hprops'⟩ := getLsbD_known props p
  rw [held_positive, held_negative, held_positive, held_positive, held_negative, held_negative]
  have hlt : place p + 1 < 64 := by cases p <;> decide
  have hlt' : place p < 64 := by omega
  unfold discover
  constructor
  · intro hheld hnot
    simp only [BitVec.getLsbD_or, BitVec.getLsbD_and, BitVec.getLsbD_not, hcache, hprops, hprops',
      hheld, Bool.eq_false_of_not_eq_true hnot, decide_eq_true hlt']
    cases cache.getLsbD (place p) <;> rfl
  · intro hheld hnot
    simp only [BitVec.getLsbD_or, BitVec.getLsbD_and, BitVec.getLsbD_not, hcache', hprops, hprops',
      hheld, Bool.eq_false_of_not_eq_true hnot, decide_eq_true hlt]
    cases cache.getLsbD (place p + 1) <;> cases props.getLsbD (place p) <;> rfl

theorem tested_of_stored (h : fst.properties &&& requiredProperties = requiredProperties) :
    (fst.testedProperties requiredProperties).1 = requiredProperties := by
  have hstored : fst.properties &&& kFstProperties &&& requiredProperties = requiredProperties := by
    rw [BitVec.and_assoc]
    exact h
  have hknown : knownProperties (fst.properties &&& kFstProperties) &&& requiredProperties =
      requiredProperties := by
    rw [and_required] at hstored ⊢
    have hbit : ∀ p : TrinaryProperty, (Held (fst.properties &&& kFstProperties) p.positive →
        Held (knownProperties (fst.properties &&& kFstProperties)) p.positive) ∧
        (Held (fst.properties &&& kFstProperties) p.negative →
          Held (knownProperties (fst.properties &&& kFstProperties)) p.negative) := by
      intro p
      obtain ⟨hpos, hneg⟩ := getLsbD_known (fst.properties &&& kFstProperties) p
      rw [held_positive, held_negative, held_positive, held_negative, hpos, hneg]
      exact ⟨fun hb => by rw [hb, Bool.true_or], fun hb => by rw [hb, Bool.or_true]⟩
    obtain ⟨h1, h2, h3, h4⟩ := hstored
    exact ⟨(hbit .acceptor).1 h1, (hbit .iDeterministic).1 h2, (hbit .epsilons).2 h3,
      (hbit .weighted).2 h4⟩
  unfold VectorFst.testedProperties
  dsimp only
  rw [if_pos hknown, hstored]

/- What the first check has found the second reads. -/
theorem tested_again (h : Honest fst) (hconf : Conforming fst) :
    ((fst.testedProperties requiredProperties).2.testedProperties requiredProperties).1 =
      requiredProperties := by
  obtain ⟨props, hprops, hcache⟩ : ∃ props : BitVec 64,
      (fst.testedProperties requiredProperties).1 = props &&& requiredProperties ∧
        (fst.testedProperties requiredProperties).2.properties =
          discover fst.properties props (knownProperties props) := ⟨_, rfl, rfl⟩
  rw [(tested_required h).mpr hconf] at hprops
  obtain ⟨h1, h2, h3, h4⟩ := and_required.mp hprops.symm
  apply tested_of_stored
  rw [hcache, and_required]
  exact ⟨(held_discover (p := .acceptor)).1 h1 fun hno => (h .acceptor).2 hno hconf.acceptor,
    (held_discover (p := .iDeterministic)).1 h2 fun hno =>
      (h .iDeterministic).2 hno hconf.deterministic,
    (held_discover (p := .epsilons)).2 h3 fun hyes => hconf.noEpsilons ((h .epsilons).1 hyes),
    (held_discover (p := .weighted)).2 h4 fun hyes => hconf.unweighted ((h .weighted).1 hyes)⟩

/- A check leaves the error bit as it is. -/
theorem error_tested (mask : BitVec 64) :
    Held (fst.testedProperties mask).2.properties kError ↔ Held fst.properties kError := by
  have hbit : ∀ cache props : BitVec 64,
      (discover cache props (knownProperties props)).getLsbD 2 = cache.getLsbD 2 := by
    intro cache props
    simp [discover, knownProperties, kBinaryProperties]
  have hplace : kError = BitVec.twoPow 64 2 := by decide
  rw [hplace, held_iff_getLsbD (by decide), held_iff_getLsbD (by decide)]
  exact Eq.to_iff (congrArg (· = true) (hbit _ _))

end Checks

section Runs

variable {left : VectorFst L W} {complement : ComplementFst L W}

/- The composition with the complement is the one with its expansion. -/
theorem composeWith_eq (h : Conforming complement.fst) (hrange : complement.fst.InRange)
    (hlabels : EveryArc (fun arc => Ordinary arc.ilabel) complement.fst)
    (hleft : EveryArc (fun arc => Ordinary arc.olabel) left)
    (hprepared : ComposeMoves.Prepared left (expand left complement)) (fuel : ℕ)
    (ofst : VectorFst L W) :
    complement.composeWith ⟨left, true⟩ (rhoMatcher complement) fuel ofst =
      (composeThrough (sequenceFilter left) fuel ⟨left, true⟩ ⟨expand left complement, false⟩
        (fun _ => true) ofst).map .ok := by
  cases hstart1 : left.start with
  | none =>
    simp only [ComplementFst.composeWith, composeThrough, hstart1]
    rfl
  | some start1 =>
    cases hstart2 : complement.start with
    | none =>
      have hstart2' : (expand left complement).start = none := hstart2
      simp only [ComplementFst.composeWith, composeThrough, hstart1, hstart2, hstart2']
      rfl
    | some start2 =>
      have hstart2' : (expand left complement).start = some start2 := hstart2
      have hle := start_le hrange hstart2
      have hknown : ∀ l, ComposeInv (sequenceFilter left) left (expand left complement)
          (fun _ => true) ⟨start1, start2, .default⟩ l →
          ∀ tuple ∈ l.states, tuple.s2 ≤ complement.fst.numStates := by
        intro l hl tuple htuple
        rcases of_mem_targets (mem_tuples.mp (hl.known tuple htuple)).2 with hs2 | ⟨t, arc, harc, hs2⟩
        · exact hs2 ▸ hle
        · obtain ⟨-, label, -, rfl⟩ := arc_of_expand harc
          exact hs2 ▸ next_le hrange t label
      have hloop : Loop.tryLoop (complement.composeStep ⟨left, true⟩ (rhoMatcher complement)) fuel
          (startLoop ⟨start1, start2, .default⟩ ofst) =
          (Loop.runLoop (composeStepThrough (sequenceFilter left) ⟨left, true⟩
            ⟨expand left complement, false⟩ fun _ => true) fuel
              (startLoop ⟨start1, start2, .default⟩ ofst)).map .ok :=
        Loop.tryLoop_eq (fun l l' hl hstep => (composeStep_inv hprepared hl hstep).1)
          (fun l hl => composeStep_expand h hlabels hleft (hknown l hl) hl.pending)
          (startLoop_inv start1 start2 ofst)
      rw [composeThrough_eq hstart1 hstart2']
      simp only [ComplementFst.composeWith, hstart1, hstart2]
      change Option.map _ (Loop.tryLoop _ fuel (startLoop ⟨start1, start2, .default⟩ ofst)) = _
      rw [hloop, Option.map_map, Option.map_map]
      rfl

end Runs

section Difference

variable {fst1 fst2 : VectorFst L W} {isMember : W → Bool}

/- The complement of the second FST once both checks have been through it. -/
def complementOf (fst2 : VectorFst L W) : ComplementFst L W :=
  let fst := ((fst2.testedProperties requiredProperties).2.testedProperties requiredProperties).2
  ⟨fst, complementProperties (fst.properties &&& kILabelSorted)⟩

def leftOf (fst1 : VectorFst L W) : VectorFst L W :=
  sortedCopy (fst1.testedProperties kAcceptor).2 true

theorem complement_start (fst2 : VectorFst L W) : (complementOf fst2).start =
    if Held fst2.properties kError then none
    else some (match fst2.start with
      | some s => s + 1
      | none => 0) := by
  have hprops : ¬ Held (complementOf fst2).properties kError := by
    intro hheld
    unfold complementOf complementProperties at hheld
    dsimp only at hheld
    have hmask : ∀ x : BitVec 64, ¬ Held ((kError ||| kILabelSorted ||| kOLabelSorted |||
        kInitialCyclic) &&& (x &&& kILabelSorted)) kError := fun x hx =>
      absurd (held_and (held_and hx).2).2 (by decide)
    split at hheld
    · rcases held_or hheld with hheld | hheld
      · rcases held_or hheld with hheld | hheld
        · exact absurd hheld (by decide)
        · exact hmask _ hheld
      · exact absurd hheld (by decide)
    · rcases held_or hheld with hheld | hheld
      · exact absurd hheld (by decide)
      · exact hmask _ hheld
  have herror : (complementOf fst2).isError = decide (Held fst2.properties kError) := by
    have hfst : Held (complementOf fst2).fst.properties kError ↔ Held fst2.properties kError :=
      (error_tested _).trans (error_tested _)
    unfold ComplementFst.isError
    have hsecond : ((complementOf fst2).properties &&& kError ≠ 0) = False := eq_false hprops
    have hfirst : ((complementOf fst2).fst.properties &&& kError ≠ 0) =
        Held fst2.properties kError := propext hfst
    simp only [hsecond, hfirst, decide_false, Bool.or_false]
  unfold ComplementFst.start
  rw [herror]
  by_cases hheld : Held fst2.properties kError
  · simp [hheld]
  · simp only [hheld, decide_false, Bool.false_eq_true, if_false]
    rfl

theorem difference_eq (h1 : Honest fst1) (h2 : Honest fst2) (hacceptor : Holds fst1 .acceptor)
    (hconf : Conforming fst2) (fuel : ℕ) (ofst : VectorFst L W) :
    difference fuel isMember fst1 fst2 ofst =
      match (complementOf fst2).composeWith ⟨leftOf fst1, true⟩ (rhoMatcher (complementOf fst2))
        fuel ofst with
      | none => none
      | some (.error e) => some (.error e)
      | some (.ok ofst) => (ofst.connect isMember).map .ok := by
  have htested1 := (tested_acceptor h1).mpr hacceptor
  have htested2 := (tested_required h2).mpr hconf
  have hnew : ComplementFst.new (fst2.testedProperties requiredProperties).2 =
      .ok (complementOf fst2) := by
    have hagain := tested_again h2 hconf
    unfold ComplementFst.new
    dsimp only
    rw [if_neg (by rw [hagain, BitVec.and_self]; exact not_not.mpr rfl)]
    rfl
  have hrho : RhoMatcher.newWithOptions ⟨(complementOf fst2).arcs, false⟩ rhoLabel true =
      .ok (rhoMatcher (complementOf fst2)) := if_neg RhoLabel.rhoLabel_ne_epsilon
  unfold difference
  dsimp only
  rw [if_neg htested1, if_neg (not_not.mpr htested2), hnew]
  dsimp only
  rw [hrho]
  rfl

/- An argument that does not conform is refused. -/
theorem difference_refuses (h1 : Honest fst1) (h2 : Honest fst2)
    (hrefused : ¬ Holds fst1 .acceptor ∨ ¬ Conforming fst2) (fuel : ℕ) (ofst : VectorFst L W) :
    ∃ e, difference fuel isMember fst1 fst2 ofst = some (.error e) := by
  unfold difference
  dsimp only
  by_cases htested1 : (fst1.testedProperties kAcceptor).1 &&& kAcceptor = 0
  · exact ⟨_, if_pos htested1⟩
  · rw [if_neg htested1]
    have hacceptor := (tested_acceptor h1).mp htested1
    have hconf := hrefused.resolve_left (not_not.mpr hacceptor)
    rw [if_pos fun htested2 => hconf ((tested_required h2).mp htested2)]
    exact ⟨_, rfl⟩

end Difference

section Exact

variable {fst1 fst2 : VectorFst L W} {isMember : W → Bool}

theorem finalsMultiply_expand (left : VectorFst L W) (complement : ComplementFst L W) :
    FinalsMultiply left (expand left complement) := by
  intro s1 s2
  have htrivial : (expand left complement).finalWeight s2 = 0 ∨
      (expand left complement).finalWeight s2 = 1 := by
    by_cases hs : s2 ≤ complement.fst.numStates
    · rw [finalWeight_expand left hs]
      unfold ComplementFst.finalWeight
      split
      · exact Or.inr rfl
      · exact Or.inl rfl
    · exact Or.inl (VectorFst.finalWeight_of_le (by rw [numStates_expand]; omega))
  rcases htrivial with hzero | hone
  · simp [hzero]
  · rw [hone, mul_one]
    refine ⟨fun hne => ⟨hne, fun hzero => hne ?_⟩, fun hboth => hboth.1⟩
    rw [← mul_one (left.finalWeight s1), hzero, mul_zero]

variable [TopologicalSpace W] (h1 : Honest fst1) (h2 : Honest fst2) (hrange2 : fst2.InRange)
  (hlabels1 : EveryArc (fun arc => Ordinary arc.olabel) fst1)
  (hlabels2 : EveryArc (fun arc => Ordinary arc.ilabel) fst2)
  (hmember : ∀ w, isMember w = true)

/- What the composition keeps, where the complement has a start and where it has none. -/
theorem composed_keeps {left composed : VectorFst L W} {complement : ComplementFst L W}
    (hconf : Conforming complement.fst) (hrange : complement.fst.InRange)
    (hacceptor : Holds left .acceptor)
    {F : List (ℕ × Arc L W) → List (ℕ × Arc L W) × List (ℕ × Arc L W)}
    (hbij : Set.BijOn F (acceptingPaths composed) (meetingPaths left (expand left complement)))
    (hagrees : ∀ p ∈ acceptingPaths composed,
      Agrees composed left (expand left complement) p (F p)) :
    (∀ p ∈ acceptingPaths composed, istring p = ostring p) ∧ ∀ u w, Gives left u u w →
      ((∃ start, complement.start = some start ∧ Keeps complement start u) →
        Gives composed u u w) ∧
      ((¬ ∃ start, complement.start = some start ∧ Keeps complement start u) →
        Gives composed u u 0) := by
  have hstrings : ∀ p ∈ acceptingPaths left, istring p = ostring p :=
    fun p hp => strings_acceptor hacceptor hp
  cases hstart : complement.start with
  | none =>
    have hnone : acceptingPaths composed = ∅ := by
      ext p
      refine ⟨fun hp => ?_, fun hp => hp.elim⟩
      have hmeet := (hbij.mapsTo hp).2.1
      rwa [acceptingPaths_of_none (show (expand left complement).start = none from hstart)] at hmeet
    refine ⟨fun p hp => absurd (hnone ▸ hp) (Set.notMem_empty p), fun u w hw => ⟨?_, fun _ => ?_⟩⟩
    · rintro ⟨start, hsome, -⟩
      cases hsome
    · have hzero : ∀ p : related composed u u, weightOf composed (p : List (ℕ × Arc L W)) = 0 :=
        fun p => absurd (hnone ▸ p.2.1) (Set.notMem_empty p.1)
      unfold Gives
      rw [funext hzero]
      exact hasSum_zero
  | some start =>
    obtain ⟨G, hbij', hreads⟩ := composed_paths hconf hrange hstart hbij hagrees
    refine ⟨?_, fun u w hw => ?_⟩
    · intro p hp
      obtain ⟨hin, hout, -⟩ := hreads p hp
      rw [hin, hout, hstrings _ (hbij'.mapsTo hp).1]
    · simpa using composed_gives hconf hbij' hreads hw

include h1 h2 hrange2 hlabels1 hlabels2 hmember

/- The difference ends, and keeps of the first FST the strings its second leaves. -/
theorem difference_runs (hacceptor : Holds fst1 .acceptor) (hconf : Conforming fst2)
    (ofst : VectorFst L W) : ∃ fuel result,
      (∀ fuel', fuel ≤ fuel' → difference fuel' isMember fst1 fst2 ofst = some (.ok result)) ∧
      (∀ p ∈ acceptingPaths result, istring p = ostring p) ∧
      ∀ u w, Gives fst1 u u w →
        ((∃ start, (complementOf fst2).start = some start ∧ Keeps (complementOf fst2) start u) →
          Gives result u u w) ∧
        ((¬ ∃ start, (complementOf fst2).start = some start ∧
            Keeps (complementOf fst2) start u) → Gives result u u 0) := by
  obtain ⟨hcopy, hsorted⟩ : IsCopy (fst1.testedProperties kAcceptor).2 (leftOf fst1) ∧
      SortedLabels (sideLabel true) (leftOf fst1) :=
    sortedCopy_spec (sortedBitHonest_tested h1 (by decide) true)
  have hleft : EveryArc (fun arc => Ordinary arc.olabel) (leftOf fst1) :=
    everyArc_of_copy hcopy hlabels1
  have hconf' : Conforming (complementOf fst2).fst :=
    ⟨hconf.acceptor, hconf.deterministic, hconf.noEpsilons, hconf.unweighted⟩
  have hrange' : (complementOf fst2).fst.InRange := ⟨hrange2.start, hrange2.arcs⟩
  have hprepared := prepared_expand hconf' hsorted (fun s arc harc => (hleft s arc harc).1)
    hcopy.ocounts
  obtain ⟨fuel, composed, hrun, F, hbij, hagrees⟩ := composeThrough_bijOn hprepared
    (finalsMultiply_expand _ _) (sequenceFilter (leftOf fst1))
    (fun _ _ => ComposeInterleave.split_bijOn (sequenceCanonical hprepared) rfl) (fun _ => true) ofst
  obtain ⟨result, hconnect, -, hsame⟩ := connect_samePaths
    (composeThrough_inRange hprepared (hrun fuel le_rfl))
    (fun s => hmember (composed.finalWeight s))
  obtain ⟨hstrings, hkeeps⟩ := composed_keeps hconf' hrange' (everyArc_of_copy hcopy hacceptor)
    hbij hagrees
  refine ⟨fuel, result, ?_, ?_, ?_⟩
  · intro fuel' hfuel
    rw [difference_eq h1 h2 hacceptor hconf,
      composeWith_eq hconf' hrange' hlabels2 hleft hprepared, hrun fuel' hfuel]
    simp only [Option.map_some, hconnect]
  · obtain ⟨H, hbij', hread⟩ := hsame
    intro p hp
    have hreading := (hread p hp).1
    rw [← istring_eq_of_reading hreading, ← ostring_eq_of_reading hreading]
    exact hstrings _ (hbij'.mapsTo hp)
  · intro u w hw
    obtain ⟨G, hbij', hreads⟩ := copy_bijOn hcopy
    have hw' : Gives (leftOf fst1) u u w := by
      refine (gives_of_bijOn hbij' (fun p hp => ?_) fun p hp => ?_).mp hw
      · obtain ⟨hin, hout, -⟩ := hreads p hp
        exact ⟨hin, hout⟩
      · exact (hreads p hp).2.2
    obtain ⟨hkept, hlost⟩ := hkeeps u w hw'
    exact ⟨fun hyes => hsame.gives.mp (hkept hyes), fun hno => hsame.gives.mp (hlost hno)⟩

end Exact

section Iff

variable {fst1 fst2 : VectorFst L W} {isMember : W → Bool} [TopologicalSpace W]

theorem keeps_complementOf (hconf : Conforming fst2) (hone : (1 : W) ≠ 0) (u : List L) :
    (∃ start, (complementOf fst2).start = some start ∧ Keeps (complementOf fst2) start u) ↔
      ¬ Held fst2.properties kError ∧ ¬ Accepts fst2 u ∧ ¬ TakesZero fst2 u := by
  have hconf' : Conforming (complementOf fst2).fst :=
    ⟨hconf.acceptor, hconf.deterministic, hconf.noEpsilons, hconf.unweighted⟩
  constructor
  · rintro ⟨start, hstart, hkeeps⟩
    refine ⟨fun hheld => ?_, (keeps_iff hconf' hone hstart u).mp hkeeps⟩
    rw [complement_start, if_pos hheld] at hstart
    cases hstart
  · rintro ⟨hheld, hrest⟩
    have hstart := complement_start fst2
    rw [if_neg hheld] at hstart
    exact ⟨_, hstart, (keeps_iff hconf' hone hstart u).mpr hrest⟩

/- The difference is the set difference if and only if no string that counts is lost: one that the
first FST gives weight to, that the second does not accept, and that the second reads along an arc
of weight zero, or a second FST marked as broken. -/
theorem difference_exact_iff [T2Space W] (h1 : Honest fst1) (h2 : Honest fst2)
    (hrange2 : fst2.InRange) (hlabels1 : EveryArc (fun arc => Ordinary arc.olabel) fst1)
    (hlabels2 : EveryArc (fun arc => Ordinary arc.ilabel) fst2)
    (hmember : ∀ w, isMember w = true) (ofst : VectorFst L W) :
    (Holds fst1 .acceptor → Conforming fst2 → ∃ fuel result,
      (∀ fuel', fuel ≤ fuel' → difference fuel' isMember fst1 fst2 ofst = some (.ok result)) ∧
      (∀ p ∈ acceptingPaths result, istring p = ostring p) ∧
      ((∀ u w, Gives fst1 u u w → (Accepts fst2 u → Gives result u u 0) ∧
          (¬ Accepts fst2 u → Gives result u u w)) ↔
        ∀ u w, Gives fst1 u u w → w ≠ 0 → ¬ Accepts fst2 u →
          ¬ Held fst2.properties kError ∧ ¬ TakesZero fst2 u)) ∧
    (¬ Holds fst1 .acceptor ∨ ¬ Conforming fst2 → ∀ fuel, ∃ e,
      difference fuel isMember fst1 fst2 ofst = some (.error e)) := by
  refine ⟨fun hacceptor hconf => ?_, fun hrefused fuel => difference_refuses h1 h2 hrefused fuel ofst⟩
  obtain ⟨fuel, result, hrun, hstrings, hgives⟩ :=
    difference_runs h1 h2 hrange2 hlabels1 hlabels2 hmember hacceptor hconf ofst
  refine ⟨fuel, result, hrun, hstrings, ?_⟩
  by_cases hone : (1 : W) = 0
  · have hall : ∀ w : W, w = 0 := eq_zero_of_zero_eq_one hone.symm
    refine ⟨fun _ u w _ hne => absurd (hall w) hne, fun _ u w hw => ?_⟩
    obtain ⟨hkept, hlost⟩ := hgives u w hw
    have hzero : Gives result u u 0 := by
      by_cases hkeeps : ∃ start, (complementOf fst2).start = some start ∧
          Keeps (complementOf fst2) start u
      · exact hall w ▸ hkept hkeeps
      · exact hlost hkeeps
    exact ⟨fun _ => hzero, fun _ => hall w ▸ hzero⟩
  · have hkeeps := fun u => keeps_complementOf hconf hone u
    constructor
    · intro hproperty u w hw hne haccepts
      by_contra hlost
      have hzero := (hgives u w hw).2 fun hyes =>
        hlost ⟨((hkeeps u).mp hyes).1, ((hkeeps u).mp hyes).2.2⟩
      exact hne (HasSum.unique ((hproperty u w hw).2 haccepts) hzero)
    · intro hcondition u w hw
      obtain ⟨hkept, hlost⟩ := hgives u w hw
      refine ⟨fun haccepts => hlost fun hyes => ((hkeeps u).mp hyes).2.1 haccepts,
        fun haccepts => ?_⟩
      by_cases hne : w = 0
      · by_cases hyes : ∃ start, (complementOf fst2).start = some start ∧
            Keeps (complementOf fst2) start u
        · exact hkept hyes
        · exact hne ▸ hlost hyes
      · obtain ⟨herror, hzero⟩ := hcondition u w hw hne haccepts
        exact hkept ((hkeeps u).mpr ⟨herror, haccepts, hzero⟩)

end Iff

/- One string of weight 2, an acceptor of another string, and one that reads the same string along
an arc of weight zero. -/
def weighedRun : List (MutableOp ℤ ℤ) :=
  [.addStates 2, .setStart (some 0), .addArc 0 ⟨1, 1, 2, 1⟩, .setFinal 1 1]

def zeroRun : List (MutableOp ℤ ℤ) :=
  [.addStates 2, .setStart (some 0), .addArc 0 ⟨1, 1, 0, 1⟩, .setFinal 1 1]

def otherRun : List (MutableOp ℤ ℤ) :=
  [.addStates 2, .setStart (some 0), .addArc 0 ⟨2, 2, 1, 1⟩, .setFinal 1 1]

theorem difference_exact_iff_other : ∃ fst1 fst2,
    runOps MutableOp.apply weighedRun VectorFst.new = some fst1 ∧
    runOps MutableOp.apply otherRun VectorFst.new = some fst2 ∧ ∃ fuel result,
      difference fuel (fun _ => true) fst1 fst2 VectorFst.new = some (.ok result) ∧
      ((∀ u w, Gives fst1 u u w → (Accepts fst2 u → Gives result u u 0) ∧
          (¬ Accepts fst2 u → Gives result u u w)) ↔
        ∀ u w, Gives fst1 u u w → w ≠ 0 → ¬ Accepts fst2 u →
          ¬ Held fst2.properties kError ∧ ¬ TakesZero fst2 u) := by
  obtain ⟨fst1, hrun1, hlabels1, htested1⟩ : ∃ fst,
      runOps MutableOp.apply weighedRun VectorFst.new = some fst ∧
        (∀ s < fst.numStates, ∀ arc ∈ fst.arcs s, arc.olabel ≠ noLabel ∧ arc.olabel ≠ rhoLabel) ∧
        (fst.testedProperties kAcceptor).1 &&& kAcceptor ≠ 0 := ⟨_, rfl, by decide, by decide⟩
  obtain ⟨fst2, hrun2, hlabels2, htested2, hstart2, hnext2⟩ : ∃ fst,
      runOps MutableOp.apply otherRun VectorFst.new = some fst ∧
        (∀ s < fst.numStates, ∀ arc ∈ fst.arcs s, arc.ilabel ≠ noLabel ∧ arc.ilabel ≠ rhoLabel) ∧
        (fst.testedProperties requiredProperties).1 = requiredProperties ∧
        (∀ s ∈ fst.start, s < fst.numStates) ∧
        ∀ s < fst.numStates, ∀ arc ∈ fst.arcs s, arc.nextstate < fst.numStates :=
    ⟨_, rfl, by decide, by decide, by decide, by decide⟩
  have h1 := honest_of_run hrun1
  have h2 := honest_of_run hrun2
  have hrange2 : fst2.InRange := ⟨hstart2, VectorFst.forall_arcs_of_lt hnext2⟩
  obtain ⟨fuel, result, hrun, -, hiff⟩ := (difference_exact_iff h1 h2 hrange2
    (VectorFst.forall_arcs_of_lt hlabels1) (VectorFst.forall_arcs_of_lt hlabels2)
    (fun _ => rfl : ∀ w : ℤ, (fun _ : ℤ => true) w = true) VectorFst.new).1
      ((tested_acceptor h1).mp htested1) ((tested_required h2).mp htested2)
  exact ⟨fst1, fst2, hrun1, hrun2, fuel, result, hrun fuel le_rfl, hiff⟩

theorem acceptingPaths_single {fst : VectorFst ℤ ℤ} {arc : Arc ℤ ℤ} (hstart : fst.start = some 0)
    (harcs : fst.arcs 0 = [arc]) (hnext : arc.nextstate = 1) (hlast : fst.arcs 1 = [])
    (hfirst : fst.finalWeight 0 = 0) (hfinal : fst.finalWeight 1 = 1) :
    acceptingPaths fst = {[(0, arc)]} := by
  ext p
  rw [mem_acceptingPaths hstart, Set.mem_singleton_iff]
  constructor
  · intro hp
    cases p with
    | nil => exact absurd hfirst (nil_mem_acceptingFrom.mp hp)
    | cons e p =>
      obtain ⟨he, hp⟩ := cons_mem_acceptingFrom.mp hp
      rw [harcs] at he
      obtain ⟨hlt, hget⟩ := List.getElem?_eq_some_iff.mp he
      have hzero : e.1 = 0 := by simpa using hlt
      have harc : arc = e.2 := by simpa [hzero] using hget
      rw [← harc, hnext] at hp
      cases p with
      | nil => exact congrArg (fun x => [x]) (Prod.ext hzero harc.symm)
      | cons e' p =>
        have hnone := (cons_mem_acceptingFrom.mp hp).1
        rw [hlast] at hnone
        simp at hnone
  · rintro rfl
    refine cons_mem_acceptingFrom.mpr ⟨by rw [harcs]; rfl, ?_⟩
    dsimp only
    rw [hnext]
    exact nil_mem_acceptingFrom.mpr (by rw [hfinal]; exact one_ne_zero)

theorem zero_arc_lost : ∃ fst1 fst2, runOps MutableOp.apply weighedRun VectorFst.new = some fst1 ∧
    runOps MutableOp.apply zeroRun VectorFst.new = some fst2 ∧ ∃ fuel result,
      difference fuel (fun _ => true) fst1 fst2 VectorFst.new = some (.ok result) ∧
        Gives fst1 [1] [1] 2 ∧ ¬ Accepts fst2 [1] ∧ ¬ Gives result [1] [1] 2 := by
  obtain ⟨fst1, hrun1, hstart1, harcs1, hlast1, hfirst1, hfinal1, hlabels1, htested1⟩ : ∃ fst,
      runOps MutableOp.apply weighedRun VectorFst.new = some fst ∧ fst.start = some 0 ∧
        fst.arcs 0 = [⟨1, 1, 2, 1⟩] ∧ fst.arcs 1 = [] ∧ fst.finalWeight 0 = 0 ∧
        fst.finalWeight 1 = 1 ∧
        (∀ s < fst.numStates, ∀ arc ∈ fst.arcs s, arc.olabel ≠ noLabel ∧ arc.olabel ≠ rhoLabel) ∧
        (fst.testedProperties kAcceptor).1 &&& kAcceptor ≠ 0 :=
    ⟨_, rfl, rfl, rfl, rfl, rfl, rfl, by decide, by decide⟩
  obtain ⟨fst2, hrun2, hstart2, harcs2, hlast2, hfirst2, hfinal2, hlabels2, htested2, hnum2, hnext2⟩ :
      ∃ fst, runOps MutableOp.apply zeroRun VectorFst.new = some fst ∧ fst.start = some 0 ∧
        fst.arcs 0 = [⟨1, 1, 0, 1⟩] ∧ fst.arcs 1 = [] ∧ fst.finalWeight 0 = 0 ∧
        fst.finalWeight 1 = 1 ∧
        (∀ s < fst.numStates, ∀ arc ∈ fst.arcs s, arc.ilabel ≠ noLabel ∧ arc.ilabel ≠ rhoLabel) ∧
        (fst.testedProperties requiredProperties).1 = requiredProperties ∧ 0 < fst.numStates ∧
        ∀ s < fst.numStates, ∀ arc ∈ fst.arcs s, arc.nextstate < fst.numStates :=
    ⟨_, rfl, rfl, rfl, rfl, rfl, rfl, by decide, by decide, by decide, by decide⟩
  have h1 := honest_of_run hrun1
  have h2 := honest_of_run hrun2
  have hconf := (tested_required h2).mp htested2
  have hrange2 : fst2.InRange := by
    refine ⟨fun s hs => ?_, VectorFst.forall_arcs_of_lt hnext2⟩
    obtain rfl : 0 = s := Option.some.inj (hstart2.symm.trans hs)
    exact hnum2
  obtain ⟨fuel, result, hresult, -, hgives⟩ := difference_runs h1 h2 hrange2
    (VectorFst.forall_arcs_of_lt hlabels1) (VectorFst.forall_arcs_of_lt hlabels2)
    (fun _ => rfl : ∀ w : ℤ, (fun _ : ℤ => true) w = true) ((tested_acceptor h1).mp htested1) hconf
    VectorFst.new
  have hpaths1 := acceptingPaths_single hstart1 harcs1 rfl hlast1 hfirst1 hfinal1
  have hpaths2 := acceptingPaths_single hstart2 harcs2 rfl hlast2 hfirst2 hfinal2
  have hrelated : related fst1 [1] [1] = {[(0, ⟨1, 1, 2, 1⟩)]} := by
    unfold related
    rw [hpaths1]
    ext p
    constructor
    · exact fun hp => hp.1
    · rintro rfl
      exact ⟨rfl, rfl, rfl⟩
  have hweight : weightOf fst1 [(0, ⟨1, 1, 2, 1⟩)] = 2 := by
    simp [weightOf, arcsWeight, lastWeight, walkEnd, follow, hfinal1]
  have htwo : Gives fst1 [1] [1] 2 := hweight ▸ gives_single hrelated
  have hzero : TakesZero fst2 [1] :=
    ⟨0, 1, [(0, ⟨1, 1, 0, 1⟩)], hstart2, ⟨by unfold Leaves; rw [harcs2]; rfl, rfl⟩,
      ⟨[], rfl⟩, _, List.mem_cons_self, rfl⟩
  refine ⟨fst1, fst2, hrun1, hrun2, fuel, result, hresult fuel le_rfl, htwo, ?_, ?_⟩
  · rintro ⟨p, hp, -, hne⟩
    rw [hpaths2] at hp
    obtain rfl := hp
    exact hne (by simp [weightOf, arcsWeight])
  · intro hbad
    have hlost := (hgives [1] 2 htwo).2 fun hyes =>
      ((keeps_complementOf hconf one_ne_zero [1]).mp hyes).2.2 hzero
    exact absurd (HasSum.unique hbad hlost) two_ne_zero

end Sicada.DifferenceExact
