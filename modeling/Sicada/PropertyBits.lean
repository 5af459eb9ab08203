import Sicada.Runs
import Sicada.TrinaryProperties

set_option linter.unusedSectionVars false

namespace Sicada.PropertyBits

open Relation

variable {L W : Type} [ArcLabel L] [Zero W] [One W]

/- Every bit of the cache tells the truth. -/
def Honest (fst : VectorFst L W) : Prop :=
  ∀ p : TrinaryProperty, (Held fst.properties p.positive → Holds fst p) ∧
    (Held fst.properties p.negative → ¬ Holds fst p)

variable [DecidableEq W] {fst fst' : VectorFst L W}

theorem honest_of_mask {mask : BitVec 64} (h : Honest fst)
    (hprops : fst'.properties = fst.properties &&& mask)
    (hpos : ∀ p : TrinaryProperty, Held mask p.positive → Holds fst p → Holds fst' p)
    (hneg : ∀ p : TrinaryProperty, Held mask p.negative → Holds fst' p → Holds fst p) :
    Honest fst' := by
  intro p
  rw [hprops]
  constructor
  · intro hbit
    obtain ⟨hold, hmask⟩ := held_and hbit
    exact hpos p hmask ((h p).1 hold)
  · intro hbit hp
    obtain ⟨hold, hmask⟩ := held_and hbit
    exact (h p).2 hold (hneg p hmask hp)

theorem holds_properties (props : BitVec 64) (p : TrinaryProperty) :
    Holds { fst with properties := props } p ↔ Holds fst p := by
  cases p <;> exact Iff.rfl

theorem honest_or {extra : BitVec 64} (h : Honest fst)
    (hpos : ∀ p : TrinaryProperty, Held extra p.positive → Holds fst p)
    (hneg : ∀ p : TrinaryProperty, Held extra p.negative → ¬ Holds fst p) :
    Honest { fst with properties := fst.properties ||| extra } := by
  intro p
  rw [holds_properties]
  constructor
  · intro hbit
    rcases held_or hbit with hold | hnew
    · exact (h p).1 hold
    · exact hpos p hnew
  · intro hbit
    rcases held_or hbit with hold | hnew
    · exact (h p).2 hold
    · exact hneg p hnew

variable {props : BitVec 64} {p : TrinaryProperty} {state : ℕ} {s : VectorState L W}
  {P : Arc L W → Prop} {arc : Arc L W} {dstates : List ℕ}

theorem honest_of_no_states (hstates : fst.states = []) (hstart : fst.start = none)
    (hprops : fst.properties = (props &&& kError) ||| kNullProperties |||
      VectorFst.staticProperties) : Honest fst := by
  have harcs : ∀ s, fst.arcs s = [] := by
    intro s
    simp [VectorFst.arcs, hstates]
  have hfinal : ∀ s, fst.finalWeight s = 0 := by
    intro s
    simp [VectorFst.finalWeight, hstates]
  have hnum : fst.numStates = 0 := by simp [VectorFst.numStates, hstates]
  have hsorted : Holds fst .topSorted := by
    intro s arc harc
    simp [harcs] at harc
  have hacyclic := acyclic_of_topSorted hsorted
  have hbits : ∀ b, Held fst.properties b → Held kError b ∨ Held kNullProperties b ∨
      Held VectorFst.staticProperties b := by
    intro b hb
    rw [hprops] at hb
    rcases held_or hb with hb | hb
    · rcases held_or hb with hb | hb
      · exact Or.inl (held_and hb).2
      · exact Or.inr (Or.inl hb)
    · exact Or.inr (Or.inr hb)
  intro p
  constructor
  · intro hb
    have hnull := hbits _ hb
    cases p <;> first
      | exact absurd hnull (by decide)
      | exact hsorted
      | simp [Holds, EveryArc, UniqueLabels, SortedLabels, harcs, hnum, hstart]
  · intro hb
    have hnull := hbits _ hb
    cases p <;> first
      | exact absurd hnull (by decide)
      | exact hacyclic
      | simp [Holds, SomeArc, harcs, hfinal, hstart, Nontrivial]

theorem honest_new : Honest (VectorFst.new : VectorFst L W) := by
  apply honest_of_no_states rfl rfl
  show kNullProperties ||| VectorFst.staticProperties =
    ((0 &&& kError) ||| kNullProperties) ||| VectorFst.staticProperties
  decide

theorem honest_deleteAllStates (fst : VectorFst L W) : Honest fst.deleteAllStates := by
  have hprops : fst.deleteAllStates.properties =
      (fst.properties &&& kError) ||| kNullProperties ||| VectorFst.staticProperties := rfl
  exact honest_of_no_states rfl rfl hprops

theorem honest_setStart (h : Honest fst) (state : Option ℕ) : Honest (fst.setStart state) := by
  have hmasked : Honest
      (⟨fst.states, state, fst.properties &&& kSetStartProperties⟩ : VectorFst L W) := by
    refine honest_of_mask h rfl ?_ ?_
    · intro p hmask hp
      cases p <;> first
        | exact absurd hmask (by decide)
        | exact hp
    · intro p hmask hp
      cases p <;> first
        | exact absurd hmask (by decide)
        | exact hp
  unfold VectorFst.setStart setStartProperties
  dsimp only
  split
  next hacyclic =>
    have hcyc : ¬ Holds fst .cyclic := (h .cyclic).2 hacyclic
    apply honest_or hmasked
    · intro p hp
      cases p <;> exact absurd hp (by decide)
    · intro p hp
      cases p <;> first
        | exact absurd hp (by decide)
        | exact fun ⟨s, _, hs⟩ => hcyc ⟨s, hs⟩
  next => exact hmasked

theorem step_of_eq (harcs : fst'.arcs = fst.arcs) : Step fst' = Step fst := by
  funext s t
  simp only [Step, harcs]

theorem holds_of_eq (harcs : fst'.arcs = fst.arcs) (hstart : fst'.start = fst.start)
    (hp : p ∉ [.weighted, .accessible, .coAccessible, .string]) :
    Holds fst' p ↔ Holds fst p := by
  have hstep := step_of_eq harcs
  cases p <;> first
    | exact absurd (by decide) hp
    | simp only [Holds, EveryArc, SomeArc, UniqueLabels, SortedLabels, hstep, harcs, hstart]

theorem honest_addStates (h : Honest fst) (n : ℕ) : Honest (fst.addStates n) := by
  have harcs := VectorFst.arcs_addStates fst n
  have hfinal := VectorFst.finalWeight_addStates fst n
  have hstep := step_of_eq harcs
  have hweighted : Holds (fst.addStates n) .weighted ↔ Holds fst .weighted := by
    simp only [Holds, SomeArc, harcs, hfinal]
  have hnum : (fst.addStates n).numStates = fst.numStates + n := by
    simp [VectorFst.numStates, VectorFst.addStates]
  apply honest_of_mask h (rfl : (fst.addStates n).properties = _)
  · intro p hmask hp
    cases p <;> first
      | exact absurd hmask (by decide)
      | exact hweighted.mpr hp
      | exact (holds_of_eq harcs rfl (by decide)).mpr hp
  · intro p hmask hp
    cases p with
    | weighted => exact hweighted.mp hp
    | accessible =>
      intro s hs
      rw [← hstep]
      exact hp s (by omega)
    | coAccessible =>
      intro s hs
      rw [← hstep, ← hfinal]
      exact hp s (by omega)
    | string =>
      obtain ⟨hstart, hall⟩ := hp
      rcases Nat.eq_zero_or_pos n with rfl | hn
      · rw [hnum] at hall
        simp only [VectorFst.numArcs_eq, harcs, hfinal] at hall
        refine ⟨hstart, ?_⟩
        simp only [VectorFst.numArcs_eq]
        exact hall
      · have hlone := (hall fst.numStates (by omega)).2.2
        rw [VectorFst.numArcs_eq, harcs, hfinal, VectorFst.finalWeight_of_le le_rfl,
          VectorFst.arcs_of_le le_rfl] at hlone
        simp at hlone
    | _ => first
      | exact absurd hmask (by decide)
      | exact (holds_of_eq harcs rfl (by decide)).mp hp

theorem honest_setFinal (h : Honest fst) (state : ℕ) (weight : W) :
    Honest (fst.setFinal state weight) := by
  cases hs : fst.states[state]? with
  | none => rwa [VectorFst.setFinal_of_none weight hs]
  | some s =>
    have harcs := VectorFst.arcs_setFinal fst state weight
    have hlt : state < fst.numStates := (List.getElem?_eq_some_iff.mp hs).1
    have hfinal := VectorFst.finalWeight_setFinal weight hlt
    have hold : fst.finalWeight state = s.finalWeight := VectorFst.finalWeight_of_getElem? hs
    have hprops : (fst.setFinal state weight).properties =
        setFinalProperties fst.properties s.finalWeight weight := by
      rw [VectorFst.setFinal_of_some weight hs]
    have hbits : ∀ b, Held (fst.setFinal state weight).properties b →
        Held (kSetFinalProperties ||| kWeighted ||| kUnweighted) b ∧
          (Nontrivial weight ∧ Held kWeighted b ∨ Held fst.properties b ∧
            (Nontrivial s.finalWeight → Held (~~~kWeighted) b) ∧
            (Nontrivial weight → Held (~~~kUnweighted) b)) := by
      intro b hb
      have heq : setFinalProperties fst.properties s.finalWeight weight = runUpdates
          [⟨s.finalWeight ≠ 0 ∧ s.finalWeight ≠ 1, 0, kWeighted⟩, weightUpdate weight]
          fst.properties &&& (kSetFinalProperties ||| kWeighted ||| kUnweighted) := by
        simp [setFinalProperties, runUpdates, Update.run, weightUpdate]
      rw [hprops, heq] at hb
      obtain ⟨hrun, hmask⟩ := held_and hb
      refine ⟨hmask, ?_⟩
      have hcases := held_runUpdates hrun
      simpa [weightUpdate, Nontrivial, Held] using hcases
    have hstep := step_of_eq harcs
    have haccessible : Holds (fst.setFinal state weight) .accessible ↔ Holds fst .accessible := by
      simp only [Holds, hstep, VectorFst.numStates_setFinal, VectorFst.start_setFinal]
    have hsame : ∀ q, q ∉ [.weighted, .accessible, .coAccessible, .string] →
        (Holds (fst.setFinal state weight) q ↔ Holds fst q) :=
      fun q => holds_of_eq harcs (VectorFst.start_setFinal fst state weight)
    intro p
    constructor
    · intro hb
      obtain ⟨hmask, hnew | ⟨hheld, hcleared, -⟩⟩ := hbits _ hb
      · cases p with
        | weighted =>
          refine Or.inr ⟨state, ?_⟩
          rw [hfinal, Function.update_self]
          exact hnew.1
        | _ => exact absurd hnew.2 (by decide)
      · have hp := (h p).1 hheld
        cases p with
        | weighted =>
          have htrivial : ¬ Nontrivial s.finalWeight :=
            fun hn => absurd (hcleared hn) (by decide)
          rcases hp with harc | ⟨t, ht⟩
          · left
            rwa [SomeArc, harcs]
          · have hne : t ≠ state := by
              rintro rfl
              exact htrivial (hold ▸ ht)
            refine Or.inr ⟨t, ?_⟩
            rwa [hfinal, Function.update_of_ne hne]
        | accessible => exact haccessible.mpr hp
        | _ => first
          | exact absurd hmask (by decide)
          | exact (hsame _ (by decide)).mpr hp
    · intro hb hp
      obtain ⟨hmask, hnew | ⟨hheld, -, hcleared⟩⟩ := hbits _ hb
      · cases p <;> exact absurd hnew.2 (by decide)
      · refine (h p).2 hheld ?_
        cases p with
        | weighted =>
          have htrivial : ¬ Nontrivial weight := fun hn => absurd (hcleared hn) (by decide)
          rcases hp with harc | ⟨t, ht⟩
          · left
            rwa [SomeArc, harcs] at harc
          · have hne : t ≠ state := by
              rintro rfl
              rw [hfinal, Function.update_self] at ht
              exact htrivial ht
            refine Or.inr ⟨t, ?_⟩
            rwa [hfinal, Function.update_of_ne hne] at ht
        | accessible => exact haccessible.mp hp
        | _ => first
          | exact absurd hmask (by decide)
          | exact (hsame _ (by decide)).mp hp

theorem embeds_addArc (arc : Arc L W) (hs : fst.states[state]? = some s) :
    Embeds id fst (fst.addArc state arc) := by
  have harcs := VectorFst.arcs_addArc arc hs
  have hfinal := VectorFst.finalWeight_addArc fst state arc
  constructor
  · intro t
    rw [harcs]
    simp only [id_eq, List.map_id']
    by_cases ht : t = state
    · subst ht
      rw [Function.update_self, VectorFst.arcs_of_getElem? hs]
      exact List.sublist_append_left _ _
    · rw [Function.update_of_ne ht]
  · intro t a _ hle
    exact hle
  · intro t ht
    rw [hfinal]
    exact ht
  · intro t ht
    rw [VectorFst.addArc_start]
    exact ht

theorem everyArc_addArc (hs : fst.states[state]? = some s) (hP : P arc) (hall : EveryArc P fst) :
    EveryArc P (fst.addArc state arc) := by
  intro t a ha
  rw [VectorFst.arcs_addArc arc hs] at ha
  by_cases ht : t = state
  · subst ht
    rw [Function.update_self] at ha
    rcases List.mem_append.mp ha with ha | ha
    · exact hall t a (VectorFst.arcs_of_getElem? hs ▸ ha)
    · exact List.mem_singleton.mp ha ▸ hP
  · rw [Function.update_of_ne ht] at ha
    exact hall t a ha

theorem someArc_addArc (hs : fst.states[state]? = some s) (hP : P arc) :
    SomeArc P (fst.addArc state arc) := by
  refine ⟨state, arc, ?_, hP⟩
  rw [VectorFst.arcs_addArc arc hs, Function.update_self]
  simp

theorem someArc_of_addArc (hs : fst.states[state]? = some s) (hP : ¬ P arc)
    (hsome : SomeArc P (fst.addArc state arc)) :
    SomeArc P fst := by
  by_contra hnone
  have hall : EveryArc (fun a => ¬ P a) fst := fun t a ha hp => hnone ⟨t, a, ha, hp⟩
  obtain ⟨t, a, ha, hp⟩ := hsome
  exact everyArc_addArc hs hP hall t a ha hp

theorem sortedLabels_addArc {label : Arc L W → L} (hs : fst.states[state]? = some s)
    (hprev : ∀ prev ∈ s.arcs.getLast?, label prev ≤ label arc) (hsorted : SortedLabels label fst) :
    SortedLabels label (fst.addArc state arc) := by
  intro t
  rw [VectorFst.arcs_addArc arc hs]
  by_cases ht : t = state
  · subst ht
    rw [Function.update_self, List.map_append, List.map_singleton, List.isChain_append]
    refine ⟨VectorFst.arcs_of_getElem? hs ▸ hsorted t, by simp, ?_⟩
    intro x hx y hy
    rw [List.getLast?_map] at hx
    obtain ⟨prev, hlast, rfl⟩ := Option.map_eq_some_iff.mp hx
    obtain rfl : label arc = y := by simpa using hy
    exact hprev prev hlast
  · rw [Function.update_of_ne ht]
    exact hsorted t

theorem unsorted_addArc {label : Arc L W → L} {prev : Arc L W} (hs : fst.states[state]? = some s)
    (hlast : s.arcs.getLast? = some prev) (hlt : label arc < label prev) :
    ¬ SortedLabels label (fst.addArc state arc) := by
  intro hsorted
  have hchain := hsorted state
  rw [VectorFst.arcs_addArc arc hs, Function.update_self, List.map_append, List.map_singleton,
    List.isChain_append] at hchain
  have hle : label prev ≤ label arc :=
    hchain.2.2 (label prev) (by simp [hlast]) (label arc) (by simp)
  exact absurd hlt (not_lt.mpr hle)

/- What it takes for a positive bit to be held once the arc has been added. -/
def AddArcPositive (props : BitVec 64) (s : ℕ) (arc : Arc L W) (prevArc : Option (Arc L W)) :
    TrinaryProperty → Prop
  | .acceptor => Held props kAcceptor ∧ arc.ilabel = arc.olabel
  | .epsilons => (arc.ilabel = epsilon ∧ arc.olabel = epsilon) ∨ Held props kEpsilons
  | .iEpsilons => arc.ilabel = epsilon ∨ Held props kIEpsilons
  | .oEpsilons => arc.olabel = epsilon ∨ Held props kOEpsilons
  | .iLabelSorted => Held props kILabelSorted ∧ ∀ prev ∈ prevArc, prev.ilabel ≤ arc.ilabel
  | .oLabelSorted => Held props kOLabelSorted ∧ ∀ prev ∈ prevArc, prev.olabel ≤ arc.olabel
  | .weighted => Nontrivial arc.weight ∨ Held props kWeighted
  | .cyclic => Held props kCyclic
  | .initialCyclic => Held props kInitialCyclic
  | .topSorted => Held props kTopSorted ∧ s < arc.nextstate
  | .accessible => Held props kAccessible
  | .coAccessible => Held props kCoAccessible
  | .weightedCycles => Held props kWeightedCycles
  | .iDeterministic | .oDeterministic | .string => False

def AddArcNegative (props : BitVec 64) (s : ℕ) (arc : Arc L W) (prevArc : Option (Arc L W)) :
    TrinaryProperty → Prop
  | .acceptor => arc.ilabel ≠ arc.olabel ∨ Held props kNotAcceptor
  | .iDeterministic => Held props kNonIDeterministic
  | .oDeterministic => Held props kNonODeterministic
  | .epsilons => Held props kNoEpsilons ∧ ¬ (arc.ilabel = epsilon ∧ arc.olabel = epsilon)
  | .iEpsilons => Held props kNoIEpsilons ∧ arc.ilabel ≠ epsilon
  | .oEpsilons => Held props kNoOEpsilons ∧ arc.olabel ≠ epsilon
  | .iLabelSorted => (∃ prev ∈ prevArc, arc.ilabel < prev.ilabel) ∨ Held props kNotILabelSorted
  | .oLabelSorted => (∃ prev ∈ prevArc, arc.olabel < prev.olabel) ∨ Held props kNotOLabelSorted
  | .weighted => Held props kUnweighted ∧ ¬ Nontrivial arc.weight
  | .topSorted => arc.nextstate ≤ s ∨ Held props kNotTopSorted
  | .cyclic | .initialCyclic | .accessible | .coAccessible | .string | .weightedCycles => False

theorem addArc_positive {s : ℕ} {prevArc : Option (Arc L W)}
    (h : Held (runUpdates (addArcUpdates s arc prevArc) props &&& addArcMask) p.positive) :
    AddArcPositive props s arc prevArc p := by
  obtain ⟨hrun, hmask⟩ := held_and h
  have hcases := held_runUpdates hrun
  cases p <;> first
    | exact absurd hmask (by decide)
    | simpa +decide [addArcUpdates, labelUpdates, weightUpdate, TrinaryProperty.positive,
        AddArcPositive, Nontrivial, Option.any_eq_false] using hcases

theorem addArc_negative {s : ℕ} {prevArc : Option (Arc L W)}
    (h : Held (runUpdates (addArcUpdates s arc prevArc) props &&& addArcMask) p.negative) :
    AddArcNegative props s arc prevArc p := by
  obtain ⟨hrun, hmask⟩ := held_and h
  have hcases := held_runUpdates hrun
  cases p <;> first
    | exact absurd hmask (by decide)
    | simpa +decide [addArcUpdates, labelUpdates, weightUpdate, TrinaryProperty.negative,
        AddArcNegative, Nontrivial, Option.any_eq_true] using hcases

theorem honest_addArc_run (h : Honest fst) (arc : Arc L W) (hs : fst.states[state]? = some s) :
    Honest { fst.addArc state arc with
      properties := runUpdates (addArcUpdates state arc s.arcs.getLast?) fst.properties &&&
        addArcMask } := by
  have hembeds := embeds_addArc arc hs
  intro p
  rw [holds_properties]
  constructor
  · intro hb
    have hp := addArc_positive hb
    have hkept : ∀ q, q ∈ [.epsilons, .iEpsilons, .oEpsilons, .weighted, .cyclic, .initialCyclic,
        .weightedCycles] → Held fst.properties q.positive → Holds (fst.addArc state arc) q :=
      fun q hq hold => hembeds.holds_big hq ((h q).1 hold)
    have hnum : (fst.addArc state arc).numStates = fst.numStates := by simp
    cases p with
    | acceptor => exact everyArc_addArc hs hp.2 ((h .acceptor).1 hp.1)
    | iDeterministic => exact hp.elim
    | oDeterministic => exact hp.elim
    | epsilons =>
      rcases hp with hnew | hold
      · exact someArc_addArc hs hnew
      · exact hkept .epsilons (by decide) hold
    | iEpsilons =>
      rcases hp with hnew | hold
      · exact someArc_addArc hs hnew
      · exact hkept .iEpsilons (by decide) hold
    | oEpsilons =>
      rcases hp with hnew | hold
      · exact someArc_addArc hs hnew
      · exact hkept .oEpsilons (by decide) hold
    | iLabelSorted => exact sortedLabels_addArc hs hp.2 ((h .iLabelSorted).1 hp.1)
    | oLabelSorted => exact sortedLabels_addArc hs hp.2 ((h .oLabelSorted).1 hp.1)
    | weighted =>
      rcases hp with hnew | hold
      · exact Or.inl (someArc_addArc hs hnew)
      · exact hkept .weighted (by decide) hold
    | cyclic => exact hkept .cyclic (by decide) hp
    | initialCyclic => exact hkept .initialCyclic (by decide) hp
    | topSorted =>
      intro t a ha
      rw [VectorFst.arcs_addArc arc hs] at ha
      by_cases ht : t = state
      · subst ht
        rw [Function.update_self] at ha
        rcases List.mem_append.mp ha with ha | ha
        · exact (h .topSorted).1 hp.1 t a (VectorFst.arcs_of_getElem? hs ▸ ha)
        · exact List.mem_singleton.mp ha ▸ hp.2
      · rw [Function.update_of_ne ht] at ha
        exact (h .topSorted).1 hp.1 t a ha
    | accessible =>
      intro t ht
      obtain ⟨start, hstart, hreach⟩ := (h .accessible).1 hp t (by omega)
      exact ⟨start, hembeds.start start hstart, hembeds.reaches hreach⟩
    | coAccessible =>
      intro t ht
      obtain ⟨u, hreach, hu⟩ := (h .coAccessible).1 hp t (by omega)
      refine ⟨u, hembeds.reaches hreach, ?_⟩
      rwa [VectorFst.finalWeight_addArc]
    | string => exact hp.elim
    | weightedCycles => exact hkept .weightedCycles (by decide) hp
  · intro hb hholds
    have hp := addArc_negative hb
    have hkept : ∀ q, q ∈ [.acceptor, .iDeterministic, .oDeterministic, .iLabelSorted,
        .oLabelSorted, .topSorted] → Held fst.properties q.negative →
          ¬ Holds (fst.addArc state arc) q :=
      fun q hq hold hnew => (h q).2 hold (hembeds.holds_small hq hnew)
    have hmem : arc ∈ (fst.addArc state arc).arcs state := by
      rw [VectorFst.arcs_addArc arc hs, Function.update_self]
      simp
    cases p with
    | acceptor =>
      rcases hp with hne | hold
      · exact hne (hholds state arc hmem)
      · exact hkept .acceptor (by decide) hold hholds
    | iDeterministic => exact hkept .iDeterministic (by decide) hp hholds
    | oDeterministic => exact hkept .oDeterministic (by decide) hp hholds
    | epsilons => exact (h .epsilons).2 hp.1 (someArc_of_addArc hs hp.2 hholds)
    | iEpsilons => exact (h .iEpsilons).2 hp.1 (someArc_of_addArc hs hp.2 hholds)
    | oEpsilons => exact (h .oEpsilons).2 hp.1 (someArc_of_addArc hs hp.2 hholds)
    | iLabelSorted =>
      rcases hp with ⟨prev, hlast, hlt⟩ | hold
      · exact unsorted_addArc hs hlast hlt hholds
      · exact hkept .iLabelSorted (by decide) hold hholds
    | oLabelSorted =>
      rcases hp with ⟨prev, hlast, hlt⟩ | hold
      · exact unsorted_addArc hs hlast hlt hholds
      · exact hkept .oLabelSorted (by decide) hold hholds
    | weighted =>
      refine (h .weighted).2 hp.1 ?_
      rcases hholds with harc | ⟨t, ht⟩
      · exact Or.inl (someArc_of_addArc hs hp.2 harc)
      · exact Or.inr ⟨t, VectorFst.finalWeight_addArc fst state arc ▸ ht⟩
    | topSorted =>
      rcases hp with hle | hold
      · exact absurd (hholds state arc hmem) (not_lt.mpr hle)
      · exact hkept .topSorted (by decide) hold hholds
    | cyclic | initialCyclic | accessible | coAccessible | string | weightedCycles => exact hp.elim

theorem honest_addArc (h : Honest fst) (state : ℕ) (arc : Arc L W) :
    Honest (fst.addArc state arc) := by
  cases hs : fst.states[state]? with
  | none => rwa [VectorFst.addArc_of_none arc hs]
  | some s =>
    have hrun := honest_addArc_run h arc hs
    have hprops := addArcProperties_eq fst.properties state arc s.arcs.getLast?
    rw [VectorFst.addArc_of_some arc hs] at hrun ⊢
    rw [hprops]
    dsimp only at hrun ⊢
    split
    next hsorted =>
      have htop : Holds _ .topSorted := (hrun .topSorted).1 hsorted
      have hacyclic := acyclic_of_topSorted htop
      apply honest_or hrun
      · intro p hp
        cases p <;> exact absurd hp (by decide)
      · intro p hp
        cases p <;> first
          | exact absurd hp (by decide)
          | exact hacyclic
          | exact fun ⟨t, _, ht⟩ => hacyclic ⟨t, ht⟩
    next => exact hrun

theorem sublist_popArc (s : VectorState L W) : s.popArc.arcs.Sublist s.arcs := by
  unfold VectorState.popArc
  split
  · exact List.dropLast_sublist _
  · exact List.Sublist.refl _

theorem sublist_deleteArcsN (s : VectorState L W) (n : ℕ) :
    (s.deleteArcsN n).arcs.Sublist s.arcs := by
  unfold VectorState.deleteArcsN
  induction min n s.arcs.length generalizing s with
  | zero => exact List.Sublist.refl _
  | succ k ih =>
    rw [Function.iterate_succ_apply]
    exact (ih s.popArc).trans (sublist_popArc s)

theorem finalWeight_deleteArcsN (s : VectorState L W) (n : ℕ) :
    (s.deleteArcsN n).finalWeight = s.finalWeight := by
  unfold VectorState.deleteArcsN
  induction min n s.arcs.length generalizing s with
  | zero => rfl
  | succ k ih =>
    rw [Function.iterate_succ_apply, ih]
    unfold VectorState.popArc
    split <;> rfl

/- Some of the arcs of a state taken away. -/
theorem honest_of_fewer_arcs (h : Honest fst) {t : VectorState L W}
    (hs : fst.states[state]? = some s) (hsub : t.arcs.Sublist s.arcs)
    (hweight : t.finalWeight = s.finalWeight) :
    Honest ⟨fst.states.set state t, fst.start, deleteArcsProperties fst.properties⟩ := by
  have harcs := VectorFst.arcs_set hs t fst.start (deleteArcsProperties fst.properties)
  have hfinal := VectorFst.finalWeight_set hs t fst.start (deleteArcsProperties fst.properties)
  rw [hweight, Function.update_eq_self_iff.mpr (VectorFst.finalWeight_of_getElem? hs).symm]
    at hfinal
  generalize hfst : (⟨fst.states.set state t, fst.start, deleteArcsProperties fst.properties⟩ :
    VectorFst L W) = fst' at *
  have hnum : fst'.numStates = fst.numStates := by
    simp [← hfst, VectorFst.numStates]
  have hembeds : Embeds id fst' fst := by
    constructor
    · intro u
      rw [harcs]
      simp only [id_eq, List.map_id']
      by_cases hu : u = state
      · subst hu
        rwa [Function.update_self, VectorFst.arcs_of_getElem? hs]
      · rw [Function.update_of_ne hu]
    · intro u a _ hle
      exact hle
    · intro u hu
      rwa [hfinal] at hu
    · intro u hu
      rwa [← hfst] at hu
  have hprops : fst'.properties = fst.properties &&& kDeleteArcsProperties := by
    rw [← hfst]
    rfl
  apply honest_of_mask h hprops
  · intro p hmask hp
    cases p <;> first
      | exact absurd hmask (by decide)
      | exact hembeds.holds_small (by decide) hp
  · intro p hmask hp
    cases p with
    | accessible =>
      intro u hu
      obtain ⟨start, hstart, hreach⟩ := hp u (by omega)
      exact ⟨start, hembeds.start start hstart, hembeds.reaches hreach⟩
    | coAccessible =>
      intro u hu
      obtain ⟨v, hreach, hv⟩ := hp u (by omega)
      exact ⟨v, hembeds.reaches hreach, hfinal ▸ hv⟩
    | _ => first
      | exact absurd hmask (by decide)
      | exact hembeds.holds_big (by decide) hp

theorem honest_deleteArcsN (h : Honest fst) (state n : ℕ) : Honest (fst.deleteArcsN state n) := by
  unfold VectorFst.deleteArcsN
  split
  next s hs =>
    exact honest_of_fewer_arcs h hs (sublist_deleteArcsN s n) (finalWeight_deleteArcsN s n)
  next => exact h

theorem honest_deleteArcs (h : Honest fst) (state : ℕ) : Honest (fst.deleteArcs state) := by
  unfold VectorFst.deleteArcs
  split
  next s hs => exact honest_of_fewer_arcs h hs (List.nil_sublist _) rfl
  next => exact h

/- The states of `n` from `state` on that are kept. -/
def keptIds (dstates : List ℕ) (n state : ℕ) : List ℕ :=
  (List.range' state n).filter fun s => s ∉ dstates

theorem keptIds_cons (dstates : List ℕ) (n state : ℕ) : keptIds dstates (n + 1) state =
    if state ∈ dstates then keptIds dstates n (state + 1)
    else state :: keptIds dstates n (state + 1) := by
  simp only [keptIds, List.range'_succ, List.filter_cons]
  by_cases hmem : state ∈ dstates <;> simp [hmem]

theorem keptIds_sorted (dstates : List ℕ) (n state : ℕ) :
    (keptIds dstates n state).Pairwise (· < ·) := by
  have hrange : (List.range' state n).Pairwise (· < ·) := List.pairwise_lt_range'
  exact hrange.filter _

theorem keptIds_of_newIds {states : List (VectorState L W)} {next i k : ℕ}
    (h : (VectorFst.newIds dstates states state next)[i]? = some (some k)) :
    next ≤ k ∧ (keptIds dstates states.length state)[k - next]? = some (state + i) := by
  induction states generalizing state next i with
  | nil => simp [VectorFst.newIds] at h
  | cons s states ih =>
    rw [List.length_cons, keptIds_cons]
    by_cases hmem : state ∈ dstates
    · rw [VectorFst.newIds, if_pos hmem] at h
      rw [if_pos hmem]
      cases i with
      | zero => simp at h
      | succ i =>
        obtain ⟨hle, hkept⟩ := ih h
        rw [hkept]
        exact ⟨hle, by congr 1; omega⟩
    · rw [VectorFst.newIds, if_neg hmem] at h
      rw [if_neg hmem]
      cases i with
      | zero =>
        obtain rfl : next = k := by simpa using h
        simp
      | succ i =>
        obtain ⟨hle, hkept⟩ := ih h
        obtain ⟨j, rfl⟩ : ∃ j, k = next + 1 + j := ⟨k - (next + 1), by omega⟩
        have hj : next + 1 + j - next = j + 1 := by omega
        have hj' : next + 1 + j - (next + 1) = j := by omega
        rw [hj'] at hkept
        rw [hj, List.getElem?_cons_succ, hkept]
        exact ⟨by omega, by congr 1; omega⟩

theorem keptIds_of_keptStates {states : List (VectorState L W)} {k : ℕ}
    (h : (VectorFst.keptStates dstates states state)[k]? = some s) :
    ∃ i, (keptIds dstates states.length state)[k]? = some (state + i) ∧ states[i]? = some s := by
  induction states generalizing state k with
  | nil => simp [VectorFst.keptStates] at h
  | cons t states ih =>
    rw [List.length_cons, keptIds_cons]
    by_cases hmem : state ∈ dstates
    · rw [VectorFst.keptStates, if_pos hmem] at h
      obtain ⟨i, hkept, hi⟩ := ih h
      rw [if_pos hmem]
      exact ⟨i + 1, by rw [hkept]; congr 1; omega, hi⟩
    · rw [VectorFst.keptStates, if_neg hmem] at h
      rw [if_neg hmem]
      cases k with
      | zero => exact ⟨0, rfl, h⟩
      | succ k =>
        obtain ⟨i, hkept, hi⟩ := ih h
        exact ⟨i + 1, by rw [List.getElem?_cons_succ, hkept]; congr 1; omega, hi⟩

theorem remapArcs_sublist {newid : List (Option ℕ)} {f : ℕ → ℕ}
    (hf : ∀ i k, newid[i]? = some (some k) → f k = i) {arcs arcs' : List (Arc L W)}
    (h : VectorFst.remapArcs newid arcs = some arcs') :
    (arcs'.map fun arc => { arc with nextstate := f arc.nextstate }).Sublist arcs := by
  induction arcs generalizing arcs' with
  | nil =>
    cases h
    exact List.Sublist.refl _
  | cons arc arcs ih =>
    obtain ⟨t, ht, h⟩ := Option.bind_eq_some_iff.mp h
    obtain ⟨rest, hrest, rfl⟩ := Option.map_eq_some_iff.mp h
    cases t with
    | none => exact (ih hrest).cons arc
    | some next =>
      have hnext : f next = arc.nextstate := hf _ _ ht
      simp only [List.map_cons, hnext]
      exact (ih hrest).cons_cons arc

theorem remapStates_getElem? {newid : List (Option ℕ)} {states states' : List (VectorState L W)}
    (h : VectorFst.remapStates newid states = some states') {k : ℕ} {s' : VectorState L W}
    (hs' : states'[k]? = some s') :
    ∃ s arcs, states[k]? = some s ∧ VectorFst.remapArcs newid s.arcs = some arcs ∧
      s'.arcs = arcs ∧ s'.finalWeight = s.finalWeight := by
  induction states generalizing states' k with
  | nil =>
    cases h
    simp at hs'
  | cons s states ih =>
    obtain ⟨t, ht, h⟩ := Option.bind_eq_some_iff.mp h
    obtain ⟨rest, hrest, rfl⟩ := Option.map_eq_some_iff.mp h
    cases k with
    | zero =>
      obtain rfl : t = s' := by simpa using hs'
      obtain ⟨arcs, harcs, rfl⟩ := Option.map_eq_some_iff.mp ht
      exact ⟨s, arcs, rfl, harcs, rfl, rfl⟩
    | succ k => exact ih hrest hs'

/- The number a state of the result had before the deletion. -/
def oldId (fst : VectorFst L W) (dstates : List ℕ) (k : ℕ) : ℕ :=
  (keptIds dstates fst.states.length 0)[k]?.getD 0

theorem oldId_le {k m : ℕ} (hm : m < (keptIds dstates fst.states.length 0).length) (hle : k ≤ m) :
    oldId fst dstates k ≤ oldId fst dstates m := by
  have hsorted := keptIds_sorted dstates fst.states.length 0
  unfold oldId
  rw [List.getElem?_eq_getElem hm, List.getElem?_eq_getElem (by omega)]
  rcases Nat.lt_or_eq_of_le hle with hlt | rfl
  · exact (List.pairwise_iff_getElem.mp hsorted k m (by omega) hm hlt).le
  · exact le_rfl

theorem embeds_deleteStates (hd : fst.deleteStates dstates = some fst') (hne : dstates ≠ []) :
    Embeds (oldId fst dstates) fst' fst := by
  unfold VectorFst.deleteStates at hd
  rw [if_neg hne] at hd
  obtain ⟨states, hstates, hd⟩ := Option.bind_eq_some_iff.mp hd
  obtain ⟨start, hstart, rfl⟩ := Option.map_eq_some_iff.mp hd
  have hnew : ∀ i k, (VectorFst.newIds dstates fst.states 0 0)[i]? = some (some k) →
      oldId fst dstates k = i := by
    intro i k hik
    obtain ⟨-, hkept⟩ := keptIds_of_newIds hik
    rw [Nat.sub_zero, Nat.zero_add] at hkept
    simp [oldId, hkept]
  have hstate : ∀ k s', states[k]? = some s' → ∃ s,
      k < (keptIds dstates fst.states.length 0).length ∧
      fst.states[oldId fst dstates k]? = some s ∧
      (s'.arcs.map fun arc => { arc with nextstate := oldId fst dstates arc.nextstate }).Sublist
        s.arcs ∧ s'.finalWeight = s.finalWeight := by
    intro k s' hs'
    obtain ⟨s, arcs, hs, harcs, hs'arcs, hweight⟩ := remapStates_getElem? hstates hs'
    obtain ⟨i, hkept, hi⟩ := keptIds_of_keptStates hs
    rw [Nat.zero_add] at hkept
    have hold : oldId fst dstates k = i := by simp [oldId, hkept]
    refine ⟨s, (List.getElem?_eq_some_iff.mp hkept).1, hold ▸ hi, ?_, hweight⟩
    rw [hs'arcs]
    exact remapArcs_sublist hnew harcs
  constructor
  · intro k
    cases hk : states[k]? with
    | none => simp [VectorFst.arcs, hk]
    | some s' =>
      obtain ⟨s, -, hs, hsub, -⟩ := hstate k s' hk
      rw [VectorFst.arcs, hk, VectorFst.arcs_of_getElem? hs]
      exact hsub
  · intro k arc harc hle
    cases hk : states[k]? with
    | none => simp [VectorFst.arcs, hk] at harc
    | some s' => exact oldId_le (hstate k s' hk).choose_spec.1 hle
  · intro k hnontrivial
    cases hk : states[k]? with
    | none => simp [VectorFst.finalWeight, hk, Nontrivial] at hnontrivial
    | some s' =>
      obtain ⟨s, -, hs, -, hweight⟩ := hstate k s' hk
      rw [VectorFst.finalWeight_of_getElem? hs, ← hweight]
      rwa [VectorFst.finalWeight, hk] at hnontrivial
  · intro k hk
    obtain rfl : start = some k := hk
    cases hold : fst.start with
    | none => simp [VectorFst.remapStart, hold] at hstart
    | some startId =>
      rw [hold] at hstart
      rw [hnew startId k hstart]

theorem honest_deleteStates (h : Honest fst) (hd : fst.deleteStates dstates = some fst') :
    Honest fst' := by
  by_cases hne : dstates = []
  · subst hne
    have heq : fst = fst' := by simpa [VectorFst.deleteStates] using hd
    exact heq ▸ h
  · have hembeds := embeds_deleteStates hd hne
    have hprops : fst'.properties = fst.properties &&& kDeleteStatesProperties := by
      unfold VectorFst.deleteStates at hd
      rw [if_neg hne] at hd
      obtain ⟨states, -, hd⟩ := Option.bind_eq_some_iff.mp hd
      obtain ⟨start, -, rfl⟩ := Option.map_eq_some_iff.mp hd
      rfl
    apply honest_of_mask h hprops
    · intro p hmask hp
      cases p <;> first
        | exact absurd hmask (by decide)
        | exact hembeds.holds_small (by decide) hp
    · intro p hmask hp
      cases p <;> first
        | exact absurd hmask (by decide)
        | exact hembeds.holds_big (by decide) hp

/- What it takes for a bit to be held once an arc has been replaced. -/
def SetArcPositive (props : BitVec 64) (oldArc newArc : Arc L W) : TrinaryProperty → Prop
  | .acceptor => Held props kAcceptor ∧ newArc.ilabel = newArc.olabel
  | .epsilons => (newArc.ilabel = epsilon ∧ newArc.olabel = epsilon) ∨
      Held props kEpsilons ∧ ¬ (oldArc.ilabel = epsilon ∧ oldArc.olabel = epsilon)
  | .iEpsilons => newArc.ilabel = epsilon ∨ Held props kIEpsilons ∧ oldArc.ilabel ≠ epsilon
  | .oEpsilons => newArc.olabel = epsilon ∨ Held props kOEpsilons ∧ oldArc.olabel ≠ epsilon
  | .weighted => Nontrivial newArc.weight ∨ Held props kWeighted ∧ ¬ Nontrivial oldArc.weight
  | _ => False

def SetArcNegative (props : BitVec 64) (oldArc newArc : Arc L W) : TrinaryProperty → Prop
  | .acceptor => newArc.ilabel ≠ newArc.olabel ∨
      Held props kNotAcceptor ∧ oldArc.ilabel = oldArc.olabel
  | .epsilons => Held props kNoEpsilons ∧ ¬ (newArc.ilabel = epsilon ∧ newArc.olabel = epsilon)
  | .iEpsilons => Held props kNoIEpsilons ∧ newArc.ilabel ≠ epsilon
  | .oEpsilons => Held props kNoOEpsilons ∧ newArc.olabel ≠ epsilon
  | .weighted => Held props kUnweighted ∧ ¬ Nontrivial newArc.weight
  | _ => False

theorem setArc_positive {oldArc newArc : Arc L W}
    (h : Held (setArcProperties props oldArc newArc) p.positive) :
    SetArcPositive props oldArc newArc p := by
  rw [setArcProperties_eq] at h
  obtain ⟨hrun, hmask⟩ := held_and h
  have hcases := held_runUpdates hrun
  cases p <;> first
    | exact absurd hmask (by decide)
    | simpa +decide [setArcUpdates, labelUpdates, weightUpdate, TrinaryProperty.positive,
        SetArcPositive, Nontrivial] using hcases

theorem setArc_negative {oldArc newArc : Arc L W}
    (h : Held (setArcProperties props oldArc newArc) p.negative) :
    SetArcNegative props oldArc newArc p := by
  rw [setArcProperties_eq] at h
  obtain ⟨hrun, hmask⟩ := held_and h
  have hcases := held_runUpdates hrun
  cases p <;> first
    | exact absurd hmask (by decide)
    | simpa +decide [setArcUpdates, labelUpdates, weightUpdate, TrinaryProperty.negative,
        SetArcNegative, Nontrivial] using hcases

/- The FST with other arcs on one of its states. -/
def withArcs (fst : VectorFst L W) (state : ℕ) (s : VectorState L W) (arcs : List (Arc L W))
    (props : BitVec 64) : VectorFst L W :=
  ⟨fst.states.set state { s with arcs := arcs }, fst.start, props⟩

section Replacing

variable {state : ℕ} {s : VectorState L W} (hs : fst.states[state]? = some s)
  {done rest : List (Arc L W)} {oldArc newArc : Arc L W} {props props' : BitVec 64}
include hs

theorem arcs_withArcs (arcs : List (Arc L W)) :
    (withArcs fst state s arcs props).arcs = Function.update fst.arcs state arcs :=
  VectorFst.arcs_set hs _ _ _

theorem finalWeight_withArcs (arcs : List (Arc L W)) :
    (withArcs fst state s arcs props).finalWeight = fst.finalWeight := by
  unfold withArcs
  rw [VectorFst.finalWeight_set hs]
  exact Function.update_eq_self_iff.mpr (VectorFst.finalWeight_of_getElem? hs).symm

theorem everyArc_replace (hP : P newArc)
    (hall : EveryArc P (withArcs fst state s (done ++ oldArc :: rest) props)) :
    EveryArc P (withArcs fst state s (done ++ newArc :: rest) props') := by
  intro t arc harc
  have hallt := hall t
  rw [arcs_withArcs hs] at harc hallt
  by_cases ht : t = state
  · subst ht
    rw [Function.update_self] at harc hallt
    simp only [List.mem_append, List.mem_cons] at harc hallt
    rcases harc with harc | rfl | harc
    · exact hallt arc (Or.inl harc)
    · exact hP
    · exact hallt arc (Or.inr (Or.inr harc))
  · rw [Function.update_of_ne ht] at harc hallt
    exact hallt arc harc

theorem someArc_replace (hP : ¬ P oldArc)
    (hsome : SomeArc P (withArcs fst state s (done ++ oldArc :: rest) props)) :
    SomeArc P (withArcs fst state s (done ++ newArc :: rest) props') := by
  by_contra hnone
  have hall : EveryArc (fun arc => ¬ P arc) (withArcs fst state s (done ++ newArc :: rest) props') :=
    fun t arc harc hp => hnone ⟨t, arc, harc, hp⟩
  obtain ⟨t, arc, harc, hp⟩ := hsome
  exact everyArc_replace hs hP hall t arc harc hp

theorem mem_withArcs : newArc ∈ (withArcs fst state s (done ++ newArc :: rest) props).arcs state := by
  rw [arcs_withArcs hs, Function.update_self]
  simp

theorem someArc_new (hP : P newArc) :
    SomeArc P (withArcs fst state s (done ++ newArc :: rest) props) :=
  ⟨state, newArc, mem_withArcs hs, hP⟩

theorem honest_replace (h : Honest (withArcs fst state s (done ++ oldArc :: rest) props)) :
    Honest (withArcs fst state s (done ++ newArc :: rest)
      (setArcProperties props oldArc newArc)) := by
  intro p
  constructor
  · intro hb
    have hp := setArc_positive hb
    cases p with
    | acceptor => exact everyArc_replace hs hp.2 ((h .acceptor).1 hp.1)
    | epsilons =>
      rcases hp with hnew | ⟨hheld, hold⟩
      · exact someArc_new hs hnew
      · exact someArc_replace hs hold ((h .epsilons).1 hheld)
    | iEpsilons =>
      rcases hp with hnew | ⟨hheld, hold⟩
      · exact someArc_new hs hnew
      · exact someArc_replace hs hold ((h .iEpsilons).1 hheld)
    | oEpsilons =>
      rcases hp with hnew | ⟨hheld, hold⟩
      · exact someArc_new hs hnew
      · exact someArc_replace hs hold ((h .oEpsilons).1 hheld)
    | weighted =>
      rcases hp with hnew | ⟨hheld, hold⟩
      · exact Or.inl (someArc_new hs hnew)
      · rcases (h .weighted).1 hheld with harc | ⟨t, ht⟩
        · exact Or.inl (someArc_replace hs hold harc)
        · rw [finalWeight_withArcs hs] at ht
          exact Or.inr ⟨t, by rwa [finalWeight_withArcs hs]⟩
    | _ => exact hp.elim
  · intro hb hholds
    have hp := setArc_negative hb
    cases p with
    | acceptor =>
      rcases hp with hne | ⟨hheld, hold⟩
      · exact hne (hholds state newArc (mem_withArcs hs))
      · exact (h .acceptor).2 hheld (everyArc_replace hs hold hholds)
    | epsilons => exact (h .epsilons).2 hp.1 (someArc_replace hs hp.2 hholds)
    | iEpsilons => exact (h .iEpsilons).2 hp.1 (someArc_replace hs hp.2 hholds)
    | oEpsilons => exact (h .oEpsilons).2 hp.1 (someArc_replace hs hp.2 hholds)
    | weighted =>
      refine (h .weighted).2 hp.1 ?_
      rcases hholds with harc | ⟨t, ht⟩
      · exact Or.inl (someArc_replace hs hp.2 harc)
      · rw [finalWeight_withArcs hs] at ht
        exact Or.inr ⟨t, by rwa [finalWeight_withArcs hs]⟩
    | _ => exact hp.elim

/- The arcs `done` have been rewritten, `arcs` are still to come. -/
theorem honest_mutateArcsLoop {σ : Type} (mutator : Arc L W → σ → Arc L W × σ)
    (arcs : List (Arc L W)) (m : σ) (h : Honest (withArcs fst state s (done ++ arcs) props)) :
    Honest (withArcs fst state s (done ++ (VectorFst.mutateArcsLoop mutator arcs props m).1)
      (VectorFst.mutateArcsLoop mutator arcs props m).2.1) := by
  induction arcs generalizing done props m with
  | nil => exact h
  | cons old arcs ih =>
    have hstep : Honest (withArcs fst state s (done ++ (mutator old m).1 :: arcs)
        (setArcProperties props old (mutator old m).1)) := honest_replace hs h
    have hnext : done ++ (mutator old m).1 :: arcs = (done ++ [(mutator old m).1]) ++ arcs := by simp
    rw [hnext] at hstep
    have hrest := ih (mutator old m).2 hstep
    rw [List.append_assoc] at hrest
    exact hrest

end Replacing

theorem honest_mutateArcs {σ : Type} (h : Honest fst) (state : ℕ)
    (mutator : Arc L W → σ → Arc L W × σ) (m : σ) :
    Honest (fst.mutateArcs state mutator m).1 := by
  unfold VectorFst.mutateArcs
  split
  next s hs =>
    have hsame : withArcs fst state s ([] ++ s.arcs) fst.properties = fst := by
      obtain ⟨hlt, rfl⟩ := List.getElem?_eq_some_iff.mp hs
      have hset : fst.states.set state fst.states[state] = fst.states := List.set_getElem_self hlt
      unfold withArcs
      rw [List.nil_append, hset]
    exact honest_mutateArcsLoop hs mutator s.arcs m (hsame.symm ▸ h)
  next => exact h

theorem honest_apply (h : Honest fst) {op : MutableOp L W} (happly : op.apply fst = some fst') :
    Honest fst' := by
  cases op with
  | setStart state => cases happly; exact honest_setStart h state
  | setFinal state weight => cases happly; exact honest_setFinal h state weight
  | addState => cases happly; exact honest_addStates h 1
  | addStates n => cases happly; exact honest_addStates h n
  | addArc state arc => cases happly; exact honest_addArc h state arc
  | mutateArcs σ state mutator m => cases happly; exact honest_mutateArcs h state mutator m
  | deleteArcsN state n => cases happly; exact honest_deleteArcsN h state n
  | deleteArcs state => cases happly; exact honest_deleteArcs h state
  | deleteStates dstates => exact honest_deleteStates h happly
  | deleteAllStates => cases happly; exact honest_deleteAllStates fst

theorem honest_of_run {ops : List (MutableOp L W)}
    (hrun : runOps MutableOp.apply ops VectorFst.new = some fst) : Honest fst :=
  run_preserves (fun _ _ _ hs happly => honest_apply hs happly) honest_new hrun

theorem properties_honest_of_run {ops : List (MutableOp L W)}
    (hrun : runOps MutableOp.apply ops VectorFst.new = some fst) (p : TrinaryProperty) :
    (fst.properties &&& p.positive ≠ 0 → Holds fst p) ∧
      (fst.properties &&& p.negative ≠ 0 → ¬ Holds fst p) ∧
      ¬ (fst.properties &&& p.positive ≠ 0 ∧ fst.properties &&& p.negative ≠ 0) := by
  obtain ⟨hpos, hneg⟩ := honest_of_run hrun p
  exact ⟨hpos, hneg, fun hboth => hneg hboth.2 (hpos hboth.1)⟩

/- Two states and an arc forward, of which the cache still knows that it is sorted. -/
def lineRun : List (MutableOp ℤ (Tropical (WithTop ℕ))) :=
  [.addStates 2, .setStart (some 0), .addArc 0 ⟨1, 1, 1, 1⟩, .setFinal 1 1]

theorem properties_honest_of_run_line :
    ∃ fst, runOps MutableOp.apply lineRun VectorFst.new = some fst ∧
      fst.properties &&& TrinaryProperty.topSorted.positive ≠ 0 ∧ Holds fst .topSorted := by
  obtain ⟨fst, hrun, hbit⟩ : ∃ fst, runOps MutableOp.apply lineRun VectorFst.new = some fst ∧
      fst.properties &&& TrinaryProperty.topSorted.positive ≠ 0 := ⟨_, rfl, by decide⟩
  exact ⟨fst, hrun, hbit, (properties_honest_of_run hrun .topSorted).1 hbit⟩

end Sicada.PropertyBits
