import Sicada.LabelsExact
import Sicada.PropertyBits
import Sicada.StringFst

set_option linter.unusedSectionVars false

namespace Sicada.StringFstExact

open StringFst PropertyBits Relation

section Compiling

variable {L W : Type} [ArcLabel L] [Zero W] [One W] [DecidableEq W] {labels : List L}
  {fst : VectorFst L W} {weight : W}

def lineArcs (labels : List L) (s : ℕ) : List (Arc L W) :=
  labels[s]?.toList.map fun label => ⟨label, label, 1, s + 1⟩

/- The states are in a line, with an arc from each to the next one. -/
structure Line (labels : List L) (fst : VectorFst L W) : Prop where
  start : fst.start = some 0
  numStates : fst.numStates = labels.length + 1
  arcs : fst.arcs = lineArcs labels

/- The acceptor of one string. -/
structure Linear (labels : List L) (weight : W) (fst : VectorFst L W) : Prop
    extends Line labels fst where
  final : fst.finalWeight = fun s => if s = labels.length then weight else 0

theorem lineArcs_concat (labels : List L) (label : L) :
    lineArcs (W := W) (labels ++ [label]) = Function.update (lineArcs labels) labels.length
      [⟨label, label, 1, labels.length + 1⟩] := by
  funext s
  unfold lineArcs
  rw [Function.update_apply, List.getElem?_append]
  split
  · next hlt => rw [if_neg (by omega)]
  · next hge =>
    split
    · next heq =>
      subst heq
      simp
    · next hne =>
      have hnone : [label][s - labels.length]? = none := List.getElem?_eq_none (by simp; omega)
      have hnone' : labels[s]? = none := List.getElem?_eq_none (by omega)
      rw [hnone, hnone']

theorem lineArcs_length (labels : List L) : lineArcs (W := W) labels labels.length = [] := by
  unfold lineArcs
  rw [List.getElem?_eq_none le_rfl]
  rfl

theorem line_addLabel (label : L) (h : Line labels fst) (hfinal : fst.finalWeight = fun _ => 0)
    (hhonest : Honest fst) :
    Line (labels ++ [label]) (addLabel (fst, labels.length) label).1 ∧
      (addLabel (fst, labels.length) label).1.finalWeight = (fun _ => 0) ∧
      (addLabel (fst, labels.length) label).2 = (labels ++ [label]).length ∧
      Honest (addLabel (fst, labels.length) label).1 := by
  have hgrown : fst.addState.numStates = labels.length + 2 := by
    have hnum := h.numStates
    unfold VectorFst.addState VectorFst.numStates at *
    rw [List.length_append, hnum]
    rfl
  have hlt : labels.length < fst.addState.states.length := by
    change labels.length < fst.addState.numStates
    omega
  have hsome := List.getElem?_eq_getElem hlt
  have harcs : fst.addState.arcs = lineArcs labels := (VectorFst.arcs_addStates fst 1).trans h.arcs
  have hempty : (fst.addState.states[labels.length]).arcs = [] := by
    rw [← VectorFst.arcs_of_getElem? hsome, harcs, lineArcs_length]
  unfold addLabel
  dsimp only
  rw [h.numStates]
  refine ⟨⟨?_, ?_, ?_⟩, ?_, ?_, honest_addArc (honest_addStates hhonest 1) _ _⟩
  · rw [VectorFst.addArc_start]
    exact h.start
  · rw [VectorFst.numStates_addArc, hgrown, List.length_append]
    rfl
  · rw [VectorFst.arcs_addArc _ hsome, hempty, harcs, lineArcs_concat]
    rfl
  · rw [VectorFst.finalWeight_addArc]
    exact (VectorFst.finalWeight_addStates fst 1).trans hfinal
  · rw [List.length_append]
    rfl

theorem line_foldl (rest : List L) (h : Line labels fst) (hfinal : fst.finalWeight = fun _ => 0)
    (hhonest : Honest fst) :
    Line (labels ++ rest) (rest.foldl addLabel (fst, labels.length)).1 ∧
      (rest.foldl addLabel (fst, labels.length)).1.finalWeight = (fun _ => 0) ∧
      (rest.foldl addLabel (fst, labels.length)).2 = (labels ++ rest).length ∧
      Honest (rest.foldl addLabel (fst, labels.length)).1 := by
  induction rest generalizing labels fst with
  | nil =>
    rw [List.append_nil]
    exact ⟨h, hfinal, rfl, hhonest⟩
  | cons label rest ih =>
    obtain ⟨hline, hfinal, hstate, hhonest⟩ := line_addLabel label h hfinal hhonest
    have hnext : addLabel (fst, labels.length) label =
        ((addLabel (fst, labels.length) label).1, (labels ++ [label]).length) :=
      Prod.ext rfl hstate
    rw [List.foldl_cons, hnext, List.append_cons]
    exact ih hline hfinal hhonest

/- What there is before the first arc. -/
theorem line_start (fst : VectorFst L W) :
    Line [] (fst.deleteAllStates.addState.setStart (some 0)) ∧
      (fst.deleteAllStates.addState.setStart (some 0)).finalWeight = (fun _ => 0) ∧
      Honest (fst.deleteAllStates.addState.setStart (some 0)) := by
  refine ⟨⟨rfl, rfl, ?_⟩, ?_, honest_setStart (honest_addStates (honest_deleteAllStates fst) 1) _⟩
  · change (fst.deleteAllStates.addStates 1).arcs = _
    rw [VectorFst.arcs_addStates]
    rfl
  · change (fst.deleteAllStates.addStates 1).finalWeight = _
    rw [VectorFst.finalWeight_addStates]
    rfl

variable (labels fst weight) in
theorem compileLabels_linear : Linear labels weight (compileLabels labels fst weight) ∧
    ∃ built : VectorFst L W, Linear labels weight built ∧ Honest built ∧
      compileLabels labels fst weight =
        built.setProperties kCompiledStringProperties kCompiledStringProperties := by
  obtain ⟨hstart, hnone, hhonest⟩ := line_start fst
  obtain ⟨hline, hfinal, hstate, hhonest⟩ := line_foldl labels hstart hnone hhonest
  rw [List.nil_append] at hline hstate
  change _ = labels.length at hstate
  have hnum : fst.deleteAllStates.numStates = 0 := rfl
  unfold compileLabels
  dsimp only
  rw [hnum]
  change Line labels (labels.foldl addLabel (fst.deleteAllStates.addState.setStart (some 0), 0)).1
    at hline
  generalize labels.foldl addLabel (fst.deleteAllStates.addState.setStart (some 0), 0) = built
    at *
  obtain ⟨built, state⟩ := built
  obtain rfl : state = labels.length := hstate
  have hlt : labels.length < built.numStates := by
    rw [hline.numStates]
    omega
  have hlinear : Linear labels weight (built.setFinal labels.length weight) := by
    refine ⟨⟨?_, ?_, ?_⟩, ?_⟩
    · rw [VectorFst.start_setFinal]
      exact hline.start
    · rw [VectorFst.numStates_setFinal]
      exact hline.numStates
    · rw [VectorFst.arcs_setFinal]
      exact hline.arcs
    · rw [VectorFst.finalWeight_setFinal weight hlt]
      funext s
      rw [Function.update_apply]
      exact if_congr Iff.rfl rfl (congrFun hfinal s)
  exact ⟨⟨⟨hlinear.start, hlinear.numStates, hlinear.arcs⟩, hlinear.final⟩, _, hlinear,
    honest_setFinal hhonest _ _, rfl⟩

theorem Line.mem_arcs (h : Line labels fst) {s : ℕ} {arc : Arc L W} :
    arc ∈ fst.arcs s ↔ ∃ label, labels[s]? = some label ∧ arc = ⟨label, label, 1, s + 1⟩ := by
  rw [h.arcs]
  unfold lineArcs
  cases labels[s]? with
  | none => simp
  | some label => simp

theorem Line.map_arcs (h : Line labels fst) (label : Arc L W → L) (s : ℕ) :
    (fst.arcs s).map label = [] ∨ ∃ x, (fst.arcs s).map label = [x] := by
  rw [h.arcs]
  unfold lineArcs
  cases labels[s]? with
  | none => exact Or.inl rfl
  | some x => exact Or.inr ⟨_, rfl⟩

theorem Line.uniqueLabels (h : Line labels fst) (label : Arc L W → L) : UniqueLabels label fst := by
  intro s
  rcases h.map_arcs label s with hnil | ⟨x, hx⟩
  · rw [hnil]
    exact List.nodup_nil
  · rw [hx]
    exact List.nodup_singleton x

theorem Line.sortedLabels (h : Line labels fst) (label : Arc L W → L) : SortedLabels label fst := by
  intro s
  rcases h.map_arcs label s with hnil | ⟨x, hx⟩
  · rw [hnil]
    exact List.isChain_nil
  · rw [hx]
    exact List.isChain_singleton x

theorem Line.topSorted (h : Line labels fst) : Holds fst .topSorted := by
  intro s arc harc
  obtain ⟨label, -, rfl⟩ := h.mem_arcs.mp harc
  exact Nat.lt_succ_self s

theorem Line.lt_of_reaches (h : Line labels fst) {s t : ℕ} (hst : TransGen (Step fst) s t) :
    s < t := by
  induction hst with
  | single hstep =>
    obtain ⟨arc, harc, rfl⟩ := hstep
    exact h.topSorted _ arc harc
  | tail _ hstep ih =>
    obtain ⟨arc, harc, rfl⟩ := hstep
    exact ih.trans (h.topSorted _ arc harc)

theorem Line.step (h : Line labels fst) {s : ℕ} (hs : s < labels.length) : Step fst s (s + 1) :=
  ⟨_, h.mem_arcs.mpr ⟨_, List.getElem?_eq_getElem hs, rfl⟩, rfl⟩

theorem Line.reaches (h : Line labels fst) {s t : ℕ} (hst : s ≤ t) (ht : t ≤ labels.length) :
    ReflTransGen (Step fst) s t := by
  induction t, hst using Nat.le_induction with
  | base => exact .refl
  | succ t _ ih => exact (ih (by omega)).tail (h.step (by omega))

theorem Linear.coAccessible (h : Linear labels weight fst) (hweight : weight ≠ 0) :
    Holds fst .coAccessible := by
  intro s hs
  rw [h.numStates] at hs
  refine ⟨labels.length, h.reaches (by omega) le_rfl, ?_⟩
  rw [h.final]
  dsimp only
  rwa [if_pos rfl]

theorem Linear.string (h : Linear labels weight fst) (hweight : weight ≠ 0) :
    Holds fst .string := by
  refine ⟨fun start hstart => ?_, fun s hs => ⟨fun arc harc => ?_, fun hfinal => ?_, fun hfinal => ?_⟩⟩
  · exact Option.some.inj (hstart.symm.trans h.start)
  · obtain ⟨label, -, rfl⟩ := h.mem_arcs.mp harc
    rfl
  · rw [h.final] at hfinal
    rw [h.numStates]
    by_contra hne
    exact hfinal (if_neg (by omega))
  · rw [h.final] at hfinal
    dsimp only at hfinal
    rw [h.numStates] at hs
    have hlt : s < labels.length := by
      rcases Nat.lt_or_ge s labels.length with hlt | hge
      · exact hlt
      · rw [if_pos (by omega)] at hfinal
        exact absurd hfinal hweight
    rw [VectorFst.numArcs_eq, h.arcs]
    unfold lineArcs
    rw [List.getElem?_eq_getElem hlt]
    rfl

/- Only the final weight may be one that is neither Zero nor One. -/
theorem Linear.unweighted (h : Linear labels weight fst) (hweight : weight = 1) :
    ¬ Holds fst .weighted := by
  rintro (⟨s, arc, harc, -, hone⟩ | ⟨s, hzero, hone⟩)
  · obtain ⟨label, -, rfl⟩ := h.mem_arcs.mp harc
    exact hone rfl
  · rw [h.final] at hzero hone
    dsimp only at hzero hone
    split at hzero
    · exact hone (by rw [if_pos ‹_›, hweight])
    · exact hzero rfl

theorem Linear.unweightedCycles (h : Linear labels weight fst) :
    ¬ Holds fst .weightedCycles := by
  rintro ⟨s, arc, harc, ⟨-, hone⟩, -⟩
  obtain ⟨label, -, rfl⟩ := h.mem_arcs.mp harc
  exact hone rfl

/- The properties that are stamped on what is compiled. -/
theorem Linear.stamped (h : Linear labels weight fst) (hweight : weight ≠ 0) (p : TrinaryProperty) :
    (Held kCompiledStringProperties p.positive → Holds fst p) ∧
      (Held kCompiledStringProperties p.negative → (p = .weighted → weight = 1) →
        ¬ Holds fst p) := by
  have hout : ∀ {bits : BitVec 64} {P : Prop}, kCompiledStringProperties &&& bits = 0 →
      Held kCompiledStringProperties bits → P := fun hzero hheld => absurd hzero hheld
  have hacyclic : ∀ s, ¬ TransGen (Step fst) s s := fun s hs =>
    absurd (h.lt_of_reaches hs) (lt_irrefl s)
  cases p with
  | acceptor =>
    refine ⟨fun _ s arc harc => ?_, hout (by decide)⟩
    obtain ⟨label, -, rfl⟩ := h.mem_arcs.mp harc
    rfl
  | iDeterministic => exact ⟨fun _ => h.uniqueLabels _, hout (by decide)⟩
  | oDeterministic => exact ⟨fun _ => h.uniqueLabels _, hout (by decide)⟩
  | epsilons => exact ⟨hout (by decide), hout (by decide)⟩
  | iEpsilons => exact ⟨hout (by decide), hout (by decide)⟩
  | oEpsilons => exact ⟨hout (by decide), hout (by decide)⟩
  | iLabelSorted => exact ⟨fun _ => h.sortedLabels _, hout (by decide)⟩
  | oLabelSorted => exact ⟨fun _ => h.sortedLabels _, hout (by decide)⟩
  | weighted => exact ⟨hout (by decide), fun _ hone => h.unweighted (hone rfl)⟩
  | cyclic => exact ⟨hout (by decide), fun _ _ ⟨s, hs⟩ => hacyclic s hs⟩
  | initialCyclic => exact ⟨hout (by decide), fun _ _ ⟨s, _, hs⟩ => hacyclic s hs⟩
  | topSorted => exact ⟨fun _ => h.topSorted, hout (by decide)⟩
  | accessible =>
    refine ⟨fun _ s hs => ⟨0, h.start, h.reaches (Nat.zero_le s) ?_⟩, hout (by decide)⟩
    rw [h.numStates] at hs
    omega
  | coAccessible => exact ⟨fun _ => h.coAccessible hweight, hout (by decide)⟩
  | string => exact ⟨fun _ => h.string hweight, hout (by decide)⟩
  | weightedCycles => exact ⟨hout (by decide), fun _ _ => h.unweightedCycles⟩

/- Every bit is true, but that the FST is unweighted is so only where its final weight is One. -/
theorem compileLabels_bits (labels : List L) (fst : VectorFst L W) (hweight : weight ≠ 0)
    (p : TrinaryProperty) :
    (Held (compileLabels labels fst weight).properties p.positive →
      Holds (compileLabels labels fst weight) p) ∧
    (Held (compileLabels labels fst weight).properties p.negative → (p = .weighted → weight = 1) →
      ¬ Holds (compileLabels labels fst weight) p) := by
  obtain ⟨-, built, hlinear, hhonest, heq⟩ := compileLabels_linear labels fst weight
  rw [heq]
  unfold VectorFst.setProperties
  dsimp only
  rw [holds_properties, BitVec.and_self]
  obtain ⟨hpos, hneg⟩ := hlinear.stamped hweight p
  constructor
  · intro hbit
    rcases held_or hbit with hold | hnew
    · exact (hhonest p).1 (held_and hold).1
    · exact hpos hnew
  · intro hbit hone
    rcases held_or hbit with hold | hnew
    · exact (hhonest p).2 (held_and hold).1
    · exact hneg hnew hone

end Compiling

section Reading

variable {L W : Type} [ArcLabel L] [Zero W] [One W] [Mul W] [DecidableEq W] {fst : SourceFst L W}
  {s t t' n fuel steps : ℕ} {path path' : List (Arc L W)} {labels : List L} {weight : W}
  {result : Except StringError (List L × W)}

/- Single arcs, out of states that are not final. -/
inductive Follows (fst : SourceFst L W) : ℕ → List (Arc L W) → ℕ → Prop
  | nil (s : ℕ) : Follows fst s [] s
  | cons {s t : ℕ} {arc : Arc L W} {path : List (Arc L W)} (hfinal : fst.finalWeight s = 0)
      (harcs : fst.arcs s = [arc]) (hrest : Follows fst arc.nextstate path t) :
      Follows fst s (arc :: path) t

def Accepting (fst : SourceFst L W) (t : ℕ) : Prop := fst.finalWeight t ≠ 0 ∧ fst.arcs t = []

/- The states are those below `n`. -/
structure Counts (fst : SourceFst L W) (n : ℕ) : Prop where
  start : ∀ s, fst.start = some s → s < n
  next : ∀ s < n, ∀ arc ∈ fst.arcs s, arc.nextstate < n

/- The walk comes to a state from which it does not go on. -/
def Ends (fst : SourceFst L W) : Prop :=
  ∀ s, fst.start = some s → ∃ path t, Follows fst s path t ∧
    ¬ (fst.finalWeight t = 0 ∧ ∃ arc, fst.arcs t = [arc])

/- What is read off a path. -/
def readPath (fst : SourceFst L W) (labels : List L) (weight : W) (path : List (Arc L W)) (t : ℕ) :
    List L × W :=
  (labels ++ path.map (·.olabel),
    path.foldl (fun weight arc => weight * arc.weight) weight * fst.finalWeight t)

theorem follow_arc {arc : Arc L W} (hfinal : fst.finalWeight s = 0) (harcs : fst.arcs s = [arc]) :
    follow fst (fuel + 1) s labels weight steps =
      if fst.numStatesIfKnown.any fun n => n < steps + 1 then
        some (.error (.invalidOperation
          "StringFstToOutputLabels: the FST is not a string; the path is cyclic"))
      else follow fst fuel arc.nextstate (labels ++ [arc.olabel]) (weight * arc.weight)
        (steps + 1) := by
  rw [follow, if_pos hfinal, harcs]

/- A walk that gets to its end has followed single arcs to an accepting state. -/
theorem path_of_follow {read : List L × W}
    (h : follow fst fuel s labels weight steps = some (.ok read)) :
    ∃ path t, Follows fst s path t ∧ Accepting fst t ∧ read = readPath fst labels weight path t := by
  induction fuel generalizing s labels weight steps with
  | zero => cases h
  | succ fuel ih =>
    by_cases hfinal : fst.finalWeight s = 0
    · match harcs : fst.arcs s with
      | [] =>
        rw [follow, if_pos hfinal, harcs] at h
        cases h
      | [arc] =>
        rw [follow_arc hfinal harcs] at h
        split at h
        · cases h
        · obtain ⟨path, t, hpath, ht, rfl⟩ := ih h
          refine ⟨arc :: path, t, .cons hfinal harcs hpath, ht, ?_⟩
          unfold readPath
          rw [List.append_assoc]
          rfl
      | _ :: _ :: _ =>
        rw [follow, if_pos hfinal, harcs] at h
        cases h
    · rw [follow, if_neg hfinal] at h
      split at h
      · cases h
      · next hnil =>
        cases h
        exact ⟨[], s, .nil s, ⟨hfinal, not_not.mp hnil⟩, by unfold readPath; simp⟩

theorem follow_accepting (ht : Accepting fst t) :
    follow fst (fuel + 1) t labels weight steps = some (.ok (readPath fst labels weight [] t)) := by
  rw [follow, if_neg ht.1, if_neg (not_not.mpr ht.2)]
  unfold readPath
  simp

/- No two ways of following single arcs lead to an accepting state. -/
theorem path_unique (h : Follows fst s path t) (ht : Accepting fst t)
    (h' : Follows fst s path' t') (ht' : Accepting fst t') : path = path' := by
  induction h generalizing path' with
  | nil s =>
    cases h' with
    | nil => rfl
    | cons hfinal _ _ => exact absurd hfinal ht.1
  | cons hfinal harcs _ ih =>
    cases h' with
    | nil => exact absurd hfinal ht'.1
    | cons _ harcs' hrest' =>
      obtain rfl := List.singleton_inj.mp (harcs.symm.trans harcs')
      rw [ih ht hrest']

/- The states that a path leaves. -/
theorem exists_suffix (h : Follows fst s path t) {u : ℕ}
    (hu : u ∈ path.map (·.nextstate)) : ∃ rest : List (Arc L W), rest.length < path.length ∧
      Follows fst u rest t := by
  induction h with
  | nil s => cases hu
  | @cons s t arc path hfinal harcs hrest ih =>
    rcases List.mem_cons.mp hu with rfl | hu
    · exact ⟨path, Nat.lt_succ_self _, hrest⟩
    · obtain ⟨rest, hlt, hfollows⟩ := ih hu
      exact ⟨rest, hlt.trans (Nat.lt_succ_self _), hfollows⟩

/- A path to an accepting state meets no state twice. -/
theorem path_nodup (h : Follows fst s path t) (ht : Accepting fst t) :
    (s :: path.map (·.nextstate)).Nodup := by
  induction h with
  | nil s => exact List.nodup_singleton s
  | @cons s t arc path hfinal harcs hrest ih =>
    refine List.nodup_cons.mpr ⟨fun hmem => ?_, ih ht⟩
    have hwhole : Follows fst s (arc :: path) t := .cons hfinal harcs hrest
    obtain ⟨rest, hlt, hfollows⟩ := exists_suffix hwhole hmem
    rw [path_unique hwhole ht hfollows ht] at hlt
    exact absurd hlt (lt_irrefl _)

theorem path_states (hcounts : Counts fst n) (h : Follows fst s path t) (hs : s < n) :
    ∀ u ∈ s :: path.map (·.nextstate), u < n := by
  induction h with
  | nil s =>
    intro u hu
    rw [List.mem_singleton.mp hu]
    exact hs
  | @cons s t arc path hfinal harcs hrest ih =>
    have hnext : arc.nextstate < n := hcounts.next s hs arc (harcs ▸ List.mem_singleton_self arc)
    intro u hu
    rcases List.mem_cons.mp hu with rfl | hu
    · exact hs
    · exact ih hnext u hu

/- Which is why it has fewer arcs than there are states. -/
theorem path_length (hcounts : Counts fst n) (h : Follows fst s path t) (ht : Accepting fst t)
    (hs : s < n) : path.length < n := by
  have hsub : (s :: path.map (·.nextstate)).Subperm (List.range n) :=
    List.subperm_of_subset (path_nodup h ht)
      fun u hu => List.mem_range.mpr (path_states hcounts h hs u hu)
  have hle := hsub.length_le
  rw [List.length_cons, List.length_map, List.length_range] at hle
  omega

theorem result_of_path (h : Follows fst s path t) (ht : Accepting fst t)
    (hknown : ∀ n, fst.numStatesIfKnown = some n → steps + path.length ≤ n)
    (hresult : follow fst fuel s labels weight steps = some result) :
    result = .ok (readPath fst labels weight path t) := by
  induction h generalizing fuel labels weight steps with
  | nil s =>
    cases fuel with
    | zero => cases hresult
    | succ fuel => exact Option.some.inj (hresult.symm.trans (follow_accepting ht))
  | @cons s t arc path hfinal harcs hrest ih =>
    cases fuel with
    | zero => cases hresult
    | succ fuel =>
      rw [List.length_cons] at hknown
      have hcut : ¬ (fst.numStatesIfKnown.any fun n => n < steps + 1) = true := by
        rw [Option.any_eq_true]
        rintro ⟨n, hn, hlt⟩
        have hle := hknown n hn
        have hlt' := of_decide_eq_true hlt
        omega
      rw [follow_arc hfinal harcs, if_neg hcut] at hresult
      rw [ih ht (fun n hn => by have := hknown n hn; omega) hresult]
      unfold readPath
      rw [List.append_assoc]
      rfl

/- With a number of states the walk is cut off in time. -/
theorem follow_known (hn : fst.numStatesIfKnown = some n) (hsteps : steps ≤ n)
    (hfuel : n < fuel + steps) : ∃ result, follow fst fuel s labels weight steps = some result := by
  induction fuel generalizing s labels weight steps with
  | zero => omega
  | succ fuel ih =>
    by_cases hfinal : fst.finalWeight s = 0
    · match harcs : fst.arcs s with
      | [] => exact ⟨_, by rw [follow, if_pos hfinal, harcs]⟩
      | [arc] =>
        rw [follow_arc hfinal harcs, hn]
        by_cases hcut : n < steps + 1
        · exact ⟨_, if_pos (decide_eq_true hcut)⟩
        · obtain ⟨result, hresult⟩ := @ih arc.nextstate (steps + 1) (labels ++ [arc.olabel])
            (weight * arc.weight) (by omega) (by omega)
          refine ⟨result, ?_⟩
          rw [if_neg (by simpa using hcut), hresult]
      | _ :: _ :: _ => exact ⟨_, by rw [follow, if_pos hfinal, harcs]⟩
    · rw [follow, if_neg hfinal]
      split
      · exact ⟨_, rfl⟩
      · exact ⟨_, rfl⟩

theorem follow_ends (h : Follows fst s path t)
    (hends : ¬ (fst.finalWeight t = 0 ∧ ∃ arc, fst.arcs t = [arc])) :
    ∃ fuel result, follow fst fuel s labels weight steps = some result := by
  induction h generalizing labels weight steps with
  | nil s =>
    refine ⟨1, ?_⟩
    by_cases hfinal : fst.finalWeight s = 0
    · match harcs : fst.arcs s with
      | [] => exact ⟨_, by rw [follow, if_pos hfinal, harcs]⟩
      | [arc] => exact absurd ⟨hfinal, arc, harcs⟩ hends
      | _ :: _ :: _ => exact ⟨_, by rw [follow, if_pos hfinal, harcs]⟩
    · rw [follow, if_neg hfinal]
      split
      · exact ⟨_, rfl⟩
      · exact ⟨_, rfl⟩
  | @cons s t arc path hfinal harcs hrest ih =>
    obtain ⟨fuel, result, hresult⟩ := @ih (steps + 1) (labels ++ [arc.olabel])
      (weight * arc.weight) hends
    refine ⟨fuel + 1, ?_⟩
    rw [follow_arc hfinal harcs]
    split
    · exact ⟨_, rfl⟩
    · exact ⟨result, hresult⟩

/- The walk comes to an end where the states can be counted, or where it does of itself. -/
theorem read_terminates (h : fst.numStatesIfKnown.isSome ∨ Ends fst) :
    ∃ fuel result, stringFstToOutputLabels fuel fst = some result := by
  unfold stringFstToOutputLabels
  cases hstart : fst.start with
  | none => exact ⟨0, _, rfl⟩
  | some s =>
    rcases h with hknown | hends
    · obtain ⟨n, hn⟩ := Option.isSome_iff_exists.mp hknown
      obtain ⟨result, hresult⟩ := follow_known hn (Nat.zero_le n)
        (Nat.lt_succ_self n)
      exact ⟨n + 1, result, hresult⟩
    · obtain ⟨path, t, hpath, hstop⟩ := hends s hstart
      exact follow_ends hpath hstop

/- What it comes to is the one string there is, if there is one. -/
theorem read_ok_iff (hcounts : ∀ n, fst.numStatesIfKnown = some n → Counts fst n)
    (h : stringFstToOutputLabels fuel fst = some result) (read : List L × W) :
    result = .ok read ↔ ∃ s path t, fst.start = some s ∧ Follows fst s path t ∧ Accepting fst t ∧
      read = readPath fst [] 1 path t := by
  unfold stringFstToOutputLabels at h
  cases hstart : fst.start with
  | none =>
    rw [hstart] at h
    cases h
    constructor
    · intro heq
      cases heq
    · rintro ⟨s, -, -, hs, -⟩
      cases hs
  | some s =>
    rw [hstart] at h
    constructor
    · rintro rfl
      obtain ⟨path, t, hpath, ht, heq⟩ := path_of_follow h
      exact ⟨s, path, t, rfl, hpath, ht, heq⟩
    · rintro ⟨s', path, t, hs, hpath, ht, rfl⟩
      obtain rfl := Option.some.inj hs
      refine result_of_path hpath ht (fun n hn => ?_) h
      have hlt := path_length (hcounts n hn) hpath ht ((hcounts n hn).start s hstart)
      omega

end Reading

section Printing

open Io SymbolTableText LabelsExact SymbolTableImpl

variable {L : Type} [ArcLabel L] [LabelCode L] [ToString L] [StringLabel L]
  {getHash : String → ℕ} {syms : Option SymbolTableImpl} {unknown : UnknownSymbol L}
  {labels : List L} {label : L} {text : List UInt8} {names : List String} {name sep : String}

theorem eq_epsilon (h : LabelCode.toI64 label = 0) : label = epsilon := by
  have hkey := StringLabel.key_eq label
  rw [h] at hkey
  have hlabel := (ArcLabel.fromI64_eq_some 0 label).mpr hkey
  have hepsilon := (ArcLabel.fromI64_eq_some 0 (epsilon : L)).mpr ArcLabel.toI64_epsilon
  exact Option.some.inj (hlabel.symm.trans hepsilon)

theorem writeBytes_labels (h : ∀ label ∈ (byteStringToLabels text : List L), label ≠ epsilon)
    (index : ℕ) : writeBytes index (byteStringToLabels text : List L) = .ok text := by
  induction text generalizing index with
  | nil => rfl
  | cons byte text ih =>
    have hcode := StringLabel.toI64_ofByte (L := L) byte
    have hpos : byte.toNat ≠ 0 := fun hzero =>
      h _ List.mem_cons_self (eq_epsilon (by rw [hcode, hzero]; rfl))
    have hlt := byte.toNat_lt
    change writeBytes index (StringLabel.ofByte byte :: byteStringToLabels text) = _
    rw [writeBytes, hcode, if_neg (by omega), if_neg (by omega), if_neg (by omega),
      ih (fun label hlabel => h label (List.mem_cons_of_mem _ hlabel))]
    simp
    rfl

/- A symbol that is its label's own, in the table or else as an integer. -/
def OwnSymbol (getHash : String → ℕ) (syms : Option SymbolTableImpl) (name : String) : Prop :=
  match syms with
  | some syms => syms.findKey getHash name ≠ some kNoSymbol
  | none => ∃ key : ℤ, -2 ^ 63 ≤ key ∧ key ≤ maxI64 ∧ name = toString key

theorem toI64_of_labelOfKey {key : ℤ} (h : labelOfKey key = .ok label) :
    LabelCode.toI64 label = key := by
  unfold labelOfKey at h
  split at h
  · next label' hlabel =>
    cases h
    have hkey := (ArcLabel.fromI64_eq_some key label).mp hlabel
    rw [StringLabel.key_eq] at hkey
    exact Option.some.inj hkey
  · cases h

theorem parseInt64_toString {key : ℤ} (hlow : -2 ^ 63 ≤ key) (hhigh : key ≤ maxI64) :
    parseInt64 (toString key).toList = some key := by
  unfold parseInt64
  rw [if_neg, parseI64_toString hlow hhigh]
  intro hplus
  rcases key_char (List.mem_of_mem_head? hplus) with hdigit | hminus
  · exact absurd hdigit (by decide)
  · exact absurd hminus (by decide)

/- What is looked up is what it is looked up by. -/
theorem labelToSymbol_own (hsyms : ∀ t, syms = some t → Keyed getHash t)
    (hown : OwnSymbol getHash syms name)
    (h : symbolToLabel getHash syms unknown name = some (.ok label)) :
    labelToSymbol syms label = .ok name := by
  cases syms with
  | some t =>
    obtain ⟨key, hkey, hlabel⟩ := Option.map_eq_some_iff.mp h
    have hne : key ≠ kNoSymbol := fun heq => hown (hkey.trans (congrArg some heq))
    rw [if_neg hne] at hlabel
    have hcode := toI64_of_labelOfKey hlabel
    obtain ⟨i, hi, hname⟩ := ((hsyms t rfl).findKey_iff hne).mp hkey
    have hsymbol := (hsyms t rfl).findSymbol_iff.mpr ⟨i, hi, hname⟩
    unfold labelToSymbol
    rw [StringLabel.key_eq, hcode]
    dsimp only
    rw [hsymbol]
  | none =>
    obtain ⟨key, hlow, hhigh, rfl⟩ := hown
    have hlabel := Option.some.inj h
    rw [parseInt64_toString hlow hhigh] at hlabel
    have hcode := toI64_of_labelOfKey hlabel
    unfold labelToSymbol
    rw [StringLabel.text_eq, hcode]

theorem forall₂_symbolsToLabels
    (h : symbolsToLabels getHash syms unknown names = some (.ok labels)) :
    List.Forall₂ (fun name label => symbolToLabel getHash syms unknown name = some (.ok label))
      names labels := by
  induction names generalizing labels with
  | nil =>
    cases h
    exact .nil
  | cons name names ih =>
    obtain ⟨first, hfirst, hrest⟩ := Option.bind_eq_some_iff.mp h
    cases first with
    | error error => cases hrest
    | ok label =>
      obtain ⟨others, hothers, heq⟩ := Option.map_eq_some_iff.mp hrest
      cases others with
      | error error => cases heq
      | ok others =>
        cases heq
        exact .cons hfirst (ih hothers)

/- Symbols one after the other, with `sep` between them. -/
def joined (sep : String) : List String → String → List UInt8
  | [], _ => []
  | name :: names, delim => asBytes delim ++ asBytes name ++ joined sep names sep

theorem writeSymbols_joined (omitEpsilon : Bool) {delim : String}
    (h : List.Forall₂ (fun name label => labelToSymbol syms label = .ok name) names labels)
    (hne : ∀ label ∈ labels, label ≠ epsilon) :
    writeSymbols syms sep omitEpsilon labels delim = .ok (joined sep names delim) := by
  induction h generalizing delim with
  | nil => rfl
  | @cons name label names labels hname _ ih =>
    rw [writeSymbols, if_neg (fun hskip => hne label List.mem_cons_self hskip.2), hname]
    dsimp only
    rw [ih fun label' hlabel' => hne label' (List.mem_cons_of_mem _ hlabel')]
    rfl

theorem asBytes_empty : asBytes "" = [] := rfl

theorem joined_eq (sep : String) (columns : List (List Char)) :
    joined sep (columns.map String.ofList) "" =
      asBytes (String.ofList (sep.toList.intercalate columns)) := by
  have hbytes : ∀ delim columns, joined sep (List.map String.ofList columns) delim =
      (match columns with
        | [] => []
        | _ :: _ => asBytes delim) ++ asBytes (String.ofList (sep.toList.intercalate columns)) := by
    intro delim columns
    induction columns generalizing delim with
    | nil => simp [joined, asBytes_empty]
    | cons first columns ih =>
      rw [List.map_cons, joined, ih]
      cases columns with
      | nil => simp [asBytes_empty]
      | cons second columns =>
        rw [List.intercalate_cons_cons, asBytes_ofList, asBytes_ofList, asBytes_ofList]
        have hsep : asBytes sep = sep.toList.flatMap String.utf8EncodeChar := by
          rw [← asBytes_ofList, String.ofList_toList]
        simp [hsep]
  rw [hbytes]
  cases columns with
  | nil => rfl
  | cons first columns => rfl

/- The text has one separator, if any. -/
def OneSeparator (sep : String) (c : Char) (text : String) : Prop :=
  (c = '\n' ∨ c ∈ sep.toList) ∧ ∀ x ∈ text.toList, x = '\n' ∨ x ∈ sep.toList → x = c

/- The text with no separator twice, nor at its ends. -/
def separated (c : Char) (text : String) : String :=
  String.ofList ([c].intercalate (columns [c] text.toList))

theorem splitOnP_congr {p q : Char → Bool} {xs : List Char} (h : ∀ x ∈ xs, p x = q x) :
    xs.splitOnP p = xs.splitOnP q := by
  induction xs with
  | nil => rfl
  | cons x xs ih =>
    rw [List.splitOnP_cons_eq_if_modifyHead, List.splitOnP_cons_eq_if_modifyHead,
      h x List.mem_cons_self, ih fun y hy => h y (List.mem_cons_of_mem x hy)]

theorem tokens_eq {c : Char} {text : String} (h : OneSeparator sep c text) :
    tokens sep text = (columns [c] text.toList).map String.ofList := by
  unfold tokens columns
  rw [splitOnP_congr fun x hx => ?_]
  rw [decide_eq_decide, List.mem_cons, List.mem_singleton]
  constructor
  · exact h.2 x hx
  · rintro rfl
    exact h.1

theorem outputSeparator_eq {sep : String} {c : Char} (h : sep.toList.getLast? = some c) :
    outputSeparator sep = String.ofList [c] := by
  unfold outputSeparator
  rw [h]
  rfl

/- The text is written as a printer writes it, but for its separators. -/
def PrinterForm (getHash : String → ℕ) (tokenType : TokenType) (syms : Option SymbolTableImpl)
    (sep : String) (text : List UInt8) : Prop :=
  match tokenType with
  | .byte => True
  | .utf8 => ∃ seqs, Splits announced text seqs ∧ ∀ s ∈ seqs, Shortest s
  | .symbol => ∀ s, fromUtf8 text = .ok s → ∀ name ∈ tokens sep s, OwnSymbol getHash syms name

/- What is left of the text when its labels are written out again. -/
def restored (tokenType : TokenType) (c : Char) (text : List UInt8) : List UInt8 :=
  match tokenType, fromUtf8 text with
  | .symbol, .ok s => asBytes (separated c s)
  | _, _ => text

theorem utf8_restored (h : stringToLabels getHash text .utf8 syms unknown sep = some (.ok labels))
    (hne : ∀ label ∈ labels, label ≠ epsilon)
    (hform : PrinterForm getHash .utf8 syms sep text) :
    Labels.labelsToUtf8String labels [] = (.ok (), text) := by
  obtain ⟨seqs, hseqs, hshort⟩ := hform
  have hread : Labels.utf8StringToLabels text [] = (.ok (), labels) := by
    unfold stringToLabels at h
    dsimp only at h
    split at h
    · next heq =>
      cases h
      exact heq
    · cases h
  obtain ⟨seqs', labels', hseqs', rfl, hcodes⟩ := splits_of_readLabels hread
  obtain rfl := splits_unique (splits_any hseqs) hseqs'
  refine restores text seqs hseqs (fun s hs => ⟨hshort s hs, fun hzero => ?_⟩) _ hread
  obtain ⟨i, hi⟩ := List.mem_iff_getElem?.mp hs
  obtain ⟨label, hlabel, hcode⟩ := ListLemmas.forall₂_left hcodes hi
  have hcode' := (LabelCode.tryFrom_eq_some _ _).mp hcode
  rw [hzero] at hcode'
  exact hne label (List.mem_of_getElem? hlabel) (eq_epsilon hcode')

theorem labelsToString_restored (hsyms : ∀ t, syms = some t → Keyed getHash t)
    {tokenType : TokenType}
    (h : stringToLabels getHash text tokenType syms unknown sep = some (.ok labels))
    (hne : ∀ label ∈ labels, label ≠ epsilon)
    (hform : PrinterForm getHash tokenType syms sep text) {c : Char} {sep' : String}
    (hone : tokenType = .symbol → sep'.toList.getLast? = some c ∧
      ∀ s, fromUtf8 text = .ok s → OneSeparator sep c s) (omitEpsilon : Bool) :
    labelsToString labels tokenType syms sep' omitEpsilon = .ok (restored tokenType c text) := by
  cases tokenType with
  | byte =>
    cases h
    exact writeBytes_labels hne 0
  | utf8 =>
    unfold labelsToString
    dsimp only
    rw [utf8_restored h hne hform]
    rfl
  | symbol =>
    unfold stringToLabels at h
    dsimp only at h
    cases htext : fromUtf8 text with
    | error error =>
      rw [htext] at h
      cases h
    | ok s =>
      rw [htext] at h
      obtain ⟨hsep, hone⟩ := hone rfl
      have htokens := tokens_eq (hone s htext)
      have hall := List.forall₂_iff_zip.mp (forall₂_symbolsToLabels h)
      have hnames : List.Forall₂ (fun name label => labelToSymbol syms label = .ok name)
          (tokens sep s) labels := by
        refine List.forall₂_iff_zip.mpr ⟨hall.1, fun {name label} hmem => ?_⟩
        exact labelToSymbol_own hsyms (hform s htext name (List.of_mem_zip hmem).1) (hall.2 hmem)
      unfold labelsToString restored
      rw [htext, writeSymbols_joined omitEpsilon hnames hne, htokens, outputSeparator_eq hsep,
        joined_eq, String.toList_ofList]
      rfl

end Printing

section Main

open Io LabelsExact SymbolTableImpl

variable {L W : Type} [ArcLabel L] [LabelCode L] [ToString L] [StringLabel L] [Zero W]
  [MulOneClass W] [DecidableEq W] {labels : List L} {weight : W} {fst : VectorFst L W}

/- The arcs from a state on. -/
def linePath : List L → ℕ → List (Arc L W)
  | [], _ => []
  | label :: labels, s => ⟨label, label, 1, s + 1⟩ :: linePath labels (s + 1)

theorem Linear.follows (h : Linear labels weight fst) {done rest : List L}
    (hlabels : labels = done ++ rest) :
    Follows (toSource fst) done.length (linePath rest done.length) labels.length := by
  induction rest generalizing done with
  | nil =>
    rw [hlabels, List.append_nil]
    exact .nil _
  | cons label rest ih =>
    have hget : labels[done.length]? = some label := by
      rw [hlabels, List.getElem?_append_right le_rfl, Nat.sub_self]
      rfl
    have hlt := (List.getElem?_eq_some_iff.mp hget).1
    have hrest := @ih (done ++ [label]) (by rw [hlabels, List.append_cons])
    rw [List.length_append, List.length_singleton] at hrest
    refine .cons ?_ ?_ hrest
    · change fst.finalWeight done.length = 0
      rw [h.final]
      exact if_neg (by omega)
    · change fst.arcs done.length = _
      rw [h.arcs]
      unfold lineArcs
      rw [hget]
      rfl

theorem linePath_read (rest : List L) (s : ℕ) (pathWeight : W) :
    (linePath (W := W) rest s).map (·.olabel) = rest ∧
      (linePath rest s).foldl (fun weight arc => weight * arc.weight) pathWeight = pathWeight := by
  induction rest generalizing s with
  | nil => exact ⟨rfl, rfl⟩
  | cons label rest ih =>
    obtain ⟨hlabels, hweight⟩ := ih (s + 1)
    refine ⟨congrArg (label :: ·) hlabels, ?_⟩
    rw [linePath, List.foldl_cons, mul_one, hweight]

/- The string is read off again. -/
theorem Linear.reads (h : Linear labels weight fst) (hweight : weight ≠ 0) :
    ∃ fuel, stringFstToOutputLabels fuel (toSource fst) = some (.ok (labels, weight)) := by
  have hknown : (toSource fst).numStatesIfKnown.isSome ∨ Ends (toSource fst) := Or.inl rfl
  obtain ⟨fuel, result, hresult⟩ := read_terminates hknown
  have hfinal : fst.finalWeight labels.length = weight := by
    rw [h.final]
    exact if_pos rfl
  have hcounts : ∀ n, (toSource fst).numStatesIfKnown = some n → Counts (toSource fst) n := by
    rintro n hn
    obtain rfl := Option.some.inj hn
    rw [h.numStates]
    refine ⟨fun s hs => ?_, fun s _ arc harc => ?_⟩
    · obtain rfl := Option.some.inj (hs.symm.trans h.start)
      exact Nat.succ_pos _
    · obtain ⟨label, hlabel, rfl⟩ := h.mem_arcs.mp harc
      exact Nat.succ_lt_succ (List.getElem?_eq_some_iff.mp hlabel).1
  have haccepting : Accepting (toSource fst) labels.length := by
    refine ⟨?_, ?_⟩
    · change fst.finalWeight labels.length ≠ 0
      rwa [hfinal]
    · change fst.arcs labels.length = []
      rw [h.arcs, lineArcs_length]
  have hlabels : labels = [] ++ labels := rfl
  have hfollows : Follows (toSource fst) 0 (linePath labels 0) labels.length := h.follows hlabels
  obtain ⟨hlabels, hone⟩ := linePath_read (W := W) labels 0 1
  refine ⟨fuel, hresult.trans (congrArg some ?_)⟩
  refine (read_ok_iff hcounts hresult (labels, weight)).mpr
    ⟨0, _, _, h.start, hfollows, haccepting, ?_⟩
  unfold readPath
  rw [hlabels, hone, one_mul, List.nil_append]
  exact congrArg (labels, ·) hfinal.symm

/- What is compiled from a text is its string and nothing else, and is written out as the text; what
is read off an FST is the one string it has. -/
theorem strings_faithful (getHash : String → ℕ) :
    (∀ tokenType syms (unknown : UnknownSymbol L) sep text (fst compiled : VectorFst L W) weight,
      (∀ t, syms = some t → Keyed getHash t) → weight ≠ 0 →
      compileWeighted getHash tokenType syms unknown sep text fst weight = some (.ok compiled) →
      ∃ labels, stringToLabels getHash text tokenType syms unknown sep = some (.ok labels) ∧
        Linear labels weight compiled ∧
        (∀ p : TrinaryProperty, (Held compiled.properties p.positive → Holds compiled p) ∧
          (Held compiled.properties p.negative → (p = .weighted → weight = 1) →
            ¬ Holds compiled p)) ∧
        ((∀ label ∈ labels, label ≠ epsilon) → PrinterForm getHash tokenType syms sep text →
          ∀ c sep' omitEpsilon, (tokenType = .symbol → sep'.toList.getLast? = some c ∧
            ∀ s, fromUtf8 text = .ok s → OneSeparator sep c s) →
          ∃ fuel, printWeighted fuel tokenType syms sep' omitEpsilon (toSource compiled) =
            some (.ok (restored tokenType c text, weight)))) ∧
    ∀ fst : SourceFst L W, (∀ n, fst.numStatesIfKnown = some n → Counts fst n) →
      (fst.numStatesIfKnown.isSome ∨ Ends fst →
        ∃ fuel result, stringFstToOutputLabels fuel fst = some result) ∧
      ∀ fuel result, stringFstToOutputLabels fuel fst = some result → ∀ read : List L × W,
        result = .ok read ↔ ∃ s path t, fst.start = some s ∧ Follows fst s path t ∧
          Accepting fst t ∧ read = readPath fst [] 1 path t := by
  refine ⟨fun tokenType syms unknown sep text fst compiled weight hsyms hweight hcompiled => ?_,
    fun fst hcounts => ⟨read_terminates, fun fuel result hresult => read_ok_iff hcounts hresult⟩⟩
  obtain ⟨labels, hlabels, heq⟩ := Option.map_eq_some_iff.mp hcompiled
  cases labels with
  | error error => cases heq
  | ok labels =>
    cases heq
    obtain ⟨hlinear, -⟩ := compileLabels_linear labels fst weight
    refine ⟨labels, hlabels, hlinear, compileLabels_bits labels fst hweight,
      fun hne hform c sep' omitEpsilon hone => ?_⟩
    obtain ⟨fuel, hread⟩ := hlinear.reads hweight
    refine ⟨fuel, ?_⟩
    unfold printWeighted
    rw [hread, Option.map_some]
    dsimp only
    rw [labelsToString_restored hsyms hlabels hne hform hone omitEpsilon]
    rfl

/- The string "ab" with a weight of its own. -/
theorem strings_faithful_bytes : ∃ fuel, printWeighted fuel .byte none "" false
    (toSource (compileLabels [97, 98] VectorFst.new (Tropical.trop 2) :
      VectorFst ℤ (Tropical (WithTop ℕ)))) = some (.ok ([97, 98], Tropical.trop 2)) := by
  have hne : (Tropical.trop 2 : Tropical (WithTop ℕ)) ≠ 0 := by decide
  obtain ⟨hcompiled, -⟩ :=
    strings_faithful (L := ℤ) (W := Tropical (WithTop ℕ)) fun _ => 0
  obtain ⟨labels, hlabels, -, -, hprints⟩ := hcompiled .byte none .refuse "" [97, 98]
    VectorFst.new _ _ (fun _ h => nomatch h) hne rfl
  obtain rfl : [97, 98] = labels := Except.ok.inj (Option.some.inj hlabels)
  exact hprints (by decide) True.intro 'a' "" false fun h => nomatch h

section Refused

/- An arc to a final state, from which another arc leads to the next final state. -/
def passing : SourceFst ℤ (Tropical (WithTop ℕ)) where
  start := some 0
  finalWeight s := if s = 0 then 0 else 1
  arcs s := if s < 2 then [⟨1, 1, 1, s + 1⟩] else []
  numStatesIfKnown := some 3

/- One state that is not final, with an arc to itself, of an FST that does not count its states. -/
def turning : SourceFst ℤ (Tropical (WithTop ℕ)) where
  start := some 0
  finalWeight _ := 0
  arcs _ := [⟨1, 1, 1, 0⟩]
  numStatesIfKnown := none

theorem follow_turning (fuel : ℕ) (labels : List ℤ) (weight : Tropical (WithTop ℕ)) (steps : ℕ) :
    follow turning fuel 0 labels weight steps = none := by
  induction fuel generalizing labels weight steps with
  | zero => rfl
  | succ fuel ih => exact ih _ _ _

theorem reads_overlong : Labels.utf8StringToLabels [0xc1, 0x81] [] = (.ok (), [(0x41 : ℤ)]) := by
  have hsplits : Splits announcedAny [0xc1, 0x81] [[0xc1, 0x81]] := by
    refine ⟨by decide, ?_⟩
    have htail : ∀ b ∈ ([0x81] : List UInt8), IsContinuation b := by
      unfold IsContinuation
      decide +kernel
    have hseq : Sequence announcedAny [0xc1, 0x81] := ⟨0xc1, _, rfl, by decide, htail⟩
    simpa using hseq
  exact readLabels_splits hsplits (List.Forall₂.cons rfl List.Forall₂.nil)

/- A sequence that is too long is printed as the shortest, leading zeros are dropped, and a state
that is final ends the walk. A weight stays out of the bits, and a cycle is walked for ever. -/
theorem strings_lost :
    (∃ compiled : VectorFst ℤ (Tropical (WithTop ℕ)),
      compileWeighted (fun _ => 0) .utf8 none .refuse "" [0xc1, 0x81] VectorFst.new 1 =
        some (.ok compiled) ∧
      printWeighted 3 .utf8 none "" false (toSource compiled) = some (.ok ([0x41], 1))) ∧
    stringToLabels (fun _ => 0) (asBytes "007") .symbol none .refuse " " =
      some (.ok [(7 : ℤ)]) ∧
    labelsToString [(7 : ℤ)] .symbol none " " false = .ok (asBytes "7") ∧
    stringFstToOutputLabels 4 passing = some (.error (.finalStateHasOutgoingArcs 1)) ∧
    (Held (compileLabels [97] VectorFst.new (Tropical.trop 2) :
      VectorFst ℤ (Tropical (WithTop ℕ))).properties (TrinaryProperty.negative .weighted) ∧
      Holds (compileLabels [97] VectorFst.new (Tropical.trop 2) :
        VectorFst ℤ (Tropical (WithTop ℕ))) .weighted) ∧
    ∀ fuel, stringFstToOutputLabels fuel turning = none := by
  refine ⟨⟨compileLabels [0x41] VectorFst.new 1, ?_, by decide⟩, ?_, by decide, by decide,
    ⟨by decide, Or.inr ⟨1, by decide, by decide⟩⟩, fun fuel => follow_turning fuel _ _ _⟩
  · unfold compileWeighted stringToLabels
    dsimp only
    rw [reads_overlong]
    rfl
  · unfold stringToLabels
    dsimp only
    rw [fromUtf8_asBytes]
    decide

end Refused

end Main

end Sicada.StringFstExact
