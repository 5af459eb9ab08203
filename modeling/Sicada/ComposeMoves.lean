import Sicada.Compose
import Sicada.Paths

set_option linter.unusedSectionVars false

namespace Sicada.ComposeMoves

open PropertyBits Paths Walk ListLemmas

variable {L W : Type} [ArcLabel L]

/- On sorted arcs the binary search finds all the arcs that carry the label. -/
theorem find_eq [One W] {matcher : SortedMatcher L W} {state : ℕ}
    (hsorted : ((matcher.fst.arcs state).map matcher.extractLabel).IsChain (· ≤ ·)) (label : L) :
    matcher.find state label = (if label = epsilon then [matcher.loopArc state] else []) ++
      (matcher.fst.arcs state).filter fun arc =>
        matcher.extractLabel arc = if label = noLabel then epsilon else label := by
  have hpairwise := List.isChain_iff_pairwise.mp hsorted
  unfold SortedMatcher.find SortedMatcher.search
  dsimp only
  generalize (if label = noLabel then epsilon else label) = m
  have hfound : (((matcher.fst.arcs state).take
      (((matcher.fst.arcs state).takeWhile fun arc => matcher.extractLabel arc < m).length +
        (((matcher.fst.arcs state).drop ((matcher.fst.arcs state).takeWhile fun arc =>
          matcher.extractLabel arc < m).length).takeWhile fun arc =>
            matcher.extractLabel arc ≤ m).length)).drop
      ((matcher.fst.arcs state).takeWhile fun arc => matcher.extractLabel arc < m).length).takeWhile
        (fun arc => matcher.extractLabel arc = m) =
      (matcher.fst.arcs state).filter fun arc => matcher.extractLabel arc = m := by
    rw [List.drop_take, Nat.add_sub_cancel_left, drop_length_takeWhile, take_length_takeWhile,
      takeWhile_dropWhile_of_sorted m hpairwise]
    apply List.takeWhile_eq_self_iff.mpr
    intro arc harc
    exact (List.mem_filter.mp harc).2
  rw [hfound]
  by_cases hl : label = epsilon <;> simp [hl]

/- A move of the composition takes an arc of either FST, or one of each. -/
abbrev Move (L W : Type) := Option (ℕ × Arc L W) × Option (ℕ × Arc L W)

section Moves

variable [Zero W] [One W] [Mul W] [DecidableEq W]

/- What the matchers need of the two FSTs. -/
structure Prepared (left right : VectorFst L W) : Prop where
  sorted1 : SortedLabels (sideLabel true) left
  sorted2 : SortedLabels (sideLabel false) right
  labels1 : EveryArc (fun arc => arc.olabel ≠ noLabel) left
  labels2 : EveryArc (fun arc => arc.ilabel ≠ noLabel) right
  counts1 : ∀ s, left.numOutputEpsilons s = (left.arcs s).countP (·.olabel = epsilon)
  counts2 : ∀ s, right.numInputEpsilons s = (right.arcs s).countP (·.ilabel = epsilon)

def arcOf1 (tuple : ComposeStateTuple) : Option (ℕ × Arc L W) → Arc L W
  | some e => e.2
  | none => ⟨epsilon, noLabel, 1, tuple.s1⟩

def arcOf2 (tuple : ComposeStateTuple) : Option (ℕ × Arc L W) → Arc L W
  | some e => e.2
  | none => ⟨noLabel, epsilon, 1, tuple.s2⟩

variable (filter : ArcFilter L W) (left right : VectorFst L W) (tuple : ComposeStateTuple)

/- The moves that two states have for a filter to choose from: an epsilon of either FST on its own,
or two arcs that carry the same label. -/
def Meets : Move L W → Prop
  | (none, none) => False
  | (none, some e2) => Leaves right tuple.s2 e2 ∧ e2.2.ilabel = epsilon
  | (some e1, none) => Leaves left tuple.s1 e1 ∧ e1.2.olabel = epsilon
  | (some e1, some e2) => Leaves left tuple.s1 e1 ∧ Leaves right tuple.s2 e2 ∧
      e1.2.olabel = e2.2.ilabel

def answer (m : Move L W) : Option CharFilterState :=
  filter tuple (arcOf1 tuple m.1) (arcOf2 tuple m.2)

/- Whether the filter lets a move through. -/
def Enabled (m : Move L W) : Prop := Meets left right tuple m ∧ (answer filter tuple m).isSome

def nextFilter (m : Move L W) : CharFilterState := (answer filter tuple m).getD .default

def nextTuple (m : Move L W) : ComposeStateTuple :=
  ⟨(arcOf1 tuple m.1).nextstate, (arcOf2 tuple m.2).nextstate, nextFilter filter tuple m⟩

/- An arc of the result before its destination has an id. -/
structure Proto (L W : Type) where
  ilabel : L
  olabel : L
  weight : W
  tuple : ComposeStateTuple

def protoOf (m : Move L W) : Proto L W :=
  ⟨(arcOf1 tuple m.1).ilabel, (arcOf2 tuple m.2).olabel,
    (arcOf1 tuple m.1).weight * (arcOf2 tuple m.2).weight, nextTuple filter tuple m⟩

def walkedEdges (fst : VectorFst L W) (s : ℕ) : List (Option (ℕ × Arc L W)) :=
  none :: (enumArcs (fst.arcs s)).map some

/- What a matcher finds for a label, with the places of the arcs. -/
def foundEdges (fst : VectorFst L W) (s : ℕ) (extract : Arc L W → L) (label : L) :
    List (Option (ℕ × Arc L W)) :=
  (if label = epsilon then [none] else []) ++
    ((enumArcs (fst.arcs s)).filter fun e =>
      extract e.2 = if label = noLabel then epsilon else label).map some

def candidates (side : Bool) : List (Move L W) :=
  if side then (walkedEdges left tuple.s1).flatMap fun o1 =>
    (foundEdges right tuple.s2 (·.ilabel) (arcOf1 tuple o1).olabel).map fun o2 => (o1, o2)
  else (walkedEdges right tuple.s2).flatMap fun o2 =>
    (foundEdges left tuple.s1 (·.olabel) (arcOf2 tuple o2).ilabel).map fun o1 => (o1, o2)

/- The moves out of a state, in the order their arcs come to stand in. -/
def movesOf (side : Bool) : List (Move L W) :=
  (candidates left right tuple side).filter fun m => (answer filter tuple m).isSome

variable {filter left right tuple}

theorem nodup_walkedEdges (fst : VectorFst L W) (s : ℕ) : (walkedEdges fst s).Nodup := by
  refine List.nodup_cons.mpr ⟨by simp, ?_⟩
  exact (nodup_enumArcs _).map (Option.some_injective _)

theorem nodup_foundEdges (fst : VectorFst L W) (s : ℕ) (extract : Arc L W → L) (label : L) :
    (foundEdges fst s extract label).Nodup := by
  have hfound : (((enumArcs (fst.arcs s)).filter fun e =>
      extract e.2 = if label = noLabel then epsilon else label).map some).Nodup :=
    ((nodup_enumArcs _).filter _).map (Option.some_injective _)
  unfold foundEdges
  split
  · exact List.nodup_cons.mpr ⟨by simp, hfound⟩
  · exact hfound

theorem nodup_movesOf (side : Bool) : (movesOf filter left right tuple side).Nodup := by
  apply List.Nodup.filter
  unfold candidates
  split
  · apply List.nodup_flatMap.mpr
    refine ⟨fun o1 _ => (nodup_foundEdges _ _ _ _).map fun a b h => (Prod.mk.inj h).2, ?_⟩
    refine (nodup_walkedEdges left tuple.s1).imp ?_
    intro o1 o1' hne m hm hm'
    obtain ⟨o2, -, rfl⟩ := List.mem_map.mp hm
    obtain ⟨o2', -, heq⟩ := List.mem_map.mp hm'
    exact hne (Prod.mk.inj heq).1.symm
  · apply List.nodup_flatMap.mpr
    refine ⟨fun o2 _ => (nodup_foundEdges _ _ _ _).map fun a b h => (Prod.mk.inj h).1, ?_⟩
    refine (nodup_walkedEdges right tuple.s2).imp ?_
    intro o2 o2' hne m hm hm'
    obtain ⟨o1, -, rfl⟩ := List.mem_map.mp hm
    obtain ⟨o1', -, heq⟩ := List.mem_map.mp hm'
    exact hne (Prod.mk.inj heq).2.symm

@[simp] theorem none_mem_walkedEdges (fst : VectorFst L W) (s : ℕ) :
    none ∈ walkedEdges fst s := List.mem_cons_self

variable {fst : VectorFst L W} {s : ℕ} {e : ℕ × Arc L W} {side : Bool} {m : Move L W}

@[simp] theorem some_mem_walkedEdges :
    some e ∈ walkedEdges fst s ↔ Leaves fst s e := by
  simp [walkedEdges, mem_enumArcs, Leaves]

@[simp] theorem none_mem_foundEdges {extract : Arc L W → L} {label : L} :
    none ∈ foundEdges fst s extract label ↔ label = epsilon := by
  unfold foundEdges
  by_cases hl : label = epsilon <;> simp [hl]

@[simp] theorem some_mem_foundEdges {extract : Arc L W → L} {label : L} :
    some e ∈ foundEdges fst s extract label ↔
      Leaves fst s e ∧ extract e.2 = if label = noLabel then epsilon else label := by
  unfold foundEdges
  by_cases hl : label = epsilon <;> simp [hl, mem_enumArcs, Leaves]

theorem mem_candidates_true {o1 o2 : Option (ℕ × Arc L W)} :
    (o1, o2) ∈ candidates left right tuple true ↔ o1 ∈ walkedEdges left tuple.s1 ∧
      o2 ∈ foundEdges right tuple.s2 (·.ilabel) (arcOf1 tuple o1).olabel := by
  unfold candidates
  rw [if_pos rfl, List.mem_flatMap]
  constructor
  · rintro ⟨o, ho, hm⟩
    obtain ⟨o', ho', heq⟩ := List.mem_map.mp hm
    obtain ⟨rfl, rfl⟩ := Prod.mk.inj heq
    exact ⟨ho, ho'⟩
  · rintro ⟨ho1, ho2⟩
    exact ⟨o1, ho1, List.mem_map_of_mem ho2⟩

theorem mem_candidates_false {o1 o2 : Option (ℕ × Arc L W)} :
    (o1, o2) ∈ candidates left right tuple false ↔ o2 ∈ walkedEdges right tuple.s2 ∧
      o1 ∈ foundEdges left tuple.s1 (·.olabel) (arcOf2 tuple o2).ilabel := by
  unfold candidates
  rw [if_neg Bool.false_ne_true, List.mem_flatMap]
  constructor
  · rintro ⟨o, ho, hm⟩
    obtain ⟨o', ho', heq⟩ := List.mem_map.mp hm
    obtain ⟨rfl, rfl⟩ := Prod.mk.inj heq
    exact ⟨ho, ho'⟩
  · rintro ⟨ho2, ho1⟩
    exact ⟨o2, ho2, List.mem_map.mpr ⟨o1, ho1, rfl⟩⟩

theorem mem_of_leaves (h : Leaves fst s e) :
    e.2 ∈ fst.arcs s := List.mem_of_getElem? h

theorem epsilon_ne : (noLabel : L) ≠ epsilon := ArcLabel.epsilon_ne_noLabel.symm

section Found

variable (hlabels1 : EveryArc (fun arc => arc.olabel ≠ noLabel) left)
  (hlabels2 : EveryArc (fun arc => arc.ilabel ≠ noLabel) right)
include hlabels1 hlabels2

/- The moves found are those that meet, whichever side is walked. -/
theorem mem_candidates_of_labels :
    m ∈ candidates left right tuple side ↔ Meets left right tuple m := by
  obtain ⟨o1, o2⟩ := m
  have hloop1 : (arcOf1 tuple (none : Option (ℕ × Arc L W))).olabel = noLabel := rfl
  have hloop2 : (arcOf2 tuple (none : Option (ℕ × Arc L W))).ilabel = noLabel := rfl
  cases o1 with
  | none =>
    cases o2 with
    | none =>
      cases side
      · simp [mem_candidates_false, hloop2, epsilon_ne, Meets]
      · simp [mem_candidates_true, hloop1, epsilon_ne, Meets]
    | some e2 =>
      cases side
      · simp only [mem_candidates_false, some_mem_walkedEdges, none_mem_foundEdges, Meets, arcOf2]
      · simp only [mem_candidates_true, none_mem_walkedEdges, some_mem_foundEdges, hloop1, if_true,
          Meets, true_and]
  | some e1 =>
    cases o2 with
    | none =>
      cases side
      · simp only [mem_candidates_false, none_mem_walkedEdges, some_mem_foundEdges, hloop2, if_true,
          Meets, true_and]
      · simp only [mem_candidates_true, some_mem_walkedEdges, none_mem_foundEdges, Meets, arcOf1]
    | some e2 =>
      cases side
      · simp only [mem_candidates_false, some_mem_walkedEdges, some_mem_foundEdges, Meets, arcOf2]
        constructor
        · rintro ⟨he2, he1, hlabel⟩
          rw [if_neg (hlabels2 tuple.s2 e2.2 (mem_of_leaves he2))] at hlabel
          exact ⟨he1, he2, hlabel⟩
        · rintro ⟨he1, he2, hlabel⟩
          rw [if_neg (hlabels2 tuple.s2 e2.2 (mem_of_leaves he2))]
          exact ⟨he2, he1, hlabel⟩
      · simp only [mem_candidates_true, some_mem_walkedEdges, some_mem_foundEdges, Meets, arcOf1]
        constructor
        · rintro ⟨he1, he2, hlabel⟩
          rw [if_neg (hlabels1 tuple.s1 e1.2 (mem_of_leaves he1))] at hlabel
          exact ⟨he1, he2, hlabel.symm⟩
        · rintro ⟨he1, he2, hlabel⟩
          rw [if_neg (hlabels1 tuple.s1 e1.2 (mem_of_leaves he1))]
          exact ⟨he1, he2, hlabel.symm⟩

end Found

theorem mem_candidates (h : Prepared left right) :
    m ∈ candidates left right tuple side ↔ Meets left right tuple m :=
  mem_candidates_of_labels h.labels1 h.labels2

theorem mem_movesOf (h : Prepared left right) :
    m ∈ movesOf filter left right tuple side ↔ Enabled filter left right tuple m := by
  unfold movesOf
  rw [List.mem_filter, mem_candidates h]
  rfl

theorem answer_of_isSome (hm : (answer filter tuple m).isSome) :
    answer filter tuple m = some (nextFilter filter tuple m) := by
  obtain ⟨fs, hfs⟩ := Option.isSome_iff_exists.mp hm
  rw [nextFilter, hfs]
  rfl

/- Adds one arc, its destination looked up. -/
def internArc (acc : List ComposeStateTuple × List (Arc L W)) (p : Proto L W) :
    List ComposeStateTuple × List (Arc L W) :=
  let (next, states) := BiTable.findId acc.1 p.tuple
  (states, acc.2 ++ [⟨p.ilabel, p.olabel, p.weight, next⟩])

/- A candidate with the destination the filter lets it have, if it lets it through. -/
def tryMove (filter : ArcFilter L W) (tuple : ComposeStateTuple) (m : Move L W) :
    Option (Proto L W) :=
  (answer filter tuple m).map fun fs =>
    ⟨(arcOf1 tuple m.1).ilabel, (arcOf2 tuple m.2).olabel,
      (arcOf1 tuple m.1).weight * (arcOf2 tuple m.2).weight,
      ⟨(arcOf1 tuple m.1).nextstate, (arcOf2 tuple m.2).nextstate, fs⟩⟩

theorem filterMap_tryMove (side : Bool) :
    (candidates left right tuple side).filterMap (tryMove filter tuple) =
      (movesOf filter left right tuple side).map (protoOf filter tuple) := by
  apply filterMap_eq_map_filter
  · intro m _
    simp [tryMove]
  · intro m _ hallowed
    rw [tryMove, answer_of_isSome hallowed]
    rfl

theorem map_foundEdges {byOutput : Bool} {label : L}
    (hsorted : ((fst.arcs s).map (sideLabel byOutput)).IsChain (· ≤ ·))
    (f : Option (ℕ × Arc L W) → Arc L W) (hloop : f none = SortedMatcher.loopArc ⟨fst, byOutput⟩ s)
    (hsome : ∀ e, f (some e) = e.2) :
    (foundEdges fst s (sideLabel byOutput) label).map f = SortedMatcher.find ⟨fst, byOutput⟩ s label := by
  have hsorted' : (((⟨fst, byOutput⟩ : SortedMatcher L W).fst.arcs s).map
      (SortedMatcher.extractLabel ⟨fst, byOutput⟩)).IsChain (· ≤ ·) := hsorted
  rw [find_eq hsorted' label]
  unfold foundEdges
  rw [List.map_append, List.map_map]
  congr 1
  · split <;> simp [hloop]
  · have hcomp : f ∘ some = Prod.snd := funext hsome
    have hfilter : ∀ q : Arc L W → Bool, ((enumArcs (fst.arcs s)).filter (q ∘ Prod.snd)).map
        Prod.snd = (fst.arcs s).filter q := by
      intro q
      rw [← List.filter_map, map_snd_enumArcs]
    rw [hcomp]
    exact hfilter fun arc => sideLabel byOutput arc = if label = noLabel then epsilon else label

def tryPair (filterArc : Arc L W → Arc L W → Option CharFilterState)
    (acc : List ComposeStateTuple × List (Arc L W)) (arc1 arc2 : Arc L W) :
    List ComposeStateTuple × List (Arc L W) :=
  match filterArc arc1 arc2 with
  | none => acc
  | some fs => internArc acc ⟨arc1.ilabel, arc2.olabel, arc1.weight * arc2.weight,
      ⟨arc1.nextstate, arc2.nextstate, fs⟩⟩

theorem matchArcThrough_eq (matcher1 matcher2 : SortedMatcher L W)
    (filterArc : Arc L W → Arc L W → Option CharFilterState) (s1 s2 : ℕ) (side : Bool)
    (acc : List ComposeStateTuple × List (Arc L W)) (arc : Arc L W) :
    matchArcThrough matcher1 matcher2 filterArc s1 s2 side acc arc =
      if side then (matcher2.find s2 arc.olabel).foldl (fun acc => tryPair filterArc acc arc) acc
      else (matcher1.find s1 arc.ilabel).foldl (fun acc other => tryPair filterArc acc other arc)
        acc := by
  unfold tryPair
  cases side <;> rfl

theorem tryPair_eq (filter : ArcFilter L W) (tuple : ComposeStateTuple)
    (acc : List ComposeStateTuple × List (Arc L W)) (m : Move L W) :
    tryPair (filter tuple) acc (arcOf1 tuple m.1) (arcOf2 tuple m.2) =
      (tryMove filter tuple m).elim acc (internArc acc) := by
  unfold tryPair tryMove answer
  cases filter tuple (arcOf1 tuple m.1) (arcOf2 tuple m.2) <;> rfl

/- The loops over the arcs walked and over those found for each come to one loop. -/
theorem foldl_candidates (hsorted1 : SortedLabels (sideLabel true) left)
    (hsorted2 : SortedLabels (sideLabel false) right) (tuple : ComposeStateTuple) (side : Bool)
    {S : Type} (pair : S → Arc L W → Arc L W → S) (acc : S) :
    (walkedArcs ⟨left, true⟩ ⟨right, false⟩ tuple.s1 tuple.s2 side).foldl (fun acc arc =>
        if side then (SortedMatcher.find ⟨right, false⟩ tuple.s2 arc.olabel).foldl
          (fun acc => pair acc arc) acc
        else (SortedMatcher.find ⟨left, true⟩ tuple.s1 arc.ilabel).foldl
          (fun acc other => pair acc other arc) acc) acc =
      (candidates left right tuple side).foldl
        (fun acc m => pair acc (arcOf1 tuple m.1) (arcOf2 tuple m.2)) acc := by
  cases side with
  | true =>
    have hwalked : walkedArcs ⟨left, true⟩ ⟨right, false⟩ tuple.s1 tuple.s2 true =
        (walkedEdges left tuple.s1).map (arcOf1 tuple) := by
      unfold walkedArcs walkedEdges
      rw [if_pos rfl, List.map_cons, List.map_map]
      exact congrArg (List.cons _) (map_snd_enumArcs (left.arcs tuple.s1)).symm
    have hfound : ∀ label, SortedMatcher.find ⟨right, false⟩ tuple.s2 label =
        (foundEdges right tuple.s2 (·.ilabel) label).map (arcOf2 tuple) := by
      intro label
      exact (map_foundEdges (hsorted2 tuple.s2) (arcOf2 tuple) rfl fun _ => rfl).symm
    unfold candidates
    rw [if_pos rfl, hwalked, List.foldl_map, List.foldl_flatMap]
    refine congrArg (fun f => (walkedEdges left tuple.s1).foldl f acc) ?_
    funext acc o1
    rw [if_pos rfl, hfound, List.foldl_map, List.foldl_map]
  | false =>
    have hwalked : walkedArcs ⟨left, true⟩ ⟨right, false⟩ tuple.s1 tuple.s2 false =
        (walkedEdges right tuple.s2).map (arcOf2 tuple) := by
      unfold walkedArcs walkedEdges
      rw [if_neg Bool.false_ne_true, List.map_cons, List.map_map]
      exact congrArg (List.cons _) (map_snd_enumArcs (right.arcs tuple.s2)).symm
    have hfound : ∀ label, SortedMatcher.find ⟨left, true⟩ tuple.s1 label =
        (foundEdges left tuple.s1 (·.olabel) label).map (arcOf1 tuple) := by
      intro label
      exact (map_foundEdges (hsorted1 tuple.s1) (arcOf1 tuple) rfl fun _ => rfl).symm
    unfold candidates
    rw [if_neg Bool.false_ne_true, hwalked, List.foldl_map, List.foldl_flatMap]
    refine congrArg (fun f => (walkedEdges right tuple.s2).foldl f acc) ?_
    funext acc o2
    rw [if_neg Bool.false_ne_true, hfound, List.foldl_map, List.foldl_map]

theorem foldl_matchArcThrough (hsorted1 : SortedLabels (sideLabel true) left)
    (hsorted2 : SortedLabels (sideLabel false) right) (filter : ArcFilter L W)
    (tuple : ComposeStateTuple) (side : Bool) (acc : List ComposeStateTuple × List (Arc L W)) :
    (walkedArcs ⟨left, true⟩ ⟨right, false⟩ tuple.s1 tuple.s2 side).foldl
        (matchArcThrough ⟨left, true⟩ ⟨right, false⟩ (filter tuple) tuple.s1 tuple.s2 side) acc =
      (candidates left right tuple side).foldl
        (fun acc m => tryPair (filter tuple) acc (arcOf1 tuple m.1) (arcOf2 tuple m.2)) acc := by
  rw [← foldl_candidates hsorted1 hsorted2]
  refine congrArg (fun f => List.foldl f acc _) ?_
  funext acc arc
  exact matchArcThrough_eq _ _ _ _ _ side acc arc

/- Those the filter lets through are the moves. -/
theorem foldl_matchArc (h : Prepared left right) (filter : ArcFilter L W) (tuple : ComposeStateTuple) (side : Bool)
    (acc : List ComposeStateTuple × List (Arc L W)) :
    (walkedArcs ⟨left, true⟩ ⟨right, false⟩ tuple.s1 tuple.s2 side).foldl
        (matchArcThrough ⟨left, true⟩ ⟨right, false⟩ (filter tuple) tuple.s1 tuple.s2 side) acc =
      ((movesOf filter left right tuple side).map (protoOf filter tuple)).foldl internArc acc := by
  rw [foldl_matchArcThrough h.sorted1 h.sorted2, ← filterMap_tryMove, List.foldl_filterMap]
  refine congrArg (fun f => List.foldl f acc _) ?_
  funext acc m
  rw [tryPair_eq]
  cases tryMove filter tuple m <;> rfl

end Moves

end Sicada.ComposeMoves
