import Sicada.EpsilonCounts
import Sicada.ScanExact

set_option linter.unusedSectionVars false

namespace Sicada

section Merging

/- Which state of the secondary FST a state of the result stands for. -/
structure MergeStateMap where
  map : List (ℕ × ℕ)
  keys_nodup : (map.map Prod.fst).Nodup

namespace MergeStateMap

def find (m : MergeStateMap) (s : ℕ) : Option ℕ := m.map.lookup s

def len (m : MergeStateMap) : ℕ := m.map.length

end MergeStateMap

structure MergeFst (L W : Type) where
  primary : VectorFst L W
  secondary : VectorFst L W
  stateMap : MergeStateMap
  numStates : ℕ
  properties : BitVec 64

variable {L W : Type} [ArcLabel L]

namespace MergeFst

/- The pairs of the map in turn, in an order that is the map's own; the number of states comes
down where a state of the result is one of the primary's. -/
def checkMap (primaryStates secondaryStates : ℕ) : List (ℕ × ℕ) → List ℕ → ℕ →
    Except OpenFstError ℕ
  | [], _, numStates => .ok numStates
  | (merged, source) :: pairs, sources, numStates =>
    if source ∈ sources then
      .error (.invalidOperation "MergeFst: two states of the result claim the same secondary state")
    else if secondaryStates ≤ source then
      .error (.invalidOperation ("MergeFst: the state map names secondary state " ++
        toString source ++ " of " ++ toString secondaryStates))
    else
      checkMap primaryStates secondaryStates pairs (source :: sources)
        (if merged < primaryStates then numStates - 1 else numStates)

def new (primary secondary : VectorFst L W) (stateMap : MergeStateMap) :
    Except OpenFstError (MergeFst L W) :=
  if stateMap.len ≠ secondary.numStates then
    .error (.invalidOperation ("MergeFst: the state map names " ++ toString stateMap.len ++
      " states but the secondary FST has " ++ toString secondary.numStates))
  else
    (checkMap primary.numStates secondary.numStates stateMap.map []
      (primary.numStates + secondary.numStates)).map fun numStates =>
        { primary := primary
          secondary := secondary
          stateMap := stateMap
          numStates := numStates
          properties := ((primary.properties &&& kFstProperties) &&&
            (secondary.properties &&& kFstProperties)) ||| kExpanded }

section Reading

variable (m : MergeFst L W) (state : ℕ)

def inPrimary : Bool := state < m.primary.numStates

def start : Option ℕ := m.primary.start

def finalWeight [Add W] [Zero W] : W :=
  let weight := if m.inPrimary state then m.primary.finalWeight state else 0
  match m.stateMap.find state with
  | some source => weight + m.secondary.finalWeight source
  | none => weight

def numArcs : ℕ :=
  (if m.inPrimary state then m.primary.numArcs state else 0) +
    ((m.stateMap.find state).map m.secondary.numArcs).getD 0

def numInputEpsilons : ℕ :=
  (if m.inPrimary state then m.primary.numInputEpsilons state else 0) +
    ((m.stateMap.find state).map m.secondary.numInputEpsilons).getD 0

def numOutputEpsilons : ℕ :=
  (if m.inPrimary state then m.primary.numOutputEpsilons state else 0) +
    ((m.stateMap.find state).map m.secondary.numOutputEpsilons).getD 0

def states : List ℕ := List.range m.numStates

/- The primary's arcs, then the secondary's. -/
def arcs : List (Arc L W) :=
  (if m.inPrimary state then m.primary.arcs state else []) ++
    ((m.stateMap.find state).map m.secondary.arcs).getD []

end Reading

/- What a walk over the states of the result reads. -/
def result [Add W] [Zero W] (m : MergeFst L W) : VectorFst L W where
  states := m.states.map fun s =>
    ⟨m.finalWeight s, m.arcs s, m.numInputEpsilons s, m.numOutputEpsilons s⟩
  start := m.start
  properties := m.properties

end MergeFst

end Merging

namespace MergeExact

open Relation PropertyBits EpsilonCounts

variable {L W : Type} [ArcLabel L]

section Accepting

/- A map that is accepted names each state of the secondary once. -/
structure Accepted (primaryStates secondaryStates : ℕ) (pairs : List (ℕ × ℕ))
    (numStates numStates' : ℕ) : Prop where
  sources_nodup : (pairs.map Prod.snd).Nodup
  sources_lt : ∀ pair ∈ pairs, pair.2 < secondaryStates
  numStates : numStates' = numStates - pairs.countP fun pair => pair.1 < primaryStates

theorem accepted_of_checkMap {p s : ℕ} {pairs : List (ℕ × ℕ)} {sources : List ℕ} {n n' : ℕ}
    (h : MergeFst.checkMap p s pairs sources n = .ok n') :
    Accepted p s pairs n n' ∧ ∀ pair ∈ pairs, pair.2 ∉ sources := by
  induction pairs generalizing sources n with
  | nil =>
    cases h
    exact ⟨⟨List.nodup_nil, by simp, by simp⟩, by simp⟩
  | cons pair pairs ih =>
    obtain ⟨merged, source⟩ := pair
    rw [MergeFst.checkMap] at h
    split at h
    · cases h
    next hnew =>
      split at h
      · cases h
      next hlt =>
        obtain ⟨⟨hnodup, hall, hnum⟩, hfresh⟩ := ih h
        refine ⟨⟨?_, ?_, ?_⟩, ?_⟩
        · rw [List.map_cons, List.nodup_cons]
          refine ⟨fun hmem => ?_, hnodup⟩
          obtain ⟨pair, hpair, heq⟩ := List.mem_map.mp hmem
          exact hfresh pair hpair (heq ▸ List.mem_cons_self)
        · rintro pair (_ | ⟨_, hpair⟩)
          · exact Nat.lt_of_not_le hlt
          · exact hall pair hpair
        · rw [hnum, List.countP_cons]
          by_cases hmerged : merged < p
          · simp only [hmerged, if_true, decide_true]
            omega
          · simp [hmerged]
        · rintro pair (_ | ⟨_, hpair⟩)
          · exact hnew
          · exact fun hmem => hfresh pair hpair (List.mem_cons_of_mem _ hmem)

variable {primary secondary : VectorFst L W} {stateMap : MergeStateMap} {m : MergeFst L W}

/- What `MergeFst.new` accepts, and what it makes of it. -/
theorem new_spec (h : MergeFst.new primary secondary stateMap = .ok m) :
    m.primary = primary ∧ m.secondary = secondary ∧ m.stateMap = stateMap ∧
      stateMap.len = secondary.numStates ∧
        Accepted primary.numStates secondary.numStates stateMap.map
          (primary.numStates + secondary.numStates) m.numStates ∧
        m.properties = ((primary.properties &&& kFstProperties) &&&
          (secondary.properties &&& kFstProperties)) ||| kExpanded := by
  unfold MergeFst.new at h
  split at h
  · cases h
  next hlen =>
    cases hcheck : MergeFst.checkMap primary.numStates secondary.numStates stateMap.map []
      (primary.numStates + secondary.numStates) with
    | error e =>
      rw [hcheck] at h
      cases h
    | ok n =>
      rw [hcheck] at h
      cases h
      exact ⟨rfl, rfl, rfl, not_not.mp hlen, (accepted_of_checkMap hcheck).1, rfl⟩

theorem find_eq_some (stateMap : MergeStateMap) {s source : ℕ} :
    stateMap.find s = some source ↔ (s, source) ∈ stateMap.map := by
  obtain ⟨pairs, hkeys⟩ := stateMap
  unfold MergeStateMap.find
  dsimp only
  induction pairs with
  | nil => simp
  | cons pair pairs ih =>
    obtain ⟨key, value⟩ := pair
    rw [List.map_cons, List.nodup_cons] at hkeys
    by_cases hs : s = key
    · subst hs
      have hnot : (s, source) ∉ pairs := fun hmem => hkeys.1 (List.mem_map.mpr ⟨_, hmem, rfl⟩)
      simp [List.lookup_cons, hnot, eq_comm]
    · have hbeq : (s == key) = false := by simpa using hs
      simp only [List.lookup_cons, hbeq, ih hkeys.2, List.mem_cons, Prod.mk.injEq, hs, false_and,
        false_or]

/- A list of distinct numbers that fills a range has all of it. -/
theorem mem_of_fills {l : List ℕ} {a b : ℕ} (hnodup : l.Nodup) (hmem : ∀ x ∈ l, a ≤ x ∧ x < b)
    (hlen : b - a ≤ l.length) {x : ℕ} (hx : a ≤ x ∧ x < b) : x ∈ l := by
  have hsub : l.toFinset ⊆ Finset.Ico a b := by
    intro y hy
    rw [Finset.mem_Ico]
    exact hmem y (List.mem_toFinset.mp hy)
  have hcard : (Finset.Ico a b).card ≤ l.toFinset.card := by
    rw [Nat.card_Ico, List.toFinset_card_of_nodup hnodup]
    exact hlen
  have heq := Finset.eq_of_subset_of_card_le hsub hcard
  rw [← List.mem_toFinset, heq, Finset.mem_Ico]
  exact hx

theorem exists_of_accepted (h : MergeFst.new primary secondary stateMap = .ok m) {source : ℕ}
    (hsource : source < m.secondary.numStates) : ∃ s, m.stateMap.find s = some source := by
  obtain ⟨-, rfl, rfl, hlen, haccepted, -⟩ := new_spec h
  have hmem : source ∈ m.stateMap.map.map Prod.snd := by
    refine mem_of_fills (a := 0) haccepted.sources_nodup (fun x hx => ?_) ?_
      ⟨Nat.zero_le source, hsource⟩
    · obtain ⟨pair, hpair, rfl⟩ := List.mem_map.mp hx
      exact ⟨Nat.zero_le _, haccepted.sources_lt pair hpair⟩
    · rw [List.length_map]
      exact hlen.ge
  obtain ⟨⟨s, source'⟩, hpair, rfl⟩ := List.mem_map.mp hmem
  exact ⟨s, (find_eq_some _).mpr hpair⟩

/- How many states the operands have between them, a state of both counted once. -/
def unionStates (m : MergeFst L W) : ℕ :=
  m.primary.numStates + m.stateMap.map.countP fun pair => m.primary.numStates ≤ pair.1

/- All mapped states are numbered among the states of the result. -/
def KeysInRange (m : MergeFst L W) : Prop :=
  ∀ s source, m.stateMap.find s = some source → s < unionStates m

theorem numStates_eq (h : MergeFst.new primary secondary stateMap = .ok m) :
    m.numStates = unionStates m := by
  obtain ⟨rfl, rfl, rfl, hlen, haccepted, -⟩ := new_spec h
  have hsplit := List.length_eq_countP_add_countP
    (fun pair : ℕ × ℕ => decide (pair.1 < m.primary.numStates)) (l := m.stateMap.map)
  have hbeyond : m.stateMap.map.countP
      (fun pair => ¬ decide (pair.1 < m.primary.numStates) = true) =
        m.stateMap.map.countP fun pair => m.primary.numStates ≤ pair.1 := by
    refine congrArg (fun p => List.countP p m.stateMap.map) (funext fun pair => ?_)
    simp
  have hlen' : m.stateMap.map.length = m.secondary.numStates := hlen
  rw [haccepted.numStates, unionStates]
  omega

/- The numbers of the result are those of its states when no state is mapped beyond them. -/
theorem lt_unionStates_iff (hkeys : KeysInRange m) (s : ℕ) :
    s < unionStates m ↔ s < m.primary.numStates ∨ ∃ source, m.stateMap.find s = some source := by
  constructor
  · intro hs
    by_cases hprimary : s < m.primary.numStates
    · exact Or.inl hprimary
    · right
      have hmem : s ∈ (m.stateMap.map.filter
          fun pair => m.primary.numStates ≤ pair.1).map Prod.fst := by
        refine mem_of_fills ?_ (fun x hx => ?_) ?_ ⟨Nat.le_of_not_lt hprimary, hs⟩
        · exact (List.filter_sublist.map Prod.fst).nodup m.stateMap.keys_nodup
        · obtain ⟨⟨key, source⟩, hpair, rfl⟩ := List.mem_map.mp hx
          obtain ⟨hpair, hge⟩ := List.mem_filter.mp hpair
          exact ⟨of_decide_eq_true hge, hkeys key source ((find_eq_some _).mpr hpair)⟩
        · rw [List.length_map, ← List.countP_eq_length_filter, unionStates]
          omega
      obtain ⟨⟨key, source⟩, hpair, rfl⟩ := List.mem_map.mp hmem
      exact ⟨source, (find_eq_some _).mpr (List.mem_filter.mp hpair).1⟩
  · rintro (hprimary | ⟨source, hfind⟩)
    · exact Nat.lt_add_right _ hprimary
    · exact hkeys s source hfind

end Accepting

section Joining

variable [AddCommMonoid W] [One W] [DecidableEq W] (m : MergeFst L W)

/- What the secondary brings to a state of the result. -/
def addedArcs (s : ℕ) : List (Arc L W) := ((m.stateMap.find s).map m.secondary.arcs).getD []

def addedFinal (s : ℕ) : W := ((m.stateMap.find s).map m.secondary.finalWeight).getD 0

def joinedArcs (s : ℕ) : List (Arc L W) := m.primary.arcs s ++ addedArcs m s

def joinedFinal (s : ℕ) : W := m.primary.finalWeight s + addedFinal m s

def JoinedStep (s t : ℕ) : Prop := ∃ arc ∈ joinedArcs m s, arc.nextstate = t

variable {m}

theorem arcs_eq (s : ℕ) : m.arcs s = joinedArcs m s := by
  unfold MergeFst.arcs joinedArcs addedArcs MergeFst.inPrimary
  by_cases hs : s < m.primary.numStates
  · simp [hs]
  · simp [hs, VectorFst.arcs_of_le (Nat.le_of_not_lt hs)]

theorem finalWeight_eq (s : ℕ) : m.finalWeight s = joinedFinal m s := by
  have hprimary : (if m.inPrimary s then m.primary.finalWeight s else 0) =
      m.primary.finalWeight s := by
    unfold MergeFst.inPrimary
    by_cases hs : s < m.primary.numStates
    · simp [hs]
    · simp [hs, VectorFst.finalWeight_of_le (Nat.le_of_not_lt hs)]
  unfold MergeFst.finalWeight joinedFinal addedFinal
  rw [hprimary]
  cases m.stateMap.find s with
  | none => exact (add_zero _).symm
  | some source => rfl

theorem mem_addedArcs {s : ℕ} {arc : Arc L W} : arc ∈ addedArcs m s ↔
    ∃ source, m.stateMap.find s = some source ∧ arc ∈ m.secondary.arcs source := by
  unfold addedArcs
  cases m.stateMap.find s with
  | none => simp
  | some source => simp

theorem numStates_result (h : MergeFst.new m.primary m.secondary m.stateMap = .ok m) :
    m.result.numStates = unionStates m := by
  rw [← numStates_eq h]
  simp [MergeFst.result, VectorFst.numStates, MergeFst.states]

theorem result_states (h : MergeFst.new m.primary m.secondary m.stateMap = .ok m) {s : ℕ}
    (hs : s < unionStates m) : m.result.states[s]? =
      some ⟨m.finalWeight s, m.arcs s, m.numInputEpsilons s, m.numOutputEpsilons s⟩ := by
  rw [← numStates_eq h] at hs
  simp [MergeFst.result, MergeFst.states, List.getElem?_range hs]

theorem find_of_le (hkeys : KeysInRange m) {s : ℕ} (hs : unionStates m ≤ s) :
    m.primary.numStates ≤ s ∧ m.stateMap.find s = none := by
  have hnot : ¬ (s < m.primary.numStates ∨ ∃ source, m.stateMap.find s = some source) :=
    fun hlt => absurd ((lt_unionStates_iff hkeys s).mpr hlt) (Nat.not_lt_of_le hs)
  rw [not_or, not_exists] at hnot
  exact ⟨Nat.le_of_not_lt hnot.1, Option.eq_none_iff_forall_ne_some.mpr hnot.2⟩

variable (h : MergeFst.new m.primary m.secondary m.stateMap = .ok m) (hkeys : KeysInRange m)

include h hkeys

theorem arcs_result : m.result.arcs = joinedArcs m := by
  funext s
  by_cases hs : s < unionStates m
  · rw [VectorFst.arcs_of_getElem? (result_states h hs)]
    exact arcs_eq s
  · obtain ⟨hprimary, hfind⟩ := find_of_le hkeys (Nat.le_of_not_lt hs)
    rw [VectorFst.arcs_of_le ((numStates_result h).trans_le (Nat.le_of_not_lt hs))]
    simp [joinedArcs, addedArcs, hfind, VectorFst.arcs_of_le hprimary]

theorem finalWeight_result : m.result.finalWeight = joinedFinal m := by
  funext s
  by_cases hs : s < unionStates m
  · rw [VectorFst.finalWeight_of_getElem? (result_states h hs)]
    exact finalWeight_eq s
  · obtain ⟨hprimary, hfind⟩ := find_of_le hkeys (Nat.le_of_not_lt hs)
    rw [VectorFst.finalWeight_of_le ((numStates_result h).trans_le (Nat.le_of_not_lt hs))]
    simp [joinedFinal, addedFinal, hfind, VectorFst.finalWeight_of_le hprimary]

theorem step_result : Step m.result = JoinedStep m := by
  funext s t
  unfold Step JoinedStep
  rw [arcs_result h hkeys]

omit h hkeys in
theorem step_primary {s t : ℕ} (hstep : Step m.primary s t) : JoinedStep m s t := by
  obtain ⟨arc, harc, hnext⟩ := hstep
  exact ⟨arc, List.mem_append_left _ harc, hnext⟩

end Joining

section Known

variable [AddCommMonoid W] [One W] [DecidableEq W] (m : MergeFst L W)

/- The states of the result make a string of it. -/
def JoinsString : Prop :=
  (∀ start, m.primary.start = some start → start = 0) ∧ ∀ s < unionStates m,
    (∀ arc ∈ joinedArcs m s, arc.nextstate = s + 1) ∧
      (joinedFinal m s ≠ 0 → s + 1 = unionStates m) ∧
        (joinedFinal m s = 0 → (m.primary.arcs s).length + (addedArcs m s).length = 1)

/- What it takes for a property both operands have to be one of the result. -/
def PositiveNeeds : TrinaryProperty → Prop
  | .iDeterministic => ∀ s, ((m.primary.arcs s).map (·.ilabel)).Disjoint
      ((addedArcs m s).map (·.ilabel))
  | .oDeterministic => ∀ s, ((m.primary.arcs s).map (·.olabel)).Disjoint
      ((addedArcs m s).map (·.olabel))
  | .iLabelSorted => ∀ s, ∀ last ∈ (m.primary.arcs s).getLast?, ∀ next ∈ (addedArcs m s).head?,
      last.ilabel ≤ next.ilabel
  | .oLabelSorted => ∀ s, ∀ last ∈ (m.primary.arcs s).getLast?, ∀ next ∈ (addedArcs m s).head?,
      last.olabel ≤ next.olabel
  | .weighted => (∃ s, ∃ arc ∈ joinedArcs m s, PropertyBits.Nontrivial arc.weight) ∨
      ∃ s, PropertyBits.Nontrivial (joinedFinal m s)
  | .topSorted => ∀ s, ∀ arc ∈ addedArcs m s, s < arc.nextstate
  | .accessible => ∀ s, m.primary.numStates ≤ s → s < unionStates m →
      ∃ start, m.primary.start = some start ∧ ReflTransGen (JoinedStep m) start s
  | .coAccessible => ∀ s < unionStates m, ∃ t, ReflTransGen (JoinedStep m) s t ∧ joinedFinal m t ≠ 0
  | .string => JoinsString m
  | _ => True

/- What it takes for a property neither operand has not to be one of the result. -/
def NegativeNeeds : TrinaryProperty → Prop
  | .weighted => ∀ s, ¬ PropertyBits.Nontrivial (joinedFinal m s)
  | .cyclic => ∀ s, ¬ TransGen (JoinedStep m) s s
  | .initialCyclic => ∀ s, m.primary.start = some s → ¬ TransGen (JoinedStep m) s s
  | .accessible => ∃ s < unionStates m, ∀ start, m.primary.start = some start →
      ¬ ReflTransGen (JoinedStep m) start s
  | .coAccessible => ∃ s < unionStates m, ∀ t, ReflTransGen (JoinedStep m) s t → joinedFinal m t = 0
  | .string => ¬ JoinsString m
  | .weightedCycles => ∀ s, ∀ arc ∈ joinedArcs m s, PropertyBits.Nontrivial arc.weight →
      ¬ ReflTransGen (JoinedStep m) arc.nextstate s
  | _ => True

variable {m} (h : MergeFst.new m.primary m.secondary m.stateMap = .ok m) (hkeys : KeysInRange m)

theorem forall_joined {P : Arc L W → Prop} (hprimary : EveryArc P m.primary)
    (hsecondary : EveryArc P m.secondary) (s : ℕ) : ∀ arc ∈ joinedArcs m s, P arc := by
  intro arc harc
  rcases List.mem_append.mp harc with harc | harc
  · exact hprimary s arc harc
  · obtain ⟨source, -, harc⟩ := mem_addedArcs.mp harc
    exact hsecondary source arc harc

include h hkeys

theorem someArc_result {P : Arc L W → Prop} (hprimary : SomeArc P m.primary) :
    SomeArc P m.result := by
  obtain ⟨s, arc, harc, hp⟩ := hprimary
  rw [SomeArc, arcs_result h hkeys]
  exact ⟨s, arc, List.mem_append_left _ harc, hp⟩

theorem uniqueLabels_result {label : Arc L W → L} (hprimary : UniqueLabels label m.primary)
    (hsecondary : UniqueLabels label m.secondary) : UniqueLabels label m.result ↔
      ∀ s, ((m.primary.arcs s).map label).Disjoint ((addedArcs m s).map label) := by
  unfold UniqueLabels
  rw [arcs_result h hkeys]
  refine forall_congr' fun s => ?_
  have hadded : ((addedArcs m s).map label).Nodup := by
    unfold addedArcs
    cases m.stateMap.find s with
    | none => exact List.nodup_nil
    | some source => exact hsecondary source
  rw [joinedArcs, List.map_append, List.nodup_append']
  exact ⟨fun hall => hall.2.2, fun hdisjoint => ⟨hprimary s, hadded, hdisjoint⟩⟩

theorem sortedLabels_result {label : Arc L W → L} (hprimary : SortedLabels label m.primary)
    (hsecondary : SortedLabels label m.secondary) : SortedLabels label m.result ↔
      ∀ s, ∀ last ∈ (m.primary.arcs s).getLast?, ∀ next ∈ (addedArcs m s).head?,
        label last ≤ label next := by
  unfold SortedLabels
  rw [arcs_result h hkeys]
  refine forall_congr' fun s => ?_
  have hadded : ((addedArcs m s).map label).IsChain (· ≤ ·) := by
    unfold addedArcs
    cases m.stateMap.find s with
    | none => exact List.isChain_nil
    | some source => exact hsecondary source
  rw [joinedArcs, List.map_append, List.isChain_append, List.getLast?_map, List.head?_map]
  constructor
  · intro hall last hlast next hnext
    exact hall.2.2 _ (Option.mem_map_of_mem label hlast) _ (Option.mem_map_of_mem label hnext)
  · intro hall
    refine ⟨hprimary s, hadded, fun x hx y hy => ?_⟩
    obtain ⟨last, hlast, rfl⟩ := Option.mem_map.mp hx
    obtain ⟨next, hnext, rfl⟩ := Option.mem_map.mp hy
    exact hall last hlast next hnext

theorem string_result : Holds m.result .string ↔ JoinsString m := by
  have harcs := arcs_result h hkeys
  have hfinal := finalWeight_result h hkeys
  unfold JoinsString
  simp only [Holds, numStates_result h, VectorFst.numArcs_eq, harcs, hfinal]
  have hlen : ∀ s, (joinedArcs m s).length = (m.primary.arcs s).length + (addedArcs m s).length :=
    fun s => List.length_append
  simp only [hlen]
  exact Iff.rfl

theorem weighted_result : Holds m.result .weighted ↔
    (∃ s, ∃ arc ∈ joinedArcs m s, PropertyBits.Nontrivial arc.weight) ∨ ∃ s, PropertyBits.Nontrivial (joinedFinal m s) := by
  simp only [Holds, SomeArc, arcs_result h hkeys, finalWeight_result h hkeys]

theorem accessible_result : Holds m.result .accessible ↔ ∀ s < unionStates m,
    ∃ start, m.primary.start = some start ∧ ReflTransGen (JoinedStep m) start s := by
  simp only [Holds, step_result h hkeys, numStates_result h]
  exact Iff.rfl

theorem coAccessible_result : Holds m.result .coAccessible ↔ ∀ s < unionStates m,
    ∃ t, ReflTransGen (JoinedStep m) s t ∧ joinedFinal m t ≠ 0 := by
  simp only [Holds, step_result h hkeys, numStates_result h, finalWeight_result h hkeys]

theorem holds_of_both (p : TrinaryProperty) (hprimary : Holds m.primary p)
    (hsecondary : Holds m.secondary p) : Holds m.result p ↔ PositiveNeeds m p := by
  have harcs := arcs_result h hkeys
  have hstep := step_result h hkeys
  cases p with
  | acceptor =>
    refine iff_of_true (fun s => ?_) trivial
    rw [harcs]
    exact forall_joined hprimary hsecondary s
  | iDeterministic => exact uniqueLabels_result h hkeys hprimary hsecondary
  | oDeterministic => exact uniqueLabels_result h hkeys hprimary hsecondary
  | epsilons => exact iff_of_true (someArc_result h hkeys hprimary) trivial
  | iEpsilons => exact iff_of_true (someArc_result h hkeys hprimary) trivial
  | oEpsilons => exact iff_of_true (someArc_result h hkeys hprimary) trivial
  | iLabelSorted => exact sortedLabels_result h hkeys hprimary hsecondary
  | oLabelSorted => exact sortedLabels_result h hkeys hprimary hsecondary
  | weighted => exact weighted_result h hkeys
  | cyclic =>
    obtain ⟨s, hs⟩ := hprimary
    refine iff_of_true ⟨s, ?_⟩ trivial
    rw [hstep]
    exact TransGen.mono (fun _ _ => step_primary) _ _ hs
  | initialCyclic =>
    obtain ⟨s, hstart, hs⟩ := hprimary
    refine iff_of_true ⟨s, hstart, ?_⟩ trivial
    rw [hstep]
    exact TransGen.mono (fun _ _ => step_primary) _ _ hs
  | topSorted =>
    simp only [Holds, harcs]
    refine forall_congr' fun s => ⟨fun hall arc harc => ?_, fun hall arc harc => ?_⟩
    · exact hall arc (List.mem_append_right _ harc)
    · exact (List.mem_append.mp harc).elim (hprimary s arc) (hall arc)
  | accessible =>
    rw [accessible_result h hkeys]
    refine ⟨fun hall s _ hs => hall s hs, fun hnew s hs => ?_⟩
    by_cases hold : s < m.primary.numStates
    · obtain ⟨start, hstart, hreach⟩ := hprimary s hold
      exact ⟨start, hstart, ReflTransGen.mono (fun _ _ => step_primary) _ _ hreach⟩
    · exact hnew s (Nat.le_of_not_lt hold) hs
  | coAccessible => exact coAccessible_result h hkeys
  | string => exact string_result h hkeys
  | weightedCycles =>
    obtain ⟨s, arc, harc, hweight, hback⟩ := hprimary
    refine iff_of_true ⟨s, arc, ?_, hweight, ?_⟩ trivial
    · rw [harcs]
      exact List.mem_append_left _ harc
    · rw [hstep]
      exact ReflTransGen.mono (fun _ _ => step_primary) _ _ hback

theorem not_holds_of_neither (p : TrinaryProperty) (hprimary : ¬ Holds m.primary p)
    (hsecondary : ¬ Holds m.secondary p) : ¬ Holds m.result p ↔ NegativeNeeds m p := by
  have harcs := arcs_result h hkeys
  have hstep := step_result h hkeys
  have hsublist : ∀ s (label : Arc L W → L),
      ((m.primary.arcs s).map label).Sublist ((m.result.arcs s).map label) := by
    intro s label
    rw [harcs]
    exact (List.sublist_append_left _ _).map label
  have hsome : ∀ P : Arc L W → Prop, ¬ SomeArc P m.primary → ¬ SomeArc P m.secondary →
      ¬ SomeArc P m.result := by
    rintro P hp hs ⟨s, arc, harc, hholds⟩
    have hall : ∀ fst : VectorFst L W, ¬ SomeArc P fst → EveryArc (fun arc => ¬ P arc) fst :=
      fun fst hnot s arc harc hholds => hnot ⟨s, arc, harc, hholds⟩
    rw [harcs] at harc
    exact forall_joined (hall _ hp) (hall _ hs) s arc harc hholds
  cases p with
  | acceptor =>
    refine iff_of_true (fun hall => hprimary fun s arc harc => ?_) trivial
    exact hall s arc (by rw [harcs]; exact List.mem_append_left _ harc)
  | iDeterministic =>
    exact iff_of_true (fun hall => hprimary fun s => (hsublist s _).nodup (hall s)) trivial
  | oDeterministic =>
    exact iff_of_true (fun hall => hprimary fun s => (hsublist s _).nodup (hall s)) trivial
  | epsilons => exact iff_of_true (hsome _ hprimary hsecondary) trivial
  | iEpsilons => exact iff_of_true (hsome _ hprimary hsecondary) trivial
  | oEpsilons => exact iff_of_true (hsome _ hprimary hsecondary) trivial
  | iLabelSorted =>
    exact iff_of_true (fun hall => hprimary fun s => (hall s).sublist (hsublist s _)) trivial
  | oLabelSorted =>
    exact iff_of_true (fun hall => hprimary fun s => (hall s).sublist (hsublist s _)) trivial
  | weighted =>
    have hnone : ¬ SomeArc (fun arc => PropertyBits.Nontrivial arc.weight) m.result :=
      hsome _ (fun hp => hprimary (Or.inl hp)) fun hs => hsecondary (Or.inl hs)
    simp only [Holds, NegativeNeeds, hnone, false_or, not_exists, finalWeight_result h hkeys]
  | cyclic => simp only [Holds, NegativeNeeds, not_exists, hstep]
  | initialCyclic =>
    simp only [Holds, NegativeNeeds, not_exists, not_and, hstep]
    exact Iff.rfl
  | topSorted =>
    refine iff_of_true (fun hall => hprimary fun s arc harc => ?_) trivial
    exact hall s arc (by rw [harcs]; exact List.mem_append_left _ harc)
  | accessible =>
    rw [accessible_result h hkeys]
    simp only [NegativeNeeds, not_forall, not_exists, not_and, exists_prop]
  | coAccessible =>
    rw [coAccessible_result h hkeys]
    simp only [NegativeNeeds, not_forall, not_exists, not_and, not_not, exists_prop]
  | string => exact not_congr (string_result h hkeys)
  | weightedCycles =>
    simp only [Holds, NegativeNeeds, not_exists, not_and, hstep, harcs]

end Known

section Main

variable [AddCommMonoid W] [One W] [DecidableEq W]

/- The result of a merge as its definition has it. -/
structure WellFormedUnion (m : MergeFst L W) : Prop where
  states : m.states = List.range m.numStates
  members : ∀ s, s < m.numStates ↔
    s < m.primary.numStates ∨ ∃ source, m.stateMap.find s = some source
  onto : ∀ source < m.secondary.numStates, ∃ s < m.numStates, m.stateMap.find s = some source
  arcs : ∀ s, m.arcs s = m.primary.arcs s ++ addedArcs m s
  numArcs : ∀ s, m.numArcs s = (m.arcs s).length
  numInputEpsilons : ∀ s, m.numInputEpsilons s = iepsilons (m.arcs s)
  numOutputEpsilons : ∀ s, m.numOutputEpsilons s = oepsilons (m.arcs s)
  finalWeight : ∀ s, m.finalWeight s = m.primary.finalWeight s + addedFinal m s
  known : Honest m.result

def addedInputEpsilons (m : MergeFst L W) (s : ℕ) : ℕ :=
  ((m.stateMap.find s).map m.secondary.numInputEpsilons).getD 0

def addedOutputEpsilons (m : MergeFst L W) (s : ℕ) : ℕ :=
  ((m.stateMap.find s).map m.secondary.numOutputEpsilons).getD 0

/- The counts the operands keep at a state add up to the epsilons on their arcs. -/
def CountsAddUp (m : MergeFst L W) (s : ℕ) : Prop :=
  m.primary.numInputEpsilons s + addedInputEpsilons m s =
      iepsilons (m.primary.arcs s) + iepsilons (addedArcs m s) ∧
    m.primary.numOutputEpsilons s + addedOutputEpsilons m s =
      oepsilons (m.primary.arcs s) + oepsilons (addedArcs m s)

/- What keeps a merge from going wrong, read off its operands and its map. -/
structure MergesWell (m : MergeFst L W) : Prop where
  keys : KeysInRange m
  counts : ∀ s, CountsAddUp m s
  positive : ∀ p : TrinaryProperty, Held m.primary.properties p.positive →
    Held m.secondary.properties p.positive → PositiveNeeds m p
  negative : ∀ p : TrinaryProperty, Held m.primary.properties p.negative →
    Held m.secondary.properties p.negative → NegativeNeeds m p

variable {primary secondary : VectorFst L W} {stateMap : MergeStateMap} {m : MergeFst L W}

theorem numArcs_eq (s : ℕ) : m.numArcs s = (m.arcs s).length := by
  unfold MergeFst.numArcs MergeFst.arcs
  rw [List.length_append]
  congr 1
  · split <;> simp [VectorFst.numArcs_eq]
  · cases m.stateMap.find s <;> simp [VectorFst.numArcs_eq]

theorem numInputEpsilons_eq (s : ℕ) :
    m.numInputEpsilons s = m.primary.numInputEpsilons s + addedInputEpsilons m s := by
  unfold MergeFst.numInputEpsilons addedInputEpsilons MergeFst.inPrimary
  by_cases hs : s < m.primary.numStates
  · simp [hs]
  · have hnone : m.primary.states[s]? = none := List.getElem?_eq_none (Nat.le_of_not_lt hs)
    simp [hs, VectorFst.numInputEpsilons, hnone]

theorem numOutputEpsilons_eq (s : ℕ) :
    m.numOutputEpsilons s = m.primary.numOutputEpsilons s + addedOutputEpsilons m s := by
  unfold MergeFst.numOutputEpsilons addedOutputEpsilons MergeFst.inPrimary
  by_cases hs : s < m.primary.numStates
  · simp [hs]
  · have hnone : m.primary.states[s]? = none := List.getElem?_eq_none (Nat.le_of_not_lt hs)
    simp [hs, VectorFst.numOutputEpsilons, hnone]

theorem countsAddUp_iff (s : ℕ) : CountsAddUp m s ↔
    m.numInputEpsilons s = iepsilons (m.arcs s) ∧ m.numOutputEpsilons s = oepsilons (m.arcs s) := by
  rw [numInputEpsilons_eq, numOutputEpsilons_eq, arcs_eq]
  simp only [CountsAddUp, iepsilons, oepsilons, joinedArcs, List.countP_append]

theorem getLsbD_merged {p q : BitVec 64} {i : ℕ} (hin : kFstProperties.getLsbD i = true)
    (hout : kExpanded.getLsbD i = false) :
    (((p &&& kFstProperties) &&& (q &&& kFstProperties)) ||| kExpanded).getLsbD i = true ↔
      p.getLsbD i = true ∧ q.getLsbD i = true := by
  simp only [BitVec.getLsbD_or, BitVec.getLsbD_and, hin, hout, Bool.and_true, Bool.or_false,
    Bool.and_eq_true]

theorem held_result (h : MergeFst.new primary secondary stateMap = .ok m) (p : TrinaryProperty) :
    (Held m.result.properties p.positive ↔
      Held m.primary.properties p.positive ∧ Held m.secondary.properties p.positive) ∧
    (Held m.result.properties p.negative ↔
      Held m.primary.properties p.negative ∧ Held m.secondary.properties p.negative) := by
  obtain ⟨rfl, rfl, -, -, -, hproperties⟩ := new_spec h
  have hresult : m.result.properties = m.properties := rfl
  rw [hresult, hproperties]
  simp only [ScanExact.held_positive, ScanExact.held_negative]
  constructor
  · exact getLsbD_merged (by cases p <;> decide) (by cases p <;> decide)
  · exact getLsbD_merged (by cases p <;> decide) (by cases p <;> decide)

theorem keysInRange_of_onto (h : MergeFst.new primary secondary stateMap = .ok m)
    (honto : ∀ source < m.secondary.numStates, ∃ s < m.numStates,
      m.stateMap.find s = some source) : KeysInRange m := by
  intro s source hfind
  rw [← numStates_eq h]
  obtain ⟨-, rfl, rfl, -, haccepted, -⟩ := new_spec h
  have hpair := (find_eq_some _).mp hfind
  obtain ⟨s', hs', hfind'⟩ := honto source (haccepted.sources_lt _ hpair)
  have heq := List.inj_on_of_nodup_map haccepted.sources_nodup hpair
    ((find_eq_some _).mp hfind') rfl
  cases heq
  exact hs'

theorem honest_iff (h : MergeFst.new m.primary m.secondary m.stateMap = .ok m)
    (hkeys : KeysInRange m) (hprimary : Honest m.primary) (hsecondary : Honest m.secondary) :
    Honest m.result ↔
      (∀ p : TrinaryProperty, Held m.primary.properties p.positive →
        Held m.secondary.properties p.positive → PositiveNeeds m p) ∧
      ∀ p : TrinaryProperty, Held m.primary.properties p.negative →
        Held m.secondary.properties p.negative → NegativeNeeds m p := by
  rw [← forall_and]
  refine forall_congr' fun p => and_congr ?_ ?_
  · rw [(held_result h p).1, and_imp]
    refine forall_congr' fun hp => forall_congr' fun hs => ?_
    exact holds_of_both h hkeys p ((hprimary p).1 hp) ((hsecondary p).1 hs)
  · rw [(held_result h p).2, and_imp]
    refine forall_congr' fun hp => forall_congr' fun hs => ?_
    exact not_holds_of_neither h hkeys p ((hprimary p).2 hp) ((hsecondary p).2 hs)

theorem merge_wellFormed (h : MergeFst.new primary secondary stateMap = .ok m)
    (hprimary : Honest primary) (hsecondary : Honest secondary) :
    WellFormedUnion m ↔ MergesWell m := by
  have hnum := numStates_eq h
  obtain ⟨rfl, rfl, rfl, -, haccepted, -⟩ := new_spec h
  constructor
  · intro hunion
    have hkeys := keysInRange_of_onto h hunion.onto
    obtain ⟨hpositive, hnegative⟩ := (honest_iff h hkeys hprimary hsecondary).mp hunion.known
    exact ⟨hkeys, fun s => (countsAddUp_iff s).mpr
      ⟨hunion.numInputEpsilons s, hunion.numOutputEpsilons s⟩, hpositive, hnegative⟩
  · intro hwell
    have hmembers := lt_unionStates_iff hwell.keys
    rw [← hnum] at hmembers
    refine ⟨rfl, hmembers, fun source hsource => ?_, arcs_eq, numArcs_eq,
      fun s => ((countsAddUp_iff s).mp (hwell.counts s)).1,
      fun s => ((countsAddUp_iff s).mp (hwell.counts s)).2, finalWeight_eq,
      (honest_iff h hwell.keys hprimary hsecondary).mpr ⟨hwell.positive, hwell.negative⟩⟩
    obtain ⟨s, hfind⟩ := exists_of_accepted h hsource
    exact ⟨s, (hmembers s).mpr (Or.inr ⟨source, hfind⟩), hfind⟩

def pathFst : VectorFst ℤ ℕ :=
  (((VectorFst.new.addStates 2).setStart (some 0)).addArc 0 ⟨1, 1, 1, 1⟩).setFinal 1 1

/- A state with an arc to the state of the result it is mapped to. -/
def loopFst : VectorFst ℤ ℕ := (VectorFst.new.addStates 1).addArc 0 ⟨2, 2, 1, 1⟩

def endMap : MergeStateMap := ⟨[(1, 0)], by decide⟩

def loopAtEnd : MergeFst ℤ ℕ :=
  ⟨pathFst, loopFst, endMap, 2, ((pathFst.properties &&& kFstProperties) &&&
    (loopFst.properties &&& kFstProperties)) ||| kExpanded⟩

theorem honest_pathFst : Honest pathFst :=
  honest_setFinal (honest_addArc (honest_setStart (honest_addStates honest_new 2) _) 0 _) 1 1

theorem honest_loopFst : Honest loopFst := honest_addArc (honest_addStates honest_new 1) 0 _

theorem merge_wellFormed_loop : MergeFst.new pathFst loopFst endMap = .ok loopAtEnd ∧
    (WellFormedUnion loopAtEnd ↔ MergesWell loopAtEnd) := by
  have hnew : MergeFst.new pathFst loopFst endMap = .ok loopAtEnd := rfl
  exact ⟨hnew, merge_wellFormed hnew honest_pathFst honest_loopFst⟩

/- Neither operand has a cycle, and both know it; the result has one and says it has none. -/
theorem merge_reports_acyclic : ¬ ∀ (primary secondary : VectorFst ℤ ℕ) (stateMap : MergeStateMap)
    (m : MergeFst ℤ ℕ), Honest primary → Honest secondary → CountsExact primary →
      CountsExact secondary → MergeFst.new primary secondary stateMap = .ok m →
        (∀ s, ∀ arc ∈ secondary.arcs s, arc.nextstate < m.numStates) → WellFormedUnion m := by
  intro hclaim
  have hpath : CountsExact pathFst := by
    rw [countsExact_iff]
    unfold Exact
    decide
  have hloop : CountsExact loopFst := by
    rw [countsExact_iff]
    unfold Exact
    decide
  have hunion := hclaim pathFst loopFst endMap loopAtEnd honest_pathFst honest_loopFst hpath hloop
    rfl (VectorFst.forall_arcs_of_lt (by decide))
  refine (hunion.known .cyclic).2 (by decide) ⟨1, TransGen.single ?_⟩
  exact ⟨⟨2, 2, 1, 1⟩, by decide, rfl⟩

end Main

end MergeExact

end Sicada
