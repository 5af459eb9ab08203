import Sicada.ComposeMoves
import Sicada.ComposeTables
import Sicada.ComputeExact

namespace Sicada.ComposeTablesExact

open PropertyBits ComposeMoves Paths Walk Relation

variable {fingerprint : ComposeStateTuple → ℕ} {tuple : ComposeStateTuple}

section Tables

variable {P : ComposeStateTuple → Prop}

/- A table that answers as the generic one does, for the tuples it is made for. -/
structure Implements (table : ComposeStateTable) (P : ComposeStateTuple → Prop)
    (Rel : List ComposeStateTuple → table.Table → Prop) : Prop where
  new : Rel [] table.new
  find : ∀ states t tuple, Rel states t → P tuple →
    (table.findState t tuple).1 = (BiTable.findId states tuple).1 ∧
      Rel (BiTable.findId states tuple).2 (table.findState t tuple).2
  tuple : ∀ states t s, Rel states t → table.tuple t s = states[s]?
  size : ∀ states t, Rel states t → table.size t = states.length

/- The entries are those of the generic table, each found at its fingerprint. -/
structure SameEntries (fingerprint : ComposeStateTuple → ℕ) (P : ComposeStateTuple → Prop)
    (states : List ComposeStateTuple) (t : VectorBiTable ComposeStateTuple) : Prop where
  entries : t.id2entry = states
  known : ∀ x ∈ states, P x
  places : ∀ f, t.fp2id.getD f none = states.findIdx? fun x => fingerprint x = f

variable {states : List ComposeStateTuple}

theorem findIdx?_fingerprint (hinj : ∀ t t', P t → P t' → fingerprint t = fingerprint t' → t = t')
    (hknown : ∀ x ∈ states, P x) (htuple : P tuple) :
    (states.findIdx? fun x => fingerprint x = fingerprint tuple) =
      states.findIdx? (· = tuple) := by
  induction states with
  | nil => rfl
  | cons x states ih =>
    have hsame : fingerprint x = fingerprint tuple ↔ x = tuple :=
      ⟨hinj x tuple (hknown x List.mem_cons_self) htuple, congrArg fingerprint⟩
    rw [List.findIdx?_cons, List.findIdx?_cons, ih fun y hy => hknown y (List.mem_cons_of_mem x hy)]
    simp [hsame]

theorem getD_append_none {α : Type} (places : List (Option α)) (n f : ℕ) :
    (places ++ List.replicate n none).getD f none = places.getD f none := by
  simp only [List.getD_eq_getElem?_getD]
  by_cases hf : f < places.length
  · rw [List.getElem?_append_left hf]
  · rw [List.getElem?_append_right (Nat.le_of_not_lt hf), List.getElem?_eq_none (Nat.le_of_not_lt hf),
      List.getElem?_replicate]
    split <;> rfl

theorem sameEntries_findId (hinj : ∀ t t', P t → P t' → fingerprint t = fingerprint t' → t = t')
    {t : VectorBiTable ComposeStateTuple} (h : SameEntries fingerprint P states t)
    (htuple : P tuple) :
    (VectorBiTable.findId fingerprint t tuple).1 = (BiTable.findId states tuple).1 ∧
      SameEntries fingerprint P (BiTable.findId states tuple).2
        (VectorBiTable.findId fingerprint t tuple).2 := by
  obtain ⟨hentries, hknown, hplaces⟩ := h
  have hplace := hplaces (fingerprint tuple)
  rw [findIdx?_fingerprint hinj hknown htuple] at hplace
  unfold VectorBiTable.findId BiTable.findId
  dsimp only
  rw [getD_append_none, hplace]
  cases hfind : states.findIdx? (· = tuple) with
  | some id => exact ⟨rfl, hentries, hknown, fun f => (getD_append_none _ _ f).trans (hplaces f)⟩
  | none =>
    refine ⟨congrArg List.length hentries, congrArg (· ++ [tuple]) hentries, ?_, fun f => ?_⟩
    · intro x hx
      rcases List.mem_append.mp hx with hx | hx
      · exact hknown x hx
      · exact List.mem_singleton.mp hx ▸ htuple
    · have hlt : fingerprint tuple < (t.fp2id ++
          List.replicate (fingerprint tuple + 1 - t.fp2id.length) none).length := by
        rw [List.length_append, List.length_replicate]
        omega
      rw [List.findIdx?_append, ← hplaces, List.getD_eq_getElem?_getD, List.getElem?_set]
      by_cases hf : fingerprint tuple = f
      · subst hf
        rw [if_pos rfl, if_pos hlt, hplace.trans hfind, hentries]
        simp
      · rw [if_neg hf, ← List.getD_eq_getElem?_getD, getD_append_none]
        simp [hf]

theorem implements_vector (hinj : ∀ t t', P t → P t' → fingerprint t = fingerprint t' → t = t') :
    Implements (vectorStateTable fingerprint) P (SameEntries fingerprint P) where
  new := ⟨rfl, by simp, fun f => rfl⟩
  find := fun _ _ _ h htuple => sameEntries_findId hinj h htuple
  tuple := fun _ _ _ h => by rw [← h.entries]; rfl
  size := fun _ _ h => by rw [← h.entries]; rfl

/- The ids a table gives to tuples looked up one after another. -/
def lookups (table : ComposeStateTable) : table.Table → List ComposeStateTuple → List ℕ
  | _, [] => []
  | t, tuple :: tuples =>
    (table.findState t tuple).1 :: lookups table (table.findState t tuple).2 tuples

/- Two lookups give one id only where they ask for one tuple. -/
def DistinctIds (table : ComposeStateTable) (tuples : List ComposeStateTuple) : Prop :=
  ∃ id : ComposeStateTuple → ℕ, (∀ t ∈ tuples, ∀ t' ∈ tuples, id t = id t' → t = t') ∧
    lookups table table.new tuples = tuples.map id

theorem lookups_eq {table : ComposeStateTable} {Rel : List ComposeStateTuple → table.Table → Prop}
    (h : Implements table P Rel) {tuples : List ComposeStateTuple} (htuples : ∀ t ∈ tuples, P t)
    {t : table.Table} (hrel : Rel states t) :
    lookups table t tuples = lookups genericComposeStateTable states tuples := by
  induction tuples generalizing states t with
  | nil => rfl
  | cons tuple tuples ih =>
    obtain ⟨hid, hrel'⟩ := h.find states t tuple hrel (htuples tuple List.mem_cons_self)
    exact congrArg₂ List.cons hid (ih (fun u hu => htuples u (List.mem_cons_of_mem tuple hu)) hrel')

/- The entries of the generic table once all of the tuples have been looked up. -/
def interned (states tuples : List ComposeStateTuple) : List ComposeStateTuple :=
  tuples.foldl (fun states tuple => (BiTable.findId states tuple).2) states

theorem interned_spec (hnodup : states.Nodup) (tuples : List ComposeStateTuple) :
    states <+: interned states tuples ∧ (interned states tuples).Nodup ∧
      (∀ t ∈ tuples, t ∈ interned states tuples) ∧
      lookups genericComposeStateTable states tuples =
        tuples.map fun t => (interned states tuples).idxOf t := by
  induction tuples generalizing states with
  | nil => exact ⟨List.prefix_rfl, hnodup, by simp, rfl⟩
  | cons tuple tuples ih =>
    obtain ⟨hgrow, hnodup', hid, -⟩ := BiTable.findId_spec hnodup tuple
    obtain ⟨hgrow', hnodup'', hmem, hids⟩ := ih hnodup'
    have hat : (interned (BiTable.findId states tuple).2 tuples)[(BiTable.findId states tuple).1]? =
        some tuple := by
      obtain ⟨rest, hrest⟩ := hgrow'
      rw [← hrest, List.getElem?_append_left (List.getElem?_eq_some_iff.mp hid).1, hid]
    refine ⟨hgrow.trans hgrow', hnodup'', ?_, ?_⟩
    · intro t ht
      rcases List.mem_cons.mp ht with rfl | ht
      · exact List.mem_of_getElem? hat
      · exact hmem t ht
    · obtain ⟨hlt, heq⟩ := List.getElem?_eq_some_iff.mp hat
      have hidx : (interned (BiTable.findId states tuple).2 tuples).idxOf tuple =
          (BiTable.findId states tuple).1 := by
        have hget := List.Nodup.idxOf_getElem hnodup'' _ hlt
        rwa [heq] at hget
      exact congrArg₂ List.cons hidx.symm hids

theorem distinctIds_of_implements {table : ComposeStateTable}
    {Rel : List ComposeStateTuple → table.Table → Prop} (h : Implements table P Rel)
    {tuples : List ComposeStateTuple} (htuples : ∀ t ∈ tuples, P t) : DistinctIds table tuples := by
  obtain ⟨-, -, hmem, hids⟩ := interned_spec List.nodup_nil tuples
  refine ⟨_, fun t ht t' ht' heq => ?_, (lookups_eq h htuples h.new).trans hids⟩
  exact (List.idxOf_inj (hmem t ht)).mp heq

end Tables

section Composition

variable {L W : Type} [ArcLabel L] [Zero W] [One W] [Mul W] [DecidableEq W]
  {left right : VectorFst L W} {filter : ArcFilter L W} {matchInput : ComposeStateTuple → Bool}

/- What the matchers need of the two FSTs to find all of the arcs that carry a label. -/
structure Searchable (left right : VectorFst L W) : Prop where
  sorted1 : Holds left .oLabelSorted
  sorted2 : Holds right .iLabelSorted
  labels1 : EveryArc (fun arc => arc.olabel ≠ noLabel) left
  labels2 : EveryArc (fun arc => arc.ilabel ≠ noLabel) right

/- The tuples some run of the composition may come to, whichever side it matches on. -/
inductive Reached (filter : ArcFilter L W) (left right : VectorFst L W) : ComposeStateTuple → Prop
  | start {s1 s2 : ℕ} : left.start = some s1 → right.start = some s2 →
      Reached filter left right ⟨s1, s2, .default⟩
  | move {tuple : ComposeStateTuple} {m : Move L W} : Reached filter left right tuple →
      Enabled filter left right tuple m → Reached filter left right (nextTuple filter tuple m)

/- The tables of two compositions in step, all tuples and destinations in them known. -/
structure InStep (P : ComposeStateTuple → Prop) {T : Type}
    (Rel : List ComposeStateTuple → T → Prop) (size : ℕ)
    (acc : List ComposeStateTuple × List (Arc L W)) (acc' : T × List (Arc L W)) : Prop where
  rel : Rel acc.1 acc'.1
  arcs : acc'.2 = acc.2
  known : ∀ t ∈ acc.1, P t
  targets : ∀ arc ∈ acc.2, arc.nextstate < acc.1.length
  grown : size ≤ acc.1.length

structure LoopsInStep (P : ComposeStateTuple → Prop) {T : Type}
    (Rel : List ComposeStateTuple → T → Prop) (l : ComposeLoop L W) (l' : TableLoop T L W) :
    Prop where
  rel : Rel l.states l'.states
  pending : l'.pending = l.pending
  done : l'.done = l.done
  ofst : l'.ofst = l.ofst
  known : ∀ t ∈ l.states, P t
  inRange : ∀ q ∈ l.pending, q < l.states.length

section Simulation

variable {P : ComposeStateTuple → Prop} {table : ComposeStateTable}
  {Rel : List ComposeStateTuple → table.Table → Prop} (himpl : Implements table P Rel)
  {size : ℕ} {acc : List ComposeStateTuple × List (Arc L W)} {acc' : table.Table × List (Arc L W)}

def tryPairIn (table : ComposeStateTable) (filterArc : Arc L W → Arc L W → Option CharFilterState)
    (acc : table.Table × List (Arc L W)) (arc1 arc2 : Arc L W) : table.Table × List (Arc L W) :=
  match filterArc arc1 arc2 with
  | none => acc
  | some fs =>
    ((table.findState acc.1 ⟨arc1.nextstate, arc2.nextstate, fs⟩).2,
      acc.2 ++ [⟨arc1.ilabel, arc2.olabel, arc1.weight * arc2.weight,
        (table.findState acc.1 ⟨arc1.nextstate, arc2.nextstate, fs⟩).1⟩])

theorem matchArcIn_eq (table : ComposeStateTable) (matcher1 matcher2 : SortedMatcher L W)
    (filterArc : Arc L W → Arc L W → Option CharFilterState) (s1 s2 : ℕ) (side : Bool)
    (acc : table.Table × List (Arc L W)) (arc : Arc L W) :
    matchArcIn table matcher1 matcher2 filterArc s1 s2 side acc arc =
      if side then (matcher2.find s2 arc.olabel).foldl
        (fun acc => tryPairIn table filterArc acc arc) acc
      else (matcher1.find s1 arc.ilabel).foldl
        (fun acc other => tryPairIn table filterArc acc other arc) acc := by
  unfold tryPairIn
  cases side <;> rfl

include himpl

theorem find_inStep (h : InStep P Rel size acc acc') (htuple : P tuple) (arc : ℕ → Arc L W)
    (harc : ∀ n, (arc n).nextstate = n) :
    InStep P Rel size
      ((BiTable.findId acc.1 tuple).2, acc.2 ++ [arc (BiTable.findId acc.1 tuple).1])
      ((table.findState acc'.1 tuple).2, acc'.2 ++ [arc (table.findState acc'.1 tuple).1]) := by
  obtain ⟨hid, hrel⟩ := himpl.find acc.1 acc'.1 tuple h.rel htuple
  have hgrow := (BiTable.prefix_findId acc.1 tuple).length_le
  refine ⟨hrel, ?_, fun t ht => ?_, fun a ha => ?_, h.grown.trans hgrow⟩
  · dsimp only
    rw [h.arcs, hid]
  · dsimp only at ht
    rcases BiTable.findId_cases acc.1 tuple with ⟨id, -, heq⟩ | heq
    · rw [heq] at ht
      exact h.known t ht
    · rw [heq] at ht
      rcases List.mem_append.mp ht with ht | ht
      · exact h.known t ht
      · exact List.mem_singleton.mp ht ▸ htuple
  · rcases List.mem_append.mp ha with ha | ha
    · exact (h.targets a ha).trans_le hgrow
    · rw [List.mem_singleton.mp ha, harc]
      exact (List.getElem?_eq_some_iff.mp (BiTable.getElem?_findId acc.1 tuple)).1

theorem tryPair_inStep (h : InStep P Rel size acc acc')
    {filterArc : Arc L W → Arc L W → Option CharFilterState} {arc1 arc2 : Arc L W}
    (hknown : ∀ fs, filterArc arc1 arc2 = some fs → P ⟨arc1.nextstate, arc2.nextstate, fs⟩) :
    InStep P Rel size (tryPair filterArc acc arc1 arc2) (tryPairIn table filterArc acc' arc1 arc2) := by
  unfold tryPair tryPairIn
  cases hfs : filterArc arc1 arc2 with
  | none => exact h
  | some fs =>
    exact find_inStep himpl h (hknown fs hfs)
      (fun n => ⟨arc1.ilabel, arc2.olabel, arc1.weight * arc2.weight, n⟩) fun _ => rfl

variable (hsearch : Searchable left right)
  (hclosed : ∀ tuple (m : Move L W), P tuple → Enabled filter left right tuple m →
    P (nextTuple filter tuple m))
include hsearch hclosed

theorem matchArcs_inStep (htuple : P tuple) (side : Bool) (h : InStep P Rel size acc acc') :
    InStep P Rel size
      ((walkedArcs ⟨left, true⟩ ⟨right, false⟩ tuple.s1 tuple.s2 side).foldl
        (matchArcThrough ⟨left, true⟩ ⟨right, false⟩ (filter tuple) tuple.s1 tuple.s2 side) acc)
      ((walkedArcs ⟨left, true⟩ ⟨right, false⟩ tuple.s1 tuple.s2 side).foldl
        (matchArcIn table ⟨left, true⟩ ⟨right, false⟩ (filter tuple) tuple.s1 tuple.s2 side)
        acc') := by
  have hfold : (walkedArcs ⟨left, true⟩ ⟨right, false⟩ tuple.s1 tuple.s2 side).foldl
      (matchArcIn table ⟨left, true⟩ ⟨right, false⟩ (filter tuple) tuple.s1 tuple.s2 side) acc' =
      (candidates left right tuple side).foldl (fun acc m =>
        tryPairIn table (filter tuple) acc (arcOf1 tuple m.1) (arcOf2 tuple m.2)) acc' := by
    rw [← foldl_candidates hsearch.sorted1 hsearch.sorted2]
    refine congrArg (fun f => List.foldl f acc' _) ?_
    funext acc arc
    exact matchArcIn_eq table _ _ _ _ _ side acc arc
  rw [foldl_matchArcThrough hsearch.sorted1 hsearch.sorted2, hfold]
  refine List.foldl_rel h fun m hm acc acc' hacc => tryPair_inStep himpl hacc fun fs hfs => ?_
  have hmeets := (mem_candidates_of_labels hsearch.labels1 hsearch.labels2).mp hm
  have hanswer : answer filter tuple m = some fs := hfs
  have hnext := hclosed tuple m htuple ⟨hmeets, Option.isSome_of_eq_some hanswer⟩
  unfold nextTuple nextFilter at hnext
  rwa [hanswer] at hnext

omit hsearch hclosed himpl in
theorem addArcs_inStep {l : ComposeLoop L W} {l' : TableLoop table.Table L W} (state : ℕ)
    (h : LoopsInStep P Rel l l') {arcs : List (Arc L W)}
    (htargets : ∀ arc ∈ arcs, arc.nextstate < l.states.length) :
    LoopsInStep P Rel (arcs.foldl (composeAddArc state) l) (arcs.foldl (tableAddArc state) l') := by
  induction arcs generalizing l l' with
  | nil => exact h
  | cons arc arcs ih =>
    have hlt := htargets arc List.mem_cons_self
    refine ih ?_ fun a ha => ?_
    · unfold composeAddArc tableAddArc
      dsimp only
      rw [h.done]
      split
      · exact ⟨h.rel, h.pending, h.done, congrArg (·.addArc state arc) h.ofst, h.known, h.inRange⟩
      · refine ⟨h.rel, congrArg (arc.nextstate :: ·) h.pending, rfl,
          congrArg (·.addArc state arc) h.ofst, h.known, fun q hq => ?_⟩
        rcases List.mem_cons.mp hq with rfl | hq
        · exact hlt
        · exact h.inRange q hq
    · have hstates : (composeAddArc state l arc).states = l.states := by
        unfold composeAddArc
        dsimp only
        split <;> rfl
      rw [hstates]
      exact htargets a (List.mem_cons_of_mem arc ha)

variable (matchInput) in
theorem composeStep_inStep {l : ComposeLoop L W} {l' : TableLoop table.Table L W}
    (h : LoopsInStep P Rel l l') :
    Option.Rel (LoopsInStep P Rel)
      (composeStepThrough filter ⟨left, true⟩ ⟨right, false⟩ matchInput l)
      (composeStepIn table filter ⟨left, true⟩ ⟨right, false⟩ matchInput l') := by
  unfold composeStepThrough composeStepIn
  rw [h.pending]
  cases hpending : l.pending with
  | nil => exact .none
  | cons state pending =>
    have hlt : state < l.states.length := h.inRange state (hpending ▸ List.mem_cons_self)
    have hget : l.states[state]? = some l.states[state] := List.getElem?_eq_getElem hlt
    have htuple : (table.tuple l'.states state).getD ⟨0, 0, .default⟩ =
        l.states.getD state ⟨0, 0, .default⟩ := by
      rw [himpl.tuple l.states l'.states state h.rel, List.getD_eq_getElem?_getD]
    have hknown : P (l.states.getD state ⟨0, 0, .default⟩) := by
      rw [List.getD_eq_getElem?_getD, hget]
      exact h.known _ (List.getElem_mem hlt)
    have hacc : InStep P Rel l.states.length (l.states, ([] : List (Arc L W))) (l'.states, []) :=
      ⟨h.rel, rfl, h.known, by simp, le_rfl⟩
    have harcs := matchArcs_inStep himpl hsearch hclosed hknown
      (matchInput (l.states.getD state ⟨0, 0, .default⟩)) hacc
    dsimp only
    rw [htuple, h.ofst, h.done]
    generalize (walkedArcs ⟨left, true⟩ ⟨right, false⟩ _ _ _).foldl (matchArcThrough _ _ _ _ _ _)
      (l.states, []) = acc at harcs ⊢
    generalize (walkedArcs ⟨left, true⟩ ⟨right, false⟩ _ _ _).foldl (matchArcIn _ _ _ _ _ _ _)
      (l'.states, []) = acc' at harcs ⊢
    obtain ⟨states, arcs⟩ := acc
    obtain ⟨states', arcs'⟩ := acc'
    obtain rfl : arcs' = arcs := harcs.arcs
    refine .some (addArcs_inStep state ⟨harcs.rel, rfl, rfl, ?_, harcs.known, ?_⟩ harcs.targets)
    · exact congrArg (VectorFst.growTo _) (himpl.size states states' harcs.rel)
    · intro q hq
      exact (h.inRange q (hpending ▸ List.mem_cons_of_mem state hq)).trans_le harcs.grown

omit hsearch hclosed in
theorem start_inStep (start : ComposeStateTuple) (hstart : P start) (ofst : VectorFst L W) :
    LoopsInStep P Rel ⟨(BiTable.findId [] start).2, [(BiTable.findId [] start).1],
        {(BiTable.findId [] start).1}, ofst.addState.setStart (some (BiTable.findId [] start).1)⟩
      ⟨(table.findState table.new start).2, [(table.findState table.new start).1],
        {(table.findState table.new start).1},
        ofst.addState.setStart (some (table.findState table.new start).1)⟩ := by
  obtain ⟨hid, hrel⟩ := himpl.find [] table.new start himpl.new hstart
  rw [hid]
  refine ⟨hrel, rfl, rfl, rfl, fun t ht => ?_, fun q hq => ?_⟩
  · obtain rfl := List.mem_singleton.mp ht
    exact hstart
  · obtain rfl := List.mem_singleton.mp hq
    exact Nat.zero_lt_one

/- A table that answers as the generic one gives the composition the generic one gives. -/
theorem composeIn_eq (hstart : ∀ s1 s2, left.start = some s1 → right.start = some s2 →
      P ⟨s1, s2, .default⟩) (fuel : ℕ) (ofst : VectorFst L W) :
    composeIn table filter fuel ⟨left, true⟩ ⟨right, false⟩ matchInput ofst =
      composeThrough filter fuel ⟨left, true⟩ ⟨right, false⟩ matchInput ofst := by
  unfold composeIn composeThrough
  cases hleft : left.start with
  | none => simp only [hleft]
  | some s1 =>
    cases hright : right.start with
    | none => simp only [hleft, hright]
    | some s2 =>
      simp only [hleft, hright]
      have hrel := Loop.runLoop_rel
        (fun _ _ => composeStep_inStep matchInput himpl hsearch hclosed) fuel
        (start_inStep himpl ⟨s1, s2, .default⟩ (hstart s1 s2 hleft hright) ofst.deleteAllStates)
      revert hrel
      generalize Loop.runLoop _ fuel _ = x
      generalize Loop.runLoop _ fuel _ = y
      intro hrel
      cases hrel with
      | none => rfl
      | some h => exact congrArg (fun f => some (VectorFst.setProperties f _ _)) h.ofst

end Simulation

theorem implements_generic (P : ComposeStateTuple → Prop) :
    Implements genericComposeStateTable P Eq where
  new := rfl
  find := fun states t tuple h _ => by
    subst h
    exact ⟨rfl, rfl⟩
  tuple := fun states t s h => by
    subst h
    rfl
  size := fun states t h => by
    subst h
    rfl

variable (filter left right matchInput) in
/- The tuples a run of the composition has come to. -/
def Visited (tuple : ComposeStateTuple) : Prop :=
  ∃ start1 start2, left.start = some start1 ∧ right.start = some start2 ∧ ∃ ofst l,
    ReflTransGen (fun l l' =>
      composeStepThrough filter ⟨left, true⟩ ⟨right, false⟩ matchInput l = some l')
      ⟨[⟨start1, start2, .default⟩], [0], {0}, ofst⟩ l ∧ tuple ∈ l.states

theorem right_of_rel {α β : Type} {R : α → β → Prop} {a : α} {y : Option β}
    (h : Option.Rel R (some a) y) : ∃ b, R a b := by
  cases h with
  | some h => exact ⟨_, h⟩

theorem reached_of_visited (hsearch : Searchable left right)
    (h : Visited left right filter matchInput tuple) : Reached filter left right tuple := by
  obtain ⟨start1, start2, hleft, hright, ofst, l, hrun, hmem⟩ := h
  obtain ⟨l', hl⟩ : ∃ l', LoopsInStep (Reached filter left right) Eq l l' := by
    clear hmem
    induction hrun with
    | refl =>
      refine ⟨⟨_, _, _, _⟩, rfl, rfl, rfl, rfl, fun t ht => ?_, fun q hq => ?_⟩
      · obtain rfl := List.mem_singleton.mp ht
        exact .start hleft hright
      · obtain rfl := List.mem_singleton.mp hq
        exact Nat.zero_lt_one
    | tail _ hstep ih =>
      obtain ⟨l₁, hl₁⟩ := ih
      have hrel := composeStep_inStep matchInput
        (implements_generic (Reached filter left right)) hsearch (fun _ _ => .move) hl₁
      rw [hstep] at hrel
      exact right_of_rel hrel
  exact hl.known tuple hmem

variable {t : ComposeStateTuple} {fst : VectorFst L W}

section Keys

variable {key : ComposeStateTuple → ℕ}

variable (key) in
/- Where each move goes one up and there is never a choice of moves, one tuple is reached at each
height. -/
theorem reached_unique
    (hstart : ∀ s1 s2, left.start = some s1 → right.start = some s2 → key ⟨s1, s2, .default⟩ = 0)
    (hup : ∀ tuple (m : Move L W), Enabled filter left right tuple m →
      key (nextTuple filter tuple m) = key tuple + 1)
    (hone : ∀ tuple (m m' : Move L W), Enabled filter left right tuple m →
      Enabled filter left right tuple m' → m = m') {t' : ComposeStateTuple}
    (h : Reached filter left right t) (h' : Reached filter left right t') (hkey : key t = key t') :
    t = t' := by
  induction h generalizing t' with
  | start hleft hright =>
    rw [hstart _ _ hleft hright] at hkey
    cases h' with
    | start hleft' hright' =>
      cases Option.some.inj (hleft.symm.trans hleft')
      cases Option.some.inj (hright.symm.trans hright')
      rfl
    | move _ hm =>
      rw [hup _ _ hm] at hkey
      omega
  | move _ hm ih =>
    rw [hup _ _ hm] at hkey
    cases h' with
    | start hleft' hright' =>
      rw [hstart _ _ hleft' hright'] at hkey
      omega
    | move hreached hm' =>
      rw [hup _ _ hm'] at hkey
      obtain rfl := ih hreached (by omega)
      rw [hone _ _ _ hm hm']

end Keys

/- No two arcs leave a state. -/
def OneArc (fst : VectorFst L W) : Prop := ∀ s e e', Leaves fst s e → Leaves fst s e' → e = e'

theorem oneArc_of_string (hrange : fst.InRange) (h : Holds fst .string) :
    OneArc fst := by
  intro s e e' he he'
  have hs : s < fst.numStates := by
    by_contra hs
    have harc := mem_of_leaves he
    rw [VectorFst.arcs_of_le (Nat.le_of_not_lt hs)] at harc
    cases harc
  obtain ⟨hchain, hlast, hone⟩ := h.2 s hs
  by_cases hfinal : fst.finalWeight s = 0
  · have hlength := (VectorFst.numArcs_eq fst s).symm.trans (hone hfinal)
    have hfirst : ∀ e, Leaves fst s e → e.1 = 0 := fun e he => by
      have hlt := (List.getElem?_eq_some_iff.mp he).1
      omega
    refine Prod.ext ((hfirst e he).trans (hfirst e' he').symm) ?_
    have hget : (fst.arcs s)[0]? = some e.2 := hfirst e he ▸ he
    have hget' : (fst.arcs s)[0]? = some e'.2 := hfirst e' he' ▸ he'
    exact Option.some.inj (hget.symm.trans hget')
  · -- A final state comes last, and an arc of it would lead past the end.
    have hnext := hchain e.2 (mem_of_leaves he)
    have hlt := hrange.arcs s e.2 (mem_of_leaves he)
    have hend := hlast hfinal
    omega

theorem leaves_unique {label : Arc L W → L} (h : UniqueLabels label fst) {s : ℕ}
    {e e' : ℕ × Arc L W} (he : Leaves fst s e) (he' : Leaves fst s e')
    (hlabel : label e.2 = label e'.2) : e = e' := by
  have hmap : ∀ {e : ℕ × Arc L W}, Leaves fst s e →
      ((fst.arcs s).map label)[e.1]? = some (label e.2) := fun he => by
    rw [List.getElem?_map, he]
    rfl
  have hplace : e.1 = e'.1 := by
    have heq := (hmap he).trans ((congrArg some hlabel).trans (hmap he').symm)
    have hlt := (List.getElem?_eq_some_iff.mp (hmap he)).1
    exact (List.getElem?_inj hlt (h s)).mp heq
  refine Prod.ext hplace ?_
  have hget : (fst.arcs s)[e'.1]? = some e.2 := hplace ▸ he
  exact Option.some.inj (hget.symm.trans he')

/- A move takes an arc of the first FST where the second reads no epsilon. -/
theorem takes_left (hnoeps : EveryArc (fun arc => sideLabel false arc ≠ epsilon) right)
    {m : Move L W} (h : Meets left right tuple m) :
    ∃ e1, Leaves left tuple.s1 e1 ∧ (m = (some e1, none) ∧ e1.2.olabel = epsilon ∨
      ∃ e2, m = (some e1, some e2) ∧ Leaves right tuple.s2 e2 ∧ e1.2.olabel = e2.2.ilabel ∧
        e2.2.ilabel ≠ epsilon) := by
  obtain ⟨_ | e1, _ | e2⟩ := m
  · exact h.elim
  · exact absurd h.2 (hnoeps _ _ (mem_of_leaves h.1))
  · exact ⟨e1, h.1, Or.inl ⟨rfl, h.2⟩⟩
  · exact ⟨e1, h.1, Or.inr ⟨e2, rfl, h.2.1, h.2.2, hnoeps _ _ (mem_of_leaves h.2.1)⟩⟩

/- And one of the second where the first writes none. -/
theorem takes_right (hnoeps : EveryArc (fun arc => sideLabel true arc ≠ epsilon) left)
    {m : Move L W} (h : Meets left right tuple m) :
    ∃ e2, Leaves right tuple.s2 e2 ∧ (m = (none, some e2) ∧ e2.2.ilabel = epsilon ∨
      ∃ e1, m = (some e1, some e2) ∧ Leaves left tuple.s1 e1 ∧ e1.2.olabel = e2.2.ilabel ∧
        e1.2.olabel ≠ epsilon) := by
  obtain ⟨_ | e1, _ | e2⟩ := m
  · exact h.elim
  · exact ⟨e2, h.1, Or.inl ⟨rfl, h.2⟩⟩
  · exact absurd h.2 (hnoeps _ _ (mem_of_leaves h.1))
  · exact ⟨e2, h.2.1, Or.inr ⟨e1, rfl, h.1, h.2.2, hnoeps _ _ (mem_of_leaves h.1)⟩⟩

theorem chain_of_string (h : Holds fst .string) :
    ∀ s, ∀ arc ∈ fst.arcs s, arc.nextstate = s + 1 :=
  VectorFst.forall_arcs_of_lt fun s hs => (h.2 s hs).1

/- Composing a string with an FST that has one continuation for each label. -/
theorem reached_stringDet (hrange : left.InRange) (hstring : Holds left .string)
    (hdet : UniqueLabels (sideLabel false) right)
    (hnoeps : EveryArc (fun arc => sideLabel false arc ≠ epsilon) right) {t' : ComposeStateTuple}
    (h : Reached filter left right t) (h' : Reached filter left right t') (hs1 : t.s1 = t'.s1) :
    t = t' := by
  have hone := oneArc_of_string hrange hstring
  refine reached_unique (·.s1) (fun s1 s2 hleft _ => hstring.1 s1 hleft) ?_ ?_ h h' hs1
  · intro tuple m hm
    obtain ⟨e1, he1, ⟨rfl, -⟩ | ⟨e2, rfl, -, -, -⟩⟩ := takes_left hnoeps hm.1
    · exact chain_of_string hstring _ _ (mem_of_leaves he1)
    · exact chain_of_string hstring _ _ (mem_of_leaves he1)
  · intro tuple m m' hm hm'
    obtain ⟨e1, he1, hcase⟩ := takes_left hnoeps hm.1
    obtain ⟨e1', he1', hcase'⟩ := takes_left hnoeps hm'.1
    obtain rfl := hone _ _ _ he1 he1'
    rcases hcase with ⟨rfl, heps⟩ | ⟨e2, rfl, he2, hmeet, hne⟩
    · rcases hcase' with ⟨rfl, -⟩ | ⟨e2', rfl, -, hmeet', hne'⟩
      · rfl
      · exact absurd (hmeet'.symm.trans heps) hne'
    · rcases hcase' with ⟨rfl, heps'⟩ | ⟨e2', rfl, he2', hmeet', -⟩
      · exact absurd (hmeet.symm.trans heps') hne
      · rw [leaves_unique hdet he2 he2' (hmeet.symm.trans hmeet')]

/- Composing with a string on the other side. -/
theorem reached_detString (hrange : right.InRange) (hstring : Holds right .string)
    (hdet : UniqueLabels (sideLabel true) left)
    (hnoeps : EveryArc (fun arc => sideLabel true arc ≠ epsilon) left) {t' : ComposeStateTuple}
    (h : Reached filter left right t) (h' : Reached filter left right t') (hs2 : t.s2 = t'.s2) :
    t = t' := by
  have hone := oneArc_of_string hrange hstring
  refine reached_unique (·.s2) (fun s1 s2 _ hright => hstring.1 s2 hright) ?_ ?_ h h' hs2
  · intro tuple m hm
    obtain ⟨e2, he2, ⟨rfl, -⟩ | ⟨e1, rfl, -, -, -⟩⟩ := takes_right hnoeps hm.1
    · exact chain_of_string hstring _ _ (mem_of_leaves he2)
    · exact chain_of_string hstring _ _ (mem_of_leaves he2)
  · intro tuple m m' hm hm'
    obtain ⟨e2, he2, hcase⟩ := takes_right hnoeps hm.1
    obtain ⟨e2', he2', hcase'⟩ := takes_right hnoeps hm'.1
    obtain rfl := hone _ _ _ he2 he2'
    rcases hcase with ⟨rfl, heps⟩ | ⟨e1, rfl, he1, hmeet, hne⟩
    · rcases hcase' with ⟨rfl, -⟩ | ⟨e1', rfl, -, hmeet', hne'⟩
      · rfl
      · exact absurd (hmeet'.trans heps) hne'
    · rcases hcase' with ⟨rfl, heps'⟩ | ⟨e1', rfl, he1', hmeet', -⟩
      · exact absurd (hmeet.trans heps') hne
      · rw [leaves_unique hdet he1 he1' (hmeet.trans hmeet'.symm)]

theorem inRange_of_reached (hrange1 : left.InRange) (hrange2 : right.InRange)
    (h : Reached filter left right t) :
    t.s1 < left.numStates ∧ t.s2 < right.numStates := by
  induction h with
  | start hleft hright => exact ⟨hrange1.start _ hleft, hrange2.start _ hright⟩
  | @move tuple m _ hm ih =>
    obtain ⟨_ | e1, _ | e2⟩ := m
    · exact hm.1.elim
    · exact ⟨ih.1, hrange2.arcs _ _ (mem_of_leaves hm.1.1)⟩
    · exact ⟨hrange1.arcs _ _ (mem_of_leaves hm.1.1), ih.2⟩
    · exact ⟨hrange1.arcs _ _ (mem_of_leaves hm.1.1), hrange2.arcs _ _ (mem_of_leaves hm.1.2.1)⟩

theorem wrap_of_lt {n : ℕ} (h : n < usizeModulus) : wrap n = n := Nat.mod_eq_of_lt h

theorem hashValue_le (fs : CharFilterState) : fs.hashValue ≤ 2 := by
  cases fs <;> decide

theorem hashValue_injective : Function.Injective CharFilterState.hashValue := by
  intro fs fs' h
  cases fs <;> cases fs' <;> first | rfl | exact absurd h (by decide)

/- No digit runs over into the next where the product of their counts fits. -/
theorem fingerprint_eq {n1 n2 : ℕ} (hfits : n1 * n2 * 3 < usizeModulus) (h : t.s1 < n1 ∧ t.s2 < n2) :
    t.s1 + t.s2 * n1 < n1 * n2 ∧
      (ComposeFingerprint.new n1 n2).fingerprint t =
        t.s1 + t.s2 * n1 + t.fs.hashValue * (n1 * n2) := by
  have hlow : t.s1 + t.s2 * n1 < n1 * n2 := by
    have hrow : (t.s2 + 1) * n1 ≤ n2 * n1 := Nat.mul_le_mul_right n1 h.2
    rw [Nat.succ_mul, Nat.mul_comm n2] at hrow
    omega
  have hhigh : t.fs.hashValue * (n1 * n2) ≤ 2 * (n1 * n2) :=
    Nat.mul_le_mul_right _ (hashValue_le t.fs)
  have hmult : min (n1 * n2) (usizeModulus - 1) = n1 * n2 := by omega
  refine ⟨hlow, ?_⟩
  unfold ComposeFingerprint.fingerprint ComposeFingerprint.new
  rw [hmult, wrap_of_lt (n := t.s2 * n1) (by omega), wrap_of_lt (n := t.s1 + t.s2 * n1) (by omega),
    wrap_of_lt (n := t.fs.hashValue * (n1 * n2)) (by omega), wrap_of_lt (by omega)]

theorem digits_unique {n a a' b b' : ℕ} (ha : a < n) (ha' : a' < n)
    (h : a + b * n = a' + b' * n) : a = a' ∧ b = b' := by
  have hmod : (a + b * n) % n = (a' + b' * n) % n := by rw [h]
  rw [Nat.add_mul_mod_self_right, Nat.add_mul_mod_self_right, Nat.mod_eq_of_lt ha,
    Nat.mod_eq_of_lt ha'] at hmod
  subst hmod
  exact ⟨rfl, Nat.eq_of_mul_eq_mul_right (by omega) (Nat.add_left_cancel h)⟩

/- The digits of a tuple can be read off its fingerprint. -/
theorem fingerprint_injective {n1 n2 : ℕ} (hfits : n1 * n2 * 3 < usizeModulus)
    {t' : ComposeStateTuple} (h : t.s1 < n1 ∧ t.s2 < n2) (h' : t'.s1 < n1 ∧ t'.s2 < n2)
    (heq : (ComposeFingerprint.new n1 n2).fingerprint t =
      (ComposeFingerprint.new n1 n2).fingerprint t') : t = t' := by
  obtain ⟨hlow, hfp⟩ := fingerprint_eq hfits h
  obtain ⟨hlow', hfp'⟩ := fingerprint_eq hfits h'
  rw [hfp, hfp'] at heq
  obtain ⟨hpair, hhash⟩ := digits_unique hlow hlow' heq
  obtain ⟨hs1, hs2⟩ := digits_unique h.1 h'.1 hpair
  obtain ⟨s1, s2, fs⟩ := t
  obtain ⟨s1', s2', fs'⟩ := t'
  obtain rfl : s1 = s1' := hs1
  obtain rfl : s2 = s2' := hs2
  obtain rfl : fs = fs' := hashValue_injective hhash
  rfl

/- A table whose fingerprint keeps apart the tuples a run may come to never merges two of them. -/
theorem vectorStateTable_exact (hsearch : Searchable left right)
    (hinj : ∀ t t', Reached filter left right t → Reached filter left right t' →
      fingerprint t = fingerprint t' → t = t') :
    (∀ tuples, (∀ t ∈ tuples, Visited left right filter matchInput t) →
      DistinctIds (vectorStateTable fingerprint) tuples) ∧
    ∀ fuel ofst, composeIn (vectorStateTable fingerprint) filter fuel ⟨left, true⟩ ⟨right, false⟩
      matchInput ofst = composeThrough filter fuel ⟨left, true⟩ ⟨right, false⟩ matchInput ofst := by
  have himpl := implements_vector hinj
  exact ⟨fun tuples htuples =>
      distinctIds_of_implements himpl fun t ht => reached_of_visited hsearch (htuples t ht),
    composeIn_eq himpl hsearch (fun _ _ => .move) fun _ _ => .start⟩

theorem of_stringDetError {isMember : W → Bool} (h1 : Honest left) (h2 : Honest right)
    (h : stringDetError isMember left right = false) : Holds left .string ∧
      UniqueLabels (sideLabel false) right ∧
      EveryArc (fun arc => sideLabel false arc ≠ epsilon) right := by
  unfold stringDetError at h
  dsimp only at h
  split at h
  · cases h
  · next hleft =>
    split at h
    · cases h
    · next hright =>
      exact ⟨ComputeExact.string_of_cached h1 (not_not.mp hleft) (by decide) (by decide),
        ComputeExact.deterministicBit_of_cached h2 (not_not.mp hright) (by decide) (by decide)
          (by decide),
        ComputeExact.noEpsilonsBit_of_cached h2 (not_not.mp hright) (by decide) (by decide)⟩

theorem of_detStringError {isMember : W → Bool} (h1 : Honest left) (h2 : Honest right)
    (h : detStringError isMember left right = false) : Holds right .string ∧
      UniqueLabels (sideLabel true) left ∧
      EveryArc (fun arc => sideLabel true arc ≠ epsilon) left := by
  unfold detStringError at h
  dsimp only at h
  split at h
  · cases h
  · next hleft =>
    split at h
    · cases h
    · next hright =>
      exact ⟨ComputeExact.string_of_cached h2 (not_not.mp hright) (by decide) (by decide),
        ComputeExact.deterministicBit_of_cached h1 (not_not.mp hleft) (by decide) (by decide)
          (by decide),
        ComputeExact.noEpsilonsBit_of_cached h1 (not_not.mp hleft) (by decide) (by decide)⟩

/- Two tuples a run comes to are told apart by what each of the three tables keys on, where it has
raised no error, and the composition built with it is the one built with the generic table. -/
theorem compose_tables_exact (isMember : W → Bool) (h1 : Honest left) (h2 : Honest right)
    (hrange1 : left.InRange) (hrange2 : right.InRange) (hsearch : Searchable left right)
    (matchInput : ComposeStateTuple → Bool) :
    (stringDetError isMember left right = false →
      (∀ t t', Visited left right (sequenceFilter left) matchInput t →
        Visited left right (sequenceFilter left) matchInput t' → t.s1 = t'.s1 → t = t') ∧
      ∀ fuel ofst, composeIn stringDetComposeStateTable (sequenceFilter left) fuel ⟨left, true⟩
        ⟨right, false⟩ matchInput ofst = composeWith fuel ⟨left, true⟩ ⟨right, false⟩ matchInput
          ofst) ∧
    (detStringError isMember left right = false →
      (∀ t t', Visited left right (sequenceFilter left) matchInput t →
        Visited left right (sequenceFilter left) matchInput t' → t.s2 = t'.s2 → t = t') ∧
      ∀ fuel ofst, composeIn detStringComposeStateTable (sequenceFilter left) fuel ⟨left, true⟩
        ⟨right, false⟩ matchInput ofst = composeWith fuel ⟨left, true⟩ ⟨right, false⟩ matchInput
          ofst) ∧
    (left.numStates * right.numStates * 3 < usizeModulus →
      (∀ tuples, (∀ t ∈ tuples, Visited left right (sequenceFilter left) matchInput t) →
        DistinctIds (productComposeStateTable left right) tuples) ∧
      ∀ fuel ofst, composeIn (productComposeStateTable left right) (sequenceFilter left) fuel
        ⟨left, true⟩ ⟨right, false⟩ matchInput ofst = composeWith fuel ⟨left, true⟩ ⟨right, false⟩
          matchInput ofst) := by
  refine ⟨fun herror => ?_, fun herror => ?_, fun hfits => ?_⟩
  · obtain ⟨hstring, hdet, hnoeps⟩ := of_stringDetError h1 h2 herror
    refine ⟨fun t t' ht ht' => reached_stringDet hrange1 hstring hdet hnoeps
      (reached_of_visited hsearch ht) (reached_of_visited hsearch ht'), ?_⟩
    exact (vectorStateTable_exact hsearch fun _ _ => reached_stringDet hrange1 hstring hdet hnoeps).2
  · obtain ⟨hstring, hdet, hnoeps⟩ := of_detStringError h1 h2 herror
    refine ⟨fun t t' ht ht' => reached_detString hrange2 hstring hdet hnoeps
      (reached_of_visited hsearch ht) (reached_of_visited hsearch ht'), ?_⟩
    exact (vectorStateTable_exact hsearch fun _ _ => reached_detString hrange2 hstring hdet hnoeps).2
  · exact vectorStateTable_exact hsearch fun t t' ht ht' => fingerprint_injective hfits
      (inRange_of_reached hrange1 hrange2 ht) (inRange_of_reached hrange1 hrange2 ht')

end Composition

/- A string of one arc, composed with itself. -/
def stringRun : List (MutableOp ℤ (Tropical (WithTop ℕ))) :=
  [.addStates 2, .setStart (some 0), .addArc 0 ⟨1, 1, Tropical.trop 1, 1⟩, .setFinal 1 1]

theorem compose_tables_exact_string :
    ∃ fst, runOps MutableOp.apply stringRun VectorFst.new = some fst ∧
      (∀ t t', Visited fst fst (sequenceFilter fst) (fun _ => true) t →
        Visited fst fst (sequenceFilter fst) (fun _ => true) t' → t.s1 = t'.s1 → t = t') ∧
      (∀ t t', Visited fst fst (sequenceFilter fst) (fun _ => true) t →
        Visited fst fst (sequenceFilter fst) (fun _ => true) t' → t.s2 = t'.s2 → t = t') ∧
      ∀ fuel ofst, composeIn (productComposeStateTable fst fst) (sequenceFilter fst) fuel
        ⟨fst, true⟩ ⟨fst, false⟩ (fun _ => true) ofst =
          composeWith fuel ⟨fst, true⟩ ⟨fst, false⟩ (fun _ => true) ofst := by
  obtain ⟨fst, hrun, hstart, harcs, hlabels, hsorted, hfits, hstring, hdet⟩ :
      ∃ fst, runOps MutableOp.apply stringRun VectorFst.new = some fst ∧
        fst.start = some 0 ∧ (∀ s < fst.numStates, ∀ arc ∈ fst.arcs s, arc.nextstate < fst.numStates) ∧
        (∀ s < fst.numStates, ∀ arc ∈ fst.arcs s, arc.olabel ≠ noLabel ∧ arc.ilabel ≠ noLabel) ∧
        (∀ s < fst.numStates, (fst.arcs s).length ≤ 1) ∧
        fst.numStates = 2 ∧ stringDetError (· ≠ 0) fst fst = false ∧
          detStringError (· ≠ 0) fst fst = false :=
    ⟨_, rfl, rfl, by decide, by decide, by decide, rfl, by decide, by decide⟩
  have honest := honest_of_run hrun
  have hrange : fst.InRange := by
    refine ⟨fun s hs => ?_, VectorFst.forall_arcs_of_lt harcs⟩
    rw [hstart] at hs
    cases hs
    rw [hfits]
    decide
  have hchain : ∀ (label : Arc ℤ (Tropical (WithTop ℕ)) → ℤ), SortedLabels label fst := by
    intro label s
    have hlength : (fst.arcs s).length ≤ 1 := by
      by_cases hs : s < fst.numStates
      · exact hsorted s hs
      · rw [VectorFst.arcs_of_le (Nat.le_of_not_lt hs)]
        exact Nat.zero_le _
    rcases harcs : fst.arcs s with _ | ⟨arc, _ | ⟨arc', arcs⟩⟩
    · exact .nil
    · exact .singleton _
    · rw [harcs] at hlength
      exact absurd hlength (by simp)
  have hsearch : Searchable fst fst := ⟨hchain _, hchain _,
    VectorFst.forall_arcs_of_lt fun s hs arc harc => (hlabels s hs arc harc).1,
    VectorFst.forall_arcs_of_lt fun s hs arc harc => (hlabels s hs arc harc).2⟩
  have hexact := compose_tables_exact (· ≠ 0) honest honest hrange hrange hsearch fun _ => true
  refine ⟨fst, hrun, (hexact.1 hstring).1, (hexact.2.1 hdet).1, (hexact.2.2 ?_).2⟩
  rw [hfits]
  decide

end Sicada.ComposeTablesExact
