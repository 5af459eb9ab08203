import Sicada.Runs

namespace Sicada.EpsilonCounts

variable {L W σ : Type} [ArcLabel L]

def iepsilons (arcs : List (Arc L W)) : ℕ := arcs.countP (·.ilabel = epsilon)

def oepsilons (arcs : List (Arc L W)) : ℕ := arcs.countP (·.olabel = epsilon)

def Exact (s : VectorState L W) : Prop :=
  s.niepsilons = iepsilons s.arcs ∧ s.noepsilons = oepsilons s.arcs

/- Every state of the FST reports the number of epsilons its arcs carry. -/
def CountsExact (fst : VectorFst L W) : Prop :=
  ∀ state, fst.numInputEpsilons state = iepsilons (fst.arcs state) ∧
    fst.numOutputEpsilons state = oepsilons (fst.arcs state)

theorem countsExact_iff (fst : VectorFst L W) :
    CountsExact fst ↔ ∀ s ∈ fst.states, Exact s := by
  constructor
  · intro h s hs
    obtain ⟨state, hstate⟩ := List.mem_iff_getElem?.mp hs
    have hexact := h state
    simpa [VectorFst.numInputEpsilons, VectorFst.numOutputEpsilons, VectorFst.arcs, hstate, Exact]
      using hexact
  · intro h state
    simp only [VectorFst.numInputEpsilons, VectorFst.numOutputEpsilons, VectorFst.arcs]
    cases hstate : fst.states[state]? with
    | none => simp [iepsilons, oepsilons]
    | some s => exact h s (List.mem_of_getElem? hstate)

variable {s : VectorState L W}

theorem exact_addArc (h : Exact s) (arc : Arc L W) :
    Exact (s.addArc arc) := by
  obtain ⟨hi, ho⟩ := h
  constructor
  · by_cases he : arc.ilabel = epsilon <;>
      simp [VectorState.addArc, VectorState.incrementNumEpsilons, iepsilons, he, hi]
  · by_cases he : arc.olabel = epsilon <;>
      simp [VectorState.addArc, VectorState.incrementNumEpsilons, oepsilons, he, ho]

theorem exact_popArc (h : Exact s) : Exact s.popArc := by
  unfold VectorState.popArc
  cases hlast : s.arcs.getLast? with
  | none => exact h
  | some arc =>
    obtain ⟨init, hinit⟩ : ∃ init, s.arcs = init ++ [arc] :=
      ⟨_, (List.dropLast_append_getLast? arc hlast).symm⟩
    obtain ⟨hi, ho⟩ := h
    rw [hinit] at hi ho
    constructor
    · by_cases he : arc.ilabel = epsilon <;>
        simp_all [iepsilons, decrement]
    · by_cases he : arc.olabel = epsilon <;>
        simp_all [oepsilons, decrement]

theorem exact_deleteArcsN (h : Exact s) (n : ℕ) :
    Exact (s.deleteArcsN n) := by
  unfold VectorState.deleteArcsN
  induction min n s.arcs.length generalizing s with
  | zero => exact h
  | succ k ih =>
    rw [Function.iterate_succ_apply]
    exact ih (exact_popArc h)

section Steps

variable [Zero W] [One W] [DecidableEq W] {fst : VectorFst L W}

theorem exact_new : Exact (VectorState.new : VectorState L W) := by
  simp [Exact, VectorState.new, iepsilons, oepsilons]

/- One state rewritten, everything else left: what every operation on a single state does. -/
theorem countsExact_set (h : CountsExact fst) (state : ℕ) (hs : Exact s) (start : Option ℕ)
    (props : BitVec 64) :
    CountsExact ⟨fst.states.set state s, start, props⟩ := by
  rw [countsExact_iff] at h ⊢
  intro t ht
  rcases List.mem_or_eq_of_mem_set ht with ht | rfl
  · exact h t ht
  · exact hs

theorem exact_of_getElem? (h : CountsExact fst) {state : ℕ} (hs : fst.states[state]? = some s) :
    Exact s :=
  (countsExact_iff fst).mp h s (List.mem_of_getElem? hs)

theorem countsExact_setFinal (h : CountsExact fst) (state : ℕ) (weight : W) :
    CountsExact (fst.setFinal state weight) := by
  cases hs : fst.states[state]? with
  | none => rwa [VectorFst.setFinal_of_none weight hs]
  | some s =>
    rw [VectorFst.setFinal_of_some weight hs]
    have hexact : Exact { s with finalWeight := weight } := by
      have hs' : Exact s := exact_of_getElem? h hs
      exact hs'
    exact countsExact_set h state hexact _ _

theorem countsExact_addStates (h : CountsExact fst) (n : ℕ) : CountsExact (fst.addStates n) := by
  rw [countsExact_iff] at h ⊢
  intro s hs
  rcases List.mem_append.mp hs with hs | hs
  · exact h s hs
  · exact List.eq_of_mem_replicate hs ▸ exact_new

theorem countsExact_addState (h : CountsExact fst) : CountsExact fst.addState :=
  countsExact_addStates h 1

theorem countsExact_addArc (h : CountsExact fst) (state : ℕ) (arc : Arc L W) :
    CountsExact (fst.addArc state arc) := by
  cases hs : fst.states[state]? with
  | none => rwa [VectorFst.addArc_of_none arc hs]
  | some s =>
    have hset := countsExact_set h state (exact_addArc (exact_of_getElem? h hs) arc) none 0
    rw [countsExact_iff] at hset ⊢
    rwa [VectorFst.addArc_states_of_some arc hs]

theorem countsExact_deleteArcsN (h : CountsExact fst) (state n : ℕ) :
    CountsExact (fst.deleteArcsN state n) := by
  unfold VectorFst.deleteArcsN
  split
  next s hs => exact countsExact_set h state (exact_deleteArcsN (exact_of_getElem? h hs) n) _ _
  next => exact h

theorem countsExact_deleteArcs (h : CountsExact fst) (state : ℕ) :
    CountsExact (fst.deleteArcs state) := by
  unfold VectorFst.deleteArcs
  split
  next s hs =>
    apply countsExact_set h
    simp [Exact, VectorState.deleteAllArcs, iepsilons, oepsilons]
  next => exact h

theorem exact_remapState {newid : List (Option ℕ)} {t : VectorState L W}
    (h : VectorFst.remapState newid s = some t) : Exact t := by
  obtain ⟨arcs, -, rfl⟩ := Option.map_eq_some_iff.mp h
  exact ⟨rfl, rfl⟩

theorem exact_remapStates {newid : List (Option ℕ)} {states states' : List (VectorState L W)}
    (h : VectorFst.remapStates newid states = some states') : ∀ t ∈ states', Exact t := by
  induction states generalizing states' with
  | nil =>
    cases h
    simp
  | cons s states ih =>
    obtain ⟨t, ht, h⟩ := Option.bind_eq_some_iff.mp h
    obtain ⟨rest, hrest, rfl⟩ := Option.map_eq_some_iff.mp h
    intro u hu
    rcases List.mem_cons.mp hu with rfl | hu
    · exact exact_remapState ht
    · exact ih hrest u hu

theorem countsExact_deleteStates (h : CountsExact fst) {dstates : List ℕ} {fst' : VectorFst L W}
    (hd : fst.deleteStates dstates = some fst') : CountsExact fst' := by
  unfold VectorFst.deleteStates at hd
  split at hd
  next => exact Option.some.inj hd ▸ h
  next =>
    obtain ⟨states, hstates, hd⟩ := Option.bind_eq_some_iff.mp hd
    obtain ⟨start, -, rfl⟩ := Option.map_eq_some_iff.mp hd
    exact (countsExact_iff _).mpr (exact_remapStates hstates)

/- `before` and `after` show the same number of epsilons on either side. -/
def SameEpsilons (before after : List (Arc L W)) : Prop :=
  iepsilons after = iepsilons before ∧ oepsilons after = oepsilons before

def rewritten (mutator : Arc L W → σ → Arc L W × σ) (arcs : List (Arc L W)) (m : σ) :
    List (Arc L W) :=
  (VectorFst.mutateArcsLoop mutator arcs 0 m).1

theorem mutateArcsLoop_fst (mutator : Arc L W → σ → Arc L W × σ) (arcs : List (Arc L W))
    (props : BitVec 64) (m : σ) :
    (VectorFst.mutateArcsLoop mutator arcs props m).1 = rewritten mutator arcs m := by
  suffices ∀ props', (VectorFst.mutateArcsLoop mutator arcs props m).1 =
      (VectorFst.mutateArcsLoop mutator arcs props' m).1 from this 0
  induction arcs generalizing props m with
  | nil => intro props'; rfl
  | cons arc arcs ih =>
    intro props'
    simp only [VectorFst.mutateArcsLoop]
    rw [ih _ _ (setArcProperties props' arc (mutator arc m).1)]

/- Rewriting the arcs of a state leaves its counts, so they stay exact just when the rewriting
leaves the number of epsilons. -/
theorem countsExact_mutateArcs_iff (h : CountsExact fst) (state : ℕ)
    (mutator : Arc L W → σ → Arc L W × σ) (m : σ) :
    CountsExact (fst.mutateArcs state mutator m).1 ↔
      SameEpsilons (fst.arcs state) (rewritten mutator (fst.arcs state) m) := by
  unfold VectorFst.mutateArcs VectorFst.arcs
  cases hs : fst.states[state]? with
  | none => simpa [SameEpsilons, rewritten, VectorFst.mutateArcsLoop] using h
  | some s =>
    have hexact := exact_of_getElem? h hs
    simp only [Option.map_some, Option.getD_some]
    constructor
    · intro hc
      have hlt : state < fst.states.length := (List.getElem?_eq_some_iff.mp hs).1
      obtain ⟨hi, ho⟩ := exact_of_getElem? hc (List.getElem?_set_self hlt)
      simp only [mutateArcsLoop_fst] at hi ho
      exact ⟨hi.symm.trans hexact.1, ho.symm.trans hexact.2⟩
    · intro hsame
      apply countsExact_set h
      simp only [Exact, mutateArcsLoop_fst]
      exact ⟨hexact.1.trans hsame.1.symm, hexact.2.trans hsame.2.symm⟩

/- The condition on one state of `arcMap` after another, each in the FST and with the mapper
the loop has come to. -/
def StatesNeutral (mapper : ArcMapper σ L W) : List ℕ → ArcMapLoop σ L W → Prop
  | [], _ => True
  | state :: states, l =>
    SameEpsilons (l.fst.arcs state) (rewritten mapper.map (l.fst.arcs state) l.mapper) ∧
      ((arcMapState mapper l state).2 = false →
        StatesNeutral mapper states (arcMapState mapper l state).1)

def MapNeutral (fst : VectorFst L W) (mapper : ArcMapper σ L W) (m : σ) : Prop :=
  fst.start = none ∨ StatesNeutral mapper (List.range (arcMapStart mapper fst m).fst.numStates)
    (arcMapStart mapper fst m)

/- The operation rewrites no state so that its arcs show another number of epsilons. -/
def Neutral (fst : VectorFst L W) : FstOp L W → Prop
  | .edit (.mutateArcs _ state mutator m) =>
    SameEpsilons (fst.arcs state) (rewritten mutator (fst.arcs state) m)
  | .edit _ => True
  | .arcMap _ mapper m => MapNeutral fst mapper m
  | .invert => MapNeutral fst invertMapper ()
  | .project projectType => MapNeutral fst (projectMapper projectType) ()
  | .relabel ipairs opairs =>
    missingKey ipairs ≠ none ∨ missingKey opairs ≠ none ∨
      ∀ state, SameEpsilons (fst.arcs state) ((fst.arcs state).map (relabelArc ipairs opairs))

variable {l : ArcMapLoop σ L W}

theorem countsExact_mapFinal (h : CountsExact l.fst) (finalAction : MapFinalAction) (state : ℕ)
    (mapped : Arc L W) :
    CountsExact (mapFinal finalAction l state mapped).1.fst := by
  cases finalAction with
  | noSuperfinal =>
    unfold mapFinal
    dsimp only
    split
    · exact h
    · exact countsExact_setFinal h _ _
  | allowSuperfinal =>
    unfold mapFinal
    dsimp only
    split
    · apply countsExact_setFinal
      apply countsExact_addArc
      cases l.superfinal with
      | some s => exact h
      | none => exact countsExact_setFinal (countsExact_addState h) _ _
    · exact countsExact_setFinal h _ _
  | requireSuperfinal =>
    unfold mapFinal
    dsimp only
    apply countsExact_setFinal
    split
    · exact countsExact_addArc h _ _
    · exact h

theorem countsExact_arcMapState (h : CountsExact l.fst) (mapper : ArcMapper σ L W) (state : ℕ)
    (hsame : SameEpsilons (l.fst.arcs state) (rewritten mapper.map (l.fst.arcs state) l.mapper)) :
    CountsExact (arcMapState mapper l state).1.fst := by
  have hmutated := (countsExact_mutateArcs_iff h state mapper.map l.mapper).mpr hsame
  unfold arcMapState
  dsimp only
  split
  · exact hmutated
  · exact countsExact_mapFinal hmutated _ _ _

theorem countsExact_arcMapStates (h : CountsExact l.fst) (mapper : ArcMapper σ L W)
    (states : List ℕ) (hn : StatesNeutral mapper states l) :
    CountsExact (arcMapStates mapper states l).1.fst := by
  induction states generalizing l with
  | nil => exact h
  | cons state states ih =>
    have hstep := countsExact_arcMapState h mapper state hn.1
    simp only [arcMapStates]
    split
    · exact hstep
    · next herror => exact ih hstep (hn.2 (by simpa using herror))

theorem countsExact_arcMap (h : CountsExact fst) (mapper : ArcMapper σ L W) (m : σ)
    (hn : MapNeutral fst mapper m) : CountsExact (fst.arcMap mapper m).1 := by
  unfold VectorFst.arcMap
  split
  · exact h
  next hstart =>
    have hinit : CountsExact (arcMapStart mapper fst m).fst := by
      unfold arcMapStart
      split
      · exact countsExact_setFinal (countsExact_addState h) _ _
      · exact h
    have hloop := countsExact_arcMapStates hinit mapper _ (hn.resolve_left hstart)
    dsimp only
    split
    · exact hloop
    · exact hloop

theorem rewritten_stateless (f : Arc L W → Arc L W) (arcs : List (Arc L W)) :
    rewritten (fun arc (m : Unit) => (f arc, m)) arcs () = arcs.map f := by
  unfold rewritten
  generalize (0 : BitVec 64) = props
  induction arcs generalizing props with
  | nil => rfl
  | cons arc arcs ih => simp only [VectorFst.mutateArcsLoop, List.map_cons, ih]

theorem arcs_mutateArcs_of_ne {state other : ℕ} (hne : state ≠ other)
    (mutator : Arc L W → σ → Arc L W × σ) (m : σ) :
    (fst.mutateArcs state mutator m).1.arcs other = fst.arcs other := by
  unfold VectorFst.mutateArcs VectorFst.arcs
  cases hs : fst.states[state]? with
  | none => rfl
  | some s => simp only [List.getElem?_set_ne hne]

theorem countsExact_relabelStates (h : CountsExact fst) (ipairs opairs : List (L × L))
    {states : List ℕ} (hnodup : states.Nodup)
    (hn : ∀ state ∈ states,
      SameEpsilons (fst.arcs state) ((fst.arcs state).map (relabelArc ipairs opairs))) :
    CountsExact (relabelStates ipairs opairs states fst) := by
  induction states generalizing fst with
  | nil => exact h
  | cons state states ih =>
    obtain ⟨hnot, hnodup⟩ := List.nodup_cons.mp hnodup
    refine ih ?_ hnodup ?_
    · apply (countsExact_mutateArcs_iff h _ _ _).mpr
      rw [rewritten_stateless]
      exact hn state List.mem_cons_self
    · intro other hother
      have hne : state ≠ other := by
        rintro rfl
        exact hnot hother
      rw [arcs_mutateArcs_of_ne hne]
      exact hn other (List.mem_cons_of_mem _ hother)

theorem countsExact_relabel [ToString L] (h : CountsExact fst) (ipairs opairs : List (L × L))
    (hn : Neutral fst (.relabel ipairs opairs)) : CountsExact (fst.relabel ipairs opairs).1 := by
  unfold VectorFst.relabel
  dsimp only
  split
  · exact h
  · exact h
  · next hi ho =>
    have hall := (hn.resolve_left (by simp [hi])).resolve_left (by simp [ho])
    exact countsExact_relabelStates h ipairs opairs List.nodup_range fun state _ => hall state

theorem countsExact_edit (h : CountsExact fst) {op : MutableOp L W} {fst' : VectorFst L W}
    (hn : Neutral fst (.edit op)) (happly : op.apply fst = some fst') : CountsExact fst' := by
  cases op with
  | deleteStates dstates => exact countsExact_deleteStates h happly
  | mutateArcs σ state mutator m =>
    cases happly
    exact (countsExact_mutateArcs_iff h _ _ _).mpr hn
  | setStart state => cases happly; exact h
  | setFinal state weight => cases happly; exact countsExact_setFinal h _ _
  | addState => cases happly; exact countsExact_addState h
  | addStates n => cases happly; exact countsExact_addStates h n
  | addArc state arc => cases happly; exact countsExact_addArc h _ _
  | deleteArcsN state n => cases happly; exact countsExact_deleteArcsN h _ _
  | deleteArcs state => cases happly; exact countsExact_deleteArcs h _
  | deleteAllStates =>
    cases happly
    exact (countsExact_iff _).mpr (by simp [VectorFst.deleteAllStates])

theorem countsExact_apply [ToString L] (h : CountsExact fst) {op : FstOp L W}
    {fst' : VectorFst L W} (hn : Neutral fst op) (happly : op.apply fst = some fst') :
    CountsExact fst' := by
  cases op with
  | edit op => exact countsExact_edit h hn happly
  | arcMap σ mapper m => cases happly; exact countsExact_arcMap h mapper m hn
  | invert => cases happly; exact countsExact_arcMap h _ _ hn
  | project projectType => cases happly; exact countsExact_arcMap h _ _ hn
  | relabel ipairs opairs => cases happly; exact countsExact_relabel h ipairs opairs hn

theorem counts_exact_of_neutral_run [ToString L] {ops : List (FstOp L W)}
    (hneutral : AllSteps FstOp.apply Neutral ops (VectorFst.new : VectorFst L W))
    (hrun : runOps FstOp.apply ops VectorFst.new = some fst) (state : ℕ) :
    fst.numInputEpsilons state = (fst.arcs state).countP (·.ilabel = epsilon) ∧
      fst.numOutputEpsilons state = (fst.arcs state).countP (·.olabel = epsilon) := by
  have hnew : CountsExact (VectorFst.new : VectorFst L W) :=
    (countsExact_iff _).mpr (by simp [VectorFst.new])
  have hexact : CountsExact fst := by
    apply run_invariant ?_ hneutral hnew hrun
    intro op s t hn hs ht
    exact countsExact_apply hs hn ht
  exact hexact state

end Steps

/- One state whose only arc is renamed from `1:1` to `0:0`. -/
def renamingRun : List (FstOp ℤ (Tropical (WithTop ℕ))) :=
  [.edit .addState, .edit (.addArc 0 ⟨1, 1, 1, 0⟩),
    .edit (.mutateArcs Unit 0 (fun arc m => ({ arc with ilabel := 0, olabel := 0 }, m)) ())]

theorem counts_stale_after_renaming :
    ¬ ∀ (ops : List (FstOp ℤ (Tropical (WithTop ℕ)))) (fst : VectorFst ℤ (Tropical (WithTop ℕ))),
      runOps FstOp.apply ops VectorFst.new = some fst → ∀ state,
        fst.numInputEpsilons state = (fst.arcs state).countP (·.ilabel = epsilon) ∧
          fst.numOutputEpsilons state = (fst.arcs state).countP (·.olabel = epsilon) := by
  intro h
  have hstale := (h renamingRun _ rfl 0).1
  revert hstale
  decide

/- Two arcs, one of them an epsilon, whose input labels change places. -/
def swappingRun : List (FstOp ℤ (Tropical (WithTop ℕ))) :=
  [.edit .addState, .edit (.addArc 0 ⟨1, 1, 1, 0⟩), .edit (.addArc 0 ⟨0, 1, 1, 0⟩),
    .edit (.mutateArcs Unit 0 (fun arc m => ({ arc with ilabel := 1 - arc.ilabel }, m)) ())]

theorem counts_exact_of_neutral_run_swapping :
    AllSteps FstOp.apply Neutral swappingRun VectorFst.new ∧
      ∃ fst, runOps FstOp.apply swappingRun VectorFst.new = some fst ∧
        fst.numInputEpsilons 0 = (fst.arcs 0).countP (·.ilabel = epsilon) ∧
          fst.numOutputEpsilons 0 = (fst.arcs 0).countP (·.olabel = epsilon) := by
  have hneutral : AllSteps FstOp.apply Neutral swappingRun VectorFst.new := by
    refine ⟨trivial, fun fst1 h1 => ⟨trivial, fun fst2 h2 => ⟨trivial, fun fst3 h3 => ?_⟩⟩⟩
    cases h1
    cases h2
    cases h3
    exact ⟨⟨by decide, by decide⟩, fun _ _ => trivial⟩
  exact ⟨hneutral, _, rfl, counts_exact_of_neutral_run hneutral rfl 0⟩

end Sicada.EpsilonCounts
