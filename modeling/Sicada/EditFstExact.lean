import Sicada.EditFst

namespace Sicada.EditFstExact

open PropertyBits EpsilonCounts

variable {L W : Type} [ArcLabel L] [Zero W] [One W] [DecidableEq W]

theorem foldl_addArc (s : VectorState L W) (arcs : List (Arc L W)) :
    arcs.foldl VectorState.addArc s = ⟨s.finalWeight, s.arcs ++ arcs,
      s.niepsilons + iepsilons arcs, s.noepsilons + oepsilons arcs⟩ := by
  induction arcs generalizing s with
  | nil => simp [iepsilons, oepsilons]
  | cons arc arcs ih =>
    rw [List.foldl_cons, ih]
    simp only [VectorState.addArc, VectorState.incrementNumEpsilons, iepsilons, oepsilons,
      List.countP_cons, List.append_assoc, List.singleton_append, VectorState.mk.injEq,
      decide_eq_true_eq, true_and]
    constructor
    · split <;> omega
    · split <;> omega

variable {fst : VectorFst L W} {p : TrinaryProperty}

theorem states_addArcs {state : ℕ} {s : VectorState L W} (h : fst.states[state]? = some s)
    (arcs : List (Arc L W)) :
    (arcs.foldl (fun f arc => f.addArc state arc) fst).states =
      fst.states.set state (arcs.foldl VectorState.addArc s) := by
  have hlt : state < fst.states.length := (List.getElem?_eq_some_iff.mp h).1
  induction arcs generalizing fst s with
  | nil =>
    obtain ⟨hlt, rfl⟩ := List.getElem?_eq_some_iff.mp h
    exact (List.set_getElem_self hlt).symm
  | cons arc arcs ih =>
    have hstates := VectorFst.addArc_states_of_some arc h
    have hself : (fst.addArc state arc).states[state]? = some (s.addArc arc) := by
      rw [hstates, List.getElem?_set_self hlt]
    have hlt' : state < (fst.addArc state arc).states.length := by
      rw [hstates, List.length_set]
      exact hlt
    rw [List.foldl_cons, ih hself hlt', hstates, List.set_set, List.foldl_cons]

theorem honest_addArcs (h : Honest fst) (state : ℕ) (arcs : List (Arc L W)) :
    Honest (arcs.foldl (fun f arc => f.addArc state arc) fst) := by
  induction arcs generalizing fst with
  | nil => exact h
  | cons arc arcs ih => exact ih (honest_addArc h state arc)

/- What a copy of a state of the wrapped FST holds. -/
def original (w : ExpandedFst L W) (s : ℕ) : VectorState L W :=
  ⟨w.finalWeight s, w.arcs s, iepsilons (w.arcs s), oepsilons (w.arcs s)⟩

variable {s : ℕ} {props : BitVec 64}

theorem states_copyState (w : ExpandedFst L W) {out : VectorFst L W}
    (h : out.states[s]? = some VectorState.new) :
    (w.copyState out s).states = out.states.set s (original w s) := by
  have hlt : s < out.states.length := (List.getElem?_eq_some_iff.mp h).1
  have hfinal := VectorFst.setFinal_of_some (w.finalWeight s) h
  have hself : (out.setFinal s (w.finalWeight s)).states[s]? =
      some ⟨w.finalWeight s, [], 0, 0⟩ := by
    rw [hfinal]
    exact List.getElem?_set_self hlt
  rw [ExpandedFst.copyState, states_addArcs hself, hfinal, foldl_addArc]
  simp [original]

theorem start_copyState (w : ExpandedFst L W) (out : VectorFst L W) (s : ℕ) :
    (w.copyState out s).start = out.start := by
  rw [ExpandedFst.copyState, VectorFst.start_addArcs, VectorFst.start_setFinal]

/- The first `k` states have been copied and the rest of the `n` are empty. -/
theorem copyStates (w : ExpandedFst L W) (out : VectorFst L W) {n : ℕ}
    (h : out.states = List.replicate n VectorState.new) {k : ℕ} (hk : k ≤ n) :
    ((List.range k).foldl w.copyState out).states =
      (List.range k).map (original w) ++ List.replicate (n - k) VectorState.new ∧
    ((List.range k).foldl w.copyState out).start = out.start := by
  induction k with
  | zero => simp [h]
  | succ k ih =>
    obtain ⟨hstates, hstart⟩ := ih (by omega)
    have hsplit : n - k = n - (k + 1) + 1 := by omega
    have hnew : ((List.range k).foldl w.copyState out).states[k]? = some VectorState.new := by
      rw [hstates, List.getElem?_append_right (by simp)]
      simp [hsplit]
    rw [List.range_succ, List.foldl_append, List.foldl_cons, List.foldl_nil]
    refine ⟨?_, (start_copyState w _ k).trans hstart⟩
    rw [states_copyState w hnew, hstates, List.set_append_right _ _ (by simp), hsplit]
    simp [List.replicate_succ]

theorem copyOf_eq (w : ExpandedFst L W) :
    w.copyOf.states = (List.range w.numStates).map (original w) ∧ w.copyOf.start = w.start := by
  unfold ExpandedFst.copyOf
  cases hstart : w.start with
  | none =>
    obtain ⟨hstates, hsame⟩ := copyStates w (VectorFst.new.addStates w.numStates)
      (n := w.numStates) (by simp [VectorFst.addStates, VectorFst.new]) le_rfl
    refine ⟨?_, hsame⟩
    rw [Nat.sub_self, List.replicate_zero, List.append_nil] at hstates
    exact hstates
  | some start =>
    obtain ⟨hstates, hsame⟩ := copyStates w
      ((VectorFst.new.addStates w.numStates).setStart (some start)) (n := w.numStates)
      (by simp [VectorFst.setStart, VectorFst.addStates, VectorFst.new]) le_rfl
    refine ⟨?_, hsame⟩
    rw [Nat.sub_self, List.replicate_zero, List.append_nil] at hstates
    exact hstates

/- The edits as an overlay on the wrapped FST that reads as `fst` does: each state of `fst` is held
in the edits, or is the original one but for its final weight. -/
structure Overlays (e : EditFst L W) (fst : VectorFst L W) : Prop where
  start : fst.start = e.start
  numStates : fst.numStates = e.numStates
  copied : ∀ s i, e.externalToInternal s = some i → e.editedFinalWeights s = none ∧
    ∃ state, e.edits.states[i]? = some state ∧ fst.states[s]? = some state
  untouched : ∀ s < fst.numStates, e.externalToInternal s = none →
    fst.states[s]? = some { original e.wrapped s with
      finalWeight := (e.editedFinalWeights s).getD (e.wrapped.finalWeight s) }
  injective : ∀ s t i, e.externalToInternal s = some i → e.externalToInternal t = some i → s = t
  onto : ∀ i < e.edits.numStates, ∃ s, e.externalToInternal s = some i
  finals : ∀ s, fst.numStates ≤ s → e.editedFinalWeights s = none
  honest : Honest e.edits
  added : ∀ s < fst.numStates, e.externalToInternal s = none → s < e.wrapped.numStates

variable {e : EditFst L W} {fst : VectorFst L W}

namespace Overlays

theorem lt_of_copied (h : Overlays e fst) {i : ℕ} (hi : e.externalToInternal s = some i) :
    s < fst.numStates ∧ i < e.edits.numStates := by
  obtain ⟨-, state, hstate, hstate'⟩ := h.copied s i hi
  exact ⟨(List.getElem?_eq_some_iff.mp hstate').1, (List.getElem?_eq_some_iff.mp hstate).1⟩

/- A state and its copy in the edits rewritten alike. -/
theorem rewrite (h : Overlays e fst) {i : ℕ} (hi : e.externalToInternal s = some i)
    (state : VectorState L W) {edits : VectorFst L W} (props props' : BitVec 64)
    (hedits : edits.states = e.edits.states.set i state) (hhonest : Honest edits) :
    Overlays { e with edits := edits, properties := props }
      ⟨fst.states.set s state, fst.start, props'⟩ := by
  obtain ⟨hs, hlt⟩ := h.lt_of_copied hi
  refine ⟨h.start, ?_, ?_, ?_, h.injective, ?_, ?_, hhonest, ?_⟩
  · exact List.length_set.trans h.numStates
  · intro t j hj
    refine ⟨(h.copied t j hj).1, ?_⟩
    dsimp only
    rw [hedits]
    by_cases hts : t = s
    · subst hts
      obtain rfl := Option.some.inj (hi.symm.trans hj)
      exact ⟨state, List.getElem?_set_self hlt, List.getElem?_set_self hs⟩
    · have hji : i ≠ j := by
        rintro rfl
        exact hts (h.injective t s i hj hi)
      rw [List.getElem?_set_ne hji, List.getElem?_set_ne (Ne.symm hts)]
      exact (h.copied t j hj).2
  · intro t ht hnone
    have hts : s ≠ t := by
      rintro rfl
      rw [hi] at hnone
      cases hnone
    have hlt : t < fst.numStates := by simpa [VectorFst.numStates] using ht
    dsimp only
    rw [List.getElem?_set_ne hts]
    exact h.untouched t hlt hnone
  · intro j hj
    apply h.onto
    dsimp only at hj
    rw [VectorFst.numStates, hedits, List.length_set] at hj
    exact hj
  · intro t ht
    apply h.finals
    simpa [VectorFst.numStates] using ht
  · intro t ht
    apply h.added
    simpa [VectorFst.numStates] using ht

/- A state is copied out and reads as before. -/
theorem makeEditable (h : Overlays e fst) (hs : s < fst.numStates) :
    ∃ i e', e.makeEditable s = (i, e') ∧ Overlays e' fst ∧ e'.externalToInternal s = some i ∧
      e'.properties = e.properties := by
  cases hi : e.externalToInternal s with
  | some i =>
    refine ⟨i, e, ?_, h, hi, rfl⟩
    rw [EditFst.makeEditable, hi]
  | none =>
    have hstate := h.untouched s hs hi
    generalize hfinal : (e.editedFinalWeights s).getD (e.wrapped.finalWeight s) = final at hstate
    have hlen : e.edits.addState.states[e.edits.numStates]? = some VectorState.new := by
      simp [VectorFst.addState, VectorFst.numStates]
    have harcs := states_addArcs hlen (e.wrapped.arcs s)
    have hlt : e.edits.numStates < e.edits.addState.states.length := by
      simp [VectorFst.addState, VectorFst.numStates]
    have hself : ((e.wrapped.arcs s).foldl (fun fst arc => fst.addArc e.edits.numStates arc)
        e.edits.addState).states[e.edits.numStates]? =
          some { original e.wrapped s with finalWeight := 0 } := by
      rw [harcs, List.getElem?_set_self hlt, foldl_addArc]
      simp [VectorState.new, original]
    have hfinal' := VectorFst.setFinal_of_some final hself
    have hstates : (((e.wrapped.arcs s).foldl (fun fst arc => fst.addArc e.edits.numStates arc)
        e.edits.addState).setFinal e.edits.numStates final).states =
          e.edits.states ++ [{ original e.wrapped s with finalWeight := final }] := by
      rw [hfinal']
      dsimp only
      rw [harcs, List.set_set]
      simp [VectorFst.addState, VectorFst.numStates]
    have hhonest : Honest (((e.wrapped.arcs s).foldl
        (fun fst arc => fst.addArc e.edits.numStates arc) e.edits.addState).setFinal
          e.edits.numStates final) :=
      honest_setFinal (honest_addArcs (honest_addStates h.honest 1) _ _) _ _
    have hrun : e.makeEditable s = (e.edits.numStates, { e with
        edits := ((e.wrapped.arcs s).foldl (fun fst arc => fst.addArc e.edits.numStates arc)
          e.edits.addState).setFinal e.edits.numStates final
        externalToInternal := Function.update e.externalToInternal s (some e.edits.numStates)
        editedFinalWeights := Function.update e.editedFinalWeights s none }) := by
      rw [EditFst.makeEditable, hi]
      simp only [hfinal]
    refine ⟨_, _, hrun, ?_, Function.update_self _ _ _, rfl⟩
    refine ⟨h.start, h.numStates, ?_, ?_, ?_, ?_, ?_, hhonest, ?_⟩
    · intro t j hj
      dsimp only at hj ⊢
      rw [hstates]
      by_cases hts : t = s
      · subst hts
        rw [Function.update_self] at hj
        obtain rfl := Option.some.inj hj
        refine ⟨Function.update_self _ _ _, _, ?_, hstate⟩
        simp [VectorFst.numStates]
      · rw [Function.update_of_ne hts] at hj ⊢
        obtain ⟨hnone, state, hstate, hstate'⟩ := h.copied t j hj
        refine ⟨hnone, state, ?_, hstate'⟩
        rw [List.getElem?_append_left (h.lt_of_copied hj).2, hstate]
    · intro t ht hnone
      dsimp only at hnone ⊢
      by_cases hts : t = s
      · rw [hts, Function.update_self] at hnone
        cases hnone
      · rw [Function.update_of_ne hts] at hnone ⊢
        exact h.untouched t ht hnone
    · intro t u j ht hu
      dsimp only at ht hu
      by_cases hts : t = s
      · by_cases hus : u = s
        · rw [hts, hus]
        · rw [hts, Function.update_self] at ht
          rw [Function.update_of_ne hus] at hu
          obtain rfl := Option.some.inj ht
          exact absurd (h.lt_of_copied hu).2 (lt_irrefl _)
      · by_cases hus : u = s
        · rw [hus, Function.update_self] at hu
          rw [Function.update_of_ne hts] at ht
          obtain rfl := Option.some.inj hu
          exact absurd (h.lt_of_copied ht).2 (lt_irrefl _)
        · rw [Function.update_of_ne hts] at ht
          rw [Function.update_of_ne hus] at hu
          exact h.injective t u j ht hu
    · intro j hj
      dsimp only at hj ⊢
      rw [VectorFst.numStates, hstates, List.length_append, List.length_singleton] at hj
      by_cases hlast : j = e.edits.numStates
      · exact ⟨s, by rw [Function.update_self, hlast]⟩
      · obtain ⟨t, ht⟩ := h.onto j (by
          have : j < e.edits.states.length + 1 := hj
          rw [VectorFst.numStates] at hlast ⊢
          omega)
        have hts : t ≠ s := by
          rintro rfl
          rw [hi] at ht
          cases ht
        exact ⟨t, by rw [Function.update_of_ne hts, ht]⟩
    · intro t ht
      have hts : t ≠ s := by omega
      dsimp only
      rw [Function.update_of_ne hts]
      exact h.finals t ht
    · intro t ht hnone
      dsimp only at hnone
      by_cases hts : t = s
      · rw [hts, Function.update_self] at hnone
        cases hnone
      · rw [Function.update_of_ne hts] at hnone
        exact h.added t ht hnone

/- What the overlay answers about a state. -/
theorem arcs_eq (h : Overlays e fst) (hs : s < fst.numStates) :
    e.arcs s = fst.arcs s := by
  unfold EditFst.arcs
  cases hi : e.externalToInternal s with
  | some i =>
    obtain ⟨-, state, hstate, hstate'⟩ := h.copied s i hi
    exact (VectorFst.arcs_of_getElem? hstate).trans (VectorFst.arcs_of_getElem? hstate').symm
  | none =>
    rw [VectorFst.arcs_of_getElem? (h.untouched s hs hi)]
    rfl

theorem finalWeight_eq (h : Overlays e fst) (hs : s < fst.numStates) :
    e.finalWeight s = fst.finalWeight s := by
  unfold EditFst.finalWeight
  cases hi : e.externalToInternal s with
  | some i =>
    obtain ⟨hnone, state, hstate, hstate'⟩ := h.copied s i hi
    rw [hnone]
    exact (VectorFst.finalWeight_of_getElem? hstate).trans
      (VectorFst.finalWeight_of_getElem? hstate').symm
  | none =>
    rw [VectorFst.finalWeight_of_getElem? (h.untouched s hs hi)]
    cases e.editedFinalWeights s <;> rfl

/- The arcs of a state with a copy are those of the copy, of any other they are the original ones. -/
theorem arcs_of_copied (h : Overlays e fst) {i : ℕ} (hi : e.externalToInternal s = some i) :
    fst.arcs s = e.edits.arcs i ∧ fst.finalWeight s = e.edits.finalWeight i := by
  obtain ⟨-, state, hstate, hstate'⟩ := h.copied s i hi
  rw [VectorFst.arcs_of_getElem? hstate, VectorFst.arcs_of_getElem? hstate',
    VectorFst.finalWeight_of_getElem? hstate, VectorFst.finalWeight_of_getElem? hstate']
  exact ⟨rfl, rfl⟩

theorem setFinal (h : Overlays e fst) (hs : s < fst.numStates) (weight : W) :
    Overlays (e.setFinal s weight) (fst.setFinal s weight) := by
  cases hi : e.externalToInternal s with
  | some i =>
    obtain ⟨-, state, hstate, hstate'⟩ := h.copied s i hi
    rw [EditFst.setFinal, hi, VectorFst.setFinal_of_some weight hstate']
    apply h.rewrite hi
    · rw [VectorFst.setFinal_of_some weight hstate]
    · exact honest_setFinal h.honest i weight
  | none =>
    have hstate := h.untouched s hs hi
    rw [EditFst.setFinal, hi, VectorFst.setFinal_of_some weight hstate]
    refine ⟨h.start, ?_, ?_, ?_, h.injective, h.onto, ?_, h.honest, ?_⟩
    · exact List.length_set.trans h.numStates
    · intro t j hj
      have hts : t ≠ s := by
        rintro rfl
        rw [hi] at hj
        cases hj
      dsimp only
      rw [Function.update_of_ne hts, List.getElem?_set_ne (Ne.symm hts)]
      exact h.copied t j hj
    · intro t ht hnone
      have hlt : t < fst.numStates := by simpa [VectorFst.numStates] using ht
      dsimp only
      by_cases hts : t = s
      · subst hts
        rw [Function.update_self, List.getElem?_set_self hlt]
        rfl
      · rw [Function.update_of_ne hts, List.getElem?_set_ne (Ne.symm hts)]
        exact h.untouched t hlt hnone
    · intro t ht
      have hle : fst.numStates ≤ t := by simpa [VectorFst.numStates] using ht
      have hts : t ≠ s := by omega
      dsimp only
      rw [Function.update_of_ne hts]
      exact h.finals t hle
    · intro t ht
      apply h.added
      simpa [VectorFst.numStates] using ht

theorem addState (h : Overlays e fst) : Overlays e.addState.2 fst.addState := by
  have hnum : fst.addState.numStates = fst.numStates + 1 := by
    simp [VectorFst.addState, VectorFst.numStates]
  have hnew : e.numStates = fst.numStates := h.numStates.symm
  have hlen : e.edits.addState.states[e.edits.numStates]? = some VectorState.new := by
    simp [VectorFst.addState, VectorFst.numStates]
  have hlen' : fst.addState.states[fst.numStates]? = some VectorState.new := by
    simp [VectorFst.addState, VectorFst.numStates]
  have hold : ∀ t i, e.externalToInternal t = some i → t ≠ fst.numStates :=
    fun t i hi => (h.lt_of_copied hi).1.ne
  unfold EditFst.addState
  rw [hnew]
  refine ⟨h.start, ?_, ?_, ?_, ?_, ?_, ?_, honest_addStates h.honest 1, ?_⟩
  · rw [hnum, h.numStates]
    simp only [EditFst.numStates]
    omega
  · intro t j hj
    dsimp only at hj ⊢
    by_cases ht : t = fst.numStates
    · rw [ht, Function.update_self] at hj
      obtain rfl := Option.some.inj hj
      rw [ht]
      exact ⟨h.finals _ le_rfl, _, hlen, hlen'⟩
    · rw [Function.update_of_ne ht] at hj
      obtain ⟨hnone, state, hstate, hstate'⟩ := h.copied t j hj
      obtain ⟨hlt, hlt'⟩ := h.lt_of_copied hj
      refine ⟨hnone, state, ?_, ?_⟩
      · exact (List.getElem?_append_left hlt').trans hstate
      · exact (List.getElem?_append_left hlt).trans hstate'
  · intro t ht hnone
    dsimp only at hnone ⊢
    by_cases heq : t = fst.numStates
    · rw [heq, Function.update_self] at hnone
      cases hnone
    · rw [Function.update_of_ne heq] at hnone
      have hlt : t < fst.numStates := by omega
      exact (List.getElem?_append_left hlt).trans (h.untouched t hlt hnone)
  · intro t u j ht hu
    dsimp only at ht hu
    by_cases ht' : t = fst.numStates
    · by_cases hu' : u = fst.numStates
      · rw [ht', hu']
      · rw [ht', Function.update_self] at ht
        rw [Function.update_of_ne hu'] at hu
        obtain rfl := Option.some.inj ht
        exact absurd (h.lt_of_copied hu).2 (lt_irrefl _)
    · by_cases hu' : u = fst.numStates
      · rw [hu', Function.update_self] at hu
        rw [Function.update_of_ne ht'] at ht
        obtain rfl := Option.some.inj hu
        exact absurd (h.lt_of_copied ht).2 (lt_irrefl _)
      · rw [Function.update_of_ne ht'] at ht
        rw [Function.update_of_ne hu'] at hu
        exact h.injective t u j ht hu
  · intro j hj
    dsimp only at hj ⊢
    by_cases hlast : j = e.edits.numStates
    · exact ⟨fst.numStates, by rw [Function.update_self, hlast]⟩
    · obtain ⟨t, ht⟩ := h.onto j (by
        have hlt : j < e.edits.numStates + 1 := by
          simpa [VectorFst.addState, VectorFst.numStates] using hj
        omega)
      exact ⟨t, by rw [Function.update_of_ne (hold t j ht), ht]⟩
  · intro t ht
    exact h.finals t (by omega)
  · intro t ht hnone
    dsimp only at hnone ⊢
    by_cases heq : t = fst.numStates
    · rw [heq, Function.update_self] at hnone
      cases hnone
    · rw [Function.update_of_ne heq] at hnone
      exact h.added t (by omega) hnone

theorem addArc (h : Overlays e fst) (hs : s < fst.numStates) (arc : Arc L W) :
    Overlays (e.addArc s arc) (fst.addArc s arc) ∧
      (e.addArc s arc).properties = addArcProperties e.properties s arc (fst.arcs s).getLast? := by
  obtain ⟨i, e', hrun, h', hi, hprops⟩ := h.makeEditable hs
  obtain ⟨-, state, hstate, hstate'⟩ := h'.copied s i hi
  rw [EditFst.addArc, hrun]
  dsimp only
  rw [VectorFst.addArc_of_some arc hstate', (h'.arcs_of_copied hi).1, hprops]
  refine ⟨?_, rfl⟩
  apply h'.rewrite hi
  · exact VectorFst.addArc_states_of_some arc hstate
  · exact honest_addArc h'.honest i arc

theorem deleteArcs (h : Overlays e fst) (hs : s < fst.numStates) :
    Overlays (e.deleteArcs s) (fst.deleteArcs s) ∧
      (e.deleteArcs s).properties = deleteArcsProperties e.properties := by
  obtain ⟨i, e', hrun, h', hi, hprops⟩ := h.makeEditable hs
  obtain ⟨-, state, hstate, hstate'⟩ := h'.copied s i hi
  rw [EditFst.deleteArcs, hrun, VectorFst.deleteArcs, hstate']
  refine ⟨?_, congrArg deleteArcsProperties hprops⟩
  apply h'.rewrite hi
  · rw [VectorFst.deleteArcs, hstate]
  · exact honest_deleteArcs h'.honest i

theorem deleteArcsN (h : Overlays e fst) (hs : s < fst.numStates) (n : ℕ) :
    Overlays (e.deleteArcsN s n) (fst.deleteArcsN s n) ∧
      (e.deleteArcsN s n).properties = deleteArcsProperties e.properties := by
  obtain ⟨i, e', hrun, h', hi, hprops⟩ := h.makeEditable hs
  obtain ⟨-, state, hstate, hstate'⟩ := h'.copied s i hi
  rw [EditFst.deleteArcsN, hrun, VectorFst.deleteArcsN, hstate']
  refine ⟨?_, congrArg deleteArcsProperties hprops⟩
  apply h'.rewrite hi
  · rw [VectorFst.deleteArcsN, hstate]
  · exact honest_deleteArcsN h'.honest i n

end Overlays

/- The bits say of the FST only what is true. -/
def Truthful (props : BitVec 64) (fst : VectorFst L W) : Prop :=
  ∀ p : TrinaryProperty, (Held props p.positive → Holds fst p) ∧
    (Held props p.negative → ¬ Holds fst p)

theorem truthful_iff :
    Truthful props fst ↔ Honest { fst with properties := props } :=
  forall_congr' fun p => and_congr (imp_congr_right fun _ => (holds_properties props p).symm)
    (imp_congr_right fun _ => not_congr (holds_properties props p).symm)

theorem truthful_setStart (h : Truthful props fst) (state : Option ℕ) :
    Truthful (setStartProperties props) (fst.setStart state) :=
  truthful_iff.mpr (honest_setStart (truthful_iff.mp h) state)

theorem truthful_setFinal (h : Truthful props fst) (hs : s < fst.numStates) (weight : W) :
    Truthful (setFinalProperties props (fst.finalWeight s) weight) (fst.setFinal s weight) := by
  have hstate : fst.states[s]? = some fst.states[s] := List.getElem?_eq_getElem hs
  have hsame : ({ fst with properties := props } : VectorFst L W).states[s]? =
    some fst.states[s] := hstate
  have hhonest := honest_setFinal (truthful_iff.mp h) s weight
  rw [VectorFst.setFinal_of_some weight hsame] at hhonest
  rw [VectorFst.finalWeight_of_getElem? hstate, VectorFst.setFinal_of_some weight hstate]
  exact truthful_iff.mpr hhonest

theorem truthful_addState (h : Truthful props fst) :
    Truthful (addStateProperties props) fst.addState :=
  truthful_iff.mpr (honest_addStates (truthful_iff.mp h) 1)

theorem truthful_addArc (h : Truthful props fst) (hs : s < fst.numStates) (arc : Arc L W) :
    Truthful (addArcProperties props s arc (fst.arcs s).getLast?) (fst.addArc s arc) := by
  have hstate : fst.states[s]? = some fst.states[s] := List.getElem?_eq_getElem hs
  have hsame : ({ fst with properties := props } : VectorFst L W).states[s]? =
    some fst.states[s] := hstate
  have hhonest := honest_addArc (truthful_iff.mp h) s arc
  rw [VectorFst.addArc_of_some arc hsame] at hhonest
  rw [VectorFst.arcs_of_getElem? hstate, VectorFst.addArc_of_some arc hstate]
  exact truthful_iff.mpr hhonest

theorem truthful_deleteArcs (h : Truthful props fst) (hs : s < fst.numStates) :
    Truthful (deleteArcsProperties props) (fst.deleteArcs s) := by
  have hstate : fst.states[s]? = some fst.states[s] := List.getElem?_eq_getElem hs
  have hhonest := honest_deleteArcs (truthful_iff.mp h) s
  rw [VectorFst.deleteArcs, hstate] at hhonest
  rw [VectorFst.deleteArcs, hstate]
  exact truthful_iff.mpr hhonest

theorem truthful_deleteArcsN (h : Truthful props fst) (hs : s < fst.numStates) (n : ℕ) :
    Truthful (deleteArcsProperties props) (fst.deleteArcsN s n) := by
  have hstate : fst.states[s]? = some fst.states[s] := List.getElem?_eq_getElem hs
  have hhonest := honest_deleteArcsN (truthful_iff.mp h) s n
  rw [VectorFst.deleteArcsN, hstate] at hhonest
  rw [VectorFst.deleteArcsN, hstate]
  exact truthful_iff.mpr hhonest

/- The bits a rewriting of arcs may leave. -/
def ArcProperty (p : TrinaryProperty) : Prop :=
  p ∈ [.acceptor, .epsilons, .iEpsilons, .oEpsilons, .weighted]

theorem arcProperty_setArc {oldArc newArc : Arc L W}
    (h : Held (setArcProperties props oldArc newArc) p.positive ∨
      Held (setArcProperties props oldArc newArc) p.negative) : ArcProperty p := by
  rcases h with h | h
  · have hp := setArc_positive h
    cases p <;> first
      | exact hp.elim
      | simp [ArcProperty]
  · have hp := setArc_negative h
    cases p <;> first
      | exact hp.elim
      | simp [ArcProperty]

theorem arcProperty_mutateArcsLoop {σ : Type} {mutator : Arc L W → σ → Arc L W × σ}
    {arcs : List (Arc L W)} {m : σ} (hne : arcs ≠ [])
    (h : Held (VectorFst.mutateArcsLoop mutator arcs props m).2.1 p.positive ∨
      Held (VectorFst.mutateArcsLoop mutator arcs props m).2.1 p.negative) : ArcProperty p := by
  induction arcs generalizing props m with
  | nil => exact absurd rfl hne
  | cons old arcs ih =>
    cases arcs with
    | nil => exact arcProperty_setArc h
    | cons next arcs => exact ih (List.cons_ne_nil next arcs) h

/- `fst'` has all of `part`, and what else it has is in `fst`. -/
structure Between (part fst fst' : VectorFst L W) : Prop where
  arc_part : ∀ i, ∀ arc ∈ part.arcs i, ∃ s, arc ∈ fst'.arcs s
  final_part : ∀ i, Nontrivial (part.finalWeight i) → ∃ s, Nontrivial (fst'.finalWeight s)
  arc_either : ∀ s, ∀ arc ∈ fst'.arcs s, arc ∈ fst.arcs s ∨ ∃ i, arc ∈ part.arcs i
  final_either : ∀ s, Nontrivial (fst'.finalWeight s) →
    Nontrivial (fst.finalWeight s) ∨ ∃ i, Nontrivial (part.finalWeight i)

namespace Between

variable {part fst fst' : VectorFst L W} {P : Arc L W → Prop}

theorem someArc_of_part (h : Between part fst fst') (hsome : SomeArc P part) : SomeArc P fst' := by
  obtain ⟨i, arc, harc, hp⟩ := hsome
  obtain ⟨s, hs⟩ := h.arc_part i arc harc
  exact ⟨s, arc, hs, hp⟩

theorem someArc_either (h : Between part fst fst') (hsome : SomeArc P fst') :
    SomeArc P fst ∨ SomeArc P part := by
  obtain ⟨s, arc, harc, hp⟩ := hsome
  rcases h.arc_either s arc harc with hold | ⟨i, hi⟩
  · exact Or.inl ⟨s, arc, hold, hp⟩
  · exact Or.inr ⟨i, arc, hi, hp⟩

/- A bit that holds of both the old FST and the part holds of the new one. -/
theorem holds (h : Between part fst fst') (hp : ArcProperty p) :
    (Holds fst p → Holds part p → Holds fst' p) ∧
      (¬ Holds fst p → ¬ Holds part p → ¬ Holds fst' p) := by
  have hsome : ∀ P : Arc L W → Prop, (SomeArc P fst → SomeArc P part → SomeArc P fst') ∧
      (¬ SomeArc P fst → ¬ SomeArc P part → ¬ SomeArc P fst') := by
    intro P
    refine ⟨fun _ hpart => h.someArc_of_part hpart, fun hold hpart hnew => ?_⟩
    exact (h.someArc_either hnew).elim hold hpart
  unfold ArcProperty at hp
  fin_cases hp
  · constructor
    · intro hold hpart s arc harc
      rcases h.arc_either s arc harc with hs | ⟨i, hi⟩
      · exact hold s arc hs
      · exact hpart i arc hi
    · intro _ hpart hnew
      apply hpart
      intro i arc harc
      obtain ⟨s, hs⟩ := h.arc_part i arc harc
      exact hnew s arc hs
  · exact hsome _
  · exact hsome _
  · exact hsome _
  · constructor
    · rintro - (harc | ⟨i, hi⟩)
      · exact Or.inl (h.someArc_of_part harc)
      · exact Or.inr (h.final_part i hi)
    · rintro hold hpart (harc | ⟨s, hs⟩)
      · exact (h.someArc_either harc).elim (fun hx => hold (Or.inl hx)) fun hx => hpart (Or.inl hx)
      · exact (h.final_either s hs).elim (fun hx => hold (Or.inr ⟨s, hx⟩))
          fun hx => hpart (Or.inr hx)

end Between

theorem Overlays.between (fst : VectorFst L W) {e' : EditFst L W} {fst' : VectorFst L W}
    (h : Overlays e' fst')
    (harcs : ∀ s, e'.externalToInternal s = none → fst'.arcs s = fst.arcs s)
    (hfinal : fst'.finalWeight = fst.finalWeight) : Between e'.edits fst fst' := by
  have hcopy : ∀ i, e'.edits.arcs i ≠ [] ∨ e'.edits.finalWeight i ≠ 0 →
      ∃ s, e'.externalToInternal s = some i := by
    intro i hi
    apply h.onto
    by_contra hle
    rcases hi with hi | hi
    · exact hi (VectorFst.arcs_of_le (Nat.le_of_not_lt hle))
    · exact hi (VectorFst.finalWeight_of_le (Nat.le_of_not_lt hle))
  constructor
  · intro i arc harc
    obtain ⟨s, hs⟩ := hcopy i (Or.inl (List.ne_nil_of_mem harc))
    exact ⟨s, (h.arcs_of_copied hs).1 ▸ harc⟩
  · intro i hi
    obtain ⟨s, hs⟩ := hcopy i (Or.inr hi.1)
    exact ⟨s, (h.arcs_of_copied hs).2 ▸ hi⟩
  · intro s arc harc
    cases hs : e'.externalToInternal s with
    | none => exact Or.inl (harcs s hs ▸ harc)
    | some i => exact Or.inr ⟨i, (h.arcs_of_copied hs).1 ▸ harc⟩
  · intro s hs
    exact Or.inl (hfinal ▸ hs)

theorem mutateArcs {σ : Type} (h : Overlays e fst) (ht : Truthful e.properties fst)
    (hs : s < fst.numStates) (mutator : Arc L W → σ → Arc L W × σ) (m : σ) :
    Overlays (e.mutateArcs s mutator m) (fst.mutateArcs s mutator m).1 ∧
      Truthful (e.mutateArcs s mutator m).properties (fst.mutateArcs s mutator m).1 := by
  obtain ⟨i, e', hrun, h', hi, hprops⟩ := h.makeEditable hs
  obtain ⟨-, state, hstate, hstate'⟩ := h'.copied s i hi
  rw [EditFst.mutateArcs, hrun]
  dsimp only
  have hedits : (e'.edits.mutateArcs i mutator m).1 =
      ⟨e'.edits.states.set i { state with arcs := rewritten mutator state.arcs m }, e'.edits.start,
        (VectorFst.mutateArcsLoop mutator state.arcs e'.edits.properties m).2.1⟩ := by
    simp only [VectorFst.mutateArcs, hstate, mutateArcsLoop_fst]
  have hfst : (fst.mutateArcs s mutator m).1 =
      ⟨fst.states.set s { state with arcs := rewritten mutator state.arcs m }, fst.start,
        (VectorFst.mutateArcsLoop mutator state.arcs fst.properties m).2.1⟩ := by
    simp only [VectorFst.mutateArcs, hstate', mutateArcsLoop_fst]
  have hhonest := honest_mutateArcs h'.honest i mutator m
  rw [hedits] at hhonest ⊢
  rw [hfst]
  dsimp only
  have hover := h'.rewrite hi { state with arcs := rewritten mutator state.arcs m }
    (e'.properties &&& ((VectorFst.mutateArcsLoop mutator state.arcs
      e'.edits.properties m).2.1 &&& kFstProperties))
    (VectorFst.mutateArcsLoop mutator state.arcs fst.properties m).2.1 rfl hhonest
  refine ⟨hover, ?_⟩
  by_cases hnil : state.arcs = []
  · -- nothing is rewritten
    have hsame : { state with arcs := rewritten mutator state.arcs m } = state := by
      rw [hnil]
      cases state
      subst hnil
      rfl
    obtain ⟨hlt, heq⟩ := List.getElem?_eq_some_iff.mp hstate'
    have hset : fst.states.set s state = fst.states := by
      rw [← heq]
      exact List.set_getElem_self hlt
    rw [hsame, hset]
    intro p
    have hold := (truthful_iff.mp ht) p
    rw [hprops]
    exact ⟨fun hp => hold.1 (held_and hp).1, fun hp => hold.2 (held_and hp).1⟩
  · have hbetween := hover.between fst
      (fun t hnone => by
        have hts : t ≠ s := by
          rintro rfl
          rw [hi] at hnone
          cases hnone
        rw [VectorFst.arcs_set hstate', Function.update_of_ne hts])
      (by
        rw [VectorFst.finalWeight_set hstate']
        exact Function.update_eq_self_iff.mpr (VectorFst.finalWeight_of_getElem? hstate').symm)
    intro p
    constructor
    · intro hp
      obtain ⟨hold, hnew⟩ := held_and hp
      have hnew' := (held_and hnew).1
      exact (hbetween.holds (arcProperty_mutateArcsLoop hnil (Or.inl hnew'))).1
        ((ht p).1 (hprops ▸ hold)) ((hhonest p).1 hnew')
    · intro hp
      obtain ⟨hold, hnew⟩ := held_and hp
      have hnew' := (held_and hnew).1
      exact (hbetween.holds (arcProperty_mutateArcsLoop hnil (Or.inr hnew'))).2
        ((ht p).2 (hprops ▸ hold)) ((hhonest p).2 hnew')

theorem apply_spec (h : Overlays e fst) (ht : Truthful e.properties fst) (op : EditOp L W)
    (hop : op.Targets fst.numStates) : Overlays (op.apply e) (op.applyVector fst) ∧
      Truthful (op.apply e).properties (op.applyVector fst) := by
  cases op with
  | setStart state =>
    refine ⟨⟨rfl, h.numStates, h.copied, h.untouched, h.injective, h.onto, h.finals, h.honest,
      h.added⟩, ?_⟩
    exact truthful_setStart ht state
  | setFinal s weight =>
    refine ⟨h.setFinal hop weight, ?_⟩
    have hprops : (e.setFinal s weight).properties =
        setFinalProperties e.properties (e.finalWeight s) weight := by
      unfold EditFst.setFinal
      dsimp only
      split <;> rfl
    rw [EditOp.apply, hprops, h.finalWeight_eq hop]
    exact truthful_setFinal ht hop weight
  | addState => exact ⟨h.addState, truthful_addState ht⟩
  | addArc s arc =>
    obtain ⟨hover, hprops⟩ := h.addArc hop arc
    rw [EditOp.apply, hprops]
    exact ⟨hover, truthful_addArc ht hop arc⟩
  | mutateArcs σ s mutator m => exact mutateArcs h ht hop mutator m
  | deleteArcs s =>
    obtain ⟨hover, hprops⟩ := h.deleteArcs hop
    rw [EditOp.apply, hprops]
    exact ⟨hover, truthful_deleteArcs ht hop⟩
  | deleteArcsN s n =>
    obtain ⟨hover, hprops⟩ := h.deleteArcsN hop n
    rw [EditOp.apply, hprops]
    exact ⟨hover, truthful_deleteArcsN ht hop n⟩

theorem wrapped_makeEditable (e : EditFst L W) (s : ℕ) : (e.makeEditable s).2.wrapped = e.wrapped := by
  unfold EditFst.makeEditable
  split <;> rfl

theorem wrapped_apply (op : EditOp L W) (e : EditFst L W) : (op.apply e).wrapped = e.wrapped := by
  cases op with
  | setStart state => rfl
  | setFinal s weight =>
    simp only [EditOp.apply, EditFst.setFinal]
    split <;> rfl
  | addState => rfl
  | addArc s arc => exact wrapped_makeEditable e s
  | mutateArcs σ s mutator m => exact wrapped_makeEditable e s
  | deleteArcs s => exact wrapped_makeEditable e s
  | deleteArcsN s n => exact wrapped_makeEditable e s

theorem numStates_applyVector (op : EditOp L W) (fst : VectorFst L W) :
    (op.applyVector fst).numStates = op.grows fst.numStates := by
  cases op with
  | setStart state => rfl
  | setFinal s weight => exact VectorFst.numStates_setFinal fst s weight
  | addState => simp [EditOp.applyVector, EditOp.grows, VectorFst.addState, VectorFst.numStates]
  | addArc s arc => exact VectorFst.numStates_addArc fst s arc
  | mutateArcs σ s mutator m =>
    simp only [EditOp.applyVector, EditOp.grows, VectorFst.mutateArcs]
    split <;> simp [VectorFst.numStates]
  | deleteArcs s =>
    simp only [EditOp.applyVector, EditOp.grows, VectorFst.deleteArcs]
    split <;> simp [VectorFst.numStates]
  | deleteArcsN s n =>
    simp only [EditOp.applyVector, EditOp.grows, VectorFst.deleteArcsN]
    split <;> simp [VectorFst.numStates]

theorem run_spec (h : Overlays e fst) (ht : Truthful e.properties fst) {ops : List (EditOp L W)}
    (hops : EditOp.EditsExisting fst.numStates ops) :
    Overlays (ops.foldl (fun e op => op.apply e) e)
        (ops.foldl (fun fst op => op.applyVector fst) fst) ∧
      Truthful (ops.foldl (fun e op => op.apply e) e).properties
        (ops.foldl (fun fst op => op.applyVector fst) fst) ∧
      (ops.foldl (fun e op => op.apply e) e).wrapped = e.wrapped := by
  induction ops generalizing e fst with
  | nil => exact ⟨h, ht, rfl⟩
  | cons op ops ih =>
    obtain ⟨hop, hrest⟩ := hops
    obtain ⟨h', ht'⟩ := apply_spec h ht op hop
    rw [← numStates_applyVector] at hrest
    obtain ⟨hover, htrue, hwrapped⟩ := ih h' ht' hrest
    exact ⟨hover, htrue, hwrapped.trans (wrapped_apply op e)⟩

theorem overlays_new (w : ExpandedFst L W) : Overlays (EditFst.new w) w.copyOf := by
  obtain ⟨hstates, hstart⟩ := copyOf_eq w
  have hnum : w.copyOf.numStates = w.numStates := by simp [VectorFst.numStates, hstates]
  refine ⟨hstart, hnum, ?_, ?_, ?_, ?_, fun _ _ => rfl, honest_new, fun s hs _ => hnum ▸ hs⟩
  · intro s i hi
    cases hi
  · intro s hs _
    have hlt : s < w.numStates := hnum ▸ hs
    rw [hstates, List.getElem?_map, List.getElem?_range hlt]
    rfl
  · intro s t i hi
    cases hi
  · intro i hi
    exact absurd hi (Nat.not_lt_zero i)

theorem truthful_new {w : ExpandedFst L W} :
    Truthful (EditFst.new w).properties fst ↔ Truthful w.properties fst := by
  have hsame : ∀ bits, bits &&& kFstProperties = bits → bits &&& kMutable = 0 →
      (Held (EditFst.new w).properties bits ↔ Held w.properties bits) := by
    intro bits hfst hmutable
    have hbits : (EditFst.new w).properties &&& bits = w.properties &&& bits := by
      simp only [EditFst.new]
      rw [BitVec.and_or_distrib_right, BitVec.and_assoc, BitVec.and_comm kFstProperties, hfst,
        BitVec.and_comm kMutable, hmutable]
      exact BitVec.or_zero
    rw [Held, Held, hbits]
  refine forall_congr' fun p => and_congr (imp_congr_left ?_) (imp_congr_left ?_)
  · apply hsame <;> cases p <;> decide
  · apply hsame <;> cases p <;> decide

/- To a caller the edited FST is `fst`. -/
structure ReadsAs (e : EditFst L W) (fst : VectorFst L W) : Prop where
  start : e.start = fst.start
  numStates : e.numStates = fst.numStates
  finalWeight : ∀ s < fst.numStates, e.finalWeight s = fst.finalWeight s
  arcs : ∀ s < fst.numStates, e.arcs s = fst.arcs s
  numInputEpsilons : ∀ s < fst.numStates, e.numInputEpsilons s = fst.numInputEpsilons s
  numOutputEpsilons : ∀ s < fst.numStates, e.numOutputEpsilons s = fst.numOutputEpsilons s
  truthful : Truthful e.properties fst

/- What the wrapped FST says of itself is right. -/
structure Reliable (w : ExpandedFst L W) : Prop where
  icounts : ∀ s < w.numStates, w.numInputEpsilons s = iepsilons (w.arcs s)
  ocounts : ∀ s < w.numStates, w.numOutputEpsilons s = oepsilons (w.arcs s)
  truthful : Truthful w.properties w.copyOf

theorem Overlays.readsAs (h : Overlays e fst) (ht : Truthful e.properties fst)
    (hw : Reliable e.wrapped) : ReadsAs e fst := by
  refine ⟨h.start.symm, h.numStates.symm, fun s => h.finalWeight_eq, fun s => h.arcs_eq, ?_, ?_, ht⟩
  · intro s hs
    unfold EditFst.numInputEpsilons VectorFst.numInputEpsilons
    cases hi : e.externalToInternal s with
    | some i =>
      obtain ⟨-, state, hstate, hstate'⟩ := h.copied s i hi
      simp only [hstate, hstate']
    | none =>
      rw [h.untouched s hs hi]
      exact hw.icounts s (h.added s hs hi)
  · intro s hs
    unfold EditFst.numOutputEpsilons VectorFst.numOutputEpsilons
    cases hi : e.externalToInternal s with
    | some i =>
      obtain ⟨-, state, hstate, hstate'⟩ := h.copied s i hi
      simp only [hstate, hstate']
    | none =>
      rw [h.untouched s hs hi]
      exact hw.ocounts s (h.added s hs hi)

theorem numArcs_eq (h : Overlays e fst) (hw : ∀ s, e.wrapped.numArcs s = (e.wrapped.arcs s).length)
    (hs : s < fst.numStates) : e.numArcs s = fst.numArcs s := by
  rw [VectorFst.numArcs_eq, ← h.arcs_eq hs]
  unfold EditFst.numArcs EditFst.arcs
  cases e.externalToInternal s with
  | some i => exact VectorFst.numArcs_eq e.edits i
  | none => exact hw s

theorem editFst_exact_iff (w : ExpandedFst L W) :
    (∀ ops : List (EditOp L W), EditOp.EditsExisting w.numStates ops →
      ReadsAs (ops.foldl (fun e op => op.apply e) (EditFst.new w))
        (ops.foldl (fun fst op => op.applyVector fst) w.copyOf)) ↔ Reliable w := by
  have hover := overlays_new w
  have hnum : w.copyOf.numStates = w.numStates := hover.numStates
  constructor
  · intro h
    have hreads := h [] trivial
    have hstates := (copyOf_eq w).1
    refine ⟨?_, ?_, truthful_new.mp hreads.truthful⟩
    · intro s hs
      have hcount := hreads.numInputEpsilons s (hnum.symm ▸ hs)
      simpa [EditFst.new, EditFst.numInputEpsilons, VectorFst.numInputEpsilons, hstates,
        List.getElem?_range hs, original] using hcount
    · intro s hs
      have hcount := hreads.numOutputEpsilons s (hnum.symm ▸ hs)
      simpa [EditFst.new, EditFst.numOutputEpsilons, VectorFst.numOutputEpsilons, hstates,
        List.getElem?_range hs, original] using hcount
  · intro hw ops hops
    obtain ⟨hover', htrue, hwrapped⟩ :=
      run_spec hover (truthful_new.mpr hw.truthful) (hnum.symm ▸ hops)
    exact hover'.readsAs htrue (hwrapped.symm ▸ hw)

/- An arc renamed to an epsilon after it was counted. -/
def staleFst : VectorFst ℤ (Tropical (WithTop ℕ)) :=
  let fst : VectorFst ℤ (Tropical (WithTop ℕ)) := VectorFst.new.addState.addArc 0 ⟨1, 1, 1, 0⟩
  (fst.mutateArcs 0 (fun arc (m : Unit) => (⟨0, 0, arc.weight, arc.nextstate⟩, m)) ()).1

/- Wrapped, it does not read as a copy made arc by arc, nor after an edit as its clone. -/
theorem stale_wrapped_differs :
    (¬ ∀ ops : List (EditOp ℤ (Tropical (WithTop ℕ))),
      EditOp.EditsExisting staleFst.toExpanded.numStates ops →
      ReadsAs (ops.foldl (fun e op => op.apply e) (EditFst.new staleFst.toExpanded))
        (ops.foldl (fun fst op => op.applyVector fst) staleFst.toExpanded.copyOf)) ∧
    ¬ ∀ ops : List (EditOp ℤ (Tropical (WithTop ℕ))),
      EditOp.EditsExisting staleFst.toExpanded.numStates ops →
      ReadsAs (ops.foldl (fun e op => op.apply e) (EditFst.new staleFst.toExpanded))
        (ops.foldl (fun fst op => op.applyVector fst) staleFst) := by
  constructor
  · intro h
    have hreads := (h [] trivial).numInputEpsilons 0 (by decide)
    exact absurd hreads (by decide)
  · intro h
    have hreads := (h [.addArc 0 ⟨2, 2, 1, 0⟩] ⟨Nat.zero_lt_one, trivial⟩).numInputEpsilons 0 (by decide)
    exact absurd hreads (by decide)

end Sicada.EditFstExact
