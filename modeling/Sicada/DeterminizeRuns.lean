import Sicada.Determinize
import Sicada.Library.ListLemmas

namespace Sicada.DeterminizeRuns

open ListLemmas

variable {L K : Type} [ArcLabel L] [Zero K] [One K] [DecidableEq K] [Add K] [Mul K] [Divide K]

/- One loop state has come from another by giving out arcs of a state, and the subsets they lead
to. -/
structure Interned (state : ℕ) (arcs : List (Arc L (Weight K))) (l l' : DeterminizeLoop L K) :
    Prop where
  grow : l.subsets <+: l'.subsets
  nodup : l'.subsets.Nodup
  numStates : l'.ofst.numStates = l'.subsets.length
  start : l'.ofst.start = l.ofst.start
  finalWeight : l'.ofst.finalWeight = l.ofst.finalWeight
  arcs : l'.ofst.arcs = Function.update l.ofst.arcs state (l.ofst.arcs state ++ arcs)
  pending : ∀ x, x ∈ l'.pending ↔
    x ∈ l.pending ∨ (l.subsets.length ≤ x ∧ x < l'.subsets.length)
  pendingNodup : (∀ x ∈ l.pending, x < l.subsets.length) → l.pending.Nodup → l'.pending.Nodup
  card : l'.pending.length + l.subsets.length = l.pending.length + l'.subsets.length

variable {l : DeterminizeLoop L K}

theorem interned_refl (hnodup : l.subsets.Nodup) (hnum : l.ofst.numStates = l.subsets.length)
    (state : ℕ) : Interned state [] l l := by
  refine ⟨List.prefix_rfl, hnodup, hnum, rfl, rfl, ?_, ?_, fun _ h => h, rfl⟩
  · rw [List.append_nil, Function.update_eq_self]
  · intro x
    constructor
    · exact Or.inl
    · rintro (h | ⟨hle, hlt⟩)
      · exact h
      · omega

variable {l' : DeterminizeLoop L K}

theorem Interned.trans {state : ℕ} {arcs arcs' : List (Arc L (Weight K))}
    {l'' : DeterminizeLoop L K} (h : Interned state arcs l l') (h' : Interned state arcs' l' l'') :
    Interned state (arcs ++ arcs') l l'' := by
  have hle := h.grow.length_le
  have hle' := h'.grow.length_le
  refine ⟨h.grow.trans h'.grow, h'.nodup, h'.numStates, h'.start.trans h.start,
    h'.finalWeight.trans h.finalWeight, ?_, ?_, ?_, ?_⟩
  · rw [h'.arcs, h.arcs, Function.update_self, Function.update_idem, List.append_assoc]
  · exact ListLemmas.mem_worklist_trans h.pending h'.pending hle hle'
  · exact fun hlt hnodup => h'.pendingNodup (ListLemmas.lt_of_mem_worklist h.pending hle hlt)
      (h.pendingNodup hlt hnodup)
  · have hcard := h.card
    have hcard' := h'.card
    omega

theorem findState_spec (hnodup : l.subsets.Nodup) (subset : Subset K) :
    l.subsets <+: (findState subset l).2.subsets ∧ (findState subset l).2.subsets.Nodup ∧
      (findState subset l).2.subsets[(findState subset l).1]? = some subset ∧
      (∀ t ∈ (findState subset l).2.subsets, t ∈ l.subsets ∨ t = subset) :=
  BiTable.findId_spec hnodup subset

theorem findState_pending (subset : Subset K) :
    (∀ x, x ∈ (findState subset l).2.pending ↔
      x ∈ l.pending ∨ (l.subsets.length ≤ x ∧ x < (findState subset l).2.subsets.length)) ∧
    ((∀ x ∈ l.pending, x < l.subsets.length) → l.pending.Nodup →
      (findState subset l).2.pending.Nodup) ∧
    (findState subset l).2.pending.length + l.subsets.length =
      l.pending.length + (findState subset l).2.subsets.length := by
  rcases BiTable.findId_cases l.subsets subset with ⟨id, hlt, hid⟩ | hid
  · have hfind : findState subset l = (id, l) := by
      simp [findState, hid, hlt.ne]
    rw [hfind]
    refine ⟨?_, fun _ h => h, rfl⟩
    intro x
    constructor
    · exact Or.inl
    · rintro (h | ⟨hle, hx⟩)
      · exact h
      · dsimp only at hx
        omega
  · have hfind : findState subset l = (l.subsets.length, { l with
        subsets := l.subsets ++ [subset]
        pending := l.subsets.length :: l.pending }) := by
      simp [findState, hid]
    rw [hfind]
    refine ⟨?_, ?_, ?_⟩
    · intro x
      simp only [List.mem_cons, List.length_append, List.length_singleton]
      constructor
      · rintro (rfl | h)
        · exact Or.inr ⟨le_rfl, by omega⟩
        · exact Or.inl h
      · rintro (h | ⟨hle, hx⟩)
        · exact Or.inr h
        · exact Or.inl (by omega)
    · intro hlt hnodup
      exact List.nodup_cons.mpr ⟨fun h => absurd (hlt _ h) (lt_irrefl _), hnodup⟩
    · simp only [List.length_cons, List.length_append, List.length_nil]
      omega

/- An arc of the result with the subset it was to lead to. -/
def Stands (divisor : Weight K → Weight K → Weight K) (subsets : List (Subset K))
    (group : L × List (Transition L K)) (arc : Arc L (Weight K)) : Prop :=
  arc.ilabel = group.1 ∧ arc.olabel = group.1 ∧ arc.weight = arcWeight divisor group.2 ∧
    ∃ subset, residualSubset divisor group.2 = .ok subset ∧
      subsets[arc.nextstate]? = some subset

theorem Stands.mono {divisor : Weight K → Weight K → Weight K} {subsets subsets' : List (Subset K)}
    (h : subsets <+: subsets') {group : L × List (Transition L K)} {arc : Arc L (Weight K)}
    (hs : Stands divisor subsets group arc) : Stands divisor subsets' group arc := by
  obtain ⟨hi, ho, hw, subset, hres, hsub⟩ := hs
  exact ⟨hi, ho, hw, subset, hres, getElem?_of_grow h hsub⟩

variable {divisor : Weight K → Weight K → Weight K} {maxStates : Option ℕ} {state : ℕ}

theorem expandGroup_spec {group : L × List (Transition L K)} (hnodup : l.subsets.Nodup)
    (hnum : l.ofst.numStates = l.subsets.length) (hstate : state < l.subsets.length)
    (hok : expandGroup divisor maxStates state l group = .ok l') :
    ∃ arc, Interned state [arc] l l' ∧ Stands divisor l'.subsets group arc ∧
      ∀ t ∈ l'.subsets, t ∈ l.subsets ∨ residualSubset divisor group.2 = .ok t := by
  unfold expandGroup at hok
  split at hok
  · cases hok
  · next subset hres =>
    obtain ⟨hgrow, hnodup', hid, hnew⟩ := findState_spec hnodup subset
    obtain ⟨hpending, hpnodup, hcard⟩ := findState_pending (l := l) subset
    have hofst : (findState subset l).2.ofst = l.ofst := rfl
    generalize findState subset l = r at *
    obtain ⟨id, k⟩ := r
    dsimp only at hok hgrow hnodup' hid hnew hpending hpnodup hcard hofst
    split at hok
    · cases hok
    · cases hok
      obtain ⟨hgarcs, hgfinal, hgstart, hgnum⟩ := VectorFst.growTo_eq k.ofst k.subsets.length
      have hlen := hgrow.length_le
      have hgnum' : (k.ofst.growTo k.subsets.length).numStates = k.subsets.length := by
        rw [hgnum, hofst, hnum]
        omega
      have hstate' : state < (k.ofst.growTo k.subsets.length).numStates := by omega
      obtain ⟨s, hsome⟩ : ∃ s, (k.ofst.growTo k.subsets.length).states[state]? = some s :=
        ⟨_, List.getElem?_eq_getElem hstate'⟩
      refine ⟨⟨group.1, group.1, arcWeight divisor group.2, id⟩, ?_,
        ⟨rfl, rfl, rfl, subset, hres, hid⟩, ?_⟩
      · refine ⟨hgrow, hnodup', ?_, ?_, ?_, ?_, hpending, hpnodup, hcard⟩
        · rw [VectorFst.numStates_addArc, hgnum']
        · rw [VectorFst.addArc_start, hgstart, hofst]
        · rw [VectorFst.finalWeight_addArc, hgfinal, hofst]
        · rw [VectorFst.arcs_addArc _ hsome, ← VectorFst.arcs_of_getElem? hsome, hgarcs, hofst]
      · intro t ht
        rcases hnew t ht with hold | rfl
        · exact Or.inl hold
        · exact Or.inr hres

theorem expandGroups_spec {groups : List (L × List (Transition L K))} (hnodup : l.subsets.Nodup)
    (hnum : l.ofst.numStates = l.subsets.length) (hstate : state < l.subsets.length)
    (hok : groups.foldlM (expandGroup divisor maxStates state) l = .ok l') :
    ∃ arcs, Interned state arcs l l' ∧ List.Forall₂ (Stands divisor l'.subsets) groups arcs ∧
      ∀ t ∈ l'.subsets, t ∈ l.subsets ∨ ∃ group ∈ groups,
        residualSubset divisor group.2 = .ok t := by
  induction groups generalizing l with
  | nil =>
    cases hok
    exact ⟨[], interned_refl hnodup hnum state, List.Forall₂.nil, fun t ht => Or.inl ht⟩
  | cons group groups ih =>
    rw [List.foldlM_cons] at hok
    cases hstep : expandGroup divisor maxStates state l group with
    | error e =>
      rw [hstep] at hok
      cases hok
    | ok k =>
      rw [hstep] at hok
      obtain ⟨arc, hint, hstands, hnew⟩ := expandGroup_spec hnodup hnum hstate hstep
      obtain ⟨arcs, hint', hall, hnew'⟩ := ih hint.nodup hint.numStates
        (hstate.trans_le hint.grow.length_le) hok
      refine ⟨arc :: arcs, hint.trans hint', List.Forall₂.cons (hstands.mono hint'.grow) hall, ?_⟩
      intro t ht
      rcases hnew' t ht with hold | ⟨group', hmem, hres⟩
      · rcases hnew t hold with hold | hres
        · exact Or.inl hold
        · exact Or.inr ⟨group, List.mem_cons_self, hres⟩
      · exact Or.inr ⟨group', List.mem_cons_of_mem group hmem, hres⟩

def groupsOf (fst : VectorFst L (Weight K)) (subset : Subset K) : List (L × List (Transition L K)) :=
  labelGroups (sortTransitions (subsetTransitions fst subset))

/- A subset an arc of another leads to. -/
def Successor (fst : VectorFst L (Weight K)) (divisor : Weight K → Weight K → Weight K)
    (s t : Subset K) : Prop :=
  ∃ group ∈ groupsOf fst s, residualSubset divisor group.2 = .ok t

section Invariant

variable (fst : VectorFst L (Weight K)) (divisor : Weight K → Weight K → Weight K)

/- The state `q` of the result has the final weight and the arcs its subset calls for. -/
def Expanded (l : DeterminizeLoop L K) (q : ℕ) (subset : Subset K) : Prop :=
  (subsetFinal fst subset).isMember ∧ l.ofst.finalWeight q = subsetFinal fst subset ∧
    List.Forall₂ (Stands divisor l.subsets) (groupsOf fst subset) (l.ofst.arcs q)

structure DeterminizeInv (Known : Subset K → Prop) (first : Subset K) (l : DeterminizeLoop L K) :
    Prop where
  nodup : l.subsets.Nodup
  known : ∀ t ∈ l.subsets, Known t
  first : l.subsets[0]? = some first
  numStates : l.ofst.numStates = l.subsets.length
  start : l.ofst.start = some 0
  pendingNodup : l.pending.Nodup
  pending : ∀ q ∈ l.pending, q < l.subsets.length
  untouched : ∀ q ∈ l.pending, l.ofst.arcs q = [] ∧ l.ofst.finalWeight q = 0
  expanded : ∀ q subset, l.subsets[q]? = some subset → q ∉ l.pending → Expanded fst divisor l q subset

variable {fst divisor} {Known : Subset K → Prop} {first : Subset K}

theorem finalised {ofst : VectorFst L (Weight K)} {q : ℕ} (hq : q < ofst.numStates)
    (hzero : ofst.finalWeight q = 0) (w : Weight K) :
    let ofst' := if w ≠ 0 then ofst.setFinal q w else ofst
    ofst'.arcs = ofst.arcs ∧ ofst'.start = ofst.start ∧ ofst'.numStates = ofst.numStates ∧
      ofst'.finalWeight = Function.update ofst.finalWeight q w := by
  dsimp only
  split
  · exact ⟨VectorFst.arcs_setFinal _ _ _, VectorFst.start_setFinal _ _ _,
      VectorFst.numStates_setFinal _ _ _, VectorFst.finalWeight_setFinal _ hq⟩
  next hw =>
    refine ⟨rfl, rfl, rfl, ?_⟩
    rw [not_not.mp hw, ← hzero, Function.update_eq_self]

theorem determinizeStep_inv (hclosed : ∀ s t, Known s → Successor fst divisor s t → Known t)
    (hinv : DeterminizeInv fst divisor Known first l)
    (hstep : determinizeStep fst divisor maxStates l = .ok (some l')) :
    DeterminizeInv fst divisor Known first l' ∧
      l'.pending.length + l.subsets.length + 1 = l.pending.length + l'.subsets.length := by
  obtain ⟨subsets, pending, ofst⟩ := l
  cases pending with
  | nil => cases hstep
  | cons q pending =>
    obtain ⟨hnodup, hknown, hfirst, hnum, hstart, hpnodup, hpending, huntouched, hexpanded⟩ := hinv
    dsimp only at hnodup hknown hfirst hnum hstart hpnodup hpending huntouched hexpanded
    have hqlt : q < subsets.length := hpending q List.mem_cons_self
    obtain ⟨subset, hsubset⟩ : ∃ subset, subsets[q]? = some subset :=
      ⟨subsets[q], List.getElem?_eq_getElem hqlt⟩
    have hgetD : subsets.getD q [] = subset := by
      rw [List.getD_eq_getElem?_getD, hsubset, Option.getD_some]
    obtain ⟨hqarcs, hqfinal⟩ := huntouched q List.mem_cons_self
    obtain ⟨hfarcs, hfstart, hfnum, hffinal⟩ :=
      finalised (hnum ▸ hqlt) hqfinal (subsetFinal fst subset)
    simp only [determinizeStep, hgetD] at hstep
    split at hstep
    · cases hstep
    next hmember =>
    have hmember' : (subsetFinal fst subset).isMember := by
      by_cases hzero : subsetFinal fst subset = 0
      · rw [hzero]
        rfl
      · by_contra hnot
        exact hmember ⟨hzero, hnot⟩
    generalize (if subsetFinal fst subset ≠ 0 then ofst.setFinal q (subsetFinal fst subset)
      else ofst) = ofst' at hstep hfarcs hfstart hfnum hffinal
    have hfold : (groupsOf fst subset).foldlM (expandGroup divisor maxStates q)
        ⟨subsets, pending, ofst'⟩ = .ok l' := by
      change Except.map some ((groupsOf fst subset).foldlM (expandGroup divisor maxStates q)
        ⟨subsets, pending, ofst'⟩) = _ at hstep
      cases hresult : (groupsOf fst subset).foldlM (expandGroup divisor maxStates q)
          ⟨subsets, pending, ofst'⟩ with
      | error e =>
        rw [hresult] at hstep
        cases hstep
      | ok k =>
        rw [hresult] at hstep
        cases hstep
        rfl
    obtain ⟨arcs, hint, hall, hnew⟩ := expandGroups_spec hnodup (hfnum.trans hnum) hqlt hfold
    obtain ⟨hgrow, hnodup', hnum', hstart', hfinal', harcs', hpending', hpnodup', hcard⟩ := hint
    dsimp only at hgrow hstart' hfinal' harcs' hpending' hpnodup' hcard
    rw [hfarcs, hqarcs, List.nil_append] at harcs'
    rw [hffinal] at hfinal'
    have hne : ∀ x ∈ pending, x ≠ q := by
      rintro x hx rfl
      exact (List.nodup_cons.mp hpnodup).1 hx
    constructor
    · refine ⟨hnodup', ?_, getElem?_of_grow hgrow hfirst, hnum', hstart'.trans (hfstart.trans hstart),
        ?_, ?_, ?_, ?_⟩
      · intro t ht
        rcases hnew t ht with hold | hsucc
        · exact hknown t hold
        · exact hclosed subset t (hknown subset (List.mem_of_getElem? hsubset)) hsucc
      · exact hpnodup' (fun x hx => hpending x (List.mem_cons_of_mem q hx))
          (List.nodup_cons.mp hpnodup).2
      · intro x hx
        rcases (hpending' x).mp hx with hx | ⟨-, hx⟩
        · exact (hpending x (List.mem_cons_of_mem q hx)).trans_le hgrow.length_le
        · exact hx
      · intro x hx
        rcases (hpending' x).mp hx with hx | ⟨hx, -⟩
        · rw [harcs', hfinal', Function.update_of_ne (hne x hx), Function.update_of_ne (hne x hx)]
          exact huntouched x (List.mem_cons_of_mem q hx)
        · have hxq : x ≠ q := by omega
          have hle : ofst.numStates ≤ x := hnum ▸ hx
          rw [harcs', hfinal', Function.update_of_ne hxq, Function.update_of_ne hxq]
          exact ⟨VectorFst.arcs_of_le hle, VectorFst.finalWeight_of_le hle⟩
      · intro x t ht hx
        unfold Expanded
        rw [harcs', hfinal']
        by_cases hxq : x = q
        · subst hxq
          obtain rfl : subset = t := Option.some.inj ((getElem?_of_grow hgrow hsubset).symm.trans ht)
          rw [Function.update_self, Function.update_self]
          exact ⟨hmember', rfl, hall⟩
        · rw [Function.update_of_ne hxq, Function.update_of_ne hxq]
          have hlt' := (List.getElem?_eq_some_iff.mp ht).1
          have hxlt : x < subsets.length := by
            by_contra hge
            exact hx ((hpending' x).mpr (Or.inr ⟨by omega, hlt'⟩))
          have hxt : subsets[x]? = some t := by
            obtain ⟨rest, hrest⟩ := hgrow
            rwa [← hrest, List.getElem?_append_left hxlt] at ht
          have hxnot : x ∉ q :: pending := by
            intro hmem
            rcases List.mem_cons.mp hmem with rfl | hmem
            · exact hxq rfl
            · exact hx ((hpending' x).mpr (Or.inl hmem))
          obtain ⟨hmem, hfinalx, harcsx⟩ := hexpanded x t hxt hxnot
          exact ⟨hmem, hfinalx, harcsx.imp fun _ _ hs => hs.mono hgrow⟩
    · simp only [List.length_cons]
      omega

theorem expandGroups_error {groups : List (L × List (Transition L K))} {e : String}
    (hfail : groups.foldlM (expandGroup divisor none state) l = .error e) :
    ∃ group ∈ groups, ∃ e, residualSubset divisor group.2 = .error e := by
  induction groups generalizing l with
  | nil => cases hfail
  | cons group groups ih =>
    cases hres : residualSubset divisor group.2 with
    | error e => exact ⟨group, List.mem_cons_self, e, hres⟩
    | ok subset =>
      obtain ⟨k, hk⟩ : ∃ k, expandGroup divisor none state l group = .ok k := by
        unfold expandGroup
        rw [hres]
        exact ⟨_, rfl⟩
      rw [List.foldlM_cons, hk] at hfail
      obtain ⟨group', hmem, herror⟩ := ih hfail
      exact ⟨group', List.mem_cons_of_mem group hmem, herror⟩

/- Why a round fails when no limit is set. -/
theorem determinizeStep_error (hinv : DeterminizeInv fst divisor Known first l) {e : String}
    (hstep : determinizeStep fst divisor none l = .error e) :
    ∃ s, Known s ∧ (¬ (subsetFinal fst s).isMember ∨
      ∃ group ∈ groupsOf fst s, ∃ e, residualSubset divisor group.2 = .error e) := by
  obtain ⟨subsets, pending, ofst⟩ := l
  cases pending with
  | nil => cases hstep
  | cons q pending =>
    have hqlt : q < subsets.length := hinv.pending q List.mem_cons_self
    have hsubset : subsets.getD q [] = subsets[q] := by
      rw [List.getD_eq_getElem?_getD, List.getElem?_eq_getElem hqlt, Option.getD_some]
    refine ⟨subsets[q], hinv.known _ (List.getElem_mem hqlt), ?_⟩
    simp only [determinizeStep, hsubset] at hstep
    split at hstep
    next hfinal => exact Or.inl hfinal.2
    next =>
      right
      generalize (if subsetFinal fst subsets[q] ≠ 0 then ofst.setFinal q (subsetFinal fst subsets[q])
        else ofst) = ofst' at hstep
      cases hresult : (groupsOf fst subsets[q]).foldlM (expandGroup divisor none q)
          ⟨subsets, pending, ofst'⟩ with
      | error e => exact expandGroups_error hresult
      | ok k =>
        change Except.map some ((groupsOf fst subsets[q]).foldlM (expandGroup divisor none q)
          ⟨subsets, pending, ofst'⟩) = _ at hstep
        rw [hresult] at hstep
        cases hstep

theorem pending_of_stopped (hstop : determinizeStep fst divisor maxStates l = .ok none) :
    l.pending = [] := by
  obtain ⟨subsets, pending, ofst⟩ := l
  cases pending with
  | nil => rfl
  | cons q pending =>
    simp only [determinizeStep] at hstop
    split at hstop
    · cases hstop
    · generalize (if subsetFinal fst (subsets.getD q []) ≠ 0 then
        ofst.setFinal q (subsetFinal fst (subsets.getD q [])) else ofst) = ofst' at hstop
      change Except.map some ((groupsOf fst (subsets.getD q [])).foldlM
        (expandGroup divisor maxStates q) ⟨subsets, pending, ofst'⟩) = _ at hstop
      cases hresult : (groupsOf fst (subsets.getD q [])).foldlM (expandGroup divisor maxStates q)
          ⟨subsets, pending, ofst'⟩ with
      | error e =>
        rw [hresult] at hstop
        cases hstop
      | ok k =>
        rw [hresult] at hstop
        cases hstop

def startSubset (istart : ℕ) : Subset K := [(istart, 1)]

def startLoop (istart : ℕ) (ofst : VectorFst L (Weight K)) : DeterminizeLoop L K :=
  ⟨[startSubset istart], [0], ofst.deleteAllStates.addState.setStart (some 0)⟩

variable {istart : ℕ}

theorem startLoop_inv (hknown : Known (startSubset istart)) (ofst : VectorFst L (Weight K)) :
    DeterminizeInv fst divisor Known (startSubset istart) (startLoop istart ofst) := by
  refine ⟨List.nodup_singleton _, ?_, rfl, rfl, rfl, List.nodup_singleton _, ?_, ?_, ?_⟩
  · intro t ht
    obtain rfl := List.mem_singleton.mp ht
    exact hknown
  · intro q hq
    obtain rfl := List.mem_singleton.mp hq
    exact Nat.zero_lt_one
  · intro q hq
    obtain rfl := List.mem_singleton.mp hq
    exact ⟨rfl, rfl⟩
  · intro q subset hsubset hq
    have hlt : q < 1 := (List.getElem?_eq_some_iff.mp hsubset).1
    exact absurd (List.mem_singleton.mpr (by omega)) hq

theorem determinizeFsa_of_start (hstart : fst.start = some istart) (fuel : ℕ)
    (ofst : VectorFst L (Weight K)) : determinizeFsa fuel fst ofst divisor maxStates =
      (Loop.tryLoop (determinizeStep fst divisor maxStates) fuel (startLoop istart ofst)).map
        fun result => result.map fun l => l.ofst.setProperties
          (determinizeProperties (fst.properties &&& kFstProperties) true false) kFstProperties := by
  unfold determinizeFsa
  rw [hstart]
  rfl

/- Where only finitely many subsets can come up, the loop comes to an end. -/
theorem determinizeLoop_terminates (maxStates : Option ℕ) {U : Finset (Subset K)}
    (hclosed : ∀ s t, s ∈ U → Successor fst divisor s t → t ∈ U) (hfirst : startSubset istart ∈ U)
    (ofst : VectorFst L (Weight K)) :
    ∃ fuel r, Loop.tryLoop (determinizeStep fst divisor maxStates) fuel (startLoop istart ofst) =
        some r ∧
      ∀ e, r = .error e → ∃ l, DeterminizeInv fst divisor (· ∈ U) (startSubset istart) l ∧
        determinizeStep fst divisor maxStates l = .error e := by
  have hlength : ∀ l, DeterminizeInv fst divisor (· ∈ U) (startSubset istart) l →
      l.subsets.length ≤ U.card := by
    intro l hl
    rw [← List.toFinset_card_of_nodup hl.nodup]
    apply Finset.card_le_card
    intro t ht
    exact hl.known t (List.mem_toFinset.mp ht)
  have hdown : ∀ l l', DeterminizeInv fst divisor (· ∈ U) (startSubset istart) l →
      determinizeStep fst divisor maxStates l = .ok (some l') →
        U.card - l'.subsets.length + l'.pending.length <
          U.card - l.subsets.length + l.pending.length := by
    intro l l' hl hs
    obtain ⟨hl', hcard⟩ := determinizeStep_inv hclosed hl hs
    have hle := hlength l hl
    have hle' := hlength l' hl'
    omega
  obtain ⟨r, hrun, herror⟩ := Loop.tryLoop_terminates
    (fun l l' hl hs => (determinizeStep_inv hclosed hl hs).1) hdown (startLoop_inv hfirst ofst)
    (Nat.lt_succ_self _)
  exact ⟨_, r, hrun, herror⟩

end Invariant

end Sicada.DeterminizeRuns
