import Sicada.CcVisitors
import Sicada.Paths
import Sicada.PropertyBits

namespace Sicada.Deletion

open PropertyBits Paths Walk ListLemmas

variable {L W : Type} [ArcLabel L] [Zero W] [One W] [DecidableEq W]

/- The number a kept state has in the end. -/
def newId (fst : VectorFst L W) (dstates : List ℕ) (s : ℕ) : Option ℕ :=
  (VectorFst.newIds dstates fst.states 0 0)[s]?.join

def kept (fst : VectorFst L W) (dstates : List ℕ) : List ℕ := keptIds dstates fst.numStates 0

variable {dstates : List ℕ} {fst : VectorFst L W}

theorem newIds_of_keptIds {states : List (VectorState L W)} {state j i : ℕ} (next : ℕ)
    (h : (keptIds dstates states.length state)[j]? = some i) : state ≤ i ∧
      (VectorFst.newIds dstates states state next)[i - state]? = some (some (next + j)) := by
  induction states generalizing state next j with
  | nil => simp [keptIds] at h
  | cons s states ih =>
    rw [List.length_cons, keptIds_cons] at h
    have hshift : state + 1 ≤ i → i - state = i - (state + 1) + 1 := by omega
    by_cases hmem : state ∈ dstates
    · rw [if_pos hmem] at h
      obtain ⟨hle, hnew⟩ := ih next h
      rw [VectorFst.newIds, if_pos hmem, hshift hle, List.getElem?_cons_succ]
      exact ⟨by omega, hnew⟩
    · rw [if_neg hmem] at h
      rw [VectorFst.newIds, if_neg hmem]
      cases j with
      | zero =>
        obtain rfl : state = i := by simpa using h
        simp
      | succ j =>
        obtain ⟨hle, hnew⟩ := ih (next + 1) h
        rw [hshift hle, List.getElem?_cons_succ]
        exact ⟨by omega, hnew.trans (by congr 2; omega)⟩

theorem newId_eq_some {s k : ℕ} :
    newId fst dstates s = some k ↔ (kept fst dstates)[k]? = some s := by
  unfold newId kept
  constructor
  · intro h
    obtain ⟨-, hkept⟩ := keptIds_of_newIds (Option.join_eq_some_iff.mp h)
    rw [Nat.sub_zero, Nat.zero_add] at hkept
    exact hkept
  · intro h
    obtain ⟨-, hnew⟩ := newIds_of_keptIds 0 h
    rw [Nat.sub_zero, Nat.zero_add] at hnew
    rw [hnew]
    rfl

theorem mem_kept {s : ℕ} :
    s ∈ kept fst dstates ↔ s < fst.numStates ∧ s ∉ dstates := by
  simp [kept, keptIds, List.mem_range'_1]

theorem newId_isSome {s : ℕ} :
    (newId fst dstates s).isSome = true ↔ s < fst.numStates ∧ s ∉ dstates := by
  rw [← mem_kept, List.mem_iff_getElem?, Option.isSome_iff_exists]
  exact exists_congr fun k => newId_eq_some

theorem length_newIds (dstates : List ℕ) (states : List (VectorState L W)) (state next : ℕ) :
    (VectorFst.newIds dstates states state next).length = states.length := by
  induction states generalizing state next with
  | nil => rfl
  | cons s states ih =>
    rw [VectorFst.newIds]
    split <;> simp [ih]

theorem length_keptStates (dstates : List ℕ) (states : List (VectorState L W)) (state : ℕ) :
    (VectorFst.keptStates dstates states state).length =
      (keptIds dstates states.length state).length := by
  induction states generalizing state with
  | nil => rfl
  | cons s states ih =>
    rw [VectorFst.keptStates, List.length_cons, keptIds_cons]
    split <;> simp [ih]

/- The arcs kept of a state, renumbered. -/
def renumber (newid : List (Option ℕ)) (arcs : List (Arc L W)) : List (Arc L W) :=
  arcs.filterMap fun arc => newid[arc.nextstate]?.join.map fun t => { arc with nextstate := t }

theorem remapArcs_eq {newid : List (Option ℕ)} {arcs : List (Arc L W)}
    (h : ∀ arc ∈ arcs, arc.nextstate < newid.length) :
    VectorFst.remapArcs newid arcs = some (renumber newid arcs) := by
  induction arcs with
  | nil => rfl
  | cons arc arcs ih =>
    have hlt := h arc List.mem_cons_self
    have hrest := ih fun a ha => h a (List.mem_cons_of_mem arc ha)
    rw [VectorFst.remapArcs, hrest, List.getElem?_eq_getElem hlt, Option.bind_some,
      Option.map_some]
    cases hid : newid[arc.nextstate] with
    | none => simp [renumber, List.getElem?_eq_getElem hlt, hid]
    | some t => simp [renumber, List.getElem?_eq_getElem hlt, hid]

def remapped (newid : List (Option ℕ)) (s : VectorState L W) : VectorState L W :=
  { s with
    arcs := renumber newid s.arcs
    niepsilons := (renumber newid s.arcs).countP (·.ilabel = epsilon)
    noepsilons := (renumber newid s.arcs).countP (·.olabel = epsilon) }

theorem remapStates_eq {newid : List (Option ℕ)} {states : List (VectorState L W)}
    (h : ∀ s ∈ states, ∀ arc ∈ s.arcs, arc.nextstate < newid.length) :
    VectorFst.remapStates newid states = some (states.map (remapped newid)) := by
  induction states with
  | nil => rfl
  | cons s states ih =>
    have hrest := ih fun t ht => h t (List.mem_cons_of_mem s ht)
    have hs := remapArcs_eq (h s List.mem_cons_self)
    rw [VectorFst.remapStates, VectorFst.remapState, hs, hrest]
    rfl

/- What is left reads as the FST does, but for its numbers and the arcs to what is gone. -/
structure Restricts (fst fst' : VectorFst L W) (dstates : List ℕ) : Prop where
  numStates : fst'.numStates = (kept fst dstates).length
  arcs : ∀ k s, (kept fst dstates)[k]? = some s → fst'.arcs k = (fst.arcs s).filterMap fun arc =>
    (newId fst dstates arc.nextstate).map fun t => { arc with nextstate := t }
  finalWeight : ∀ k s, (kept fst dstates)[k]? = some s → fst'.finalWeight k = fst.finalWeight s
  start : fst'.start = fst.start.bind (newId fst dstates)

theorem deleteStates_restricts (h : fst.InRange) (dstates : List ℕ) :
    ∃ fst', fst.deleteStates dstates = some fst' ∧ Restricts fst fst' dstates := by
  by_cases hnil : dstates = []
  · subst hnil
    have hkept : kept fst [] = List.range fst.numStates := by
      simp [kept, keptIds, List.range_eq_range']
    have hnew : ∀ s < fst.numStates, newId fst [] s = some s := by
      intro s hs
      rw [newId_eq_some, hkept, List.getElem?_range hs]
    refine ⟨fst, rfl, ?_, ?_, ?_, ?_⟩
    · rw [hkept, List.length_range]
    · intro k s hk
      rw [hkept] at hk
      obtain ⟨-, rfl⟩ := List.getElem?_eq_some_iff.mp hk
      rw [List.getElem_range]
      have hsame : ∀ arc ∈ fst.arcs k, ((newId fst [] arc.nextstate).map fun t =>
          ({ arc with nextstate := t } : Arc L W)) = some arc := by
        intro arc harc
        rw [hnew _ (h.arcs k arc harc)]
        rfl
      rw [List.filterMap_congr hsame, List.filterMap_some]
    · intro k s hk
      rw [hkept] at hk
      obtain ⟨-, rfl⟩ := List.getElem?_eq_some_iff.mp hk
      rw [List.getElem_range]
    · cases hstart : fst.start with
      | none => rfl
      | some s => exact (hnew s (h.start s hstart)).symm
  · have hlen := length_newIds dstates fst.states 0 0
    have hstates : ∀ s ∈ VectorFst.keptStates dstates fst.states 0, ∀ arc ∈ s.arcs,
        arc.nextstate < (VectorFst.newIds dstates fst.states 0 0).length := by
      intro s hs arc harc
      obtain ⟨k, hk⟩ := List.mem_iff_getElem?.mp hs
      obtain ⟨i, -, hi⟩ := keptIds_of_keptStates hk
      rw [hlen]
      refine h.arcs i arc ?_
      rw [VectorFst.arcs_of_getElem? hi]
      exact harc
    have hremap := remapStates_eq hstates
    have hstart : VectorFst.remapStart (VectorFst.newIds dstates fst.states 0 0) fst.start =
        some (fst.start.bind (newId fst dstates)) := by
      cases hs : fst.start with
      | none => rfl
      | some s =>
        have hlt : s < (VectorFst.newIds dstates fst.states 0 0).length := by
          rw [hlen]
          exact h.start s hs
        simp [VectorFst.remapStart, newId, List.getElem?_eq_getElem hlt]
    have hget : ∀ k s : ℕ, (kept fst dstates)[k]? = some s → ∃ state : VectorState L W, fst.states[s]? = some state ∧
        ((VectorFst.keptStates dstates fst.states 0).map
          (remapped (VectorFst.newIds dstates fst.states 0 0)))[k]? =
            some (remapped (VectorFst.newIds dstates fst.states 0 0) state) := by
      intro k s hk
      have hklt := (List.getElem?_eq_some_iff.mp hk).1
      have hlt : k < (VectorFst.keptStates dstates fst.states 0).length := by
        rw [length_keptStates]
        exact hklt
      obtain ⟨i, hid, hi⟩ := keptIds_of_keptStates (List.getElem?_eq_getElem hlt)
      rw [Nat.zero_add] at hid
      obtain rfl := Option.some.inj (hk.symm.trans hid)
      refine ⟨_, hi, ?_⟩
      rw [List.getElem?_map, List.getElem?_eq_getElem hlt]
      rfl
    have hrun : fst.deleteStates dstates = some
        ⟨(VectorFst.keptStates dstates fst.states 0).map
          (remapped (VectorFst.newIds dstates fst.states 0 0)),
          fst.start.bind (newId fst dstates), deleteStatesProperties fst.properties⟩ := by
      rw [VectorFst.deleteStates, if_neg hnil]
      dsimp only
      rw [hremap, hstart]
      rfl
    refine ⟨_, hrun, ?_⟩
    refine ⟨?_, ?_, ?_, rfl⟩
    · rw [VectorFst.numStates, List.length_map, length_keptStates]
      rfl
    · intro k s hk
      obtain ⟨state, hstate, hk'⟩ := hget k s hk
      rw [VectorFst.arcs_of_getElem? hstate]
      unfold VectorFst.arcs
      dsimp only
      rw [hk']
      rfl
    · intro k s hk
      obtain ⟨state, hstate, hk'⟩ := hget k s hk
      rw [VectorFst.finalWeight_of_getElem? hstate]
      unfold VectorFst.finalWeight
      dsimp only
      rw [hk']
      rfl

end Sicada.Deletion
