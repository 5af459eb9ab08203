import Sicada.BiTable
import Sicada.Library.Loop
import Sicada.Relations

namespace Sicada

/- An arc of the result, before the state that it leads to has a number. -/
structure UnfoldMove (E L W : Type) where
  ilabel : L
  olabel : L
  weight : W
  dest : E

/- The elements that the states of the result stand for, of which those from `next` on are still to
be expanded. -/
@[ext]
structure UnfoldLoop (E L W : Type) where
  elements : List E
  ofst : VectorFst L W
  next : ℕ

namespace UnfoldLoop

open Paths Walk Relations

variable {E L W : Type} [DecidableEq E] [ArcLabel L] [Zero W] [One W] [DecidableEq W]

def findState (element : E) (l : UnfoldLoop E L W) : ℕ × UnfoldLoop E L W :=
  let (id, elements) := BiTable.findId l.elements element
  if id = l.elements.length then (id, { l with elements := elements, ofst := l.ofst.addState })
  else (id, l)

def addMove (state : ℕ) (l : UnfoldLoop E L W) (move : UnfoldMove E L W) : UnfoldLoop E L W :=
  let (dest, l) := findState move.dest l
  { l with ofst := l.ofst.addArc state ⟨move.ilabel, move.olabel, move.weight, dest⟩ }

/- One round: the arcs of a state, and its final weight unless that is zero. -/
def expand (out : E → List (UnfoldMove E L W)) (final : E → W) (l : UnfoldLoop E L W) :
    Option (UnfoldLoop E L W) :=
  l.elements[l.next]?.map fun element =>
    let state := l.next
    let l := (out element).foldl (addMove state) { l with next := state + 1 }
    { l with ofst := if final element = 0 then l.ofst else l.ofst.setFinal state (final element) }

/- A result of one state, the start. -/
def begun (first : E) (ofst : VectorFst L W) : UnfoldLoop E L W :=
  ⟨[first], ofst.deleteAllStates.addState.setStart (some 0), 0⟩

def toArc (elements : List E) (move : UnfoldMove E L W) : Arc L W :=
  ⟨move.ilabel, move.olabel, move.weight, elements.idxOf move.dest⟩

/- One loop state has come from another by giving a state arcs. -/
structure Adds (state : ℕ) (moves : List (UnfoldMove E L W)) (l l' : UnfoldLoop E L W) : Prop where
  grow : l.elements <+: l'.elements
  nodup : l'.elements.Nodup
  numStates : l'.ofst.numStates = l'.elements.length
  start : l'.ofst.start = l.ofst.start
  finalWeight : l'.ofst.finalWeight = l.ofst.finalWeight
  next : l'.next = l.next
  arcs : l'.ofst.arcs = Function.update l.ofst.arcs state
    (l.ofst.arcs state ++ moves.map (toArc l'.elements))
  dests : ∀ m ∈ moves, m.dest ∈ l'.elements
  known : ∀ e ∈ l'.elements, e ∈ l.elements ∨ ∃ m ∈ moves, e = m.dest

theorem idxOf_of_grow {elements elements' : List E} (hgrow : elements <+: elements') {e : E}
    (he : e ∈ elements) : elements'.idxOf e = elements.idxOf e := by
  obtain ⟨rest, rfl⟩ := hgrow
  exact List.idxOf_append_of_mem he

theorem map_toArc_of_grow {elements elements' : List E} (hgrow : elements <+: elements')
    {moves : List (UnfoldMove E L W)} (hdests : ∀ m ∈ moves, m.dest ∈ elements) :
    moves.map (toArc elements') = moves.map (toArc elements) := by
  apply List.map_congr_left
  intro m hm
  unfold toArc
  rw [idxOf_of_grow hgrow (hdests m hm)]

variable {l : UnfoldLoop E L W} {state : ℕ}

theorem adds_refl (hnodup : l.elements.Nodup) (hnum : l.ofst.numStates = l.elements.length)
    (state : ℕ) : Adds state [] l l := by
  refine ⟨List.prefix_rfl, hnodup, hnum, rfl, rfl, rfl, ?_, fun m hm => ?_, fun e he => Or.inl he⟩
  · simp
  · cases hm

theorem Adds.trans {moves moves' : List (UnfoldMove E L W)} {l' l'' : UnfoldLoop E L W}
    (h : Adds state moves l l') (h' : Adds state moves' l' l'') :
    Adds state (moves ++ moves') l l'' := by
  refine ⟨h.grow.trans h'.grow, h'.nodup, h'.numStates, h'.start.trans h.start,
    h'.finalWeight.trans h.finalWeight, h'.next.trans h.next, ?_, fun m hm => ?_, fun e he => ?_⟩
  · rw [h'.arcs, h.arcs, Function.update_self, Function.update_idem, List.append_assoc,
      List.map_append, map_toArc_of_grow h'.grow h.dests]
  · rcases List.mem_append.mp hm with hm | hm
    · exact h'.grow.subset (h.dests m hm)
    · exact h'.dests m hm
  · rcases h'.known e he with he | ⟨m, hm, rfl⟩
    · rcases h.known e he with he | ⟨m, hm, rfl⟩
      · exact Or.inl he
      · exact Or.inr ⟨m, List.mem_append_left _ hm, rfl⟩
    · exact Or.inr ⟨m, List.mem_append_right _ hm, rfl⟩

theorem adds_addMove (hnodup : l.elements.Nodup) (hnum : l.ofst.numStates = l.elements.length)
    (hstate : state < l.elements.length) (m : UnfoldMove E L W) :
    Adds state [m] l (addMove state l m) := by
  obtain ⟨hgrow, hnodup', hid, hknown⟩ := BiTable.findId_spec hnodup m.dest
  have hmem := List.mem_of_getElem? hid
  have hidx : (BiTable.findId l.elements m.dest).2.idxOf m.dest =
      (BiTable.findId l.elements m.dest).1 := by
    obtain ⟨hlt, hget⟩ := List.getElem?_eq_some_iff.mp hid
    have hself := hnodup'.idxOf_getElem _ hlt
    rwa [hget] at hself
  have harc : [toArc (BiTable.findId l.elements m.dest).2 m] =
      [⟨m.ilabel, m.olabel, m.weight, (BiTable.findId l.elements m.dest).1⟩] := by
    unfold toArc
    rw [hidx]
  have hknown' : ∀ e ∈ (BiTable.findId l.elements m.dest).2,
      e ∈ l.elements ∨ ∃ m' ∈ [m], e = m'.dest := by
    intro e he
    exact (hknown e he).imp_right fun heq => ⟨m, List.mem_singleton_self m, heq⟩
  have hdests : ∀ m' ∈ [m], m'.dest ∈ (BiTable.findId l.elements m.dest).2 := by
    intro m' hm'
    rw [List.mem_singleton.mp hm']
    exact hmem
  have hadd : ∀ fst : VectorFst L W, state < fst.numStates → fst.arcs = l.ofst.arcs →
      (fst.addArc state ⟨m.ilabel, m.olabel, m.weight,
        (BiTable.findId l.elements m.dest).1⟩).arcs =
      Function.update l.ofst.arcs state (l.ofst.arcs state ++
        [m].map (toArc (BiTable.findId l.elements m.dest).2)) := by
    intro fst hlt harcs
    have hsome := List.getElem?_eq_getElem hlt
    rw [VectorFst.arcs_addArc _ hsome, ← VectorFst.arcs_of_getElem? hsome, harcs,
      List.map_singleton, harc]
  unfold addMove findState
  rcases BiTable.findId_cases l.elements m.dest with ⟨id, hlt, hfind⟩ | hfind
  · rw [hfind] at hgrow hnodup' hknown' hdests hadd ⊢
    dsimp only at hgrow hnodup' hknown' hdests hadd ⊢
    have hstate' : state < l.ofst.numStates := hstate.trans_eq hnum.symm
    rw [if_neg hlt.ne]
    refine ⟨hgrow, hnodup', ?_, VectorFst.addArc_start _ _ _, VectorFst.finalWeight_addArc _ _ _,
      rfl, hadd _ hstate' rfl, hdests, hknown'⟩
    rw [VectorFst.numStates_addArc, hnum]
  · rw [hfind] at hgrow hnodup' hknown' hdests hadd ⊢
    dsimp only at hgrow hnodup' hknown' hdests hadd ⊢
    have hlen : l.ofst.addState.numStates = l.elements.length + 1 := by
      rw [← hnum]
      exact List.length_append
    have hstate' : state < l.ofst.addState.numStates := by omega
    rw [if_pos rfl]
    refine ⟨hgrow, hnodup', ?_, VectorFst.addArc_start _ _ _, ?_, rfl,
      hadd _ hstate' (VectorFst.arcs_addStates l.ofst 1), hdests, hknown'⟩
    · rw [VectorFst.numStates_addArc, hlen, List.length_append, List.length_singleton]
    · rw [VectorFst.finalWeight_addArc]
      exact VectorFst.finalWeight_addStates l.ofst 1

theorem adds_foldl (hnodup : l.elements.Nodup) (hnum : l.ofst.numStates = l.elements.length)
    (hstate : state < l.elements.length) (moves : List (UnfoldMove E L W)) :
    Adds state moves l (moves.foldl (addMove state) l) := by
  induction moves generalizing l with
  | nil => exact adds_refl hnodup hnum state
  | cons m moves ih =>
    have hfirst := adds_addMove hnodup hnum hstate m
    have hstate' := hstate.trans_le hfirst.grow.length_le
    exact hfirst.trans (ih hfirst.nodup hfirst.numStates hstate')

section Runs

variable {out : E → List (UnfoldMove E L W)} {final : E → W} {first : E}

/- One element leads to another. -/
def Leads (out : E → List (UnfoldMove E L W)) (e e' : E) : Prop := ∃ m ∈ out e, m.dest = e'

/- The states before `next` have been expanded. -/
structure Inv (out : E → List (UnfoldMove E L W)) (final : E → W) (first : E)
    (l : UnfoldLoop E L W) : Prop where
  nodup : l.elements.Nodup
  numStates : l.ofst.numStates = l.elements.length
  start : l.ofst.start = some 0
  head : l.elements[0]? = some first
  next_le : l.next ≤ l.elements.length
  done : ∀ k < l.next, ∀ e, l.elements[k]? = some e →
    l.ofst.arcs k = (out e).map (toArc l.elements) ∧ (∀ m ∈ out e, m.dest ∈ l.elements) ∧
      l.ofst.finalWeight k = final e
  pending : ∀ k, l.next ≤ k → l.ofst.arcs k = [] ∧ l.ofst.finalWeight k = 0
  reached : ∀ e ∈ l.elements, Relation.ReflTransGen (Leads out) first e

theorem inv_begun (ofst : VectorFst L W) : Inv out final first (begun first ofst) := by
  refine ⟨List.nodup_singleton first, rfl, rfl, rfl, Nat.zero_le _, fun k hk => ?_, fun k _ => ?_,
    fun e he => ?_⟩
  · exact absurd hk (Nat.not_lt_zero k)
  · constructor
    · exact congrFun (VectorFst.arcs_addStates ofst.deleteAllStates 1) k
    · exact congrFun (VectorFst.finalWeight_addStates ofst.deleteAllStates 1) k
  · rw [List.mem_singleton.mp he]

/- A state is given a final weight, unless that is zero. -/
theorem closed {fst : VectorFst L W} {k : ℕ} (hk : k < fst.numStates)
    (hzero : fst.finalWeight k = 0) (weight : W) :
    (if weight = 0 then fst else fst.setFinal k weight).arcs = fst.arcs ∧
      (if weight = 0 then fst else fst.setFinal k weight).start = fst.start ∧
      (if weight = 0 then fst else fst.setFinal k weight).numStates = fst.numStates ∧
      (if weight = 0 then fst else fst.setFinal k weight).finalWeight =
        Function.update fst.finalWeight k weight := by
  by_cases hw : weight = 0
  · rw [if_pos hw]
    refine ⟨rfl, rfl, rfl, ?_⟩
    rw [hw, ← hzero, Function.update_eq_self]
  · rw [if_neg hw]
    exact ⟨VectorFst.arcs_setFinal _ _ _, VectorFst.start_setFinal _ _ _,
      VectorFst.numStates_setFinal _ _ _, VectorFst.finalWeight_setFinal weight hk⟩

theorem inv_expand {l' : UnfoldLoop E L W} (h : Inv out final first l)
    (hexpand : expand out final l = some l') : Inv out final first l' ∧ l'.next = l.next + 1 := by
  obtain ⟨e, he, rfl⟩ := Option.map_eq_some_iff.mp hexpand
  have hlt := (List.getElem?_eq_some_iff.mp he).1
  have hadds : Adds l.next (out e) { l with next := l.next + 1 }
      ((out e).foldl (addMove l.next) { l with next := l.next + 1 }) :=
    adds_foldl (l := { l with next := l.next + 1 }) h.nodup h.numStates hlt (out e)
  dsimp only
  generalize (out e).foldl (addMove l.next) { l with next := l.next + 1 } = l₁ at hadds
  have hle : l.elements.length ≤ l₁.elements.length := hadds.grow.length_le
  have hnum : l.next < l₁.ofst.numStates := by
    rw [hadds.numStates]
    omega
  have hzero : l₁.ofst.finalWeight l.next = 0 := by
    rw [hadds.finalWeight]
    exact (h.pending l.next (Nat.le_refl _)).2
  obtain ⟨harcs, hstart, hstates, hfinal⟩ := closed hnum hzero (final e)
  have hnext : l₁.next = l.next + 1 := hadds.next
  refine ⟨⟨hadds.nodup, hstates.trans hadds.numStates, hstart.trans (hadds.start.trans h.start),
    ListLemmas.getElem?_of_grow hadds.grow h.head, by dsimp only; omega, fun k hk e' he' => ?_,
    fun k hk => ?_, fun e' he' => ?_⟩, hnext⟩
  · dsimp only at hk he' ⊢
    rw [hnext] at hk
    rw [harcs, hfinal, hadds.arcs, hadds.finalWeight]
    dsimp only
    rcases Nat.lt_or_eq_of_le (Nat.le_of_lt_succ hk) with hk | rfl
    · have hold : l.elements[k]? = some e' := by
        rw [List.getElem?_eq_getElem (hk.trans hlt)]
        have hget := ListLemmas.getElem?_of_grow hadds.grow
          (List.getElem?_eq_getElem (hk.trans hlt))
        rw [← hget, he']
      obtain ⟨hout, hdests, hweight⟩ := h.done k hk e' hold
      rw [Function.update_of_ne hk.ne, Function.update_of_ne hk.ne]
      refine ⟨?_, fun m hm => hadds.grow.subset (hdests m hm), hweight⟩
      rw [hout, map_toArc_of_grow hadds.grow hdests]
    · have hget := ListLemmas.getElem?_of_grow hadds.grow he
      obtain rfl : e = e' := Option.some.inj (hget.symm.trans he')
      rw [Function.update_self, Function.update_self, (h.pending l.next (Nat.le_refl _)).1,
        List.nil_append]
      exact ⟨rfl, hadds.dests, rfl⟩
  · dsimp only at hk ⊢
    rw [hnext] at hk
    have hne : k ≠ l.next := by omega
    rw [harcs, hfinal, hadds.arcs, hadds.finalWeight, Function.update_of_ne hne,
      Function.update_of_ne hne]
    exact h.pending k (by omega)
  · rcases hadds.known e' he' with he' | ⟨m, hm, rfl⟩
    · exact h.reached e' he'
    · exact (h.reached e (List.mem_of_getElem? he)).tail ⟨m, hm, rfl⟩

theorem next_of_stopped (h : Inv out final first l) (hstop : expand out final l = none) :
    l.next = l.elements.length := by
  have hnone := Option.map_eq_none_iff.mp hstop
  exact Nat.le_antisymm h.next_le (List.getElem?_eq_none_iff.mp hnone)

/- With finitely many elements to be reached the unfolding comes to an end. -/
variable (final) in
theorem unfold_terminates {U : Set E} (hU : U.Finite)
    (hreach : ∀ e, Relation.ReflTransGen (Leads out) first e → e ∈ U) {fuel : ℕ}
    (hfuel : hU.toFinset.card < fuel) (ofst : VectorFst L W) :
    ∃ l, Loop.runLoop (expand out final) fuel (begun first ofst) = some l ∧
      Inv out final first l ∧ l.next = l.elements.length := by
  have hbound : ∀ l, Inv out final first l → l.elements.length ≤ hU.toFinset.card := by
    intro l hl
    rw [← List.toFinset_card_of_nodup hl.nodup]
    apply Finset.card_le_card
    intro e he
    exact (Set.Finite.mem_toFinset hU).mpr (hreach e (hl.reached e (List.mem_toFinset.mp he)))
  have hdown : ∀ l l' : UnfoldLoop E L W, Inv out final first l → expand out final l = some l' →
      hU.toFinset.card - l'.next < hU.toFinset.card - l.next := by
    intro l l' hl hexpand
    obtain ⟨hl', hnext⟩ := inv_expand hl hexpand
    have hlen := hbound l' hl'
    have hle := hl'.next_le
    omega
  obtain ⟨l, hrun, hl, hstop⟩ := Loop.runLoop_terminates
    (fun l l' hl hexpand => (inv_expand hl hexpand).1) hdown (inv_begun ofst)
    (show hU.toFinset.card - (begun first ofst).next < fuel by
      change hU.toFinset.card - 0 < fuel
      omega)
  exact ⟨l, hrun, hl, next_of_stopped hl hstop⟩

/- A finished result: every state has the arcs and the final weight of its element. -/
structure Unfolded (out : E → List (UnfoldMove E L W)) (final : E → W) (first : E)
    (elements : List E) (res : VectorFst L W) : Prop where
  nodup : elements.Nodup
  start : res.start = some 0
  head : elements[0]? = some first
  states : ∀ k e, elements[k]? = some e → res.arcs k = (out e).map (toArc elements) ∧
    (∀ m ∈ out e, m.dest ∈ elements) ∧ res.finalWeight k = final e
  reached : ∀ e ∈ elements, Relation.ReflTransGen (Leads out) first e

theorem Inv.unfolded (h : Inv out final first l) (hnext : l.next = l.elements.length)
    (props mask : BitVec 64) :
    Unfolded out final first l.elements (l.ofst.setProperties props mask) := by
  refine ⟨h.nodup, h.start, h.head, fun k e he => ?_, h.reached⟩
  apply h.done k _ e he
  rw [hnext]
  exact (List.getElem?_eq_some_iff.mp he).1

/- The edges of the graph that is unfolded. -/
def Taken (out : E → List (UnfoldMove E L W)) (e : E) (x : ℕ × UnfoldMove E L W) : Prop :=
  (out e)[x.1]? = some x.2

def lead (_ : E) (x : ℕ × UnfoldMove E L W) : E := x.2.dest

def base (first : E) (elements : List E) (k : ℕ) : E := elements[k]?.getD first

/- The edge that an arc of the result is the copy of. -/
def taken (out : E → List (UnfoldMove E L W)) (first : E) (elements : List E) (k : ℕ)
    (e : ℕ × Arc L W) : ℕ × UnfoldMove E L W :=
  (ListLemmas.enum (out (base first elements k)))[e.1]?.getD
    (0, ⟨e.2.ilabel, e.2.olabel, e.2.weight, first⟩)

variable {elements : List E} {res : VectorFst L W}

theorem getElem?_base {k : ℕ} (hk : k < elements.length) :
    elements[k]? = some (base first elements k) := by
  unfold base
  rw [List.getElem?_eq_getElem hk]
  rfl

theorem Unfolded.arcs_eq (h : Unfolded out final first elements res) {k : ℕ}
    (hk : k < elements.length) : res.arcs k =
      (ListLemmas.enum (out (base first elements k))).map fun x => toArc elements x.2 := by
  rw [(h.states k _ (getElem?_base hk)).1]
  conv_lhs => rw [← ListLemmas.map_snd_enum (out (base first elements k)), List.map_map]
  rfl

theorem Unfolded.picks (h : Unfolded out final first elements res) :
    Picks res (fun k => ListLemmas.enum (out (base first elements k)))
      (fun _ x => toArc elements x.2) (taken out first elements) (· < elements.length) :=
  picks_getD (fun _ hk => h.arcs_eq hk) fun _ e => (0, ⟨e.2.ilabel, e.2.olabel, e.2.weight, first⟩)

theorem Unfolded.covers (h : Unfolded out final first elements res) :
    Covers (Leaves res) follow (Taken out) lead (base first elements) (taken out first elements)
      (· < elements.length) := by
  apply covers_of_kept h.picks (fun k hk => h.arcs_eq hk)
  · exact fun k => ListLemmas.nodup_enum _
  · exact fun k x _ => ListLemmas.mem_enum
  · intro k x hk hx
    have hmem : x.2 ∈ out (base first elements k) :=
      List.mem_of_getElem? (ListLemmas.mem_enum.mp hx)
    have hdest := (h.states k _ (getElem?_base hk)).2.1 x.2 hmem
    have hlt := List.idxOf_lt_length_iff.mpr hdest
    refine ⟨hlt, ?_⟩
    change elements[elements.idxOf x.2.dest]?.getD first = x.2.dest
    rw [List.getElem?_idxOf hdest]
    rfl

/- What is read of an edge of the graph. -/
def moveReading (x : ℕ × UnfoldMove E L W) : L × L × W := (x.2.ilabel, x.2.olabel, x.2.weight)

def unfoldedPaths (out : E → List (UnfoldMove E L W)) (final : E → W) (first : E) :
    Set (List (ℕ × UnfoldMove E L W)) :=
  acceptedFrom (Taken out) lead (fun e => final e ≠ 0) first

/- The accepting paths of the result are the walks through the graph, whose edges they read. -/
theorem Unfolded.exists_turn (h : Unfolded out final first elements res) :
    ∃ turn, Set.BijOn turn (acceptingPaths res) (unfoldedPaths out final first) ∧
      ∀ p ∈ acceptingPaths res, (turn p).map moveReading = p.map reading ∧
        lastWeight res p = final (walkEnd lead first (turn p)) := by
  have hlt : 0 < elements.length := (List.getElem?_eq_some_iff.mp h.head).1
  have hbase : base first elements 0 = first := by
    unfold base
    rw [h.head]
    rfl
  have hfinal : ∀ k, k < elements.length → res.finalWeight k = final (base first elements k) :=
    fun k hk => (h.states k _ (getElem?_base hk)).2.2
  have hread : ∀ k e, k < elements.length → Leaves res k e →
      moveReading (taken out first elements k e) = reading e := by
    intro k e hk he
    unfold reading
    rw [← (h.picks k e hk he).2]
    rfl
  refine ⟨Covers.project follow (taken out first elements) 0, ?_, fun p hp => ?_⟩
  · have hbij : Set.BijOn (Covers.project follow (taken out first elements) 0)
        (acceptingFrom res 0)
        (acceptedFrom (Taken out) lead (fun e => final e ≠ 0) (base first elements 0)) :=
      h.covers.bijOn_project (fun k hk => by rw [hfinal k hk]) hlt
    rw [hbase] at hbij
    rw [acceptingPaths_of_some h.start]
    exact hbij
  · rw [acceptingPaths_of_some h.start] at hp
    refine ⟨h.covers.map_project hread hlt hp, ?_⟩
    have hend := h.covers.walkEnd_project hlt hp
    rw [hbase] at hend
    unfold lastWeight
    rw [h.start, hend]
    exact hfinal _ (h.covers.known_walkEnd hlt hp)

end Runs

end UnfoldLoop

end Sicada
