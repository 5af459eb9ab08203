import Mathlib.Algebra.BigOperators.Intervals
import Sicada.Library.ListLemmas
import Sicada.TarjanExact

namespace Sicada

open DfsVisit CcVisitors

variable {L W : Type} [ArcLabel L]

section Model

variable [Zero W] [One W] [Add W] [DecidableEq W]

namespace Condense

/- The arcs of a state of the component `c` that leave it. `none` is an index out of bounds, or an
arc to a state that no search has come to. -/
def condenseArcs (scc : List (Option ℕ)) (c : ℕ) :
    List (Arc L W) → VectorFst L W → Option (VectorFst L W)
  | [], ofst => some ofst
  | arc :: arcs, ofst => scc[arc.nextstate]?.join.bind fun nextc =>
    condenseArcs scc c arcs
      (if nextc ≠ c then ofst.addArc c { arc with nextstate := nextc } else ofst)

def condenseState (isMember : W → Bool) (ifst : VectorFst L W) (scc : List (Option ℕ))
    (ofst : VectorFst L W) (s : ℕ) : Option (VectorFst L W) :=
  match scc[s]?.join with
  | none => some ofst
  | some c =>
    let ofst := if some s = ifst.start then ofst.setStart (some c) else ofst
    let weight := ifst.finalWeight s
    let ofst := if isMember weight ∧ weight ≠ 0 then
      ofst.setFinal c (ofst.finalWeight c + weight) else ofst
    condenseArcs scc c (ifst.arcs s) ofst

end Condense

open Condense

/- The components come with the FST on them. -/
def VectorFst.condense (isMember : W → Bool) (ifst ofst : VectorFst L W) :
    Option (VectorFst L W × List (Option ℕ)) :=
  let ofst := ofst.deleteAllStates
  let visitor := dfsVisitAny ifst (sccVisitor isMember true ifst) (SccVisitor.new 0)
  let scc := (List.range visitor.len).map visitor.scc
  match (scc.filterMap id).max? with
  | none => some (ofst, scc)
  | some maxScc =>
    let ofst := VectorFst.addState^[maxScc + 1] ofst
    ((List.range scc.length).foldlM (condenseState isMember ifst scc) ofst).map fun ofst =>
      (ofst.setProperties (kAcyclic ||| kInitialAcyclic) (kAcyclic ||| kInitialAcyclic), scc)

end Model

namespace Condense

open Relation PropertyBits DfsVisit CcVisitors SccRuns SccExact TarjanExact

variable [AddCommMonoid W] [One W] [DecidableEq W]

section Arcs

variable {scc : List (Option ℕ)} {f : ℕ → ℕ} {c : ℕ}

/- The arcs that leave the component `c`, to the components they lead to. -/
def leaving (f : ℕ → ℕ) (c : ℕ) (arcs : List (Arc L W)) : List (Arc L W) :=
  (arcs.filter fun arc => f arc.nextstate ≠ c).map fun arc =>
    { arc with nextstate := f arc.nextstate }

theorem condenseArcs_eq {arcs : List (Arc L W)}
    (h : ∀ arc ∈ arcs, scc[arc.nextstate]? = some (some (f arc.nextstate)))
    (ofst : VectorFst L W) : condenseArcs scc c arcs ofst =
      some ((leaving f c arcs).foldl (fun ofst arc => ofst.addArc c arc) ofst) := by
  induction arcs generalizing ofst with
  | nil => rfl
  | cons arc arcs ih =>
    have hnext := h arc List.mem_cons_self
    have hrest := ih fun a ha => h a (List.mem_cons_of_mem arc ha)
    rw [condenseArcs, hnext]
    by_cases hc : f arc.nextstate = c
    · simp [hc, leaving, hrest]
    · simp [hc, leaving, hrest]

end Arcs

/- What a state brings to the final weight of its component. -/
def share (isMember : W → Bool) (ifst : VectorFst L W) (s : ℕ) : W :=
  if isMember (ifst.finalWeight s) ∧ ifst.finalWeight s ≠ 0 then ifst.finalWeight s else 0

/- The components of the states below `k` are there, with their arcs and final weights. -/
structure Upto (isMember : W → Bool) (ifst ofst : VectorFst L W) (f : ℕ → ℕ) (n k : ℕ) : Prop where
  numStates : ofst.numStates = n
  start : ofst.start = (ifst.start.filter fun s => decide (s < k)).map f
  finalWeight : ∀ c < n, ofst.finalWeight c =
    ∑ s ∈ Finset.range k, if f s = c then share isMember ifst s else 0
  arcs : ∀ c < n, ofst.arcs c = (List.range k).flatMap fun s =>
    if f s = c then leaving f c (ifst.arcs s) else []

variable {isMember : W → Bool} {ifst ofst : VectorFst L W} {scc : List (Option ℕ)} {f : ℕ → ℕ}
  {n k : ℕ}

theorem setStart_reads (h : ofst.start = (ifst.start.filter fun s => decide (s < k)).map f) :
    ∃ ofst', (if some k = ifst.start then ofst.setStart (some (f k)) else ofst) = ofst' ∧
      ofst'.numStates = ofst.numStates ∧ ofst'.arcs = ofst.arcs ∧
      ofst'.finalWeight = ofst.finalWeight ∧
      ofst'.start = (ifst.start.filter fun s => decide (s < k + 1)).map f := by
  refine ⟨_, rfl, ?_⟩
  by_cases hk : some k = ifst.start
  · rw [if_pos hk, ← hk]
    refine ⟨rfl, rfl, rfl, ?_⟩
    simp [VectorFst.setStart, Option.filter]
  · rw [if_neg hk, h]
    refine ⟨rfl, rfl, rfl, ?_⟩
    cases hs : ifst.start with
    | none => rfl
    | some s =>
      have hne : s ≠ k := fun heq => hk (by rw [hs, heq])
      have hiff : s < k ↔ s < k + 1 := by omega
      simp only [Option.filter, hiff]

variable (isMember ifst) in
theorem setFinal_reads (hk : f k < ofst.numStates) :
    ∃ ofst', (if isMember (ifst.finalWeight k) ∧ ifst.finalWeight k ≠ 0 then
        ofst.setFinal (f k) (ofst.finalWeight (f k) + ifst.finalWeight k) else ofst) = ofst' ∧
      ofst'.numStates = ofst.numStates ∧ ofst'.arcs = ofst.arcs ∧ ofst'.start = ofst.start ∧
      ofst'.finalWeight = Function.update ofst.finalWeight (f k)
        (ofst.finalWeight (f k) + share isMember ifst k) := by
  refine ⟨_, rfl, ?_⟩
  unfold share
  by_cases hfinal : isMember (ifst.finalWeight k) ∧ ifst.finalWeight k ≠ 0
  · rw [if_pos hfinal, if_pos hfinal]
    exact ⟨VectorFst.numStates_setFinal _ _ _, VectorFst.arcs_setFinal _ _ _,
      VectorFst.start_setFinal _ _ _, VectorFst.finalWeight_setFinal _ hk⟩
  · rw [if_neg hfinal, if_neg hfinal, add_zero, Function.update_eq_self]
    exact ⟨rfl, rfl, rfl, rfl⟩

theorem upto_step (h : Upto isMember ifst ofst f n k) (hlt : f k < n)
    (hscc : scc[k]? = some (some (f k)))
    (harcs : ∀ arc ∈ ifst.arcs k, scc[arc.nextstate]? = some (some (f arc.nextstate))) :
    ∃ ofst', condenseState isMember ifst scc ofst k = some ofst' ∧
      Upto isMember ifst ofst' f n (k + 1) := by
  obtain ⟨ofst₁, hofst₁, hnum₁, harcs₁, hfinal₁, hstart₁⟩ := setStart_reads h.start
  have hlt₁ : f k < ofst₁.numStates := by
    rw [hnum₁, h.numStates]
    exact hlt
  obtain ⟨ofst₂, hofst₂, hnum₂, harcs₂, hstart₂, hfinal₂⟩ :=
    setFinal_reads isMember ifst hlt₁
  have hlt₂ : f k < ofst₂.numStates := hnum₂ ▸ hlt₁
  have hrun : condenseState isMember ifst scc ofst k = some
      ((leaving f (f k) (ifst.arcs k)).foldl (fun ofst arc => ofst.addArc (f k) arc) ofst₂) := by
    rw [condenseState, hscc, Option.join_some]
    dsimp only
    rw [hofst₁, hofst₂, condenseArcs_eq harcs]
  have hnow := VectorFst.arcs_addArcs hlt₂ (leaving f (f k) (ifst.arcs k))
  refine ⟨_, hrun, ?_, ?_, ?_, ?_⟩
  · rw [VectorFst.numStates_addArcs, hnum₂, hnum₁, h.numStates]
  · rw [VectorFst.start_addArcs, hstart₂, hstart₁]
  · intro c hc
    rw [VectorFst.finalWeight_addArcs, hfinal₂, hfinal₁, Finset.sum_range_succ]
    by_cases heq : c = f k
    · subst heq
      rw [Function.update_self, h.finalWeight _ hc, if_pos rfl]
    · rw [Function.update_of_ne heq, h.finalWeight c hc, if_neg (Ne.symm heq), add_zero]
  · intro c hc
    rw [hnow, harcs₂, harcs₁, List.range_succ, List.flatMap_append, List.flatMap_singleton]
    by_cases heq : c = f k
    · subst heq
      rw [Function.update_self, h.arcs _ hc, if_pos rfl]
    · rw [Function.update_of_ne heq, h.arcs c hc, if_neg (Ne.symm heq), List.append_nil]

theorem upto_loop (h : Upto isMember ifst ofst f n 0)
    (hscc : ∀ s < k, f s < n ∧ scc[s]? = some (some (f s)))
    (harcs : ∀ s, ∀ arc ∈ ifst.arcs s, scc[arc.nextstate]? = some (some (f arc.nextstate))) :
    ∃ ofst', (List.range k).foldlM (condenseState isMember ifst scc) ofst = some ofst' ∧
      Upto isMember ifst ofst' f n k := by
  induction k with
  | zero => exact ⟨ofst, rfl, h⟩
  | succ k ih =>
    obtain ⟨ofst₁, hrun₁, h₁⟩ := ih fun s hs => hscc s (by omega)
    obtain ⟨hlt, hk⟩ := hscc k (Nat.lt_succ_self k)
    obtain ⟨ofst₂, hrun₂, h₂⟩ := upto_step h₁ hlt hk (harcs k)
    refine ⟨ofst₂, ?_, h₂⟩
    rw [List.range_succ, List.foldlM_append, hrun₁]
    simp [hrun₂]

/- The quotient of an FST by mutual reachability; `f` numbers the components. -/
structure Quotient (isMember : W → Bool) (ifst ofst : VectorFst L W) (f : ℕ → ℕ) : Prop where
  component : ∀ s t, s < ifst.numStates → t < ifst.numStates →
    (f s = f t ↔ ReflTransGen (Step ifst) s t ∧ ReflTransGen (Step ifst) t s)
  states : ∀ c, c < ofst.numStates ↔ ∃ s < ifst.numStates, f s = c
  start : ofst.start = ifst.start.map f
  finalWeight : ∀ c < ofst.numStates, ofst.finalWeight c =
    ∑ s ∈ (Finset.range ifst.numStates).filter (fun s => f s = c ∧
      isMember (ifst.finalWeight s) = true ∧ ifst.finalWeight s ≠ 0), ifst.finalWeight s
  arcs : ∀ c < ofst.numStates, ofst.arcs c = ((List.range ifst.numStates).filter
    fun s => f s = c).flatMap fun s => leaving f c (ifst.arcs s)
  inRange : ofst.InRange
  acyclic : ∀ s, ¬ TransGen (Step ofst) s s

/- What the components found are, as numbers. -/
structure Components (ifst : VectorFst L W) (scc : List (Option ℕ)) (f : ℕ → ℕ) (n : ℕ) : Prop where
  list : scc = (List.range ifst.numStates).map fun s => some (f s)
  bound : ∀ s < ifst.numStates, f s < n
  used : ∀ c < n, ∃ s < ifst.numStates, f s = c
  component : ∀ s t, s < ifst.numStates → t < ifst.numStates →
    (f s = f t ↔ ReflTransGen (Step ifst) s t ∧ ReflTransGen (Step ifst) t s)
  topological : ∀ s, ∀ arc ∈ ifst.arcs s, f s ≤ f arc.nextstate

theorem components_found (isMember : W → Bool) (h : ifst.InRange) {start : ℕ}
    (hstart : ifst.start = some start) (v : SccVisitor) :
    ∃ f n, Components ifst ((List.range
      (dfsVisitAny ifst (sccVisitor isMember true ifst) v).len).map
        (dfsVisitAny ifst (sccVisitor isMember true ifst) v).scc) f n := by
  obtain ⟨d, hvisit, hinv, htarjan, hfinished⟩ :=
    dfsVisit_finished isMember (fun _ => true) hstart v
  have hfound := found_of_finished h hstart hinv htarjan hfinished
  have hlen := len_finished h hstart hinv htarjan hfinished
  unfold dfsVisitAny
  rw [hvisit]
  have hscc : ∀ s < ifst.numStates, d.visitor.finishVisit.scc s =
      some ((d.visitor.finishVisit.scc s).getD 0) := by
    intro s hs
    obtain ⟨c, -, hc⟩ := hfound.numbered s hs
    rw [hc]
    rfl
  refine ⟨fun s => (d.visitor.finishVisit.scc s).getD 0, d.visitor.finishVisit.nscc, ?_⟩
  constructor
  · rw [hlen]
    exact List.map_congr_left fun s hs => hscc s (List.mem_range.mp hs)
  · intro s hs
    obtain ⟨c, hlt, hc⟩ := hfound.numbered s hs
    rw [hc]
    exact hlt
  · intro c hlt
    obtain ⟨s, hs, hc⟩ := hfound.used c hlt
    exact ⟨s, hs, by rw [hc]; rfl⟩
  · intro s t hs ht
    have hcomponent := hfound.component s t hs ht
    rw [hscc s hs, hscc t ht, Option.some.injEq] at hcomponent
    unfold Reaches at hcomponent
    rw [follows_any] at hcomponent
    exact hcomponent
  · intro s arc harc
    obtain ⟨c, c', hc, hc', hle⟩ := hfound.topological s arc harc rfl
    rw [hc, hc']
    exact hle

theorem max_components {ifst : VectorFst L W} {scc : List (Option ℕ)} {f : ℕ → ℕ} {n : ℕ}
    (h : Components ifst scc f n) (hpos : 0 < ifst.numStates) :
    (scc.filterMap id).max? = some (n - 1) := by
  have hvalues : scc.filterMap id = (List.range ifst.numStates).map f := by
    rw [h.list, List.filterMap_map, ← List.filterMap_eq_map]
    rfl
  have hn := h.bound 0 hpos
  obtain ⟨s, hs, hlast⟩ := h.used (n - 1) (by omega)
  rw [hvalues, List.max?_eq_some_iff]
  constructor
  · exact List.mem_map.mpr ⟨s, List.mem_range.mpr hs, hlast⟩
  · intro c hc
    obtain ⟨t, ht, rfl⟩ := List.mem_map.mp hc
    have hlt := h.bound t (List.mem_range.mp ht)
    omega

theorem quotient_of_upto {ofst : VectorFst L W} {scc : List (Option ℕ)} (h : ifst.InRange)
    (hcomponents : Components ifst scc f n)
    (hupto : Upto isMember ifst ofst f n ifst.numStates) : Quotient isMember ifst ofst f := by
  have hnum := hupto.numStates
  have harcs : ∀ c, ∀ arc ∈ ofst.arcs c, c < arc.nextstate ∧ arc.nextstate < n := by
    refine VectorFst.forall_arcs_of_lt fun c hc arc harc => ?_
    rw [hnum] at hc
    rw [hupto.arcs c hc, List.mem_flatMap] at harc
    obtain ⟨s, hs, harc⟩ := harc
    split at harc
    next heq =>
      obtain ⟨arc, hleaves, rfl⟩ := List.mem_map.mp harc
      obtain ⟨hold, hne⟩ := List.mem_filter.mp hleaves
      have hle := hcomponents.topological s arc hold
      have hne' : f arc.nextstate ≠ c := by simpa using hne
      have hlt := hcomponents.bound arc.nextstate (h.arcs s arc hold)
      dsimp only
      omega
    next => cases harc
  have hstart : ofst.start = ifst.start.map f := by
    rw [hupto.start]
    cases hs : ifst.start with
    | none => rfl
    | some s => simp [Option.filter, h.start s hs]
  constructor
  · exact hcomponents.component
  · intro c
    rw [hnum]
    constructor
    · exact hcomponents.used c
    · rintro ⟨s, hs, rfl⟩
      exact hcomponents.bound s hs
  · exact hstart
  · intro c hc
    rw [hupto.finalWeight c (hnum ▸ hc), Finset.sum_filter]
    refine Finset.sum_congr rfl fun s _ => ?_
    unfold share
    by_cases heq : f s = c <;> simp [heq]
  · intro c hc
    rw [hupto.arcs c (hnum ▸ hc)]
    simpa using (ListLemmas.flatMap_filter (fun s => decide (f s = c)) (fun s => leaving f c (ifst.arcs s))
      (List.range ifst.numStates)).symm
  · constructor
    · intro c hc
      rw [hstart] at hc
      obtain ⟨s, hs, rfl⟩ := Option.map_eq_some_iff.mp hc
      rw [hnum]
      exact hcomponents.bound s (h.start s hs)
    · intro c arc harc
      rw [hnum]
      exact (harcs c arc harc).2
  · intro s hcycle
    have hsorted : Holds ofst .topSorted := fun c arc harc => (harcs c arc harc).1
    exact acyclic_of_topSorted hsorted ⟨s, hcycle⟩

theorem condense_exact (isMember : W → Bool) {ifst : VectorFst L W} (h : ifst.InRange) {start : ℕ}
    (hstart : ifst.start = some start) (ofst : VectorFst L W) :
    ∃ ofst' f, ifst.condense isMember ofst =
      some (ofst', (List.range ifst.numStates).map fun s => some (f s)) ∧
        Quotient isMember ifst ofst' f := by
  obtain ⟨f, n, hcomponents⟩ := components_found isMember h hstart (SccVisitor.new 0)
  have hpos : 0 < ifst.numStates := (Nat.zero_le _).trans_lt (h.start start hstart)
  have hmax := max_components hcomponents hpos
  have hn := hcomponents.bound 0 hpos
  obtain ⟨harcs, hfinal, hstart', hnum⟩ := VectorFst.growTo_eq ofst.deleteAllStates n
  have hgrow : VectorFst.addState^[n - 1 + 1] ofst.deleteAllStates =
      ofst.deleteAllStates.growTo n := by
    rw [Nat.sub_add_cancel (by omega)]
    rfl
  have hempty : Upto isMember ifst (ofst.deleteAllStates.growTo n) f n 0 := by
    constructor
    · rw [hnum]
      simp [VectorFst.deleteAllStates, VectorFst.numStates]
    · rw [hstart']
      cases ifst.start <;> rfl
    · intro c _
      rw [hfinal]
      rfl
    · intro c _
      rw [harcs]
      rfl
  have hget : ∀ s < ifst.numStates, ∀ scc, scc = (List.range ifst.numStates).map
      (fun s => some (f s)) → scc[s]? = some (some (f s)) := by
    rintro s hs scc rfl
    rw [List.getElem?_map, List.getElem?_range hs]
    rfl
  obtain ⟨ofst', hrun, hupto⟩ := upto_loop (k := ifst.numStates) hempty
    (fun s hs => ⟨hcomponents.bound s hs, hget s hs _ hcomponents.list⟩)
    fun s arc harc => hget _ (h.arcs s arc harc) _ hcomponents.list
  have hquotient := quotient_of_upto h hcomponents hupto
  refine ⟨ofst'.setProperties (kAcyclic ||| kInitialAcyclic) (kAcyclic ||| kInitialAcyclic), f, ?_,
    ?_⟩
  · unfold VectorFst.condense
    dsimp only
    rw [hmax]
    dsimp only
    rw [hgrow, hcomponents.list, List.length_map, List.length_range]
    rw [hcomponents.list] at hrun
    rw [hrun]
    rfl
  · exact ⟨hquotient.component, hquotient.states, hquotient.start, hquotient.finalWeight,
      hquotient.arcs, ⟨hquotient.inRange.start, hquotient.inRange.arcs⟩, hquotient.acyclic⟩

theorem condense_exact_cycle : cycleFst.InRange ∧ ∃ ofst' f,
    cycleFst.condense (fun _ => true) VectorFst.new =
      some (ofst', (List.range cycleFst.numStates).map fun s => some (f s)) ∧
        Quotient (fun _ => true) cycleFst ofst' f :=
  ⟨cycleFst_inRange, condense_exact (fun _ => true) cycleFst_inRange rfl VectorFst.new⟩

end Condense

end Sicada
