import Sicada.CcVisitors

namespace Sicada

variable {L W : Type} [ArcLabel L]

section Model

variable [Zero W] [One W] [DecidableEq W]

namespace StateSort

/- Where the buffers of two states and the states done stand while a cycle is followed. -/
structure SortLoop (L W : Type) where
  fst : VectorFst L W
  done : Finset ℕ
  s1 : ℕ
  final1 : W
  final2 : W
  arcsa : List (Arc L W)
  arcsb : List (Arc L W)

/- The first entry that is out of range or comes a second time, with its place. -/
def badEntry (nstates : ℕ) : List ℕ → ℕ → Finset ℕ → Option (ℕ × ℕ)
  | [], _, _ => none
  | dest :: order, index, seen =>
    if nstates ≤ dest ∨ dest ∈ seen then some (index, dest)
    else badEntry nstates order (index + 1) (insert dest seen)

/- `none` is an index out of bounds. -/
def addRenamed (order : List ℕ) (s2 : ℕ) (fst : VectorFst L W) (arc : Arc L W) :
    Option (VectorFst L W) :=
  order[arc.nextstate]?.map fun nextstate => fst.addArc s2 { arc with nextstate := nextstate }

/- The state held in the first buffer goes to its place, once what stands there is held in the
second one. -/
def moveState (order : List ℕ) (l : SortLoop L W) : Option (SortLoop L W) :=
  order[l.s1]?.bind fun s2 =>
    let l := if s2 ∈ l.done then l
      else { l with final2 := l.fst.finalWeight s2, arcsb := l.fst.arcs s2 }
    let fst := (l.fst.setFinal s2 l.final1).deleteArcs s2
    (l.arcsa.foldlM (addRenamed order s2) fst).map fun fst =>
      ⟨fst, insert l.s1 l.done, s2, l.final2, l.final2, l.arcsb, []⟩

def followCycle (order : List ℕ) : ℕ → SortLoop L W → Option (SortLoop L W)
  | 0, _ => none
  | fuel + 1, l =>
    if l.s1 ∈ l.done then some l else (moveState order l).bind (followCycle order fuel)

def sortFrom (order : List ℕ) (fst : VectorFst L W × Finset ℕ) (s1 : ℕ) :
    Option (VectorFst L W × Finset ℕ) :=
  if s1 ∈ fst.2 then some fst
  else (followCycle order (order.length + 1)
    ⟨fst.1, fst.2, s1, fst.1.finalWeight s1, 0, fst.1.arcs s1, []⟩).map fun l => (l.fst, l.done)

end StateSort

open StateSort

def VectorFst.stateSort (fst : VectorFst L W) (order : List ℕ) :
    Option (Except OpenFstError Unit × VectorFst L W) :=
  let nstates := fst.numStates
  if order.length ≠ nstates then
    some (.error (.invalidOperation ("StateSort: Bad order vector size. Expected " ++
      toString nstates ++ ", but got " ++ toString order.length)), fst.setProperties kError kError)
  else
    match badEntry nstates order 0 ∅ with
    | some (index, dest) =>
      some (.error (.invalidOperation ("StateSort: order is not a permutation: state " ++
        toString index ++ " maps to " ++ toString dest)), fst.setProperties kError kError)
    | none =>
      match fst.start with
      | none => some (.ok (), fst)
      | some start =>
        let props := fst.properties &&& kStateSortProperties
        order[start]?.bind fun newStart =>
          ((List.range order.length).foldlM (sortFrom order)
            (fst.setStart (some newStart), ∅)).map fun sorted =>
              (.ok (), sorted.1.setProperties props kFstProperties)

end Model

namespace StateSort

variable [Zero W] [One W] [DecidableEq W]

theorem badEntry_none {nstates index : ℕ} {order : List ℕ} {seen : Finset ℕ} :
    badEntry nstates order index seen = none ↔
      order.Nodup ∧ ∀ dest ∈ order, dest < nstates ∧ dest ∉ seen := by
  induction order generalizing index seen with
  | nil => simp [badEntry]
  | cons dest order ih =>
    rw [badEntry]
    by_cases hbad : nstates ≤ dest ∨ dest ∈ seen
    · rw [if_pos hbad]
      refine iff_of_false (by simp) ?_
      rintro ⟨-, hall⟩
      obtain ⟨hlt, hnew⟩ := hall dest List.mem_cons_self
      exact hbad.elim (fun hle => absurd hlt (by omega)) hnew
    · rw [if_neg hbad, ih, List.nodup_cons]
      obtain ⟨hlt, hnew⟩ := not_or.mp hbad
      constructor
      · rintro ⟨hnodup, hall⟩
        refine ⟨⟨fun hmem => (hall dest hmem).2 (Finset.mem_insert_self _ _), hnodup⟩, ?_⟩
        intro t ht
        rcases List.mem_cons.mp ht with rfl | ht
        · exact ⟨by omega, hnew⟩
        · exact ⟨(hall t ht).1, fun hmem => (hall t ht).2 (Finset.mem_insert_of_mem hmem)⟩
      · rintro ⟨⟨hnot, hnodup⟩, hall⟩
        refine ⟨hnodup, fun t ht => ?_⟩
        obtain ⟨hlt', hnew'⟩ := hall t (List.mem_cons_of_mem _ ht)
        refine ⟨hlt', fun hmem => ?_⟩
        rcases Finset.mem_insert.mp hmem with rfl | hmem
        · exact hnot ht
        · exact hnew' hmem

/- The orders that are not refused. -/
theorem perm_iff {order : List ℕ} {n : ℕ} : order.Perm (List.range n) ↔
    order.length = n ∧ badEntry n order 0 ∅ = none := by
  rw [badEntry_none]
  constructor
  · intro hperm
    refine ⟨by simpa using hperm.length_eq, hperm.nodup_iff.mpr List.nodup_range, fun dest hdest => ?_⟩
    exact ⟨List.mem_range.mp (hperm.mem_iff.mp hdest), Finset.notMem_empty _⟩
  · rintro ⟨hlength, hnodup, hall⟩
    have hsub : order ⊆ List.range n := fun dest hdest => List.mem_range.mpr (hall dest hdest).1
    refine (List.subperm_of_subset hnodup hsub).perm_of_length_le ?_
    rw [List.length_range, hlength]

section Moving

variable {order : List ℕ} {place : ℕ → ℕ} {fst₀ fst : VectorFst L W} {done : Finset ℕ}

def renamed (place : ℕ → ℕ) (arcs : List (Arc L W)) : List (Arc L W) :=
  arcs.map fun arc => { arc with nextstate := place arc.nextstate }

/- The entries of the order as places, no two states sharing one. -/
structure Places (order : List ℕ) (place : ℕ → ℕ) : Prop where
  entry : ∀ s < order.length, order[s]? = some (place s)
  inj : ∀ s < order.length, ∀ t < order.length, place s = place t → s = t
  bound : ∀ s < order.length, place s < order.length

theorem places_of_perm (h : order.Perm (List.range order.length)) :
    Places order fun s => order.getD s 0 := by
  have hentry : ∀ s < order.length, order[s]? = some (order.getD s 0) := by
    intro s hs
    rw [List.getD_eq_getElem?_getD, List.getElem?_eq_getElem hs]
    rfl
  refine ⟨hentry, fun s hs t ht heq => ?_, fun s hs => ?_⟩
  · have hnodup : order.Nodup := h.nodup_iff.mpr List.nodup_range
    refine (List.getElem?_inj hs hnodup).mp ?_
    rw [hentry s hs, hentry t ht, heq]
  · exact List.mem_range.mp (h.mem_iff.mp (List.mem_of_getElem? (hentry s hs)))

/- The states done stand in their places; where nothing was put things are as they were. -/
structure Moved (place : ℕ → ℕ) (fst₀ fst : VectorFst L W) (done : Finset ℕ) : Prop where
  numStates : fst.numStates = fst₀.numStates
  start : fst.start = fst₀.start.map place
  moved : ∀ s ∈ done, s < fst₀.numStates ∧ fst.finalWeight (place s) = fst₀.finalWeight s ∧
    fst.arcs (place s) = renamed place (fst₀.arcs s)
  left : ∀ t, (∀ s ∈ done, place s ≠ t) →
    fst.finalWeight t = fst₀.finalWeight t ∧ fst.arcs t = fst₀.arcs t

theorem addRenamed_eq (hplaces : Places order place) {arcs : List (Arc L W)}
    (harcs : ∀ arc ∈ arcs, arc.nextstate < order.length) (s2 : ℕ) (fst : VectorFst L W) :
    arcs.foldlM (addRenamed order s2) fst =
      some ((renamed place arcs).foldl (fun fst arc => fst.addArc s2 arc) fst) := by
  induction arcs generalizing fst with
  | nil => rfl
  | cons arc arcs ih =>
    have hentry := hplaces.entry _ (harcs arc List.mem_cons_self)
    rw [List.foldlM_cons, addRenamed, hentry]
    exact ih (fun a ha => harcs a (List.mem_cons_of_mem arc ha)) _

theorem replace_reads {s2 : ℕ} (hs : s2 < fst.numStates) (weight : W) (arcs : List (Arc L W)) :
    ∃ fst', arcs.foldl (fun fst arc => fst.addArc s2 arc)
        ((fst.setFinal s2 weight).deleteArcs s2) = fst' ∧
      fst'.numStates = fst.numStates ∧ fst'.start = fst.start ∧
      fst'.finalWeight = Function.update fst.finalWeight s2 weight ∧
      fst'.arcs = Function.update fst.arcs s2 arcs := by
  have hs' : s2 < (fst.setFinal s2 weight).numStates := by
    rw [VectorFst.numStates_setFinal]
    exact hs
  obtain ⟨harcs, hfinal, hnum, hstart⟩ := VectorFst.deleteArcs_reads hs'
  refine ⟨_, rfl, ?_, ?_, ?_, ?_⟩
  · rw [VectorFst.numStates_addArcs, hnum, VectorFst.numStates_setFinal]
  · rw [VectorFst.start_addArcs, hstart, VectorFst.start_setFinal]
  · rw [VectorFst.finalWeight_addArcs, hfinal, VectorFst.finalWeight_setFinal weight hs]
  · rw [VectorFst.arcs_addArcs (hnum ▸ hs'), harcs, VectorFst.arcs_setFinal, Function.update_self,
      Function.update_idem, List.nil_append]

/- While a cycle is followed, the state next to be moved is held in the first buffer. -/
structure Cycle (place : ℕ → ℕ) (fst₀ : VectorFst L W) (l : SortLoop L W) : Prop where
  moved : Moved place fst₀ l.fst l.done
  bound : l.s1 < fst₀.numStates
  next : ∀ s ∈ l.done, place s ∈ l.done ∨ place s = l.s1
  held : l.s1 ∉ l.done → l.final1 = fst₀.finalWeight l.s1 ∧ l.arcsa = fst₀.arcs l.s1

theorem hold_reads (l : SortLoop L W) (s2 : ℕ) :
    ∃ l', (if s2 ∈ l.done then l
        else { l with final2 := l.fst.finalWeight s2, arcsb := l.fst.arcs s2 }) = l' ∧
      l'.fst = l.fst ∧ l'.done = l.done ∧ l'.s1 = l.s1 ∧ l'.final1 = l.final1 ∧
      l'.arcsa = l.arcsa ∧
      (s2 ∉ l.done → l'.final2 = l.fst.finalWeight s2 ∧ l'.arcsb = l.fst.arcs s2) := by
  refine ⟨_, rfl, ?_⟩
  by_cases hdone : s2 ∈ l.done
  · rw [if_pos hdone]
    exact ⟨rfl, rfl, rfl, rfl, rfl, fun hnot => absurd hdone hnot⟩
  · rw [if_neg hdone]
    exact ⟨rfl, rfl, rfl, rfl, rfl, fun _ => ⟨rfl, rfl⟩⟩

variable (hplaces : Places order place) (hlen : order.length = fst₀.numStates)
  (hrange : ∀ s, ∀ arc ∈ fst₀.arcs s, arc.nextstate < fst₀.numStates)

include hplaces hlen

/- Where the state `s1` goes nothing has been put before. -/
theorem place_free {s1 : ℕ} (h : Moved place fst₀ fst done) (hs1 : s1 < fst₀.numStates)
    (hnot : s1 ∉ done) : ∀ s ∈ done, place s ≠ place s1 := by
  intro s hs heq
  have hlt := (h.moved s hs).1
  have hsame := hplaces.inj s (hlen ▸ hlt) s1 (hlen ▸ hs1) heq
  exact hnot (hsame ▸ hs)

theorem moved_insert {fst' : VectorFst L W} {s1 : ℕ} (h : Moved place fst₀ fst done)
    (hs1 : s1 < fst₀.numStates) (hnot : s1 ∉ done) (hnum : fst'.numStates = fst.numStates)
    (hstart : fst'.start = fst.start)
    (hfinal : fst'.finalWeight =
      Function.update fst.finalWeight (place s1) (fst₀.finalWeight s1))
    (harcs : fst'.arcs =
      Function.update fst.arcs (place s1) (renamed place (fst₀.arcs s1))) :
    Moved place fst₀ fst' (insert s1 done) := by
  have hfree := place_free hplaces hlen h hs1 hnot
  refine ⟨hnum.trans h.numStates, hstart.trans h.start, fun s hs => ?_, fun t ht => ?_⟩
  · rw [hfinal, harcs]
    rcases Finset.mem_insert.mp hs with rfl | hs
    · rw [Function.update_self, Function.update_self]
      exact ⟨hs1, rfl, rfl⟩
    · rw [Function.update_of_ne (hfree s hs), Function.update_of_ne (hfree s hs)]
      exact h.moved s hs
  · have hne : t ≠ place s1 := (ht s1 (Finset.mem_insert_self _ _)).symm
    rw [hfinal, harcs, Function.update_of_ne hne, Function.update_of_ne hne]
    exact h.left t fun s hs => ht s (Finset.mem_insert_of_mem hs)

include hrange

theorem moveState_cycle {l : SortLoop L W} (h : Cycle place fst₀ l) (hnot : l.s1 ∉ l.done) :
    ∃ l', moveState order l = some l' ∧ Cycle place fst₀ l' ∧ l'.done = insert l.s1 l.done := by
  obtain ⟨hfinal1, harcsa⟩ := h.held hnot
  have hfree := place_free hplaces hlen h.moved h.bound hnot
  have hentry := hplaces.entry l.s1 (hlen ▸ h.bound)
  have hplace : place l.s1 < fst₀.numStates := hlen ▸ hplaces.bound l.s1 (hlen ▸ h.bound)
  obtain ⟨l₁, hl₁, hfst, hdone, hs1, hone, harcs, hhold⟩ := hold_reads l (place l.s1)
  have hlt : place l.s1 < l₁.fst.numStates := by
    rw [hfst, h.moved.numStates]
    exact hplace
  obtain ⟨fst', hfst', hnum, hstart, hfinals, harcs'⟩ :=
    replace_reads hlt l₁.final1 (renamed place l₁.arcsa)
  have hin : ∀ arc ∈ l₁.arcsa, arc.nextstate < order.length := by
    rw [harcs, harcsa, hlen]
    exact hrange l.s1
  have hrun : moveState order l = some
      ⟨fst', insert l.s1 l.done, place l.s1, l₁.final2, l₁.final2, l₁.arcsb, []⟩ := by
    rw [moveState, hentry, Option.bind_some, hl₁]
    dsimp only
    rw [addRenamed_eq hplaces hin, hfst', hs1, hdone]
    rfl
  refine ⟨_, hrun, ⟨?_, hplace, ?_, ?_⟩, rfl⟩
  · rw [hfst] at hnum hstart hfinals harcs'
    rw [hone, hfinal1] at hfinals
    rw [harcs, harcsa] at harcs'
    exact moved_insert hplaces hlen h.moved h.bound hnot hnum hstart hfinals harcs'
  · intro s hs
    rcases Finset.mem_insert.mp hs with rfl | hs
    · exact Or.inr rfl
    · rcases h.next s hs with hin | heq
      · exact Or.inl (Finset.mem_insert_of_mem hin)
      · exact Or.inl (heq ▸ Finset.mem_insert_self _ _)
  · intro hnew
    obtain ⟨hfinal2, harcsb⟩ := hhold fun hin => hnew (Finset.mem_insert_of_mem hin)
    obtain ⟨hleft, hleft'⟩ := h.moved.left (place l.s1) hfree
    exact ⟨hfinal2.trans hleft, harcsb.trans hleft'⟩

theorem followCycle_spec {fuel : ℕ} {l : SortLoop L W} (h : Cycle place fst₀ l)
    (hfuel : fst₀.numStates - l.done.card < fuel) : ∃ l', followCycle order fuel l = some l' ∧
      Cycle place fst₀ l' ∧ l'.s1 ∈ l'.done ∧ l.done ⊆ l'.done ∧ l.s1 ∈ l'.done := by
  induction fuel generalizing l with
  | zero => omega
  | succ fuel ih =>
    rw [followCycle]
    by_cases hdone : l.s1 ∈ l.done
    · rw [if_pos hdone]
      exact ⟨l, rfl, h, hdone, Finset.Subset.refl _, hdone⟩
    · rw [if_neg hdone]
      obtain ⟨l₁, hmove, h₁, hdone₁⟩ := moveState_cycle hplaces hlen hrange h hdone
      have hcard : l₁.done.card = l.done.card + 1 := by
        rw [hdone₁, Finset.card_insert_of_notMem hdone]
      have hsub : l₁.done ⊆ Finset.range fst₀.numStates := fun s hs =>
        Finset.mem_range.mpr (h₁.moved.moved s hs).1
      have hle := Finset.card_le_card hsub
      rw [Finset.card_range] at hle
      obtain ⟨l', hrun, h', hend, hgrown, -⟩ := ih h₁ (by omega)
      rw [hmove, Option.bind_some]
      rw [hdone₁] at hgrown
      exact ⟨l', hrun, h', hend, (Finset.subset_insert _ _).trans hgrown,
        hgrown (Finset.mem_insert_self _ _)⟩

theorem sortFrom_spec {s1 : ℕ} (h : Moved place fst₀ fst done)
    (hclosed : ∀ s ∈ done, place s ∈ done) (hs1 : s1 < fst₀.numStates) :
    ∃ fst' done', sortFrom order (fst, done) s1 = some (fst', done') ∧
      Moved place fst₀ fst' done' ∧ (∀ s ∈ done', place s ∈ done') ∧ done ⊆ done' ∧
      s1 ∈ done' := by
  unfold sortFrom
  by_cases hdone : s1 ∈ done
  · rw [if_pos hdone]
    exact ⟨fst, done, rfl, h, hclosed, Finset.Subset.refl _, hdone⟩
  · rw [if_neg hdone]
    have hcycle : Cycle place fst₀
        ⟨fst, done, s1, fst.finalWeight s1, 0, fst.arcs s1, []⟩ :=
      ⟨h, hs1, fun s hs => Or.inl (hclosed s hs), fun _ =>
        h.left s1 fun s hs heq => hdone (heq ▸ hclosed s hs)⟩
    obtain ⟨l, hrun, hl, hend, hgrown, hin⟩ :=
      followCycle_spec hplaces hlen hrange hcycle
        (show fst₀.numStates - done.card < order.length + 1 by omega)
    refine ⟨l.fst, l.done, by rw [hrun]; rfl, hl.moved, fun s hs => ?_, hgrown, hin⟩
    exact (hl.next s hs).elim id fun heq => heq ▸ hend

theorem sortLoop_spec {k : ℕ} (h : Moved place fst₀ fst ∅) (hk : k ≤ fst₀.numStates) :
    ∃ fst' done', (List.range k).foldlM (sortFrom order) (fst, ∅) = some (fst', done') ∧
      Moved place fst₀ fst' done' ∧ (∀ s ∈ done', place s ∈ done') ∧ ∀ s < k, s ∈ done' := by
  induction k with
  | zero => exact ⟨fst, ∅, rfl, h, by simp, by omega⟩
  | succ k ih =>
    obtain ⟨fst₁, done₁, hrun₁, h₁, hclosed₁, hall₁⟩ := ih (by omega)
    obtain ⟨fst₂, done₂, hrun₂, h₂, hclosed₂, hgrown, hk₂⟩ :=
      sortFrom_spec hplaces hlen hrange h₁ hclosed₁ (show k < fst₀.numStates by omega)
    refine ⟨fst₂, done₂, ?_, h₂, hclosed₂, fun s hs => ?_⟩
    · rw [List.range_succ, List.foldlM_append, hrun₁]
      simp [hrun₂]
    · rcases Nat.lt_succ_iff_lt_or_eq.mp hs with hlt | rfl
      · exact hgrown (hall₁ s hlt)
      · exact hk₂

end Moving

/- The FST with each state `s` named `place s`. -/
structure Renames (place : ℕ → ℕ) (fst fst' : VectorFst L W) : Prop where
  numStates : fst'.numStates = fst.numStates
  start : fst'.start = fst.start.map place
  finalWeight : ∀ s < fst.numStates, fst'.finalWeight (place s) = fst.finalWeight s
  arcs : ∀ s < fst.numStates, fst'.arcs (place s) = renamed place (fst.arcs s)

variable {fst : VectorFst L W} {order : List ℕ}

theorem stateSort_renames (h : fst.InRange) (hperm : order.Perm (List.range fst.numStates))
    {start : ℕ} (hstart : fst.start = some start) :
    ∃ fst', fst.stateSort order = some (.ok (), fst') ∧
      Renames (fun s => order.getD s 0) fst fst' := by
  obtain ⟨hlen, hgood⟩ := perm_iff.mp hperm
  have hplaces : Places order fun s => order.getD s 0 := places_of_perm (hlen.symm ▸ hperm)
  have hentry := hplaces.entry start (hlen.symm ▸ h.start start hstart)
  have hempty : Moved (fun s => order.getD s 0) fst (fst.setStart (some (order.getD start 0))) ∅ :=
    ⟨rfl, by rw [hstart]; rfl, by simp, fun t _ => ⟨rfl, rfl⟩⟩
  obtain ⟨fst', done', hrun, hmoved, -, hall⟩ :=
    sortLoop_spec hplaces hlen h.arcs hempty le_rfl
  refine ⟨fst'.setProperties (fst.properties &&& kStateSortProperties) kFstProperties, ?_,
    hmoved.numStates, hmoved.start, fun s hs => (hmoved.moved s (hall s hs)).2.1,
    fun s hs => (hmoved.moved s (hall s hs)).2.2⟩
  unfold VectorFst.stateSort
  dsimp only
  rw [if_neg (not_not.mpr hlen), hgood]
  dsimp only
  rw [hstart]
  dsimp only
  rw [hentry, Option.bind_some, hlen, hrun]
  rfl

/- What is refused is left as it was. -/
theorem stateSort_refuses (hperm : ¬ order.Perm (List.range fst.numStates)) :
    ∃ error fst', fst.stateSort order = some (.error error, fst') ∧ fst'.start = fst.start ∧
      fst'.states = fst.states := by
  unfold VectorFst.stateSort
  dsimp only
  by_cases hlen : order.length = fst.numStates
  · rw [if_neg (not_not.mpr hlen)]
    cases hbad : badEntry fst.numStates order 0 ∅ with
    | none => exact absurd (perm_iff.mpr ⟨hlen, hbad⟩) hperm
    | some entry => exact ⟨_, _, rfl, rfl, rfl⟩
  · rw [if_pos hlen]
    exact ⟨_, _, rfl, rfl, rfl⟩

end StateSort

end Sicada
