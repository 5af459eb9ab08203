import Sicada.CacheStore

namespace Sicada.CacheExact

open LinkedList Cache CacheRuns

variable {L W P : Type} [ArcLabel L] [Slab P (CacheState L W)]

/- A state holds what the expander gives for it, as far as its flags say it does. -/
structure Correct (expander : CacheExpander L W) (state : CacheState L W) : Prop where
  final : state.flags.final = true → state.finalWeight = expander.expandFinal state.stateId
  arcs : state.flags.arcs = true → ∃ shared, state.arcs = some shared ∧
    shared.arcs = expander.expandArcs state.stateId ∧
    state.niepsilons = shared.arcs.countP (fun arc => arc.ilabel = epsilon) ∧
    state.noepsilons = shared.arcs.countP (fun arc => arc.olabel = epsilon)
  noArcs : state.flags.arcs = false → state.arcs = none
  idle : state.flags.expandingFinal = false ∧ state.flags.expandingArcs = false

def AllCorrect (expander : CacheExpander L W) (pool : P) : Prop :=
  ∀ k state, Slab.get pool k = some state → Correct expander state

variable {state : CacheState L W}

theorem correct_of_sameData {expander : CacheExpander L W} {state' : CacheState L W}
    (h : SameData state state') (hc : Correct expander state) : Correct expander state' := by
  obtain ⟨hid, hflags, hfinal, harcs, hni, hno⟩ := h
  constructor
  · intro hf
    rw [hfinal, hid]
    exact hc.final (hflags ▸ hf)
  · intro ha
    rw [harcs, hid, hni, hno]
    exact hc.arcs (hflags ▸ ha)
  · intro ha
    rw [harcs]
    exact hc.noArcs (hflags ▸ ha)
  · rw [hflags]
    exact hc.idle

theorem correct_visited {expander : CacheExpander L W} (value : Bool) (hc : Correct expander state) :
    Correct expander { state with flags := { state.flags with visited := value } } :=
  ⟨hc.final, hc.arcs, hc.noArcs, hc.idle⟩

/- The state at a slot keeps its flags and all it holds. -/
def KeepsSlot (s s' : CacheStore P) (protectIdx : Option ℕ) : Prop :=
  ∀ k, protectIdx = some k → ∀ state, Slab.get s.pool k = some state →
    ∃ state', Slab.get s'.pool k = some state' ∧ SameData state state'

theorem keepsSlot_refl (s : CacheStore P) (protectIdx : Option ℕ) : KeepsSlot s s protectIdx :=
  fun _ _ state hstate => ⟨state, hstate, sameData_refl state⟩

theorem keepsSlot_trans {s s' s'' : CacheStore P} {protectIdx : Option ℕ}
    (h : KeepsSlot s s' protectIdx) (h' : KeepsSlot s' s'' protectIdx) :
    KeepsSlot s s'' protectIdx := by
  intro k hk state hstate
  obtain ⟨state', hstate', hsame⟩ := h k hk state hstate
  obtain ⟨state'', hstate'', hsame'⟩ := h' k hk state' hstate'
  exact ⟨state'', hstate'', sameData_trans hsame hsame'⟩

section Stores

variable [LawfulSlab P (CacheState L W)] {layout : Layout} {expander : CacheExpander L W}
  {s s' : CacheStore P} {order : List ℕ}

theorem allCorrect_modify {k : ℕ} {f : CacheState L W → CacheState L W}
    (h : AllCorrect expander s.pool)
    (hf : ∀ state, Slab.get s.pool k = some state → Correct expander state →
      Correct expander (f state)) :
    AllCorrect expander (Slab.modify s.pool k f) := by
  intro j state hstate
  rw [get_modify] at hstate
  split at hstate
  next heq =>
    subst heq
    obtain ⟨old, hold, rfl⟩ := Option.map_eq_some_iff.mp hstate
    exact hf old hold (h j old hold)
  next => exact h j state hstate

/- Where the hand goes next is a live slot, or no slot is left. -/
theorem next_live {k : ℕ} (h : Threads layout s order) (hget : Slab.get s.pool k = some state) :
    ∃ n ∈ order, state.prev.or s.tail = some n ∧ (n = k → order = [k]) := by
  obtain ⟨xs, ys, rfl⟩ := List.append_of_mem ((h.live k).mp ⟨state, hget⟩)
  obtain ⟨hprev, -⟩ := links_of_node h hget
  rw [hprev, h.tail]
  have hnodup := h.nodup
  rw [List.nodup_append, List.nodup_cons] at hnodup
  cases hx : xs.getLast? with
  | some p =>
    have hp := List.mem_of_getLast? hx
    refine ⟨p, List.mem_append_left _ hp, rfl, ?_⟩
    rintro rfl
    exact absurd rfl (hnodup.2.2 p hp p List.mem_cons_self)
  | none =>
    obtain rfl := List.getLast?_eq_none_iff.mp hx
    have hlast := List.getLast?_eq_some_getLast (List.cons_ne_nil k ys)
    refine ⟨_, List.getLast_mem (List.cons_ne_nil k ys), hlast, ?_⟩
    intro heq
    cases ys with
    | nil => rfl
    | cons y ys =>
      rw [List.getLast_cons_cons] at heq
      exact absurd (heq ▸ List.getLast_mem (List.cons_ne_nil y ys)) hnodup.2.1.1

/- No state comes in. -/
def OnlyEvicts (s s' : CacheStore P) : Prop := ∀ id, s.map.get id = none → s'.map.get id = none

/- A pass of the clock keeps the store in order, whatever it evicts. -/
theorem sweep_spec (held : ℕ → Bool) (protectIdx : Option ℕ) (targetSize : ℕ) (spare : Bool)
    (steps : ℕ) {currentOpt : Option ℕ} (h : Threads layout s order) (hc : AllCorrect expander s.pool)
    (hcurrent : order ≠ [] → ∃ k ∈ order, currentOpt = some k) :
    ∃ s' order', CacheStore.sweep layout held protectIdx targetSize spare steps currentOpt s =
        some s' ∧
      Threads layout s' order' ∧ AllCorrect expander s'.pool ∧ KeepsSlot s s' protectIdx ∧
      OnlyEvicts s s' := by
  induction steps generalizing s order currentOpt with
  | zero => exact ⟨s, order, rfl, h, hc, keepsSlot_refl s protectIdx, fun _ hid => hid⟩
  | succ steps ih =>
    unfold CacheStore.sweep
    split
    next => exact ⟨s, order, rfl, h, hc, keepsSlot_refl s protectIdx, fun _ hid => hid⟩
    next hsize =>
      have hne : order ≠ [] := by
        rintro rfl
        apply hsize
        rw [h.size]
        exact Nat.zero_le _
      obtain ⟨k, hk, rfl⟩ := hcurrent hne
      obtain ⟨state, hget⟩ := (h.live k).mpr hk
      obtain ⟨n, hn, hnext, hself⟩ := next_live h hget
      dsimp only
      rw [hget]
      dsimp only
      rw [hnext]
      split
      next => exact ih h hc fun _ => ⟨n, hn, rfl⟩
      next hprotected =>
        have hfree : protectIdx ≠ some k := by
          rintro rfl
          simp [CacheStore.isProtected] at hprotected
        split
        next =>
          have hthreads : Threads layout
              { s with pool := Slab.modify s.pool k CacheState.clearVisited } order :=
            threads_modify h k fun _ => ⟨rfl, rfl, rfl, rfl⟩
          have hcorrect : AllCorrect expander (Slab.modify s.pool k CacheState.clearVisited) :=
            allCorrect_modify hc fun state _ hstate => correct_visited false hstate
          have hmoved : Threads layout
              { s with pool := Slab.modify s.pool k CacheState.clearVisited, hand := some n } order :=
            ⟨hthreads.nodup, hthreads.linked, hthreads.live, hthreads.head, hthreads.tail,
              fun _ => ⟨n, hn, rfl⟩, hthreads.map, hthreads.size⟩
          obtain ⟨s', order', hrun, hthreads', hcorrect', hkeeps, hevicts⟩ :=
            ih hmoved hcorrect fun _ => ⟨n, hn, rfl⟩
          refine ⟨s', order', hrun, hthreads', hcorrect', keepsSlot_trans ?_ hkeeps, hevicts⟩
          intro j hj old hold
          refine ⟨old, ?_, sameData_refl old⟩
          have hjk : j ≠ k := by
            rintro rfl
            exact hfree hj
          dsimp only
          rw [get_modify, if_neg hjk, hold]
        next =>
          obtain ⟨s1, order1, hrun1, hthreads1, hmem, hr⟩ := removeNode_threads h hget
          rw [hrun1, Option.bind_some]
          have hlive : order1 ≠ [] → ∃ j ∈ order1, some n = some j := by
            intro hne1
            refine ⟨n, (hmem n).mpr ⟨hn, ?_⟩, rfl⟩
            intro heq
            obtain ⟨j, hj⟩ := List.exists_mem_of_ne_nil order1 hne1
            have hjk := (hmem j).mp hj
            rw [hself heq, List.mem_singleton] at hjk
            exact hjk.2 hjk.1
          have hcorrect1 : AllCorrect expander s1.pool := by
            intro j b hb
            obtain ⟨-, a, ha, hsame⟩ := removed_back hr hb
            exact correct_of_sameData hsame (hc j a ha)
          have hmoved : Threads layout { s1 with hand := some n } order1 :=
            ⟨hthreads1.nodup, hthreads1.linked, hthreads1.live, hthreads1.head, hthreads1.tail,
              hlive, hthreads1.map, hthreads1.size⟩
          obtain ⟨s', order', hrun, hthreads', hcorrect', hkeeps, hevicts⟩ :=
            ih hmoved hcorrect1 hlive
          refine ⟨s', order', hrun, hthreads', hcorrect', keepsSlot_trans ?_ hkeeps, ?_⟩
          · intro j hj old hold
            have hjk : j ≠ k := by
              rintro rfl
              exact hfree hj
            exact removed_data hr hjk hold
          · intro id hid
            apply hevicts
            dsimp only
            rw [hr.map, HybridIndexMap.get_remove, Function.update_apply, hid, ite_self]

theorem hand_live (h : Threads layout s order) :
    order ≠ [] → ∃ k ∈ order, s.hand.or s.tail = some k := by
  intro hne
  obtain ⟨k, hk, heq⟩ := h.hand hne
  exact ⟨k, hk, by rw [heq, Option.some_or]⟩

theorem gc_spec (held : ℕ → Bool) (protectIdx : Option ℕ) (h : Threads layout s order)
    (hc : AllCorrect expander s.pool) :
    ∃ s' order', s.gc layout held protectIdx = some s' ∧ Threads layout s' order' ∧
      AllCorrect expander s'.pool ∧ KeepsSlot s s' protectIdx ∧ OnlyEvicts s s' := by
  unfold CacheStore.gc
  split
  next => exact ⟨s, order, rfl, h, hc, keepsSlot_refl s protectIdx, fun _ hid => hid⟩
  next =>
    obtain ⟨s1, order1, hrun1, h1, hc1, hkeeps1, hevicts1⟩ := sweep_spec held protectIdx
      (s.options.gcTarget s.currentGcLimit) true (Slab.len s.pool) h hc (hand_live h)
    obtain ⟨s2, order2, hrun2, h2, hc2, hkeeps2, hevicts2⟩ := sweep_spec held protectIdx
      (s.options.gcTarget s.currentGcLimit) false (Slab.len s.pool) h1 hc1 (hand_live h1)
    dsimp only
    rw [hrun1, Option.bind_some, hrun2, Option.map_some]
    refine ⟨_, order2, rfl, ?_, hc2, keepsSlot_trans hkeeps1 hkeeps2, ?_⟩
    swap
    · intro id hid
      exact hevicts2 id (hevicts1 id hid)
    exact ⟨h2.nodup, h2.linked, h2.live, h2.head, h2.tail, h2.hand, h2.map, h2.size⟩

theorem correct_fresh (id : ℕ) :
    Correct expander (CacheStore.freshState id : CacheState L W) := by
  constructor
  · intro h
    cases h
  · intro h
    cases h
  · intro _
    rfl
  · exact ⟨rfl, rfl⟩

theorem allocate_spec (held : ℕ → Bool) (h : WellFormed layout s)
    (hc : AllCorrect expander s.pool) (id : ℕ) :
    ∃ idx s', s.allocateSlotIfNeeded layout held id = some (idx, s') ∧ WellFormed layout s' ∧
      AllCorrect expander s'.pool ∧
      ∃ state, Slab.get s'.pool idx = some state ∧ state.stateId = id := by
  obtain ⟨order, h⟩ := h
  unfold CacheStore.allocateSlotIfNeeded
  cases hid : s.map.get id with
  | some idx => exact ⟨idx, s, rfl, ⟨order, h⟩, hc, (h.map id idx).mp hid⟩
  | none =>
    obtain ⟨s1, order1, hrun1, h1, hc1, -, hevicts⟩ := gc_spec held none h hc
    have hnew : ∀ k, s1.map.get id ≠ some k := by
      intro k
      rw [hevicts id hid]
      simp
    rcases hinsert : Slab.insert s1.pool (CacheStore.freshState id : CacheState L W) with
      ⟨idx, pool⟩
    have hvacant := LawfulSlab.insert_vacant s1.pool (CacheStore.freshState id : CacheState L W)
    have hpool := LawfulSlab.get_insert s1.pool (CacheStore.freshState id : CacheState L W)
    rw [hinsert] at hvacant hpool
    dsimp only
    rw [hrun1, Option.bind_some, hinsert]
    dsimp only
    obtain ⟨s2, hrun2, h2, ⟨state, hstate, hfresh⟩, hdata⟩ := pushHead_threads
      { s1 with
        currentSizeBytes := s1.currentSizeBytes + layout.stateSize
        pool := pool
        map := s1.map.insert id idx } h1 hvacant hnew hpool rfl rfl ⟨rfl, rfl, rfl⟩
    rw [hrun2, Option.map_some]
    refine ⟨idx, s2, rfl, ⟨_, h2⟩, ?_, state, hstate, hfresh.1⟩
    intro j b hb
    by_cases hj : j = idx
    · rw [hj, hstate] at hb
      obtain rfl := Option.some.inj hb
      exact correct_of_sameData hfresh (correct_fresh id)
    · have hmem := (h2.live j).mp ⟨b, hb⟩
      obtain ⟨a, ha⟩ := (h1.live j).mpr ((List.mem_cons.mp hmem).resolve_left hj)
      obtain ⟨b', hb', hsame⟩ := hdata j hj a ha
      obtain rfl := Option.some.inj (hb.symm.trans hb')
      exact correct_of_sameData hsame (hc1 j a ha)

end Stores

def CacheInv (layout : Layout) (expander : CacheExpander L W) (c : CacheImpl P) : Prop :=
  WellFormed layout c.store ∧ AllCorrect expander c.store.pool

section Requests

variable [LawfulSlab P (CacheState L W)] {layout : Layout} {expander : CacheExpander L W}
  {c : CacheImpl P}

theorem modifyState_spec {idx : ℕ} {f : CacheState L W → CacheState L W}
    (h : WellFormed layout c.store) (hget : Slab.get c.store.pool idx = some state)
    (hf : ∀ state, (f state).next = state.next ∧ (f state).prev = state.prev ∧
      (f state).stateId = state.stateId ∧ (f state).arcs = state.arcs) :
    ∃ c', c.modifyState idx f = some c' ∧ WellFormed layout c'.store ∧
      Slab.get c'.store.pool = Function.update (Slab.get c.store.pool) idx (some (f state)) := by
  obtain ⟨order, h⟩ := h
  unfold CacheImpl.modifyState
  rw [hget, Option.map_some]
  refine ⟨_, rfl, ⟨order, threads_modify h idx hf⟩, ?_⟩
  dsimp only
  rw [LawfulSlab.get_modify, hget]
  rfl

theorem allCorrect_update {pool pool' : P} {idx : ℕ} (h : AllCorrect expander pool)
    (hstate : Correct expander state)
    (hget : Slab.get pool' = Function.update (Slab.get pool) idx (some state)) :
    AllCorrect expander pool' := by
  intro j a ha
  rw [hget, Function.update_apply] at ha
  split at ha
  · obtain rfl := Option.some.inj ha
    exact hstate
  · exact h j a ha

theorem finalWeight_spec [Zero W] (held : ℕ → Bool) (h : CacheInv layout expander c) (s : ℕ) :
    ∃ c', c.finalWeight layout expander held s = some ((expander.expandFinal s).getD 0, c') ∧
      CacheInv layout expander c' := by
  obtain ⟨idx, store, hrun, hwf, hc, state, hget, hid⟩ := allocate_spec held h.1 h.2 s
  have hstate := hc idx state hget
  unfold CacheImpl.finalWeight
  rw [hrun, Option.bind_some]
  dsimp only
  rw [hget, Option.bind_some]
  split
  next hfinal =>
    obtain ⟨c', hrun', hwf', hget'⟩ := modifyState_spec (c := { c with store := store }) hwf hget
      (f := CacheState.markVisited) fun _ => ⟨rfl, rfl, rfl, rfl⟩
    rw [hrun', Option.map_some, hstate.final hfinal, hid]
    exact ⟨c', rfl, hwf', allCorrect_update hc (correct_visited true hstate) hget'⟩
  next hfinal =>
    rw [if_neg (by simp [hstate.idle.1])]
    obtain ⟨c1, hrun1, hwf1, hget1⟩ := modifyState_spec (c := { c with store := store }) hwf hget
      (f := CacheImpl.setExpandingFinal true) fun _ => ⟨rfl, rfl, rfl, rfl⟩
    have hidx1 : Slab.get c1.store.pool idx = some (CacheImpl.setExpandingFinal true state) := by
      rw [hget1, Function.update_self]
    obtain ⟨c2, hrun2, hwf2, hget2⟩ := modifyState_spec (c := c1) hwf1 hidx1
      (f := CacheImpl.setExpandingFinal false) fun _ => ⟨rfl, rfl, rfl, rfl⟩
    have hidx2 : Slab.get c2.store.pool idx = some (CacheImpl.setExpandingFinal false
        (CacheImpl.setExpandingFinal true state)) := by
      rw [hget2, Function.update_self]
    obtain ⟨c3, hrun3, hwf3, hget3⟩ := modifyState_spec (c := c2) hwf2 hidx2
      (f := CacheImpl.storeFinal (expander.expandFinal s)) fun _ => ⟨rfl, rfl, rfl, rfl⟩
    rw [hrun1, Option.bind_some, hrun2, Option.bind_some, hrun3, Option.map_some]
    rw [hget2, hget1, Function.update_idem, Function.update_idem] at hget3
    refine ⟨c3, rfl, hwf3, allCorrect_update hc ?_ hget3⟩
    refine ⟨fun _ => by rw [← hid]; rfl, hstate.arcs, hstate.noArcs, rfl, hstate.idle.2⟩

theorem expandArcsInto_spec (held : ℕ → Bool) {s idx : ℕ} (h : CacheInv layout expander c)
    (hget : Slab.get c.store.pool idx = some state) (hid : state.stateId = s)
    (harcs : state.flags.arcs = false) :
    ∃ c', CacheImpl.expandArcsInto layout expander held s idx c = some c' ∧
      CacheInv layout expander c' ∧ ∃ state', Slab.get c'.store.pool idx = some state' ∧
        state'.stateId = s ∧ state'.flags.arcs = true := by
  have hstate := h.2 idx state hget
  obtain ⟨c1, hrun1, hwf1, hget1⟩ := modifyState_spec h.1 hget
    (f := CacheImpl.setExpandingArcs true) fun _ => ⟨rfl, rfl, rfl, rfl⟩
  have hidx1 : Slab.get c1.store.pool idx = some (CacheImpl.setExpandingArcs true state) := by
    rw [hget1, Function.update_self]
  obtain ⟨c2, hrun2, hwf2, hget2⟩ := modifyState_spec (c := c1) hwf1 hidx1
    (f := CacheImpl.setExpandingArcs false) fun _ => ⟨rfl, rfl, rfl, rfl⟩
  have hidx2 : Slab.get c2.store.pool idx = some (CacheImpl.setExpandingArcs false
      (CacheImpl.setExpandingArcs true state)) := by
    rw [hget2, Function.update_self]
  let shared : SharedArcs L W := ⟨c2.nextShared, expander.expandArcs s⟩
  obtain ⟨order, hthreads⟩ := hwf2
  have hgrown := threads_grow hthreads hidx2 (f := CacheImpl.storeArcs shared)
    (fun _ => ⟨rfl, rfl, rfl⟩) ((expander.expandArcs s).length * layout.arcSize) (by
      simp [CacheState.memoryEstimate, CacheImpl.storeArcs, CacheImpl.setExpandingArcs,
        CacheState.markVisited, hstate.noArcs harcs, shared])
  have hget3 : Slab.get (Slab.modify c2.store.pool idx (CacheImpl.storeArcs shared)) =
      Function.update (Slab.get c.store.pool) idx (some (CacheImpl.storeArcs shared
        (CacheImpl.setExpandingArcs false (CacheImpl.setExpandingArcs true state)))) := by
    rw [LawfulSlab.get_modify, hidx2, hget2, hget1, Function.update_idem, Function.update_idem]
    rfl
  have hcorrect : AllCorrect expander
      (Slab.modify c2.store.pool idx (CacheImpl.storeArcs shared)) := by
    refine allCorrect_update h.2 ?_ hget3
    refine ⟨hstate.final, fun _ => ⟨shared, rfl, ?_, rfl, rfl⟩, ?_, hstate.idle.1, rfl⟩
    · change expander.expandArcs s = expander.expandArcs state.stateId
      rw [hid]
    · intro hno
      cases hno
  obtain ⟨store, order', hrun4, h4, hc4, hkeeps, -⟩ := gc_spec held (some idx) hgrown hcorrect
  obtain ⟨state', hstate', hsame⟩ := hkeeps idx rfl _ (by
    dsimp only
    rw [hget3, Function.update_self])
  unfold CacheImpl.expandArcsInto
  rw [hrun1, Option.bind_some]
  dsimp only
  rw [hrun2, Option.bind_some, CacheImpl.modifyState, hidx2, Option.map_some, Option.bind_some]
  dsimp only
  rw [hrun4, Option.map_some]
  refine ⟨_, rfl, ⟨⟨order', h4⟩, hc4⟩, state', hstate', ?_, ?_⟩
  · rw [hsame.1]
    exact hid
  · rw [hsame.2.1]
    rfl

theorem ensureArcs_spec (held : ℕ → Bool) (h : CacheInv layout expander c) (s : ℕ) :
    ∃ idx c', c.ensureArcs layout expander held s = some (idx, c') ∧
      CacheInv layout expander c' ∧ ∃ state', Slab.get c'.store.pool idx = some state' ∧
        state'.stateId = s ∧ state'.flags.arcs = true := by
  obtain ⟨idx, store, hrun, hwf, hc, state, hget, hid⟩ := allocate_spec held h.1 h.2 s
  have hstate := hc idx state hget
  unfold CacheImpl.ensureArcs
  rw [hrun, Option.bind_some]
  dsimp only
  rw [hget, Option.bind_some]
  split
  next harcs =>
    obtain ⟨c', hrun', hwf', hget'⟩ := modifyState_spec (c := { c with store := store }) hwf hget
      (f := CacheState.markVisited) fun _ => ⟨rfl, rfl, rfl, rfl⟩
    rw [hrun', Option.map_some]
    refine ⟨idx, c', rfl, ⟨hwf', allCorrect_update hc (correct_visited true hstate) hget'⟩,
      state.markVisited, ?_, hid, harcs⟩
    rw [hget', Function.update_self]
  next harcs =>
    rw [if_neg (by simp [hstate.idle.2])]
    obtain ⟨c', hrun', hinv, hthere⟩ := expandArcsInto_spec held (c := { c with store := store })
      ⟨hwf, hc⟩ hget hid (by simpa using harcs)
    rw [hrun', Option.map_some]
    exact ⟨idx, c', rfl, hinv, hthere⟩

theorem readArcs_spec {X : Type} (held : ℕ → Bool) (read : CacheState L W → Option X) {s : ℕ}
    {Q : X → Prop} (h : CacheInv layout expander c)
    (hread : ∀ state, state.stateId = s → Correct expander state → state.flags.arcs = true →
      ∃ x, read state = some x ∧ Q x) :
    ∃ x c', c.readArcs layout expander held read s = some (x, c') ∧
      CacheInv layout expander c' ∧ Q x := by
  obtain ⟨idx, c', hrun, hinv, state, hget, hid, harcs⟩ := ensureArcs_spec held h s
  obtain ⟨x, hx, hq⟩ := hread state hid (hinv.2 idx state hget) harcs
  unfold CacheImpl.readArcs
  rw [hrun, Option.bind_some]
  dsimp only
  rw [hget, Option.bind_some, hx, Option.map_some]
  exact ⟨x, c', rfl, hinv, hq⟩

theorem cacheInv_new (options : CacheOptions) :
    CacheInv layout expander (CacheImpl.new options : CacheImpl P) := by
  refine ⟨⟨[], List.nodup_nil, trivial, ?_, rfl, rfl, ?_, ?_, rfl⟩, ?_⟩
  · intro k
    simp [CacheImpl.new, CacheStore.new, LawfulSlab.get_new]
  · intro hne
    exact absurd rfl hne
  · intro id k
    simp [CacheImpl.new, CacheStore.new, LawfulSlab.get_new, HybridIndexMap.get_new]
  · intro k state hstate
    simp [CacheImpl.new, CacheStore.new, LawfulSlab.get_new] at hstate

theorem cacheInv_clear (c : CacheImpl P) : CacheInv layout expander c.clear := by
  refine ⟨⟨[], List.nodup_nil, trivial, ?_, rfl, rfl, ?_, ?_, rfl⟩, ?_⟩
  · intro k
    simp [CacheImpl.clear, LawfulSlab.get_clear]
  · intro hne
    exact absurd rfl hne
  · intro id k
    simp [CacheImpl.clear, LawfulSlab.get_clear, HybridIndexMap.get_new]
  · intro k state hstate
    simp [CacheImpl.clear, LawfulSlab.get_clear] at hstate

end Requests

/- What the expander itself would answer: an iterator is a state and a place among its arcs. -/
section Expected

variable [Zero W] (expander : CacheExpander L W)

def expected (iterators : List (Option (ℕ × ℕ))) : Request → Answer L W × List (Option (ℕ × ℕ))
  | .finalWeight s => (.weight ((expander.expandFinal s).getD 0), iterators)
  | .numArcs s => (.count (expander.expandArcs s).length, iterators)
  | .numInputEpsilons s =>
    (.count ((expander.expandArcs s).countP fun arc => arc.ilabel = epsilon), iterators)
  | .numOutputEpsilons s =>
    (.count ((expander.expandArcs s).countP fun arc => arc.olabel = epsilon), iterators)
  | .arcsSlice s => (.slice (expander.expandArcs s), iterators ++ [some (s, 0)])
  | .arcsIter s => (.done, iterators ++ [some (s, 0)])
  | .next handle =>
    match iterators[handle]?.join with
    | some (s, pos) =>
      match (expander.expandArcs s)[pos]? with
      | some arc => (.arc (some arc), iterators.set handle (some (s, pos + 1)))
      | none => (.arc none, iterators.set handle (some (s, pos)))
    | none => (.done, iterators)
  | .clone handle => (.done, iterators ++ [iterators[handle]?.join])
  | .drop handle => (.done, iterators.set handle none)
  | .clear => (.done, iterators)

def expectedAll : List Request → List (Option (ℕ × ℕ)) → List (Answer L W)
  | [], _ => []
  | r :: rs, iterators =>
    (expected expander iterators r).1 :: expectedAll rs (expected expander iterators r).2

/- An iterator yields the arcs of the state it was made for. -/
def Yields (it : Option (CacheArcIter L W)) (at' : Option (ℕ × ℕ)) : Prop :=
  match it, at' with
  | some it, some (s, pos) => it.arcs.arcs = expander.expandArcs s ∧ it.pos = pos
  | none, none => True
  | _, _ => False

end Expected

section Clients

variable [Zero W] [LawfulSlab P (CacheState L W)] {layout : Layout} {expander : CacheExpander L W}

variable {places : List (Option (ℕ × ℕ))}

theorem yields_join {its : List (Option (CacheArcIter L W))}
    (h : List.Forall₂ (Yields expander) its places) (handle : ℕ) :
    Yields expander its[handle]?.join places[handle]?.join := by
  induction h generalizing handle with
  | nil => trivial
  | cons hit _ ih =>
    cases handle with
    | zero => simpa using hit
    | succ handle => simpa using ih handle

theorem yields_set {its : List (Option (CacheArcIter L W))}
    (h : List.Forall₂ (Yields expander) its places) (handle : ℕ) {it : Option (CacheArcIter L W)}
    {place : Option (ℕ × ℕ)} (hit : Yields expander it place) :
    List.Forall₂ (Yields expander) (its.set handle it) (places.set handle place) := by
  induction h generalizing handle with
  | nil => exact .nil
  | cons hhead htail ih =>
    cases handle with
    | zero => exact .cons hit htail
    | succ handle => exact .cons hhead (ih handle)

/- One request is answered as the expander would, and leaves the store in order. -/
theorem request_spec {client : Client P L W} (h : CacheInv layout expander client.cache)
    (hits : List.Forall₂ (Yields expander) client.iterators places) (r : Request) :
    ∃ client', client.request layout expander r = some ((expected expander places r).1, client') ∧
      CacheInv layout expander client'.cache ∧
      List.Forall₂ (Yields expander) client'.iterators (expected expander places r).2 := by
  have hslice : ∀ s, ∃ shared c', client.cache.arcsSlice layout expander
      (Client.held client.iterators) s = some (shared, c') ∧ CacheInv layout expander c' ∧
        shared.arcs = expander.expandArcs s := by
    intro s
    refine readArcs_spec (Client.held client.iterators) (·.arcs) h ?_
    rintro state rfl hstate harcs
    obtain ⟨shared, hshared, heq, -⟩ := hstate.arcs harcs
    exact ⟨shared, hshared, heq⟩
  cases r with
  | finalWeight s =>
    obtain ⟨c', hrun, hinv⟩ := finalWeight_spec (Client.held client.iterators) h s
    refine ⟨{ client with cache := c' }, ?_, hinv, hits⟩
    simp only [Client.request, hrun, Option.map_some]
    rfl
  | numArcs s =>
    obtain ⟨n, c', hrun, hinv, rfl⟩ := readArcs_spec (Client.held client.iterators)
      (fun state => state.arcs.map (·.arcs.length)) (s := s)
      (Q := fun n => n = (expander.expandArcs s).length) h (by
        rintro state rfl hstate harcs
        obtain ⟨shared, hshared, heq, -⟩ := hstate.arcs harcs
        refine ⟨shared.arcs.length, ?_, by rw [heq]⟩
        rw [hshared, Option.map_some])
    refine ⟨{ client with cache := c' }, ?_, hinv, hits⟩
    simp only [Client.request, CacheImpl.numArcs, hrun, Option.map_some]
    rfl
  | numInputEpsilons s =>
    obtain ⟨n, c', hrun, hinv, rfl⟩ := readArcs_spec (Client.held client.iterators)
      (fun state => some state.niepsilons) (s := s)
      (Q := fun n => n = (expander.expandArcs s).countP fun arc => arc.ilabel = epsilon) h (by
        rintro state rfl hstate harcs
        obtain ⟨shared, hshared, heq, hni, -⟩ := hstate.arcs harcs
        exact ⟨_, rfl, by rw [hni, heq]⟩)
    refine ⟨{ client with cache := c' }, ?_, hinv, hits⟩
    simp only [Client.request, CacheImpl.numInputEpsilons, hrun, Option.map_some]
    rfl
  | numOutputEpsilons s =>
    obtain ⟨n, c', hrun, hinv, rfl⟩ := readArcs_spec (Client.held client.iterators)
      (fun state => some state.noepsilons) (s := s)
      (Q := fun n => n = (expander.expandArcs s).countP fun arc => arc.olabel = epsilon) h (by
        rintro state rfl hstate harcs
        obtain ⟨shared, hshared, heq, -, hno⟩ := hstate.arcs harcs
        exact ⟨_, rfl, by rw [hno, heq]⟩)
    refine ⟨{ client with cache := c' }, ?_, hinv, hits⟩
    simp only [Client.request, CacheImpl.numOutputEpsilons, hrun, Option.map_some]
    rfl
  | arcsSlice s =>
    obtain ⟨shared, c', hrun, hinv, heq⟩ := hslice s
    refine ⟨⟨c', client.iterators ++ [some ⟨shared, 0⟩]⟩, ?_, hinv, ?_⟩
    · simp only [Client.request, hrun, Option.map_some, expected, heq]
    · have hit : Yields expander (some ⟨shared, 0⟩) (some (s, 0)) := ⟨heq, rfl⟩
      exact List.rel_append hits (.cons hit .nil)
  | arcsIter s =>
    obtain ⟨shared, c', hrun, hinv, heq⟩ := hslice s
    refine ⟨⟨c', client.iterators ++ [some ⟨shared, 0⟩]⟩, ?_, hinv, ?_⟩
    · simp only [Client.request, hrun, Option.map_some, expected]
    · have hit : Yields expander (some ⟨shared, 0⟩) (some (s, 0)) := ⟨heq, rfl⟩
      exact List.rel_append hits (.cons hit .nil)
  | next handle =>
    have hyields := yields_join hits handle
    cases hit : client.iterators[handle]?.join with
    | none =>
      rw [hit] at hyields
      cases hplace : places[handle]?.join with
      | some place =>
        rw [hplace] at hyields
        exact hyields.elim
      | none =>
        refine ⟨client, ?_, h, ?_⟩
        · simp only [Client.request, hit, expected, hplace]
        · simpa only [expected, hplace] using hits
    | some it =>
      rw [hit] at hyields
      cases hplace : places[handle]?.join with
      | none =>
        rw [hplace] at hyields
        exact hyields.elim
      | some place =>
        obtain ⟨s, pos⟩ := place
        rw [hplace] at hyields
        obtain ⟨harcs, rfl⟩ := hyields
        refine ⟨{ client with iterators := client.iterators.set handle (some it.next.2) }, ?_, h, ?_⟩
        · simp only [Client.request, hit, expected, hplace, CacheArcIter.next, harcs]
          cases harc : (expander.expandArcs s)[it.pos]? <;> simp
        · simp only [expected, hplace, CacheArcIter.next, harcs]
          cases harc : (expander.expandArcs s)[it.pos]? with
          | none =>
            have hsame : Yields expander (some it) (some (s, it.pos)) := ⟨harcs, rfl⟩
            exact yields_set hits handle hsame
          | some arc =>
            have hmoved : Yields expander (some { it with pos := it.pos + 1 })
              (some (s, it.pos + 1)) := ⟨harcs, rfl⟩
            exact yields_set hits handle hmoved
  | clone handle =>
    refine ⟨_, rfl, h, ?_⟩
    exact List.rel_append hits (.cons (yields_join hits handle) .nil)
  | drop handle => exact ⟨_, rfl, h, yields_set hits handle trivial⟩
  | clear => exact ⟨_, rfl, cacheInv_clear client.cache, hits⟩

theorem requests_spec {client : Client P L W} (h : CacheInv layout expander client.cache)
    (hits : List.Forall₂ (Yields expander) client.iterators places) (rs : List Request) :
    ∃ client', client.requests layout expander rs =
        some (expectedAll expander rs places, client') ∧
      CacheInv layout expander client'.cache := by
  induction rs generalizing client places with
  | nil => exact ⟨client, rfl, h⟩
  | cons r rs ih =>
    obtain ⟨client1, hrun1, hinv1, hits1⟩ := request_spec h hits r
    obtain ⟨client', hrun, hinv⟩ := ih hinv1 hits1
    refine ⟨client', ?_, hinv⟩
    rw [Client.requests, hrun1, Option.bind_some]
    dsimp only
    rw [hrun, Option.map_some]
    rfl

theorem cache_transparent (layout : Layout) (expander : CacheExpander L W) (options : CacheOptions)
    (rs : List Request) :
    ∃ client', (Client.new options : Client P L W).requests layout expander rs =
        some (expectedAll expander rs [], client') ∧ WellFormed layout client'.cache.store := by
  have hnew : CacheInv layout expander (Client.new options : Client P L W).cache :=
    cacheInv_new options
  obtain ⟨client', hrun, hinv⟩ := requests_spec hnew .nil rs
  exact ⟨client', hrun, hinv.1⟩

end Clients

/- A slab that gives out the slot freed last, or else a new one. -/
structure Entries (α : Type) where
  entries : List (Option α)
  free : List ℕ
  nodup : free.Nodup
  vacant : ∀ k ∈ free, entries[k]? = some none

namespace Entries

variable {α : Type}

def get (pool : Entries α) (k : ℕ) : Option α := pool.entries[k]?.join

def new : Entries α := ⟨[], [], List.nodup_nil, by simp⟩

def insert (pool : Entries α) (a : α) : ℕ × Entries α :=
  match pool with
  | ⟨entries, [], nodup, _⟩ => (entries.length, ⟨entries ++ [some a], [], nodup, by simp⟩)
  | ⟨entries, k :: free, nodup, vacant⟩ =>
    (k, ⟨entries.set k (some a), free, nodup.of_cons, fun j hj => by
      have hne : k ≠ j := by
        rintro rfl
        exact (List.nodup_cons.mp nodup).1 hj
      rw [List.getElem?_set_ne hne]
      exact vacant j (List.mem_cons_of_mem k hj)⟩)

def modify (pool : Entries α) (k : ℕ) (f : α → α) : Entries α :=
  { pool with
    entries := pool.entries.modify k (Option.map f)
    vacant := fun j hj => by
      rw [List.getElem?_modify, pool.vacant j hj]
      split <;> rfl }

def remove (pool : Entries α) (k : ℕ) : Entries α :=
  if h : (pool.get k).isSome then
    { entries := pool.entries.set k none
      free := k :: pool.free
      nodup := by
        refine List.nodup_cons.mpr ⟨fun hk => ?_, pool.nodup⟩
        rw [get, pool.vacant k hk] at h
        cases h
      vacant := fun j hj => by
        rw [List.getElem?_set]
        split
        next heq =>
          subst heq
          split
          next => rfl
          next hge =>
            rw [get, List.getElem?_eq_none (Nat.le_of_not_lt hge)] at h
            cases h
        next hne => exact pool.vacant j ((List.mem_cons.mp hj).resolve_left (Ne.symm hne)) }
  else pool

instance : Slab (Entries α) α where
  new := new
  get := get
  insert := insert
  modify := modify
  remove := remove
  clear _ := new
  len pool := pool.entries.length - pool.free.length

instance : LawfulSlab (Entries α) α where
  get_new _ := rfl
  insert_vacant pool a := by
    obtain ⟨entries, _ | ⟨k, free⟩, nodup, vacant⟩ := pool
    · change (entries[entries.length]?).join = none
      rw [List.getElem?_eq_none le_rfl]
      rfl
    · change (entries[k]?).join = none
      rw [vacant k List.mem_cons_self]
      rfl
  get_insert pool a := by
    funext j
    rw [Function.update_apply]
    obtain ⟨entries, _ | ⟨k, free⟩, nodup, vacant⟩ := pool
    · change ((entries ++ [some a])[j]?).join = if j = entries.length then _ else (entries[j]?).join
      split
      next heq =>
        rw [heq, List.getElem?_append_right le_rfl, Nat.sub_self]
        rfl
      next hne =>
        rcases Nat.lt_or_gt_of_ne hne with hlt | hgt
        · rw [List.getElem?_append_left hlt]
        · rw [List.getElem?_eq_none (by simpa using hgt),
            List.getElem?_eq_none (Nat.le_of_lt hgt)]
    · change ((entries.set k (some a))[j]?).join = if j = k then _ else (entries[j]?).join
      have hlt : k < entries.length := (List.getElem?_eq_some_iff.mp (vacant k List.mem_cons_self)).1
      split
      next heq =>
        rw [heq, List.getElem?_set_self hlt]
        rfl
      next hne => rw [List.getElem?_set_ne (Ne.symm hne)]
  get_modify pool k f := by
    funext j
    rw [Function.update_apply]
    change ((pool.entries.modify k (Option.map f))[j]?).join =
      if j = k then (pool.entries[k]?.join).map f else (pool.entries[j]?).join
    rw [List.getElem?_modify]
    by_cases hjk : j = k
    · subst hjk
      rcases hget : pool.entries[j]? with _ | _ | a <;> simp
    · rw [if_neg hjk]
      simp only [if_neg (Ne.symm hjk)]
      simp
  get_remove pool k := by
    funext j
    rw [Function.update_apply]
    change (remove pool k).get j = _
    unfold remove
    split
    next h =>
      change ((pool.entries.set k none)[j]?).join = if j = k then none else (pool.entries[j]?).join
      rw [List.getElem?_set]
      by_cases hjk : j = k
      · subst hjk
        rw [if_pos rfl, if_pos rfl]
        split <;> rfl
      · rw [if_neg (Ne.symm hjk), if_neg hjk]
    next h =>
      split
      next heq =>
        rw [heq]
        exact Option.not_isSome_iff_eq_none.mp h
      next => rfl
  get_clear _ _ := rfl

end Entries

/- Each state leads to the next one, and every third is final. -/
def countingExpander : CacheExpander ℤ ℕ :=
  ⟨fun s => if s % 3 = 0 then some s else none, fun s => [⟨0, s, 1, s + 1⟩]⟩

/- A limit that holds one state, and an iterator that outlives what it was made from. -/
theorem cache_transparent_counting : ∃ client',
    (Client.new ⟨true, 3, fun limit => limit / 2⟩ :
      Client (Entries (CacheState ℤ ℕ)) ℤ ℕ).requests ⟨2, 1⟩ countingExpander
        [.arcsIter 4, .numArcs 5, .finalWeight 3, .numInputEpsilons 4, .next 0, .next 0, .clear] =
      some ([.done, .count 1, .weight 3, .count 1, .arc (some ⟨0, 4, 1, 5⟩), .arc none, .done],
        client') ∧ WellFormed ⟨2, 1⟩ client'.cache.store :=
  cache_transparent ⟨2, 1⟩ countingExpander ⟨true, 3, fun limit => limit / 2⟩
    [.arcsIter 4, .numArcs 5, .finalWeight 3, .numInputEpsilons 4, .next 0, .next 0, .clear]

end Sicada.CacheExact
