import Sicada.Cache

namespace Sicada.CacheRuns

open LinkedList Cache

variable {L W P : Type} [ArcLabel L] [Slab P (CacheState L W)]

/- Two states that differ in their links at most. -/
def SameData (state state' : CacheState L W) : Prop :=
  state'.stateId = state.stateId ∧ state'.flags = state.flags ∧
    state'.finalWeight = state.finalWeight ∧ state'.arcs = state.arcs ∧
    state'.niepsilons = state.niepsilons ∧ state'.noepsilons = state.noepsilons

theorem sameData_refl (state : CacheState L W) : SameData state state :=
  ⟨rfl, rfl, rfl, rfl, rfl, rfl⟩

theorem sameData_trans {a b c : CacheState L W} (hab : SameData a b) (hbc : SameData b c) :
    SameData a c := by
  obtain ⟨h1, h2, h3, h4, h5, h6⟩ := hab
  obtain ⟨h1', h2', h3', h4', h5', h6'⟩ := hbc
  exact ⟨h1'.trans h1, h2'.trans h2, h3'.trans h3, h4'.trans h4, h5'.trans h5, h6'.trans h6⟩

variable {state : CacheState L W}

theorem sameData_estimate {state' : CacheState L W} (h : SameData state state') (layout : Layout) :
    state'.memoryEstimate layout = state.memoryEstimate layout := by
  unfold CacheState.memoryEstimate
  rw [h.2.2.2.1]

def estimateAt (layout : Layout) (pool : P) (k : ℕ) : ℕ :=
  match Slab.get pool k with
  | some state => state.memoryEstimate layout
  | none => 0

/- The live slots in the order of the list: the entries of the map, the links, both ends and the
size all speak of these slots and no others. -/
structure Threads (layout : Layout) (s : CacheStore P) (order : List ℕ) : Prop where
  nodup : order.Nodup
  linked : Segment (Slab.get s.pool) CacheState.next CacheState.prev none order none
  live : ∀ k, (∃ state, Slab.get s.pool k = some state) ↔ k ∈ order
  head : s.head = order.head?
  tail : s.tail = order.getLast?
  hand : order ≠ [] → ∃ k ∈ order, s.hand = some k
  map : ∀ id k, s.map.get id = some k ↔
    ∃ state, Slab.get s.pool k = some state ∧ state.stateId = id
  size : s.currentSizeBytes = (order.map (estimateAt layout s.pool)).sum

def WellFormed (layout : Layout) (s : CacheStore P) : Prop := ∃ order, Threads layout s order

section Nodes

variable [LawfulSlab P (CacheState L W)] {layout : Layout} {s s' : CacheStore P} {order : List ℕ}

theorem get_modify (pool : P) (k j : ℕ) (f : CacheState L W → CacheState L W) :
    Slab.get (Slab.modify pool k f) j =
      if j = k then (Slab.get pool j).map f else Slab.get pool j := by
  rw [LawfulSlab.get_modify, Function.update_apply]
  split
  next heq => rw [heq]
  next => rfl

variable {f : CacheState L W → CacheState L W} {k : ℕ}

/- A slot rewritten in what the list and the map do not look at. -/
theorem threads_rewrite (h : Threads layout s order) (k : ℕ)
    (hf : ∀ state, (f state).next = state.next ∧ (f state).prev = state.prev ∧
      (f state).stateId = state.stateId) {size : ℕ}
    (hsize : size = (order.map (estimateAt layout (Slab.modify s.pool k f))).sum) :
    Threads layout { s with pool := Slab.modify s.pool k f, currentSizeBytes := size } order := by
  refine ⟨h.nodup, ?_, ?_, h.head, h.tail, h.hand, ?_, hsize⟩
  · refine segment_congr ?_ h.linked
    intro j _ state hstate
    by_cases hj : j = k
    · exact ⟨f state, by rw [get_modify, if_pos hj, hstate]; rfl, (hf state).2.1, (hf state).1⟩
    · exact ⟨state, by rw [get_modify, if_neg hj, hstate], rfl, rfl⟩
  · intro j
    rw [← h.live, get_modify]
    split
    · constructor
      · rintro ⟨state, hstate⟩
        obtain ⟨old, hold, -⟩ := Option.map_eq_some_iff.mp hstate
        exact ⟨old, hold⟩
      · rintro ⟨state, hstate⟩
        exact ⟨f state, by rw [hstate]; rfl⟩
    · exact Iff.rfl
  · intro id j
    rw [h.map, get_modify]
    split
    · constructor
      · rintro ⟨state, hstate, hid⟩
        exact ⟨f state, by rw [hstate]; rfl, (hf state).2.2.trans hid⟩
      · rintro ⟨state, hstate, hid⟩
        obtain ⟨old, hold, rfl⟩ := Option.map_eq_some_iff.mp hstate
        exact ⟨old, hold, (hf old).2.2.symm.trans hid⟩
    · exact Iff.rfl

theorem estimateAt_modify_of_ne {j : ℕ} (hj : j ≠ k) (pool : P)
    (f : CacheState L W → CacheState L W) :
    estimateAt layout (Slab.modify pool k f) j = estimateAt layout pool j := by
  unfold estimateAt
  rw [get_modify, if_neg hj]

theorem threads_modify (h : Threads layout s order) (k : ℕ)
    (hf : ∀ state, (f state).next = state.next ∧ (f state).prev = state.prev ∧
      (f state).stateId = state.stateId ∧ (f state).arcs = state.arcs) :
    Threads layout { s with pool := Slab.modify s.pool k f } order := by
  refine threads_rewrite h k (fun state => ⟨(hf state).1, (hf state).2.1, (hf state).2.2.1⟩) ?_
  rw [h.size]
  congr 1
  apply List.map_congr_left
  intro j _
  by_cases hj : j = k
  · unfold estimateAt
    rw [get_modify, if_pos hj]
    cases Slab.get s.pool j with
    | none => rfl
    | some state =>
      simp only [Option.map_some]
      unfold CacheState.memoryEstimate
      rw [(hf state).2.2.2]
  · rw [estimateAt_modify_of_ne hj]

/- A slot whose estimate grows by what the size grows by. -/
theorem threads_grow (h : Threads layout s order) (hget : Slab.get s.pool k = some state)
    (hf : ∀ state, (f state).next = state.next ∧ (f state).prev = state.prev ∧
      (f state).stateId = state.stateId) (extra : ℕ)
    (hextra : (f state).memoryEstimate layout = state.memoryEstimate layout + extra) :
    Threads layout { s with
      pool := Slab.modify s.pool k f
      currentSizeBytes := s.currentSizeBytes + extra } order := by
  refine threads_rewrite h k hf ?_
  obtain ⟨xs, ys, rfl⟩ := List.append_of_mem ((h.live k).mp ⟨state, hget⟩)
  have hnodup := h.nodup
  rw [List.nodup_append, List.nodup_cons] at hnodup
  obtain ⟨-, ⟨hky, -⟩, hdisj⟩ := hnodup
  have hxs : ∀ j ∈ xs, estimateAt layout (Slab.modify s.pool k f) j = estimateAt layout s.pool j :=
    fun j hj => estimateAt_modify_of_ne (hdisj j hj k List.mem_cons_self) s.pool f
  have hys : ∀ j ∈ ys, estimateAt layout (Slab.modify s.pool k f) j =
      estimateAt layout s.pool j := by
    intro j hj
    apply estimateAt_modify_of_ne
    rintro rfl
    exact hky hj
  have hk : estimateAt layout (Slab.modify s.pool k f) k =
      estimateAt layout s.pool k + extra := by
    unfold estimateAt
    rw [get_modify, if_pos rfl, hget]
    exact hextra
  rw [h.size]
  simp only [List.map_append, List.map_cons, List.sum_append, List.sum_cons, hk,
    List.map_congr_left hxs, List.map_congr_left hys]
  omega

/- What taking a node out leaves of the store. -/
structure Removed (layout : Layout) (s : CacheStore P) (k : ℕ) (state : CacheState L W)
    (s' : CacheStore P) : Prop where
  gone : Slab.get s'.pool k = none
  before : ∀ p, state.prev = some p → Slab.get s'.pool p =
    (Slab.get s.pool p).map fun a => { a with next := state.next }
  after : ∀ n, state.next = some n → Slab.get s'.pool n =
    (Slab.get s.pool n).map fun a => { a with prev := state.prev }
  others : ∀ j, j ≠ k → state.prev ≠ some j → state.next ≠ some j →
    Slab.get s'.pool j = Slab.get s.pool j
  head : s'.head = if state.prev = none then state.next else s.head
  tail : s'.tail = if state.next = none then state.prev else s.tail
  hand : s'.hand = if s.hand = some k then state.prev.or s'.tail else s.hand
  map : s'.map = s.map.remove state.stateId
  size : s'.currentSizeBytes = s.currentSizeBytes - state.memoryEstimate layout
  options : s'.options = s.options
  limit : s'.currentGcLimit = s.currentGcLimit

theorem removeNode_spec (hget : Slab.get s.pool k = some state)
    (hprev : ∀ p, state.prev = some p → p ≠ k ∧ ∃ a, Slab.get s.pool p = some a)
    (hnext : ∀ n, state.next = some n → n ≠ k ∧ state.prev ≠ some n ∧
      ∃ a, Slab.get s.pool n = some a) :
    ∃ s', s.removeNode layout k = some s' ∧ Removed layout s k state s' := by
  unfold CacheStore.removeNode
  rw [hget]
  dsimp only
  cases hp : state.prev with
  | none =>
    cases hn : state.next with
    | none =>
      refine ⟨_, rfl, ?_⟩
      constructor <;> simp [hp, hn, LawfulSlab.get_remove]
      intro j hj
      rw [Function.update_of_ne hj]
    | some n =>
      obtain ⟨hnk, -, a, ha⟩ := hnext n hn
      simp only [CacheStore.unlinkPrev, CacheStore.unlinkNext, CacheStore.setPrev, Option.bind_some,
        ha, Option.map_some]
      refine ⟨_, rfl, ?_⟩
      constructor <;> simp [hp, hn, LawfulSlab.get_remove, LawfulSlab.get_modify, hnk]
      intro j hj hjn
      rw [Function.update_of_ne hj, Function.update_of_ne (Ne.symm hjn)]
  | some p =>
    obtain ⟨hpk, a, ha⟩ := hprev p hp
    cases hn : state.next with
    | none =>
      simp only [CacheStore.unlinkPrev, CacheStore.unlinkNext, CacheStore.setNext, Option.bind_some,
        ha, Option.map_some]
      refine ⟨_, rfl, ?_⟩
      constructor <;> simp [hp, hn, LawfulSlab.get_remove, LawfulSlab.get_modify, hpk]
      intro j hj hjp
      rw [Function.update_of_ne hj, Function.update_of_ne (Ne.symm hjp)]
    | some n =>
      obtain ⟨hnk, hpn, b, hb⟩ := hnext n hn
      have hne : n ≠ p := by
        rintro rfl
        exact hpn hp
      simp only [CacheStore.unlinkPrev, CacheStore.unlinkNext, CacheStore.setNext,
        CacheStore.setPrev, Option.bind_some, ha, Option.map_some, LawfulSlab.get_modify,
        Function.update_of_ne hne, hb]
      refine ⟨_, rfl, ?_⟩
      constructor <;> simp [hp, hn, LawfulSlab.get_remove, LawfulSlab.get_modify, hpk, hnk, hne,
        hne.symm]
      intro j hj hjp hjn
      rw [Function.update_of_ne hj, Function.update_of_ne (Ne.symm hjn),
        Function.update_of_ne (Ne.symm hjp)]

theorem links_of_node {xs ys : List ℕ} (h : Threads layout s (xs ++ k :: ys))
    (hget : Slab.get s.pool k = some state) :
    state.prev = xs.getLast? ∧ state.next = ys.head? := by
  obtain ⟨-, ⟨a, ha, hprev, hnext⟩, -⟩ := segment_append.mp h.linked
  obtain rfl : a = state := Option.some.inj (ha.symm.trans hget)
  exact ⟨by simpa using hprev, by simpa using hnext⟩

theorem removed_data (h : Removed layout s k state s') {j : ℕ} (hj : j ≠ k) {a : CacheState L W}
    (ha : Slab.get s.pool j = some a) :
    ∃ b, Slab.get s'.pool j = some b ∧ SameData a b := by
  by_cases hp : state.prev = some j
  · refine ⟨{ a with next := state.next }, ?_, rfl, rfl, rfl, rfl, rfl, rfl⟩
    rw [h.before j hp, ha]
    rfl
  · by_cases hn : state.next = some j
    · refine ⟨{ a with prev := state.prev }, ?_, rfl, rfl, rfl, rfl, rfl, rfl⟩
      rw [h.after j hn, ha]
      rfl
    · exact ⟨a, (h.others j hj hp hn).trans ha, sameData_refl a⟩

theorem removed_none (h : Removed layout s k state s') {j : ℕ} (hj : Slab.get s.pool j = none) :
    Slab.get s'.pool j = none := by
  by_cases hk : j = k
  · rw [hk]
    exact h.gone
  · by_cases hp : state.prev = some j
    · rw [h.before j hp, hj]
      rfl
    · by_cases hn : state.next = some j
      · rw [h.after j hn, hj]
        rfl
      · exact (h.others j hk hp hn).trans hj

theorem removed_back (h : Removed layout s k state s') {j : ℕ} {b : CacheState L W}
    (hb : Slab.get s'.pool j = some b) :
    j ≠ k ∧ ∃ a, Slab.get s.pool j = some a ∧ SameData a b := by
  have hjk : j ≠ k := by
    rintro rfl
    rw [h.gone] at hb
    cases hb
  cases ha : Slab.get s.pool j with
  | none =>
    rw [removed_none h ha] at hb
    cases hb
  | some a =>
    obtain ⟨b', hb', hsame⟩ := removed_data h hjk ha
    obtain rfl := Option.some.inj (hb.symm.trans hb')
    exact ⟨hjk, a, rfl, hsame⟩

/- Taking a node out closes the list over its place. -/
theorem threads_removed {xs ys : List ℕ} (h : Threads layout s (xs ++ k :: ys))
    (hget : Slab.get s.pool k = some state) (hr : Removed layout s k state s') :
    Threads layout s' (xs ++ ys) := by
  obtain ⟨hprev, hnext⟩ := links_of_node h hget
  have hnodup := h.nodup
  rw [List.nodup_append] at hnodup
  obtain ⟨hxs, hkys, hdisj⟩ := hnodup
  rw [List.nodup_cons] at hkys
  have hkx : k ∉ xs := fun hmem => hdisj k hmem k List.mem_cons_self rfl
  have hxy : ∀ j ∈ xs, j ∉ ys := fun j hj hmem => hdisj j hj j (List.mem_cons_of_mem _ hmem) rfl
  obtain ⟨hleft, -, hright⟩ := segment_append.mp h.linked
  have htail : s'.tail = (xs ++ ys).getLast? := by
    rw [hr.tail, hnext, h.tail]
    cases ys with
    | nil => simp [hprev]
    | cons n ys => simp [List.getLast?_append]
  refine ⟨?_, ?_, ?_, ?_, htail, ?_, ?_, ?_⟩
  · rw [List.nodup_append]
    exact ⟨hxs, hkys.2, fun a ha b hb => hdisj a ha b (List.mem_cons_of_mem _ hb)⟩
  · rw [segment_append]
    constructor
    · rcases List.eq_nil_or_concat' xs with rfl | ⟨xs', p, rfl⟩
      · trivial
      · have hp : state.prev = some p := by simp [hprev]
        refine segment_relink_last ?_ ?_ hleft
        · intro x hx
          have hxp : x ≠ p := by
            rintro rfl
            rw [List.nodup_append] at hxs
            exact hxs.2.2 x hx x (by simp) rfl
          have hmem : x ∈ xs' ++ [p] := by simp [hx]
          refine hr.others x ?_ ?_ ?_
          · rintro rfl
            exact hkx hmem
          · rw [hp]
            exact fun heq => hxp (Option.some.inj heq).symm
          · rw [hnext]
            intro heq
            exact hxy x hmem (List.mem_of_mem_head? heq)
        · intro a ha
          refine ⟨{ a with next := state.next }, ?_, rfl, ?_⟩
          · rw [hr.before p hp, ha]
            rfl
          · simp [hnext]
    · cases ys with
      | nil => trivial
      | cons n ys =>
        have hn : state.next = some n := by simp [hnext]
        refine segment_relink_first ?_ ?_ hright
        · intro x hx
          have hxn : x ≠ n := by
            rintro rfl
            exact (List.nodup_cons.mp hkys.2).1 hx
          refine hr.others x ?_ ?_ ?_
          · rintro rfl
            exact hkys.1 (List.mem_cons_of_mem _ hx)
          · rw [hprev]
            intro heq
            exact hxy x (List.mem_of_getLast? heq) (List.mem_cons_of_mem _ hx)
          · rw [hn]
            exact fun heq => hxn (Option.some.inj heq).symm
        · intro a ha
          refine ⟨{ a with prev := state.prev }, ?_, ?_, rfl⟩
          · rw [hr.after n hn, ha]
            rfl
          · simp [hprev]
  · intro j
    have hlive := h.live j
    by_cases hj : j = k
    · subst hj
      rw [hr.gone]
      simp [hkx, hkys.1]
    · rw [List.mem_append, List.mem_cons, or_iff_right (a := j = k) hj, ← List.mem_append] at hlive
      rw [← hlive]
      constructor
      · rintro ⟨b, hb⟩
        obtain ⟨-, a, ha, -⟩ := removed_back hr hb
        exact ⟨a, ha⟩
      · rintro ⟨a, ha⟩
        obtain ⟨b, hb, -⟩ := removed_data hr hj ha
        exact ⟨b, hb⟩
  · rw [hr.head, hprev, hnext, h.head]
    cases xs <;> simp
  · intro hne
    rw [hr.hand]
    split
    · rw [hprev, htail]
      cases hx : xs.getLast? with
      | some p => exact ⟨p, by simp [List.mem_of_getLast? hx], rfl⟩
      | none =>
        obtain ⟨p, hp⟩ : ∃ p, (xs ++ ys).getLast? = some p :=
          ⟨_, List.getLast?_eq_some_getLast hne⟩
        exact ⟨p, List.mem_of_getLast? hp, by simp [hp]⟩
    next hhand =>
      obtain ⟨p, hp, heq⟩ := h.hand (by simp)
      refine ⟨p, ?_, heq⟩
      have hpk : p ≠ k := by
        rintro rfl
        exact hhand heq
      simpa [hpk] using hp
  · intro id j
    rw [hr.map, HybridIndexMap.get_remove, Function.update_apply]
    split
    next heq =>
      subst heq
      constructor
      · intro hnone
        cases hnone
      · rintro ⟨b, hb, hid⟩
        obtain ⟨hjk, a, ha, hsame⟩ := removed_back hr hb
        have hj := (h.map state.stateId j).mpr ⟨a, ha, hsame.1.symm.trans hid⟩
        have hk := (h.map state.stateId k).mpr ⟨state, hget, rfl⟩
        exact absurd (Option.some.inj (hj.symm.trans hk)) hjk
    next hid =>
      rw [h.map]
      constructor
      · rintro ⟨a, ha, rfl⟩
        have hjk : j ≠ k := by
          rintro rfl
          obtain rfl := Option.some.inj (ha.symm.trans hget)
          exact hid rfl
        obtain ⟨b, hb, hsame⟩ := removed_data hr hjk ha
        exact ⟨b, hb, hsame.1⟩
      · rintro ⟨b, hb, rfl⟩
        obtain ⟨-, a, ha, hsame⟩ := removed_back hr hb
        exact ⟨a, ha, hsame.1.symm⟩
  · have hsame : ∀ j ∈ xs ++ ys, estimateAt layout s'.pool j = estimateAt layout s.pool j := by
      intro j hj
      have hjk : j ≠ k := by
        rintro rfl
        exact (List.mem_append.mp hj).elim hkx hkys.1
      have hmem : j ∈ xs ++ k :: ys := by
        rcases List.mem_append.mp hj with hj | hj
        · exact List.mem_append_left _ hj
        · exact List.mem_append_right _ (List.mem_cons_of_mem _ hj)
      obtain ⟨a, ha⟩ := (h.live j).mpr hmem
      obtain ⟨b, hb, hdata⟩ := removed_data hr hjk ha
      unfold estimateAt
      rw [ha, hb]
      exact sameData_estimate hdata layout
    have hk : estimateAt layout s.pool k = state.memoryEstimate layout := by
      unfold estimateAt
      rw [hget]
    rw [hr.size, h.size, List.map_congr_left hsame]
    simp only [List.map_append, List.map_cons, List.sum_append, List.sum_cons, hk]
    omega

theorem removeNode_threads (h : Threads layout s order) (hget : Slab.get s.pool k = some state) :
    ∃ s' order', s.removeNode layout k = some s' ∧
      Threads layout s' order' ∧ (∀ j, j ∈ order' ↔ j ∈ order ∧ j ≠ k) ∧
      Removed layout s k state s' := by
  obtain ⟨xs, ys, rfl⟩ := List.append_of_mem ((h.live k).mp ⟨state, hget⟩)
  obtain ⟨hprev, hnext⟩ := links_of_node h hget
  have hnodup := h.nodup
  rw [List.nodup_append, List.nodup_cons] at hnodup
  obtain ⟨hxs, ⟨hky, hys⟩, hdisj⟩ := hnodup
  have hkx : k ∉ xs := fun hmem => hdisj k hmem k List.mem_cons_self rfl
  have hp : ∀ p, state.prev = some p → p ≠ k ∧ ∃ a, Slab.get s.pool p = some a := by
    intro p hp
    have hmem : p ∈ xs := List.mem_of_getLast? (hprev.symm.trans hp)
    refine ⟨?_, (h.live p).mpr (List.mem_append_left _ hmem)⟩
    rintro rfl
    exact hkx hmem
  have hn : ∀ n, state.next = some n → n ≠ k ∧ state.prev ≠ some n ∧
      ∃ a, Slab.get s.pool n = some a := by
    intro n hn
    have hmem : n ∈ ys := List.mem_of_head? (hnext.symm.trans hn)
    refine ⟨?_, ?_, (h.live n).mpr (List.mem_append_right _ (List.mem_cons_of_mem _ hmem))⟩
    · rintro rfl
      exact hky hmem
    · intro heq
      have hmem' : n ∈ xs := List.mem_of_getLast? (hprev.symm.trans heq)
      exact hdisj n hmem' n (List.mem_cons_of_mem _ hmem) rfl
  obtain ⟨s', hs', hr⟩ : ∃ s', s.removeNode layout k = some s' ∧ Removed layout s k state s' :=
    removeNode_spec hget hp hn
  refine ⟨s', xs ++ ys, hs', threads_removed h hget hr, ?_, hr⟩
  intro j
  rw [List.mem_append, List.mem_append, List.mem_cons]
  constructor
  · rintro (hj | hj)
    · exact ⟨.inl hj, fun heq => hkx (heq ▸ hj)⟩
    · exact ⟨.inr (.inr hj), fun heq => hky (heq ▸ hj)⟩
  · rintro ⟨hj | hj | hj, hne⟩
    · exact .inl hj
    · exact absurd hj hne
    · exact .inr hj

variable (s') in
/- The new node goes before the first. -/
theorem pushHead_threads {id idx : ℕ} (h : Threads layout s order)
    (hvacant : Slab.get s.pool idx = none) (hnew : ∀ k, s.map.get id ≠ some k)
    (hpool : Slab.get s'.pool = Function.update (Slab.get s.pool) idx
      (some (CacheStore.freshState id : CacheState L W)))
    (hmap : s'.map = s.map.insert id idx)
    (hsize : s'.currentSizeBytes = s.currentSizeBytes + layout.stateSize)
    (hends : s'.head = s.head ∧ s'.tail = s.tail ∧ s'.hand = s.hand) :
    ∃ s'', s'.pushHead idx = some s'' ∧ Threads layout s'' (idx :: order) ∧
      (∃ state, Slab.get s''.pool idx = some state ∧
        SameData (CacheStore.freshState id) state) ∧
      (∀ j, j ≠ idx → ∀ a, Slab.get s.pool j = some a →
        ∃ b, Slab.get s''.pool j = some b ∧ SameData a b) := by
  obtain ⟨hhead, htail, hhand⟩ := hends
  have hout : idx ∉ order := by
    rw [← h.live, hvacant]
    rintro ⟨_, hnone⟩
    cases hnone
  -- what the slots hold in the end
  obtain ⟨s'', hrun, hidx, hfirst, hothers, hhead', htail', hhand', hmap', hsize'⟩ :
      ∃ s'', s'.pushHead idx = some s'' ∧
        Slab.get s''.pool idx = some { CacheStore.freshState id with next := order.head? } ∧
        (∀ n, order.head? = some n → Slab.get s''.pool n =
          (Slab.get s.pool n).map fun a => { a with prev := some idx }) ∧
        (∀ j, j ≠ idx → order.head? ≠ some j → Slab.get s''.pool j = Slab.get s.pool j) ∧
        s''.head = some idx ∧ s''.tail = (idx :: order).getLast? ∧
        (∃ k ∈ idx :: order, s''.hand = some k) ∧ s''.map = s'.map ∧
        s''.currentSizeBytes = s'.currentSizeBytes := by
    unfold CacheStore.pushHead
    rw [hhead, h.head]
    cases order with
    | nil =>
      simp only [List.head?_nil, CacheStore.setNext, CacheStore.setPrev, hpool,
        Function.update_self, Option.map_some, Option.bind_some, LawfulSlab.get_modify]
      refine ⟨_, rfl, ?_, ?_, ?_, rfl, rfl, ⟨idx, by simp⟩, rfl, rfl⟩
      · simp only [LawfulSlab.get_modify, hpool, Function.update_self, Option.map_some]
        rfl
      · intro n hn
        cases hn
      · intro j hj _
        simp only [LawfulSlab.get_modify, hpool, Function.update_of_ne hj]
    | cons n rest =>
      have hne : n ≠ idx := by
        rintro rfl
        exact hout List.mem_cons_self
      obtain ⟨a, ha⟩ := (h.live n).mpr List.mem_cons_self
      simp only [List.head?_cons, CacheStore.setNext, CacheStore.setPrev, hpool,
        Function.update_self, Option.map_some, Option.bind_some, LawfulSlab.get_modify,
        Function.update_of_ne hne, ha]
      refine ⟨_, rfl, ?_, ?_, ?_, rfl, ?_, ?_, rfl, rfl⟩
      · simp only [LawfulSlab.get_modify, hpool, Function.update_of_ne hne.symm,
          Function.update_self, Option.map_some]
        rfl
      · intro m hm
        obtain rfl := Option.some.inj hm
        simp only [LawfulSlab.get_modify, hpool, Function.update_self, Function.update_of_ne hne, ha]
      · intro j hj hjn
        have hjn' : j ≠ n := fun heq => hjn (by rw [heq])
        simp only [LawfulSlab.get_modify, hpool, Function.update_of_ne hj,
          Function.update_of_ne hjn']
      · rw [List.getLast?_cons_cons, ← h.tail]
        exact htail
      · obtain ⟨k, hk, heq⟩ := h.hand (by simp)
        exact ⟨k, List.mem_cons_of_mem _ hk, hhand.trans heq⟩
  have hdata : ∀ j, j ≠ idx → ∀ a, Slab.get s.pool j = some a →
      ∃ b, Slab.get s''.pool j = some b ∧ SameData a b := by
    intro j hj a ha
    by_cases hn : order.head? = some j
    · refine ⟨{ a with prev := some idx }, ?_, rfl, rfl, rfl, rfl, rfl, rfl⟩
      rw [hfirst j hn, ha]
      rfl
    · exact ⟨a, (hothers j hj hn).trans ha, sameData_refl a⟩
  have hback : ∀ j, j ≠ idx → ∀ b, Slab.get s''.pool j = some b →
      ∃ a, Slab.get s.pool j = some a ∧ SameData a b := by
    intro j hj b hb
    cases ha : Slab.get s.pool j with
    | none =>
      have hn : order.head? ≠ some j := by
        intro hn
        obtain ⟨a, ha'⟩ := (h.live j).mpr (List.mem_of_head? hn)
        rw [ha] at ha'
        cases ha'
      rw [hothers j hj hn, ha] at hb
      cases hb
    | some a =>
      obtain ⟨b', hb', hsame⟩ := hdata j hj a ha
      obtain rfl := Option.some.inj (hb.symm.trans hb')
      exact ⟨a, rfl, hsame⟩
  refine ⟨s'', hrun, ?_, ⟨_, hidx, rfl, rfl, rfl, rfl, rfl, rfl⟩, hdata⟩
  refine ⟨List.nodup_cons.mpr ⟨hout, h.nodup⟩, ⟨⟨_, hidx, rfl, by simp⟩, ?_⟩, ?_, hhead', htail',
    fun _ => hhand', ?_, ?_⟩
  · cases horder : order with
    | nil => trivial
    | cons n rest =>
      have hlinked := h.linked
      have hnodup := h.nodup
      rw [horder] at hlinked hnodup
      have hn : order.head? = some n := by rw [horder]; rfl
      have hne : ∀ x ∈ order, x ≠ idx := by
        rintro x hx rfl
        exact hout hx
      refine segment_relink_first ?_ ?_ hlinked
      · intro x hx
        refine hothers x (hne x (by rw [horder]; exact List.mem_cons_of_mem _ hx)) ?_
        rw [hn]
        intro heq
        obtain rfl := Option.some.inj heq
        exact (List.nodup_cons.mp hnodup).1 hx
      · intro a ha
        refine ⟨{ a with prev := some idx }, ?_, rfl, rfl⟩
        rw [hfirst n hn, ha]
        rfl
  · intro j
    rw [List.mem_cons, ← h.live j]
    by_cases hj : j = idx
    · subst hj
      exact ⟨fun _ => .inl rfl, fun _ => ⟨_, hidx⟩⟩
    · constructor
      · rintro ⟨b, hb⟩
        obtain ⟨a, ha, -⟩ := hback j hj b hb
        exact .inr ⟨a, ha⟩
      · rintro (heq | ⟨a, ha⟩)
        · exact absurd heq hj
        · obtain ⟨b, hb, -⟩ := hdata j hj a ha
          exact ⟨b, hb⟩
  · intro x j
    rw [hmap', hmap, HybridIndexMap.get_insert, Function.update_apply]
    split
    next heq =>
      subst heq
      constructor
      · intro hj
        obtain rfl := Option.some.inj hj
        exact ⟨_, hidx, rfl⟩
      · rintro ⟨b, hb, hid⟩
        by_cases hj : j = idx
        · rw [hj]
        · obtain ⟨a, ha, hsame⟩ := hback j hj b hb
          exact absurd ((h.map x j).mpr ⟨a, ha, hsame.1.symm.trans hid⟩) (hnew j)
    next hne =>
      rw [h.map]
      constructor
      · rintro ⟨a, ha, hid⟩
        have hj : j ≠ idx := by
          rintro rfl
          rw [hvacant] at ha
          cases ha
        obtain ⟨b, hb, hsame⟩ := hdata j hj a ha
        exact ⟨b, hb, hsame.1.trans hid⟩
      · rintro ⟨b, hb, hid⟩
        have hj : j ≠ idx := by
          rintro rfl
          obtain rfl := Option.some.inj (hb.symm.trans hidx)
          exact hne hid.symm
        obtain ⟨a, ha, hsame⟩ := hback j hj b hb
        exact ⟨a, ha, hsame.1.symm.trans hid⟩
  · have hsame : ∀ j ∈ order, estimateAt layout s''.pool j = estimateAt layout s.pool j := by
      intro j hj
      have hne : j ≠ idx := by
        rintro rfl
        exact hout hj
      obtain ⟨a, ha⟩ := (h.live j).mpr hj
      obtain ⟨b, hb, hdata⟩ := hdata j hne a ha
      unfold estimateAt
      rw [ha, hb]
      exact sameData_estimate hdata layout
    have hfresh : estimateAt layout s''.pool idx = layout.stateSize := by
      unfold estimateAt
      rw [hidx]
      rfl
    rw [hsize', hsize, h.size, List.map_cons, List.sum_cons, hfresh, List.map_congr_left hsame]
    omega

end Nodes

end Sicada.CacheRuns
