import Sicada.Queue

namespace Sicada.QueueFaithful

open Container

section Listed

variable {xs : List ℕ} {A : Finset ℕ} {s : ℕ}

theorem lists_concat (h : Lists xs A) (hs : s ∉ A) : Lists (xs ++ [s]) (insert s A) :=
  (h.cons hs).perm (List.perm_append_singleton s xs)

/- Taking the first of a list. -/
theorem listed_empty (h : Lists xs ∅) : xs.head? = none ∧ Lists xs.tail ∅ := by
  rw [h.nil_of_empty]
  exact ⟨rfl, lists_nil⟩

theorem listed_dequeue (h : Lists xs A) (hA : A.Nonempty) :
    ∃ s, xs.head? = some s ∧ s ∈ A ∧ Lists xs.tail (A.erase s) := by
  cases xs with
  | nil => exact absurd rfl (h.ne_nil hA)
  | cons s ys => exact ⟨s, rfl, h.tail⟩

end Listed

theorem fifo_faithful (Known : ℕ → Prop) :
    Faithful FifoQueue.discipline Known fun queue A => Lists queue.states A := by
  constructor
  · intro queue A s h _ hs
    exact ⟨_, rfl, lists_concat h hs⟩
  · intro queue A s h _
    exact ⟨queue, rfl, h⟩
  · intro queue h
    obtain ⟨hhead, htail⟩ := listed_empty h
    exact ⟨⟨queue.states.tail⟩, congrArg (fun s => some (s, _)) hhead, htail⟩
  · intro queue A h hA
    obtain ⟨s, hhead, hs, htail⟩ := listed_dequeue h hA
    exact ⟨s, ⟨queue.states.tail⟩, congrArg (fun s => some (s, _)) hhead, hs, htail⟩
  · intro queue A _
    exact lists_nil

theorem lifo_faithful (Known : ℕ → Prop) :
    Faithful LifoQueue.discipline Known fun queue A => Lists queue.states A := by
  constructor
  · intro queue A s h _ hs
    exact ⟨_, rfl, h.cons hs⟩
  · intro queue A s h _
    exact ⟨queue, rfl, h⟩
  · intro queue h
    obtain ⟨hhead, htail⟩ := listed_empty h
    exact ⟨⟨queue.states.tail⟩, congrArg (fun s => some (s, _)) hhead, htail⟩
  · intro queue A h hA
    obtain ⟨s, hhead, hs, htail⟩ := listed_dequeue h hA
    exact ⟨s, ⟨queue.states.tail⟩, congrArg (fun s => some (s, _)) hhead, hs, htail⟩
  · intro queue A _
    exact lists_nil

/- A queue for one state at most, which is the only one that is ever put in. -/
def TrivialHolds (Known : ℕ → Prop) (queue : TrivialQueue) (A : Finset ℕ) : Prop :=
  Lists queue.front.toList A ∧ (∀ s ∈ A, Known s) ∧ ∀ s t, Known s → Known t → s = t

theorem trivial_faithful (Known : ℕ → Prop) :
    Faithful TrivialQueue.discipline Known (TrivialHolds Known) := by
  constructor
  · rintro queue A s ⟨h, hknown, honly⟩ hs hnot
    have hempty : A = ∅ := by
      apply Finset.eq_empty_of_forall_notMem
      intro t ht
      exact hnot (honly t s (hknown t ht) hs ▸ ht)
    subst hempty
    refine ⟨⟨some s⟩, rfl, ?_, ?_, honly⟩
    · exact lists_nil.cons (Finset.notMem_empty s)
    · intro t ht
      rw [Finset.mem_insert] at ht
      rcases ht with rfl | ht
      · exact hs
      · exact absurd ht (Finset.notMem_empty t)
  · intro queue A s h _
    exact ⟨queue, rfl, h⟩
  · rintro queue ⟨h, hknown, honly⟩
    refine ⟨⟨none⟩, ?_, lists_nil, hknown, honly⟩
    have hfront : queue.front = none := by
      cases hfront : queue.front with
      | none => rfl
      | some s =>
        rw [hfront] at h
        cases h.nil_of_empty
    change some (queue.front, _) = _
    rw [hfront]
  · rintro queue A ⟨h, hknown, honly⟩ hA
    cases hfront : queue.front with
    | none =>
      rw [hfront] at h
      exact absurd rfl (h.ne_nil hA)
    | some s =>
      rw [hfront] at h
      obtain ⟨hs, hrest⟩ := h.tail
      refine ⟨s, ⟨none⟩, ?_, hs, hrest, fun t ht => hknown t (Finset.mem_of_mem_erase ht), honly⟩
      change some (queue.front, _) = _
      rw [hfront]
  · rintro queue A ⟨-, -, honly⟩
    exact ⟨lists_nil, fun s hs => absurd hs (Finset.notMem_empty s), honly⟩

section StateOrder

structure StateOrderHolds (queue : StateOrderQueue) (A : Finset ℕ) : Prop where
  queued : ∀ s, queue.queued s = true ↔ s ∈ A
  window : ∀ s ∈ A, queue.front ≤ s ∧ s < queue.back
  front : queue.front < queue.back → queue.front ∈ A

theorem stateOrder_enqueue {queue : StateOrderQueue} {A : Finset ℕ} (h : StateOrderHolds queue A)
    (s : ℕ) : StateOrderHolds (queue.enqueue s) (insert s A) := by
  constructor
  · intro t
    unfold StateOrderQueue.enqueue
    dsimp only
    rw [Function.update_apply, Finset.mem_insert]
    split
    · next heq => simp [heq]
    · next hne => simp [hne, h.queued]
  · intro t ht
    unfold StateOrderQueue.enqueue
    dsimp only
    rcases Finset.mem_insert.mp ht with rfl | ht
    · split <;> omega
    · have hwindow := h.window t ht
      split <;> omega
  · intro _
    unfold StateOrderQueue.enqueue
    dsimp only
    split
    · exact Finset.mem_insert_self s A
    · next hlt =>
      rcases min_choice queue.front s with hmin | hmin
      · rw [hmin]
        exact Finset.mem_insert_of_mem (h.front (by omega))
      · rw [hmin]
        exact Finset.mem_insert_self s A

theorem stateOrder_dequeue {queue : StateOrderQueue} {A : Finset ℕ} (h : StateOrderHolds queue A)
    (hA : A.Nonempty) : ∃ s queue', queue.dequeue = (some s, queue') ∧ s ∈ A ∧
      StateOrderHolds queue' (A.erase s) := by
  obtain ⟨t, ht⟩ := hA
  have hwindow := h.window t ht
  have hfront := h.front (by omega)
  obtain ⟨hle, hskipped, hnext⟩ := nextIn_spec
    (Function.update queue.queued queue.front false) queue.front queue.back
  have hqueued : ∀ s, Function.update queue.queued queue.front false s = true ↔
      s ∈ A.erase queue.front := by
    intro s
    rw [Function.update_apply, Finset.mem_erase]
    split
    · next heq => simp [heq]
    · next hne => simp [hne, h.queued]
  refine ⟨queue.front, ⟨Function.update queue.queued queue.front false,
    nextIn (Function.update queue.queued queue.front false) queue.front queue.back, queue.back⟩,
    ?_, hfront, hqueued, ?_, ?_⟩
  · unfold StateOrderQueue.dequeue StateOrderQueue.head
    rw [if_pos (by omega)]
  · intro s hs
    have hin := h.window s (Finset.mem_of_mem_erase hs)
    refine ⟨?_, hin.2⟩
    by_contra hlt
    have hfalse := hskipped s hin.1 (Nat.lt_of_not_le hlt)
    rw [(hqueued s).mpr hs] at hfalse
    cases hfalse
  · intro hlt
    exact (hqueued _).mp (hnext hlt)

theorem stateOrder_faithful (Known : ℕ → Prop) :
    Faithful StateOrderQueue.discipline Known StateOrderHolds := by
  constructor
  · intro queue A s h _ _
    exact ⟨_, rfl, stateOrder_enqueue h s⟩
  · intro queue A s h _
    exact ⟨queue, rfl, h⟩
  · intro queue h
    refine ⟨queue, ?_, h⟩
    have hempty : ¬ queue.front < queue.back := fun hlt =>
      absurd (h.front hlt) (Finset.notMem_empty _)
    change some queue.dequeue = _
    unfold StateOrderQueue.dequeue StateOrderQueue.head
    rw [if_neg hempty]
  · intro queue A h hA
    obtain ⟨s, queue', hdequeue, hs, hrest⟩ := stateOrder_dequeue h hA
    exact ⟨s, queue', congrArg some hdequeue, hs, hrest⟩
  · intro queue A h
    refine ⟨?_, fun s hs => absurd hs (Finset.notMem_empty s), fun hlt => absurd hlt (lt_irrefl 0)⟩
    intro s
    change (queue.queued s && !(queue.front ≤ s && s < queue.back)) = true ↔ s ∈ ∅
    rw [Bool.and_eq_true, h.queued]
    constructor
    · rintro ⟨hs, hout⟩
      have hwindow := h.window s hs
      simp [hwindow.1, hwindow.2] at hout
    · intro hs
      exact absurd hs (Finset.notMem_empty s)

end StateOrder

section TopOrder

/- The positions of an order are positions of its slots, and no two states share one. -/
structure Positions (order : List ℕ) : Prop where
  bound : ∀ s p : ℕ, order[s]? = some p → p < order.length
  inj : ∀ s t p : ℕ, order[s]? = some p → order[t]? = some p → s = t

structure TopOrderHolds (order : List ℕ) (queue : TopOrderQueue) (A : Finset ℕ) : Prop where
  same : queue.order = order
  length : queue.slots.length = order.length
  slots : ∀ p s : ℕ, queue.slots[p]? = some (some s) ↔ s ∈ A ∧ order[s]? = some p
  window : ∀ s ∈ A, ∃ p : ℕ, order[s]? = some p ∧ queue.front ≤ p ∧ p < queue.back
  front : queue.front < queue.back → ∃ s ∈ A, order[s]? = some queue.front

variable {order : List ℕ} {queue : TopOrderQueue} {A : Finset ℕ}

theorem topOrder_enqueue (horder : Positions order) (h : TopOrderHolds order queue A) {s p : ℕ}
    (hp : order[s]? = some p) (hs : s ∉ A) :
    ∃ queue', queue.enqueue s = some queue' ∧ TopOrderHolds order queue' (insert s A) := by
  have hlt : p < queue.slots.length := h.length ▸ horder.bound s p hp
  refine ⟨_, by rw [TopOrderQueue.enqueue, h.same, hp, Option.bind_some, if_pos hlt], ?_⟩
  refine ⟨rfl, ?_, ?_, ?_, ?_⟩
  · rw [List.length_set]
    exact h.length
  · intro q t
    dsimp only
    rw [Finset.mem_insert]
    by_cases hq : p = q
    · subst hq
      rw [List.getElem?_set_self hlt]
      constructor
      · intro heq
        cases heq
        exact ⟨Or.inl rfl, hp⟩
      · rintro ⟨-, ht⟩
        rw [horder.inj s t p hp ht]
    · rw [List.getElem?_set_ne hq, h.slots]
      constructor
      · rintro ⟨ht, hpos⟩
        exact ⟨Or.inr ht, hpos⟩
      · rintro ⟨rfl | ht, hpos⟩
        · rw [hp] at hpos
          exact absurd (Option.some.inj hpos) hq
        · exact ⟨ht, hpos⟩
  · intro t ht
    dsimp only
    rcases Finset.mem_insert.mp ht with rfl | ht
    · exact ⟨p, hp, by split <;> omega, by split <;> omega⟩
    · obtain ⟨q, hq, hwindow⟩ := h.window t ht
      exact ⟨q, hq, by split <;> omega, by split <;> omega⟩
  · intro _
    dsimp only
    split
    · exact ⟨s, Finset.mem_insert_self s A, hp⟩
    · next hlt =>
      rcases min_choice queue.front p with hmin | hmin
      · rw [hmin]
        obtain ⟨t, ht, hfront⟩ := h.front (by omega)
        exact ⟨t, Finset.mem_insert_of_mem ht, hfront⟩
      · rw [hmin]
        exact ⟨s, Finset.mem_insert_self s A, hp⟩

theorem topOrder_dequeue (horder : Positions order) (h : TopOrderHolds order queue A)
    (hA : A.Nonempty) : ∃ s queue', queue.dequeue = (some s, queue') ∧ s ∈ A ∧
      TopOrderHolds order queue' (A.erase s) := by
  obtain ⟨t, ht⟩ := hA
  obtain ⟨q, -, hwindow⟩ := h.window t ht
  obtain ⟨s, hs, hfront⟩ := h.front (by omega)
  have hslot : queue.slots[queue.front]? = some (some s) := (h.slots _ _).mpr ⟨hs, hfront⟩
  have hlt : queue.front < queue.slots.length := h.length ▸ horder.bound s _ hfront
  obtain ⟨hle, hskipped, hnext⟩ := nextIn_spec
    (fun i => ((queue.slots.set queue.front none).getD i none).isSome) queue.front queue.back
  have hslots : ∀ p t : ℕ, (queue.slots.set queue.front none)[p]? = some (some t) ↔
      t ∈ A.erase s ∧ order[t]? = some p := by
    intro p t
    rw [Finset.mem_erase]
    by_cases hp : queue.front = p
    · subst hp
      rw [List.getElem?_set_self hlt]
      constructor
      · intro heq
        cases heq
      · rintro ⟨⟨hne, -⟩, ht⟩
        exact absurd (horder.inj t s _ ht hfront) hne
    · rw [List.getElem?_set_ne hp, h.slots]
      constructor
      · rintro ⟨ht, hpos⟩
        refine ⟨⟨?_, ht⟩, hpos⟩
        rintro rfl
        exact hp (Option.some.inj (hfront.symm.trans hpos))
      · rintro ⟨⟨-, ht⟩, hpos⟩
        exact ⟨ht, hpos⟩
  have hsome : ∀ p, ((queue.slots.set queue.front none).getD p none).isSome = true ↔
      ∃ t ∈ A.erase s, order[t]? = some p := by
    intro p
    rw [List.getD_eq_getElem?_getD]
    constructor
    · intro hp
      obtain ⟨t, ht⟩ := Option.isSome_iff_exists.mp hp
      have hget : (queue.slots.set queue.front none)[p]? = some (some t) := by
        cases hget : (queue.slots.set queue.front none)[p]? with
        | none =>
          rw [hget] at ht
          cases ht
        | some slot =>
          rw [hget, Option.getD_some] at ht
          rw [ht]
      exact ⟨t, (hslots p t).mp hget⟩
    · rintro ⟨t, ht⟩
      rw [(hslots p t).mpr ht]
      rfl
  refine ⟨s, { queue with
    slots := queue.slots.set queue.front none
    front := nextIn (fun i => ((queue.slots.set queue.front none).getD i none).isSome) queue.front
      queue.back }, ?_, hs, h.same, ?_, hslots, ?_, ?_⟩
  · have hhead : queue.head = some s := by
      unfold TopOrderQueue.head
      rw [if_pos (by omega), List.getD_eq_getElem?_getD, hslot]
      rfl
    unfold TopOrderQueue.dequeue
    rw [hhead]
  · rw [List.length_set]
    exact h.length
  · intro t ht
    obtain ⟨p, hp, hin⟩ := h.window t (Finset.mem_of_mem_erase ht)
    refine ⟨p, hp, ?_, hin.2⟩
    dsimp only
    by_contra hlt
    have hfalse := hskipped p hin.1 (Nat.lt_of_not_le hlt)
    rw [(hsome p).mpr ⟨t, ht, hp⟩] at hfalse
    cases hfalse
  · intro hlt
    exact (hsome _).mp (hnext hlt)

theorem topOrder_faithful (horder : Positions order) :
    Faithful TopOrderQueue.discipline (· < order.length) (TopOrderHolds order) := by
  constructor
  · intro queue A s h hs hnot
    exact topOrder_enqueue horder h (List.getElem?_eq_getElem hs) hnot
  · intro queue A s h _
    exact ⟨queue, rfl, h⟩
  · intro queue h
    refine ⟨queue, ?_, h⟩
    have hempty : ¬ queue.front < queue.back := by
      intro hlt
      obtain ⟨s, hs, -⟩ := h.front hlt
      exact absurd hs (Finset.notMem_empty s)
    have hhead : queue.head = none := by
      unfold TopOrderQueue.head
      rw [if_neg hempty]
    change some queue.dequeue = _
    unfold TopOrderQueue.dequeue
    rw [hhead]
  · intro queue A h hA
    obtain ⟨s, queue', hdequeue, hs, hrest⟩ := topOrder_dequeue horder h hA
    exact ⟨s, queue', congrArg some hdequeue, hs, hrest⟩
  · intro queue A h
    refine ⟨h.same, ?_, ?_, fun s hs => absurd hs (Finset.notMem_empty s),
      fun hlt => absurd hlt (lt_irrefl 0)⟩
    · change (queue.slots.mapIdx _).length = _
      rw [List.length_mapIdx]
      exact h.length
    · intro p s
      change (queue.slots.mapIdx _)[p]? = _ ↔ _
      rw [List.getElem?_mapIdx]
      constructor
      · intro hget
        obtain ⟨slot, hslot, heq⟩ := Option.map_eq_some_iff.mp hget
        split at heq
        · cases heq
        · next hout =>
          rw [heq] at hslot
          obtain ⟨hs, hpos⟩ := (h.slots p s).mp hslot
          obtain ⟨q, hq, hin⟩ := h.window s hs
          obtain rfl := Option.some.inj (hpos.symm.trans hq)
          exact absurd hin hout
      · rintro ⟨hs, -⟩
        exact absurd hs (Finset.notMem_empty s)

theorem topOrder_withOrder (order : List ℕ) :
    TopOrderHolds order (TopOrderQueue.withOrder order) ∅ := by
  refine ⟨rfl, List.length_replicate, ?_, fun s hs => absurd hs (Finset.notMem_empty s),
    fun hlt => absurd hlt (lt_irrefl 0)⟩
  intro p s
  change (List.replicate _ none)[p]? = _ ↔ _
  rw [List.getElem?_replicate]
  constructor
  · intro hget
    split at hget <;> cases hget
  · rintro ⟨hs, -⟩
    exact absurd hs (Finset.notMem_empty s)

end TopOrder

section Inner

variable {comp : ℕ → ℕ → Bool} {Known : ℕ → Prop}

theorem lists_isEmpty {xs : List ℕ} {A : Finset ℕ} (h : Lists xs A) : xs = [] ↔ A = ∅ := by
  constructor
  · rintro rfl
    apply Finset.eq_empty_of_forall_notMem
    intro s hs
    exact absurd ((h.mem s).mpr hs) List.not_mem_nil
  · rintro rfl
    exact h.nil_of_empty

end Inner

section Scc

variable {comp : ℕ → ℕ → Bool} {scc : List ℕ} {n : ℕ} {queue : SccQueue} {A : Finset ℕ}

/- The states of `A` that are in a component. -/
def within (scc : List ℕ) (A : Finset ℕ) (c : ℕ) : Finset ℕ := A.filter fun s => scc[s]? = some c

theorem within_insert_self {s c : ℕ} (hc : scc[s]? = some c) :
    within scc (insert s A) c = insert s (within scc A c) := by
  unfold within
  rw [Finset.filter_insert, if_pos hc]

theorem within_insert_of_ne {s c c' : ℕ} (hc : scc[s]? = some c) (hne : c ≠ c') :
    within scc (insert s A) c' = within scc A c' := by
  unfold within
  rw [Finset.filter_insert, if_neg]
  rw [hc]
  exact fun heq => hne (Option.some.inj heq)

theorem within_erase_self {s c : ℕ} : within scc (A.erase s) c = (within scc A c).erase s := by
  unfold within
  rw [Finset.filter_erase]

theorem within_erase_of_ne {s c c' : ℕ} (hc : scc[s]? = some c) (hne : c ≠ c') :
    within scc (A.erase s) c' = within scc A c' := by
  rw [within_erase_self]
  apply Finset.erase_eq_of_notMem
  unfold within
  rw [Finset.mem_filter, hc]
  rintro ⟨-, heq⟩
  exact hne (Option.some.inj heq)

theorem within_empty (c : ℕ) : within scc ∅ c = ∅ := Finset.filter_empty _

end Scc

end Sicada.QueueFaithful
