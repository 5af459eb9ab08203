import Sicada.QueueCalls
import Sicada.QueueFaithful
import Sicada.IndexedHeapRuns

namespace Sicada.QueueExact

open Container QueueCalls QueueFaithful

section Plain

variable {Q : Type} {d : Discipline ℕ Q} {head : Q → Option ℕ} {isEmpty : Q → Bool}
  {Known : ℕ → Prop} {First : Finset ℕ → ℕ → Prop} {Holds : Q → Finset ℕ → Prop}

theorem plain_contract (h : Faithful d Known Holds)
    (hhead : ∀ q A, Holds q A → ∃ q', d.dequeue q = some (head q, q'))
    (hempty : ∀ q A, Holds q A → (isEmpty q = true ↔ A = ∅))
    (hfirst : ∀ q A s, Holds q A → head q = some s → First A s) :
    Contract (plain d head isEmpty) Known (fun _ _ => False) First Holds := by
  have hannounce : ∀ q A, Holds q A → (A = ∅ ∧ head q = none ∨
      ∃ s ∈ A, First A s ∧ head q = some s) ∧
      ∃ q', d.dequeue q = some (head q, q') ∧ Holds q' (held A .dequeue (.state (head q))) := by
    intro q A hq
    obtain ⟨q', hq'⟩ := hhead q A hq
    rcases A.eq_empty_or_nonempty with rfl | hA
    · obtain ⟨p, hp, hrest⟩ := h.empty q hq
      obtain ⟨hnone, rfl⟩ := Prod.mk.inj (Option.some.inj (hq'.symm.trans hp))
      rw [hnone] at hq' ⊢
      exact ⟨Or.inl ⟨rfl, rfl⟩, q', hq', hrest⟩
    · obtain ⟨s, p, hp, hs, hrest⟩ := h.dequeue q A hq hA
      obtain ⟨hsome, rfl⟩ := Prod.mk.inj (Option.some.inj (hq'.symm.trans hp))
      have hs' := hfirst q A s hq hsome
      rw [hsome] at hq' ⊢
      exact ⟨Or.inr ⟨s, hs, hs', rfl⟩, q', hq', hrest⟩
  refine ⟨fun q A call hq hproper => Or.inr ⟨id, ?_⟩, fun q A state q' hq hstate => ?_⟩
  · cases call with
    | head =>
      refine ⟨.state (head q), q, rfl, ?_, hq⟩
      rcases (hannounce q A hq).1 with ⟨hA, hnone⟩ | ⟨s, hs, hs', hsome⟩
      · exact Or.inl ⟨hA, congrArg Reply.state hnone⟩
      · exact Or.inr ⟨s, hs, hs', congrArg Reply.state hsome⟩
    | isEmpty =>
      refine ⟨.answer (isEmpty q), q, rfl, congrArg Reply.answer ?_, hq⟩
      rw [Bool.eq_iff_iff, hempty q A hq, decide_eq_true_eq]
    | enqueue s =>
      obtain ⟨q', hq', hrest⟩ := h.enqueue q A s hq hproper.1 hproper.2
      exact ⟨.done, q', congrArg (Option.map _) hq', rfl, hrest⟩
    | dequeue =>
      obtain ⟨hcases, q', hq', hrest⟩ := hannounce q A hq
      refine ⟨.state (head q), q', congrArg (Option.map _) hq', ?_, hrest⟩
      rcases hcases with ⟨hA, hnone⟩ | ⟨s, hs, hs', hsome⟩
      · exact Or.inl ⟨hA, congrArg Reply.state hnone⟩
      · exact Or.inr ⟨s, hs, hs', congrArg Reply.state hsome⟩
    | update s =>
      obtain ⟨q', hq', hrest⟩ := h.update q A s hq hproper
      exact ⟨.done, q', congrArg (Option.map _) hq', rfl, hrest⟩
    | clear => exact ⟨.done, d.clear q, rfl, rfl, h.clear q A hq⟩
  · obtain ⟨rfl, rfl⟩ := Prod.mk.inj (Option.some.inj hstate)
    exact hhead q A hq

theorem fifo_contract (Known : ℕ → Prop) : Contract fifo Known (fun _ _ => False)
    (fun _ _ => True) fun queue A => Lists queue.states A := by
  refine plain_contract (fifo_faithful Known) (fun q A _ => ⟨_, rfl⟩) (fun q A hq => ?_)
    fun _ _ _ _ _ => True.intro
  rw [List.isEmpty_iff, lists_isEmpty hq]

theorem lifo_contract (Known : ℕ → Prop) : Contract lifo Known (fun _ _ => False)
    (fun _ _ => True) fun queue A => Lists queue.states A := by
  refine plain_contract (lifo_faithful Known) (fun q A _ => ⟨_, rfl⟩) (fun q A hq => ?_)
    fun _ _ _ _ _ => True.intro
  rw [List.isEmpty_iff, lists_isEmpty hq]

/- The window is empty just when nothing is held. -/
theorem stateOrder_window {queue : StateOrderQueue} {A : Finset ℕ} (h : StateOrderHolds queue A) :
    queue.back ≤ queue.front ↔ A = ∅ := by
  constructor
  · intro hle
    apply Finset.eq_empty_of_forall_notMem
    intro s hs
    have hwindow := h.window s hs
    omega
  · rintro rfl
    by_contra hlt
    exact absurd (h.front (not_le.mp hlt)) (Finset.notMem_empty _)

/- The state of least id comes first. -/
theorem stateOrder_contract (Known : ℕ → Prop) : Contract stateOrder Known (fun _ _ => False)
    (fun A s => ∀ t ∈ A, s ≤ t) StateOrderHolds := by
  refine plain_contract (stateOrder_faithful Known) (fun q A _ => ?_) (fun q A hq => ?_)
    fun q A s hq hs t ht => ?_
  · change ∃ q', some q.dequeue = some (q.head, q')
    unfold StateOrderQueue.dequeue
    cases hhead : q.head with
    | none => exact ⟨q, rfl⟩
    | some s => exact ⟨_, rfl⟩
  · rw [decide_eq_true_eq, stateOrder_window hq]
  · unfold StateOrderQueue.head at hs
    split at hs
    · obtain rfl := Option.some.inj hs
      exact (hq.window t ht).1
    · cases hs

theorem topOrder_window {order : List ℕ} {queue : TopOrderQueue} {A : Finset ℕ}
    (h : TopOrderHolds order queue A) : queue.back ≤ queue.front ↔ A = ∅ := by
  constructor
  · intro hle
    apply Finset.eq_empty_of_forall_notMem
    intro s hs
    obtain ⟨p, -, hwindow⟩ := h.window s hs
    omega
  · rintro rfl
    by_contra hlt
    obtain ⟨s, hs, -⟩ := h.front (not_le.mp hlt)
    exact absurd hs (Finset.notMem_empty _)

/- The state of least position comes first. -/
theorem topOrder_contract {order : List ℕ} (horder : Positions order) :
    Contract topOrder (· < order.length) (fun _ _ => False)
      (fun A s => ∀ t ∈ A, order.getD s 0 ≤ order.getD t 0) (TopOrderHolds order) := by
  refine plain_contract (topOrder_faithful horder) (fun q A _ => ?_) (fun q A hq => ?_)
    fun q A s hq hs t ht => ?_
  · change ∃ q', some q.dequeue = some (q.head, q')
    unfold TopOrderQueue.dequeue
    cases hhead : q.head with
    | none => exact ⟨q, rfl⟩
    | some s => exact ⟨_, rfl⟩
  · rw [decide_eq_true_eq, topOrder_window hq]
  · unfold TopOrderQueue.head at hs
    split at hs
    · obtain ⟨p, hp, hwindow⟩ := hq.window t ht
      have hslot : q.slots[q.front]? = some (some s) := by
        rw [List.getD_eq_getElem?_getD] at hs
        cases hget : q.slots[q.front]? with
        | none =>
          rw [hget] at hs
          cases hs
        | some slot =>
          rw [hget, Option.getD_some] at hs
          rw [hs]
      rw [List.getD_eq_getElem?_getD, ((hq.slots _ _).mp hslot).2, List.getD_eq_getElem?_getD, hp]
      exact hwindow.1
    · cases hs

end Plain

section ShortestFirst

open IndexedHeap IndexedHeapExact

variable {Memory : Type} {comp : Memory → ℕ → ℕ → Bool × Memory} {tracks : Bool}
  {queue queue' : ShortestFirstQueue} {memory memory' : Memory} {A : Finset ℕ} {s : ℕ}

/- The keys lead to the states that are held, and there are no others. -/
structure ShortestFirstHolds (tracks : Bool) (queue : ShortestFirstQueue) (A : Finset ℕ) :
    Prop where
  wired : ∃ free, Wired queue.heap free
  values : Lists queue.heap.values A
  named : tracks = true → ∀ s ∈ A, ∃ key, queue.keys s = some key ∧ queue.heap.get key = some s
  unnamed : tracks = true → ∀ s, s ∉ A → queue.keys s = none

theorem lists_card {xs : List ℕ} (h : Lists xs A) : xs.length = A.card := by
  rw [← List.toFinset_card_of_nodup h.nodup]
  congr 1
  ext s
  rw [List.mem_toFinset, h.mem]

theorem ShortestFirstHolds.length (h : ShortestFirstHolds tracks queue A) :
    queue.heap.elements.length = A.card := by
  rw [← lists_card h.values]
  exact (List.length_map _).symm

variable (comp tracks) in
theorem shortestFirst_enqueue (h : ShortestFirstHolds tracks queue A) (hs : s ∉ A)
    (memory : Memory) (hroom : A.card < noFree.toNat) : ∃ queue' memory',
    ShortestFirst.enqueue comp tracks s (queue, memory) = some (queue', memory') ∧
      ShortestFirstHolds tracks queue' (insert s A) := by
  obtain ⟨free, hwired⟩ := h.wired
  obtain ⟨key, heap', memory', free', hinsert, hwired', hfresh, hget, hvalues⟩ :=
    insert_spec comp hwired s memory (h.length ▸ hroom)
  refine ⟨⟨heap', if tracks then Function.update queue.keys s (some key) else queue.keys⟩, memory',
    by rw [ShortestFirst.enqueue, hinsert]; rfl, ⟨free', hwired'⟩, (h.values.cons hs).perm hvalues,
    fun htracks t ht => ?_, fun htracks t ht => ?_⟩
  · dsimp only
    rw [if_pos htracks]
    rcases Finset.mem_insert.mp ht with rfl | ht
    · exact ⟨key, Function.update_self .., (congrFun hget key).trans (Function.update_self ..)⟩
    · have hts : t ≠ s := fun heq => hs (heq ▸ ht)
      obtain ⟨k, hk, hkt⟩ := h.named htracks t ht
      have hne : k ≠ key := by
        rintro rfl
        rw [hfresh] at hkt
        cases hkt
      exact ⟨k, (Function.update_of_ne hts ..).trans hk,
        (congrFun hget k).trans ((Function.update_of_ne hne ..).trans hkt)⟩
  · rw [Finset.mem_insert, not_or] at ht
    dsimp only
    rw [if_pos htracks, Function.update_of_ne ht.1]
    exact h.unnamed htracks t ht.2

variable (comp tracks) in
theorem shortestFirst_full (h : ShortestFirstHolds tracks queue A) (s : ℕ) (memory : Memory)
    (hfull : noFree.toNat ≤ A.card) :
    ShortestFirst.enqueue comp tracks s (queue, memory) = none := by
  unfold ShortestFirst.enqueue
  dsimp only
  rw [insert_panics comp s memory (h.length ▸ hfull)]
  rfl

/- A state takes its own place again. -/
theorem shortestFirst_moved {heap : IndexedHeap ℕ} {free : List ℕ} {node : Node ℕ}
    {elements : List (Node ℕ)} (h : ShortestFirstHolds tracks queue A) (hwired : Wired heap free)
    (hget : queue.heap.get node.key.toNat = some s)
    (hperm : queue.heap.elements.Perm (node :: elements))
    (hperm' : heap.elements.Perm ({ node with value := s } :: elements)) :
    ShortestFirstHolds tracks ⟨heap, queue.keys⟩ A := by
  obtain ⟨free', hwired'⟩ := h.wired
  have hvalue : node.value = s := by
    have hnode := hwired'.get_eq_some.mpr
      ⟨node, hperm.mem_iff.mpr List.mem_cons_self, rfl, rfl⟩
    exact Option.some.inj (hnode.symm.trans hget)
  subst hvalue
  have hsame := hperm'.trans hperm.symm
  have hget' := get_of_perm hwired' hwired hsame
  refine ⟨⟨free, hwired⟩, h.values.perm (hsame.map _), fun htracks t ht => ?_, h.unnamed⟩
  obtain ⟨key, hkey, hkt⟩ := h.named htracks t ht
  exact ⟨key, hkey, (congrFun hget' key).trans hkt⟩

variable (comp tracks) in
theorem shortestFirst_update (h : ShortestFirstHolds tracks queue A) (hs : s ∈ A)
    (memory : Memory) : ∃ queue' memory',
    ShortestFirst.update comp tracks s (queue, memory) = some (queue', memory') ∧
      ShortestFirstHolds tracks queue' A := by
  unfold ShortestFirst.update
  dsimp only
  split
  · next htracks =>
    obtain ⟨key, hkey, hget⟩ := h.named htracks s hs
    obtain ⟨free, hwired⟩ := h.wired
    rw [hkey]
    have hlive : queue.heap.get key ≠ none := by
      rw [hget]
      exact Option.some_ne_none s
    obtain ⟨heap', memory', node, elements, hupdate, hwired', rfl, hperm, hperm'⟩ :=
      update_spec comp hwired s memory hlive
    refine ⟨⟨heap', queue.keys⟩, memory', ?_, shortestFirst_moved h hwired' hget hperm hperm'⟩
    dsimp only
    rw [hupdate]
    rfl
  · exact ⟨queue, memory, rfl, h⟩

variable (comp tracks) in
theorem shortestFirst_dequeue (h : ShortestFirstHolds tracks queue A) (memory : Memory) :
    (A = ∅ ∧ queue.heap.top = none ∧
      ShortestFirst.dequeue comp tracks (queue, memory) = (none, queue, memory)) ∨
    ∃ s queue' memory', s ∈ A ∧ queue.heap.top = some s ∧
      ShortestFirst.dequeue comp tracks (queue, memory) = (some s, queue', memory') ∧
      ShortestFirstHolds tracks queue' (A.erase s) := by
  obtain ⟨free, hwired⟩ := h.wired
  rcases pop_spec comp hwired memory with ⟨hnil, hpop⟩ |
    ⟨node, heap', memory', free', hhead, hpop, hwired', hperm⟩
  · left
    have hcard := h.length
    rw [hnil, List.length_nil] at hcard
    refine ⟨Finset.card_eq_zero.mp hcard.symm, ?_, ?_⟩
    · unfold IndexedHeap.top
      rw [hnil]
      rfl
    · unfold ShortestFirst.dequeue
      dsimp only
      rw [hpop]
  · right
    obtain ⟨hs, hrest⟩ := (h.values.perm (hperm.map (·.value)).symm).tail
    obtain ⟨hget, hget'⟩ := get_erase hwired hwired' hperm
    refine ⟨node.value,
      ⟨heap', if tracks then Function.update queue.keys node.value none else queue.keys⟩, memory',
      hs, ?_, ?_, ⟨free', hwired'⟩, hrest, fun htracks t ht => ?_, fun htracks t ht => ?_⟩
    · unfold IndexedHeap.top
      rw [hhead, Option.map_some]
    · unfold ShortestFirst.dequeue
      dsimp only
      rw [hpop]
    · obtain ⟨hne, ht⟩ := Finset.mem_erase.mp ht
      obtain ⟨key, hkey, hkt⟩ := h.named htracks t ht
      have hkey' : key ≠ node.key.toNat := by
        rintro rfl
        exact hne (Option.some.inj (hkt.symm.trans hget))
      dsimp only
      rw [if_pos htracks]
      exact ⟨key, (Function.update_of_ne hne ..).trans hkey,
        (congrFun hget' key).trans ((Function.update_of_ne hkey' ..).trans hkt)⟩
    · dsimp only
      rw [if_pos htracks, Function.update_apply]
      split
      · rfl
      · next hne =>
        rw [Finset.mem_erase, not_and] at ht
        exact h.unnamed htracks t (ht hne)

theorem shortestFirst_new : ShortestFirstHolds tracks .new ∅ :=
  ⟨⟨[], wired_new⟩, lists_nil, fun _ s hs => absurd hs (Finset.notMem_empty s), fun _ _ _ => rfl⟩

theorem shortestFirst_clear (h : ShortestFirstHolds tracks queue A) :
    ShortestFirstHolds tracks ⟨queue.heap.clear, fun _ => none⟩ ∅ := by
  obtain ⟨free, hwired⟩ := h.wired
  obtain ⟨hnil, free', hwired'⟩ := clear_spec hwired
  refine ⟨⟨free', hwired'⟩, ?_, fun _ s hs => absurd hs (Finset.notMem_empty s), fun _ _ _ => rfl⟩
  unfold IndexedHeap.values
  rw [hnil]
  exact lists_nil

theorem shortestFirst_isEmpty (h : ShortestFirstHolds tracks queue A) :
    queue.heap.elements.isEmpty = decide (A = ∅) := by
  rw [Bool.eq_iff_iff, List.isEmpty_iff, decide_eq_true_eq, ← Finset.card_eq_zero, ← h.length,
    List.length_eq_zero_iff]

/- There are only so many keys. -/
def OutOfKeys (A : Finset ℕ) : Call ℕ → Prop
  | .enqueue _ => noFree.toNat ≤ A.card
  | _ => False

theorem shortestFirst_contract (comp : Memory → ℕ → ℕ → Bool × Memory) (tracks : Bool)
    (Known : ℕ → Prop) : Contract (shortestFirst comp tracks) Known OutOfKeys
      (fun _ _ => True) fun queue A => ShortestFirstHolds tracks queue.1 A := by
  refine ⟨?_, ?_⟩
  · rintro ⟨queue, memory⟩ A call h hproper
    cases call with
    | head =>
      refine Or.inr ⟨id, .state queue.heap.top, (queue, memory), rfl, ?_, h⟩
      rcases shortestFirst_dequeue comp tracks h memory with ⟨hA, htop, -⟩ |
        ⟨s, -, -, hs, htop, -, -⟩
      · exact Or.inl ⟨hA, congrArg Reply.state htop⟩
      · exact Or.inr ⟨s, hs, True.intro, congrArg Reply.state htop⟩
    | isEmpty =>
      exact Or.inr ⟨id, .answer queue.heap.elements.isEmpty, (queue, memory), rfl,
        congrArg Reply.answer (shortestFirst_isEmpty h), h⟩
    | enqueue s =>
      rcases Nat.lt_or_ge A.card noFree.toNat with hroom | hfull
      · obtain ⟨queue', memory', henqueue, hholds⟩ :=
          shortestFirst_enqueue comp tracks h hproper.2 memory hroom
        exact Or.inr ⟨not_le.mpr hroom, .done, (queue', memory'),
          congrArg (Option.map _) henqueue, rfl, hholds⟩
      · exact Or.inl ⟨hfull,
          congrArg (Option.map _) (shortestFirst_full comp tracks h s memory hfull)⟩
    | dequeue =>
      have happly : (shortestFirst comp tracks).apply .dequeue (queue, memory) =
          some (.state (ShortestFirst.dequeue comp tracks (queue, memory)).1,
            (ShortestFirst.dequeue comp tracks (queue, memory)).2) := rfl
      rw [happly]
      rcases shortestFirst_dequeue comp tracks h memory with ⟨rfl, -, hdequeue⟩ |
        ⟨s, queue', memory', hs, -, hdequeue, hholds⟩
      · rw [hdequeue]
        exact Or.inr ⟨id, .state none, (queue, memory), rfl, Or.inl ⟨rfl, rfl⟩, h⟩
      · rw [hdequeue]
        exact Or.inr ⟨id, .state (some s), (queue', memory'), rfl,
          Or.inr ⟨s, hs, True.intro, rfl⟩, hholds⟩
    | update s =>
      obtain ⟨queue', memory', hupdate, hholds⟩ :=
        shortestFirst_update comp tracks h hproper memory
      exact Or.inr ⟨id, .done, (queue', memory'), congrArg (Option.map _) hupdate, rfl, hholds⟩
    | clear => exact Or.inr ⟨id, .done, _, rfl, rfl, shortestFirst_clear h⟩
  · rintro ⟨queue, memory⟩ A state q' h hstate
    obtain ⟨rfl, rfl⟩ := Prod.mk.inj (Option.some.inj hstate)
    rcases shortestFirst_dequeue comp tracks h memory with ⟨-, htop, hdequeue⟩ |
      ⟨s, queue', memory', -, htop, hdequeue, -⟩
    · exact ⟨(queue, memory), congrArg some (htop ▸ hdequeue)⟩
    · exact ⟨(queue', memory'), congrArg some (htop ▸ hdequeue)⟩

end ShortestFirst

end Sicada.QueueExact
