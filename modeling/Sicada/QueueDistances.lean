import Sicada.QueueExact

namespace Sicada.QueueDistances

open Container Calls QueueCalls QueueFaithful QueueExact IndexedHeap IndexedHeapExact
  IndexedHeapRuns HeapOrder

variable {W : Type} {lt : W → W → Bool} {queue queue' : ShortestFirstQueue}
  {distance distance' : ℕ → W} {A : Finset ℕ} {s : ℕ}

/- States are compared by their distances, as they are at the time. -/
def byDistance (lt : W → W → Bool) (distance : ℕ → W) (a b : ℕ) : Bool × (ℕ → W) :=
  (lt (distance a) (distance b), distance)

/- A call, or a distance that changes and an update of its state at once. -/
inductive DistanceCall (W : Type)
  | call (call : Call ℕ)
  | change (state : ℕ) (weight : W)

def applyCall (lt : W → W → Bool) : DistanceCall W → ShortestFirstQueue × (ℕ → W) →
    Option (Reply ℕ × ShortestFirstQueue × (ℕ → W))
  | .call call, queue => (shortestFirst (byDistance lt) true).apply call queue
  | .change state weight, (queue, distance) =>
    (shortestFirst (byDistance lt) true).apply (.update state)
      (queue, Function.update distance state weight)

def ProperCall (A : Finset ℕ) : DistanceCall W → Prop
  | .call call => Proper (fun _ => True) A call
  | .change _ _ => True

/- A state that is updated when it is not there is put in. -/
def heldCall (A : Finset ℕ) : DistanceCall W → Reply ℕ → Finset ℕ
  | .call call, reply => held A call reply
  | .change state _, _ => insert state A

/- The heap is in order by the distances there are. -/
structure DistanceHolds (lt : W → W → Bool) (queue : ShortestFirstQueue × (ℕ → W))
    (A : Finset ℕ) : Prop extends ShortestFirstHolds true queue.1 A where
  order : InOrder (fun a b => lt (queue.2 a) (queue.2 b)) queue.1.heap.elements

theorem answers (lt : W → W → Bool) (distance : ℕ → W) :
    Answers (byDistance lt) (fun a b => lt (distance a) (distance b)) (· = distance) := by
  rintro _ a b rfl
  exact ⟨rfl, rfl⟩

/- Another distance for what is not in the heap makes no difference. -/
theorem reorder_inOrder {T : Type} {before before' : T → T → Bool} {elements : List (Node T)}
    (h : InOrder before elements)
    (hsame : ∀ a ∈ elements, ∀ b ∈ elements, before' a.value b.value = before a.value b.value) :
    InOrder before' elements := by
  intro v hv i hpos hi hup
  have hparent : (i - 1) / 2 < elements.length := by omega
  have hi' := List.getElem?_eq_getElem hi
  have hparent' := List.getElem?_eq_getElem hparent
  refine h v hv i hpos hi ?_
  rw [hv i _ hi', hv _ _ hparent'] at hup ⊢
  exact (hsame _ (List.getElem_mem hi) _ (List.getElem_mem hparent)).symm.trans hup

instance [IsStrictWeakOrder W (Before lt)] :
    IsStrictWeakOrder ℕ (Before fun a b => lt (distance a) (distance b)) where
  irrefl a := irrefl_of (Before lt) (distance a)
  trans _ _ _ hab hbc := trans_of (Before lt) hab hbc
  incomp_trans a b c :=
    @IsStrictWeakOrder.incomp_trans _ (Before lt) _ (distance a) (distance b) (distance c)

variable [IsStrictWeakOrder W (Before lt)]

theorem enqueue_order (h : ShortestFirstHolds true queue A)
    (horder : InOrder (fun a b => lt (distance a) (distance b)) queue.heap.elements)
    (henqueue : ShortestFirst.enqueue (byDistance lt) true s (queue, distance) =
      some (queue', distance')) :
    distance' = distance ∧
      InOrder (fun a b => lt (distance a) (distance b)) queue'.heap.elements := by
  obtain ⟨free, hwired⟩ := h.wired
  obtain ⟨⟨key, heap', memory'⟩, hinsert, heq⟩ := Option.map_eq_some_iff.mp henqueue
  cases heq
  have hroom : queue.heap.elements.length < noFree.toNat := by
    by_contra hfull
    rw [insert_panics (byDistance lt) s distance (not_lt.mp hfull)] at hinsert
    cases hinsert
  exact (insert_inOrder (answers lt distance) hwired horder rfl hroom hinsert).symm

/- Only the state whose distance has changed may be out of order. -/
theorem update_order (h : ShortestFirstHolds true queue A) (hs : s ∈ A)
    (horder : InOrder (fun a b => lt (distance a) (distance b)) queue.heap.elements)
    {changed : ℕ → W} (hchanged : ∀ t, t ≠ s → changed t = distance t)
    (hupdate : ShortestFirst.update (byDistance lt) true s (queue, changed) =
      some (queue', distance')) :
    distance' = changed ∧
      InOrder (fun a b => lt (changed a) (changed b)) queue'.heap.elements := by
  obtain ⟨free, hwired⟩ := h.wired
  obtain ⟨key, hkey, hget⟩ := h.named rfl s hs
  unfold ShortestFirst.update at hupdate
  dsimp only at hupdate
  rw [if_pos rfl, hkey] at hupdate
  obtain ⟨⟨heap', memory'⟩, hheap, heq⟩ := Option.map_eq_some_iff.mp hupdate
  cases heq
  have hlive : queue.heap.get key ≠ none := by
    rw [hget]
    exact Option.some_ne_none s
  refine (update_inOrder (answers lt changed) hwired (fun i node hi hnode v hv => ?_) rfl hlive
    hheap).symm
  have hlt := (List.getElem?_eq_some_iff.mp hi).1
  have hvalue : node.value = s := by
    have hname := hwired.get_eq_some.mpr ⟨node, List.mem_of_getElem? hi, hnode, rfl⟩
    exact Option.some.inj (hname.symm.trans hget)
  have hother : ∀ j < queue.heap.elements.length, j ≠ i → changed (v j) = distance (v j) := by
    intro j hj hne
    refine hchanged _ fun heq => hne ?_
    have hj' : queue.heap.values[j]? = some s := by
      rw [IndexedHeap.values, List.getElem?_map, List.getElem?_eq_getElem hj, Option.map_some,
        ← hv j _ (List.getElem?_eq_getElem hj), heq]
    have hi' : queue.heap.values[i]? = some s := by
      rw [IndexedHeap.values, List.getElem?_map, hi, Option.map_some, hvalue]
    exact (List.getElem?_inj (List.getElem?_eq_some_iff.mp hj').1 h.values.nodup).mp
      (hj'.trans hi'.symm)
  refine ((horder v hv).broken hlt).reorder fun j hj k hk hji hki hbefore => ?_
  rwa [Before, hother j hj hji, hother k hk hki] at hbefore

variable (lt) in
theorem dequeue_order (h : ShortestFirstHolds true queue A)
    (horder : InOrder (fun a b => lt (distance a) (distance b)) queue.heap.elements) :
    (ShortestFirst.dequeue (byDistance lt) true (queue, distance)).2.2 = distance ∧
      InOrder (fun a b => lt (distance a) (distance b))
        (ShortestFirst.dequeue (byDistance lt) true (queue, distance)).2.1.heap.elements := by
  obtain ⟨free, hwired⟩ := h.wired
  have hpop := (pop_inOrder (answers lt distance) hwired horder rfl).symm
  unfold ShortestFirst.dequeue
  dsimp only
  split
  · next state heap memory heq => rwa [heq] at hpop
  · next heap memory heq => rwa [heq] at hpop

/- Nothing that is held is nearer than the first. -/
theorem top_nearest (h : DistanceHolds lt (queue, distance) A) (htop : queue.heap.top = some s)
    {t : ℕ} (ht : t ∈ A) : lt (distance t) (distance s) = false := by
  obtain ⟨free, hwired⟩ := h.wired
  obtain ⟨key, -, hget⟩ := h.named rfl t ht
  exact first_minimal (byDistance lt) distance hwired h.order (Or.inl htop) hget

theorem update_of_unnamed (h : ShortestFirstHolds true queue A) (hs : s ∉ A) :
    ShortestFirst.update (byDistance lt) true s (queue, distance) =
      ShortestFirst.enqueue (byDistance lt) true s (queue, distance) := by
  unfold ShortestFirst.update
  dsimp only
  rw [if_pos rfl, h.unnamed rfl s hs]

variable {call : Call ℕ} {reply : Reply ℕ}

theorem contract_holds (h : ShortestFirstHolds true queue A)
    (hproper : Proper (fun _ => True) A call)
    (happly : (shortestFirst (byDistance lt) true).apply call (queue, distance) =
      some (reply, queue', distance')) : ShortestFirstHolds true queue' (held A call reply) := by
  rcases (shortestFirst_contract (byDistance lt) true fun _ => True).step (queue, distance) A call h
    hproper with
    ⟨-, hnone⟩ | ⟨-, reply', q'', hsome, -, hholds⟩
  · exact absurd (happly.symm.trans hnone) (Option.some_ne_none _)
  · obtain ⟨rfl, rfl⟩ := Prod.mk.inj (Option.some.inj (hsome.symm.trans happly))
    exact hholds

theorem call_order {q q' : ShortestFirstQueue × (ℕ → W)} (h : DistanceHolds lt q A)
    (hproper : Proper (fun _ => True) A call)
    (happly : (shortestFirst (byDistance lt) true).apply call q = some (reply, q')) :
    q'.2 = q.2 ∧ InOrder (fun a b => lt (q.2 a) (q.2 b)) q'.1.heap.elements := by
  obtain ⟨queue, distance⟩ := q
  obtain ⟨queue', distance'⟩ := q'
  cases call with
  | head =>
    cases happly
    exact ⟨rfl, h.order⟩
  | isEmpty =>
    cases happly
    exact ⟨rfl, h.order⟩
  | enqueue s =>
    obtain ⟨after, henqueue, heq⟩ := Option.map_eq_some_iff.mp happly
    cases heq
    exact enqueue_order h.toShortestFirstHolds h.order henqueue
  | dequeue =>
    have hafter : (ShortestFirst.dequeue (byDistance lt) true (queue, distance)).2 =
        (queue', distance') := congrArg Prod.snd (Option.some.inj happly)
    have horder := dequeue_order lt h.toShortestFirstHolds h.order
    rwa [hafter] at horder
  | update s =>
    obtain ⟨after, hupdate, heq⟩ := Option.map_eq_some_iff.mp happly
    cases heq
    exact update_order h.toShortestFirstHolds hproper h.order (fun _ _ => rfl) hupdate
  | clear =>
    cases happly
    obtain ⟨free, hwired⟩ := h.wired
    rw [(clear_spec hwired).1]
    exact ⟨rfl, fun v _ i _ hi => absurd hi (Nat.not_lt_zero i)⟩

theorem call_holds {q q' : ShortestFirstQueue × (ℕ → W)} (h : DistanceHolds lt q A)
    (hproper : Proper (fun _ => True) A call)
    (happly : (shortestFirst (byDistance lt) true).apply call q = some (reply, q')) :
    q'.2 = q.2 ∧ DistanceHolds lt q' (held A call reply) := by
  obtain ⟨queue, distance⟩ := q
  obtain ⟨queue', distance'⟩ := q'
  obtain ⟨rfl, horder⟩ : distance' = distance ∧ _ := call_order h hproper happly
  exact ⟨rfl, contract_holds h.toShortestFirstHolds hproper happly, horder⟩

theorem change_holds (h : DistanceHolds lt (queue, distance) A) {weight : W}
    (happly : (shortestFirst (byDistance lt) true).apply (.update s)
      (queue, Function.update distance s weight) = some (reply, queue', distance')) :
    distance' = Function.update distance s weight ∧
      DistanceHolds lt (queue', distance') (insert s A) := by
  have hchanged : ∀ t, t ≠ s → Function.update distance s weight t = distance t :=
    fun t ht => Function.update_of_ne ht ..
  obtain ⟨after, hupdate, heq⟩ := Option.map_eq_some_iff.mp happly
  by_cases hs : s ∈ A
  · have hproper : Proper (fun _ => True) A (.update s) := hs
    have hholds : ShortestFirstHolds true queue' (held A (.update s) reply) :=
      contract_holds h.toShortestFirstHolds hproper happly
    cases heq
    obtain ⟨rfl, horder⟩ := update_order h.toShortestFirstHolds hs h.order hchanged hupdate
    rw [Finset.insert_eq_of_mem hs]
    exact ⟨rfl, hholds, horder⟩
  · cases heq
    have henqueue : ShortestFirst.enqueue (byDistance lt) true s
        (queue, Function.update distance s weight) = some (queue', distance') :=
      (update_of_unnamed h.toShortestFirstHolds hs).symm.trans hupdate
    have hcall : (shortestFirst (byDistance lt) true).apply (.enqueue s)
        (queue, Function.update distance s weight) = some (.done, queue', distance') :=
      congrArg (Option.map _) henqueue
    have hproper : Proper (fun _ => True) A (.enqueue s) := ⟨True.intro, hs⟩
    have hholds : ShortestFirstHolds true queue' (held A (.enqueue s) .done) :=
      contract_holds h.toShortestFirstHolds hproper hcall
    have hfar : ∀ node ∈ queue.heap.elements, node.value ≠ s := fun node hnode hvalue =>
      hs ((h.values.mem s).mp (List.mem_map.mpr ⟨node, hnode, hvalue⟩))
    have hbefore : InOrder (fun a b => lt (Function.update distance s weight a)
        (Function.update distance s weight b)) queue.heap.elements :=
      reorder_inOrder h.order fun a ha b hb => by
        rw [hchanged _ (hfar a ha), hchanged _ (hfar b hb)]
    obtain ⟨rfl, horder⟩ := enqueue_order h.toShortestFirstHolds hbefore henqueue
    exact ⟨rfl, hholds, horder⟩

theorem apply_holds {q q' : ShortestFirstQueue × (ℕ → W)} (h : DistanceHolds lt q A)
    {op : DistanceCall W} (hproper : ProperCall A op)
    (happly : applyCall lt op q = some (reply, q')) :
    DistanceHolds lt q' (heldCall A op reply) := by
  obtain ⟨queue, distance⟩ := q
  obtain ⟨queue', distance'⟩ := q'
  cases op with
  | call call => exact (call_holds h hproper happly).2
  | change s weight => exact (change_holds h happly).2

end Sicada.QueueDistances
