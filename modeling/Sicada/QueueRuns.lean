import Sicada.QueueDistances

namespace Sicada.QueueRuns

open Container Calls QueueCalls QueueFaithful QueueExact QueueDistances IndexedHeap
  IndexedHeapExact

section Heaps

variable {T Memory : Type} {comp : Memory → T → T → Bool × Memory} {heap heap' : IndexedHeap T}
  {node node' : Node T} {hole index : ℕ} {memory : Memory} {value : T}

theorem values_place (index : ℕ) (node : Node T) (heap : IndexedHeap T) :
    (heap.place index node).values = heap.values.set index node.value := by
  unfold IndexedHeap.values
  rw [elements_place, List.map_set]

/- The same values are at the same places, whatever the keys. -/
theorem alike_get (h : heap.values = heap'.values) (i : ℕ) :
    heap.elements[i]?.map (·.value) = heap'.elements[i]?.map (·.value) := by
  have hget := congrArg (fun xs : List T => xs[i]?) h
  unfold IndexedHeap.values at hget
  rwa [List.getElem?_map, List.getElem?_map] at hget

theorem alike_place (hole : ℕ) (h : heap.values = heap'.values)
    (hnode : node.value = node'.value) :
    (heap.place hole node).values = (heap'.place hole node').values := by
  rw [values_place, values_place, h, hnode]

theorem alike_none (h : heap.values = heap'.values) {i : ℕ} (hnone : heap.elements[i]? = none) :
    heap'.elements[i]? = none := by
  have hget := alike_get h i
  rw [hnone, Option.map_none, eq_comm] at hget
  exact Option.map_eq_none_iff.mp hget

theorem alike_some (h : heap.values = heap'.values) {i : ℕ} (hsome : heap.elements[i]? = some node) :
    ∃ node', heap'.elements[i]? = some node' ∧ node'.value = node.value := by
  have hget := alike_get h i
  rw [hsome, Option.map_some, eq_comm] at hget
  exact Option.map_eq_some_iff.mp hget

theorem alike_length (h : heap.values = heap'.values) :
    heap.elements.length = heap'.elements.length := by
  have hlength := congrArg List.length h
  unfold IndexedHeap.values at hlength
  rwa [List.length_map, List.length_map] at hlength

variable (comp) in
theorem moveUp_alike (fuel : ℕ) (h : heap.values = heap'.values) (hnode : node.value = node'.value)
    (memory : Memory) :
    (ComparedHeap.moveUp comp node fuel hole heap memory).1.values =
        (ComparedHeap.moveUp comp node' fuel hole heap' memory).1.values ∧
      (ComparedHeap.moveUp comp node fuel hole heap memory).2 =
        (ComparedHeap.moveUp comp node' fuel hole heap' memory).2 := by
  induction fuel generalizing hole heap heap' memory with
  | zero => exact ⟨alike_place hole h hnode, rfl⟩
  | succ fuel ih =>
    unfold ComparedHeap.moveUp
    by_cases hzero : hole = 0
    · rw [if_pos hzero, if_pos hzero]
      exact ⟨alike_place hole h hnode, rfl⟩
    · rw [if_neg hzero, if_neg hzero]
      cases hparent : heap.elements[(hole - 1) / 2]? with
      | none =>
        rw [alike_none h hparent]
        exact ⟨alike_place hole h hnode, rfl⟩
      | some parent =>
        obtain ⟨parent', hparent', hvalue⟩ := alike_some h hparent
        rw [hparent']
        dsimp only
        rw [hnode, hvalue]
        split
        · exact ih (alike_place hole h hvalue.symm) _
        · exact ⟨alike_place hole h hnode, rfl⟩

variable (comp) in
theorem bestChild_alike (hole : ℕ) (h : heap.values = heap'.values) (memory : Memory) :
    (ComparedHeap.bestChild comp hole heap memory).map (Prod.map id (Prod.map (·.value) id)) =
      (ComparedHeap.bestChild comp hole heap' memory).map (Prod.map id (Prod.map (·.value) id)) := by
  unfold ComparedHeap.bestChild
  rw [Option.map_map, Option.map_map]
  cases hleft : heap.elements[2 * hole + 1]? with
  | none =>
    rw [alike_none h hleft]
    rfl
  | some left =>
    obtain ⟨left', hleft', hvalue⟩ := alike_some h hleft
    rw [hleft', Option.map_some, Option.map_some]
    congr 1
    dsimp only [Function.comp_apply]
    cases hright : heap.elements[2 * hole + 2]? with
    | none =>
      rw [alike_none h hright]
      dsimp only [Prod.map, id]
      rw [hvalue]
    | some right =>
      obtain ⟨right', hright', hvalue'⟩ := alike_some h hright
      rw [hright']
      dsimp only
      rw [hvalue, hvalue']
      split
      · dsimp only [Prod.map, id]
        rw [hvalue']
      · dsimp only [Prod.map, id]
        rw [hvalue]

variable (comp) in
theorem moveDown_alike (fuel : ℕ) (h : heap.values = heap'.values)
    (hnode : node.value = node'.value) (memory : Memory) :
    (ComparedHeap.moveDown comp node fuel hole heap memory).1.values =
        (ComparedHeap.moveDown comp node' fuel hole heap' memory).1.values ∧
      (ComparedHeap.moveDown comp node fuel hole heap memory).2 =
        (ComparedHeap.moveDown comp node' fuel hole heap' memory).2 := by
  induction fuel generalizing hole heap heap' memory with
  | zero => exact ⟨alike_place hole h hnode, rfl⟩
  | succ fuel ih =>
    unfold ComparedHeap.moveDown
    have hbest := bestChild_alike comp hole h memory
    cases hfound : ComparedHeap.bestChild comp hole heap memory with
    | none =>
      rw [hfound, Option.map_none, eq_comm, Option.map_eq_none_iff] at hbest
      rw [hbest]
      exact ⟨alike_place hole h hnode, rfl⟩
    | some found =>
      obtain ⟨best, child, m⟩ := found
      rw [hfound, Option.map_some, eq_comm, Option.map_eq_some_iff] at hbest
      obtain ⟨⟨best', child', m'⟩, hfound', heq⟩ := hbest
      obtain ⟨rfl, hvalue, rfl⟩ : best' = best ∧ child'.value = child.value ∧ m' = m := by
        simpa only [Prod.map, id, Prod.mk.injEq] using heq
      rw [hfound']
      dsimp only
      rw [hnode, hvalue]
      split
      · exact ih (alike_place hole h hvalue.symm) _
      · exact ⟨alike_place hole h hnode, rfl⟩

variable (comp) in
theorem siftUp_alike (index : ℕ) (h : heap.values = heap'.values) (memory : Memory) :
    (ComparedHeap.siftUp comp index heap memory).1.values =
        (ComparedHeap.siftUp comp index heap' memory).1.values ∧
      (ComparedHeap.siftUp comp index heap memory).2 =
        (ComparedHeap.siftUp comp index heap' memory).2 := by
  unfold ComparedHeap.siftUp
  by_cases hzero : index = 0
  · rw [if_pos hzero, if_pos hzero]
    exact ⟨h, rfl⟩
  · rw [if_neg hzero, if_neg hzero]
    cases hnode : heap.elements[index]? with
    | none =>
      rw [alike_none h hnode]
      exact ⟨h, rfl⟩
    | some node =>
      obtain ⟨node', hnode', hvalue⟩ := alike_some h hnode
      rw [hnode']
      exact moveUp_alike comp index h hvalue.symm memory

variable (comp) in
theorem siftDown_alike (index : ℕ) (h : heap.values = heap'.values) (memory : Memory) :
    (ComparedHeap.siftDown comp index heap memory).1.values =
        (ComparedHeap.siftDown comp index heap' memory).1.values ∧
      (ComparedHeap.siftDown comp index heap memory).2 =
        (ComparedHeap.siftDown comp index heap' memory).2 := by
  unfold ComparedHeap.siftDown
  cases hnode : heap.elements[index]? with
  | none =>
    rw [alike_none h hnode]
    exact ⟨h, rfl⟩
  | some node =>
    obtain ⟨node', hnode', hvalue⟩ := alike_some h hnode
    rw [hnode', alike_length h]
    exact moveDown_alike comp _ h hvalue.symm memory

variable (comp) in
theorem resift_alike (index : ℕ) (value : T) (h : heap.values = heap'.values) (memory : Memory) :
    (resift comp index value heap memory).1.values =
        (resift comp index value heap' memory).1.values ∧
      (resift comp index value heap memory).2 = (resift comp index value heap' memory).2 := by
  unfold resift
  by_cases hpos : 0 < index
  · rw [if_pos hpos, if_pos hpos]
    cases hparent : heap.elements[(index - 1) / 2]? with
    | none =>
      rw [alike_none h hparent]
      exact siftDown_alike comp index h memory
    | some parent =>
      obtain ⟨parent', hparent', hvalue⟩ := alike_some h hparent
      rw [hparent']
      dsimp only
      rw [hvalue]
      split
      · exact siftUp_alike comp index h _
      · exact siftDown_alike comp index h _
  · rw [if_neg hpos, if_neg hpos]
    exact siftDown_alike comp index h memory

variable (comp) in
theorem insert_alike {free free' : List ℕ} (h : heap.values = heap'.values)
    (hwired : Wired heap free) (hwired' : Wired heap' free') (value : T) (memory : Memory)
    (hroom : heap.elements.length < noFree.toNat) :
    ∃ key key' next next' memory', ComparedHeap.insert comp value heap memory =
        some (key, next, memory') ∧
      ComparedHeap.insert comp value heap' memory = some (key', next', memory') ∧
      next.values = next'.values := by
  obtain ⟨key, pos, head, -, hinsert, -, -⟩ := insert_wired comp hwired value memory hroom
  obtain ⟨key', pos', head', -, hinsert', -, -⟩ :=
    insert_wired comp hwired' value memory (alike_length h ▸ hroom)
  have hvalues : (IndexedHeap.mk (heap.elements ++ [⟨value, key⟩]) pos head).values =
      (IndexedHeap.mk (heap'.elements ++ [⟨value, key'⟩]) pos' head').values := by
    unfold IndexedHeap.values at h ⊢
    dsimp only
    rw [List.map_append, List.map_append, h]
    rfl
  obtain ⟨hsame, hmemory⟩ := siftUp_alike comp heap.elements.length hvalues memory
  rw [← alike_length h] at hinsert'
  generalize ComparedHeap.siftUp comp heap.elements.length
    ⟨heap.elements ++ [⟨value, key⟩], pos, head⟩ memory = after at hinsert hsame hmemory
  generalize ComparedHeap.siftUp comp heap.elements.length
    ⟨heap'.elements ++ [⟨value, key'⟩], pos', head'⟩ memory = after' at hinsert' hsame hmemory
  obtain ⟨next, memory'⟩ := after
  obtain ⟨next', memory''⟩ := after'
  obtain rfl : memory' = memory'' := hmemory
  exact ⟨key.toNat, key'.toNat, next, next', memory', hinsert, hinsert', hsame⟩

variable (comp) in
theorem pop_alike {free free' : List ℕ} (h : heap.values = heap'.values)
    (hwired : Wired heap free) (hwired' : Wired heap' free') (memory : Memory) :
    (ComparedHeap.pop comp heap memory).1 = (ComparedHeap.pop comp heap' memory).1 ∧
      (ComparedHeap.pop comp heap memory).2.1.values =
        (ComparedHeap.pop comp heap' memory).2.1.values ∧
      (ComparedHeap.pop comp heap memory).2.2 = (ComparedHeap.pop comp heap' memory).2.2 := by
  have hlength := alike_length h
  rcases pop_cases comp hwired memory with ⟨helements, hpop⟩ | ⟨last, helements, hpop⟩ |
    ⟨root, elements, last, helements, hpop, -⟩ <;>
  rcases pop_cases comp hwired' memory with ⟨helements', hpop'⟩ | ⟨last', helements', hpop'⟩ |
    ⟨root', elements', last', helements', hpop', -⟩ <;>
  rw [hpop, hpop'] <;> rw [helements, helements'] at hlength
  case inl.inl => exact ⟨rfl, h, rfl⟩
  case inr.inl.inr.inl =>
    unfold IndexedHeap.values at h
    rw [helements, helements', List.map_singleton, List.map_singleton, List.cons.injEq] at h
    exact ⟨congrArg some h.1, rfl, rfl⟩
  case inr.inr.inr.inr =>
    unfold IndexedHeap.values at h
    rw [helements, helements', List.map_append, List.map_append] at h
    obtain ⟨hfront, hlast⟩ := List.append_inj' h rfl
    obtain ⟨hroot, hrest⟩ := List.cons.inj hfront
    obtain ⟨hlast, -⟩ := List.cons.inj hlast
    refine ⟨congrArg some hroot, siftDown_alike comp 0 ?_ memory⟩
    exact congrArg₂ List.cons hlast hrest
  all_goals simp at hlength

variable (comp) in
/- Under keys that name the same value, the same place is updated. -/
theorem update_alike {free free' : List ℕ} {key key' : ℕ} (h : heap.values = heap'.values)
    (hnodup : heap.values.Nodup) (hwired : Wired heap free) (hwired' : Wired heap' free')
    (hkey : heap.get key = some value) (hkey' : heap'.get key' = some value) (memory : Memory) :
    ∃ next next' memory', ComparedHeap.update comp key value heap memory = some (next, memory') ∧
      ComparedHeap.update comp key' value heap' memory = some (next', memory') ∧
      next.values = next'.values := by
  obtain ⟨i, node, hi, hnode, hupdate⟩ := update_sifts comp hwired value memory
    (hkey ▸ Option.some_ne_none value)
  obtain ⟨j, node', hj, hnode', hupdate'⟩ := update_sifts comp hwired' value memory
    (hkey' ▸ Option.some_ne_none value)
  have hvalue : node.value = value := Option.some.inj ((hwired.get_eq_some.mpr
    ⟨node, List.mem_of_getElem? hi, hnode, rfl⟩).symm.trans hkey)
  have hvalue' : node'.value = value := Option.some.inj ((hwired'.get_eq_some.mpr
    ⟨node', List.mem_of_getElem? hj, hnode', rfl⟩).symm.trans hkey')
  have hi' : heap.values[i]? = some value := by
    rw [IndexedHeap.values, List.getElem?_map, hi, Option.map_some, hvalue]
  have hj' : heap.values[j]? = some value := by
    rw [h, IndexedHeap.values, List.getElem?_map, hj, Option.map_some, hvalue']
  obtain rfl := (List.getElem?_inj (List.getElem?_eq_some_iff.mp hi').1 hnodup).mp
    (hi'.trans hj'.symm)
  have hvalues : ({ heap with elements := heap.elements.set i { node with value := value } } :
      IndexedHeap T).values =
      ({ heap' with elements := heap'.elements.set i { node' with value := value } } :
        IndexedHeap T).values := by
    unfold IndexedHeap.values at h ⊢
    dsimp only
    rw [List.map_set, List.map_set, h]
  obtain ⟨hsame, hmemory⟩ := resift_alike comp i value hvalues memory
  generalize resift comp i value
    { heap with elements := heap.elements.set i { node with value := value } } memory = after
      at hupdate hsame hmemory
  generalize resift comp i value
    { heap' with elements := heap'.elements.set i { node' with value := value } } memory = after'
      at hupdate' hsame hmemory
  obtain ⟨next, memory'⟩ := after
  obtain ⟨next', memory''⟩ := after'
  obtain rfl : memory' = memory'' := hmemory
  exact ⟨next, next', memory', hupdate, hupdate', hsame⟩

end Heaps

section ShortestFirst

variable {Memory : Type} {comp : Memory → ℕ → ℕ → Bool × Memory} {tracks : Bool} {A : Finset ℕ}

/- The same states in the same places of the heap. -/
def SameStates (q p : ShortestFirstQueue × Memory) : Prop :=
  q.1.heap.values = p.1.heap.values ∧ q.2 = p.2

theorem enqueue_same {queue queue' : ShortestFirstQueue} {memory : Memory} {s : ℕ}
    {q : ShortestFirstQueue × Memory} (h : queue.heap.values = queue'.heap.values)
    (hq : ShortestFirstHolds tracks queue A) (hp : ShortestFirstHolds tracks queue' A)
    (henqueue : ShortestFirst.enqueue comp tracks s (queue, memory) = some q) :
    ∃ p, ShortestFirst.enqueue comp tracks s (queue', memory) = some p ∧ SameStates q p := by
  obtain ⟨free, hwired⟩ := hq.wired
  obtain ⟨free', hwired'⟩ := hp.wired
  have hroom : queue.heap.elements.length < noFree.toNat := by
    by_contra hfull
    rw [hq.length, not_lt] at hfull
    rw [shortestFirst_full comp tracks hq s memory hfull] at henqueue
    cases henqueue
  obtain ⟨key, key', next, next', memory', hinsert, hinsert', hsame⟩ :=
    insert_alike comp h hwired hwired' s memory hroom
  unfold ShortestFirst.enqueue at henqueue ⊢
  dsimp only at henqueue ⊢
  rw [hinsert, Option.map_some, Option.some.injEq] at henqueue
  rw [hinsert']
  subst henqueue
  exact ⟨_, rfl, hsame, rfl⟩

theorem update_same {queue queue' : ShortestFirstQueue} {memory : Memory} {s : ℕ}
    {q : ShortestFirstQueue × Memory} (h : queue.heap.values = queue'.heap.values)
    (hq : ShortestFirstHolds tracks queue A) (hp : ShortestFirstHolds tracks queue' A)
    (hs : s ∈ A) (hupdate : ShortestFirst.update comp tracks s (queue, memory) = some q) :
    ∃ p, ShortestFirst.update comp tracks s (queue', memory) = some p ∧ SameStates q p := by
  unfold ShortestFirst.update at hupdate ⊢
  dsimp only at hupdate ⊢
  by_cases htracks : tracks = true
  · rw [if_pos htracks] at hupdate ⊢
    obtain ⟨free, hwired⟩ := hq.wired
    obtain ⟨free', hwired'⟩ := hp.wired
    obtain ⟨key, hkey, hget⟩ := hq.named htracks s hs
    obtain ⟨key', hkey', hget'⟩ := hp.named htracks s hs
    obtain ⟨next, next', memory', hnext, hnext', hsame⟩ :=
      update_alike comp h hq.values.nodup hwired hwired' hget hget' memory
    rw [hkey] at hupdate
    rw [hkey']
    dsimp only at hupdate ⊢
    rw [hnext, Option.map_some, Option.some.injEq] at hupdate
    rw [hnext']
    subst hupdate
    exact ⟨_, rfl, hsame, rfl⟩
  · rw [if_neg htracks] at hupdate ⊢
    cases hupdate
    exact ⟨_, rfl, h, rfl⟩

variable (comp) in
theorem dequeue_same {queue queue' : ShortestFirstQueue} (memory : Memory)
    (h : queue.heap.values = queue'.heap.values)
    (hq : ShortestFirstHolds tracks queue A) (hp : ShortestFirstHolds tracks queue' A) :
    (ShortestFirst.dequeue comp tracks (queue, memory)).1 =
        (ShortestFirst.dequeue comp tracks (queue', memory)).1 ∧
      SameStates (ShortestFirst.dequeue comp tracks (queue, memory)).2
        (ShortestFirst.dequeue comp tracks (queue', memory)).2 := by
  obtain ⟨free, hwired⟩ := hq.wired
  obtain ⟨free', hwired'⟩ := hp.wired
  obtain ⟨hstate, hvalues, hmemory⟩ := pop_alike comp h hwired hwired' memory
  unfold ShortestFirst.dequeue
  dsimp only
  generalize ComparedHeap.pop comp queue.heap memory = popped at hstate hvalues hmemory
  generalize ComparedHeap.pop comp queue'.heap memory = popped' at hstate hvalues hmemory
  obtain ⟨state, next, after⟩ := popped
  obtain ⟨state', next', after'⟩ := popped'
  obtain rfl : state = state' := hstate
  obtain rfl : after = after' := hmemory
  cases state with
  | none => exact ⟨rfl, hvalues, rfl⟩
  | some s => exact ⟨rfl, hvalues, rfl⟩

theorem shortestFirst_same {Known : ℕ → Prop} {q p q' : ShortestFirstQueue × Memory}
    {call : Call ℕ} {reply : Reply ℕ} (h : SameStates q p) (hq : ShortestFirstHolds tracks q.1 A)
    (hp : ShortestFirstHolds tracks p.1 A) (hproper : Proper Known A call)
    (happly : (shortestFirst comp tracks).apply call q = some (reply, q')) :
    ∃ p', (shortestFirst comp tracks).apply call p = some (reply, p') ∧ SameStates q' p' := by
  obtain ⟨queue, memory⟩ := q
  obtain ⟨queue', memory'⟩ := p
  obtain ⟨hvalues, rfl⟩ : queue.heap.values = queue'.heap.values ∧ memory = memory' := h
  cases call with
  | head =>
    cases happly
    have htop := alike_get hvalues 0
    rw [← List.head?_eq_getElem?, ← List.head?_eq_getElem?] at htop
    exact ⟨(queue', memory), congrArg (fun state => some (Reply.state state, _)) htop.symm,
      hvalues, rfl⟩
  | isEmpty =>
    cases happly
    refine ⟨(queue', memory), congrArg (fun answer => some (Reply.answer answer, _)) ?_, hvalues,
      rfl⟩
    rw [shortestFirst_isEmpty hq, shortestFirst_isEmpty hp]
  | enqueue s =>
    obtain ⟨after, henqueue, heq⟩ := Option.map_eq_some_iff.mp happly
    cases heq
    obtain ⟨p', henqueue', hsame⟩ := enqueue_same hvalues hq hp henqueue
    exact ⟨p', congrArg (Option.map _) henqueue', hsame⟩
  | dequeue =>
    obtain ⟨hstate, hsame⟩ := dequeue_same comp memory hvalues hq hp
    cases happly
    exact ⟨_, congrArg (fun state => some (Reply.state state, _)) hstate.symm, hsame⟩
  | update s =>
    obtain ⟨after, hupdate, heq⟩ := Option.map_eq_some_iff.mp happly
    cases heq
    obtain ⟨p', hupdate', hsame⟩ := update_same hvalues hq hp hproper hupdate
    exact ⟨p', congrArg (Option.map _) hupdate', hsame⟩
  | clear =>
    cases happly
    obtain ⟨free, hwired⟩ := hq.wired
    obtain ⟨free', hwired'⟩ := hp.wired
    refine ⟨_, rfl, ?_, rfl⟩
    change queue.heap.clear.values = queue'.heap.clear.values
    rw [values_clear, values_clear]

theorem shortestFirst_paired (comp : Memory → ℕ → ℕ → Bool × Memory) (tracks : Bool)
    (Known : ℕ → Prop) : Paired (shortestFirst comp tracks) Known OutOfKeys (fun _ _ => True)
      fun q p A => SameStates q p ∧ ShortestFirstHolds tracks q.1 A ∧
        ShortestFirstHolds tracks p.1 A :=
  (shortestFirst_contract comp tracks Known).paired
    fun _ _ _ _ _ _ h hq hp hproper happly => shortestFirst_same h hq hp hproper happly

end ShortestFirst

end Sicada.QueueRuns
