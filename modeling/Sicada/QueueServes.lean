import Sicada.QueueScc

namespace Sicada.QueueServes

open Container Calls QueueCalls QueueFaithful QueueExact QueueRuns QueueDistances QueueScc
  IndexedHeap IndexedHeapExact IndexedHeapRuns HeapOrder

variable {A : Finset ℕ}

section Plain

variable {Q : Type} {d : Queue ℕ Q} {Known : ℕ → Prop} {First : Finset ℕ → ℕ → Prop}
  {Holds : Q → Finset ℕ → Prop} {new : Q}

/- A queue that is cleared to what it was at first. -/
theorem contract_serves (h : Contract d Known (fun _ _ => False) First Holds) (hnew : Holds new ∅)
    (hclear : ∀ q A, Holds q A → d.clear q = new) :
    ServesAlways d Known (fun _ _ => False) First (fun _ : Unit => new) fun _ => () := by
  intro m calls replies q A hrun
  refine h.self.serves ?_ (fun _ => id) (fun _ => ⟨rfl, hnew, hnew⟩) ?_ m hrun
  · rintro q p A ⟨heq, hq, hp⟩
    exact ⟨heq.symm, hp, hq⟩
  · rintro q A ⟨-, hq, -⟩
    rw [hclear q A hq]
    exact ⟨rfl, hnew, hnew⟩

theorem stateOrder_new : StateOrderHolds .new ∅ :=
  ⟨fun s => iff_of_false Bool.false_ne_true (Finset.notMem_empty s),
    fun s hs => absurd hs (Finset.notMem_empty s), fun hlt => absurd hlt (lt_irrefl 0)⟩

theorem stateOrder_clear {queue : StateOrderQueue} (h : StateOrderHolds queue A) :
    queue.clear = .new := by
  have hclear : StateOrderHolds queue.clear ∅ :=
    (stateOrder_faithful fun _ => True).clear queue A h
  refine congrArg (StateOrderQueue.mk · 0 0) (funext fun s => ?_)
  have hnone := (not_congr (hclear.queued s)).mpr (Finset.notMem_empty s)
  exact Bool.eq_false_iff.mpr hnone

theorem topOrder_clear {order : List ℕ} (horder : Positions order) {queue : TopOrderQueue}
    (h : TopOrderHolds order queue A) : queue.clear = .withOrder order := by
  have hclear : TopOrderHolds order queue.clear ∅ := (topOrder_faithful horder).clear queue A h
  have hslots : queue.clear.slots = List.replicate order.length none := by
    refine List.eq_replicate_iff.mpr ⟨hclear.length, fun slot hslot => ?_⟩
    obtain ⟨p, hp⟩ := List.mem_iff_getElem?.mp hslot
    cases slot with
    | none => rfl
    | some s => exact absurd ((hclear.slots p s).mp hp).1 (Finset.notMem_empty s)
  calc queue.clear = ⟨queue.clear.order, queue.clear.slots, 0, 0⟩ := rfl
    _ = .withOrder order := by rw [hclear.same, hslots]; rfl

/- A permutation of the states is a position for each. -/
theorem positions_of_perm {order : List ℕ} (h : order.Perm (List.range order.length)) :
    Positions order := by
  have hnodup : order.Nodup := h.nodup_iff.mpr List.nodup_range
  refine ⟨fun s p hp => ?_, fun s t p hs ht => ?_⟩
  · exact List.mem_range.mp (h.mem_iff.mp (List.mem_of_getElem? hp))
  · exact (List.getElem?_inj (List.getElem?_eq_some_iff.mp hs).1 hnodup).mp (hs.trans ht.symm)

end Plain

section Compared

variable {Memory W : Type} {comp : Memory → ℕ → ℕ → Bool × Memory}

theorem shortestFirst_serves (comp : Memory → ℕ → ℕ → Bool × Memory) (tracks : Bool) :
    ServesAlways (shortestFirst comp tracks) (fun _ => True) OutOfKeys (fun _ _ => True)
      (fun memory => (.new, memory)) Prod.snd := by
  intro m calls replies q A hrun
  refine (shortestFirst_paired comp tracks fun _ => True).serves ?_ (fun _ => id)
    (fun _ => ⟨⟨rfl, rfl⟩, shortestFirst_new, shortestFirst_new⟩) ?_ m hrun
  · rintro q p A ⟨⟨hvalues, hmemory⟩, hq, hp⟩
    exact ⟨⟨hvalues.symm, hmemory.symm⟩, hp, hq⟩
  · rintro ⟨queue, memory⟩ A ⟨-, hq, -⟩
    exact ⟨⟨values_clear queue.heap, rfl⟩, shortestFirst_clear hq, shortestFirst_new⟩

theorem scc_serves (comp : Memory → ℕ → ℕ → Bool × Memory) {scc : List ℕ}
    {kinds : List SccInnerQueue} (hfresh : Fresh scc kinds) :
    ServesAlways (QueueCalls.scc comp) (SccKnown scc kinds) (SccFull scc kinds) (SccFirst scc)
      (fun memory => (.new scc kinds, memory)) Prod.snd := by
  intro m calls replies q A hrun
  refine (scc_paired comp scc kinds).serves ?_ (fun _ => id) (fun _ => ⟨scc_start hfresh, rfl⟩) ?_ m
    hrun
  · rintro q p A ⟨halike, hmemory⟩
    exact ⟨halike.symm, hmemory.symm⟩
  · rintro ⟨queue, memory⟩ A ⟨halike, -⟩
    exact ⟨scc_new halike, rfl⟩

/- A state whose distance is not known comes after those whose distance is. -/
def known (less : W → W → Bool) : Option W → Option W → Bool
  | some x, some y => less x y
  | some _, none => true
  | none, _ => false

instance (less : W → W → Bool) [IsStrictWeakOrder W (Before less)] :
    IsStrictWeakOrder (Option W) (Before (known less)) where
  irrefl x hx := by
    cases x with
    | none => cases hx
    | some x => exact irrefl_of (Before less) x hx
  trans x y z hxy hyz := by
    cases x <;> cases y <;> cases z <;> first
      | exact absurd hxy Bool.false_ne_true
      | exact absurd hyz Bool.false_ne_true
      | rfl
      | exact trans_of (Before less) hxy hyz
  incomp_trans x y z hxy hyz := by
    have htrans := @IsStrictWeakOrder.incomp_trans W (Before less) _
    cases x <;> cases y <;> cases z <;> first
      | exact ⟨Bool.false_ne_true, Bool.false_ne_true⟩
      | exact absurd rfl hxy.1
      | exact absurd rfl hxy.2
      | exact absurd rfl hyz.1
      | exact absurd rfl hyz.2
      | exact htrans _ _ _ hxy hyz

variable {lt : W → W → Bool}

theorem distance_new (distance : ℕ → W) :
    DistanceHolds lt (.new, distance) ∅ :=
  ⟨shortestFirst_new, fun _ _ i _ hi => absurd hi (Nat.not_lt_zero i)⟩

theorem first_of_holds [IsStrictWeakOrder W (Before lt)] {q q' : ShortestFirstQueue × (ℕ → W)}
    {call : Call ℕ} {s : ℕ} (hholds : DistanceHolds lt q A) (hcall : call = .head ∨ call = .dequeue)
    (happly : (shortestFirst (byDistance lt) true).apply call q = some (.state (some s), q')) :
    s ∈ A ∧ ∀ t ∈ A, lt (q.2 t) (q.2 s) = false := by
  obtain ⟨queue, distance⟩ := q
  have hfirst := shortestFirst_dequeue (byDistance lt) true hholds.toShortestFirstHolds distance
  have htop : queue.heap.top = some s := by
    rcases hcall with rfl | rfl
    · obtain ⟨heq, -⟩ := Prod.mk.inj (Option.some.inj happly)
      exact Reply.state.inj heq
    · have hstate : (ShortestFirst.dequeue (byDistance lt) true (queue, distance)).1 = some s :=
        Reply.state.inj (Prod.mk.inj (Option.some.inj happly)).1
      rcases hfirst with ⟨-, -, hnone⟩ | ⟨s', _, _, -, htop, hsome, -⟩
      · rw [hnone] at hstate
        cases hstate
      · rw [hsome] at hstate
        rw [htop]
        exact hstate
  rcases hfirst with ⟨-, hnone, -⟩ | ⟨s', -, -, hs, htop', -, -⟩
  · rw [htop] at hnone
    cases hnone
  · obtain rfl := Option.some.inj (htop'.symm.trans htop)
    exact ⟨hs, fun t ht => top_nearest hholds htop ht⟩

/- What comes first is as near as anything that is held. -/
theorem first_nearest [IsStrictWeakOrder W (Before lt)] {distance : ℕ → W}
    {ops : List (DistanceCall W)} {replies : List (Reply ℕ)} {q q' : ShortestFirstQueue × (ℕ → W)}
    {call : Call ℕ} {s : ℕ}
    (hrun : Runs (applyCall lt) ProperCall heldCall (.new, distance) ∅ ops replies q A)
    (hcall : call = .head ∨ call = .dequeue)
    (happly : (shortestFirst (byDistance lt) true).apply call q = some (.state (some s), q')) :
    s ∈ A ∧ ∀ t ∈ A, lt (q.2 t) (q.2 s) = false := by
  have hholds : DistanceHolds lt q A := by
    refine hrun.invariant (DistanceHolds lt) (fun _ _ _ _ _ hq hproper happly => ?_)
      (distance_new distance)
    exact apply_holds hq hproper happly
  exact first_of_holds hholds hcall happly

/- Whatever is called in whatever order, a queue gives back what was put in, in the order it is
for. -/
theorem queues_faithful {Memory W : Type} (comp : Memory → ℕ → ℕ → Bool × Memory)
    {order : List ℕ} (horder : order.Perm (List.range order.length)) {scc : List ℕ}
    {kinds : List SccInnerQueue} (hfresh : Fresh scc kinds) {less : W → W → Bool}
    (hless : IsStrictWeakOrder W (Before less)) :
    ServesAlways fifo (fun _ => True) (fun _ _ => False) (fun _ _ => True)
      (fun _ : Unit => .new) (fun _ => ()) ∧
    ServesAlways lifo (fun _ => True) (fun _ _ => False) (fun _ _ => True)
      (fun _ : Unit => .new) (fun _ => ()) ∧
    ServesAlways stateOrder (fun _ => True) (fun _ _ => False) (fun A s => ∀ t ∈ A, s ≤ t)
      (fun _ : Unit => .new) (fun _ => ()) ∧
    ServesAlways topOrder (· < order.length) (fun _ _ => False)
      (fun A s => ∀ t ∈ A, order.getD s 0 ≤ order.getD t 0)
      (fun _ : Unit => .withOrder order) (fun _ => ()) ∧
    (∀ tracks, ServesAlways (shortestFirst comp tracks) (fun _ => True) OutOfKeys
      (fun _ _ => True) (fun memory => (.new, memory)) Prod.snd) ∧
    ServesAlways (QueueCalls.scc comp) (SccKnown scc kinds) (SccFull scc kinds) (SccFirst scc)
      (fun memory => (.new scc kinds, memory)) Prod.snd ∧
    ∀ distance ops replies q A call s q',
      Runs (applyCall (known less)) ProperCall heldCall (.new, distance) ∅ ops replies q A →
      (call = .head ∨ call = .dequeue) →
      (shortestFirst (byDistance (known less)) true).apply call q = some (.state (some s), q') →
      s ∈ A ∧ ∀ t ∈ A, known less (q.2 t) (q.2 s) = false := by
  have hpositions := positions_of_perm horder
  exact ⟨contract_serves (fifo_contract _) lists_nil fun _ _ _ => rfl,
    contract_serves (lifo_contract _) lists_nil fun _ _ _ => rfl,
    contract_serves (stateOrder_contract _) stateOrder_new fun _ _ => stateOrder_clear,
    contract_serves (topOrder_contract hpositions) (topOrder_withOrder order)
      fun _ _ => topOrder_clear hpositions,
    shortestFirst_serves comp, scc_serves comp hfresh,
    fun _ _ _ _ _ _ _ _ => first_nearest⟩

/- A distance that gets better lets its state go first. -/
theorem queues_faithful_nearer :
    ∃ q A, Runs (applyCall (known fun x y : ℕ => decide (x < y))) ProperCall heldCall
      (.new, fun s => if s < 2 then some (5 + s) else none) ∅
      [.call (.enqueue 0), .call (.enqueue 1), .call (.enqueue 2), .change 1 (some 3)]
      [.done, .done, .done, .done] q A ∧
      1 ∈ A ∧ ∀ t ∈ A, known (fun x y : ℕ => decide (x < y)) (q.2 t) (q.2 1) = false := by
  have hrun : ∃ q, Runs (applyCall (known fun x y : ℕ => decide (x < y))) ProperCall heldCall
      (.new, fun s => if s < 2 then some (5 + s) else none) ∅
      [.call (.enqueue 0), .call (.enqueue 1), .call (.enqueue 2), .change 1 (some 3)]
      [.done, .done, .done, .done] q {1, 2, 1, 0} ∧ (shortestFirst (byDistance (known fun x y : ℕ =>
        decide (x < y))) true).apply .head q = some (.state (some 1), q) :=
    ⟨_, .cons ⟨True.intro, by decide⟩ rfl (.cons ⟨True.intro, by decide⟩ rfl
      (.cons ⟨True.intro, by decide⟩ rfl (.cons True.intro rfl (.nil _ _)))), rfl⟩
  obtain ⟨q, hrun, hhead⟩ := hrun
  have horder : [2, 0, 1].Perm (List.range [2, 0, 1].length) := by decide
  have hfresh : Fresh [0, 1, 0] [.fifo .new, .trivial .new] := by
    refine ⟨by simp [SccInner.fresh], fun c queue hc s t hs ht => ?_⟩
    have hsingle : ∀ s : ℕ, [0, 1, 0][s]? = some 1 → s = 1 := by
      rintro (_ | _ | _ | s) h <;> simp_all
    rcases c with _ | _ | c
    · cases hc
    · rw [hsingle s hs, hsingle t ht]
    · simp at hc
  have hless : IsStrictWeakOrder ℕ (Before fun x y : ℕ => decide (x < y)) := by
    refine { irrefl := ?_, trans := ?_, incomp_trans := ?_ } <;> simp only [Before, decide_eq_true_eq]
    · exact Nat.lt_irrefl
    · exact fun _ _ _ => Nat.lt_trans
    · omega
  exact ⟨q, _, hrun, (queues_faithful (fun memory _ _ => (memory, !memory)) horder hfresh
    hless).2.2.2.2.2.2 _ _ _ _ _ _ _ _ hrun (Or.inl rfl) hhead⟩

end Compared

end Sicada.QueueServes
