import Sicada.QueueServes
import Sicada.Weights.TropicalWeight

namespace Sicada

/- The queues that refuse some states. -/
namespace QueueWrappers

open Container Calls QueueCalls WeightOps

variable {S Q W : Type} [DecidableEq S]

/- A call, and the distances as they are recorded at the time. -/
structure TimedCall (S W : Type) where
  distance : S → Option W
  call : Call S

/- What a queue that looks at the distances does with a call. -/
def ask (d : (S → Option W) → Queue S Q) (op : TimedCall S W) : Q → Option (Reply S × Q) :=
  (d op.distance).apply op.call

/- The queue of a filter is that of what is below; an update ends there. -/
def filterQueue (filter : S → Bool) (d : Queue S Q) : Queue S Q :=
  { d with
    enqueue := fun state queue => if filter state then d.enqueue state queue else some queue
    update := fun _ queue => some queue }

structure PruneQueue (Q W : Type) where
  queue : Q
  classDistance : List W

namespace PruneQueue

variable [WeightOps W] (less : W → W → Bool) (classFnc : S → ℕ) (threshold : W)
  (distance : S → Option W) (d : Queue S Q)

def new (queue : Q) : PruneQueue Q W := ⟨queue, []⟩

def note (state : S) (queue : PruneQueue Q W) : Option W × PruneQueue Q W :=
  let cls := classFnc state
  let classDistance :=
    queue.classDistance ++ List.replicate (cls + 1 - queue.classDistance.length) zero
  match distance state with
  | none => (none, ⟨queue.queue, classDistance⟩)
  | some x => (some x, ⟨queue.queue,
      if less x (classDistance.getD cls zero) then classDistance.set cls x else classDistance⟩)

def enqueue (state : S) (queue : PruneQueue Q W) : Option (PruneQueue Q W) :=
  match note less classFnc distance state queue with
  | (none, queue) => some queue
  | (some x, queue) =>
    if less x (times (queue.classDistance.getD (classFnc state) zero) threshold) then
      (d.enqueue state queue.queue).map fun inner => ⟨inner, queue.classDistance⟩
    else some queue

def update (state : S) (queue : PruneQueue Q W) : Option (PruneQueue Q W) :=
  let queue := (note less classFnc distance state queue).2
  (d.update state queue.queue).map fun inner => ⟨inner, queue.classDistance⟩

end PruneQueue

def pruneQueue [WeightOps W] (less : W → W → Bool) (classFnc : S → ℕ) (threshold : W)
    (distance : S → Option W) (d : Queue S Q) : Queue S (PruneQueue Q W) where
  enqueue := PruneQueue.enqueue less classFnc threshold distance d
  dequeue queue := (d.dequeue queue.queue).map fun (state, inner) =>
    (state, ⟨inner, queue.classDistance⟩)
  update := PruneQueue.update less classFnc distance d
  clear queue := ⟨d.clear queue.queue, queue.classDistance⟩
  head queue := (d.head queue.queue).map fun (state, inner) =>
    (state, ⟨inner, queue.classDistance⟩)
  isEmpty queue := (d.isEmpty queue.queue).map fun (answer, inner) =>
    (answer, ⟨inner, queue.classDistance⟩)

section Filter

variable (filter : S → Bool) (d : (S → Option W) → Queue S Q)

/- The calls that are kept when some states are enqueued and some are updated. -/
def kept (enqueued updated : S → Bool) (_ : Unit) (op : TimedCall S W) : Bool :=
  match op.call with
  | .enqueue state => enqueued state
  | .update state => updated state
  | _ => true

/- The queue below has nothing to do where one of its states is updated. -/
def Settled (queue : Q) (op : TimedCall S W) : Prop :=
  ∀ state, op.call = .update state → filter state = true →
    (d op.distance).update state queue = some queue

/- A filter drops the updates, which is no loss where they would have moved nothing. -/
theorem filter_seen {ok : Q → TimedCall S W → Prop} {updated : S → Bool} {queue : Q}
    (hok : ∀ queue op state, ok queue op → op.call = .update state → updated state = true →
      (d op.distance).update state queue = some queue) {ops : List (TimedCall S W)}
    (hmeets : Meets (ask fun distance => filterQueue filter (d distance)) ok ops queue) :
    seen .done (ask fun distance => filterQueue filter (d distance)) ops queue =
      seen .done (ask d) (restrict (kept filter updated) (fun a _ => a) ops ()) queue := by
  refine seen_restrict (R := fun p q _ => p = q) ?_ ?_ rfl hmeets
  · rintro p _ a ⟨distance, call⟩ rfl hp hkeep
    have hsame : (filterQueue filter (d distance)).apply call p = (d distance).apply call p := by
      cases call with
      | enqueue state =>
        change Option.map _ (if filter state then _ else some p) = _
        rw [if_pos (show filter state = true from hkeep)]
        rfl
      | update state => exact (congrArg (Option.map _) (hok p _ state hp rfl hkeep)).symm
      | _ => rfl
    cases hresult : (d distance).apply call p with
    | none => exact Or.inl ⟨hsame.trans hresult, hresult⟩
    | some result =>
      exact Or.inr ⟨result.1, result.2, result.2, hsame.trans hresult, hresult, rfl⟩
  · rintro p _ a ⟨distance, call⟩ rfl - hkeep
    cases call with
    | enqueue state =>
      refine ⟨p, ?_, rfl⟩
      change Option.map _ (if filter state then _ else some p) = _
      rw [if_neg (Bool.eq_false_iff.mp (show filter state = false from hkeep))]
      rfl
    | update state => exact ⟨p, rfl, rfl⟩
    | _ => cases hkeep

/- A filter over what is as good as new is as good as a new one. -/
theorem filter_alike {queue fresh : Q} (h : SeenAlike .done (ask d) queue fresh) :
    SeenAlike .done (ask fun distance => filterQueue filter (d distance)) queue fresh := by
  intro ops
  have hdropped : ∀ p, seen .done (ask fun distance => filterQueue filter (d distance)) ops p =
      seen .done (ask d) (restrict (kept filter fun _ => false) (fun a _ => a) ops ()) p := by
    intro p
    refine filter_seen filter d (fun _ _ _ (_ : True) _ hfalse => ?_)
      (meets_of_forall (fun _ _ => True.intro) ops p)
    cases hfalse
  rw [hdropped, hdropped, h]

end Filter

section Prune

variable [WeightOps W] (less : W → W → Bool) (classFnc : S → ℕ) (threshold : W)
  (d : (S → Option W) → Queue S Q)

/- The best distance of each class, once that of a state has been noted. -/
def noted (best : ℕ → W) (distance : S → Option W) (state : S) : ℕ → W :=
  match distance state with
  | some x => if less x (best (classFnc state)) then Function.update best (classFnc state) x else best
  | none => best

/- The best distances of the classes; `cleared` is what a clear makes of them. -/
def bestAfter (cleared : (ℕ → W) → ℕ → W) (best : ℕ → W) (op : TimedCall S W) : ℕ → W :=
  match op.call with
  | .enqueue state | .update state => noted less classFnc best op.distance state
  | .clear => cleared best
  | _ => best

/- All calls but the enqueues of states that are too far behind the best of their class. -/
def withinThreshold (best : ℕ → W) (op : TimedCall S W) : Bool :=
  match op.call with
  | .enqueue state => (op.distance state).any fun x =>
      less x (times (noted less classFnc best op.distance state (classFnc state)) threshold)
  | _ => true

/- The queue is cleared only as long as no class has a distance better than Zero. -/
def Unnoted (queue : PruneQueue Q W) (op : TimedCall S W) : Prop :=
  op.call = .clear → ∀ x ∈ queue.classDistance, x = zero

/- What the queue has noted. -/
def Notes (queue : PruneQueue Q W) (inner : Q) (best : ℕ → W) : Prop :=
  queue.queue = inner ∧ ∀ c, queue.classDistance.getD c zero = best c

variable {less classFnc threshold d} {queue : PruneQueue Q W} {inner : Q} {best : ℕ → W}
  {cleared : (ℕ → W) → ℕ → W} {distance : S → Option W} {state : S}

theorem getD_padded {z : W} (xs : List W) (n c : ℕ) :
    (xs ++ List.replicate n z).getD c z = xs.getD c z := by
  rw [List.getD_eq_getElem?_getD, List.getD_eq_getElem?_getD, List.getElem?_append]
  split
  · rfl
  · next hge =>
    rw [List.getElem?_eq_none (not_lt.mp hge), List.getElem?_replicate]
    split <;> rfl

variable (less classFnc distance state) in
theorem note_spec (h : Notes queue inner best) :
    (PruneQueue.note less classFnc distance state queue).1 = distance state ∧
      Notes (PruneQueue.note less classFnc distance state queue).2 inner
        (noted less classFnc best distance state) := by
  obtain ⟨rfl, hbest⟩ := h
  have hgrown : ∀ c, (queue.classDistance ++ List.replicate
      (classFnc state + 1 - queue.classDistance.length) zero).getD c zero = best c :=
    fun c => (getD_padded queue.classDistance _ c).trans (hbest c)
  have hroom : classFnc state < (queue.classDistance ++ List.replicate
      (classFnc state + 1 - queue.classDistance.length) (zero : W)).length := by
    rw [List.length_append, List.length_replicate]
    omega
  unfold PruneQueue.note noted
  dsimp only
  rw [hgrown]
  cases distance state with
  | none => exact ⟨rfl, rfl, hgrown⟩
  | some x =>
    refine ⟨rfl, rfl, fun c => ?_⟩
    dsimp only
    split
    · rw [List.getD_eq_getElem?_getD, List.getElem?_set, Function.update_apply]
      by_cases hc : c = classFnc state
      · rw [if_pos hc.symm, if_pos hc, if_pos hroom]
        rfl
      · rw [if_neg (Ne.symm hc), if_neg hc, ← List.getD_eq_getElem?_getD, hgrown]
    · exact hgrown c

variable (less classFnc threshold distance state) in
theorem prune_enqueue (h : Notes queue inner best) (below : Queue S Q) :
    ∃ next, Notes next inner (noted less classFnc best distance state) ∧
      PruneQueue.enqueue less classFnc threshold distance below state queue =
        if withinThreshold less classFnc threshold best ⟨distance, .enqueue state⟩
        then (below.enqueue state inner).map fun inner => ⟨inner, next.classDistance⟩
        else some next := by
  obtain ⟨hstate, hnotes⟩ := note_spec less classFnc distance state h
  refine ⟨_, hnotes, ?_⟩
  have hwithin : withinThreshold less classFnc threshold best ⟨distance, .enqueue state⟩ =
      (distance state).any fun x => less x (times (noted less classFnc best distance state
        (classFnc state)) threshold) := rfl
  rw [hwithin]
  unfold PruneQueue.enqueue
  generalize PruneQueue.note less classFnc distance state queue = result at hstate hnotes
  obtain ⟨x, next⟩ := result
  obtain ⟨rfl, hbest⟩ := hnotes
  obtain rfl : x = distance state := hstate
  cases distance state with
  | none => rfl
  | some x =>
    change (if less x (times (next.classDistance.getD (classFnc state) zero) threshold) then _
      else _) = if less x (times (noted less classFnc best distance state (classFnc state))
        threshold) then _ else _
    rw [hbest]

variable (less classFnc distance state) in
theorem prune_update (h : Notes queue inner best) (below : Queue S Q) :
    ∃ next, Notes next inner (noted less classFnc best distance state) ∧
      PruneQueue.update less classFnc distance below state queue =
        (below.update state inner).map fun inner => ⟨inner, next.classDistance⟩ := by
  obtain ⟨-, hnotes⟩ := note_spec less classFnc distance state h
  refine ⟨_, hnotes, ?_⟩
  unfold PruneQueue.update
  dsimp only
  rw [hnotes.1]

/- What is done below is done, and what the classes are at stays as it is. -/
theorem prune_apply {call : Call S} (h : Notes queue inner best)
    (henqueue : ∀ state, call ≠ .enqueue state) (hupdate : ∀ state, call ≠ .update state)
    {best' : ℕ → W} (hbest : ∀ c, queue.classDistance.getD c zero = best' c) :
    ((pruneQueue less classFnc threshold distance (d distance)).apply call queue = none ∧
      (d distance).apply call inner = none) ∨
    ∃ reply queue' inner',
      (pruneQueue less classFnc threshold distance (d distance)).apply call queue =
        some (reply, queue') ∧ (d distance).apply call inner = some (reply, inner') ∧
      Notes queue' inner' best' := by
  obtain ⟨rfl, -⟩ := h
  have hsame : (pruneQueue less classFnc threshold distance (d distance)).apply call queue =
      ((d distance).apply call queue.queue).map fun (reply, inner) =>
        (reply, ⟨inner, queue.classDistance⟩) := by
    cases call with
    | enqueue state => exact absurd rfl (henqueue state)
    | update state => exact absurd rfl (hupdate state)
    | clear => rfl
    | _ =>
      change Option.map _ (Option.map _ _) = Option.map _ (Option.map _ _)
      rw [Option.map_map, Option.map_map]
      rfl
  rw [hsame]
  cases hresult : (d distance).apply call queue.queue with
  | none => exact Or.inl ⟨rfl, rfl⟩
  | some result => exact Or.inr ⟨result.1, _, result.2, rfl, rfl, rfl, hbest⟩

theorem getD_zero {xs : List W} (h : ∀ x ∈ xs, x = zero) (c : ℕ) : xs.getD c zero = zero := by
  rw [List.getD_eq_getElem?_getD]
  cases hget : xs[c]? with
  | none => rfl
  | some x => exact h x (List.mem_of_getElem? hget)

variable (less classFnc threshold d) in
/- Only what is too far behind is missing, as far as a clear makes of what is noted what it should. -/
theorem prune_seen {ok : PruneQueue Q W → TimedCall S W → Prop} (hclear : ∀ queue op best,
      ok queue op → op.call = .clear → (∀ c, queue.classDistance.getD c zero = best c) →
      ∀ c, queue.classDistance.getD c zero = cleared best c)
    {ops : List (TimedCall S W)} (h : Notes queue inner best)
    (hmeets : Meets (ask fun distance => pruneQueue less classFnc threshold distance (d distance))
      ok ops queue) :
    seen .done (ask fun distance => pruneQueue less classFnc threshold distance (d distance)) ops
        queue =
      seen .done (ask d) (restrict (withinThreshold less classFnc threshold)
        (bestAfter less classFnc cleared) ops best) inner := by
  refine seen_restrict (R := Notes) ?_ ?_ h hmeets
  · rintro queue inner best ⟨distance, call⟩ h hok hkeep
    cases call with
    | enqueue state =>
      obtain ⟨next, hnext, henqueue⟩ :=
        prune_enqueue less classFnc threshold distance state h (d distance)
      rw [if_pos hkeep] at henqueue
      cases hresult : (d distance).enqueue state inner with
      | none =>
        rw [hresult] at henqueue
        exact Or.inl ⟨congrArg (Option.map _) henqueue, congrArg (Option.map _) hresult⟩
      | some inner' =>
        rw [hresult] at henqueue
        exact Or.inr ⟨.done, ⟨inner', next.classDistance⟩, inner',
          congrArg (Option.map _) henqueue, congrArg (Option.map _) hresult, rfl, hnext.2⟩
    | update state =>
      obtain ⟨next, hnext, hupdate⟩ := prune_update less classFnc distance state h (d distance)
      cases hresult : (d distance).update state inner with
      | none =>
        rw [hresult] at hupdate
        exact Or.inl ⟨congrArg (Option.map _) hupdate, congrArg (Option.map _) hresult⟩
      | some inner' =>
        rw [hresult] at hupdate
        exact Or.inr ⟨.done, ⟨inner', next.classDistance⟩, inner',
          congrArg (Option.map _) hupdate, congrArg (Option.map _) hresult, rfl, hnext.2⟩
    | clear => exact prune_apply h nofun nofun (hclear queue _ best hok rfl h.2)
    | head => exact prune_apply h nofun nofun h.2
    | isEmpty => exact prune_apply h nofun nofun h.2
    | dequeue => exact prune_apply h nofun nofun h.2
  · rintro queue inner best ⟨distance, call⟩ h - hkeep
    cases call with
    | enqueue state =>
      obtain ⟨next, hnext, henqueue⟩ :=
        prune_enqueue less classFnc threshold distance state h (d distance)
      rw [if_neg (fun hcontra => Bool.false_ne_true (hkeep.symm.trans hcontra))] at henqueue
      exact ⟨next, congrArg (Option.map _) henqueue, hnext⟩
    | _ => cases hkeep

/- Where nothing better than Zero is noted, a queue that is as good as new below is so above. -/
theorem prune_alike {fresh : Q} (hnone : ∀ x ∈ queue.classDistance, x = zero)
    (h : SeenAlike .done (ask d) queue.queue fresh) :
    SeenAlike .done (ask fun distance => pruneQueue less classFnc threshold distance (d distance))
      queue (.new fresh) := by
  intro ops
  have hseen : ∀ {queue : PruneQueue Q W} {inner : Q}, Notes queue inner (fun _ => zero) → _ =
      seen .done (ask d) (restrict (withinThreshold less classFnc threshold)
        (bestAfter less classFnc id) ops fun _ => zero) inner := fun hnotes =>
    prune_seen less classFnc threshold d (fun _ _ _ _ _ hbest => hbest) hnotes 
      (meets_of_forall (fun _ _ => True.intro) ops _)
  have hnew : Notes (.new fresh : PruneQueue Q W) fresh fun _ => zero := ⟨rfl, fun _ => rfl⟩
  rw [hseen ⟨rfl, getD_zero hnone⟩, hseen hnew, h]

end Prune

section Nearest

open HeapOrder QueueDistances QueueServes IndexedHeapRuns

variable {filter : ℕ → Bool} {less : W → W → Bool} {distance distance' : ℕ → Option W}
  {queue queue' : ShortestFirstQueue} {A : Finset ℕ} {op : TimedCall ℕ W} {reply : Reply ℕ}

variable (less) in
/- The nearest first, with keys. -/
def nearestFirst (distance : ℕ → Option W) : Queue ℕ ShortestFirstQueue :=
  (shortestFirst (byDistance (known less)) true).beside distance

/- No distance changes but that of a state that is updated at once. -/
def ProperTimed (a : Finset ℕ × (ℕ → Option W)) (op : TimedCall ℕ W) : Prop :=
  match op.call with
  | .update state => ∀ t, t ≠ state → op.distance t = a.2 t
  | call => op.distance = a.2 ∧ Proper (fun _ => True) a.1 call

variable (filter) in
/- What is held of the states that the filter accepts. -/
def heldTimed (a : Finset ℕ × (ℕ → Option W)) (op : TimedCall ℕ W) (reply : Reply ℕ) :
    Finset ℕ × (ℕ → Option W) :=
  (match op.call with
    | .enqueue state | .update state => if filter state then insert state a.1 else a.1
    | call => held a.1 call reply, op.distance)

/- The nearest of the accepted states that are held comes first. -/
structure NearestHolds (filter : ℕ → Bool) (less : W → W → Bool) (queue : ShortestFirstQueue)
    (a : Finset ℕ × (ℕ → Option W)) : Prop where
  holds : DistanceHolds (known less) (queue, a.2) a.1
  filtered : ∀ s ∈ a.1, filter s = true

variable [IsStrictWeakOrder W (Before less)]

theorem nearest_call {call : Call ℕ} (h : NearestHolds filter less queue (A, distance))
    (hproper : Proper (fun _ => True) A call)
    (haccepted : ∀ state, call = .enqueue state → filter state = true)
    (happly : (nearestFirst less distance).apply call queue = some (reply, queue')) :
    NearestHolds filter less queue' (held A call reply, distance) := by
  obtain ⟨distance', happly⟩ := Queue.beside_apply happly
  obtain ⟨rfl, hholds⟩ : distance' = distance ∧ _ := call_holds h.holds hproper happly
  refine ⟨hholds, fun s hs => ?_⟩
  cases call with
  | enqueue state =>
    rcases Finset.mem_insert.mp hs with rfl | hs
    · exact haccepted s rfl
    · exact h.filtered s hs
  | dequeue =>
    cases reply with
    | state state =>
      cases state with
      | none => exact h.filtered s hs
      | some t => exact h.filtered s (Finset.mem_of_mem_erase hs)
    | _ => exact h.filtered s hs
  | clear => exact absurd hs (Finset.notMem_empty s)
  | _ => exact h.filtered s hs

/- An update that moves nothing finds its state where it belongs. -/
theorem nearest_settled {changed : ℕ → Option W} {s : ℕ}
    (h : NearestHolds filter less queue (A, distance))
    (hchanged : ∀ t, t ≠ s → changed t = distance t) (hs : filter s = true)
    (hsettled : (nearestFirst less changed).update s queue = some queue) :
    NearestHolds filter less queue (insert s A, changed) := by
  have hupdated : changed = Function.update distance s (changed s) := by
    refine (Function.update_eq_iff.mpr ⟨rfl, fun t ht => ?_⟩).symm
    exact (hchanged t ht).symm
  have happly : (nearestFirst less changed).apply (.update s) queue = some (.done, queue) :=
    congrArg (Option.map _) hsettled
  obtain ⟨memory, happly⟩ := Queue.beside_apply happly
  rw [hupdated] at happly
  obtain ⟨rfl, hholds⟩ := change_holds h.holds happly
  rw [← hupdated] at hholds
  refine ⟨hholds, fun t ht => ?_⟩
  rcases Finset.mem_insert.mp ht with rfl | ht
  · exact hs
  · exact h.filtered t ht

theorem nearest_step {a : Finset ℕ × (ℕ → Option W)} (h : NearestHolds filter less queue a)
    (hsettled : Settled filter (nearestFirst less) queue op) (hproper : ProperTimed a op)
    (happly : ask (fun distance => filterQueue filter (nearestFirst less distance)) op queue =
      some (reply, queue')) : NearestHolds filter less queue' (heldTimed filter a op reply) := by
  obtain ⟨A, distance⟩ := a
  obtain ⟨changed, call⟩ := op
  cases call with
  | head =>
    obtain ⟨rfl, hcall⟩ : changed = distance ∧ _ := hproper
    exact nearest_call h hcall nofun happly
  | isEmpty =>
    obtain ⟨rfl, hcall⟩ : changed = distance ∧ _ := hproper
    exact nearest_call h hcall nofun happly
  | dequeue =>
    obtain ⟨rfl, hcall⟩ : changed = distance ∧ _ := hproper
    exact nearest_call h hcall nofun happly
  | clear =>
    obtain ⟨rfl, hcall⟩ : changed = distance ∧ _ := hproper
    exact nearest_call h hcall nofun happly
  | enqueue s =>
    obtain ⟨rfl, hcall⟩ : changed = distance ∧ _ := hproper
    change Option.map _ (if filter s then _ else _) = _ at happly
    unfold heldTimed
    dsimp only
    by_cases hs : filter s = true
    · rw [if_pos hs] at happly ⊢
      exact nearest_call h hcall (by rintro state heq; cases heq; exact hs) happly
    · rw [if_neg hs] at happly ⊢
      cases happly
      exact h
  | update s =>
    cases happly
    unfold heldTimed
    dsimp only
    by_cases hs : filter s = true
    · rw [if_pos hs]
      exact nearest_settled h hproper hs (hsettled s rfl hs)
    · rw [if_neg hs]
      have hnot : s ∉ A := fun hin => hs (h.filtered s hin)
      refine ⟨⟨h.holds.toShortestFirstHolds, reorder_inOrder h.holds.order fun x hx y hy => ?_⟩,
        h.filtered⟩
      have hsame : ∀ node ∈ queue.heap.elements, changed node.value = distance node.value :=
        fun node hnode => hproper _ fun heq =>
          hnot (heq ▸ (h.holds.values.mem _).mp (List.mem_map_of_mem hnode))
      dsimp only
      rw [hsame x hx, hsame y hy]

/- Over the nearest first, a filter still hands out the nearest of what it holds. -/
theorem filter_nearest {ops : List (TimedCall ℕ W)} {replies : List (Reply ℕ)} {call : Call ℕ}
    {s : ℕ} (hrun : Runs (ask fun distance => filterQueue filter (nearestFirst less distance))
      ProperTimed (heldTimed filter) .new (∅, distance) ops replies queue (A, distance'))
    (hmeets : Meets (ask fun distance => filterQueue filter (nearestFirst less distance))
      (Settled filter (nearestFirst less)) ops .new) (hcall : call = .head ∨ call = .dequeue)
    (happly : ask (fun distance => filterQueue filter (nearestFirst less distance))
      ⟨distance', call⟩ queue = some (.state (some s), queue')) :
    s ∈ A ∧ ∀ t ∈ A, known less (distance' t) (distance' s) = false := by
  have hholds : NearestHolds filter less queue (A, distance') := by
    refine Runs.invariant_meets (NearestHolds filter less) ?_ hrun hmeets
      ⟨distance_new distance, fun s hs => absurd hs (Finset.notMem_empty s)⟩
    intro queue a op reply queue' h hok hproper happly
    exact nearest_step h hok hproper happly
  have hbelow : (nearestFirst less distance').apply call queue = some (.state (some s), queue') := by
    rcases hcall with rfl | rfl <;> exact happly
  obtain ⟨memory, hbelow⟩ := Queue.beside_apply hbelow
  exact first_of_holds hholds.holds hcall hbelow

end Nearest

section Faithful

open HeapOrder QueueServes IndexedHeapRuns

variable [WeightOps W]

/- Where no update of an accepted state would move anything, and nothing noted outlives a clear, the
wrappers do nothing but filter. -/
theorem wrappers_only_filter (d : (S → Option W) → Queue S Q) (filter : S → Bool)
    (less : W → W → Bool) (classFnc : S → ℕ) (threshold : W) :
    (∀ ops queue,
      Meets (ask fun distance => filterQueue filter (d distance)) (Settled filter d) ops queue →
      seen .done (ask fun distance => filterQueue filter (d distance)) ops queue =
        seen .done (ask d) (restrict (kept filter filter) (fun a _ => a) ops ()) queue) ∧
    (∀ distance queue fresh, SeenAlike .done (ask d) ((d distance).clear queue) fresh →
      SeenAlike .done (ask fun distance => filterQueue filter (d distance))
        ((filterQueue filter (d distance)).clear queue) fresh) ∧
    (∀ ops queue,
      Meets (ask fun distance => pruneQueue less classFnc threshold distance (d distance)) Unnoted
        ops (.new queue) →
      seen .done (ask fun distance => pruneQueue less classFnc threshold distance (d distance)) ops
          (.new queue) =
        seen .done (ask d) (restrict (withinThreshold less classFnc threshold)
          (bestAfter less classFnc fun _ _ => zero) ops fun _ => zero) queue) ∧
    (∀ distance queue fresh, Unnoted queue ⟨distance, .clear⟩ →
      SeenAlike .done (ask d) ((d distance).clear queue.queue) fresh →
      SeenAlike .done
        (ask fun distance => pruneQueue less classFnc threshold distance (d distance))
        ((pruneQueue less classFnc threshold distance (d distance)).clear queue) (.new fresh)) ∧
    (IsStrictWeakOrder W (Before less) → ∀ (filter : ℕ → Bool) distance ops replies queue A
      distance' call s queue',
      Runs (ask fun distance => filterQueue filter (nearestFirst less distance)) ProperTimed
        (heldTimed filter) .new (∅, distance) ops replies queue (A, distance') →
      Meets (ask fun distance => filterQueue filter (nearestFirst less distance))
        (Settled filter (nearestFirst less)) ops .new →
      (call = .head ∨ call = .dequeue) →
      ask (fun distance => filterQueue filter (nearestFirst less distance)) ⟨distance', call⟩ queue =
        some (.state (some s), queue') →
      s ∈ A ∧ ∀ t ∈ A, known less (distance' t) (distance' s) = false) := by
  refine ⟨fun ops queue => filter_seen filter d fun _ _ state hok => hok state,
    fun distance queue fresh => filter_alike filter d, fun ops queue => ?_,
    fun distance queue fresh hnone halike => ?_,
    fun _ filter distance ops replies queue A distance' call s queue' => filter_nearest⟩
  · refine prune_seen less classFnc threshold d (fun queue op best hok hcall hbest c => ?_)
      ⟨rfl, fun _ => rfl⟩
    exact getD_zero (hok hcall) c
  · have hcleared : ∀ x ∈ (PruneQueue.mk ((d distance).clear queue.queue)
        queue.classDistance).classDistance, x = zero := hnone rfl
    exact prune_alike hcleared halike

def naturalLess [DecidableEq W] (x y : W) : Bool := x ≠ y && plus x y = x

/- The distances of two states. -/
def pairDistance (x y : ℤ) (s : ℕ) : Option (TropicalWeight ℤ) :=
  if s = 0 then some (.ofCost x) else if s = 1 then some (.ofCost y) else none

/- Nothing the filter accepts has changed. -/
theorem wrappers_only_filter_odd :
    seen .done (ask fun _ : ℕ → Option (TropicalWeight ℤ) => filterQueue (fun s => s % 2 = 1) fifo)
      [⟨pairDistance 5 7, .enqueue 0⟩, ⟨pairDistance 5 7, .enqueue 1⟩,
        ⟨pairDistance 3 7, .update 0⟩, ⟨pairDistance 3 7, .dequeue⟩] .new =
      some [.state (some 1)] := by
  have hmeets : Meets (ask fun _ : ℕ → Option (TropicalWeight ℤ) =>
      filterQueue (fun s => s % 2 = 1) fifo) (Settled (fun s => s % 2 = 1) fun _ => fifo)
      [⟨pairDistance 5 7, .enqueue 0⟩, ⟨pairDistance 5 7, .enqueue 1⟩,
        ⟨pairDistance 3 7, .update 0⟩, ⟨pairDistance 3 7, .dequeue⟩] .new :=
    meets_of_forall (fun _ _ _ _ _ => rfl) _ _
  rw [(wrappers_only_filter (fun _ : ℕ → Option (TropicalWeight ℤ) => fifo) (fun s => s % 2 = 1)
    naturalLess (fun _ => 0) (.ofCost 2)).1 _ _ hmeets]
  rfl

/- A filter keeps an update from the queue below, which then hands out the farther state; and a
cleared queue still refuses what is behind the states there were before. -/
theorem wrappers_lose_updates :
    seen .done (ask fun distance => filterQueue (fun _ => true)
        (nearestFirst (naturalLess (W := TropicalWeight ℤ)) distance))
      [⟨pairDistance 5 7, .enqueue 0⟩, ⟨pairDistance 5 7, .enqueue 1⟩,
        ⟨pairDistance 5 3, .update 1⟩, ⟨pairDistance 5 3, .dequeue⟩] .new =
      some [.state (some 0)] ∧
    seen .done (ask (nearestFirst (naturalLess (W := TropicalWeight ℤ))))
      (restrict (kept (fun _ => true) fun _ => true) (fun a _ => a)
        [⟨pairDistance 5 7, .enqueue 0⟩, ⟨pairDistance 5 7, .enqueue 1⟩,
          ⟨pairDistance 5 3, .update 1⟩, ⟨pairDistance 5 3, .dequeue⟩] ()) .new =
      some [.state (some 1)] ∧
    seen .done (ask fun distance => pruneQueue (naturalLess (W := TropicalWeight ℤ)) (fun _ => 0)
        (.ofCost 2) distance fifo)
      [⟨pairDistance 3 9, .enqueue 0⟩, ⟨pairDistance 3 9, .clear⟩, ⟨pairDistance 3 9, .enqueue 1⟩,
        ⟨pairDistance 3 9, .head⟩] (.new .new) = some [.state none] ∧
    seen .done (ask fun distance => pruneQueue (naturalLess (W := TropicalWeight ℤ)) (fun _ => 0)
        (.ofCost 2) distance fifo)
      [⟨pairDistance 3 9, .enqueue 1⟩, ⟨pairDistance 3 9, .head⟩] (.new .new) =
        some [.state (some 1)] := by
  refine ⟨?_, ?_, ?_, ?_⟩ <;> decide

end Faithful

end QueueWrappers

end Sicada
