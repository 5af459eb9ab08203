import Sicada.QueueRuns

namespace Sicada.QueueScc

open Container Calls QueueCalls QueueFaithful QueueExact QueueRuns IndexedHeap

section Inner

variable {Memory : Type} {comp : Memory → ℕ → ℕ → Bool × Memory} {Known : ℕ → Prop}
  {kind : SccInnerQueue} {A : Finset ℕ}

theorem trivial_contract (Known : ℕ → Prop) : Contract trivial Known (fun _ _ => False)
    (fun _ _ => True) (TrivialHolds Known) := by
  refine plain_contract (trivial_faithful Known) (fun q A _ => ⟨_, rfl⟩) (fun q A hq => ?_)
    fun _ _ _ _ _ => True.intro
  rw [← lists_isEmpty hq.1]
  cases q.front <;> simp

/- The queue of a component and another of its kind; only a heap may look different. -/
def InnerAlike (Known : ℕ → Prop) (kind : SccInnerQueue) (q p : SccInnerQueue × Memory)
    (A : Finset ℕ) : Prop :=
  match q, p with
  | (.trivial queue, m), (.trivial queue', m') =>
    kind = .trivial .new ∧ m = m' ∧ queue = queue' ∧ TrivialHolds Known queue A
  | (.fifo queue, m), (.fifo queue', m') =>
    kind = .fifo .new ∧ m = m' ∧ queue = queue' ∧ Lists queue.states A
  | (.lifo queue, m), (.lifo queue', m') =>
    kind = .lifo .new ∧ m = m' ∧ queue = queue' ∧ Lists queue.states A
  | (.shortestFirst queue, m), (.shortestFirst queue', m') =>
    kind = .shortestFirst .new ∧ SameStates (queue, m) (queue', m') ∧ ShortestFirstHolds false queue A ∧
      ShortestFirstHolds false queue' A
  | _, _ => False

/- What is asked of a component is asked of the queue it has. -/
theorem apply_trivial (call : Call ℕ) (queue : TrivialQueue) (memory : Memory) :
    (sccInner comp).apply call (.trivial queue, memory) =
      (trivial.apply call queue).map fun (reply, queue) => (reply, .trivial queue, memory) := by
  cases call <;> rfl

theorem apply_fifo (call : Call ℕ) (queue : FifoQueue) (memory : Memory) :
    (sccInner comp).apply call (.fifo queue, memory) =
      (fifo.apply call queue).map fun (reply, queue) => (reply, .fifo queue, memory) := by
  cases call <;> rfl

theorem apply_lifo (call : Call ℕ) (queue : LifoQueue) (memory : Memory) :
    (sccInner comp).apply call (.lifo queue, memory) =
      (lifo.apply call queue).map fun (reply, queue) => (reply, .lifo queue, memory) := by
  cases call <;> rfl

theorem apply_shortestFirst (call : Call ℕ) (queue : ShortestFirstQueue) (memory : Memory) :
    (sccInner comp).apply call (.shortestFirst queue, memory) =
      ((shortestFirst comp false).apply call (queue, memory)).map
        (Prod.map id (Prod.map .shortestFirst id)) := by
  cases call with
  | enqueue s =>
    change (Option.map _ (Option.map _ _)) = Option.map _ (Option.map _ _)
    rw [Option.map_map, Option.map_map]
    rfl
  | update s => rfl
  | head => rfl
  | isEmpty => rfl
  | dequeue => rfl
  | clear => rfl

/- A queue that compares nothing does so next to any memory. -/
theorem inner_plain {Q : Type} {d : Queue ℕ Q} {Holds : Q → Finset ℕ → Prop}
    {wrap : Q → SccInnerQueue} (h : Contract d Known (fun _ _ => False) (fun _ _ => True) Holds)
    (happly : ∀ call queue (memory : Memory), (sccInner comp).apply call (wrap queue, memory) =
      (d.apply call queue).map fun (reply, queue) => (reply, wrap queue, memory))
    {queue : Q} (hqueue : Holds queue A) {call : Call ℕ} (hproper : Proper Known A call)
    (memory : Memory) : ∃ reply queue', (sccInner comp).apply call (wrap queue, memory) =
      some (reply, wrap queue', memory) ∧ Allowed (fun _ => True) A call reply ∧
        Holds queue' (held A call reply) := by
  rcases h.step queue A call hqueue hproper with ⟨hfull, -⟩ |
    ⟨-, reply, queue', hsome, hreply, hholds⟩
  · exact absurd hfull id
  · refine ⟨reply, queue', ?_, hreply, hholds⟩
    rw [happly, hsome]
    rfl

theorem inner_paired (comp : Memory → ℕ → ℕ → Bool × Memory) (Known : ℕ → Prop)
    (kind : SccInnerQueue) : ∀ q p A call, InnerAlike Known kind q p A → Proper Known A call →
    ((kind = .shortestFirst .new ∧ OutOfKeys A call) ∧ (sccInner comp).apply call q = none ∧
      (sccInner comp).apply call p = none) ∨
    ¬ (kind = .shortestFirst .new ∧ OutOfKeys A call) ∧ ∃ reply q' p',
      (sccInner comp).apply call q = some (reply, q') ∧
      (sccInner comp).apply call p = some (reply, p') ∧ Allowed (fun _ => True) A call reply ∧
        InnerAlike Known kind q' p' (held A call reply) := by
  rintro ⟨inner, memory⟩ ⟨inner', memory'⟩ A call h hproper
  cases inner with
  | trivial queue =>
    cases inner' with
    | trivial queue' =>
      obtain ⟨rfl, rfl, rfl, hholds⟩ := h
      obtain ⟨reply, next, happly, hreply, hnext⟩ :=
        inner_plain (trivial_contract Known) apply_trivial hholds hproper memory
      exact Or.inr ⟨by simp, reply, _, _, happly, happly, hreply, rfl, rfl, rfl, hnext⟩
    | _ => exact absurd h id
  | fifo queue =>
    cases inner' with
    | fifo queue' =>
      obtain ⟨rfl, rfl, rfl, hholds⟩ := h
      obtain ⟨reply, next, happly, hreply, hnext⟩ :=
        inner_plain (fifo_contract Known) apply_fifo hholds hproper memory
      exact Or.inr ⟨by simp, reply, _, _, happly, happly, hreply, rfl, rfl, rfl, hnext⟩
    | _ => exact absurd h id
  | lifo queue =>
    cases inner' with
    | lifo queue' =>
      obtain ⟨rfl, rfl, rfl, hholds⟩ := h
      obtain ⟨reply, next, happly, hreply, hnext⟩ :=
        inner_plain (lifo_contract Known) apply_lifo hholds hproper memory
      exact Or.inr ⟨by simp, reply, _, _, happly, happly, hreply, rfl, rfl, rfl, hnext⟩
    | _ => exact absurd h id
  | shortestFirst queue =>
    cases inner' with
    | shortestFirst queue' =>
      obtain ⟨rfl, halike⟩ := h
      rw [apply_shortestFirst, apply_shortestFirst]
      rcases (shortestFirst_paired comp false Known).step _ _ A call halike hproper with
        ⟨hfull, hnone, hnone'⟩ | ⟨hroom, reply, q', p', hsome, hsome', hreply, hnext⟩
      · rw [hnone, hnone']
        exact Or.inl ⟨⟨rfl, hfull⟩, rfl, rfl⟩
      · rw [hsome, hsome']
        exact Or.inr ⟨fun hboth => hroom hboth.2, reply, _, _, rfl, rfl, hreply, rfl, hnext⟩
    | _ => exact absurd h id

end Inner

section Scc

variable {Memory : Type} {comp : Memory → ℕ → ℕ → Bool × Memory} {scc : List ℕ}
  {kinds : List SccInnerQueue} {queue queue' : SccQueue} {memory memory' : Memory} {A A' : Finset ℕ}
  {s c : ℕ} {i j : SccInnerQueue}

/- The components have queues of the same kinds, and each holds what is in its component. -/
structure SccAlike (scc : List ℕ) (kinds : List SccInnerQueue) (queue queue' : SccQueue) (A : Finset ℕ) :
    Prop where
  left : queue.scc = scc
  right : queue'.scc = scc
  front : queue'.front = queue.front
  back : queue'.back = queue.back
  bound : queue.back ≤ kinds.length
  window : ∀ s ∈ A, ∃ c : ℕ, scc[s]? = some c ∧ queue.front ≤ c ∧ c < queue.back
  inner : ∀ (c : ℕ) kind, kinds[c]? = some kind → ∃ i j, queue.queues[c]? = some i ∧
    queue'.queues[c]? = some j ∧ InnerAlike (scc[·]? = some c) kind (i, ()) (j, ()) (within scc A c)

variable {Known : ℕ → Prop} {kind : SccInnerQueue}

/- The memory is no part of what is alike. -/
theorem innerAlike_memory {Memory Memory' : Type} {i j : SccInnerQueue} {A : Finset ℕ}
    {m m' : Memory} (h : InnerAlike Known kind (i, m) (j, m') A) (n : Memory') :
    InnerAlike Known kind (i, n) (j, n) A := by
  cases i <;> cases j <;> first
    | exact absurd h id
    | exact ⟨h.1, rfl, h.2.2⟩
    | exact ⟨h.1, ⟨h.2.1.1, rfl⟩, h.2.2⟩

/- One component has changed. -/
theorem SccAlike.set (h : SccAlike scc kinds queue queue' A) (front back : ℕ)
    (hothers : ∀ c', c ≠ c' → within scc A' c' = within scc A c')
    (hinner : ∀ kind, kinds[c]? = some kind → InnerAlike (scc[·]? = some c) kind (i, ()) (j, ())
      (within scc A' c)) (hbound : back ≤ kinds.length)
    (hwindow : ∀ s ∈ A', ∃ c : ℕ, scc[s]? = some c ∧ front ≤ c ∧ c < back) :
    SccAlike scc kinds ⟨queue.queues.set c i, queue.scc, front, back⟩
      ⟨queue'.queues.set c j, queue'.scc, front, back⟩ A' := by
  refine ⟨h.left, h.right, rfl, rfl, hbound, hwindow, fun c' kind hkind => ?_⟩
  obtain ⟨i', j', hi, hj, halike⟩ := h.inner c' kind hkind
  by_cases heq : c = c'
  · subst heq
    exact ⟨i, j, List.getElem?_set_self (List.getElem?_eq_some_iff.mp hi).1,
      List.getElem?_set_self (List.getElem?_eq_some_iff.mp hj).1, hinner kind hkind⟩
  · refine ⟨i', j', ?_, ?_, ?_⟩
    · rw [List.getElem?_set_ne heq, hi]
    · rw [List.getElem?_set_ne heq, hj]
    · rw [hothers c' heq]
      exact halike

theorem innerAlike_isEmpty {m m' : Memory} (h : InnerAlike Known kind (i, m) (j, m') A) :
    (i.isEmpty = true ↔ A = ∅) ∧ (j.isEmpty = true ↔ A = ∅) := by
  cases i <;> cases j <;> first
    | exact absurd h id
    | skip
  case trivial.trivial queue queue' =>
    obtain ⟨-, -, rfl, hholds⟩ := h
    have hempty : queue.front.isNone = true ↔ A = ∅ := by
      rw [← lists_isEmpty hholds.1]
      cases queue.front <;> simp
    exact ⟨hempty, hempty⟩
  case fifo.fifo queue queue' =>
    obtain ⟨-, -, rfl, hholds⟩ := h
    have hempty : queue.states.isEmpty = true ↔ A = ∅ := by
      rw [List.isEmpty_iff, lists_isEmpty hholds]
    exact ⟨hempty, hempty⟩
  case lifo.lifo queue queue' =>
    obtain ⟨-, -, rfl, hholds⟩ := h
    have hempty : queue.states.isEmpty = true ↔ A = ∅ := by
      rw [List.isEmpty_iff, lists_isEmpty hholds]
    exact ⟨hempty, hempty⟩
  case shortestFirst.shortestFirst queue queue' =>
    obtain ⟨-, -, hholds, hholds'⟩ := h
    unfold SccInnerQueue.isEmpty
    dsimp only
    rw [shortestFirst_isEmpty hholds, shortestFirst_isEmpty hholds', decide_eq_true_eq]
    exact ⟨Iff.rfl, Iff.rfl⟩

theorem nextIn_congr {p p' : ℕ → Bool} {front back : ℕ}
    (h : ∀ c, front ≤ c → c < back → p c = p' c) : nextIn p front back = nextIn p' front back := by
  unfold nextIn
  rw [List.find?_congr fun c hc => ?_]
  rw [List.mem_range'_1] at hc
  exact h c hc.1 (by omega)

theorem within_nonempty : (within scc A c).Nonempty ↔ ∃ s ∈ A, scc[s]? = some c := by
  unfold within
  constructor
  · rintro ⟨s, hs⟩
    exact ⟨s, Finset.mem_filter.mp hs⟩
  · rintro ⟨s, hs⟩
    exact ⟨s, Finset.mem_filter.mpr hs⟩

theorem not_isEmpty_iff {empty : Bool} (h : empty = true ↔ A = ∅) :
    (!empty) = true ↔ A.Nonempty := by
  rw [Finset.nonempty_iff_ne_empty, ne_eq, ← h, Bool.not_eq_true', Bool.eq_false_iff]

/- Both pass over the components that hold nothing, to the first that holds something. -/
theorem SccAlike.skipEmpty (h : SccAlike scc kinds queue queue' A) :
    SccAlike scc kinds queue.skipEmpty queue'.skipEmpty A ∧
      (queue.skipEmpty.front < queue.skipEmpty.back →
        (within scc A queue.skipEmpty.front).Nonempty) := by
  have hempty : ∀ c < kinds.length,
      ((queue.queues[c]?.map fun inner => !inner.isEmpty).getD true = true ↔
        (within scc A c).Nonempty) ∧
      ((queue'.queues[c]?.map fun inner => !inner.isEmpty).getD true = true ↔
        (within scc A c).Nonempty) := by
    intro c hc
    obtain ⟨i, j, hi, hj, halike⟩ := h.inner c _ (List.getElem?_eq_getElem hc)
    obtain ⟨hi', hj'⟩ := innerAlike_isEmpty halike
    rw [hi, hj, Option.map_some, Option.map_some, Option.getD_some, Option.getD_some]
    exact ⟨not_isEmpty_iff hi', not_isEmpty_iff hj'⟩
  have hbound := h.bound
  obtain ⟨-, hskipped, hnext⟩ := nextIn_spec
    (fun c => (queue.queues[c]?.map fun inner => !inner.isEmpty).getD true) queue.front queue.back
  refine ⟨⟨h.left, h.right, ?_, h.back, h.bound, fun s hs => ?_, h.inner⟩, fun hlt => ?_⟩
  · unfold SccQueue.skipEmpty
    dsimp only
    rw [h.front, h.back]
    refine nextIn_congr fun c _ hc => ?_
    rw [Bool.eq_iff_iff, (hempty c (by omega)).1, (hempty c (by omega)).2]
  · obtain ⟨c, hc, hwindow⟩ := h.window s hs
    refine ⟨c, hc, ?_, hwindow.2⟩
    by_contra hless
    have hfalse := hskipped c hwindow.1 (Nat.lt_of_not_le hless)
    rw [(hempty c (by omega)).1.mpr (within_nonempty.mpr ⟨s, hs, hc⟩)] at hfalse
    cases hfalse
  · have hfront : queue.skipEmpty.front < kinds.length := lt_of_lt_of_le hlt hbound
    exact (hempty _ hfront).1.mp (hnext hlt)

def SccKnown (scc : List ℕ) (kinds : List SccInnerQueue) (s : ℕ) : Prop :=
  ∃ c : ℕ, scc[s]? = some c ∧ c < kinds.length

/- A heap of one of the components has run out of keys. -/
def SccFull (scc : List ℕ) (kinds : List SccInnerQueue) (A : Finset ℕ) : Call ℕ → Prop
  | .enqueue s => ∃ c : ℕ, scc[s]? = some c ∧ kinds[c]? = some (.shortestFirst .new) ∧
      noFree.toNat ≤ (within scc A c).card
  | _ => False

/- A state of the first component that holds one. -/
def SccFirst (scc : List ℕ) (A : Finset ℕ) (s : ℕ) : Prop :=
  ∀ t ∈ A, scc.getD s 0 ≤ scc.getD t 0

theorem innerAlike_same {m m' : Memory} (h : InnerAlike Known kind (i, m) (j, m') A) : m = m' := by
  cases i <;> cases j <;> first
    | exact absurd h id
    | exact h.2.1.2
    | exact h.2.1

variable (comp) in
theorem inner_enqueue {Known : ℕ → Prop} {kind : SccInnerQueue}
    (h : InnerAlike Known kind (i, ()) (j, ()) A) (memory : Memory) (hs : Known s)
    (hnot : s ∉ A) :
    ((kind = .shortestFirst .new ∧ noFree.toNat ≤ A.card) ∧ SccInner.enqueue comp s (i, memory) = none ∧
      SccInner.enqueue comp s (j, memory) = none) ∨
    ¬ (kind = .shortestFirst .new ∧ noFree.toNat ≤ A.card) ∧ ∃ i' j' memory',
      SccInner.enqueue comp s (i, memory) = some (i', memory') ∧
      SccInner.enqueue comp s (j, memory) = some (j', memory') ∧
      InnerAlike Known kind (i', ()) (j', ()) (insert s A) := by
  have hproper : Proper Known A (.enqueue s) := ⟨hs, hnot⟩
  rcases inner_paired comp Known kind _ _ _ _ (innerAlike_memory h memory) hproper with
    ⟨hout, hnone, hnone'⟩ | ⟨hroom, reply, ⟨i', m⟩, ⟨j', m'⟩, hsome, hsome', -, hnext⟩
  · exact Or.inl ⟨hout, Option.map_eq_none_iff.mp hnone, Option.map_eq_none_iff.mp hnone'⟩
  · obtain rfl := innerAlike_same hnext
    obtain ⟨after, hafter, heq⟩ := Option.map_eq_some_iff.mp hsome
    obtain ⟨after', hafter', heq'⟩ := Option.map_eq_some_iff.mp hsome'
    cases heq
    cases heq'
    exact Or.inr ⟨hroom, i', j', m, hafter, hafter', innerAlike_memory hnext ()⟩

variable (comp) in
theorem inner_dequeue {Known : ℕ → Prop} {kind : SccInnerQueue}
    (h : InnerAlike Known kind (i, ()) (j, ()) A) (memory : Memory) (hA : A.Nonempty) :
    ∃ s ∈ A, ∃ i' j' memory', SccInner.dequeue comp (i, memory) = some (some s, i', memory') ∧
      SccInner.dequeue comp (j, memory) = some (some s, j', memory') ∧
      InnerAlike Known kind (i', ()) (j', ()) (A.erase s) := by
  rcases inner_paired comp Known kind _ _ _ .dequeue (innerAlike_memory h memory) True.intro
    with ⟨hout, -, -⟩ | ⟨-, reply, ⟨i', m⟩, ⟨j', m'⟩, hsome, hsome', hreply, hnext⟩
  · exact absurd hout.2 id
  · rcases hreply with ⟨hempty, -⟩ | ⟨s, hs, -, rfl⟩
    · exact absurd hempty hA.ne_empty
    · obtain rfl := innerAlike_same hnext
      obtain ⟨⟨state, after⟩, hafter, heq⟩ := Option.map_eq_some_iff.mp hsome
      obtain ⟨⟨state', after'⟩, hafter', heq'⟩ := Option.map_eq_some_iff.mp hsome'
      cases heq
      cases heq'
      exact ⟨s, hs, i', j', m, hafter, hafter', innerAlike_memory hnext ()⟩

variable (comp) in
theorem inner_update {Known : ℕ → Prop} {kind : SccInnerQueue}
    (h : InnerAlike Known kind (i, ()) (j, ()) A) (memory : Memory) (hs : s ∈ A) :
    ∃ i' j' memory', SccInner.update comp s (i, memory) = some (i', memory') ∧
      SccInner.update comp s (j, memory) = some (j', memory') ∧
      InnerAlike Known kind (i', ()) (j', ()) A := by
  have hproper : Proper Known A (.update s) := hs
  rcases inner_paired comp Known kind _ _ _ _ (innerAlike_memory h memory) hproper with
    ⟨hout, -, -⟩ | ⟨-, reply, ⟨i', m⟩, ⟨j', m'⟩, hsome, hsome', -, hnext⟩
  · exact absurd hout.2 id
  · obtain rfl := innerAlike_same hnext
    obtain ⟨after, hafter, heq⟩ := Option.map_eq_some_iff.mp hsome
    obtain ⟨after', hafter', heq'⟩ := Option.map_eq_some_iff.mp hsome'
    cases heq
    cases heq'
    exact ⟨i', j', m, hafter, hafter', innerAlike_memory hnext ()⟩

variable (comp) in
theorem scc_enqueue (h : SccAlike scc kinds queue queue' A) (memory : Memory)
    (hs : SccKnown scc kinds s) (hnot : s ∉ A) :
    (SccFull scc kinds A (.enqueue s) ∧ Scc.enqueue comp s (queue, memory) = none ∧
      Scc.enqueue comp s (queue', memory) = none) ∨
    ¬ SccFull scc kinds A (.enqueue s) ∧ ∃ next next' memory',
      Scc.enqueue comp s (queue, memory) = some (next, memory') ∧
      Scc.enqueue comp s (queue', memory) = some (next', memory') ∧
      SccAlike scc kinds next next' (insert s A) := by
  obtain ⟨c, hc, hlt⟩ := hs
  obtain ⟨kind, hkind⟩ : ∃ kind, kinds[c]? = some kind := ⟨_, List.getElem?_eq_getElem hlt⟩
  obtain ⟨i, j, hi, hj, halike⟩ := h.inner c kind hkind
  have hbound := h.bound
  have hfull : SccFull scc kinds A (.enqueue s) ↔
      kind = .shortestFirst .new ∧ noFree.toNat ≤ (within scc A c).card := by
    unfold SccFull
    dsimp only
    rw [hc]
    constructor
    · rintro ⟨c', hc', hkind', hcard⟩
      obtain rfl := Option.some.inj hc'
      exact ⟨Option.some.inj (hkind.symm.trans hkind'), hcard⟩
    · rintro ⟨rfl, hcard⟩
      exact ⟨c, rfl, hkind, hcard⟩
  unfold Scc.enqueue Scc.onInner
  dsimp only
  rw [h.left, h.right, hc, Option.bind_some, Option.bind_some, h.front, h.back, hi, hj,
    Option.bind_some, Option.bind_some, hfull]
  rcases inner_enqueue comp halike memory hc (fun hin => hnot (Finset.mem_filter.mp hin).1) with
    ⟨hout, hnone, hnone'⟩ | ⟨hroom, i', j', m, hsome, hsome', hnext⟩
  · rw [hnone, hnone']
    exact Or.inl ⟨hout, rfl, rfl⟩
  · rw [hsome, hsome']
    refine Or.inr ⟨hroom, _, _, m, rfl, rfl, ?_⟩
    rw [← within_insert_self hc] at hnext
    have hset := h.set (if queue.back ≤ queue.front then c else min queue.front c)
      (if queue.back ≤ queue.front then c + 1 else max queue.back (c + 1))
      (fun c' hne => within_insert_of_ne hc hne)
      (fun kind' hkind' => Option.some.inj (hkind.symm.trans hkind') ▸ hnext)
      (by split <;> omega) fun t ht => ?_
    · rw [h.left, h.right] at hset
      exact hset
    · rcases Finset.mem_insert.mp ht with rfl | ht
      · exact ⟨c, hc, by split <;> omega, by split <;> omega⟩
      · obtain ⟨c', hc', hwindow⟩ := h.window t ht
        exact ⟨c', hc', by split <;> omega, by split <;> omega⟩

/- The first of `A` is in the first component of those that hold something. -/
theorem SccAlike.first (h : SccAlike scc kinds queue queue' A) (hs : scc[s]? = some queue.front) :
    SccFirst scc A s := by
  intro t ht
  obtain ⟨c, hc, hwindow⟩ := h.window t ht
  rw [List.getD_eq_getElem?_getD, hs, List.getD_eq_getElem?_getD, hc]
  exact hwindow.1

variable (comp) in
theorem scc_dequeue (h : SccAlike scc kinds queue queue' A) (memory : Memory) (hA : A.Nonempty) :
    ∃ s ∈ A, SccFirst scc A s ∧ ∃ next next' memory',
      Scc.dequeue comp (queue, memory) = some (some s, next, memory') ∧
      Scc.dequeue comp (queue', memory) = some (some s, next', memory') ∧
      SccAlike scc kinds next next' (A.erase s) := by
  obtain ⟨hskip, hnext⟩ := h.skipEmpty
  unfold Scc.dequeue
  dsimp only
  generalize queue.skipEmpty = skipped at hskip hnext
  generalize queue'.skipEmpty = skipped' at hskip
  obtain ⟨t, ht⟩ := hA
  obtain ⟨c, -, hwindow⟩ := hskip.window t ht
  have hfront : skipped.front < skipped.back := by omega
  obtain ⟨kind, hkind⟩ : ∃ kind, kinds[skipped.front]? = some kind :=
    ⟨_, List.getElem?_eq_getElem (lt_of_lt_of_le hfront hskip.bound)⟩
  obtain ⟨i, j, hi, hj, halike⟩ := hskip.inner _ kind hkind
  obtain ⟨s, hs, i', j', m, hsome, hsome', hinner⟩ :=
    inner_dequeue comp halike memory (hnext hfront)
  obtain ⟨hsA, hsc⟩ := Finset.mem_filter.mp hs
  rw [hskip.front, hskip.back, if_pos hfront, if_pos hfront, hi, hj, Option.bind_some,
    Option.bind_some, hsome, hsome']
  refine ⟨s, hsA, hskip.first hsc, _, _, m, rfl, rfl, ?_⟩
  rw [← within_erase_self] at hinner
  exact hskip.set skipped.front skipped.back (fun c' hne => within_erase_of_ne hsc hne)
    (fun kind' hkind' => Option.some.inj (hkind.symm.trans hkind') ▸ hinner) hskip.bound
    fun u hu => hskip.window u (Finset.mem_of_mem_erase hu)

theorem SccAlike.empty (h : SccAlike scc kinds queue queue' ∅) :
    ¬ queue.skipEmpty.front < queue.skipEmpty.back := by
  intro hlt
  obtain ⟨s, hs, -⟩ := within_nonempty.mp (h.skipEmpty.2 hlt)
  exact absurd hs (Finset.notMem_empty s)

variable (comp) in
theorem scc_dequeue_empty (h : SccAlike scc kinds queue queue' ∅) (memory : Memory) :
    Scc.dequeue comp (queue, memory) = some (none, queue.skipEmpty, memory) ∧
      Scc.dequeue comp (queue', memory) = some (none, queue'.skipEmpty, memory) := by
  have hempty := h.empty
  obtain ⟨hskip, -⟩ := h.skipEmpty
  unfold Scc.dequeue
  dsimp only
  rw [hskip.front, hskip.back, if_neg hempty, if_neg hempty]
  exact ⟨rfl, rfl⟩

variable (comp) in
theorem scc_update (h : SccAlike scc kinds queue queue' A) (memory : Memory) (hs : s ∈ A) :
    ∃ next next' memory', Scc.update comp s (queue, memory) = some (next, memory') ∧
      Scc.update comp s (queue', memory) = some (next', memory') ∧
      SccAlike scc kinds next next' A := by
  obtain ⟨c, hc, hwindow⟩ := h.window s hs
  have hlt : c < kinds.length := hwindow.2.trans_le h.bound
  obtain ⟨kind, hkind⟩ : ∃ kind, kinds[c]? = some kind := ⟨_, List.getElem?_eq_getElem hlt⟩
  obtain ⟨i, j, hi, hj, halike⟩ := h.inner c kind hkind
  obtain ⟨i', j', m, hsome, hsome', hinner⟩ :=
    inner_update comp halike memory (Finset.mem_filter.mpr ⟨hs, hc⟩)
  unfold Scc.update Scc.onInner
  dsimp only
  rw [h.left, h.right, hc, Option.bind_some, Option.bind_some, hi, hj, Option.bind_some,
    Option.bind_some, hsome, hsome', h.front, h.back]
  refine ⟨_, _, m, rfl, rfl, ?_⟩
  have hset := h.set queue.front queue.back (fun c' _ => rfl)
    (fun kind' hkind' => Option.some.inj (hkind.symm.trans hkind') ▸ hinner) h.bound h.window
  rw [h.left, h.right] at hset
  exact hset

theorem innerAlike_head {m m' : Memory} (h : InnerAlike Known kind (i, m) (j, m') A) :
    SccInner.head i = SccInner.head j := by
  cases i <;> cases j <;> first
    | exact absurd h id
    | exact h.2.2.1 ▸ rfl
    | skip
  case shortestFirst.shortestFirst queue queue' =>
    have htop := alike_get h.2.1.1 0
    rwa [← List.head?_eq_getElem?, ← List.head?_eq_getElem?] at htop

variable (comp) in
/- What a component announces it hands out. -/
theorem inner_announces (h : InnerAlike Known kind (i, ()) (j, ()) A) (memory : Memory) :
    ∃ after, SccInner.dequeue comp (i, memory) = some (SccInner.head i, after) := by
  cases i <;> cases j <;> first
    | exact absurd h id
    | exact ⟨_, rfl⟩
    | skip
  case shortestFirst.shortestFirst queue queue' =>
    obtain ⟨after, hafter⟩ := (shortestFirst_contract comp false Known).announces
      (queue, memory) A queue.heap.top _ h.2.2.1 rfl
    refine ⟨(.shortestFirst after.1, after.2), ?_⟩
    unfold SccInner.dequeue
    dsimp only
    rw [hafter]
    rfl

def byNothing (memory : Unit) (_ _ : ℕ) : Bool × Unit := (false, memory)

/- A queue that holds nothing is as good as a new one. -/
theorem innerAlike_new (h : InnerAlike Known kind (i, ()) (j, ()) ∅) :
    InnerAlike Known kind (i, ()) (kind, ()) ∅ := by
  cases i <;> cases j <;> first
    | exact absurd h id
    | skip
  case trivial.trivial queue queue' =>
    obtain ⟨rfl, -, -, hholds⟩ := h
    have hfront := hholds.1.nil_of_empty
    refine ⟨rfl, rfl, ?_, hholds⟩
    cases queue with
    | mk front =>
      cases front with
      | none => rfl
      | some s => cases hfront
  case fifo.fifo queue queue' =>
    obtain ⟨rfl, -, -, hholds⟩ := h
    exact ⟨rfl, rfl, congrArg FifoQueue.mk hholds.nil_of_empty, hholds⟩
  case lifo.lifo queue queue' =>
    obtain ⟨rfl, -, -, hholds⟩ := h
    exact ⟨rfl, rfl, congrArg LifoQueue.mk hholds.nil_of_empty, hholds⟩
  case shortestFirst.shortestFirst queue queue' =>
    obtain ⟨rfl, -, hholds, -⟩ := h
    exact ⟨rfl, ⟨hholds.values.nil_of_empty, rfl⟩, hholds, shortestFirst_new⟩

theorem innerAlike_clear (h : InnerAlike Known kind (i, ()) (j, ()) A) :
    InnerAlike Known kind (SccInner.clear i, ()) (SccInner.clear j, ()) ∅ := by
  rcases inner_paired byNothing Known kind _ _ A .clear h True.intro with
    ⟨hout, -, -⟩ | ⟨-, reply, q', p', hsome, hsome', -, hnext⟩
  · exact absurd hout.2 id
  · cases hsome
    cases hsome'
    exact hnext

/- What a clear leaves of a component: nothing, whether it was in the window or not. -/
theorem SccAlike.cleared (h : SccAlike scc kinds queue queue' A) (hkind : kinds[c]? = some kind) :
    ∃ i j, (Scc.clear queue).queues[c]? = some i ∧
      (Scc.clear queue').queues[c]? = some j ∧
      InnerAlike (scc[·]? = some c) kind (i, ()) (j, ()) ∅ := by
  obtain ⟨i, j, hi, hj, halike⟩ := h.inner c kind hkind
  unfold Scc.clear
  dsimp only
  rw [List.getElem?_mapIdx, List.getElem?_mapIdx, hi, hj, Option.map_some, Option.map_some,
    h.front, h.back]
  split
  · exact ⟨_, _, rfl, rfl, innerAlike_clear halike⟩
  · next hout =>
    have hnone : within scc A c = ∅ := by
      rw [← Finset.not_nonempty_iff_eq_empty, within_nonempty]
      rintro ⟨s, hs, hc⟩
      obtain ⟨c', hc', hwindow⟩ := h.window s hs
      obtain rfl := Option.some.inj (hc.symm.trans hc')
      exact hout hwindow
    exact ⟨i, j, rfl, rfl, hnone ▸ halike⟩

theorem scc_clear (h : SccAlike scc kinds queue queue' A) :
    SccAlike scc kinds (Scc.clear queue) (Scc.clear queue') ∅ := by
  refine ⟨h.left, h.right, rfl, rfl, Nat.zero_le _, fun s hs => absurd hs (Finset.notMem_empty s),
    fun c kind hkind => ?_⟩
  rw [within_empty]
  exact h.cleared hkind

theorem scc_new (h : SccAlike scc kinds queue queue' A) :
    SccAlike scc kinds (Scc.clear queue) (SccQueue.new scc kinds) ∅ := by
  refine ⟨h.left, rfl, rfl, rfl, Nat.zero_le _, fun s hs => absurd hs (Finset.notMem_empty s),
    fun c kind hkind => ?_⟩
  obtain ⟨i, j, hi, -, halike⟩ := h.cleared hkind
  rw [within_empty]
  exact ⟨i, kind, hi, hkind, innerAlike_new halike⟩

/- A component of one state may have a queue for one. -/
structure Fresh (scc : List ℕ) (kinds : List SccInnerQueue) : Prop where
  new : ∀ kind ∈ kinds, SccInner.fresh kind = kind
  single : ∀ (c : ℕ) queue, kinds[c]? = some (.trivial queue) →
    ∀ s t : ℕ, scc[s]? = some c → scc[t]? = some c → s = t

theorem scc_start (h : Fresh scc kinds) :
    SccAlike scc kinds (SccQueue.new scc kinds) (SccQueue.new scc kinds) ∅ := by
  refine ⟨rfl, rfl, rfl, rfl, Nat.zero_le _, fun s hs => absurd hs (Finset.notMem_empty s),
    fun c kind hkind => ⟨kind, kind, hkind, hkind, ?_⟩⟩
  have hnew := h.new kind (List.mem_of_getElem? hkind)
  rw [within_empty]
  cases kind with
  | trivial queue =>
    exact ⟨hnew.symm, rfl, rfl, SccInnerQueue.trivial.inj hnew ▸ lists_nil,
      fun s hs => absurd hs (Finset.notMem_empty s), h.single c queue hkind⟩
  | fifo queue => exact ⟨hnew.symm, rfl, rfl, SccInnerQueue.fifo.inj hnew ▸ lists_nil⟩
  | lifo queue => exact ⟨hnew.symm, rfl, rfl, SccInnerQueue.lifo.inj hnew ▸ lists_nil⟩
  | shortestFirst queue =>
    obtain rfl := SccInnerQueue.shortestFirst.inj hnew
    exact ⟨rfl, ⟨rfl, rfl⟩, shortestFirst_new, shortestFirst_new⟩

theorem innerAlike_symm {m m' : Memory} (h : InnerAlike Known kind (i, m) (j, m') A) :
    InnerAlike Known kind (j, m') (i, m) A := by
  cases i <;> cases j <;> first
    | exact absurd h id
    | exact ⟨h.1, h.2.1.symm, h.2.2.1.symm, h.2.2.1 ▸ h.2.2.2⟩
    | exact ⟨h.1, ⟨h.2.1.1.symm, h.2.1.2.symm⟩, h.2.2.2, h.2.2.1⟩

theorem SccAlike.symm (h : SccAlike scc kinds queue queue' A) :
    SccAlike scc kinds queue' queue A := by
  refine ⟨h.right, h.left, h.front.symm, h.back.symm, h.back ▸ h.bound, fun s hs => ?_,
    fun c kind hkind => ?_⟩
  · rw [h.front, h.back]
    exact h.window s hs
  · obtain ⟨i, j, hi, hj, halike⟩ := h.inner c kind hkind
    exact ⟨j, i, hj, hi, innerAlike_symm halike⟩

theorem SccAlike.skip_iff (h : SccAlike scc kinds queue queue' A) :
    queue.skipEmpty.front < queue.skipEmpty.back ↔ A.Nonempty := by
  obtain ⟨hskip, hnext⟩ := h.skipEmpty
  constructor
  · intro hlt
    obtain ⟨s, hs, -⟩ := within_nonempty.mp (hnext hlt)
    exact ⟨s, hs⟩
  · rintro ⟨s, hs⟩
    obtain ⟨c, -, hwindow⟩ := hskip.window s hs
    omega

variable (comp) in
/- What is announced is what is handed out. -/
theorem scc_head (h : SccAlike scc kinds queue queue' A) (memory : Memory) :
    ∃ state, Scc.head queue = some (state, queue.skipEmpty) ∧
      Scc.head queue' = some (state, queue'.skipEmpty) ∧
      ∃ after, Scc.dequeue comp (queue, memory) = some (state, after) := by
  obtain ⟨hskip, -⟩ := h.skipEmpty
  have hiff := h.skip_iff
  rcases A.eq_empty_or_nonempty with rfl | hA
  · have hempty := h.empty
    unfold Scc.head
    dsimp only
    rw [hskip.front, hskip.back, if_neg hempty, if_neg hempty]
    exact ⟨none, rfl, rfl, _, (scc_dequeue_empty comp h memory).1⟩
  · have hfront := hiff.mpr hA
    obtain ⟨kind, hkind⟩ : ∃ kind, kinds[queue.skipEmpty.front]? = some kind :=
      ⟨_, List.getElem?_eq_getElem (lt_of_lt_of_le hfront hskip.bound)⟩
    obtain ⟨i, j, hi, hj, halike⟩ := hskip.inner _ kind hkind
    obtain ⟨after, hafter⟩ := inner_announces comp halike memory
    unfold Scc.head Scc.dequeue
    dsimp only
    rw [hskip.front, hskip.back, if_pos hfront, if_pos hfront, if_pos hfront, hi, hj,
      Option.bind_some, Option.map_some, Option.map_some, ← innerAlike_head halike, hafter]
    exact ⟨SccInner.head i, rfl, rfl, _, rfl⟩

theorem nextIn_nextIn (p : ℕ → Bool) (front back : ℕ) :
    nextIn p (nextIn p front back) back = nextIn p front back := by
  obtain ⟨-, -, hnext⟩ := nextIn_spec p front back
  generalize nextIn p front back = next at hnext
  obtain ⟨hle, hskipped, -⟩ := nextIn_spec p next back
  rcases Nat.lt_or_ge next back with hlt | hge
  · by_contra hne
    have hfalse := hskipped next le_rfl (by omega)
    rw [hnext hlt] at hfalse
    cases hfalse
  · unfold nextIn
    rw [Nat.sub_eq_zero_of_le hge]
    exact max_eq_left hge

theorem skipEmpty_skipEmpty (queue : SccQueue) : queue.skipEmpty.skipEmpty = queue.skipEmpty :=
  congrArg (SccQueue.mk queue.queues queue.scc · queue.back) (nextIn_nextIn _ _ _)

theorem dequeue_skipEmpty (queue : SccQueue) (memory : Memory) :
    Scc.dequeue comp (queue.skipEmpty, memory) = Scc.dequeue comp (queue, memory) := by
  unfold Scc.dequeue
  dsimp only
  rw [skipEmpty_skipEmpty]

theorem scc_paired (comp : Memory → ℕ → ℕ → Bool × Memory) (scc : List ℕ)
    (kinds : List SccInnerQueue) :
    Paired (QueueCalls.scc comp) (SccKnown scc kinds) (SccFull scc kinds) (SccFirst scc)
      fun q p A => SccAlike scc kinds q.1 p.1 A ∧ q.2 = p.2 := by
  refine ⟨?_, ?_⟩
  · rintro ⟨queue, memory⟩ ⟨queue', _⟩ A call ⟨h, rfl⟩ hproper
    cases call with
    | head =>
      refine Or.inr ⟨id, ?_⟩
      obtain ⟨state, hhead, hhead', after, hafter⟩ := scc_head comp h memory
      refine ⟨.state state, (queue.skipEmpty, memory), (queue'.skipEmpty, memory), ?_, ?_, ?_,
        h.skipEmpty.1, rfl⟩
      · change Option.map _ (Option.map _ (Scc.head queue)) = _
        rw [hhead]
        rfl
      · change Option.map _ (Option.map _ (Scc.head queue')) = _
        rw [hhead']
        rfl
      · rcases A.eq_empty_or_nonempty with rfl | hA
        · obtain ⟨hnone, -⟩ := scc_dequeue_empty comp h memory
          obtain ⟨rfl, -⟩ := Prod.mk.inj (Option.some.inj (hnone.symm.trans hafter))
          exact Or.inl ⟨rfl, rfl⟩
        · obtain ⟨s, hs, hfirst, _, _, _, hsome, -, -⟩ := scc_dequeue comp h memory hA
          obtain ⟨rfl, -⟩ := Prod.mk.inj (Option.some.inj (hsome.symm.trans hafter))
          exact Or.inr ⟨s, hs, hfirst, rfl⟩
    | isEmpty =>
      have hempty : ∀ {queue queue' : SccQueue}, SccAlike scc kinds queue queue' A →
          decide (queue.skipEmpty.back ≤ queue.skipEmpty.front) = decide (A = ∅) := by
        intro queue queue' h
        rw [decide_eq_decide, ← not_lt, h.skip_iff, Finset.not_nonempty_iff_eq_empty]
      exact Or.inr ⟨id, .answer (decide (A = ∅)), (queue.skipEmpty, memory),
        (queue'.skipEmpty, memory), congrArg (fun answer => some (Reply.answer answer, _))
          (hempty h), congrArg (fun answer => some (Reply.answer answer, _)) (hempty h.symm), rfl,
        h.skipEmpty.1, rfl⟩
    | enqueue s =>
      rcases scc_enqueue comp h memory hproper.1 hproper.2 with ⟨hfull, hnone, hnone'⟩ |
        ⟨hroom, next, next', m, hsome, hsome', hnext⟩
      · exact Or.inl ⟨hfull, congrArg (Option.map _) hnone, congrArg (Option.map _) hnone'⟩
      · exact Or.inr ⟨hroom, .done, (next, m), (next', m), congrArg (Option.map _) hsome,
          congrArg (Option.map _) hsome', rfl, hnext, rfl⟩
    | dequeue =>
      refine Or.inr ⟨id, ?_⟩
      rcases A.eq_empty_or_nonempty with rfl | hA
      · obtain ⟨hnone, hnone'⟩ := scc_dequeue_empty comp h memory
        exact ⟨.state none, _, _, congrArg (Option.map _) hnone, congrArg (Option.map _) hnone',
          Or.inl ⟨rfl, rfl⟩, h.skipEmpty.1, rfl⟩
      · obtain ⟨s, hs, hfirst, next, next', m, hsome, hsome', hnext⟩ :=
          scc_dequeue comp h memory hA
        exact ⟨.state (some s), (next, m), (next', m), congrArg (Option.map _) hsome,
          congrArg (Option.map _) hsome', Or.inr ⟨s, hs, hfirst, rfl⟩, hnext, rfl⟩
    | update s =>
      obtain ⟨next, next', m, hsome, hsome', hnext⟩ := scc_update comp h memory hproper
      exact Or.inr ⟨id, .done, (next, m), (next', m), congrArg (Option.map _) hsome,
        congrArg (Option.map _) hsome', rfl, hnext, rfl⟩
    | clear => exact Or.inr ⟨id, .done, _, _, rfl, rfl, rfl, scc_clear h, rfl⟩
  · rintro ⟨queue, memory⟩ ⟨queue', _⟩ A state q' ⟨h, rfl⟩ hhead
    obtain ⟨state', hstate, -, after, hafter⟩ := scc_head comp h memory
    have hannounced : (QueueCalls.scc comp).head (queue, memory) =
        some (state', queue.skipEmpty, memory) := congrArg (Option.map _) hstate
    obtain ⟨rfl, rfl⟩ := Prod.mk.inj (Option.some.inj (hhead.symm.trans hannounced))
    exact ⟨after, (dequeue_skipEmpty queue memory).trans hafter⟩

end Scc

end Sicada.QueueScc
