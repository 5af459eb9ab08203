import Sicada.Arc
import Sicada.Library.Container

namespace Sicada.Cache

variable {L W P : Type} [ArcLabel L]

/- Flags of a cached state; `visited` is the one SIEVE reads. -/
structure CacheFlags where
  final : Bool
  arcs : Bool
  visited : Bool
  expandingFinal : Bool
  expandingArcs : Bool
deriving DecidableEq

/- `gcTarget` is what the fraction leaves of a limit, rounded as the floats round it. -/
structure CacheOptions where
  gc : Bool
  gcLimit : ℕ
  gcTarget : ℕ → ℕ

/- The sizes of a cached state and of an arc in bytes. -/
structure Layout where
  stateSize : ℕ
  arcSize : ℕ

structure CacheExpander (L W : Type) where
  expandFinal : ℕ → Option W
  expandArcs : ℕ → List (Arc L W)

/- Arcs behind a reference count; `id` tells one allocation from another. -/
structure SharedArcs (L W : Type) where
  id : ℕ
  arcs : List (Arc L W)

structure CacheState (L W : Type) where
  stateId : ℕ
  flags : CacheFlags
  finalWeight : Option W
  arcs : Option (SharedArcs L W)
  niepsilons : ℕ
  noepsilons : ℕ
  next : Option ℕ
  prev : Option ℕ

/- What the cache uses of `slab::Slab`. -/
class Slab (P : Type) (α : outParam Type) where
  new : P
  get : P → ℕ → Option α
  insert : P → α → ℕ × P
  modify : P → ℕ → (α → α) → P
  remove : P → ℕ → P
  clear : P → P
  len : P → ℕ

/- `insert` takes a vacant slot, and no operation touches any other slot. -/
class LawfulSlab (P : Type) (α : outParam Type) [Slab P α] : Prop where
  get_new : ∀ k, Slab.get (Slab.new : P) k = none
  insert_vacant : ∀ (pool : P) (a : α), Slab.get pool (Slab.insert pool a).1 = none
  get_insert : ∀ (pool : P) (a : α), Slab.get (Slab.insert pool a).2 =
    Function.update (Slab.get pool) (Slab.insert pool a).1 (some a)
  get_modify : ∀ (pool : P) (k : ℕ) (f : α → α), Slab.get (Slab.modify pool k f) =
    Function.update (Slab.get pool) k ((Slab.get pool k).map f)
  get_remove : ∀ (pool : P) (k : ℕ), Slab.get (Slab.remove pool k) =
    Function.update (Slab.get pool) k none
  get_clear : ∀ (pool : P) (k : ℕ), Slab.get (Slab.clear pool) k = none

namespace CacheState

/- Someone other than the store holds the arcs. -/
def isPinned (state : CacheState L W) (held : ℕ → Bool) : Bool :=
  match state.arcs with
  | some shared => held shared.id
  | none => false

def memoryEstimate (layout : Layout) (state : CacheState L W) : ℕ :=
  layout.stateSize +
    match state.arcs with
    | some shared => shared.arcs.length * layout.arcSize
    | none => 0

def markVisited (state : CacheState L W) : CacheState L W :=
  { state with flags := { state.flags with visited := true } }

def clearVisited (state : CacheState L W) : CacheState L W :=
  { state with flags := { state.flags with visited := false } }

end CacheState

def denseLimit : ℕ := 1000000

structure HybridIndexMap where
  dense : List (Option ℕ)
  sparse : ℕ → Option ℕ

namespace HybridIndexMap

def new : HybridIndexMap := ⟨[], fun _ => none⟩

def get (m : HybridIndexMap) (id : ℕ) : Option ℕ :=
  if id < denseLimit then m.dense[id]?.join else m.sparse id

def insert (m : HybridIndexMap) (id idx : ℕ) : HybridIndexMap :=
  if id < denseLimit then
    { m with
      dense := (m.dense ++ List.replicate (id + 1 - m.dense.length) none).set id (some idx) }
  else { m with sparse := Function.update m.sparse id (some idx) }

def remove (m : HybridIndexMap) (id : ℕ) : HybridIndexMap :=
  if id < denseLimit then { m with dense := m.dense.set id none }
  else { m with sparse := Function.update m.sparse id none }

theorem get_new (id : ℕ) : new.get id = none := by
  unfold get new
  split <;> rfl

theorem get_insert (m : HybridIndexMap) (id idx : ℕ) :
    (m.insert id idx).get = Function.update m.get id (some idx) := by
  funext x
  unfold insert get
  rw [Function.update_apply]
  by_cases hid : id < denseLimit
  · rw [if_pos hid]
    by_cases hx : x = id
    · subst hx
      have hlt : x < (m.dense ++ List.replicate (x + 1 - m.dense.length) none).length := by
        rw [List.length_append, List.length_replicate]
        omega
      rw [if_pos hid, if_pos rfl, List.getElem?_set_self hlt]
      rfl
    · rw [if_neg hx, List.getElem?_set_ne (Ne.symm hx), List.getElem?_append,
        List.getElem?_replicate]
      dsimp only
      split
      · split
        · rfl
        next hge =>
          rw [List.getElem?_eq_none (Nat.le_of_not_lt hge)]
          split <;> rfl
      · rfl
  · rw [if_neg hid]
    by_cases hx : x = id
    · rw [if_pos hx, hx, if_neg hid]
      simp
    · rw [if_neg hx]
      simp only [Function.update_of_ne hx]

theorem get_remove (m : HybridIndexMap) (id : ℕ) :
    (m.remove id).get = Function.update m.get id none := by
  funext x
  unfold remove get
  rw [Function.update_apply]
  by_cases hid : id < denseLimit
  · rw [if_pos hid]
    by_cases hx : x = id
    · subst hx
      rw [if_pos hid, if_pos rfl, List.getElem?_set]
      simp only [if_true]
      split <;> rfl
    · rw [if_neg hx, List.getElem?_set_ne (Ne.symm hx)]
  · rw [if_neg hid]
    by_cases hx : x = id
    · rw [if_pos hx, hx, if_neg hid]
      simp
    · rw [if_neg hx]
      simp only [Function.update_of_ne hx]

end HybridIndexMap

structure CacheStore (P : Type) where
  pool : P
  map : HybridIndexMap
  options : CacheOptions
  currentSizeBytes : ℕ
  currentGcLimit : ℕ
  head : Option ℕ
  tail : Option ℕ
  hand : Option ℕ

namespace CacheStore

variable [Slab P (CacheState L W)]

/- `none` is an index to a slot that holds nothing, a panic. -/
def setNext (s : CacheStore P) (idx : ℕ) (link : Option ℕ) : Option (CacheStore P) :=
  (Slab.get s.pool idx).map fun _ =>
    { s with pool := Slab.modify s.pool idx fun state => { state with next := link } }

def setPrev (s : CacheStore P) (idx : ℕ) (link : Option ℕ) : Option (CacheStore P) :=
  (Slab.get s.pool idx).map fun _ =>
    { s with pool := Slab.modify s.pool idx fun state => { state with prev := link } }

def new (options : CacheOptions) : CacheStore P :=
  { pool := Slab.new
    map := .new
    options := options
    currentSizeBytes := 0
    currentGcLimit := options.gcLimit
    head := none
    tail := none
    hand := none }

def unlinkPrev (s : CacheStore P) (prev next : Option ℕ) : Option (CacheStore P) :=
  match prev with
  | some p => s.setNext p next
  | none => some { s with head := next }

def unlinkNext (s : CacheStore P) (prev next : Option ℕ) : Option (CacheStore P) :=
  match next with
  | some n => s.setPrev n prev
  | none => some { s with tail := prev }

def removeNode (layout : Layout) (idx : ℕ) (s : CacheStore P) : Option (CacheStore P) :=
  match Slab.get s.pool idx with
  | none => none
  | some state =>
    let s := { s with currentSizeBytes := s.currentSizeBytes - state.memoryEstimate layout }
    (s.unlinkPrev state.prev state.next).bind fun s =>
      (s.unlinkNext state.prev state.next).map fun s =>
        { s with
          hand := if s.hand = some idx then state.prev.or s.tail else s.hand
          map := s.map.remove state.stateId
          pool := Slab.remove s.pool idx }

def pushHead (idx : ℕ) (s : CacheStore P) : Option (CacheStore P) :=
  match s.head with
  | some oldHead =>
    (s.setNext idx (some oldHead)).bind fun s =>
      (s.setPrev idx none).bind fun s =>
        (s.setPrev oldHead (some idx)).map fun s => { s with head := some idx }
  | none =>
    (s.setNext idx none).bind fun s =>
      (s.setPrev idx none).map fun s =>
        { s with head := some idx, tail := some idx, hand := some idx }

def isProtected (protectIdx : Option ℕ) (held : ℕ → Bool) (idx : ℕ) (state : CacheState L W) :
    Bool :=
  some idx = protectIdx || state.isPinned held ||
    (state.flags.expandingFinal || state.flags.expandingArcs)

/- One pass of the clock; the first spares what was visited and clears the mark, the second spares
only what is protected. -/
def sweep (layout : Layout) (held : ℕ → Bool) (protectIdx : Option ℕ) (targetSize : ℕ)
    (spare : Bool) : ℕ → Option ℕ → CacheStore P → Option (CacheStore P)
  | 0, _, s => some s
  | steps + 1, currentOpt, s =>
    if s.currentSizeBytes ≤ targetSize then some s
    else
      match currentOpt with
      | none => some s
      | some current =>
        match Slab.get s.pool current with
        | none => none
        | some state =>
          let next := state.prev.or s.tail
          if isProtected protectIdx held current state then
            sweep layout held protectIdx targetSize spare steps next s
          else if spare && state.flags.visited then
            sweep layout held protectIdx targetSize spare steps next
              { s with pool := Slab.modify s.pool current .clearVisited, hand := next }
          else
            (s.removeNode layout current).bind fun s =>
              sweep layout held protectIdx targetSize spare steps next { s with hand := next }

/- Doubled until the size fits; sizes are of memory in use, so that no doubling saturates. -/
def growLimit (size : ℕ) : ℕ → ℕ → ℕ
  | 0, limit => limit
  | fuel + 1, limit => if size ≤ limit then limit else growLimit size fuel (max (limit * 2) 1024)

def gc (layout : Layout) (held : ℕ → Bool) (protectIdx : Option ℕ) (s : CacheStore P) :
    Option (CacheStore P) :=
  if !s.options.gc || decide (s.currentSizeBytes ≤ s.currentGcLimit) then some s
  else
    let targetSize := s.options.gcTarget s.currentGcLimit
    let maxSteps := Slab.len s.pool
    (sweep layout held protectIdx targetSize true maxSteps (s.hand.or s.tail) s).bind fun s =>
      (sweep layout held protectIdx targetSize false maxSteps (s.hand.or s.tail) s).map fun s =>
        { s with
          currentGcLimit := growLimit s.currentSizeBytes s.currentSizeBytes s.currentGcLimit }

def freshState (id : ℕ) : CacheState L W :=
  ⟨id, ⟨false, false, false, false, false⟩, none, none, 0, 0, none, none⟩

def allocateSlotIfNeeded (layout : Layout) (held : ℕ → Bool) (id : ℕ) (s : CacheStore P) :
    Option (ℕ × CacheStore P) :=
  match s.map.get id with
  | some idx => some (idx, s)
  | none =>
    (s.gc layout held none).bind fun s =>
      let (idx, pool) := Slab.insert s.pool (freshState id)
      let s := { s with
        currentSizeBytes := s.currentSizeBytes + layout.stateSize
        pool := pool
        map := s.map.insert id idx }
      (s.pushHead idx).map fun s => (idx, s)

end CacheStore

/- `nextShared` names the next allocation of arcs. -/
structure CacheImpl (P : Type) where
  hasStart : Bool
  cacheStart : Option ℕ
  nknownStates : ℕ
  minUnexpandedStateId : ℕ
  maxExpandedStateId : Option ℕ
  expandedStates : ℕ → Bool
  store : CacheStore P
  nextShared : ℕ

namespace CacheImpl

variable [Slab P (CacheState L W)]

def new (options : CacheOptions) : CacheImpl P :=
  ⟨false, none, 0, 0, none, fun _ => false, .new options, 0⟩

def updateNknownStates (newCount : ℕ) (c : CacheImpl P) : CacheImpl P :=
  { c with nknownStates := max c.nknownStates newCount }

def setExpandedState (s : ℕ) (c : CacheImpl P) : CacheImpl P :=
  { c with
    maxExpandedStateId := some (max s (c.maxExpandedStateId.getD s))
    minUnexpandedStateId := if s = c.minUnexpandedStateId then s + 1 else c.minUnexpandedStateId
    expandedStates := Function.update c.expandedStates s true }

def modifyState (idx : ℕ) (f : CacheState L W → CacheState L W) (c : CacheImpl P) :
    Option (CacheImpl P) :=
  (Slab.get c.store.pool idx).map fun _ =>
    { c with store := { c.store with pool := Slab.modify c.store.pool idx f } }

def setExpandingFinal (value : Bool) (state : CacheState L W) : CacheState L W :=
  { state with flags := { state.flags with expandingFinal := value } }

def setExpandingArcs (value : Bool) (state : CacheState L W) : CacheState L W :=
  { state with flags := { state.flags with expandingArcs := value } }

def storeFinal (weight : Option W) (state : CacheState L W) : CacheState L W :=
  ({ state with
    finalWeight := weight
    flags := { state.flags with final := true } }).markVisited

def storeArcs (shared : SharedArcs L W) (state : CacheState L W) : CacheState L W :=
  ({ state with
    arcs := some shared
    niepsilons := shared.arcs.countP fun arc : Arc L W => arc.ilabel = epsilon
    noepsilons := shared.arcs.countP fun arc : Arc L W => arc.olabel = epsilon
    flags := { state.flags with arcs := true } }).markVisited

/- `none` is a panic, here the one of a recursive expansion. -/
def finalWeight [Zero W] (layout : Layout) (expander : CacheExpander L W) (held : ℕ → Bool)
    (s : ℕ) (c : CacheImpl P) : Option (W × CacheImpl P) :=
  (c.store.allocateSlotIfNeeded layout held s).bind fun (idx, store) =>
    let c := { c with store := store }
    (Slab.get c.store.pool idx).bind fun state =>
      if state.flags.final then
        (c.modifyState idx .markVisited).map fun c => (state.finalWeight.getD 0, c)
      else if state.flags.expandingFinal then none
      else
        (c.modifyState idx (setExpandingFinal true)).bind fun c =>
          let weight := expander.expandFinal s
          (c.modifyState idx (setExpandingFinal false)).bind fun c =>
            (c.modifyState idx (storeFinal weight)).map fun c => (weight.getD 0, c)

def maxNext (arcs : List (Arc L W)) : ℕ := arcs.foldl (fun n arc => max n arc.nextstate) 0

def expandArcsInto (layout : Layout) (expander : CacheExpander L W) (held : ℕ → Bool) (s idx : ℕ)
    (c : CacheImpl P) : Option (CacheImpl P) :=
  (c.modifyState idx (setExpandingArcs true)).bind fun c =>
    let arcs := expander.expandArcs s
    (c.modifyState idx (setExpandingArcs false)).bind fun c =>
      (c.modifyState idx (storeArcs ⟨c.nextShared, arcs⟩)).bind fun c =>
        let store := { c.store with
          currentSizeBytes := c.store.currentSizeBytes + arcs.length * layout.arcSize }
        (store.gc layout held (some idx)).map fun store =>
          ({ c with store := store, nextShared := c.nextShared + 1 }
            |>.updateNknownStates (maxNext arcs + 1) |>.setExpandedState s)

def ensureArcs (layout : Layout) (expander : CacheExpander L W) (held : ℕ → Bool) (s : ℕ)
    (c : CacheImpl P) : Option (ℕ × CacheImpl P) :=
  (c.store.allocateSlotIfNeeded layout held s).bind fun (idx, store) =>
    let c := { c with store := store }
    (Slab.get c.store.pool idx).bind fun state =>
      if state.flags.arcs then (c.modifyState idx .markVisited).map fun c => (idx, c)
      else if state.flags.expandingArcs then none
      else (expandArcsInto layout expander held s idx c).map fun c => (idx, c)

/- What a request about arcs reads off the state once its arcs are there. -/
def readArcs {X : Type} (layout : Layout) (expander : CacheExpander L W) (held : ℕ → Bool)
    (read : CacheState L W → Option X) (s : ℕ) (c : CacheImpl P) : Option (X × CacheImpl P) :=
  (c.ensureArcs layout expander held s).bind fun (idx, c) =>
    ((Slab.get c.store.pool idx).bind read).map fun x => (x, c)

def arcsSlice (layout : Layout) (expander : CacheExpander L W) (held : ℕ → Bool) (s : ℕ)
    (c : CacheImpl P) : Option (SharedArcs L W × CacheImpl P) :=
  readArcs layout expander held (·.arcs) s c

def numArcs (layout : Layout) (expander : CacheExpander L W) (held : ℕ → Bool) (s : ℕ)
    (c : CacheImpl P) : Option (ℕ × CacheImpl P) :=
  readArcs layout expander held (fun state => state.arcs.map (·.arcs.length)) s c

def numInputEpsilons (layout : Layout) (expander : CacheExpander L W) (held : ℕ → Bool) (s : ℕ)
    (c : CacheImpl P) : Option (ℕ × CacheImpl P) :=
  readArcs layout expander held (fun state => some state.niepsilons) s c

def numOutputEpsilons (layout : Layout) (expander : CacheExpander L W) (held : ℕ → Bool) (s : ℕ)
    (c : CacheImpl P) : Option (ℕ × CacheImpl P) :=
  readArcs layout expander held (fun state => some state.noepsilons) s c

def clear (c : CacheImpl P) : CacheImpl P :=
  { hasStart := false
    cacheStart := none
    nknownStates := 0
    minUnexpandedStateId := 0
    maxExpandedStateId := none
    expandedStates := fun _ => false
    store := { c.store with
      map := .new
      pool := Slab.clear c.store.pool
      head := none
      tail := none
      hand := none
      currentSizeBytes := 0
      currentGcLimit := c.store.options.gcLimit }
    nextShared := c.nextShared }

end CacheImpl

/- A guard over a slice of arcs is one that is never moved on. -/
structure CacheArcIter (L W : Type) where
  arcs : SharedArcs L W
  pos : ℕ

namespace CacheArcIter

def next (it : CacheArcIter L W) : Option (Arc L W) × CacheArcIter L W :=
  match it.arcs.arcs[it.pos]? with
  | some arc => (some arc, { it with pos := it.pos + 1 })
  | none => (none, it)

end CacheArcIter

/- What callers ask of one cache. Iterators and guards go by the order they were obtained in. -/
inductive Request where
  | finalWeight (s : ℕ)
  | numArcs (s : ℕ)
  | numInputEpsilons (s : ℕ)
  | numOutputEpsilons (s : ℕ)
  | arcsSlice (s : ℕ)
  | arcsIter (s : ℕ)
  | next (handle : ℕ)
  | clone (handle : ℕ)
  | drop (handle : ℕ)
  | clear

inductive Answer (L W : Type) where
  | weight (w : W)
  | count (n : ℕ)
  | slice (arcs : List (Arc L W))
  | arc (arc : Option (Arc L W))
  | done

/- A cache and what its callers still hold of it; `none` is an iterator that was dropped. -/
structure Client (P L W : Type) where
  cache : CacheImpl P
  iterators : List (Option (CacheArcIter L W))

namespace Client

variable [Slab P (CacheState L W)] [Zero W]

def held (iterators : List (Option (CacheArcIter L W))) (id : ℕ) : Bool :=
  iterators.any fun it => it.any fun it => it.arcs.id == id

def request (layout : Layout) (expander : CacheExpander L W) (client : Client P L W) :
    Request → Option (Answer L W × Client P L W)
  | .finalWeight s =>
    (client.cache.finalWeight layout expander (held client.iterators) s).map
      fun (w, cache) => (.weight w, { client with cache := cache })
  | .numArcs s =>
    (client.cache.numArcs layout expander (held client.iterators) s).map
      fun (n, cache) => (.count n, { client with cache := cache })
  | .numInputEpsilons s =>
    (client.cache.numInputEpsilons layout expander (held client.iterators) s).map
      fun (n, cache) => (.count n, { client with cache := cache })
  | .numOutputEpsilons s =>
    (client.cache.numOutputEpsilons layout expander (held client.iterators) s).map
      fun (n, cache) => (.count n, { client with cache := cache })
  | .arcsSlice s =>
    (client.cache.arcsSlice layout expander (held client.iterators) s).map fun (shared, cache) =>
      (.slice shared.arcs, ⟨cache, client.iterators ++ [some ⟨shared, 0⟩]⟩)
  | .arcsIter s =>
    (client.cache.arcsSlice layout expander (held client.iterators) s).map fun (shared, cache) =>
      (.done, ⟨cache, client.iterators ++ [some ⟨shared, 0⟩]⟩)
  | .next handle =>
    match client.iterators[handle]?.join with
    | some it => some (.arc it.next.1,
        { client with iterators := client.iterators.set handle (some it.next.2) })
    | none => some (.done, client)
  | .clone handle =>
    some (.done, { client with
      iterators := client.iterators ++ [client.iterators[handle]?.join] })
  | .drop handle =>
    some (.done, { client with iterators := client.iterators.set handle none })
  | .clear => some (.done, { client with cache := client.cache.clear })

def requests (layout : Layout) (expander : CacheExpander L W) :
    List Request → Client P L W → Option (List (Answer L W) × Client P L W)
  | [], client => some ([], client)
  | r :: rs, client =>
    (client.request layout expander r).bind fun (answer, client) =>
      (requests layout expander rs client).map fun (answers, client) => (answer :: answers, client)

def new (options : CacheOptions) : Client P L W := ⟨.new options, []⟩

end Client

end Sicada.Cache
