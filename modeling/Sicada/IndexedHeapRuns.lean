import Sicada.IndexedHeapExact
import Sicada.Library.HeapOrder

namespace Sicada.IndexedHeapRuns

open IndexedHeap IndexedHeapExact HeapOrder

section Ordering

variable {T Memory : Type} {comp : Memory → T → T → Bool × Memory} {lt : T → T → Bool}
  {Kept : Memory → Prop} {heap : IndexedHeap T} {elements : List (Node T)} {node : Node T}
  {v w : ℕ → T} {hole index : ℕ} {memory : Memory} {value : T}

abbrev Before (lt : T → T → Bool) (a b : T) : Prop := lt a b = true

/- As long as its memory is kept, the comparator is one order. -/
def Answers (comp : Memory → T → T → Bool × Memory) (lt : T → T → Bool) (Kept : Memory → Prop) :
    Prop :=
  ∀ memory a b, Kept memory → (comp memory a b).1 = lt a b ∧ Kept (comp memory a b).2

/- The values of the elements, by their places. -/
def Shows (elements : List (Node T)) (v : ℕ → T) : Prop :=
  ∀ (i : ℕ) (node : Node T), elements[i]? = some node → v i = node.value

def InOrder (lt : T → T → Bool) (elements : List (Node T)) : Prop :=
  ∀ v, Shows elements v → Ordered (Before lt) elements.length v

theorem Shows.agree (hv : Shows elements v) (hw : Shows elements w) {i : ℕ}
    (hi : i < elements.length) : w i = v i :=
  (hw i _ (List.getElem?_eq_getElem hi)).trans (hv i _ (List.getElem?_eq_getElem hi)).symm

theorem Shows.inOrder (hv : Shows elements v) (h : Ordered (Before lt) elements.length v) :
    InOrder lt elements :=
  fun _ hw => h.congr fun _ hi => hv.agree hw hi

theorem Shows.set (hv : Shows elements v) (hhole : hole < elements.length) :
    Shows (elements.set hole node) (Function.update v hole node.value) := by
  intro i other hother
  by_cases hi : hole = i
  · subst hi
    rw [List.getElem?_set_self hhole, Option.some.injEq] at hother
    rw [Function.update_self, hother]
  · rw [List.getElem?_set_ne hi] at hother
    rw [Function.update_of_ne (Ne.symm hi)]
    exact hv i other hother

theorem Shows.of_prefix {more : List (Node T)} (hv : Shows (elements ++ more) v) :
    Shows elements v := by
  intro i node hnode
  exact hv i node ((List.getElem?_append_left (List.getElem?_eq_some_iff.mp hnode).1).trans hnode)

theorem exists_shows (node : Node T) (elements : List (Node T)) : ∃ v, Shows elements v := by
  refine ⟨fun i => (elements[i]?.map (·.value)).getD node.value, fun i other hother => ?_⟩
  dsimp only
  rw [hother]
  rfl

/- The root goes before all. -/
theorem InOrder.root_first [IsStrictWeakOrder T (Before lt)] {root : Node T}
    (h : InOrder lt elements) (hroot : elements.head? = some root) (hnode : node ∈ elements) :
    lt node.value root.value = false := by
  obtain ⟨v, hv⟩ := exists_shows node elements
  obtain ⟨i, hi⟩ := List.mem_iff_getElem?.mp hnode
  have hfirst := (h v hv).root_first (List.getElem?_eq_some_iff.mp hi).1
  rw [hv i node hi, hv 0 root (List.head?_eq_getElem? ▸ hroot)] at hfirst
  exact Bool.eq_false_iff.mpr hfirst

section Sifting

variable [IsStrictWeakOrder T (Before lt)]

theorem UpOrder.placed (hv : Shows heap.elements v) (hhole : hole < heap.elements.length)
    (h : UpOrder (Before lt) heap.elements.length v hole node.value)
    (hstop : 0 < hole → ¬ Before lt node.value (v ((hole - 1) / 2))) :
    InOrder lt (heap.place hole node).elements := by
  refine (hv.set hhole).inOrder ?_
  rw [List.length_set]
  exact h.finish hstop

theorem moveUp_inOrder (hcomp : Answers comp lt Kept) (fuel : ℕ) (hfuel : hole ≤ fuel)
    (hhole : hole < heap.elements.length) (hv : Shows heap.elements v)
    (h : UpOrder (Before lt) heap.elements.length v hole node.value) (hkept : Kept memory) :
    InOrder lt (ComparedHeap.moveUp comp node fuel hole heap memory).1.elements ∧
      Kept (ComparedHeap.moveUp comp node fuel hole heap memory).2 := by
  induction fuel generalizing hole heap v memory with
  | zero => exact ⟨UpOrder.placed hv hhole h fun hpos => absurd hpos (by omega), hkept⟩
  | succ fuel ih =>
    unfold ComparedHeap.moveUp
    by_cases hzero : hole = 0
    · rw [if_pos hzero]
      exact ⟨UpOrder.placed hv hhole h fun hpos => absurd hpos (by omega), hkept⟩
    · rw [if_neg hzero]
      cases hget : heap.elements[(hole - 1) / 2]? with
      | none =>
        rw [List.getElem?_eq_none_iff] at hget
        omega
      | some parent =>
        have hparent := hv _ _ hget
        obtain ⟨hanswer, hkept'⟩ := hcomp memory node.value parent.value hkept
        dsimp only
        rw [hanswer]
        split
        · next hup =>
          have hmove := h.move (by omega) hhole (hparent ▸ hup)
          rw [hparent, ← List.length_set (i := hole) (a := parent)] at hmove
          refine ih (by omega) ?_ (hv.set hhole) hmove hkept'
          rw [elements_place, List.length_set]
          omega
        · next hup =>
          exact ⟨UpOrder.placed hv hhole h fun _ => hparent ▸ hup, hkept'⟩

variable {memory' : Memory} {free : List ℕ}

theorem bestChild_first (hcomp : Answers comp lt Kept) {best : ℕ} {child : Node T}
    (hv : Shows heap.elements v) (hkept : Kept memory)
    (h : ComparedHeap.bestChild comp hole heap memory = some (best, child, memory')) :
    Kept memory' ∧ ∀ c, 0 < c → c < heap.elements.length → (c - 1) / 2 = hole →
      ¬ Before lt (v c) (v best) := by
  obtain ⟨left, hleft, heq⟩ := Option.map_eq_some_iff.mp h
  have hirrefl := irrefl_of (Before lt)
  cases hright : heap.elements[2 * hole + 2]? with
  | none =>
    rw [hright] at heq
    cases heq
    refine ⟨hkept, fun c hpos hlt hparent => ?_⟩
    rw [List.getElem?_eq_none_iff] at hright
    obtain rfl : c = 2 * hole + 1 := by omega
    exact hirrefl _
  | some right =>
    rw [hright] at heq
    obtain ⟨hanswer, hkept'⟩ := hcomp memory right.value left.value hkept
    dsimp only at heq
    rw [hanswer] at heq
    split at heq
    · next hup =>
      cases heq
      refine ⟨hkept', fun c hpos hlt hparent => ?_⟩
      rcases (by omega : c = 2 * hole + 1 ∨ c = 2 * hole + 2) with rfl | rfl
      · rw [hv _ _ hleft, hv _ _ hright]
        exact fun hdown => hirrefl _ (trans_of (Before lt) hup hdown)
      · exact hirrefl _
    · next hup =>
      cases heq
      refine ⟨hkept', fun c hpos hlt hparent => ?_⟩
      rcases (by omega : c = 2 * hole + 1 ∨ c = 2 * hole + 2) with rfl | rfl
      · exact hirrefl _
      · rw [hv _ _ hleft, hv _ _ hright]
        exact hup

theorem DownOrder.placed (hv : Shows heap.elements v) (hhole : hole < heap.elements.length)
    (h : DownOrder (Before lt) heap.elements.length v hole node.value)
    (hstop : ∀ c, 0 < c → c < heap.elements.length → (c - 1) / 2 = hole →
      ¬ Before lt (v c) node.value) : InOrder lt (heap.place hole node).elements := by
  refine (hv.set hhole).inOrder ?_
  rw [List.length_set]
  exact h.finish hstop

theorem moveDown_inOrder (hcomp : Answers comp lt Kept) (fuel : ℕ)
    (hfuel : heap.elements.length ≤ hole + fuel) (hhole : hole < heap.elements.length)
    (hv : Shows heap.elements v)
    (h : DownOrder (Before lt) heap.elements.length v hole node.value) (hkept : Kept memory) :
    InOrder lt (ComparedHeap.moveDown comp node fuel hole heap memory).1.elements ∧
      Kept (ComparedHeap.moveDown comp node fuel hole heap memory).2 := by
  induction fuel generalizing hole heap v memory with
  | zero => omega
  | succ fuel ih =>
    unfold ComparedHeap.moveDown
    cases hbest : ComparedHeap.bestChild comp hole heap memory with
    | none =>
      have hleaf : heap.elements.length ≤ 2 * hole + 1 :=
        List.getElem?_eq_none_iff.mp (Option.map_eq_none_iff.mp hbest)
      exact ⟨DownOrder.placed hv hhole h fun c _ _ _ => absurd hleaf (by omega), hkept⟩
    | some found =>
      obtain ⟨best, child, memory'⟩ := found
      obtain ⟨hget, hplace⟩ := bestChild_eq hbest
      obtain ⟨hkept', hfirst⟩ := bestChild_first hcomp hv hkept hbest
      have hchild := hv _ _ hget
      have hlt := (List.getElem?_eq_some_iff.mp hget).1
      obtain ⟨hanswer, hkept''⟩ := hcomp memory' child.value node.value hkept'
      dsimp only
      rw [hanswer]
      split
      · next hdown =>
        have hmove := h.move (by omega) hlt (by omega) (hchild ▸ hdown) hfirst
        rw [hchild, ← List.length_set (i := hole) (a := child)] at hmove
        refine ih ?_ ?_ (hv.set hhole) hmove hkept''
        · rw [elements_place, List.length_set]
          omega
        · rwa [elements_place, List.length_set]
      · next hdown =>
        refine ⟨DownOrder.placed hv hhole h fun c hpos hc hparent => ?_, hkept''⟩
        exact not_before_trans (hfirst c hpos hc hparent) (hchild ▸ hdown)

variable (heap) in
theorem siftUp_inOrder (hcomp : Answers comp lt Kept) (hv : Shows heap.elements v)
    (hnode : heap.elements[index]? = some node)
    (h : UpOrder (Before lt) heap.elements.length v index node.value) (hkept : Kept memory) :
    InOrder lt (ComparedHeap.siftUp comp index heap memory).1.elements ∧
      Kept (ComparedHeap.siftUp comp index heap memory).2 := by
  have hlt := (List.getElem?_eq_some_iff.mp hnode).1
  unfold ComparedHeap.siftUp
  split
  · next hzero =>
    refine ⟨?_, hkept⟩
    have hplaced := UpOrder.placed hv hlt h fun hpos => absurd hpos (by omega)
    rwa [elements_place, set_self hnode] at hplaced
  · rw [hnode]
    exact moveUp_inOrder hcomp index le_rfl hlt hv h hkept

variable (heap) in
theorem siftDown_inOrder (hcomp : Answers comp lt Kept) (hv : Shows heap.elements v)
    (hnode : heap.elements[index]? = some node)
    (h : DownOrder (Before lt) heap.elements.length v index node.value) (hkept : Kept memory) :
    InOrder lt (ComparedHeap.siftDown comp index heap memory).1.elements ∧
      Kept (ComparedHeap.siftDown comp index heap memory).2 := by
  unfold ComparedHeap.siftDown
  rw [hnode]
  exact moveDown_inOrder hcomp _ (by omega) (List.getElem?_eq_some_iff.mp hnode).1 hv h hkept

variable (heap) in
/- Whatever the value at `index` has become, the order is restored around it. -/
theorem resift_inOrder (hcomp : Answers comp lt Kept) (hv : Shows heap.elements v)
    (hnode : heap.elements[index]? = some node)
    (h : Broken (Before lt) heap.elements.length v index) (hkept : Kept memory) :
    InOrder lt (resift comp index node.value heap memory).1.elements ∧
      Kept (resift comp index node.value heap memory).2 := by
  have hlt := (List.getElem?_eq_some_iff.mp hnode).1
  unfold resift
  split
  · next parent hget =>
    split at hget
    · next hpos =>
      have hparent := hv _ _ hget
      obtain ⟨hanswer, hkept'⟩ := hcomp memory node.value parent.value hkept
      dsimp only
      rw [hanswer]
      split
      · next hup =>
        exact siftUp_inOrder heap hcomp hv hnode (h.upOrder hpos (hparent ▸ hup)) hkept'
      · next hup =>
        exact siftDown_inOrder heap hcomp hv hnode ⟨h, fun _ => hparent ▸ hup⟩ hkept'
    · cases hget
  · next hget =>
    refine siftDown_inOrder heap hcomp hv hnode ⟨h, fun hpos => ?_⟩ hkept
    rw [if_pos hpos, List.getElem?_eq_none_iff] at hget
    omega

theorem insert_inOrder (hcomp : Answers comp lt Kept) (h : Wired heap free)
    (horder : InOrder lt heap.elements) (hkept : Kept memory) {key : ℕ} {heap' : IndexedHeap T}
    (hroom : heap.elements.length < noFree.toNat)
    (hinsert : ComparedHeap.insert comp value heap memory = some (key, heap', memory')) :
    InOrder lt heap'.elements ∧ Kept memory' := by
  obtain ⟨k, pos, head, free', hsifts, -, -⟩ :=
    insert_wired comp h value memory hroom
  rw [hsifts, Option.some.injEq, Prod.mk.injEq] at hinsert
  obtain ⟨-, hafter⟩ := hinsert
  obtain ⟨v, hv⟩ := exists_shows ⟨value, k⟩ (heap.elements ++ [⟨value, k⟩])
  have hnode : (heap.elements ++ [⟨value, k⟩])[heap.elements.length]? = some ⟨value, k⟩ :=
    List.getElem?_concat_length
  have hbefore := horder v hv.of_prefix
  have hsift := siftUp_inOrder ⟨heap.elements ++ [⟨value, k⟩], pos, head⟩ hcomp hv hnode ?_ hkept
  · rwa [hafter] at hsift
  · dsimp only
    rw [List.length_append, List.length_singleton]
    refine ⟨⟨fun i hpos hi hne _ => hbefore i hpos (by omega), fun _ c _ hc hparent => ?_⟩,
      fun c _ hc hparent => ?_⟩ <;> omega

/- The value under a key has changed, and nothing else in the order. -/
theorem update_inOrder {key : ℕ} (hcomp : Answers comp lt Kept) (h : Wired heap free)
    (horder : ∀ i node, heap.elements[i]? = some node → node.key.toNat = key →
      ∀ v, Shows heap.elements v → Broken (Before lt) heap.elements.length v i)
    (hkept : Kept memory) {heap' : IndexedHeap T} (hkey : heap.get key ≠ none)
    (hupdate : ComparedHeap.update comp key value heap memory = some (heap', memory')) :
    InOrder lt heap'.elements ∧ Kept memory' := by
  obtain ⟨i, node, hi, hnode, hsifts⟩ :=
    update_sifts comp h value memory hkey
  rw [hsifts, Option.some.injEq] at hupdate
  have hlt := (List.getElem?_eq_some_iff.mp hi).1
  obtain ⟨v, hv⟩ := exists_shows node heap.elements
  have hbroken : Broken (Before lt) heap.elements.length (Function.update v i value) i :=
    (horder i node hi hnode v hv).congr hlt fun j _ hne => Function.update_of_ne hne ..
  rw [← List.length_set] at hbroken
  have hsift := resift_inOrder
    { heap with elements := heap.elements.set i { node with value := value } } hcomp
    (hv.set hlt) (List.getElem?_set_self hlt) hbroken hkept
  rwa [hupdate] at hsift

theorem pop_inOrder (hcomp : Answers comp lt Kept) (h : Wired heap free)
    (horder : InOrder lt heap.elements) (hkept : Kept memory) :
    InOrder lt (ComparedHeap.pop comp heap memory).2.1.elements ∧
      Kept (ComparedHeap.pop comp heap memory).2.2 := by
  rcases pop_cases comp h memory with ⟨-, hpop⟩ | ⟨last, -, hpop⟩ |
    ⟨root, elements, last, helements, hpop, hwired⟩
  · rw [hpop]
    exact ⟨horder, hkept⟩
  · rw [hpop]
    exact ⟨fun v _ i _ hi => absurd hi (Nat.not_lt_zero i), hkept⟩
  · rw [hpop]
    rw [helements] at horder
    obtain ⟨v, hv⟩ := exists_shows root (root :: elements ++ [last])
    obtain ⟨w, hw⟩ := exists_shows root (last :: elements)
    have hshort : Ordered (Before lt) (elements.length + 1) v :=
      (horder v hv).take (by simp)
    have hbroken : Broken (Before lt) (elements.length + 1) w 0 := by
      refine (hshort.broken (by omega)).congr (by omega) fun i hi hne => ?_
      obtain ⟨j, rfl⟩ := Nat.exists_eq_succ_of_ne_zero hne
      have hj : elements[j]? = some elements[j] := List.getElem?_eq_getElem _
      rw [hw (j + 1) _ hj, hv.of_prefix (j + 1) _ hj]
    exact siftDown_inOrder (release root.key
      ⟨last :: elements, heap.pos.set last.key.toNat 0, heap.freeHead⟩) hcomp hw rfl
        ⟨hbroken, fun hpos => absurd hpos (Nat.lt_irrefl 0)⟩ hkept

end Sifting

end Ordering

section Runs

variable {T Memory : Type} {comp : Memory → T → T → Bool × Memory} {heap : IndexedHeap T}
  {free : List ℕ} {memory : Memory}

/- The answers of one operation after the other. -/
def run (comp : Memory → T → T → Bool × Memory) : List (HeapOp T) → IndexedHeap T → Memory →
    Option (List (HeapAnswer T) × IndexedHeap T × Memory)
  | [], heap, memory => some ([], heap, memory)
  | op :: ops, heap, memory => do
    let (answer, heap, memory) ← op.apply comp heap memory
    let (answers, after) ← run comp ops heap memory
    some (answer :: answers, after)

/- What the answers of a run say about the values that keys name. -/
inductive Steps : (ℕ → Option T) → List (HeapOp T) → List (HeapAnswer T) → (ℕ → Option T) → Prop
  | nil (live : ℕ → Option T) : Steps live [] [] live
  | cons {live live' live'' : ℕ → Option T} {op : HeapOp T} {ops : List (HeapOp T)}
      {answer : HeapAnswer T} {answers : List (HeapAnswer T)} (hstep : op.Step live answer live')
      (hrest : Steps live' ops answers live'') : Steps live (op :: ops) (answer :: answers) live''

variable {ops : List (HeapOp T)} {answers : List (HeapAnswer T)} {heap' : IndexedHeap T}
  {memory' : Memory} {lt : T → T → Bool}

theorem run_cons {op : HeapOp T} {after : IndexedHeap T × Memory} :
    run comp (op :: ops) heap memory = some (answers, after) ↔
    ∃ answer heap' memory' rest, op.apply comp heap memory = some (answer, heap', memory') ∧
      run comp ops heap' memory' = some (rest, after) ∧ answers = answer :: rest := by
  rw [run]
  constructor
  · intro h
    obtain ⟨⟨answer, heap', memory'⟩, happly, hrest⟩ := Option.bind_eq_some_iff.mp h
    obtain ⟨⟨rest, last⟩, hrun, heq⟩ := Option.bind_eq_some_iff.mp hrest
    rw [Option.some.injEq, Prod.mk.injEq] at heq
    obtain ⟨rfl, rfl⟩ := heq
    exact ⟨answer, heap', memory', rest, happly, hrun, rfl⟩
  · rintro ⟨answer, heap', memory', rest, happly, hrun, rfl⟩
    rw [happly, Option.bind_eq_bind, Option.bind_some]
    dsimp only
    rw [hrun]
    rfl

theorem live_keys (h : Wired heap free) : {key | heap.get key ≠ none} =
    ((heap.elements.map fun node => node.key.toNat).toFinset : Set ℕ) := by
  ext key
  rw [Set.mem_ofPred_eq, Ne, h.get_eq_none, List.coe_toFinset, Set.mem_ofPred_eq, List.mem_map]
  push Not
  rfl

theorem live_ncard (h : Wired heap free) :
    {key | heap.get key ≠ none}.ncard = heap.elements.length := by
  rw [live_keys h, Set.ncard_coe_finset,
    List.toFinset_card_of_nodup (placed_nodup h.placed h.small), List.length_map]

theorem get_nil (h : Wired heap free) (hnil : heap.elements = []) (key : ℕ) :
    heap.get key = none := by
  rw [h.get_eq_none, hnil]
  exact fun node hnode => (nomatch hnode)

/- A step panics where it should, or is one of those that may be. -/
theorem apply_spec (h : Wired heap free) (op : HeapOp T) (memory : Memory) :
    (op.Panics heap.get ∧ op.apply comp heap memory = none) ∨
    ¬ op.Panics heap.get ∧ ∃ answer heap' memory' free',
      op.apply comp heap memory = some (answer, heap', memory') ∧ Wired heap' free' ∧
        op.Step heap.get answer heap'.get := by
  cases op with
  | insert value =>
    unfold HeapOp.Panics HeapOp.apply HeapOp.Step
    dsimp only
    rw [live_ncard h]
    rcases Nat.lt_or_ge heap.elements.length noFree.toNat with hroom | hfull
    · obtain ⟨key, heap', memory', free', hinsert, hwired, hfresh, hget, -⟩ :=
        insert_spec comp h value memory hroom
      rw [hinsert]
      exact Or.inr ⟨by omega, .key key, heap', memory', free', rfl, hwired, key, rfl, hfresh, hget⟩
    · rw [insert_panics comp value memory hfull]
      exact Or.inl ⟨hfull, rfl⟩
  | update key value =>
    unfold HeapOp.Panics HeapOp.apply HeapOp.Step
    dsimp only
    by_cases hkey : heap.get key = none
    · rw [update_panics comp h value memory hkey]
      exact Or.inl ⟨hkey, rfl⟩
    · obtain ⟨heap', memory', node, elements, hupdate, hwired, rfl, hperm, hperm'⟩ :=
        update_spec comp h value memory hkey
      rw [hupdate]
      exact Or.inr ⟨hkey, .done, heap', memory', free, rfl, hwired, rfl, hkey,
        get_replace h hwired hperm hperm'⟩
  | pop =>
    refine Or.inr ⟨id, ?_⟩
    unfold HeapOp.apply HeapOp.Step
    dsimp only
    rcases pop_spec comp h memory with ⟨hnil, hpop⟩ |
      ⟨node, heap', memory', free', -, hpop, hwired, hperm⟩
    · rw [hpop]
      exact ⟨.value none, heap, memory, free, rfl, h, Or.inr ⟨get_nil h hnil, rfl, rfl⟩⟩
    · rw [hpop]
      obtain ⟨hget, hget'⟩ := get_erase h hwired hperm
      exact ⟨.value (some node.value), heap', memory', free', rfl, hwired,
        Or.inl ⟨_, _, hget, rfl, hget'⟩⟩
  | top =>
    refine Or.inr ⟨id, .value heap.top, heap, memory, free, rfl, h, rfl, ?_⟩
    unfold IndexedHeap.top
    cases hhead : heap.elements.head? with
    | none => exact Or.inr ⟨get_nil h (List.head?_eq_none_iff.mp hhead), rfl⟩
    | some node =>
      have hnode := h.get_eq_some.mpr ⟨node, List.mem_of_head? hhead, rfl, rfl⟩
      exact Or.inl ⟨_, _, hnode, rfl⟩
  | get key => exact Or.inr ⟨id, .value (heap.get key), heap, memory, free, rfl, h, rfl, rfl⟩
  | clear =>
    obtain ⟨hnil, free', hwired⟩ := clear_spec h
    exact Or.inr ⟨id, .done, heap.clear, memory, free', rfl, hwired, rfl,
      funext (get_nil hwired hnil)⟩

theorem run_spec (h : Wired heap free)
    (hrun : run comp ops heap memory = some (answers, heap', memory')) :
    (∃ free', Wired heap' free') ∧ Steps heap.get ops answers heap'.get := by
  induction ops generalizing heap free memory answers with
  | nil =>
    cases hrun
    exact ⟨⟨free, h⟩, .nil _⟩
  | cons op ops ih =>
    obtain ⟨answer, mid, memory', rest, happly, hrest, rfl⟩ := run_cons.mp hrun
    rcases apply_spec h op memory with ⟨-, hnone⟩ | ⟨-, a, next, m, free', hsome, hwired, hstep⟩
    · rw [happly] at hnone
      cases hnone
    · rw [happly, Option.some.injEq, Prod.mk.injEq, Prod.mk.injEq] at hsome
      obtain ⟨rfl, rfl, rfl⟩ := hsome
      obtain ⟨hfree, hsteps⟩ := ih hwired hrest
      exact ⟨hfree, .cons hstep hsteps⟩

theorem apply_inOrder [IsStrictWeakOrder T (Before lt)]
    (hcomp : ∀ memory a b, (comp memory a b).1 = lt a b) (h : Wired heap free)
    (horder : InOrder lt heap.elements) {op : HeapOp T} {answer : HeapAnswer T}
    (happly : op.apply comp heap memory = some (answer, heap', memory')) :
    InOrder lt heap'.elements := by
  have hanswers : Answers comp lt fun _ => True := fun memory a b _ => ⟨hcomp memory a b, trivial⟩
  cases op with
  | insert value =>
    obtain ⟨⟨key, after⟩, hinsert, heq⟩ := Option.map_eq_some_iff.mp happly
    cases heq
    have hroom : heap.elements.length < noFree.toNat := by
      by_contra hfull
      rw [insert_panics comp value memory (not_lt.mp hfull)] at hinsert
      cases hinsert
    exact (insert_inOrder hanswers h horder trivial hroom hinsert).1
  | update key value =>
    obtain ⟨after, hupdate, heq⟩ := Option.map_eq_some_iff.mp happly
    cases heq
    have hkey : heap.get key ≠ none := by
      intro hnone
      rw [update_panics comp h value memory hnone] at hupdate
      cases hupdate
    refine (update_inOrder hanswers h (fun i node hi _ v hv => ?_) trivial hkey hupdate).1
    exact (horder v hv).broken (List.getElem?_eq_some_iff.mp hi).1
  | pop =>
    have hafter : (ComparedHeap.pop comp heap memory).2 = (heap', memory') :=
      congrArg Prod.snd (Option.some.inj happly)
    have hpop : InOrder lt (ComparedHeap.pop comp heap memory).2.1.elements :=
      (pop_inOrder hanswers h horder trivial).1
    rwa [hafter] at hpop
  | top =>
    cases happly
    exact horder
  | get key =>
    cases happly
    exact horder
  | clear =>
    cases happly
    rw [(clear_spec h).1]
    exact fun v _ i _ hi => absurd hi (Nat.not_lt_zero i)

theorem run_inOrder [IsStrictWeakOrder T (Before lt)]
    (hcomp : ∀ memory a b, (comp memory a b).1 = lt a b) (h : Wired heap free)
    (horder : InOrder lt heap.elements)
    (hrun : run comp ops heap memory = some (answers, heap', memory')) :
    InOrder lt heap'.elements := by
  induction ops generalizing heap free memory answers with
  | nil =>
    cases hrun
    exact horder
  | cons op ops ih =>
    obtain ⟨answer, mid, memory', rest, happly, hrest, rfl⟩ := run_cons.mp hrun
    have hmid := apply_inOrder hcomp h horder happly
    rcases apply_spec h op memory with ⟨-, hnone⟩ | ⟨-, a, next, m, free', hsome, hwired, -⟩
    · rw [happly] at hnone
      cases hnone
    · rw [happly, Option.some.injEq, Prod.mk.injEq, Prod.mk.injEq] at hsome
      obtain ⟨rfl, rfl, rfl⟩ := hsome
      exact ih hwired hmid hrest

variable (comp memory) in
/- What is handed out goes before all. -/
theorem first_minimal [IsStrictWeakOrder T (Before lt)] (h : Wired heap free)
    (horder : InOrder lt heap.elements) {value : T}
    (hvalue : heap.top = some value ∨ (ComparedHeap.pop comp heap memory).1 = some value) {key : ℕ}
    {other : T} (hother : heap.get key = some other) : lt other value = false := by
  obtain ⟨a, ha, -, rfl⟩ := h.get_eq_some.mp hother
  have hroot : ∃ root, heap.elements.head? = some root ∧ root.value = value := by
    rcases hvalue with htop | hpopped
    · exact Option.map_eq_some_iff.mp htop
    · rcases pop_spec comp h memory with ⟨-, hpop⟩ | ⟨node, _, _, _, hhead, hpop, -, -⟩
      · rw [hpop] at hpopped
        cases hpopped
      · rw [hpop] at hpopped
        exact ⟨node, hhead, Option.some.inj hpopped⟩
  obtain ⟨root, hhead, rfl⟩ := hroot
  exact horder.root_first hhead ha

/- Whatever the comparator answers, every key names the element it was given for until that one is
popped or all are cleared; only a fixed order makes it matter which one goes first. -/
theorem indexedHeap_faithful {ops : List (HeapOp T)} {answers : List (HeapAnswer T)}
    {memory' : Memory} (hrun : run comp ops .new memory = some (answers, heap, memory')) :
    Steps (fun _ => none) ops answers heap.get ∧
      (heap.elements.map fun node => node.key.toNat).Nodup ∧
      (∀ key value, heap.get key = some value ↔
        ∃ node ∈ heap.elements, node.key.toNat = key ∧ node.value = value) ∧
      (∀ op : HeapOp T, op.apply comp heap memory' = none ↔ op.Panics heap.get) ∧
      ∀ lt : T → T → Bool, IsStrictWeakOrder T (Before lt) →
        (∀ memory a b, (comp memory a b).1 = lt a b) → ∀ value,
          (heap.top = some value ∨ (ComparedHeap.pop comp heap memory').1 = some value) →
          ∀ key other, heap.get key = some other → lt other value = false := by
  obtain ⟨⟨free', hwired⟩, hsteps⟩ := run_spec wired_new hrun
  refine ⟨?_, placed_nodup hwired.placed hwired.small, fun key value => hwired.get_eq_some,
    fun op => ?_, fun lt hlt hcomp value hvalue key other hother => ?_⟩
  · have hnew : (IndexedHeap.new (T := T)).get = fun _ => none := funext (get_nil wired_new rfl)
    rwa [hnew] at hsteps
  · rcases apply_spec hwired op memory' with ⟨hpanics, hnone⟩ | ⟨hok, _, _, _, _, hsome, -, -⟩
    · exact iff_of_true hnone hpanics
    · exact iff_of_false (by rw [hsome]; exact nofun) hok
  · have hnew : InOrder lt (IndexedHeap.new (T := T)).elements :=
      fun v _ i _ hi => absurd hi (Nat.not_lt_zero i)
    exact first_minimal comp memory' hwired (run_inOrder hcomp wired_new hnew hrun) hvalue hother

/- A comparator that answers yes and no in turn. -/
theorem indexedHeap_faithful_fickle :
    run (fun memory _ _ => (memory, !memory))
      [.insert 5, .insert 3, .insert 9, .update 2 7, .pop, .get 0, .insert 4, .top] .new true =
        some ([.key 0, .key 1, .key 2, .done, .value (some 3), .value (some 5), .key 1,
          .value (some 5)], ⟨[⟨5, 0⟩, ⟨7, 2⟩, ⟨4, 1⟩], [0, 2, 1], noFree⟩, true) ∧
      (IndexedHeap.mk [⟨5, 0⟩, ⟨7, 2⟩, ⟨4, 1⟩] [0, 2, 1] noFree).get 1 = some 4 := by
  have hrun : run (fun memory _ _ => (memory, !memory))
      [.insert 5, .insert 3, .insert 9, .update 2 7, .pop, .get 0, .insert 4, .top] .new true =
        some ([.key 0, .key 1, .key 2, .done, .value (some 3), .value (some 5), .key 1,
          .value (some 5)], ⟨[⟨5, 0⟩, ⟨7, 2⟩, ⟨4, 1⟩], [0, 2, 1], noFree⟩, true) := rfl
  exact ⟨hrun, ((indexedHeap_faithful hrun).2.2.1 1 4).mpr ⟨⟨4, 1⟩, by simp, rfl, rfl⟩⟩

end Runs

end Sicada.IndexedHeapRuns
