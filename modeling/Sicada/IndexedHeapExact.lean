import Sicada.IndexedHeap
import Sicada.Runs

namespace Sicada.IndexedHeapExact

open IndexedHeap

section Tags

variable {x : BitVec 32} {k : ℕ}

theorem freeFlag_eq : freeFlag = BitVec.twoPow 32 31 := by decide

theorem noFree_toNat : noFree.toNat = 2 ^ 31 - 1 := by decide

theorem tag_or (x : BitVec 32) : (freeFlag ||| x) &&& freeFlag ≠ 0 := by
  rw [freeFlag_eq, BitVec.and_twoPow]
  simp

theorem getLsbD_of_lt (hx : x.toNat < 2 ^ 31) : x.getLsbD 31 = false :=
  Nat.testBit_lt_two_pow hx

theorem tag_index (hx : x.toNat < 2 ^ 31) : x &&& freeFlag = 0 := by
  rw [freeFlag_eq, BitVec.and_twoPow, getLsbD_of_lt hx]
  rfl

theorem untag (hx : x.toNat < 2 ^ 31) : (freeFlag ||| x) &&& ~~~freeFlag = x := by
  rw [freeFlag_eq]
  ext i hi
  by_cases h : i = 31
  · subst h
    have hbit := getLsbD_of_lt hx
    simp at hbit
    simp [hbit]
  · simp [h]

theorem le_tag (x : BitVec 32) : 2 ^ 31 ≤ (freeFlag ||| x).toNat := by
  apply Nat.ge_two_pow_of_testBit
  change (freeFlag ||| x).getLsbD 31 = true
  rw [freeFlag_eq]
  simp

theorem ofNat_toNat_lt (hk : k < 2 ^ 31) : (BitVec.ofNat 32 k).toNat = k := by
  rw [BitVec.toNat_ofNat]
  exact Nat.mod_eq_of_lt (by omega)

end Tags

section Wiring

variable {T : Type} {heap heap' : IndexedHeap T} {free : List ℕ} {elements : List (Node T)}
  {pos pos' : List (BitVec 32)} {node other : Node T} {i j k : ℕ}

/- The keys that are free, threaded through their own entries. -/
def FreeList (pos : List (BitVec 32)) : BitVec 32 → List ℕ → Prop
  | head, [] => head = noFree
  | head, k :: free =>
    head = .ofNat 32 k ∧ ∃ next, pos[k]? = some (freeFlag ||| next) ∧ FreeList pos next free

def Placed (elements : List (Node T)) (pos : List (BitVec 32)) : Prop :=
  ∀ (i : ℕ) (node : Node T), elements[i]? = some node →
    pos[node.key.toNat]? = some (.ofNat 32 i)

/- Each key is the key of one element, or it is free. -/
structure Wired (heap : IndexedHeap T) (free : List ℕ) : Prop where
  bound : heap.pos.length ≤ noFree.toNat
  small : heap.elements.length ≤ noFree.toNat
  placed : Placed heap.elements heap.pos
  chain : FreeList heap.pos heap.freeHead free
  nodup : free.Nodup
  cover : ∀ k < heap.pos.length, k ∈ free ∨ ∃ node ∈ heap.elements, node.key.toNat = k

theorem chain_congr {head : BitVec 32} (h : FreeList pos head free)
    (hsame : ∀ k ∈ free, pos'[k]? = pos[k]?) : FreeList pos' head free := by
  induction free generalizing head with
  | nil => exact h
  | cons k free ih =>
    obtain ⟨hhead, next, hnext, hrest⟩ := h
    exact ⟨hhead, next, (hsame k List.mem_cons_self).trans hnext,
      ih hrest fun j hj => hsame j (List.mem_cons_of_mem _ hj)⟩

theorem chain_mem {head : BitVec 32} (h : FreeList pos head free) (hk : k ∈ free) :
    ∃ next, pos[k]? = some (freeFlag ||| next) := by
  induction free generalizing head with
  | nil => cases hk
  | cons k' free ih =>
    obtain ⟨-, next, hnext, hrest⟩ := h
    rcases List.mem_cons.mp hk with rfl | hk
    · exact ⟨next, hnext⟩
    · exact ih hrest hk

theorem chain_head {head : BitVec 32} (h : FreeList pos head free)
    (hbound : pos.length ≤ noFree.toNat) : head.toNat < 2 ^ 31 := by
  rw [noFree_toNat] at hbound
  cases free with
  | nil =>
    rw [show head = noFree from h, noFree_toNat]
    norm_num
  | cons k free =>
    obtain ⟨rfl, next, hnext, -⟩ := h
    have hk := (List.getElem?_eq_some_iff.mp hnext).1
    rw [ofNat_toNat_lt (by omega)]
    omega

/- Two elements that a key leads to are one. -/
theorem placed_inj (h : Placed elements pos) (hsmall : elements.length ≤ noFree.toNat)
    (hi : elements[i]? = some node) (hj : elements[j]? = some other)
    (hkey : node.key.toNat = other.key.toNat) : i = j := by
  rw [noFree_toNat] at hsmall
  have hi' := (List.getElem?_eq_some_iff.mp hi).1
  have hj' := (List.getElem?_eq_some_iff.mp hj).1
  have hsame := h i node hi
  rw [hkey, h j other hj, Option.some.injEq] at hsame
  have hnat := congrArg BitVec.toNat hsame
  rw [ofNat_toNat_lt (by omega), ofNat_toNat_lt (by omega)] at hnat
  exact hnat.symm

theorem placed_nodup (h : Placed elements pos) (hsmall : elements.length ≤ noFree.toNat) :
    (elements.map fun node => node.key.toNat).Nodup := by
  rw [List.nodup_iff_injective_get]
  intro i j hij
  rw [List.get_eq_getElem, List.get_eq_getElem, List.getElem_map, List.getElem_map] at hij
  have hi : i.1 < elements.length := by simpa using i.2
  have hj : j.1 < elements.length := by simpa using j.2
  exact Fin.ext (placed_inj h hsmall (List.getElem?_eq_getElem hi) (List.getElem?_eq_getElem hj) hij)

/- The key of an element is not free. -/
theorem Wired.live_not_free (h : Wired heap free) (hnode : node ∈ heap.elements) :
    node.key.toNat ∉ free := by
  intro hfree
  obtain ⟨i, hi⟩ := List.mem_iff_getElem?.mp hnode
  obtain ⟨next, hnext⟩ := chain_mem h.chain hfree
  have hlt := (List.getElem?_eq_some_iff.mp hi).1
  have hsmall := h.small
  rw [noFree_toNat] at hsmall
  rw [h.placed i node hi, Option.some.injEq] at hnext
  have htag := tag_or next
  rw [← hnext, tag_index (by rw [ofNat_toNat_lt (by omega)]; omega)] at htag
  exact htag rfl

theorem Wired.key_lt (h : Wired heap free) (hnode : node ∈ heap.elements) :
    node.key.toNat < heap.pos.length := by
  obtain ⟨i, hi⟩ := List.mem_iff_getElem?.mp hnode
  exact (List.getElem?_eq_some_iff.mp (h.placed i node hi)).1

/- What a key names. -/
theorem Wired.get_eq_some (h : Wired heap free) {value : T} : heap.get k = some value ↔
    ∃ node ∈ heap.elements, node.key.toNat = k ∧ node.value = value := by
  have hsmall := h.small
  rw [noFree_toNat] at hsmall
  unfold IndexedHeap.get IndexedHeap.indexOf
  constructor
  · intro hget
    obtain ⟨index, hindex, hvalue⟩ := Option.bind_eq_some_iff.mp hget
    obtain ⟨node, hnode, rfl⟩ := Option.map_eq_some_iff.mp hvalue
    cases hpos : heap.pos[k]? with
    | none =>
      rw [hpos] at hindex
      cases hindex
    | some x =>
      rw [hpos] at hindex
      dsimp only at hindex
      split at hindex
      · next htag =>
        rcases h.cover k (List.getElem?_eq_some_iff.mp hpos).1 with hfree | ⟨a, ha, rfl⟩
        · obtain ⟨next, hnext⟩ := chain_mem h.chain hfree
          rw [hpos, Option.some.injEq] at hnext
          exact absurd htag (hnext ▸ tag_or next)
        · obtain ⟨i, hi⟩ := List.mem_iff_getElem?.mp ha
          have hlt := (List.getElem?_eq_some_iff.mp hi).1
          rw [h.placed i a hi, Option.some.injEq] at hpos
          rw [← hpos, ofNat_toNat_lt (by omega), Option.some.injEq] at hindex
          subst hindex
          obtain rfl : a = node := Option.some.inj (hi.symm.trans hnode)
          exact ⟨a, ha, rfl, rfl⟩
      · cases hindex
  · rintro ⟨node, hnode, rfl, rfl⟩
    obtain ⟨i, hi⟩ := List.mem_iff_getElem?.mp hnode
    have hlt := (List.getElem?_eq_some_iff.mp hi).1
    have hnat : (BitVec.ofNat 32 i).toNat = i := ofNat_toNat_lt (by omega)
    rw [h.placed i node hi]
    dsimp only
    rw [if_pos (tag_index (by rw [hnat]; omega)), Option.bind_some, hnat, hi, Option.map_some]

theorem Wired.get_eq_none (h : Wired heap free) :
    heap.get k = none ↔ ∀ node ∈ heap.elements, node.key.toNat ≠ k := by
  rw [Option.eq_none_iff_forall_ne_some]
  constructor
  · intro hnone node hnode hkey
    exact hnone node.value (h.get_eq_some.mpr ⟨node, hnode, hkey, rfl⟩)
  · rintro hnone value hget
    obtain ⟨node, hnode, hkey, -⟩ := h.get_eq_some.mp hget
    exact hnone node hnode hkey

/- The order of the elements does not matter to the keys. -/
theorem get_of_perm (h : Wired heap free) {free' : List ℕ} (h' : Wired heap' free')
    (hperm : heap'.elements.Perm heap.elements) : heap'.get = heap.get := by
  funext k
  apply Option.ext
  intro value
  rw [h'.get_eq_some, h.get_eq_some]
  exact exists_congr fun node => and_congr_left fun _ => hperm.mem_iff

/- The element at the hole and another one change places. -/
theorem wired_swap (hhole : i < heap.elements.length) (hij : i ≠ j)
    (hother : heap.elements[j]? = some other) (h : Wired (heap.place i node) free) :
    Wired ((heap.place i other).place j node) free := by
  have hj : j < heap.elements.length := (List.getElem?_eq_some_iff.mp hother).1
  have hnode : (heap.place i node).elements[i]? = some node := by
    rw [elements_place, List.getElem?_set_self hhole]
  have hother' : (heap.place i node).elements[j]? = some other := by
    rw [elements_place, List.getElem?_set_ne hij, hother]
  have hkeys : ∀ {a b : ℕ} {x y : Node T}, (heap.place i node).elements[a]? = some x →
      (heap.place i node).elements[b]? = some y → a ≠ b → x.key.toNat ≠ y.key.toNat :=
    fun hx hy hne hkey => hne (placed_inj h.placed h.small hx hy hkey)
  have hperm : ((heap.place i other).place j node).elements.Perm (heap.place i node).elements := by
    rw [elements_place, elements_place, elements_place]
    exact set_set_perm hij hhole hother
  have hlength : ((heap.place i other).place j node).pos.length =
      (heap.place i node).pos.length := by
    unfold IndexedHeap.place
    dsimp only
    rw [List.length_set, List.length_set, List.length_set]
  have hpos : ∀ k, k ≠ node.key.toNat → k ≠ other.key.toNat →
      ((heap.place i other).place j node).pos[k]? = (heap.place i node).pos[k]? := by
    intro k hk hk'
    unfold IndexedHeap.place
    dsimp only
    rw [List.getElem?_set_ne (Ne.symm hk), List.getElem?_set_ne (Ne.symm hk'),
      List.getElem?_set_ne (Ne.symm hk)]
  have hnodeKey : node.key.toNat < heap.pos.length := by
    have hlt := (List.getElem?_eq_some_iff.mp (h.placed i node hnode)).1
    unfold IndexedHeap.place at hlt
    dsimp only at hlt
    rwa [List.length_set] at hlt
  have hotherKey : other.key.toNat < heap.pos.length := by
    have hlt := (List.getElem?_eq_some_iff.mp (h.placed j other hother')).1
    unfold IndexedHeap.place at hlt
    dsimp only at hlt
    rwa [List.length_set] at hlt
  refine ⟨hlength.trans_le h.bound, hperm.length_eq.trans_le h.small, fun a x hx => ?_,
    chain_congr h.chain fun k hk => hpos k ?_ ?_, h.nodup, fun k hk => ?_⟩
  · rw [elements_place, elements_place] at hx
    by_cases haj : j = a
    · subst haj
      rw [List.getElem?_set_self (by rwa [List.length_set]), Option.some.injEq] at hx
      subst hx
      unfold IndexedHeap.place
      dsimp only
      rw [List.getElem?_set_self (by rwa [List.length_set])]
    · rw [List.getElem?_set_ne haj] at hx
      by_cases hai : i = a
      · subst hai
        rw [List.getElem?_set_self hhole, Option.some.injEq] at hx
        subst hx
        unfold IndexedHeap.place
        dsimp only
        rw [List.getElem?_set_ne (hkeys hnode hother' hij), List.getElem?_set_self hotherKey]
      · rw [List.getElem?_set_ne hai] at hx
        have hx' : (heap.place i node).elements[a]? = some x := by
          rw [elements_place, List.getElem?_set_ne hai, hx]
        rw [hpos _ (hkeys hx' hnode (Ne.symm hai)) (hkeys hx' hother' (Ne.symm haj))]
        exact h.placed a x hx'
  · rintro rfl
    exact h.live_not_free (List.mem_of_getElem? hnode) hk
  · rintro rfl
    exact h.live_not_free (List.mem_of_getElem? hother') hk
  · rw [hlength] at hk
    rcases h.cover k hk with hfree | ⟨x, hx, hkey⟩
    · exact Or.inl hfree
    · exact Or.inr ⟨x, hperm.mem_iff.mpr hx, hkey⟩

/- An element put back where it is changes nothing. -/
theorem place_self (h : Wired heap free) (hnode : heap.elements[i]? = some node) :
    heap.place i node = heap := by
  unfold IndexedHeap.place
  have hpos : heap.pos.set node.key.toNat (.ofNat 32 i) = heap.pos := by
    obtain ⟨hlt, hget⟩ := List.getElem?_eq_some_iff.mp (h.placed i node hnode)
    rw [← hget]
    exact List.set_getElem_self hlt
  rw [set_self hnode, hpos]

end Wiring

section Sifting

variable {T Memory : Type} {comp : Memory → T → T → Bool × Memory} {heap : IndexedHeap T}
  {free : List ℕ} {node : Node T}

variable (comp) in
theorem moveUp_wired (fuel : ℕ) {hole : ℕ} (memory : Memory) (hhole : hole < heap.elements.length)
    (h : Wired (heap.place hole node) free) :
    Wired (ComparedHeap.moveUp comp node fuel hole heap memory).1 free ∧
      (ComparedHeap.moveUp comp node fuel hole heap memory).1.elements.Perm
        (heap.elements.set hole node) := by
  induction fuel generalizing hole heap memory with
  | zero => exact ⟨h, List.Perm.refl _⟩
  | succ fuel ih =>
    unfold ComparedHeap.moveUp
    split
    · exact ⟨h, List.Perm.refl _⟩
    · next hne =>
      split
      · next parent hparent =>
        dsimp only
        split
        · have hlt : (hole - 1) / 2 < (heap.place hole parent).elements.length := by
            rw [elements_place, List.length_set]
            omega
          obtain ⟨hwired, hperm⟩ := ih (comp memory node.value parent.value).2 hlt
            (wired_swap hhole (by omega) hparent h)
          exact ⟨hwired, hperm.trans (set_set_perm (by omega) hhole hparent)⟩
        · exact ⟨h, List.Perm.refl _⟩
      · exact ⟨h, List.Perm.refl _⟩

theorem bestChild_eq {hole best : ℕ} {child : Node T} {memory memory' : Memory}
    (h : ComparedHeap.bestChild comp hole heap memory = some (best, child, memory')) :
    heap.elements[best]? = some child ∧ (best = 2 * hole + 1 ∨ best = 2 * hole + 2) := by
  obtain ⟨left, hleft, heq⟩ := Option.map_eq_some_iff.mp h
  split at heq
  · next right hright =>
    dsimp only at heq
    split at heq
    · cases heq
      exact ⟨hright, Or.inr rfl⟩
    · cases heq
      exact ⟨hleft, Or.inl rfl⟩
  · cases heq
    exact ⟨hleft, Or.inl rfl⟩

variable (comp) in
theorem moveDown_wired (fuel : ℕ) {hole : ℕ} (memory : Memory)
    (hhole : hole < heap.elements.length) (h : Wired (heap.place hole node) free) :
    Wired (ComparedHeap.moveDown comp node fuel hole heap memory).1 free ∧
      (ComparedHeap.moveDown comp node fuel hole heap memory).1.elements.Perm
        (heap.elements.set hole node) := by
  induction fuel generalizing hole heap memory with
  | zero => exact ⟨h, List.Perm.refl _⟩
  | succ fuel ih =>
    unfold ComparedHeap.moveDown
    split
    · next best child memory' hbest =>
      obtain ⟨hchild, hplace⟩ := bestChild_eq hbest
      dsimp only
      split
      · have hlt : best < (heap.place hole child).elements.length := by
          rw [elements_place, List.length_set]
          exact (List.getElem?_eq_some_iff.mp hchild).1
        obtain ⟨hwired, hperm⟩ := ih (comp memory' child.value node.value).2 hlt
          (wired_swap hhole (by omega) hchild h)
        exact ⟨hwired, hperm.trans (set_set_perm (by omega) hhole hchild)⟩
      · exact ⟨h, List.Perm.refl _⟩
    · exact ⟨h, List.Perm.refl _⟩

variable (comp) in
theorem siftUp_wired (index : ℕ) (memory : Memory) (h : Wired heap free) :
    Wired (ComparedHeap.siftUp comp index heap memory).1 free ∧
      (ComparedHeap.siftUp comp index heap memory).1.elements.Perm heap.elements := by
  unfold ComparedHeap.siftUp
  split
  · exact ⟨h, List.Perm.refl _⟩
  · split
    · next node hnode =>
      have hmove := moveUp_wired comp index memory (List.getElem?_eq_some_iff.mp hnode).1
        ((place_self h hnode).symm ▸ h)
      rwa [set_self hnode] at hmove
    · exact ⟨h, List.Perm.refl _⟩

variable (comp) in
theorem siftDown_wired (index : ℕ) (memory : Memory) (h : Wired heap free) :
    Wired (ComparedHeap.siftDown comp index heap memory).1 free ∧
      (ComparedHeap.siftDown comp index heap memory).1.elements.Perm heap.elements := by
  unfold ComparedHeap.siftDown
  split
  · next node hnode =>
    have hmove := moveDown_wired comp heap.elements.length memory
      (List.getElem?_eq_some_iff.mp hnode).1 ((place_self h hnode).symm ▸ h)
    rwa [set_self hnode] at hmove
  · exact ⟨h, List.Perm.refl _⟩

end Sifting

section Operations

variable {T Memory : Type} {comp : Memory → T → T → Bool × Memory} {heap heap' : IndexedHeap T}
  {free free' : List ℕ} {node : Node T} {elements : List (Node T)} {pos : List (BitVec 32)} {i k : ℕ}

/- What there is after an element has come. -/
theorem get_cons (h : Wired heap free) (h' : Wired heap' free')
    (hperm : heap'.elements.Perm (node :: heap.elements))
    (hfresh : heap.get node.key.toNat = none) :
    heap'.get = Function.update heap.get node.key.toNat (some node.value) := by
  funext k
  apply Option.ext
  intro value
  rw [h'.get_eq_some]
  simp only [hperm.mem_iff, List.mem_cons, or_and_right, exists_or, exists_eq_left]
  by_cases hk : k = node.key.toNat
  · subst hk
    rw [Function.update_self, Option.some.injEq]
    have hnone := h.get_eq_none.mp hfresh
    constructor
    · rintro (⟨-, hvalue⟩ | ⟨a, ha, hkey, -⟩)
      · exact hvalue
      · exact absurd hkey (hnone a ha)
    · exact fun hvalue => Or.inl ⟨rfl, hvalue⟩
  · rw [Function.update_of_ne hk, h.get_eq_some]
    exact or_iff_right fun heq => hk heq.1.symm

/- What there is after an element has gone. -/
theorem get_erase (h : Wired heap free) (h' : Wired heap' free')
    (hperm : heap.elements.Perm (node :: heap'.elements)) :
    heap.get node.key.toNat = some node.value ∧
      heap'.get = Function.update heap.get node.key.toNat none := by
  have hnode : node ∈ heap.elements := hperm.mem_iff.mpr List.mem_cons_self
  have hnodup := placed_nodup h.placed h.small
  rw [(hperm.map fun node => node.key.toNat).nodup_iff, List.map_cons] at hnodup
  have hout := (List.nodup_cons.mp hnodup).1
  refine ⟨h.get_eq_some.mpr ⟨node, hnode, rfl, rfl⟩, ?_⟩
  funext k
  apply Option.ext
  intro value
  rw [h'.get_eq_some]
  by_cases hk : k = node.key.toNat
  · subst hk
    rw [Function.update_self]
    refine iff_of_false ?_ nofun
    rintro ⟨a, ha, hkey, -⟩
    exact hout (List.mem_map.mpr ⟨a, ha, hkey⟩)
  · rw [Function.update_of_ne hk, h.get_eq_some]
    simp only [hperm.mem_iff, List.mem_cons, or_and_right, exists_or, exists_eq_left]
    exact (or_iff_right fun heq => hk heq.1.symm).symm

/- An element goes and its key becomes the first that is free. -/
theorem wired_release (h : Wired heap free) (hperm : heap.elements.Perm (node :: elements))
    (hplaced : Placed elements pos) (hlength : pos.length = heap.pos.length)
    (hsame : ∀ k ∈ free, pos[k]? = heap.pos[k]?) :
    Wired (release node.key ⟨elements, pos, heap.freeHead⟩) (node.key.toNat :: free) := by
  have hnode : node ∈ heap.elements := hperm.mem_iff.mpr List.mem_cons_self
  have hnodup := placed_nodup h.placed h.small
  rw [(hperm.map fun node => node.key.toNat).nodup_iff, List.map_cons] at hnodup
  have hout := (List.nodup_cons.mp hnodup).1
  have hfree := h.live_not_free hnode
  have hlt := h.key_lt hnode
  have hsize := hperm.length_eq
  rw [List.length_cons] at hsize
  have hsmall := h.small
  unfold IndexedHeap.release
  refine ⟨?_, ?_, fun i a ha => ?_, ⟨(BitVec.ofNat_toNat 32 _).symm ▸ ?_, heap.freeHead, ?_, ?_⟩,
    List.nodup_cons.mpr ⟨hfree, h.nodup⟩, fun k hk => ?_⟩
  · dsimp only
    rw [List.length_set, hlength]
    exact h.bound
  · dsimp only
    omega
  · dsimp only at ha ⊢
    have hne : node.key.toNat ≠ a.key.toNat := fun heq =>
      hout (List.mem_map.mpr ⟨a, List.mem_of_getElem? ha, heq.symm⟩)
    rw [List.getElem?_set_ne hne]
    exact hplaced i a ha
  · exact (BitVec.setWidth_eq _).symm
  · dsimp only
    rw [List.getElem?_set_self (by omega)]
  · dsimp only
    refine chain_congr h.chain fun k hk => ?_
    have hne : node.key.toNat ≠ k := fun heq => hfree (heq ▸ hk)
    rw [List.getElem?_set_ne hne]
    exact hsame k hk
  · dsimp only at hk ⊢
    rw [List.length_set, hlength] at hk
    rcases h.cover k hk with hin | ⟨a, ha, hkey⟩
    · exact Or.inl (List.mem_cons_of_mem _ hin)
    · rcases List.mem_cons.mp (hperm.mem_iff.mp ha) with rfl | ha
      · exact Or.inl (hkey ▸ List.mem_cons_self)
      · exact Or.inr ⟨a, ha, hkey⟩

/- An element comes under a key that names nothing yet. -/
theorem wired_append (h : Wired heap free) {key head : BitVec 32} (value : T)
    (hroom : heap.elements.length < noFree.toNat) (hbound : pos.length ≤ noFree.toNat)
    (hfresh : heap.get key.toNat = none)
    (hself : pos[key.toNat]? = some (.ofNat 32 heap.elements.length))
    (hother : ∀ k, k ≠ key.toNat → pos[k]? = heap.pos[k]?)
    (hchain : FreeList pos head free') (hnodup : free'.Nodup)
    (hfree : ∀ k ∈ free, k ≠ key.toNat → k ∈ free') :
    Wired ⟨heap.elements ++ [⟨value, key⟩], pos, head⟩ free' := by
  have hnone := h.get_eq_none.mp hfresh
  refine ⟨hbound, ?_, fun i node hnode => ?_, hchain, hnodup, fun k hk => ?_⟩
  · rw [List.length_append, List.length_singleton]
    exact hroom
  · dsimp only at hnode ⊢
    rcases Nat.lt_trichotomy i heap.elements.length with hi | rfl | hi
    · rw [List.getElem?_append_left hi] at hnode
      rw [hother _ (hnone node (List.mem_of_getElem? hnode))]
      exact h.placed i node hnode
    · rw [List.getElem?_concat_length, Option.some.injEq] at hnode
      subst hnode
      exact hself
    · rw [List.getElem?_eq_none (by simpa using hi)] at hnode
      cases hnode
  · dsimp only at hk ⊢
    by_cases hkey : k = key.toNat
    · exact Or.inr ⟨⟨value, key⟩, List.mem_concat_self, hkey.symm⟩
    · have hlt : k < heap.pos.length := by
        obtain ⟨x, hx⟩ : ∃ x, pos[k]? = some x := ⟨_, List.getElem?_eq_getElem hk⟩
        rw [hother k hkey] at hx
        exact (List.getElem?_eq_some_iff.mp hx).1
      rcases h.cover k hlt with hin | ⟨node, hnode, heq⟩
      · exact Or.inl (hfree k hin hkey)
      · exact Or.inr ⟨node, List.mem_append_left _ hnode, heq⟩

/- Without a free key every entry is that of an element. -/
theorem Wired.length_of_full (h : Wired heap []) : heap.pos.length ≤ heap.elements.length := by
  have hsub : List.range heap.pos.length ⊆ heap.elements.map fun node => node.key.toNat := by
    intro k hk
    rcases h.cover k (List.mem_range.mp hk) with hfree | ⟨node, hnode, rfl⟩
    · cases hfree
    · exact List.mem_map_of_mem hnode
  have hle := (List.subperm_of_subset List.nodup_range hsub).length_le
  rwa [List.length_range, List.length_map] at hle

theorem Wired.get_free (h : Wired heap free) (hk : k ∈ free) : heap.get k = none :=
  h.get_eq_none.mpr fun _ hnode hkey => h.live_not_free hnode (hkey ▸ hk)

theorem Wired.get_new (h : Wired heap free) (hk : heap.pos.length ≤ k) : heap.get k = none :=
  h.get_eq_none.mpr fun _ hnode hkey => absurd (h.key_lt hnode) (by omega)

variable (comp) in
/- What an insertion sifts. -/
theorem insert_wired (h : Wired heap free) (value : T) (memory : Memory)
    (hroom : heap.elements.length < noFree.toNat) : ∃ key pos head free',
    ComparedHeap.insert comp value heap memory = some (key.toNat, ComparedHeap.siftUp comp
      heap.elements.length ⟨heap.elements ++ [⟨value, key⟩], pos, head⟩ memory) ∧
    heap.get key.toNat = none ∧ Wired ⟨heap.elements ++ [⟨value, key⟩], pos, head⟩ free' := by
  have hbound := h.bound
  have hnat := noFree_toNat
  unfold ComparedHeap.insert
  dsimp only
  rw [if_neg (by omega)]
  cases free with
  | nil =>
    have hhead : heap.freeHead = noFree := h.chain
    have hfull := h.length_of_full
    have hkey : (BitVec.ofNat 32 heap.pos.length).toNat = heap.pos.length :=
      ofNat_toNat_lt (by omega)
    have hfresh : heap.get (BitVec.ofNat 32 heap.pos.length).toNat = none :=
      h.get_new hkey.ge
    rw [if_neg (not_not_intro hhead), if_neg (not_not_intro hhead)]
    refine ⟨.ofNat 32 heap.pos.length, heap.pos ++ [.ofNat 32 heap.elements.length],
      heap.freeHead, [], rfl, hfresh, wired_append h value hroom ?_ hfresh ?_ (fun k hk => ?_)
        h.chain h.nodup fun k hk _ => hk⟩
    · rw [List.length_append, List.length_singleton]
      omega
    · rw [hkey, List.getElem?_concat_length]
    · rw [hkey] at hk
      rcases Nat.lt_or_gt_of_ne hk with hlt | hlt
      · exact List.getElem?_append_left hlt
      · rw [List.getElem?_eq_none (by simpa using hlt), List.getElem?_eq_none hlt.le]
  | cons k free =>
    obtain ⟨hhead, next, hnext, hchain⟩ := h.chain
    have hlt := (List.getElem?_eq_some_iff.mp hnext).1
    have hkey : (BitVec.ofNat 32 k).toNat = k := ofNat_toNat_lt (by omega)
    have hne : heap.freeHead ≠ noFree := by
      intro heq
      have htoNat := congrArg BitVec.toNat (hhead.symm.trans heq)
      rw [hkey, hnat] at htoNat
      omega
    have hfresh : heap.get (BitVec.ofNat 32 k).toNat = none := by
      rw [hkey]
      exact h.get_free List.mem_cons_self
    have huntag : heap.pos.getD k 0 &&& ~~~freeFlag = next := by
      rw [List.getD_eq_getElem?_getD, hnext, Option.getD_some, untag (chain_head hchain hbound)]
    rw [if_pos hne, if_pos hne, hhead, hkey, huntag]
    refine ⟨.ofNat 32 k, heap.pos.set k (.ofNat 32 heap.elements.length), next, free,
      by rw [hkey], hfresh,
      wired_append h value hroom ?_ hfresh ?_ (fun j hj => ?_) (chain_congr hchain fun j hj => ?_)
        (List.nodup_cons.mp h.nodup).2 fun j hj hjk => ?_⟩
    · rwa [List.length_set]
    · rw [hkey, List.getElem?_set_self hlt]
    · rw [hkey] at hj
      exact List.getElem?_set_ne hj.symm
    · have hjk : k ≠ j := by
        rintro rfl
        exact (List.nodup_cons.mp h.nodup).1 hj
      exact List.getElem?_set_ne hjk
    · rw [hkey] at hjk
      exact (List.mem_cons.mp hj).resolve_left hjk

variable (comp) in
theorem insert_spec (h : Wired heap free) (value : T) (memory : Memory)
    (hroom : heap.elements.length < noFree.toNat) : ∃ key heap' memory' free',
    ComparedHeap.insert comp value heap memory = some (key, heap', memory') ∧
      Wired heap' free' ∧ heap.get key = none ∧
      heap'.get = Function.update heap.get key (some value) ∧
      heap'.values.Perm (value :: heap.values) := by
  obtain ⟨key, pos, head, free', hinsert, hfresh, hwired⟩ :=
    insert_wired comp h value memory hroom
  obtain ⟨hsift, hperm⟩ := siftUp_wired comp heap.elements.length memory hwired
  have hcons := hperm.trans (List.perm_append_singleton ⟨value, key⟩ heap.elements)
  exact ⟨key.toNat, _, _, free', hinsert, hsift, hfresh, get_cons h hsift hcons hfresh,
    hcons.map _⟩

variable (comp) in
theorem insert_panics (value : T) (memory : Memory)
    (hroom : noFree.toNat ≤ heap.elements.length) :
    ComparedHeap.insert comp value heap memory = none := by
  unfold ComparedHeap.insert
  exact if_pos hroom

theorem wired_set (h : Wired heap free) (value : T) (hnode : heap.elements[i]? = some node) :
    Wired { heap with elements := heap.elements.set i { node with value := value } } free := by
  have hlt := (List.getElem?_eq_some_iff.mp hnode).1
  refine ⟨h.bound, ?_, fun j other hother => ?_, h.chain, h.nodup, fun k hk => ?_⟩
  · dsimp only
    rw [List.length_set]
    exact h.small
  · dsimp only at hother ⊢
    by_cases hij : i = j
    · subst hij
      rw [List.getElem?_set_self hlt, Option.some.injEq] at hother
      rw [← hother]
      exact h.placed i node hnode
    · rw [List.getElem?_set_ne hij] at hother
      exact h.placed j other hother
  · rcases h.cover k hk with hin | ⟨other, hother, rfl⟩
    · exact Or.inl hin
    · obtain ⟨j, hj⟩ := List.mem_iff_getElem?.mp hother
      by_cases hij : i = j
      · subst hij
        obtain rfl : node = other := Option.some.inj (hnode.symm.trans hj)
        exact Or.inr ⟨_, List.mem_of_getElem? (List.getElem?_set_self hlt), rfl⟩
      · exact Or.inr ⟨other, List.mem_of_getElem? ((List.getElem?_set_ne hij).trans hj), rfl⟩

/- What there is after an element has changed its value. -/
theorem get_replace (h : Wired heap free) (h' : Wired heap' free') {value : T}
    (hperm : heap.elements.Perm (node :: elements))
    (hperm' : heap'.elements.Perm ({ node with value := value } :: elements)) :
    heap'.get = Function.update heap.get node.key.toNat (some value) := by
  funext k
  by_cases hk : k = node.key.toNat
  · subst hk
    rw [Function.update_self]
    exact h'.get_eq_some.mpr ⟨_, hperm'.mem_iff.mpr List.mem_cons_self, rfl, rfl⟩
  · rw [Function.update_of_ne hk]
    apply Option.ext
    intro a
    rw [h'.get_eq_some, h.get_eq_some]
    simp only [hperm.mem_iff, hperm'.mem_iff, List.mem_cons, or_and_right, exists_or,
      exists_eq_left]
    rw [or_iff_right fun heq => hk heq.1.symm, or_iff_right fun heq => hk heq.1.symm]

/- The element at `index` goes where its new value belongs. -/
def resift (comp : Memory → T → T → Bool × Memory) (index : ℕ) (value : T) (heap : IndexedHeap T)
    (memory : Memory) : IndexedHeap T × Memory :=
  match if 0 < index then heap.elements[(index - 1) / 2]? else none with
  | some parent =>
    let (outranks, memory) := comp memory value parent.value
    if outranks then ComparedHeap.siftUp comp index heap memory
    else ComparedHeap.siftDown comp index heap memory
  | none => ComparedHeap.siftDown comp index heap memory

variable (comp) in
theorem resift_wired (index : ℕ) (value : T) (memory : Memory) (h : Wired heap free) :
    Wired (resift comp index value heap memory).1 free ∧
      (resift comp index value heap memory).1.elements.Perm heap.elements := by
  unfold resift
  split
  · dsimp only
    split
    · exact siftUp_wired comp index _ h
    · exact siftDown_wired comp index _ h
  · exact siftDown_wired comp index _ h

variable (comp) in
/- What an update sifts. -/
theorem update_sifts (h : Wired heap free) (value : T) (memory : Memory) (hkey : heap.get k ≠ none) :
    ∃ i node, heap.elements[i]? = some node ∧ node.key.toNat = k ∧
      ComparedHeap.update comp k value heap memory = some (resift comp i value
        { heap with elements := heap.elements.set i { node with value := value } } memory) := by
  obtain ⟨a, ha⟩ := Option.ne_none_iff_exists'.mp hkey
  obtain ⟨node, hnode, rfl, -⟩ := h.get_eq_some.mp ha
  obtain ⟨i, hi⟩ := List.mem_iff_getElem?.mp hnode
  have hlt := (List.getElem?_eq_some_iff.mp hi).1
  have hsmall := h.small
  rw [noFree_toNat] at hsmall
  have hindex : (BitVec.ofNat 32 i).toNat = i := ofNat_toNat_lt (by omega)
  refine ⟨i, node, hi, rfl, ?_⟩
  have hparent : (if 0 < i then (heap.elements.set i ⟨value, node.key⟩)[(i - 1) / 2]? else none) =
      if 0 < i then heap.elements[(i - 1) / 2]? else none := by
    split
    · exact List.getElem?_set_ne (by omega)
    · rfl
  unfold ComparedHeap.update resift
  rw [h.placed i node hi, Option.bind_eq_bind, Option.bind_some, hindex, hi, Option.bind_eq_bind,
    Option.bind_some]
  dsimp only
  rw [hparent]
  cases if 0 < i then heap.elements[(i - 1) / 2]? else none with
  | none => rfl
  | some parent =>
    dsimp only
    split <;> rfl

variable (comp) in
theorem update_spec (h : Wired heap free) (value : T) (memory : Memory)
    (hkey : heap.get k ≠ none) : ∃ heap' memory' node elements,
    ComparedHeap.update comp k value heap memory = some (heap', memory') ∧ Wired heap' free ∧
      node.key.toNat = k ∧ heap.elements.Perm (node :: elements) ∧
      heap'.elements.Perm ({ node with value := value } :: elements) := by
  obtain ⟨i, node, hi, rfl, hupdate⟩ := update_sifts comp h value memory hkey
  obtain ⟨hwired, hperm⟩ := resift_wired comp i value memory (wired_set h value hi)
  have hlt := (List.getElem?_eq_some_iff.mp hi).1
  have hcons := List.set_perm_cons_eraseIdx hlt node
  rw [set_self hi] at hcons
  exact ⟨_, _, node, _, hupdate, hwired, rfl, hcons,
    hperm.trans (List.set_perm_cons_eraseIdx hlt _)⟩

variable (comp) in
theorem update_panics (h : Wired heap free) (value : T) (memory : Memory)
    (hkey : heap.get k = none) : ComparedHeap.update comp k value heap memory = none := by
  have hsmall := h.small
  rw [noFree_toNat] at hsmall
  have hout : ∀ x, heap.pos[k]? = some x → heap.elements[x.toNat]? = none := by
    intro x hx
    rcases h.cover k (List.getElem?_eq_some_iff.mp hx).1 with hfree | ⟨node, hnode, hk⟩
    · obtain ⟨next, hnext⟩ := chain_mem h.chain hfree
      obtain rfl := Option.some.inj (hx.symm.trans hnext)
      have htag := le_tag next
      exact List.getElem?_eq_none (by omega)
    · exact absurd hk (h.get_eq_none.mp hkey node hnode)
  unfold ComparedHeap.update
  cases hpos : heap.pos[k]? with
  | none => rfl
  | some x =>
    rw [Option.bind_eq_bind, Option.bind_some, hout x hpos]
    rfl

variable (comp) in
/- What a removal sifts. -/
theorem pop_cases (h : Wired heap free) (memory : Memory) :
    (heap.elements = [] ∧ ComparedHeap.pop comp heap memory = (none, heap, memory)) ∨
    (∃ last, heap.elements = [last] ∧ ComparedHeap.pop comp heap memory =
      (some last.value, release last.key { heap with elements := [] }, memory)) ∨
    ∃ root elements last, heap.elements = root :: elements ++ [last] ∧
      ComparedHeap.pop comp heap memory = (some root.value, ComparedHeap.siftDown comp 0
        (release root.key ⟨last :: elements, heap.pos.set last.key.toNat 0, heap.freeHead⟩)
          memory) ∧
      Wired (release root.key ⟨last :: elements, heap.pos.set last.key.toNat 0, heap.freeHead⟩)
        (root.key.toNat :: free) := by
  unfold ComparedHeap.pop
  cases helements : heap.elements using List.reverseRecOn with
  | nil => exact Or.inl ⟨rfl, rfl⟩
  | append_singleton elements last =>
    rw [List.getLast?_concat, List.dropLast_concat]
    right
    cases elements with
    | nil => exact Or.inl ⟨last, rfl, rfl⟩
    | cons root elements =>
      have hlast : heap.elements[(root :: elements).length]? = some last := by
        rw [helements, List.getElem?_concat_length]
      have hrest : ∀ i, i < (root :: elements).length →
          heap.elements[i]? = (root :: elements)[i]? := fun i hi => by
        rw [helements, List.getElem?_append_left hi]
      refine Or.inr ⟨root, elements, last, rfl, rfl, wired_release h ?_ (fun i node hnode => ?_)
        (List.length_set ..) fun k hk => ?_⟩
      · rw [helements]
        exact (List.perm_append_singleton _ _).cons root
      · cases i with
        | zero =>
          obtain rfl := Option.some.inj hnode
          exact List.getElem?_set_self (h.key_lt (List.mem_of_getElem? hlast))
        | succ i =>
          have hi : i + 1 < (root :: elements).length :=
            (List.getElem?_eq_some_iff.mp hnode).1
          have hnode' : heap.elements[i + 1]? = some node := (hrest _ hi).trans hnode
          have hne : last.key.toNat ≠ node.key.toNat := fun heq =>
            hi.ne' (placed_inj h.placed h.small hlast hnode' heq)
          rw [List.getElem?_set_ne hne]
          exact h.placed _ node hnode'
      · refine List.getElem?_set_ne ?_
        rintro rfl
        exact h.live_not_free (List.mem_of_getElem? hlast) hk

variable (comp) in
theorem pop_spec (h : Wired heap free) (memory : Memory) :
    (heap.elements = [] ∧ ComparedHeap.pop comp heap memory = (none, heap, memory)) ∨
    ∃ node heap' memory' free', heap.elements.head? = some node ∧
      ComparedHeap.pop comp heap memory = (some node.value, heap', memory') ∧
      Wired heap' free' ∧ heap.elements.Perm (node :: heap'.elements) := by
  rcases pop_cases comp h memory with hnil | ⟨last, helements, hpop⟩ |
    ⟨root, elements, last, helements, hpop, hwired⟩
  · exact Or.inl hnil
  · refine Or.inr ⟨last, _, _, last.key.toNat :: free, ?_, hpop, ?_, ?_⟩
    · rw [helements, List.head?_cons]
    · exact wired_release h (by rw [helements]) (fun i node hnode => nomatch hnode) rfl fun _ _ => rfl
    · rw [helements]
      exact List.Perm.refl _
  · obtain ⟨hsift, hperm⟩ := siftDown_wired comp 0 memory hwired
    refine Or.inr ⟨root, _, _, root.key.toNat :: free, ?_, hpop, hsift, ?_⟩
    · rw [helements]
      rfl
    · rw [helements]
      exact (List.perm_append_singleton last elements).cons root |>.trans (hperm.symm.cons root)

theorem clear_spec (h : Wired heap free) : heap.clear.elements = [] ∧
    ∃ free', Wired heap.clear free' := by
  unfold IndexedHeap.clear
  cases heap with
  | mk elements pos head =>
    dsimp only
    induction elements using List.reverseRecOn generalizing pos head free with
    | nil => exact ⟨rfl, free, h⟩
    | append_singleton elements last ih =>
      rw [List.foldr_append]
      have hperm : (elements ++ [last]).Perm (last :: elements) := List.perm_append_singleton _ _
      refine ih _ _ (wired_release h hperm ?_ rfl fun _ _ => rfl)
      · intro i node hnode
        refine h.placed i node ?_
        dsimp only
        rw [List.getElem?_append_left (List.getElem?_eq_some_iff.mp hnode).1, hnode]

theorem wired_new : Wired (IndexedHeap.new (T := T)) [] :=
  ⟨Nat.zero_le _, Nat.zero_le _, fun _ _ hnode => (nomatch hnode), rfl, List.nodup_nil,
    fun _ hk => absurd hk (Nat.not_lt_zero _)⟩

end Operations

end Sicada.IndexedHeapExact
