import Mathlib

namespace Sicada

/- Past `len`, as where `make_set` has not been, the parent is none. -/
structure UnionFind where
  parent : ℕ → Option ℕ
  rank : ℕ → ℕ
  len : ℕ

namespace UnionFind

def new (max : ℕ) : UnionFind := ⟨fun _ => none, fun _ => 0, max⟩

/- `while root != parent[root]`. -/
def climb (parent : ℕ → Option ℕ) : ℕ → ℕ → ℕ
  | 0, root => root
  | fuel + 1, root =>
    match parent root with
    | some p => if root = p then root else climb parent fuel p
    | none => root

/- Points everything along the way at the root. -/
def compress (root : ℕ) : ℕ → ℕ → (ℕ → Option ℕ) → ℕ → Option ℕ
  | 0, _, parent => parent
  | fuel + 1, item, parent =>
    if item = root then parent
    else
      match parent item with
      | some p => compress root fuel p (Function.update parent item (some root))
      | none => parent

def findSet (uf : UnionFind) (item : ℕ) : Option ℕ × UnionFind :=
  if uf.len ≤ item then (none, uf)
  else
    match uf.parent item with
    | none => (none, uf)
    | some p =>
      let root := climb uf.parent uf.len p
      (some root, { uf with parent := compress root uf.len item uf.parent })

def link (uf : UnionFind) (x y : ℕ) : UnionFind :=
  if x = y then uf
  else if uf.rank y < uf.rank x then { uf with parent := Function.update uf.parent y (some x) }
  else
    { uf with
      parent := Function.update uf.parent x (some y)
      rank := if uf.rank x = uf.rank y then Function.update uf.rank y (uf.rank y + 1)
        else uf.rank }

def union (uf : UnionFind) (x y : ℕ) : UnionFind :=
  let (rootX, uf) := uf.findSet x
  let (rootY, uf) := uf.findSet y
  match rootX, rootY with
  | some rootX, some rootY => uf.link rootX rootY
  | _, _ => uf

def makeSet (uf : UnionFind) (item : ℕ) : UnionFind :=
  { parent := Function.update uf.parent item (some item)
    rank := Function.update uf.rank item 0
    len := if uf.len ≤ item then (if 0 < item then 2 * item else 2) else uf.len }

section Forests

variable {uf uf' : UnionFind} {known : Set ℕ} {rep depth : ℕ → ℕ} {x y s t : ℕ}

/- The parents of the elements that are known lead down to their representatives. Of what is not
known nothing is said: it may point anywhere. -/
structure Forest (uf : UnionFind) (known : Set ℕ) (rep depth : ℕ → ℕ) : Prop where
  bound : ∀ x ∈ known, x < uf.len
  parent : ∀ x ∈ known, ∃ p ∈ known, uf.parent x = some p ∧ rep p = rep x ∧
    (p ≠ x → depth p < depth x)
  root : ∀ x ∈ known, uf.parent x = some x → rep x = x

theorem forest_congr (h : Forest uf known rep depth) (hlen : uf.len ≤ uf'.len)
    (hparent : ∀ x ∈ known, uf'.parent x = uf.parent x) : Forest uf' known rep depth := by
  refine ⟨fun x hx => (h.bound x hx).trans_le hlen, fun x hx => ?_, fun x hx hroot => ?_⟩
  · rw [hparent x hx]
    exact h.parent x hx
  · exact h.root x hx (hparent x hx ▸ hroot)

theorem rep_spec (h : Forest uf known rep depth) (hx : x ∈ known) :
    rep x ∈ known ∧ rep (rep x) = rep x ∧ uf.parent (rep x) = some (rep x) ∧
      (rep x ≠ x → depth (rep x) < depth x) := by
  induction hn : depth x using Nat.strong_induction_on generalizing x with
  | _ n ih =>
    obtain ⟨p, hp, hparent, hrep, hdown⟩ := h.parent x hx
    by_cases heq : p = x
    · subst heq
      have hroot := h.root p hx hparent
      rw [hroot]
      exact ⟨hx, hroot, hparent, fun hne => absurd rfl hne⟩
    · have hlt := hdown heq
      obtain ⟨hknown, htwice, hroot, hle⟩ := ih (depth p) (hn ▸ hlt) hp rfl
      rw [hrep] at hknown htwice hroot hle
      refine ⟨hknown, htwice, hroot, fun _ => ?_⟩
      rw [← hn]
      by_cases hpr : rep x = p
      · rwa [hpr]
      · exact (hle hpr).trans hlt

theorem rep_iff (h : Forest uf known rep depth) (hx : x ∈ known) :
    uf.parent x = some x ↔ rep x = x := by
  refine ⟨h.root x hx, fun heq => ?_⟩
  have hroot := (rep_spec h hx).2.2.1
  rwa [heq] at hroot

/- How many elements may lie below one; the way to the root is no longer. -/
def room (len : ℕ) (depth : ℕ → ℕ) (x : ℕ) : ℕ :=
  ((Finset.range len).filter fun y => depth y < depth x).card

theorem room_lt {len : ℕ} (hx : x < len) : room len depth x < len := by
  have hssub : (Finset.range len).filter (fun y => depth y < depth x) ⊂ Finset.range len := by
    refine Finset.ssubset_iff_subset_ne.mpr ⟨Finset.filter_subset _ _, fun heq => ?_⟩
    have hmem : x ∈ Finset.range len := Finset.mem_range.mpr hx
    rw [← heq, Finset.mem_filter] at hmem
    exact lt_irrefl _ hmem.2
  have hcard := Finset.card_lt_card hssub
  rwa [Finset.card_range] at hcard

theorem room_down {len : ℕ} (hx : x < len) (hlt : depth x < depth y) :
    room len depth x < room len depth y := by
  refine Finset.card_lt_card (Finset.ssubset_iff_subset_ne.mpr ⟨?_, fun heq => ?_⟩)
  · intro z hz
    rw [Finset.mem_filter] at hz ⊢
    exact ⟨hz.1, hz.2.trans hlt⟩
  · have hmem : x ∈ (Finset.range len).filter fun z => depth z < depth y :=
      Finset.mem_filter.mpr ⟨Finset.mem_range.mpr hx, hlt⟩
    rw [← heq, Finset.mem_filter] at hmem
    exact lt_irrefl _ hmem.2

theorem climb_spec (h : Forest uf known rep depth) {fuel : ℕ} (hx : x ∈ known)
    (hfuel : room uf.len depth x < fuel) : climb uf.parent fuel x = rep x := by
  induction fuel generalizing x with
  | zero => omega
  | succ fuel ih =>
    obtain ⟨p, hp, hparent, hrep, hdown⟩ := h.parent x hx
    rw [climb, hparent]
    dsimp only
    split
    · next heq =>
      subst heq
      exact (h.root x hx hparent).symm
    · next hne =>
      have hless := room_down (h.bound p hp) (hdown (Ne.symm hne))
      rw [ih hp (by omega), hrep]

/- Pointing an element at its representative keeps the forest. -/
theorem forest_point (h : Forest uf known rep depth) (hx : x ∈ known) (hne : rep x ≠ x) :
    Forest { uf with parent := Function.update uf.parent x (some (rep x)) } known rep depth := by
  obtain ⟨hknown, htwice, -, hless⟩ := rep_spec h hx
  refine ⟨h.bound, fun y hy => ?_, fun y hy hroot => ?_⟩
  · by_cases heq : y = x
    · subst heq
      exact ⟨rep y, hknown, Function.update_self .., htwice, fun _ => hless hne⟩
    · simp only [Function.update_of_ne heq]
      exact h.parent y hy
  · by_cases heq : y = x
    · subst heq
      simp only [Function.update_self] at hroot
      exact Option.some.inj hroot
    · simp only [Function.update_of_ne heq] at hroot
      exact h.root y hy hroot

theorem compress_spec (h : Forest uf known rep depth) {fuel : ℕ} (hx : x ∈ known) :
    Forest { uf with parent := compress (rep x) fuel x uf.parent } known rep depth ∧
      ∀ y ∉ known, compress (rep x) fuel x uf.parent y = uf.parent y := by
  induction fuel generalizing uf x with
  | zero => exact ⟨h, fun _ _ => rfl⟩
  | succ fuel ih =>
    rw [compress]
    split
    · exact ⟨h, fun _ _ => rfl⟩
    · next hne =>
      obtain ⟨p, hp, hparent, hrep, -⟩ := h.parent x hx
      rw [hparent, ← hrep]
      dsimp only
      have hpoint := forest_point h hx (Ne.symm hne)
      rw [← hrep] at hpoint
      obtain ⟨hforest, hother⟩ := ih hpoint hp
      refine ⟨hforest, fun y hy => ?_⟩
      have hyx : y ≠ x := by
        rintro rfl
        exact hy hx
      exact (hother y hy).trans (Function.update_of_ne hyx _ _)

/- Finding an element changes neither what anything stands for nor what is not known. -/
theorem findSet_spec (h : Forest uf known rep depth) (hx : x ∈ known) :
    (uf.findSet x).1 = some (rep x) ∧ Forest (uf.findSet x).2 known rep depth ∧
      (uf.findSet x).2.rank = uf.rank ∧ (uf.findSet x).2.len = uf.len ∧
      ∀ y ∉ known, (uf.findSet x).2.parent y = uf.parent y := by
  obtain ⟨p, hp, hparent, hrep, -⟩ := h.parent x hx
  have hclimb := climb_spec h hp (room_lt (h.bound p hp))
  unfold findSet
  rw [if_neg (Nat.not_le_of_lt (h.bound x hx)), hparent]
  dsimp only
  rw [hclimb, hrep]
  obtain ⟨hforest, hother⟩ := compress_spec h hx
  exact ⟨rfl, hforest, rfl, rfl, hother⟩

/- One tree hung under the root of another. -/
theorem forest_hang (h : Forest uf known rep depth) (hs : s ∈ known) (ht : t ∈ known)
    (hrs : rep s = s) (hrt : rep t = t) (hne : s ≠ t) (hlen : uf'.len = uf.len)
    (hparent : uf'.parent = Function.update uf.parent s (some t)) :
    ∃ depth', Forest uf' known (fun z => if rep z = s then t else rep z) depth' := by
  refine ⟨fun z => if rep z = s then depth z + depth t + 1 else depth z,
    fun x hx => hlen ▸ h.bound x hx, fun x hx => ?_, fun x hx hroot => ?_⟩
  · rw [hparent]
    by_cases heq : x = s
    · subst heq
      refine ⟨t, ht, Function.update_self .., ?_, fun _ => ?_⟩
      · simp only [hrt, hrs, if_true]
        exact if_neg (Ne.symm hne)
      · simp only [hrt, hrs, if_true, if_neg (Ne.symm hne)]
        omega
    · obtain ⟨p, hp, hpx, hrep, hdown⟩ := h.parent x hx
      refine ⟨p, hp, by rw [Function.update_of_ne heq, hpx], by rw [hrep], fun hpne => ?_⟩
      have hlt := hdown hpne
      simp only [hrep]
      split <;> omega
  · rw [hparent] at hroot
    by_cases heq : x = s
    · subst heq
      rw [Function.update_self] at hroot
      exact absurd (Option.some.inj hroot).symm hne
    · rw [Function.update_of_ne heq] at hroot
      have hself := h.root x hx hroot
      simp only [hself, if_neg heq]

/- An element on its own. -/
theorem forest_insert (h : Forest uf known rep depth) (ht : t ∉ known) (hlt : t < uf.len)
    (hparent : uf.parent t = some t) :
    Forest uf (insert t known) (Function.update rep t t) depth := by
  have hne : ∀ x ∈ known, x ≠ t := fun x hx heq => ht (heq ▸ hx)
  refine ⟨fun x hx => ?_, fun x hx => ?_, fun x hx hroot => ?_⟩
  · rcases Set.mem_insert_iff.mp hx with rfl | hx
    · exact hlt
    · exact h.bound x hx
  · rcases Set.mem_insert_iff.mp hx with rfl | hx
    · exact ⟨x, Set.mem_insert x known, hparent, rfl, fun hne => absurd rfl hne⟩
    · obtain ⟨p, hp, hpx, hrep, hdown⟩ := h.parent x hx
      refine ⟨p, Set.mem_insert_of_mem t hp, hpx, ?_, hdown⟩
      rw [Function.update_of_ne (hne p hp), Function.update_of_ne (hne x hx), hrep]
  · rcases Set.mem_insert_iff.mp hx with rfl | hx
    · exact Function.update_self ..
    · rw [Function.update_of_ne (hne x hx)]
      exact h.root x hx hroot

theorem lt_len_makeSet (uf : UnionFind) (t : ℕ) : t < (uf.makeSet t).len := by
  unfold makeSet
  dsimp only
  split <;> [split; skip] <;> omega

theorem len_le_makeSet (uf : UnionFind) (t : ℕ) : uf.len ≤ (uf.makeSet t).len := by
  unfold makeSet
  dsimp only
  split <;> [split; skip] <;> omega

theorem forest_makeSet (h : Forest uf known rep depth) (ht : t ∉ known) :
    Forest (uf.makeSet t) (insert t known) (Function.update rep t t) depth := by
  have hkept : Forest (uf.makeSet t) known rep depth := by
    refine forest_congr h (len_le_makeSet uf t) fun x hx => ?_
    have hne : x ≠ t := by
      rintro rfl
      exact ht hx
    exact Function.update_of_ne hne _ _
  exact forest_insert hkept ht (lt_len_makeSet uf t) (Function.update_self ..)

/- Which of two roots is hung under the other; the root that stays has a rank. -/
theorem link_spec (h : Forest uf known rep depth) (hs : s ∈ known) (ht : t ∈ known)
    (hrs : rep s = s) (hrt : rep t = t) (hne : s ≠ t) :
    ∃ low high depth', (low = s ∧ high = t ∨ low = t ∧ high = s) ∧
      Forest (uf.link s t) known (fun z => if rep z = low then high else rep z) depth' ∧
      (uf.link s t).rank high ≠ 0 ∧ ∀ z ≠ high, (uf.link s t).rank z = uf.rank z := by
  unfold link
  rw [if_neg hne]
  split
  · next hlt =>
    obtain ⟨depth', hforest⟩ := @forest_hang uf
      { uf with parent := Function.update uf.parent t (some s) } known rep depth t s h ht hs hrt hrs
        (Ne.symm hne) rfl rfl
    exact ⟨t, s, depth', .inr ⟨rfl, rfl⟩, hforest, (Nat.zero_lt_of_lt hlt).ne', fun _ _ => rfl⟩
  · next hge =>
    obtain ⟨depth', hforest⟩ := @forest_hang uf
      { uf with
        parent := Function.update uf.parent s (some t)
        rank := if uf.rank s = uf.rank t then Function.update uf.rank t (uf.rank t + 1)
          else uf.rank } known rep depth s t h hs ht hrs hrt hne rfl rfl
    refine ⟨s, t, depth', .inl ⟨rfl, rfl⟩, hforest, ?_, fun z hz => ?_⟩
    · dsimp only
      split
      · rw [Function.update_self]
        exact Nat.succ_ne_zero _
      · omega
    · dsimp only
      split
      · exact Function.update_of_ne hz _ _
      · rfl

theorem union_eq (h : Forest uf known rep depth) (hs : s ∈ known) (ht : t ∈ known) :
    ∃ uf', uf.union s t = uf'.link (rep s) (rep t) ∧ Forest uf' known rep depth ∧
      uf'.rank = uf.rank := by
  obtain ⟨hfinds, hforest, hrank, -, -⟩ := findSet_spec h hs
  obtain ⟨hfindt, hforest', hrank', -, -⟩ := findSet_spec hforest ht
  refine ⟨((uf.findSet s).2.findSet t).2, ?_, hforest', hrank'.trans hrank⟩
  unfold union
  dsimp only
  rw [hfinds, hfindt]

theorem union_spec_same (h : Forest uf known rep depth) (hs : s ∈ known) (ht : t ∈ known)
    (hsame : rep s = rep t) :
    Forest (uf.union s t) known rep depth ∧ (uf.union s t).rank = uf.rank := by
  obtain ⟨uf', hunion, hforest, hrank⟩ := union_eq h hs ht
  have hlink : uf'.link (rep s) (rep t) = uf' := if_pos hsame
  rw [hunion, hlink]
  exact ⟨hforest, hrank⟩

theorem union_spec (h : Forest uf known rep depth) (hs : s ∈ known) (ht : t ∈ known)
    (hne : rep s ≠ rep t) :
    ∃ low high depth', (low = rep s ∧ high = rep t ∨ low = rep t ∧ high = rep s) ∧
      Forest (uf.union s t) known (fun z => if rep z = low then high else rep z) depth' ∧
      (uf.union s t).rank high ≠ 0 ∧ ∀ z ≠ high, (uf.union s t).rank z = uf.rank z := by
  obtain ⟨uf', hunion, hforest, hrank⟩ := union_eq h hs ht
  obtain ⟨hks, htwices, -, -⟩ := rep_spec hforest hs
  obtain ⟨hkt, htwicet, -, -⟩ := rep_spec hforest ht
  rw [hunion, ← hrank]
  exact link_spec hforest hks hkt htwices htwicet hne

theorem forest_restrict (h : Forest uf (insert t known) (Function.update rep t t) depth)
    (ht : t ∉ known) (hrep : ∀ x ∈ known, rep x ∈ known) : Forest uf known rep depth := by
  have hne : ∀ x ∈ known, x ≠ t := fun x hx heq => ht (heq ▸ hx)
  refine ⟨fun x hx => h.bound x (Set.mem_insert_of_mem t hx), fun x hx => ?_,
    fun x hx hroot => ?_⟩
  · obtain ⟨p, hp, hparent, hpx, hdown⟩ := h.parent x (Set.mem_insert_of_mem t hx)
    rw [Function.update_of_ne (hne x hx)] at hpx
    rcases Set.mem_insert_iff.mp hp with rfl | hp
    · rw [Function.update_self] at hpx
      exact absurd (hpx ▸ hrep x hx) ht
    · rw [Function.update_of_ne (hne p hp)] at hpx
      exact ⟨p, hp, hparent, hpx, hdown⟩
  · have hself := h.root x (Set.mem_insert_of_mem t hx) hroot
    rwa [Function.update_of_ne (hne x hx)] at hself

/- A new element joined to an old one and then made a set once more. -/
def reenter (uf : UnionFind) (s t : ℕ) : UnionFind := ((uf.makeSet t).union s t).makeSet t

theorem union_makeSet (h : Forest uf known rep depth) (hs : s ∈ known) (ht : t ∉ known) :
    ∃ uf', (uf.makeSet t).union s t = uf'.link (rep s) t ∧
      Forest uf' (insert t known) (Function.update rep t t) depth ∧
      uf'.rank = Function.update uf.rank t 0 := by
  have hmade := forest_makeSet h ht
  have hne : s ≠ t := by
    rintro rfl
    exact ht hs
  obtain ⟨uf', hunion, hforest, hrank⟩ :=
    union_eq hmade (Set.mem_insert_of_mem t hs) (Set.mem_insert t known)
  rw [Function.update_self, Function.update_of_ne hne] at hunion
  exact ⟨uf', hunion, hforest, hrank⟩

/- Where the old element stands under a root with a rank, the new one is hung under that root, and
being made a set takes it away again. -/
theorem reenter_ranked (h : Forest uf known rep depth) (hs : s ∈ known) (ht : t ∉ known)
    (hrank : uf.rank (rep s) ≠ 0) :
    Forest (uf.reenter s t) (insert t known) (Function.update rep t t) depth ∧
      (uf.reenter s t).rank = Function.update uf.rank t 0 := by
  obtain ⟨uf', hunion, hforest, hranks⟩ := union_makeSet h hs ht
  have hknown := fun x hx => (@rep_spec uf known rep depth x h hx).1
  have hne : rep s ≠ t := fun heq => ht (heq ▸ hknown s hs)
  have hlink : uf'.link (rep s) t =
      { uf' with parent := Function.update uf'.parent t (some (rep s)) } := by
    unfold link
    rw [if_neg hne, if_pos]
    rw [hranks, Function.update_self, Function.update_of_ne hne]
    exact Nat.pos_of_ne_zero hrank
  have hold := forest_restrict hforest ht hknown
  unfold reenter
  rw [hunion, hlink]
  constructor
  · refine forest_makeSet (forest_congr hold le_rfl fun x hx => ?_) ht
    have hxt : x ≠ t := by
      rintro rfl
      exact ht hx
    exact Function.update_of_ne hxt _ _
  · unfold makeSet
    dsimp only
    rw [hranks, Function.update_idem]

/- Elsewhere the old tree is hung under the new element, and stays there. -/
theorem reenter_unranked (h : Forest uf known rep depth) (hs : s ∈ known) (ht : t ∉ known)
    (hrank : uf.rank (rep s) = 0) :
    (∃ depth', Forest (uf.reenter s t) (insert t known)
      (fun z => if Function.update rep t t z = rep s then t else Function.update rep t t z)
        depth') ∧ (uf.reenter s t).rank = Function.update uf.rank t 0 := by
  obtain ⟨uf', hunion, hforest, hranks⟩ := union_makeSet h hs ht
  obtain ⟨hknown, htwice, -, -⟩ := rep_spec h hs
  have hne : rep s ≠ t := fun heq => ht (heq ▸ hknown)
  have hzero : uf'.rank (rep s) = 0 ∧ uf'.rank t = 0 := by
    rw [hranks, Function.update_self, Function.update_of_ne hne]
    exact ⟨hrank, rfl⟩
  have hlink : uf'.link (rep s) t = { uf' with
      parent := Function.update uf'.parent (rep s) (some t)
      rank := Function.update uf'.rank t 1 } := by
    unfold link
    rw [if_neg hne, hzero.1, hzero.2]
    rfl
  obtain ⟨depth', hhung⟩ := @forest_hang uf' (uf'.link (rep s) t) _ _ _ _ _ hforest
    (Set.mem_insert_of_mem t hknown) (Set.mem_insert t known)
    (by rw [Function.update_of_ne hne, htwice]) (Function.update_self ..) hne
    (by rw [hlink]) (by rw [hlink])
  have hself := (rep_iff hforest (Set.mem_insert t known)).mpr (Function.update_self ..)
  unfold reenter
  rw [hunion]
  refine ⟨⟨depth', forest_congr hhung (len_le_makeSet _ t) fun x _ => ?_⟩, ?_⟩
  · by_cases heq : x = t
    · subst heq
      rw [hlink]
      simp only [makeSet, Function.update_self, Function.update_of_ne (Ne.symm hne), hself]
    · exact Function.update_of_ne heq _ _
  · rw [hlink]
    simp only [makeSet, hranks, Function.update_idem]

end Forests

end UnionFind

end Sicada
