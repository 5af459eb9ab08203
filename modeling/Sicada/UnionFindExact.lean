import Sicada.UnionFind
import Sicada.Library.Walk
import Sicada.Runs

namespace Sicada

/- The two arrays themselves; a parent that is not set is `K_NULL_ID`, and a rank is a `u8`. -/
structure UnionFindVec where
  parent : List (Option ℕ)
  rank : List ℕ

/- `none` is an access outside an array, a rank past 255, or a loop that goes on for longer than
there is fuel. -/
namespace UnionFindVec

def resize {A : Type} (xs : List A) (n : ℕ) (a : A) : List A :=
  xs.take n ++ List.replicate (n - xs.length) a

def new (max : ℕ) : UnionFindVec := ⟨List.replicate max none, List.replicate max 0⟩

/- `while root != parent[root]`. -/
def climb (parent : List (Option ℕ)) : ℕ → ℕ → Option ℕ
  | 0, _ => none
  | fuel + 1, root =>
    match parent[root]? with
    | some (some p) => if root = p then some root else climb parent fuel p
    | _ => none

/- Points everything along the way at the root. -/
def compress (root : ℕ) : ℕ → ℕ → List (Option ℕ) → Option (List (Option ℕ))
  | 0, _, _ => none
  | fuel + 1, item, parent =>
    if item = root then some parent
    else
      match parent[item]? with
      | some (some p) => compress root fuel p (parent.set item (some root))
      | _ => none

def findSet (fuel : ℕ) (uf : UnionFindVec) (item : ℕ) : Option (Option ℕ × UnionFindVec) :=
  match uf.parent[item]? with
  | some (some p) => do
    let root ← climb uf.parent fuel p
    let parent ← compress root fuel item uf.parent
    some (some root, { uf with parent := parent })
  | _ => some (none, uf)

def link (uf : UnionFindVec) (x y : ℕ) : Option UnionFindVec :=
  if x = y then some uf
  else if uf.parent.length ≤ x ∨ uf.parent.length ≤ y then none
  else do
    let rankX ← uf.rank[x]?
    let rankY ← uf.rank[y]?
    if rankY < rankX then some { uf with parent := uf.parent.set y (some x) }
    else if rankX = rankY then
      if rankY = 255 then none
      else some ⟨uf.parent.set x (some y), uf.rank.set y (rankY + 1)⟩
    else some { uf with parent := uf.parent.set x (some y) }

def union (fuel : ℕ) (uf : UnionFindVec) (x y : ℕ) : Option UnionFindVec := do
  let (rootX, uf) ← uf.findSet fuel x
  let (rootY, uf) ← uf.findSet fuel y
  match rootX, rootY with
  | some rootX, some rootY => uf.link rootX rootY
  | _, _ => some uf

def makeSet (uf : UnionFindVec) (item : ℕ) : UnionFindVec :=
  let uf := if uf.parent.length ≤ item then
      let newSize := if 0 < item then 2 * item else 2
      ⟨resize uf.parent newSize none, resize uf.rank newSize 0⟩
    else uf
  ⟨uf.parent.set item (some item), uf.rank.set item 0⟩

def makeAllSet (uf : UnionFindVec) (max : ℕ) : UnionFindVec :=
  (List.range max).foldl (fun uf i => ⟨uf.parent.set i (some i), uf.rank.set i 0⟩)
    ⟨resize uf.parent max none, resize uf.rank max 0⟩

inductive Op where
  | makeSet (item : ℕ)
  | makeAllSet (max : ℕ)
  | union (x y : ℕ)
  | findSet (item : ℕ)

/- The elements that were initialised, and the unions made of them, since the last reset. -/
structure History where
  uf : UnionFindVec
  made : Finset ℕ
  unions : List (ℕ × ℕ)

/- No loop takes more steps than there are elements. -/
def Op.apply : Op → History → Option History
  | makeSet item, h => some ⟨h.uf.makeSet item, insert item h.made, h.unions⟩
  | makeAllSet max, h => some ⟨h.uf.makeAllSet max, Finset.range max, []⟩
  | union x y, h => (h.uf.union h.uf.parent.length x y).map fun uf =>
      ⟨uf, h.made, if x ∈ h.made ∧ y ∈ h.made then (x, y) :: h.unions else h.unions⟩
  | findSet item, h => (h.uf.findSet h.uf.parent.length item).map fun answer =>
      { h with uf := answer.2 }

/- An element is made a set only once, and an array has less than `2 ^ 64` elements. -/
def Admits (h : History) : Op → Prop
  | .makeSet item => item ∉ h.made ∧ 2 * item < 2 ^ 64
  | .makeAllSet max => max < 2 ^ 64
  | _ => True

def toForest (uf : UnionFindVec) : UnionFind :=
  ⟨fun x => uf.parent[x]?.join, fun x => uf.rank[x]?.getD 0, uf.parent.length⟩

section Arrays

open UnionFind

variable {uf : UnionFindVec} {known : Set ℕ} {rep depth : ℕ → ℕ} {x y : ℕ}

theorem getElem?_resize {A : Type} (xs : List A) (n : ℕ) (a : A) (i : ℕ) :
    (resize xs n a)[i]? = if i < n then some (xs[i]?.getD a) else none := by
  unfold resize
  rw [List.getElem?_append, List.length_take, List.getElem?_take, List.getElem?_replicate]
  by_cases hn : i < n
  · by_cases hi : i < xs.length
    · rw [if_pos (lt_min hn hi), if_pos hn, if_pos hn, List.getElem?_eq_getElem hi]
      rfl
    · rw [if_neg (by omega), if_pos (by omega), if_pos hn, List.getElem?_eq_none (by omega)]
      rfl
  · rw [if_neg (by omega), if_neg (by omega), if_neg hn]

theorem length_resize {A : Type} (xs : List A) (n : ℕ) (a : A) : (resize xs n a).length = n := by
  unfold resize
  rw [List.length_append, List.length_take, List.length_replicate]
  omega

theorem parent_toForest {p : ℕ} : uf.toForest.parent x = some p ↔ uf.parent[x]? = some (some p) :=
  Option.join_eq_some_iff

theorem parent_set (hx : x < uf.parent.length) (p : ℕ) (rank : List ℕ) :
    (⟨uf.parent.set x (some p), rank⟩ : UnionFindVec).toForest.parent =
      Function.update uf.toForest.parent x (some p) := by
  funext z
  unfold toForest
  dsimp only
  rw [List.getElem?_set]
  by_cases hz : x = z
  · subst hz
    rw [if_pos rfl, if_pos hx, Function.update_self]
    rfl
  · rw [if_neg hz, Function.update_of_ne (Ne.symm hz)]

theorem rank_set (hx : x < uf.rank.length) (r : ℕ) (parent : List (Option ℕ)) :
    (⟨parent, uf.rank.set x r⟩ : UnionFindVec).toForest.rank =
      Function.update uf.toForest.rank x r := by
  funext z
  unfold toForest
  dsimp only
  rw [List.getElem?_set]
  by_cases hz : x = z
  · subst hz
    rw [if_pos rfl, if_pos hx, Function.update_self]
    rfl
  · rw [if_neg hz, Function.update_of_ne (Ne.symm hz)]

theorem toForest_set (hx : x < uf.parent.length) (p : ℕ) :
    ({ uf with parent := uf.parent.set x (some p) } : UnionFindVec).toForest =
      { uf.toForest with parent := Function.update uf.toForest.parent x (some p) } := by
  rw [← parent_set hx p uf.rank]
  exact congrArg (UnionFind.mk _ _) List.length_set

theorem climb_known (h : Forest uf.toForest known rep depth) {fuel : ℕ} (hx : x ∈ known)
    (hfuel : room uf.parent.length depth x < fuel) : climb uf.parent fuel x = some (rep x) := by
  induction fuel generalizing x with
  | zero => omega
  | succ fuel ih =>
    obtain ⟨p, hp, hparent, hrep, hdown⟩ := h.parent x hx
    rw [climb, parent_toForest.mp hparent]
    dsimp only
    split
    · next heq =>
      subst heq
      exact congrArg some (h.root x hx hparent).symm
    · next hne =>
      have hless : room uf.parent.length depth p < room uf.parent.length depth x :=
        room_down (h.bound p hp) (hdown (Ne.symm hne))
      rw [ih hp (by omega), hrep]

theorem compress_known (h : Forest uf.toForest known rep depth) (hx : x ∈ known) :
    ∃ parent, (∀ fuel > room uf.parent.length depth x,
        compress (rep x) fuel x uf.parent = some parent) ∧
      parent.length = uf.parent.length ∧
      Forest { uf with parent := parent : UnionFindVec }.toForest known rep depth ∧
      ∀ y ∉ known, parent[y]? = uf.parent[y]? := by
  induction hn : room uf.parent.length depth x using Nat.strong_induction_on generalizing uf x with
  | _ n ih =>
  subst hn
  by_cases hroot : x = rep x
  · refine ⟨uf.parent, fun fuel hfuel => ?_, rfl, h, fun _ _ => rfl⟩
    obtain ⟨fuel, rfl⟩ := Nat.exists_eq_succ_of_ne_zero (Nat.ne_of_gt (Nat.zero_lt_of_lt hfuel))
    rw [compress, if_pos hroot]
  · obtain ⟨p, hp, hparent, hrep, hdown⟩ := h.parent x hx
    have hpx : p ≠ x := by
      rintro rfl
      exact hroot (h.root p hx hparent).symm
    have hlt : x < uf.parent.length := h.bound x hx
    have hlength : (uf.parent.set x (some (rep p))).length = uf.parent.length := List.length_set
    have hpoint : Forest { uf with parent := uf.parent.set x (some (rep p)) :
        UnionFindVec }.toForest known rep depth := by
      rw [toForest_set hlt, hrep]
      exact forest_point h hx (Ne.symm hroot)
    have hroom : room uf.parent.length depth p < room uf.parent.length depth x :=
      room_down (h.bound p hp) (hdown hpx)
    obtain ⟨parent, hrun, hsame, hforest, hother⟩ := ih _ hroom hpoint hp (by rw [hlength])
    refine ⟨parent, fun fuel hfuel => ?_, hsame.trans hlength, hforest, fun y hy => ?_⟩
    · obtain ⟨fuel, rfl⟩ := Nat.exists_eq_succ_of_ne_zero (Nat.ne_of_gt (Nat.zero_lt_of_lt hfuel))
      rw [compress, if_neg hroot, parent_toForest.mp hparent, ← hrep]
      exact hrun fuel (by omega)
    · have hyx : x ≠ y := by
        rintro rfl
        exact hy hx
      rw [hother y hy, List.getElem?_set_ne hyx]

end Arrays

section Invariant

open UnionFind Links

/- What the arrays know of the history: the forest over its elements stands for the unions, and a
rank is paid for by the size of the set. -/
structure Tracks (h : History) (rep depth : ℕ → ℕ) : Prop where
  forest : Forest h.uf.toForest h.made rep depth
  unset : ∀ x ∉ h.made, h.uf.toForest.parent x = none
  ranks : h.uf.rank.length = h.uf.parent.length
  short : h.uf.parent.length < 2 ^ 64
  ends : ∀ pair ∈ h.unions, pair.1 ∈ h.made ∧ pair.2 ∈ h.made
  linked : ∀ x ∈ h.made, ∀ y ∈ h.made, (rep x = rep y ↔ Linked h.unions x y)
  paid : ∀ x ∈ h.made, rep x = x →
    2 ^ h.uf.toForest.rank x ≤ (h.made.filter fun y => rep y = x).card

variable {h : History} {rep depth : ℕ → ℕ} {x y s t : ℕ}

theorem Tracks.card_made_le (hh : Tracks h rep depth) : h.made.card ≤ h.uf.parent.length := by
  have hsub : h.made ⊆ Finset.range h.uf.parent.length :=
    fun x hx => Finset.mem_range.mpr (hh.forest.bound x hx)
  have hcard := Finset.card_le_card hsub
  rwa [Finset.card_range] at hcard

theorem Tracks.rank_lt (hh : Tracks h rep depth) (hx : x ∈ h.made) (hroot : rep x = x) :
    h.uf.toForest.rank x < 64 := by
  have hpaid := hh.paid x hx hroot
  have hfilter := Finset.card_filter_le h.made fun y => rep y = x
  have hmade := hh.card_made_le
  have hshort := hh.short
  exact (Nat.pow_lt_pow_iff_right (by norm_num : 1 < 2)).mp (by omega)

theorem Tracks.getElem?_rank (hh : Tracks h rep depth) (hx : x ∈ h.made) :
    h.uf.rank[x]? = some (h.uf.toForest.rank x) := by
  have hlt : x < h.uf.rank.length := hh.ranks ▸ hh.forest.bound x hx
  unfold toForest
  dsimp only
  rw [List.getElem?_eq_getElem hlt]
  rfl

/- An element that is initialised is found, however much fuel is left over. -/
theorem findSet_known (hh : Tracks h rep depth) (hx : x ∈ h.made) :
    ∃ uf, (∀ fuel ≥ h.uf.parent.length, h.uf.findSet fuel x = some (some (rep x), uf)) ∧
      Tracks { h with uf := uf } rep depth ∧ uf.rank = h.uf.rank ∧
      uf.parent.length = h.uf.parent.length := by
  obtain ⟨p, hp, hparent, hrep, -⟩ := hh.forest.parent x hx
  obtain ⟨parent, hrun, hlength, hforest, hother⟩ := compress_known hh.forest hx
  refine ⟨{ h.uf with parent := parent }, fun fuel hfuel => ?_, ⟨hforest, fun y hy => ?_,
    hh.ranks.trans hlength.symm, hlength.symm ▸ hh.short, hh.ends, hh.linked, hh.paid⟩, rfl,
    hlength⟩
  · have hroom : room h.uf.parent.length depth x < h.uf.parent.length :=
      room_lt (hh.forest.bound x hx)
    have hroomp : room h.uf.parent.length depth p < h.uf.parent.length :=
      room_lt (hh.forest.bound p hp)
    have hclimb := climb_known hh.forest hp (hroomp.trans_le hfuel)
    unfold findSet
    rw [parent_toForest.mp hparent]
    simp only [Option.bind_eq_bind, hclimb, Option.bind_some, hrep, hrun fuel (hroom.trans_le hfuel)]
  · have hnone := hh.unset y hy
    unfold toForest at hnone ⊢
    dsimp only at hnone ⊢
    rw [hother y hy]
    exact hnone

theorem findSet_unknown (hh : Tracks h rep depth) (hx : x ∉ h.made) (fuel : ℕ) :
    h.uf.findSet fuel x = some (none, h.uf) := by
  have hnone := hh.unset x hx
  unfold findSet
  split
  · next p hparent =>
    rw [parent_toForest.mpr hparent] at hnone
    cases hnone
  · rfl

/- The root with no smaller rank takes the other tree. -/
theorem link_known (hh : Tracks h rep depth) (hs : s ∈ h.made) (ht : t ∈ h.made)
    (hrs : rep s = s) (hrt : rep t = t) (hne : s ≠ t) :
    ∃ uf low high depth', (low = s ∧ high = t ∨ low = t ∧ high = s) ∧ h.uf.link s t = some uf ∧
      Forest uf.toForest h.made (fun z => if rep z = low then high else rep z) depth' ∧
      (∀ z ≠ low, uf.toForest.parent z = h.uf.toForest.parent z) ∧
      uf.parent.length = h.uf.parent.length ∧ uf.rank.length = h.uf.rank.length ∧
      2 ^ uf.toForest.rank high ≤ 2 ^ h.uf.toForest.rank low + 2 ^ h.uf.toForest.rank high ∧
      ∀ z ≠ high, uf.toForest.rank z = h.uf.toForest.rank z := by
  have hslt : s < h.uf.parent.length := hh.forest.bound s hs
  have htlt : t < h.uf.parent.length := hh.forest.bound t ht
  unfold link
  rw [if_neg hne, if_neg (by omega), hh.getElem?_rank hs, hh.getElem?_rank ht]
  simp only [Option.bind_eq_bind, Option.bind_some]
  by_cases hlt : h.uf.toForest.rank t < h.uf.toForest.rank s
  · rw [if_pos hlt]
    have hparent := parent_set htlt s h.uf.rank
    obtain ⟨depth', hforest⟩ :=
      forest_hang hh.forest ht hs hrt hrs (Ne.symm hne) List.length_set hparent
    refine ⟨_, t, s, depth', .inr ⟨rfl, rfl⟩, rfl, hforest, fun z hz => ?_, List.length_set, rfl,
      Nat.le_add_left _ _, fun _ _ => rfl⟩
    rw [hparent]
    exact Function.update_of_ne hz _ _
  · rw [if_neg hlt]
    by_cases heq : h.uf.toForest.rank s = h.uf.toForest.rank t
    · have htrank : t < h.uf.rank.length := hh.ranks ▸ htlt
      have hsmall := hh.rank_lt ht hrt
      rw [if_pos heq, if_neg (by omega)]
      have hparent := parent_set hslt t (h.uf.rank.set t (h.uf.toForest.rank t + 1))
      have hrank := rank_set htrank (h.uf.toForest.rank t + 1) (h.uf.parent.set s (some t))
      obtain ⟨depth', hforest⟩ := forest_hang hh.forest hs ht hrs hrt hne List.length_set hparent
      refine ⟨_, s, t, depth', .inl ⟨rfl, rfl⟩, rfl, hforest, fun z hz => ?_, List.length_set,
        List.length_set, ?_, fun z hz => ?_⟩
      · rw [hparent]
        exact Function.update_of_ne hz _ _
      · rw [hrank, Function.update_self, heq, pow_succ]
        omega
      · rw [hrank]
        exact Function.update_of_ne hz _ _
    · rw [if_neg heq]
      have hparent := parent_set hslt t h.uf.rank
      obtain ⟨depth', hforest⟩ := forest_hang hh.forest hs ht hrs hrt hne List.length_set hparent
      refine ⟨_, s, t, depth', .inl ⟨rfl, rfl⟩, rfl, hforest, fun z hz => ?_, List.length_set, rfl,
        Nat.le_add_left _ _, fun _ _ => rfl⟩
      rw [hparent]
      exact Function.update_of_ne hz _ _

theorem tracks_of_link (hh : Tracks h rep depth) (hx : x ∈ h.made) (hy : y ∈ h.made)
    (hne : rep x ≠ rep y) : ∃ uf rep' depth', h.uf.link (rep x) (rep y) = some uf ∧
      Tracks ⟨uf, h.made, (x, y) :: h.unions⟩ rep' depth' := by
  obtain ⟨hxm, hxx, -, -⟩ := rep_spec hh.forest hx
  obtain ⟨hym, hyy, -, -⟩ := rep_spec hh.forest hy
  obtain ⟨uf, low, high, depth', hends, hlink, hforest, hparent, hlength, hranks, hpaid, hrank⟩ :=
    link_known hh hxm hym hxx hyy hne
  have hlow : rep low = low ∧ low ∈ h.made := by
    rcases hends with ⟨rfl, rfl⟩ | ⟨rfl, rfl⟩
    · exact ⟨hxx, hxm⟩
    · exact ⟨hyy, hym⟩
  have hhigh : rep high = high ∧ high ∈ h.made := by
    rcases hends with ⟨rfl, rfl⟩ | ⟨rfl, rfl⟩
    · exact ⟨hyy, hym⟩
    · exact ⟨hxx, hxm⟩
  have hapart : low ≠ high := by
    rcases hends with ⟨rfl, rfl⟩ | ⟨rfl, rfl⟩
    · exact hne
    · exact hne.symm
  refine ⟨uf, _, depth', hlink, hforest, fun z hz => ?_, hranks.trans (hh.ranks.trans hlength.symm),
    hlength.symm ▸ hh.short, ?_, fun a ha b hb => ?_, fun z hz hroot => ?_⟩
  · rw [hparent z fun heq => hz (heq ▸ hlow.2)]
    exact hh.unset z hz
  · rintro pair hpair
    rcases List.mem_cons.mp hpair with rfl | hpair
    · exact ⟨hx, hy⟩
    · exact hh.ends pair hpair
  · rw [linked_cons, ← hh.linked a ha b hb, ← hh.linked a ha x hx, ← hh.linked y hy b hb,
      ← hh.linked a ha y hy, ← hh.linked x hx b hb]
    rcases hends with ⟨rfl, rfl⟩ | ⟨rfl, rfl⟩
    · split_ifs <;> omega
    · split_ifs <;> omega
  · dsimp only at hroot ⊢
    have hzlow : z ≠ low := by
      rintro rfl
      rw [if_pos hlow.1] at hroot
      exact hapart hroot.symm
    by_cases hzhigh : z = high
    · subst hzhigh
      have hset : (h.made.filter fun y => (if rep y = low then z else rep y) = z) =
          (h.made.filter fun y => rep y = low) ∪ h.made.filter fun y => rep y = z := by
        rw [← Finset.filter_or]
        refine Finset.filter_congr fun y _ => ?_
        split_ifs with hylow
        · exact iff_of_true rfl (Or.inl hylow)
        · exact ⟨Or.inr, fun hor => hor.resolve_left hylow⟩
      have hdisjoint : Disjoint (h.made.filter fun y => rep y = low)
          (h.made.filter fun y => rep y = z) :=
        Finset.disjoint_filter.mpr fun y _ hylow hyz => hzlow (hyz.symm.trans hylow)
      rw [hset, Finset.card_union_of_disjoint hdisjoint]
      exact hpaid.trans (Nat.add_le_add (hh.paid low hlow.2 hlow.1) (hh.paid z hz hhigh.1))
    · have hold : rep z = z := by
        split_ifs at hroot with hzrep
        · exact absurd hroot.symm hzhigh
        · exact hroot
      have hset : (h.made.filter fun y => (if rep y = low then high else rep y) = z) =
          h.made.filter fun y => rep y = z := by
        refine Finset.filter_congr fun y _ => ?_
        split_ifs with hylow
        · exact iff_of_false (Ne.symm hzhigh) fun heq => hzlow (heq.symm.trans hylow)
        · exact Iff.rfl
      rw [hset, hrank z hzhigh]
      exact hh.paid z hz hold

theorem union_known (hh : Tracks h rep depth) (hx : x ∈ h.made) (hy : y ∈ h.made) :
    ∃ uf rep' depth', (∀ fuel ≥ h.uf.parent.length, h.uf.union fuel x y = some uf) ∧
      Tracks ⟨uf, h.made, (x, y) :: h.unions⟩ rep' depth' := by
  obtain ⟨uf₁, hfind₁, hh₁, -, hlength₁⟩ := findSet_known hh hx
  obtain ⟨uf₂, hfind₂, hh₂, -, hlength₂⟩ := findSet_known hh₁ hy
  have hunion : ∀ fuel ≥ h.uf.parent.length,
      h.uf.union fuel x y = uf₂.link (rep x) (rep y) := by
    intro fuel hfuel
    rw [union, hfind₁ fuel hfuel]
    simp only [Option.bind_eq_bind, Option.bind_some]
    rw [hfind₂ fuel (hlength₁.trans_le hfuel)]
    rfl
  by_cases hsame : rep x = rep y
  · refine ⟨uf₂, rep, depth, fun fuel hfuel => (hunion fuel hfuel).trans (if_pos hsame),
      hh₂.forest, hh₂.unset, hh₂.ranks, hh₂.short, ?_, fun a ha b hb => ?_, hh₂.paid⟩
    · rintro pair hpair
      rcases List.mem_cons.mp hpair with rfl | hpair
      · exact ⟨hx, hy⟩
      · exact hh.ends pair hpair
    · exact (hh.linked a ha b hb).trans
        (linked_cons_of_linked ((hh.linked x hx y hy).mp hsame)).symm
  · obtain ⟨uf, rep', depth', hlink, hh'⟩ := tracks_of_link hh₂ hx hy hsame
    exact ⟨uf, rep', depth', fun fuel hfuel => (hunion fuel hfuel).trans hlink, hh'⟩

/- With an element that is not initialised a union finds the other one, and no more. -/
theorem union_unknown (hh : Tracks h rep depth) (hxy : ¬(x ∈ h.made ∧ y ∈ h.made)) :
    ∃ uf, (∀ fuel ≥ h.uf.parent.length, h.uf.union fuel x y = some uf) ∧
      Tracks { h with uf := uf } rep depth := by
  by_cases hx : x ∈ h.made
  · have hy : y ∉ h.made := fun hy => hxy ⟨hx, hy⟩
    obtain ⟨uf₁, hfind₁, hh₁, -, -⟩ := findSet_known hh hx
    refine ⟨uf₁, fun fuel hfuel => ?_, hh₁⟩
    rw [union, hfind₁ fuel hfuel]
    simp only [Option.bind_eq_bind, Option.bind_some]
    rw [findSet_unknown hh₁ hy]
    rfl
  · by_cases hy : y ∈ h.made
    · obtain ⟨uf₁, hfind₁, hh₁, -, -⟩ := findSet_known hh hy
      refine ⟨uf₁, fun fuel hfuel => ?_, hh₁⟩
      rw [union, findSet_unknown hh hx]
      simp only [Option.bind_eq_bind, Option.bind_some]
      rw [hfind₁ fuel hfuel]
      rfl
    · refine ⟨h.uf, fun fuel _ => ?_, hh⟩
      rw [union, findSet_unknown hh hx]
      simp only [Option.bind_eq_bind, Option.bind_some]
      rw [findSet_unknown hh hy]
      rfl

theorem tracks_new {max : ℕ} (hmax : max < 2 ^ 64) : Tracks ⟨.new max, ∅, []⟩ id fun _ => 0 where
  forest := ⟨by simp, by simp, by simp⟩
  unset x _ := by
    unfold toForest new
    dsimp only
    rw [List.getElem?_replicate]
    split <;> rfl
  ranks := List.length_replicate.trans List.length_replicate.symm
  short := List.length_replicate.trans_lt hmax
  ends := nofun
  linked := by simp
  paid := by simp

theorem getElem?_foldl_set {A : Type} (f : ℕ → A) (n : ℕ) (xs : List A) (i : ℕ) :
    ((List.range n).foldl (fun xs i => xs.set i (f i)) xs)[i]? =
      if i < n ∧ i < xs.length then some (f i) else xs[i]? := by
  induction n with
  | zero => simp
  | succ n ih =>
    have hlength : ∀ n, ((List.range n).foldl (fun xs i => xs.set i (f i)) xs).length =
        xs.length := by
      intro n
      induction n with
      | zero => rfl
      | succ n ih => rw [List.range_succ, List.foldl_append, List.foldl_cons, List.foldl_nil,
          List.length_set, ih]
    rw [List.range_succ, List.foldl_append, List.foldl_cons, List.foldl_nil, List.getElem?_set,
      hlength, ih]
    by_cases hi : n = i
    · subst hi
      rw [if_pos rfl]
      by_cases hn : n < xs.length
      · rw [if_pos hn, if_pos ⟨Nat.lt_succ_self n, hn⟩]
      · rw [if_neg hn, if_neg (by omega), List.getElem?_eq_none (by omega)]
    · rw [if_neg hi]
      refine if_congr ⟨fun h => ⟨by omega, h.2⟩, fun h => ⟨by omega, h.2⟩⟩ rfl rfl

theorem foldl_both (n : ℕ) (uf : UnionFindVec) :
    (List.range n).foldl (fun uf i => ⟨uf.parent.set i (some i), uf.rank.set i 0⟩) uf =
      (⟨(List.range n).foldl (fun xs i => xs.set i (some i)) uf.parent,
        (List.range n).foldl (fun xs i => xs.set i 0) uf.rank⟩ : UnionFindVec) := by
  induction n with
  | zero => rfl
  | succ n ih =>
    simp only [List.range_succ, List.foldl_append, List.foldl_cons, List.foldl_nil, ih]

theorem makeAllSet_eq (uf : UnionFindVec) (max : ℕ) :
    uf.makeAllSet max = ⟨(List.range max).map some, List.replicate max 0⟩ := by
  unfold makeAllSet
  rw [foldl_both]
  congr 1
  · refine List.ext_getElem? fun i => ?_
    rw [getElem?_foldl_set some, length_resize, getElem?_resize, List.getElem?_map]
    by_cases hi : i < max
    · rw [if_pos ⟨hi, hi⟩, List.getElem?_range hi]
      rfl
    · rw [if_neg (by omega), if_neg hi, List.getElem?_eq_none (by simpa using hi)]
      rfl
  · refine List.ext_getElem? fun i => ?_
    rw [getElem?_foldl_set fun _ => 0, length_resize, getElem?_resize, List.getElem?_replicate]
    by_cases hi : i < max
    · rw [if_pos ⟨hi, hi⟩, if_pos hi]
    · rw [if_neg (by omega), if_neg hi, if_neg hi]

theorem tracks_makeAllSet (uf : UnionFindVec) {max : ℕ} (hmax : max < 2 ^ 64) :
    Tracks ⟨uf.makeAllSet max, Finset.range max, []⟩ id fun _ => 0 := by
  have hparent : ∀ x, (uf.makeAllSet max).toForest.parent x = if x < max then some x else none := by
    intro x
    rw [makeAllSet_eq]
    unfold toForest
    dsimp only
    rw [List.getElem?_map]
    by_cases hx : x < max
    · rw [if_pos hx, List.getElem?_range hx]
      rfl
    · rw [if_neg hx, List.getElem?_eq_none (by simpa using hx)]
      rfl
  have hlength : (uf.makeAllSet max).parent.length = max := by
    rw [makeAllSet_eq, List.length_map, List.length_range]
  refine ⟨⟨fun x hx => ?_, fun x hx => ⟨x, hx, ?_, rfl, fun hne => absurd rfl hne⟩,
    fun _ _ _ => rfl⟩, fun x hx => ?_, ?_, hlength.trans_lt hmax, nofun, fun x _ y _ => ?_,
    fun x hx _ => ?_⟩
  · exact (Finset.mem_range.mp hx).trans_eq hlength.symm
  · rw [hparent, if_pos (Finset.mem_range.mp hx)]
  · rw [hparent, if_neg fun hlt => hx (Finset.mem_range.mpr hlt)]
  · rw [hlength, makeAllSet_eq]
    exact List.length_replicate
  · refine ⟨fun heq => ?_, eq_of_linked nofun⟩
    obtain rfl : x = y := heq
    exact linked_refl x
  · have hrank : (uf.makeAllSet max).toForest.rank x = 0 := by
      rw [makeAllSet_eq]
      unfold toForest
      dsimp only
      rw [List.getElem?_replicate]
      split <;> rfl
    dsimp only
    rw [hrank, pow_zero]
    exact Finset.card_pos.mpr ⟨x, Finset.mem_filter.mpr ⟨hx, rfl⟩⟩

/- Growing only adds what is not set. -/
theorem toForest_resize (uf : UnionFindVec) (hranks : uf.rank.length = uf.parent.length) {n : ℕ}
    (hn : uf.parent.length ≤ n) :
    (⟨resize uf.parent n none, resize uf.rank n 0⟩ : UnionFindVec).toForest =
      ⟨uf.toForest.parent, uf.toForest.rank, n⟩ := by
  unfold toForest
  congr 1
  · funext z
    dsimp only
    rw [getElem?_resize]
    split
    · cases uf.parent[z]? <;> rfl
    · rw [List.getElem?_eq_none (by omega)]
  · funext z
    dsimp only
    rw [getElem?_resize]
    split
    · cases uf.rank[z]? <;> rfl
    · rw [List.getElem?_eq_none (by omega)]
  · exact length_resize _ _ _

theorem toForest_alone (uf : UnionFindVec) (hranks : uf.rank.length = uf.parent.length) {item : ℕ}
    (hlt : item < uf.parent.length) :
    (⟨uf.parent.set item (some item), uf.rank.set item 0⟩ : UnionFindVec).toForest =
      ⟨Function.update uf.toForest.parent item (some item),
        Function.update uf.toForest.rank item 0, uf.toForest.len⟩ := by
  rw [← parent_set hlt item (uf.rank.set item 0),
    ← rank_set (hranks ▸ hlt) 0 (uf.parent.set item (some item))]
  exact congrArg (UnionFind.mk _ _) List.length_set

theorem toForest_makeSet (uf : UnionFindVec) (hranks : uf.rank.length = uf.parent.length)
    (item : ℕ) : (uf.makeSet item).toForest = uf.toForest.makeSet item := by
  unfold makeSet UnionFind.makeSet
  by_cases hle : uf.parent.length ≤ item
  · have hsize : uf.parent.length ≤ (if 0 < item then 2 * item else 2) := by split <;> omega
    have hitem : item < (if 0 < item then 2 * item else 2) := by split <;> omega
    have halone := toForest_alone
      ⟨resize uf.parent (if 0 < item then 2 * item else 2) none,
        resize uf.rank (if 0 < item then 2 * item else 2) 0⟩
      (by rw [length_resize, length_resize]) (by rw [length_resize]; exact hitem)
    rw [toForest_resize uf hranks hsize] at halone
    rw [if_pos hle]
    exact halone.trans (congrArg (UnionFind.mk _ _) (if_pos hle).symm)
  · rw [if_neg hle]
    exact (toForest_alone uf hranks (Nat.lt_of_not_le hle)).trans
      (congrArg (UnionFind.mk _ _) (if_neg hle).symm)

theorem tracks_makeSet (hh : Tracks h rep depth) {item : ℕ} (hitem : item ∉ h.made)
    (hfits : 2 * item < 2 ^ 64) :
    Tracks ⟨h.uf.makeSet item, insert item h.made, h.unions⟩ (Function.update rep item item)
      depth := by
  have hforest := toForest_makeSet h.uf hh.ranks item
  have hkept : ∀ x ∈ h.made, x ≠ item := fun x hx heq => hitem (heq ▸ hx)
  have hrep : ∀ x ∈ h.made, Function.update rep item item x = rep x :=
    fun x hx => Function.update_of_ne (hkept x hx) _ _
  have hother : ∀ x ∈ h.made, rep x ≠ item := fun x hx => hkept _ (rep_spec hh.forest hx).1
  have hfresh : ∀ pair ∈ h.unions, pair.1 ≠ item ∧ pair.2 ≠ item := fun pair hpair =>
    ⟨hkept _ (hh.ends pair hpair).1, hkept _ (hh.ends pair hpair).2⟩
  refine ⟨?_, fun x hx => ?_, ?_, ?_, fun pair hpair => ?_, fun x hx y hy => ?_,
    fun x hx hroot => ?_⟩
  · dsimp only
    rw [hforest, Finset.coe_insert]
    exact forest_makeSet hh.forest hitem
  · rw [hforest]
    have hne : x ≠ item := fun heq => hx (heq ▸ Finset.mem_insert_self _ _)
    exact (Function.update_of_ne hne _ _).trans
      (hh.unset x fun hmem => hx (Finset.mem_insert_of_mem hmem))
  · have hranks := hh.ranks
    unfold makeSet
    dsimp only
    rw [List.length_set, List.length_set]
    split
    · rw [length_resize, length_resize]
    · exact hranks
  · have hshort := hh.short
    change (h.uf.makeSet item).parent.length < 2 ^ 64
    unfold makeSet
    dsimp only
    rw [List.length_set]
    split
    · rw [length_resize]
      split <;> omega
    · exact hshort
  · exact ⟨Finset.mem_insert_of_mem (hh.ends pair hpair).1,
      Finset.mem_insert_of_mem (hh.ends pair hpair).2⟩
  · rcases Finset.mem_insert.mp hx with rfl | hold
    · rcases Finset.mem_insert.mp hy with rfl | hold'
      · exact iff_of_true rfl (linked_refl _)
      · rw [Function.update_self, hrep y hold']
        exact iff_of_false (hother y hold').symm fun hlink =>
          hkept y hold' (eq_of_linked hfresh hlink).symm
    · rcases Finset.mem_insert.mp hy with rfl | hold'
      · rw [Function.update_self, hrep x hold]
        exact iff_of_false (hother x hold) fun hlink =>
          hkept x hold (eq_of_linked hfresh hlink.symm).symm
      · rw [hrep x hold, hrep y hold']
        exact hh.linked x hold y hold'
  · dsimp only
    rw [hforest]
    rcases Finset.mem_insert.mp hx with rfl | hx
    · rw [show (h.uf.toForest.makeSet x).rank x = 0 from Function.update_self .., pow_zero]
      exact Finset.card_pos.mpr ⟨x, Finset.mem_filter.mpr
        ⟨Finset.mem_insert_self _ _, Function.update_self ..⟩⟩
    · rw [hrep x hx] at hroot
      rw [show (h.uf.toForest.makeSet item).rank x = h.uf.toForest.rank x from
        Function.update_of_ne (hkept x hx) _ _]
      refine (hh.paid x hx hroot).trans (Finset.card_le_card fun y hy => ?_)
      obtain ⟨hymade, hyrep⟩ := Finset.mem_filter.mp hy
      exact Finset.mem_filter.mpr ⟨Finset.mem_insert_of_mem hymade, (hrep y hymade).trans hyrep⟩

def Tracked (h : History) : Prop := ∃ rep depth, Tracks h rep depth

theorem tracked_apply (op : Op) (h : History) (hop : Admits h op) (hh : Tracked h) :
    ∃ h', op.apply h = some h' ∧ Tracked h' := by
  obtain ⟨rep, depth, hh⟩ := hh
  cases op with
  | makeSet item => exact ⟨_, rfl, _, _, tracks_makeSet hh hop.1 hop.2⟩
  | makeAllSet max => exact ⟨_, rfl, _, _, tracks_makeAllSet h.uf hop⟩
  | union x y =>
    by_cases hxy : x ∈ h.made ∧ y ∈ h.made
    · obtain ⟨uf, rep', depth', hunion, hh'⟩ := union_known hh hxy.1 hxy.2
      refine ⟨_, ?_, rep', depth', hh'⟩
      rw [Op.apply, hunion _ le_rfl, Option.map_some, if_pos hxy]
    · obtain ⟨uf, hunion, hh'⟩ := union_unknown hh hxy
      refine ⟨_, ?_, rep, depth, hh'⟩
      rw [Op.apply, hunion _ le_rfl, Option.map_some, if_neg hxy]
  | findSet item =>
    by_cases hitem : item ∈ h.made
    · obtain ⟨uf, hfind, hh', -, -⟩ := findSet_known hh hitem
      refine ⟨_, ?_, rep, depth, hh'⟩
      rw [Op.apply, hfind _ le_rfl]
      rfl
    · refine ⟨h, ?_, rep, depth, hh⟩
      rw [Op.apply, findSet_unknown hh hitem]
      rfl

end Invariant

section Runs

open UnionFind Links

/- What `find_set` answers, with fuel for as many steps as there are elements. -/
def representative (uf : UnionFindVec) (x : ℕ) : Option (Option ℕ) :=
  (uf.findSet uf.parent.length x).map Prod.fst

/- What holds of the arrays after any history. -/
structure Exact (h : History) : Prop where
  ends : ∀ x, ∃ answer uf, (∀ fuel ≥ h.uf.parent.length, h.uf.findSet fuel x = some (answer, uf)) ∧
    (answer = none ↔ x ∉ h.made)
  joined : ∀ x ∈ h.made, ∀ y ∈ h.made,
    (representative h.uf x = representative h.uf y ↔ Linked h.unions x y)
  idle : ∀ x y, ¬(x ∈ h.made ∧ y ∈ h.made) → ∃ uf,
    (∀ fuel ≥ h.uf.parent.length, h.uf.union fuel x y = some uf) ∧
    ∀ z, representative uf z = representative h.uf z
  acyclic : ∃ depth : ℕ → ℕ, ∀ x p, h.uf.parent[x]? = some (some p) →
    ∃ q, h.uf.parent[p]? = some (some q) ∧ (p ≠ x → depth p < depth x)
  ranked : ∀ r, h.uf.parent[r]? = some (some r) → ∃ rank, h.uf.rank[r]? = some rank ∧
    rank ≤ Nat.log 2 (h.made.filter fun x => representative h.uf x = some (some r)).card ∧
    rank ≤ 255

variable {h : History} {rep depth : ℕ → ℕ} {x y : ℕ}

theorem representative_known (hh : Tracks h rep depth) (hx : x ∈ h.made) :
    representative h.uf x = some (some (rep x)) := by
  obtain ⟨uf, hfind, -⟩ := findSet_known hh hx
  rw [representative, hfind _ le_rfl]
  rfl

theorem representative_unknown (hh : Tracks h rep depth) (hx : x ∉ h.made) :
    representative h.uf x = some none := by
  rw [representative, findSet_unknown hh hx]
  rfl

theorem made_of_parent (hh : Tracks h rep depth) {p : ℕ}
    (hparent : h.uf.parent[x]? = some (some p)) : x ∈ h.made := by
  by_contra hx
  have hnone := hh.unset x hx
  rw [parent_toForest.mpr hparent] at hnone
  cases hnone

theorem exact_of_tracks (hh : Tracks h rep depth) : Exact h where
  ends x := by
    by_cases hx : x ∈ h.made
    · obtain ⟨uf, hfind, -⟩ := findSet_known hh hx
      exact ⟨_, uf, hfind, iff_of_false nofun (not_not.mpr hx)⟩
    · exact ⟨none, h.uf, fun fuel _ => findSet_unknown hh hx fuel, iff_of_true rfl hx⟩
  joined x hx y hy := by
    rw [representative_known hh hx, representative_known hh hy, ← hh.linked x hx y hy]
    exact ⟨fun heq => Option.some.inj (Option.some.inj heq), fun heq => heq ▸ rfl⟩
  idle x y hxy := by
    obtain ⟨uf, hunion, hh'⟩ := union_unknown hh hxy
    refine ⟨uf, hunion, fun z => ?_⟩
    by_cases hz : z ∈ h.made
    · exact (representative_known hh' hz).trans (representative_known hh hz).symm
    · exact (representative_unknown hh' hz).trans (representative_unknown hh hz).symm
  acyclic := by
    refine ⟨depth, fun x p hparent => ?_⟩
    obtain ⟨p', hp', hparent', -, hdown⟩ := hh.forest.parent x (made_of_parent hh hparent)
    obtain rfl : p' = p :=
      Option.some.inj (Option.some.inj ((parent_toForest.mp hparent').symm.trans hparent))
    obtain ⟨q, -, hq, -⟩ := hh.forest.parent p' hp'
    exact ⟨q, parent_toForest.mp hq, hdown⟩
  ranked r hparent := by
    have hr := made_of_parent hh hparent
    have hroot := hh.forest.root r hr (parent_toForest.mpr hparent)
    have hsmall := hh.rank_lt hr hroot
    refine ⟨_, hh.getElem?_rank hr, ?_, by omega⟩
    have hset : (h.made.filter fun x => representative h.uf x = some (some r)) =
        h.made.filter fun x => rep x = r := by
      refine Finset.filter_congr fun x hx => ?_
      rw [representative_known hh hx]
      exact ⟨fun heq => Option.some.inj (Option.some.inj heq), fun heq => heq ▸ rfl⟩
    rw [hset]
    exact Nat.le_log_of_pow_le Nat.one_lt_two (hh.paid r hr hroot)

theorem unionFind_exact (max : ℕ) (hmax : max < 2 ^ 64) (ops : List Op)
    (hall : AllSteps Op.apply Admits ops ⟨.new max, ∅, []⟩) :
    ∃ h, runOps Op.apply ops ⟨.new max, ∅, []⟩ = some h ∧ Exact h := by
  obtain ⟨h, hrun, rep, depth, hh⟩ :=
    run_succeeds tracked_apply hall ⟨id, fun _ => 0, tracks_new hmax⟩
  exact ⟨h, hrun, exact_of_tracks hh⟩

theorem unionFind_exact_grown : ∃ h, runOps Op.apply
    [.makeAllSet 3, .union 0 1, .makeSet 7, .union 7 1, .findSet 0, .union 2 20, .makeAllSet 2]
    ⟨.new 1, ∅, []⟩ = some h ∧ Exact h :=
  unionFind_exact 1 (by decide) _ (by simp [AllSteps, Admits, Op.apply])

end Runs

end UnionFindVec

end Sicada
