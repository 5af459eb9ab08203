import Sicada.Library.SortedLists

namespace Sicada

/- An integer type; `noKey` is the value of it that no set holds. -/
class CompactSetKey (K : Type) extends LinearOrder K where
  noKey : K
  toI128 : K → ℤ
  strictMono : StrictMono toI128

export CompactSetKey (noKey toI128)

section Keys

@[reducible] def intKey {lo hi : ℤ} (no : Set.Icc lo hi) : CompactSetKey (Set.Icc lo hi) where
  noKey := no
  toI128 := Subtype.val
  strictMono := fun _ _ h => h

abbrev U32Key := Set.Icc (0 : ℤ) (2 ^ 32 - 1)

abbrev U64Key := Set.Icc (0 : ℤ) (2 ^ 64 - 1)

abbrev I32Key := Set.Icc (-2 ^ 31 : ℤ) (2 ^ 31 - 1)

abbrev I64Key := Set.Icc (-2 ^ 63 : ℤ) (2 ^ 63 - 1)

instance : CompactSetKey U32Key := intKey ⟨2 ^ 32 - 1, by norm_num⟩

/- `usize` as well. -/
instance : CompactSetKey U64Key := intKey ⟨2 ^ 64 - 1, by norm_num⟩

instance : CompactSetKey I32Key := intKey ⟨-1, by norm_num⟩

instance : CompactSetKey I64Key := intKey ⟨-1, by norm_num⟩

end Keys

variable {K : Type} [CompactSetKey K]

/- How many integers there are from `min` to `max`, if a `usize` holds that. -/
def span (min max : K) : Option ℕ :=
  let width := toI128 max - toI128 min + 1
  if 0 ≤ width ∧ width < 2 ^ 64 then some width.toNat else none

structure CompactSet (K : Type) where
  keys : List K
  minKey : K
  maxKey : K
deriving DecidableEq

namespace CompactSet

section Operations

open BinarySearch

def new : CompactSet K := ⟨[], noKey, noKey⟩

variable (key : K) (set : CompactSet K)

def insert : CompactSet K where
  keys := match binarySearch (compare · key) set.keys with
    | .ok _ => set.keys
    | .error index => set.keys.insertIdx index key
  minKey := if set.minKey = noKey ∨ key < set.minKey then key else set.minKey
  maxKey := if set.maxKey = noKey ∨ set.maxKey < key then key else set.maxKey

def erase : CompactSet K :=
  match binarySearch (compare · key) set.keys with
  | .error _ => set
  | .ok index =>
    match set.keys.eraseIdx index with
    | [] => ⟨[], noKey, noKey⟩
    | first :: rest =>
      if key = set.minKey then ⟨first :: rest, first, set.maxKey⟩
      else if key = set.maxKey then
        ⟨first :: rest, set.minKey, (first :: rest).getLast (List.cons_ne_nil first rest)⟩
      else ⟨first :: rest, set.minKey, set.maxKey⟩

def isMember : Bool :=
  if set.minKey = noKey ∨ key < set.minKey ∨ set.maxKey < key then false
  else if span set.minKey set.maxKey = some set.keys.length then true
  else match binarySearch (compare · key) set.keys with
    | .ok _ => true
    | .error _ => false

def lowerBound : K := set.minKey

def upperBound : K := set.maxKey

end Operations

end CompactSet

inductive CompactSetOp (K : Type)
  | insert (key : K)
  | erase (key : K)
  | clear

namespace CompactSetOp

def apply (set : CompactSet K) : CompactSetOp K → CompactSet K
  | .insert key => set.insert key
  | .erase key => set.erase key
  | .clear => .new

/- What becomes of the members. -/
def act (A : Set K) : CompactSetOp K → Set K
  | .insert key => Insert.insert key A
  | .erase key => A \ {key}
  | .clear => ∅

/- The key that stands for no key is none. -/
def Real : CompactSetOp K → Prop
  | .insert key => key ≠ noKey
  | .erase key => key ≠ noKey
  | .clear => True

end CompactSetOp

namespace CompactSet

open BinarySearch

variable {set : CompactSet K} {A : Set K} {key : K} {keys pre post : List K}

/- The members in order, and the bounds as tight as can be. -/
structure Tight (set : CompactSet K) (A : Set K) : Prop where
  sorted : set.keys.Pairwise (· < ·)
  mem : ∀ k, k ∈ set.keys ↔ k ∈ A
  real : noKey ∉ A
  bounds : (A = ∅ ∧ set.minKey = noKey ∧ set.maxKey = noKey) ∨
    IsLeast A set.minKey ∧ IsGreatest A set.maxKey

theorem search_cases (h : keys.Pairwise (· < ·)) (key : K) :
    (∃ pre post, keys = pre ++ key :: post ∧
      binarySearch (compare · key) keys = .ok pre.length) ∨
    ∃ pre post, keys = pre ++ post ∧ (∀ a ∈ pre, a < key) ∧ (∀ b ∈ post, key < b) ∧
      binarySearch (compare · key) keys = .error pre.length := by
  have hordered : Ordered (compare · key) keys := by
    refine h.imp fun {a b} hab => ?_
    rcases lt_or_ge a key with ha | ha
    · exact Or.inl (compare_lt_iff_lt.mpr ha)
    · exact Or.inr (compare_gt_iff_gt.mpr (ha.trans_lt hab))
  rcases binarySearch_spec hordered with ⟨pre, x, post, rfl, hx, -, -, hsearch⟩ |
    ⟨pre, post, rfl, hpre, hpost, hsearch⟩
  · obtain rfl := compare_eq_iff_eq.mp hx
    exact Or.inl ⟨pre, post, rfl, hsearch⟩
  · exact Or.inr ⟨pre, post, rfl, fun a ha => compare_lt_iff_lt.mp (hpre a ha),
      fun b hb => compare_gt_iff_gt.mp (hpost b hb), hsearch⟩

theorem tight_new : Tight (new : CompactSet K) ∅ :=
  ⟨List.Pairwise.nil, fun _ => by simp [new], id, Or.inl ⟨rfl, rfl, rfl⟩⟩

/- A bound that stands for none is moved to the key, and so is one the key lies beyond. -/
theorem isLeast_insert {α : Type} [LinearOrder α] {A : Set α} {key m none : α}
    (h : (A = ∅ ∧ m = none) ∨ IsLeast A m) (hreal : none ∉ A) :
    IsLeast (Insert.insert key A) (if m = none ∨ key < m then key else m) := by
  rcases h with ⟨rfl, rfl⟩ | h
  · rw [if_pos (Or.inl rfl), insert_empty_eq]
    exact isLeast_singleton
  · have hm : m ≠ none := fun heq => hreal (heq ▸ h.1)
    have hmin : (if m = none ∨ key < m then key else m) = min key m := by
      split
      · next hcases => exact (min_eq_left (hcases.resolve_left hm).le).symm
      · next hcases => exact (min_eq_right (not_lt.mp (not_or.mp hcases).2)).symm
    rw [hmin]
    exact h.insert key

theorem Tight.insert (h : Tight set A) (hkey : key ≠ noKey) :
    Tight (set.insert key) (Insert.insert key A) := by
  have hreal : noKey ∉ Insert.insert key A := by
    rintro (heq | hin)
    · exact hkey heq.symm
    · exact h.real hin
  have hbounds : IsLeast (Insert.insert key A) (set.insert key).minKey ∧
      IsGreatest (Insert.insert key A) (set.insert key).maxKey :=
    ⟨isLeast_insert (h.bounds.imp (fun hnone => ⟨hnone.1, hnone.2.1⟩) And.left) h.real,
      isLeast_insert (α := Kᵒᵈ) (h.bounds.imp (fun hnone => ⟨hnone.1, hnone.2.2⟩) And.right) h.real⟩
  rcases search_cases h.sorted key with ⟨pre, post, hkeys, hsearch⟩ |
    ⟨pre, post, hkeys, hpre, hpost, hsearch⟩
  · have hsame : (set.insert key).keys = set.keys := by
      unfold CompactSet.insert
      rw [hsearch]
    refine ⟨hsame ▸ h.sorted, fun k => ?_, hreal, Or.inr hbounds⟩
    have hin : key ∈ A := (h.mem key).mp (hkeys ▸ List.mem_append_right _ List.mem_cons_self)
    rw [hsame, h.mem, Set.insert_eq_of_mem hin]
  · have hnew : (set.insert key).keys = pre ++ key :: post := by
      unfold CompactSet.insert
      rw [hsearch]
      dsimp only
      rw [hkeys, insertIdx_length]
    have hsorted := h.sorted
    rw [hkeys] at hsorted
    obtain ⟨hpre', hpost', hboth⟩ := List.pairwise_append.mp hsorted
    refine ⟨hnew ▸ List.pairwise_append.mpr ⟨hpre', List.pairwise_cons.mpr ⟨hpost, hpost'⟩, ?_⟩,
      fun k => ?_, hreal, Or.inr hbounds⟩
    · intro a ha b hb
      rcases List.mem_cons.mp hb with rfl | hb
      · exact hpre a ha
      · exact hboth a ha b hb
    · rw [hnew, Set.mem_insert_iff, ← h.mem, hkeys, List.mem_append, List.mem_cons, List.mem_append]
      exact or_left_comm

theorem isLeast_head {first : K} (h : (first :: keys).Pairwise (· < ·)) :
    IsLeast {k | k ∈ first :: keys} first := by
  refine ⟨List.mem_cons_self, fun k hk => ?_⟩
  rcases List.mem_cons.mp hk with rfl | hk
  · exact le_rfl
  · exact ((List.pairwise_cons.mp h).1 k hk).le

theorem isGreatest_getLast (h : keys.Pairwise (· < ·)) (hne : keys ≠ []) :
    IsGreatest {k | k ∈ keys} (keys.getLast hne) := by
  refine ⟨List.getLast_mem hne, fun k hk => ?_⟩
  rw [← List.dropLast_append_getLast hne] at h hk
  rcases List.mem_append.mp hk with hk | hk
  · exact ((List.pairwise_append.mp h).2.2 k hk _ (List.mem_singleton.mpr rfl)).le
  · exact (List.mem_singleton.mp hk).le

/- A bound that is not erased stays one. -/
theorem isLeast_erase {m : K} (h : IsLeast A m) (hne : key ≠ m) : IsLeast (A \ {key}) m :=
  ⟨⟨h.1, fun heq => hne heq.symm⟩, fun _ hk => h.2 hk.1⟩

theorem isGreatest_erase {m : K} (h : IsGreatest A m) (hne : key ≠ m) :
    IsGreatest (A \ {key}) m :=
  ⟨⟨h.1, fun heq => hne heq.symm⟩, fun _ hk => h.2 hk.1⟩

theorem Tight.erase (h : Tight set A) (key : K) : Tight (set.erase key) (A \ {key}) := by
  rcases search_cases h.sorted key with ⟨pre, post, hkeys, hsearch⟩ |
    ⟨pre, post, hkeys, hpre, hpost, hsearch⟩
  · have hreal : noKey ∉ A \ {key} := fun hin => h.real hin.1
    have hin : key ∈ A := (h.mem key).mp (hkeys ▸ List.mem_append_right _ List.mem_cons_self)
    obtain ⟨hleast, hgreatest⟩ := h.bounds.resolve_left fun hnone => by
      rw [hnone.1] at hin
      exact hin
    have hsorted := h.sorted
    rw [hkeys] at hsorted
    obtain ⟨hpre, hpost, hboth⟩ := List.pairwise_append.mp hsorted
    obtain ⟨hkey, hpost'⟩ := List.pairwise_cons.mp hpost
    have hrest : (pre ++ post).Pairwise (· < ·) := List.pairwise_append.mpr
      ⟨hpre, hpost', fun a ha b hb => hboth a ha b (List.mem_cons_of_mem _ hb)⟩
    have hmem : ∀ k, k ∈ pre ++ post ↔ k ∈ A \ {key} := by
      intro k
      rw [Set.mem_sdiff, Set.mem_singleton_iff, ← h.mem, hkeys, List.mem_append, List.mem_append,
        List.mem_cons]
      constructor
      · rintro (hk | hk)
        · exact ⟨Or.inl hk, (hboth k hk key List.mem_cons_self).ne⟩
        · exact ⟨Or.inr (Or.inr hk), (hkey k hk).ne'⟩
      · rintro ⟨hk | rfl | hk, hne⟩
        · exact Or.inl hk
        · exact absurd rfl hne
        · exact Or.inr hk
    have hset : {k | k ∈ pre ++ post} = A \ {key} := Set.ext hmem
    unfold CompactSet.erase
    rw [hsearch]
    dsimp only
    rw [hkeys, eraseIdx_length]
    generalize pre ++ post = rest at hrest hmem hset
    cases rest with
    | nil =>
      have hnone : A \ {key} = ∅ := by
        rw [← hset]
        exact Set.eq_empty_of_forall_notMem fun _ => List.not_mem_nil
      exact ⟨List.Pairwise.nil, hmem, hreal, Or.inl ⟨hnone, rfl, rfl⟩⟩
    | cons first rest =>
      have hfirst := hset ▸ isLeast_head hrest
      have hlast := hset ▸ isGreatest_getLast hrest (List.cons_ne_nil first rest)
      dsimp only
      split
      · next hmin =>
        refine ⟨hrest, hmem, hreal, Or.inr ⟨hfirst, isGreatest_erase hgreatest fun hmax => ?_⟩⟩
        have hle := hleast.2 hfirst.1.1
        have hge := hgreatest.2 hfirst.1.1
        rw [← hmin] at hle
        rw [← hmax] at hge
        exact hfirst.1.2 (le_antisymm hge hle)
      · next hmin =>
        split
        · exact ⟨hrest, hmem, hreal, Or.inr ⟨isLeast_erase hleast hmin, hlast⟩⟩
        · next hmax =>
          exact ⟨hrest, hmem, hreal,
            Or.inr ⟨isLeast_erase hleast hmin, isGreatest_erase hgreatest hmax⟩⟩
  · have hout : key ∉ A := by
      rw [← h.mem, hkeys, List.mem_append]
      rintro (hk | hk)
      · exact lt_irrefl key (hpre key hk)
      · exact lt_irrefl key (hpost key hk)
    have hsame : set.erase key = set := by
      unfold CompactSet.erase
      rw [hsearch]
    rw [hsame, Set.sdiff_singleton_eq_self hout]
    exact h

theorem Tight.apply (h : Tight set A) {op : CompactSetOp K} (hop : op.Real) :
    Tight (op.apply set) (op.act A) := by
  cases op with
  | insert key => exact h.insert hop
  | erase key => exact h.erase key
  | clear => exact tight_new

/- As many keys as there are integers between the bounds are all of them. -/
theorem mem_of_dense (h : keys.Pairwise (· < ·)) {min max : K} (hmin : ∀ k ∈ keys, min ≤ k)
    (hmax : ∀ k ∈ keys, k ≤ max) (hdense : span min max = some keys.length) (hkey : min ≤ key)
    (hkey' : key ≤ max) : key ∈ keys := by
  have hmono : StrictMono (toI128 : K → ℤ) := CompactSetKey.strictMono
  have hwidth : (toI128 max + 1 - toI128 min).toNat = keys.length := by
    unfold span at hdense
    dsimp only at hdense
    split at hdense
    · rw [← Option.some.inj hdense]
      congr 1
      ring
    · cases hdense
  have hsub : (keys.map toI128).toFinset ⊆ Finset.Icc (toI128 min) (toI128 max) := by
    intro z hz
    obtain ⟨k, hk, rfl⟩ := List.mem_map.mp (List.mem_toFinset.mp hz)
    exact Finset.mem_Icc.mpr ⟨hmono.monotone (hmin k hk), hmono.monotone (hmax k hk)⟩
  have hkeys : keys.Nodup := h.imp fun hab => hab.ne
  have hnodup : (keys.map (toI128 : K → ℤ)).Nodup := hkeys.map hmono.injective
  have hcard : (Finset.Icc (toI128 min) (toI128 max)).card ≤
      (keys.map (toI128 : K → ℤ)).toFinset.card := by
    rw [Int.card_Icc, List.toFinset_card_of_nodup hnodup, List.length_map, hwidth]
  have hin : toI128 key ∈ (keys.map toI128).toFinset := by
    rw [Finset.eq_of_subset_of_card_le hsub hcard]
    exact Finset.mem_Icc.mpr ⟨hmono.monotone hkey, hmono.monotone hkey'⟩
  obtain ⟨k, hk, heq⟩ := List.mem_map.mp (List.mem_toFinset.mp hin)
  exact hmono.injective heq ▸ hk

theorem Tight.isMember (h : Tight set A) (key : K) : set.isMember key = true ↔ key ∈ A := by
  unfold CompactSet.isMember
  rcases h.bounds with ⟨rfl, hmin, -⟩ | ⟨hleast, hgreatest⟩
  · rw [if_pos (Or.inl hmin)]
    exact iff_of_false Bool.false_ne_true id
  · have hreal : set.minKey ≠ noKey := fun heq => h.real (heq ▸ hleast.1)
    by_cases hout : key < set.minKey ∨ set.maxKey < key
    · rw [if_pos (Or.inr hout)]
      refine iff_of_false Bool.false_ne_true fun hin => ?_
      rcases hout with hlt | hlt
      · exact absurd (hleast.2 hin) (not_le.mpr hlt)
      · exact absurd (hgreatest.2 hin) (not_le.mpr hlt)
    · rw [if_neg (not_or.mpr ⟨hreal, hout⟩)]
      obtain ⟨hlo, hhi⟩ := not_or.mp hout
      split
      · next hdense =>
        refine iff_of_true rfl ((h.mem key).mp (mem_of_dense h.sorted (fun k hk => ?_)
          (fun k hk => ?_) hdense (not_lt.mp hlo) (not_lt.mp hhi)))
        · exact hleast.2 ((h.mem k).mp hk)
        · exact hgreatest.2 ((h.mem k).mp hk)
      · rw [← h.mem]
        rcases search_cases h.sorted key with ⟨pre, post, hkeys, hsearch⟩ |
          ⟨pre, post, hkeys, hpre, hpost, hsearch⟩
        · rw [hsearch]
          exact iff_of_true rfl (hkeys ▸ List.mem_append_right _ List.mem_cons_self)
        · rw [hsearch]
          refine iff_of_false Bool.false_ne_true ?_
          rw [hkeys, List.mem_append]
          rintro (hk | hk)
          · exact lt_irrefl key (hpre key hk)
          · exact lt_irrefl key (hpost key hk)

theorem tight_run {ops : List (CompactSetOp K)} (hops : ∀ op ∈ ops, op.Real) :
    ∀ {set : CompactSet K} {A : Set K}, Tight set A →
      Tight (ops.foldl CompactSetOp.apply set) (ops.foldl CompactSetOp.act A) := by
  induction ops with
  | nil => exact fun h => h
  | cons op ops ih =>
    intro set A h
    exact ih (fun op hop => hops op (List.mem_cons_of_mem _ hop))
      (h.apply (hops op List.mem_cons_self))

/- Whatever has been inserted and erased, the set and its bounds are those of its members. -/
theorem compactSet_faithful {ops : List (CompactSetOp K)} (hops : ∀ op ∈ ops, op.Real) :
    let set := ops.foldl CompactSetOp.apply new
    let A := ops.foldl CompactSetOp.act (∅ : Set K)
    (∀ probe, set.isMember probe = true ↔ probe ∈ A) ∧
      set.keys.Pairwise (· < ·) ∧ (∀ k, k ∈ set.keys ↔ k ∈ A) ∧
      (set.lowerBound = noKey ↔ A = ∅) ∧ (set.upperBound = noKey ↔ A = ∅) ∧
      (A.Nonempty → IsLeast A set.lowerBound ∧ IsGreatest A set.upperBound) := by
  intro set A
  have h : Tight set A := tight_run hops tight_new
  refine ⟨h.isMember, h.sorted, h.mem, ?_⟩
  unfold lowerBound upperBound
  rcases h.bounds with ⟨hA, hmin, hmax⟩ | hbounds
  · exact ⟨iff_of_true hmin hA, iff_of_true hmax hA,
      fun hne => absurd hA hne.ne_empty⟩
  · have hne : A ≠ ∅ := Set.nonempty_iff_ne_empty.mp ⟨_, hbounds.1.1⟩
    exact ⟨iff_of_false (fun heq => h.real (heq ▸ hbounds.1.1)) hne,
      iff_of_false (fun heq => h.real (heq ▸ hbounds.2.1)) hne, fun _ => hbounds⟩

/- Keys on both sides of the one that stands for none. -/
theorem compactSet_faithful_signed :
    let ops : List (CompactSetOp I32Key) :=
      [.insert ⟨-2, by norm_num⟩, .insert ⟨0, by norm_num⟩, .insert ⟨1, by norm_num⟩,
        .erase ⟨1, by norm_num⟩]
    (∀ op ∈ ops, op.Real) ∧ (ops.foldl CompactSetOp.apply new).isMember ⟨0, by norm_num⟩ = true := by
  intro ops
  have hops : ∀ op ∈ ops, op.Real := by
    simp [ops, CompactSetOp.Real, noKey]
  exact ⟨hops, ((compactSet_faithful hops).1 _).mpr (by simp [ops, CompactSetOp.act])⟩

end CompactSet

end Sicada
