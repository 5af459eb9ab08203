import Sicada.Weights.CompositeLaws
import Sicada.Weights.UnionWeight

namespace Sicada

/- Union weights as formal sums: an ordered key says where an element stands, and elements of one
key are merged. -/
namespace UnionSums

open WeightOps WeightLaws BinarySearch CompositeLaws

variable {E K R : Type} [WeightOps E] [DecidableEq E] [LinearOrder K] [Semiring R]
  {O : UnionWeightOptions E} {good : E → Prop} {key : E → K} {val : E → R}

section Elements

variable {e old : E} {elems elems' pre post : List E}

structure Reads (O : UnionWeightOptions E) (good : E → Prop) (key : E → K) (val : E → R) :
    Prop where
  compare (e e' : E) : O.compare e e' = decide (key e < key e')
  key_merge (e e' : E) : key (O.merge e e') = key e
  member (e : E) : good e → isMember e = true
  merge (e e' : E) : good e → good e' → key e = key e' →
    good (O.merge e e') ∧ val (O.merge e e') = val e + val e'
  times (e e' : E) : good e → good e' → good (times e e') ∧ val (times e e') = val e * val e'
  normalize (elems : List E) : O.normalize elems = elems

def Sorted (key : E → K) (elems : List E) : Prop := elems.Pairwise fun e e' => key e < key e'

def total (val : E → R) (elems : List E) : R := (elems.map val).sum

theorem total_nil : total val [] = 0 := rfl

theorem total_cons : total val (e :: elems) = val e + total val elems := by
  rw [total, List.map_cons, List.sum_cons, total]

theorem total_append : total val (elems ++ elems') = total val elems + total val elems' := by
  rw [total, List.map_append, List.sum_append, total, total]

/- What an element does to a sorted list: it comes in between, or is merged. -/
inductive Pushed (O : UnionWeightOptions E) (key : E → K) (e : E) : List E → List E → Prop
  | added (pre post : List E) : (∀ x ∈ pre, key x < key e) → (∀ x ∈ post, key e < key x) →
      Pushed O key e (pre ++ post) (pre ++ e :: post)
  | merged (pre : List E) (old : E) (post : List E) : key old = key e →
      Pushed O key e (pre ++ old :: post) (pre ++ O.merge old e :: post)

omit [DecidableEq E] in
theorem ordering_eq (h : ∀ e e', O.compare e e' = decide (key e < key e')) (e e' : E) :
    UnionWeight.ordering O e e' = cmp (key e) (key e') := by
  unfold UnionWeight.ordering
  rw [h, h]
  rcases lt_trichotomy (key e) (key e') with hlt | heq | hgt
  · rw [if_pos (decide_eq_true hlt), (cmp_eq_lt_iff _ _).mpr hlt]
  · rw [if_neg (by simp [heq]), if_neg (by simp [heq]), (cmp_eq_eq_iff _ _).mpr heq]
  · rw [if_neg (by simpa using hgt.le), if_pos (decide_eq_true hgt), (cmp_eq_gt_iff _ _).mpr hgt]

omit [DecidableEq E] in
theorem insert_pushed (h : ∀ e e', O.compare e e' = decide (key e < key e'))
    (hs : Sorted key elems) (e : E) :
    Pushed O key e elems (UnionWeight.insert O elems e) := by
  have hordered : Ordered (fun w => UnionWeight.ordering O w e) elems := by
    refine hs.imp fun {a b} hab => ?_
    dsimp only
    rw [ordering_eq h, ordering_eq h, cmp_eq_lt_iff, cmp_eq_gt_iff]
    rcases lt_or_ge (key a) (key e) with hlt | hge
    · exact Or.inl hlt
    · exact Or.inr (hge.trans_lt hab)
  unfold UnionWeight.insert
  rcases binarySearch_spec hordered with ⟨pre, old, post, rfl, heq, -, -, hsearch⟩ |
    ⟨pre, post, rfl, hpre, hpost, hsearch⟩
  · rw [hsearch]
    dsimp only
    rw [modify_length]
    rw [ordering_eq h, cmp_eq_eq_iff] at heq
    exact .merged pre old post heq
  · rw [hsearch]
    dsimp only
    rw [insertIdx_length]
    refine .added pre post (fun x hx => ?_) fun x hx => ?_
    · exact (cmp_eq_lt_iff _ _).mp ((ordering_eq h x e).symm.trans (hpre x hx))
    · exact (cmp_eq_gt_iff _ _).mp ((ordering_eq h x e).symm.trans (hpost x hx))

omit [DecidableEq E] in
theorem pushBack_pushed (h : ∀ e e', O.compare e e' = decide (key e < key e'))
    (hs : Sorted key elems) (he : isMember e = true) (sorted : Bool) :
    ∃ elems', (⟨some elems⟩ : UnionWeight E O).pushBack e sorted = ⟨some elems'⟩ ∧
      Pushed O key e elems elems' := by
  unfold UnionWeight.pushBack
  dsimp only
  rw [if_neg (by simp [he])]
  rcases List.eq_nil_or_concat elems with rfl | ⟨pre, back, rfl⟩
  · exact ⟨[e], rfl, .added [] [] (by simp) (by simp)⟩
  · rw [List.concat_eq_append] at hs ⊢
    have hinsert := insert_pushed h hs e
    rw [List.getLast?_concat]
    dsimp only
    cases sorted with
    | false => exact ⟨_, rfl, hinsert⟩
    | true =>
      rw [if_pos rfl, h, h]
      obtain ⟨-, -, hback⟩ := List.pairwise_append.mp hs
      rcases lt_trichotomy (key back) (key e) with hlt | heq | hgt
      · rw [if_pos (decide_eq_true hlt)]
        refine ⟨_, rfl, ?_⟩
        have hadded : Pushed O key e (pre ++ [back] ++ []) (pre ++ [back] ++ e :: []) := by
          refine .added _ [] (fun x hx => ?_) (by simp)
          rcases List.mem_append.mp hx with hx | hx
          · exact (hback x hx back (List.mem_singleton_self back)).trans hlt
          · exact List.mem_singleton.mp hx ▸ hlt
        rwa [List.append_nil] at hadded
      · rw [if_neg (by simp [heq]), if_pos (by simp [heq]), List.dropLast_concat]
        exact ⟨_, rfl, .merged pre back [] heq⟩
      · rw [if_neg (by simpa using hgt.le), if_neg (by simp [hgt])]
        exact ⟨_, rfl, hinsert⟩

omit [WeightOps E] [DecidableEq E] in
theorem sorted_added (hs : Sorted key (pre ++ post)) (hpre : ∀ x ∈ pre, key x < key e)
    (hpost : ∀ x ∈ post, key e < key x) : Sorted key (pre ++ e :: post) := by
  obtain ⟨hspre, hspost, hcross⟩ := List.pairwise_append.mp hs
  refine List.pairwise_append.mpr ⟨hspre, List.pairwise_cons.mpr ⟨hpost, hspost⟩, ?_⟩
  intro x hx y hy
  rcases List.mem_cons.mp hy with rfl | hy
  · exact hpre x hx
  · exact hcross x hx y hy

/- A sorted list of good elements. -/
def Normal (good : E → Prop) (key : E → K) (elems : List E) : Prop :=
  Sorted key elems ∧ ∀ e ∈ elems, good e

theorem normal_nil : Normal good key [] := ⟨List.Pairwise.nil, by simp⟩

theorem normal_pushed (h : Reads O good key val) (hn : Normal good key elems) (he : good e)
    (hpushed : Pushed O key e elems elems') :
    Normal good key elems' ∧ total val elems' = total val elems + val e := by
  obtain ⟨hs, hgood⟩ := hn
  cases hpushed with
  | added pre post hpre hpost =>
    refine ⟨⟨sorted_added hs hpre hpost, ?_⟩, ?_⟩
    · intro x hx
      rcases List.mem_append.mp hx with hx | hx
      · exact hgood x (List.mem_append_left post hx)
      · rcases List.mem_cons.mp hx with rfl | hx
        · exact he
        · exact hgood x (List.mem_append_right pre hx)
    · rw [total_append, total_append, total_cons, add_assoc, add_comm (val e)]
  | merged pre old post hkey =>
    obtain ⟨hspre, hspost, hcross⟩ := List.pairwise_append.mp hs
    obtain ⟨holdpost, hspost⟩ := List.pairwise_cons.mp hspost
    have hmerged := h.key_merge old e
    obtain ⟨hgoodm, hval⟩ := h.merge old e (hgood old (by simp)) he hkey
    refine ⟨⟨?_, ?_⟩, ?_⟩
    · refine List.pairwise_append.mpr ⟨hspre, List.pairwise_cons.mpr ⟨?_, hspost⟩, ?_⟩
      · exact fun x hx => by rw [hmerged]; exact holdpost x hx
      · intro x hx y hy
        rcases List.mem_cons.mp hy with rfl | hy
        · rw [hmerged]
          exact hcross x hx old List.mem_cons_self
        · exact hcross x hx y (List.mem_cons_of_mem old hy)
    · intro x hx
      rcases List.mem_append.mp hx with hx | hx
      · exact hgood x (List.mem_append_left _ hx)
      · rcases List.mem_cons.mp hx with rfl | hx
        · exact hgoodm
        · exact hgood x (List.mem_append_right pre (List.mem_cons_of_mem old hx))
    · rw [total_append, total_append, total_cons, total_cons, hval, add_right_comm (val old),
        ← add_assoc]

theorem pushBack_reads (h : Reads O good key val) (hn : Normal good key elems) (he : good e)
    (sorted : Bool) :
    ∃ elems', (⟨some elems⟩ : UnionWeight E O).pushBack e sorted = ⟨some elems'⟩ ∧
      Normal good key elems' ∧ total val elems' = total val elems + val e := by
  obtain ⟨elems', heq, hpushed⟩ := pushBack_pushed h.compare hn.1 (h.member e he) sorted
  exact ⟨elems', heq, normal_pushed h hn he hpushed⟩

theorem pushAll_reads (h : Reads O good key val) (hn : Normal good key elems) {added : List E}
    (hadded : ∀ e ∈ added, good e) (sorted : Bool) :
    ∃ elems', UnionWeight.pushAll (⟨some elems⟩ : UnionWeight E O) added sorted = ⟨some elems'⟩ ∧
      Normal good key elems' ∧ total val elems' = total val elems + total val added := by
  induction added generalizing elems with
  | nil => exact ⟨elems, rfl, hn, (add_zero _).symm⟩
  | cons e added ih =>
    obtain ⟨next, heq, hnext, htotal⟩ := pushBack_reads h hn (hadded e List.mem_cons_self) sorted
    obtain ⟨elems', hpush, hn', htotal'⟩ :=
      ih hnext fun e he => hadded e (List.mem_cons_of_mem _ he)
    refine ⟨elems', ?_, hn', ?_⟩
    · rw [← hpush, ← heq]
      rfl
    · rw [htotal', htotal, total_cons, add_assoc]

theorem plusElements_reads (h : Reads O good key val) {sum : UnionWeight E O}
    (hsum : sum = ⟨some elems⟩) (hn : Normal good key elems) {e₁ e₂ : List E}
    (h₁ : ∀ e ∈ e₁, good e) (h₂ : ∀ e ∈ e₂, good e) :
    ∃ elems', UnionWeight.plusElements e₁ e₂ sum = ⟨some elems'⟩ ∧ Normal good key elems' ∧
      total val elems' = total val elems + (total val e₁ + total val e₂) := by
  fun_induction UnionWeight.plusElements e₁ e₂ sum generalizing elems with
  | case1 v₁ e₁ v₂ e₂ sum hlt ih =>
    subst hsum
    obtain ⟨next, heq, hnext, htotal⟩ := pushBack_reads h hn (h₁ v₁ List.mem_cons_self) true
    obtain ⟨elems', hwalk, hn', htotal'⟩ :=
      ih heq hnext (fun e he => h₁ e (List.mem_cons_of_mem _ he)) h₂
    exact ⟨elems', hwalk, hn', by
      rw [htotal', htotal, total_cons (e := v₁), add_assoc, add_assoc]⟩
  | case2 v₁ e₁ v₂ e₂ sum hnot hlt ih =>
    subst hsum
    obtain ⟨next, heq, hnext, htotal⟩ := pushBack_reads h hn (h₂ v₂ List.mem_cons_self) true
    obtain ⟨elems', hwalk, hn', htotal'⟩ :=
      ih heq hnext h₁ fun e he => h₂ e (List.mem_cons_of_mem _ he)
    refine ⟨elems', hwalk, hn', ?_⟩
    rw [htotal', htotal, total_cons (e := v₂), add_assoc, add_left_comm (val v₂)]
  | case3 v₁ e₁ v₂ e₂ sum hnot hnot' ih =>
    subst hsum
    rw [h.compare, decide_eq_true_eq] at hnot hnot'
    obtain ⟨hmerged, hval⟩ := h.merge v₁ v₂ (h₁ v₁ List.mem_cons_self) (h₂ v₂ List.mem_cons_self)
      (le_antisymm (not_lt.mp hnot') (not_lt.mp hnot))
    obtain ⟨next, heq, hnext, htotal⟩ := pushBack_reads h hn hmerged true
    obtain ⟨elems', hwalk, hn', htotal'⟩ := ih heq hnext
      (fun e he => h₁ e (List.mem_cons_of_mem _ he)) fun e he => h₂ e (List.mem_cons_of_mem _ he)
    refine ⟨elems', hwalk, hn', ?_⟩
    rw [htotal', htotal, hval, total_cons, total_cons, add_assoc, add_add_add_comm]
  | case4 e₁ sum =>
    subst hsum
    obtain ⟨elems', hpush, hn', htotal⟩ := pushAll_reads h hn h₁ true
    exact ⟨elems', hpush, hn', by rw [htotal, total_nil, add_zero]⟩
  | case5 e₂ sum =>
    subst hsum
    obtain ⟨elems', hpush, hn', htotal⟩ := pushAll_reads h hn h₂ true
    exact ⟨elems', hpush, hn', by rw [htotal, total_nil, zero_add]⟩

end Elements

section Values

variable {elems elems' : List E} {w w' : UnionWeight E O}

theorem isMember_set (h : Reads O good key val) (hn : Normal good key elems) :
    isMember (⟨some elems⟩ : UnionWeight E O) = true :=
  List.all_eq_true.mpr fun e he => h.member e (hn.2 e he)

theorem set_eq_zero : (⟨some elems⟩ : UnionWeight E O) = UnionWeight.zero ↔ elems = [] := by
  constructor
  · exact fun heq => Option.some.inj (congrArg UnionWeight.elements heq)
  · rintro rfl
    rfl

theorem plus_reads (h : Reads O good key val) (hn : Normal good key elems)
    (hn' : Normal good key elems') :
    ∃ sum, plus (⟨some elems⟩ : UnionWeight E O) ⟨some elems'⟩ = ⟨some sum⟩ ∧ Normal good key sum ∧
      total val sum = total val elems + total val elems' := by
  have hmember : UnionWeight.isMember (⟨some elems⟩ : UnionWeight E O) = true := isMember_set h hn
  have hmember' : UnionWeight.isMember (⟨some elems'⟩ : UnionWeight E O) = true :=
    isMember_set h hn'
  change ∃ sum, UnionWeight.plus _ _ = _ ∧ _
  unfold UnionWeight.plus
  rw [if_neg (by simp [hmember, hmember'])]
  by_cases hzero : elems = []
  · rw [if_pos (set_eq_zero.mpr hzero), hzero, total_nil, zero_add]
    exact ⟨elems', rfl, hn', rfl⟩
  by_cases hzero' : elems' = []
  · rw [if_neg fun heq => hzero (set_eq_zero.mp heq), if_pos (set_eq_zero.mpr hzero'), hzero',
      total_nil, add_zero]
    exact ⟨elems, rfl, hn, rfl⟩
  rw [if_neg fun heq => hzero (set_eq_zero.mp heq), if_neg fun heq => hzero' (set_eq_zero.mp heq)]
  have hempty : (UnionWeight.emptySet : UnionWeight E O) = ⟨some []⟩ := rfl
  obtain ⟨sum, hwalk, hsum, htotal⟩ := plusElements_reads h hempty normal_nil hn.2 hn'.2
  refine ⟨sum, ?_, hsum, by rw [htotal, total_nil, zero_add]⟩
  dsimp only [Option.getD_some]
  rw [hwalk, Option.map_some, h.normalize]

/- One element times the elements of a list. -/
theorem row_reads (h : Reads O good key val) {e : E} (he : good e) (hn : Normal good key elems) :
    ∃ row, UnionWeight.pushAll (UnionWeight.zero : UnionWeight E O)
        (elems.map fun e' => times e e') true = ⟨some row⟩ ∧
      Normal good key row ∧ total val row = val e * total val elems := by
  have hadded : ∀ x ∈ elems.map fun e' => times e e', good x := by
    intro x hx
    obtain ⟨e', he', rfl⟩ := List.mem_map.mp hx
    exact (h.times e e' he (hn.2 e' he')).1
  obtain ⟨row, hpush, hrow, htotal⟩ := pushAll_reads h normal_nil hadded true
  refine ⟨row, hpush, hrow, ?_⟩
  rw [htotal, total_nil, zero_add, total, total, List.map_map, ← List.sum_map_mul_left]
  congr 1
  exact List.map_congr_left fun e' he' => (h.times e e' he (hn.2 e' he')).2

theorem times_reads (h : Reads O good key val) (hn : Normal good key elems)
    (hn' : Normal good key elems') :
    ∃ prod, times (⟨some elems⟩ : UnionWeight E O) ⟨some elems'⟩ = ⟨some prod⟩ ∧
      Normal good key prod ∧ total val prod = total val elems * total val elems' := by
  have hmember : UnionWeight.isMember (⟨some elems⟩ : UnionWeight E O) = true := isMember_set h hn
  have hmember' : UnionWeight.isMember (⟨some elems'⟩ : UnionWeight E O) = true :=
    isMember_set h hn'
  change ∃ prod, UnionWeight.times _ _ = _ ∧ _
  unfold UnionWeight.times
  rw [if_neg (by simp [hmember, hmember'])]
  by_cases hzero : elems = [] ∨ elems' = []
  · rw [if_pos (by simpa using hzero.imp set_eq_zero.mpr set_eq_zero.mpr)]
    refine ⟨[], rfl, normal_nil, ?_⟩
    rcases hzero with rfl | rfl
    · rw [total_nil, zero_mul]
    · rw [total_nil, mul_zero]
  rw [not_or] at hzero
  rw [if_neg (by
    simpa using ⟨fun heq => hzero.1 (set_eq_zero.mp heq), fun heq => hzero.2 (set_eq_zero.mp heq)⟩)]
  dsimp only [Option.getD_some]
  -- the rows are added up from the front
  have hrows : ∀ (rows acc : List E), (∀ e ∈ rows, good e) → Normal good key acc →
      ∃ prod, rows.foldl (fun prod₁ v₁ => UnionWeight.plus prod₁ (UnionWeight.pushAll
          UnionWeight.zero (elems'.map fun v₂ => times v₁ v₂) true))
          (⟨some acc⟩ : UnionWeight E O) = ⟨some prod⟩ ∧
        Normal good key prod ∧
        total val prod = total val acc + total val rows * total val elems' := by
    intro rows
    induction rows with
    | nil => exact fun acc _ hacc => ⟨acc, rfl, hacc, by rw [total_nil, zero_mul, add_zero]⟩
    | cons e rows ih =>
      intro acc hrows hacc
      obtain ⟨row, hpush, hrow, hrowtotal⟩ := row_reads h (hrows e List.mem_cons_self) hn'
      obtain ⟨next, hplus, hnext, hnexttotal⟩ := plus_reads h hacc hrow
      obtain ⟨prod, hfold, hprod, htotal⟩ :=
        ih next (fun e he => hrows e (List.mem_cons_of_mem _ he)) hnext
      refine ⟨prod, ?_, hprod, ?_⟩
      · rw [List.foldl_cons, hpush]
        rw [← hfold, ← hplus]
        rfl
      · rw [htotal, hnexttotal, hrowtotal, total_cons, add_mul, add_assoc]
  obtain ⟨prod, hfold, hprod, htotal⟩ := hrows elems [] hn.2 normal_nil
  exact ⟨prod, hfold, hprod, by rw [htotal, total_nil, zero_add]⟩

theorem new_reads (h : Reads O good key val) {e : E} (he : good e) :
    (UnionWeight.new e : UnionWeight E O) = ⟨some [e]⟩ ∧ Normal good key [e] ∧
      total val [e] = val e := by
  refine ⟨?_, ⟨List.pairwise_singleton _ _, by simpa using he⟩, by simp [total]⟩
  unfold UnionWeight.new
  rw [if_neg (by simp [h.member e he])]

/- Sorting leaves what is sorted. -/
theorem sort_set (h : Reads O good key val) (hs : Sorted key elems) :
    (⟨some elems⟩ : UnionWeight E O).sort = ⟨some elems⟩ := by
  have hsort : (elems.mergeSort fun a b => decide (UnionWeight.ordering O a b ≠ .gt)) = elems := by
    refine List.mergeSort_of_pairwise (hs.imp fun {a b} hab => decide_eq_true ?_)
    rw [ordering_eq h.compare, (cmp_eq_lt_iff _ _).mpr hab]
    decide
  have hdedup : UnionWeight.dedup O elems = elems := by
    clear hsort
    induction elems with
    | nil => rw [UnionWeight.dedup]
    | cons b elems ih =>
      cases elems with
      | nil => rw [UnionWeight.dedup]
      | cons a elems =>
        obtain ⟨hhead, htail⟩ := List.pairwise_cons.mp hs
        rw [UnionWeight.dedup, h.compare b a, decide_eq_true (hhead a List.mem_cons_self),
          if_neg (by simp), ih htail]
  change (⟨some (UnionWeight.dedup O (elems.mergeSort _))⟩ : UnionWeight E O) = _
  rw [hsort, hdedup]

variable {E' : Type} [WeightOps E'] [DecidableEq E'] {O' : UnionWeightOptions E'}
  {good' : E' → Prop} {key' : E' → K} {val' : E' → R}

theorem reverse_reads (h : Reads O' good' key' val') {f : E → E'} (hf : ∀ e ∈ elems, good' (f e)) :
    ∃ rev, UnionWeight.reverse f (⟨some elems⟩ : UnionWeight E O) =
        (⟨some rev⟩ : UnionWeight E' O') ∧
      Normal good' key' rev ∧ total val' rev = total val' (elems.map f) := by
  have hadded : ∀ x ∈ elems.map f, good' x := by simpa using hf
  obtain ⟨rev, hpush, hrev, htotal⟩ := pushAll_reads h normal_nil hadded false
  refine ⟨rev, ?_, hrev, by rw [htotal, total_nil, zero_add]⟩
  change (UnionWeight.pushAll UnionWeight.emptySet (elems.map f) false).sort = _
  rw [show (UnionWeight.emptySet : UnionWeight E' O') = ⟨some []⟩ from rfl, hpush,
    sort_set h hrev.1]

theorem quantize_reads (h : Reads O good key val) (hn : Normal good key elems) :
    ∃ quantized, UnionWeight.quantize id (⟨some elems⟩ : UnionWeight E O) = ⟨some quantized⟩ ∧
      Normal good key quantized ∧ total val quantized = total val elems := by
  have hadded : ∀ x ∈ elems.map id, good x := by simpa using hn.2
  obtain ⟨quantized, hpush, hquantized, htotal⟩ := pushAll_reads h normal_nil hadded true
  exact ⟨quantized, hpush, hquantized, by rw [htotal, total_nil, zero_add, List.map_id]⟩

/- A set, not the bad one. -/
def Value (O : UnionWeightOptions E) (good : E → Prop) (key : E → K) (w : UnionWeight E O) : Prop :=
  ∃ elems, w = ⟨some elems⟩ ∧ Normal good key elems

def read (val : E → R) (w : UnionWeight E O) : R := total val (w.elements.getD [])

theorem laws (h : Reads O good key val)
    (hext : ∀ elems elems', Normal good key elems → Normal good key elems' →
      total val elems = total val elems' → elems = elems')
    (hone : good one ∧ val one = 1)
    (hcomm : ¬ Declares (UnionWeight E O) commutative)
    (hidem : Declares (UnionWeight E O) idempotent → ∀ e, good e → val e + val e = val e) :
    LawsFor (UnionWeight E O) (Value O good key) Eq := by
  refine LawsFor.of_semiring (read val) ?_ ⟨⟨[], rfl, normal_nil⟩, rfl⟩ ?_ ?_ ?_
    (fun hbit => absurd hbit hcomm) ?_ (not_path_of_mask)
  · rintro _ _ ⟨elems, rfl, hn⟩ ⟨elems', rfl, hn'⟩ hread
    rw [hext elems elems' hn hn' hread]
  · obtain ⟨hnew, hn, htotal⟩ := new_reads h hone.1
    refine ⟨⟨_, hnew, hn⟩, ?_⟩
    change read val (UnionWeight.new one : UnionWeight E O) = 1
    rw [hnew]
    exact htotal.trans hone.2
  · rintro _ _ ⟨elems, rfl, hn⟩ ⟨elems', rfl, hn'⟩
    obtain ⟨sum, heq, hsum, htotal⟩ := plus_reads h hn hn'
    rw [heq]
    exact ⟨⟨sum, rfl, hsum⟩, htotal⟩
  · rintro _ _ ⟨elems, rfl, hn⟩ ⟨elems', rfl, hn'⟩
    obtain ⟨prod, heq, hprod, htotal⟩ := times_reads h hn hn'
    rw [heq]
    exact ⟨⟨prod, rfl, hprod⟩, htotal⟩
  · rintro hbit _ ⟨elems, rfl, hn⟩
    change total val elems + total val elems = total val elems
    rw [total, ← List.sum_map_add]
    congr 1
    exact List.map_congr_left fun e he => hidem hbit e (hn.2 e he)

end Values

end UnionSums

end Sicada
