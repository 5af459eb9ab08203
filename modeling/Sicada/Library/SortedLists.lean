import Mathlib

/- Binary search by a comparison, as the standard library of the source does it: the place of a
match, or the place where it would be inserted. -/
namespace BinarySearch

variable {A : Type*} (f : A → Ordering) (xs : List A)

def search (base size : ℕ) : ℕ :=
  if size ≤ 1 then base
  else
    let mid := base + size / 2
    if (xs[mid]?).any fun x => f x = .gt then search base (size - size / 2)
    else search mid (size - size / 2)
termination_by size

def binarySearch : Except ℕ ℕ :=
  let base := search f xs 0 xs.length
  match xs[base]? with
  | none => .error base
  | some x =>
    match f x with
    | .eq => .ok base
    | .lt => .error (base + 1)
    | .gt => .error base

variable {f xs}

/- What is less comes first, what is greater last, and one item at most is neither. -/
def Ordered (f : A → Ordering) (xs : List A) : Prop := xs.Pairwise fun a b => f a = .lt ∨ f b = .gt

theorem search_spec (h : Ordered f xs) {base size : ℕ} (hsize : 0 < size)
    (hle : base + size ≤ xs.length) (hbase : base = 0 ∨ ∀ x ∈ xs[base]?, f x ≠ .gt)
    (hrest : ∀ j x, base + size ≤ j → xs[j]? = some x → f x = .gt) :
    search f xs base size < xs.length ∧
      (search f xs base size = 0 ∨ ∀ x ∈ xs[search f xs base size]?, f x ≠ .gt) ∧
      ∀ j x, search f xs base size < j → xs[j]? = some x → f x = .gt := by
  fun_induction search f xs base size with
  | case1 base size hone => exact ⟨by omega, hbase, fun j x hj hx => hrest j x (by omega) hx⟩
  | case2 base size hone mid hgt ih =>
    obtain ⟨y, hy, hygt⟩ := Option.any_eq_true _ _ |>.mp hgt
    refine ih (by omega) (by omega) hbase fun j x hj hx => ?_
    rcases eq_or_lt_of_le (show mid ≤ j by omega) with rfl | hlt
    · rw [hy] at hx
      cases hx
      exact of_decide_eq_true hygt
    · obtain ⟨hmid, hy⟩ := List.getElem?_eq_some_iff.mp hy
      obtain ⟨hj', hx⟩ := List.getElem?_eq_some_iff.mp hx
      have hpair := List.pairwise_iff_getElem.mp h mid j hmid hj' hlt
      rw [hy, hx] at hpair
      rcases hpair with hyless | hxgt
      · rw [of_decide_eq_true hygt] at hyless
        cases hyless
      · exact hxgt
  | case3 base size hone mid hgt ih =>
    refine ih (by omega) (by omega) (Or.inr fun x hx heq => ?_) fun j x hj hx => ?_
    · exact hgt (Option.any_eq_true _ _ |>.mpr ⟨x, hx, decide_eq_true heq⟩)
    · exact hrest j x (by omega) hx

/- The match with what is less before it and what is greater after it, or the place between. -/
theorem binarySearch_spec (h : Ordered f xs) :
    (∃ pre x post, xs = pre ++ x :: post ∧ f x = .eq ∧ (∀ a ∈ pre, f a = .lt) ∧
      (∀ b ∈ post, f b = .gt) ∧ binarySearch f xs = .ok pre.length) ∨
    ∃ pre post, xs = pre ++ post ∧ (∀ a ∈ pre, f a = .lt) ∧ (∀ b ∈ post, f b = .gt) ∧
      binarySearch f xs = .error pre.length := by
  rcases List.eq_nil_or_concat xs with rfl | ⟨_, _, hconcat⟩
  · exact Or.inr ⟨[], [], rfl, by simp, by simp, by simp [binarySearch, search]⟩
  have hlength : 0 < xs.length := by simp [hconcat]
  obtain ⟨hlt, hbase, hrest⟩ := search_spec h hlength (by omega) (Or.inl rfl)
    fun j x hj hx => absurd (List.getElem?_eq_some_iff.mp hx).1 (by omega)
  generalize hsearch : search f xs 0 xs.length = base at hlt hbase hrest
  have hx : xs[base]? = some xs[base] := List.getElem?_eq_getElem hlt
  generalize xs[base] = x at hx
  have hsplit : xs = xs.take base ++ x :: xs.drop (base + 1) := by
    obtain ⟨_, rfl⟩ := List.getElem?_eq_some_iff.mp hx
    rw [List.getElem_cons_drop, List.take_append_drop]
  have hlen : (xs.take base).length = base := List.length_take_of_le hlt.le
  have hpost : ∀ b ∈ xs.drop (base + 1), f b = .gt := by
    intro b hb
    obtain ⟨i, hi⟩ := List.mem_iff_getElem?.mp hb
    rw [List.getElem?_drop] at hi
    exact hrest _ b (by omega) hi
  have hpre : f x ≠ .gt → ∀ a ∈ xs.take base, f a = .lt := by
    intro hne a ha
    rw [hsplit] at h
    exact ((List.pairwise_append.mp h).2.2 a ha x List.mem_cons_self).resolve_right hne
  cases hfx : f x with
  | eq =>
    refine Or.inl ⟨_, x, _, hsplit, hfx, hpre (by simp [hfx]), hpost, ?_⟩
    rw [binarySearch, hsearch, hx, hlen]
    simp only [hfx]
  | lt =>
    refine Or.inr ⟨xs.take base ++ [x], _, by simpa using hsplit, ?_, hpost, ?_⟩
    · intro a ha
      rcases List.mem_append.mp ha with ha | ha
      · exact hpre (by simp [hfx]) a ha
      · exact List.mem_singleton.mp ha ▸ hfx
    · rw [binarySearch, hsearch, hx, List.length_append, hlen]
      simp only [hfx, List.length_singleton]
  | gt =>
    obtain rfl : base = 0 := hbase.resolve_right fun hne => hne x hx hfx
    refine Or.inr ⟨[], x :: xs.drop 1, by simpa using hsplit, by simp, ?_, ?_⟩
    · intro b hb
      rcases List.mem_cons.mp hb with rfl | hb
      · exact hfx
      · exact hpost b hb
    · rw [binarySearch, hsearch, hx]
      simp only [hfx, List.length_nil]

section Places

variable {A : Type*} (pre : List A) (x y : A) (post : List A)

theorem eraseIdx_length : (pre ++ x :: post).eraseIdx pre.length = pre ++ post := by
  induction pre with
  | nil => rfl
  | cons a pre ih => simpa using ih

theorem modify_length (f : A → A) :
    (pre ++ x :: post).modify pre.length f = pre ++ f x :: post := by
  induction pre with
  | nil => simp
  | cons a pre ih => simpa using ih

theorem insertIdx_length : (pre ++ post).insertIdx pre.length y = pre ++ y :: post := by
  induction pre with
  | nil => simp
  | cons a pre ih => simpa using ih

end Places

end BinarySearch

/- Two strictly increasing lists, read with a pointer into each. -/
namespace SortedMerge

variable {A : Type*} [LinearOrder A]

def union : List A → List A → List A
  | [], ys => ys
  | xs, [] => xs
  | x :: xs, y :: ys =>
    if x < y then x :: union xs (y :: ys)
    else if y < x then y :: union (x :: xs) ys
    else x :: union xs ys
termination_by xs ys => xs.length + ys.length

def inter : List A → List A → List A
  | [], _ => []
  | _, [] => []
  | x :: xs, y :: ys =>
    if x < y then inter xs (y :: ys)
    else if y < x then inter (x :: xs) ys
    else x :: inter xs ys
termination_by xs ys => xs.length + ys.length

def diff : List A → List A → List A
  | [], _ => []
  | xs, [] => xs
  | x :: xs, y :: ys =>
    if x < y then x :: diff xs (y :: ys)
    else if y < x then diff (x :: xs) ys
    else diff xs ys
termination_by xs ys => xs.length + ys.length

variable {a : A} {xs ys : List A}

theorem mem_union : a ∈ union xs ys ↔ a ∈ xs ∨ a ∈ ys := by
  fun_induction union xs ys with
  | case1 ys => simp
  | case2 xs => simp
  | case3 x xs y ys hlt ih => simp only [List.mem_cons, ih]; tauto
  | case4 x xs y ys hnot hlt ih => simp only [List.mem_cons, ih]; tauto
  | case5 x xs y ys hnot hnot' ih =>
    obtain rfl := le_antisymm (not_lt.mp hnot') (not_lt.mp hnot)
    simp only [List.mem_cons, ih]
    tauto

theorem pairwise_union (hx : xs.Pairwise (· < ·)) (hy : ys.Pairwise (· < ·)) :
    (union xs ys).Pairwise (· < ·) := by
  fun_induction union xs ys with
  | case1 ys => exact hy
  | case2 xs => exact hx
  | case3 x xs y ys hlt ih =>
    obtain ⟨hhead, hxs⟩ := List.pairwise_cons.mp hx
    refine List.pairwise_cons.mpr ⟨fun a ha => ?_, ih hxs hy⟩
    rcases mem_union.mp ha with ha | ha
    · exact hhead a ha
    · rcases List.mem_cons.mp ha with rfl | ha
      · exact hlt
      · exact hlt.trans ((List.pairwise_cons.mp hy).1 a ha)
  | case4 x xs y ys hnot hlt ih =>
    obtain ⟨hhead, hys⟩ := List.pairwise_cons.mp hy
    refine List.pairwise_cons.mpr ⟨fun a ha => ?_, ih hx hys⟩
    rcases mem_union.mp ha with ha | ha
    · rcases List.mem_cons.mp ha with rfl | ha
      · exact hlt
      · exact hlt.trans ((List.pairwise_cons.mp hx).1 a ha)
    · exact hhead a ha
  | case5 x xs y ys hnot hnot' ih =>
    obtain rfl := le_antisymm (not_lt.mp hnot') (not_lt.mp hnot)
    obtain ⟨hhead, hxs⟩ := List.pairwise_cons.mp hx
    obtain ⟨hhead', hys⟩ := List.pairwise_cons.mp hy
    refine List.pairwise_cons.mpr ⟨fun a ha => ?_, ih hxs hys⟩
    rcases mem_union.mp ha with ha | ha
    · exact hhead a ha
    · exact hhead' a ha

theorem sublist_inter (xs ys : List A) : (inter xs ys).Sublist xs := by
  fun_induction inter xs ys with
  | case1 ys => exact List.Sublist.refl _
  | case2 xs => exact List.nil_sublist _
  | case3 x xs y ys hlt ih => exact ih.cons x
  | case4 x xs y ys hnot hlt ih => exact ih
  | case5 x xs y ys hnot hnot' ih => exact ih.cons_cons x

theorem sublist_diff (xs ys : List A) : (diff xs ys).Sublist xs := by
  fun_induction diff xs ys with
  | case1 ys => exact List.Sublist.refl _
  | case2 xs => exact List.Sublist.refl _
  | case3 x xs y ys hlt ih => exact ih.cons_cons x
  | case4 x xs y ys hnot hlt ih => exact ih
  | case5 x xs y ys hnot hnot' ih => exact ih.cons x

/- What is smaller than the head is not in the list. -/
theorem notMem_of_lt (hx : xs.Pairwise (· < ·)) {x : A} (hlt : ∀ a ∈ xs.head?, x < a) : x ∉ xs := by
  cases xs with
  | nil => simp
  | cons y xs =>
    have hy : x < y := hlt y rfl
    intro hmem
    rcases List.mem_cons.mp hmem with rfl | hmem
    · exact lt_irrefl _ hy
    · exact lt_asymm hy ((List.pairwise_cons.mp hx).1 x hmem)

theorem mem_inter (hx : xs.Pairwise (· < ·)) (hy : ys.Pairwise (· < ·)) :
    a ∈ inter xs ys ↔ a ∈ xs ∧ a ∈ ys := by
  fun_induction inter xs ys with
  | case1 ys => simp
  | case2 xs => simp
  | case3 x xs y ys hlt ih =>
    have hnot : x ∉ y :: ys := notMem_of_lt hy fun b hb => (Option.some.inj hb) ▸ hlt
    rw [ih (List.pairwise_cons.mp hx).2 hy, List.mem_cons (l := xs)]
    refine and_congr_left fun ha => ?_
    exact ⟨Or.inr, fun h => h.resolve_left fun heq => hnot (heq ▸ ha)⟩
  | case4 x xs y ys hnot hlt ih =>
    have hnot : y ∉ x :: xs := notMem_of_lt hx fun b hb => (Option.some.inj hb) ▸ hlt
    rw [ih hx (List.pairwise_cons.mp hy).2, List.mem_cons (l := ys)]
    refine and_congr_right fun ha => ?_
    exact ⟨Or.inr, fun h => h.resolve_left fun heq => hnot (heq ▸ ha)⟩
  | case5 x xs y ys hnot hnot' ih =>
    obtain rfl := le_antisymm (not_lt.mp hnot') (not_lt.mp hnot)
    rw [List.mem_cons, ih (List.pairwise_cons.mp hx).2 (List.pairwise_cons.mp hy).2,
      List.mem_cons, List.mem_cons]
    tauto

theorem mem_diff (hx : xs.Pairwise (· < ·)) (hy : ys.Pairwise (· < ·)) :
    a ∈ diff xs ys ↔ a ∈ xs ∧ a ∉ ys := by
  fun_induction diff xs ys with
  | case1 ys => simp
  | case2 xs => simp
  | case3 x xs y ys hlt ih =>
    have hnot : x ∉ y :: ys := notMem_of_lt hy fun b hb => (Option.some.inj hb) ▸ hlt
    rw [List.mem_cons, ih (List.pairwise_cons.mp hx).2 hy, List.mem_cons (l := xs)]
    constructor
    · rintro (rfl | ⟨ha, hnotMem⟩)
      · exact ⟨Or.inl rfl, hnot⟩
      · exact ⟨Or.inr ha, hnotMem⟩
    · rintro ⟨rfl | ha, hnotMem⟩
      · exact Or.inl rfl
      · exact Or.inr ⟨ha, hnotMem⟩
  | case4 x xs y ys hnot hlt ih =>
    have hnot : y ∉ x :: xs := notMem_of_lt hx fun b hb => (Option.some.inj hb) ▸ hlt
    rw [ih hx (List.pairwise_cons.mp hy).2, List.mem_cons (l := ys), not_or]
    refine and_congr_right fun ha => ?_
    exact ⟨fun h => ⟨fun heq => hnot (heq ▸ ha), h⟩, fun h => h.2⟩
  | case5 x xs y ys hnot hnot' ih =>
    obtain rfl := le_antisymm (not_lt.mp hnot') (not_lt.mp hnot)
    have hfirst := (List.pairwise_cons.mp hx).1
    rw [ih (List.pairwise_cons.mp hx).2 (List.pairwise_cons.mp hy).2, List.mem_cons,
      List.mem_cons, not_or]
    constructor
    · exact fun h => ⟨Or.inr h.1, (hfirst a h.1).ne', h.2⟩
    · exact fun h => ⟨h.1.resolve_left h.2.1, h.2.2⟩

end SortedMerge

/- Of two values the one with the smaller key, the first where they tie. -/
namespace Selection

variable {A B K : Type*} [LinearOrder K]

def minBy (key : A → K) (a b : A) : A := if key a ≤ key b then a else b

variable {key : A → K} {a b c : A}

theorem minBy_of_le (h : key a ≤ key b) : minBy key a b = a := if_pos h

theorem minBy_of_lt (h : key b < key a) : minBy key a b = b := if_neg (not_le.mpr h)

theorem minBy_choice (key : A → K) (a b : A) : minBy key a b = a ∨ minBy key a b = b := by
  unfold minBy
  split
  · exact Or.inl rfl
  · exact Or.inr rfl

theorem minBy_self (key : A → K) (a : A) : minBy key a a = a := minBy_of_le le_rfl

theorem minBy_assoc (key : A → K) (a b c : A) :
    minBy key (minBy key a b) c = minBy key a (minBy key b c) := by
  rcases le_or_gt (key a) (key b) with hab | hab
  · rw [minBy_of_le hab]
    rcases le_or_gt (key b) (key c) with hbc | hbc
    · rw [minBy_of_le hbc, minBy_of_le hab, minBy_of_le (hab.trans hbc)]
    · rw [minBy_of_lt hbc]
  · rw [minBy_of_lt hab]
    rcases le_or_gt (key b) (key c) with hbc | hbc
    · rw [minBy_of_le hbc, minBy_of_lt hab]
    · rw [minBy_of_lt hbc, minBy_of_lt (hbc.trans hab)]

/- Ties are broken where equal keys are of equal values. -/
theorem minBy_comm (h : key a = key b → a = b) : minBy key a b = minBy key b a := by
  rcases lt_trichotomy (key a) (key b) with hlt | heq | hlt
  · rw [minBy_of_le hlt.le, minBy_of_lt hlt]
  · rw [h heq]
  · rw [minBy_of_lt hlt, minBy_of_le hlt.le]

/- What keeps the order of the keys keeps the choice. -/
theorem map_minBy {key' : B → K} {f : A → B} (h : key' (f a) ≤ key' (f b) ↔ key a ≤ key b) :
    f (minBy key a b) = minBy key' (f a) (f b) := by
  unfold minBy
  simp only [h]
  split <;> rfl

end Selection
