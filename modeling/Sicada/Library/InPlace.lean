import Mathlib

namespace InPlace

variable {α : Type*}

section Move

variable [Zero α]

/- A loop from the back that moves `len` entries up, and zeros after them. -/
def moveUp (xs : List α) (len shift count : ℕ) : List α :=
  (List.range count).foldr
    (fun src xs => xs.set (src + shift) (if src < len then xs.getD src 0 else 0)) xs

theorem moveUp_getElem? (xs : List α) (shift : ℕ) (len count : ℕ) (hcount : count ≤ len)
    (hlen : len + shift = xs.length) (ys : List α) (hys : ys.length = xs.length)
    (hdone : ∀ x < xs.length, ys[x]? = if x < count + shift then xs[x]? else xs[x - shift]?)
    (x : ℕ) :
    (moveUp ys len shift count)[x]? = if x < shift then xs[x]? else if x < xs.length then
      xs[x - shift]? else none := by
  induction count generalizing ys with
  | zero =>
    rw [Nat.zero_add] at hdone
    have hlong : (moveUp ys len shift 0)[x]? = ys[x]? := rfl
    rw [hlong]
    by_cases hx : x < shift
    · rw [if_pos hx, hdone x (by omega), if_pos hx]
    · rw [if_neg hx]
      by_cases hlt : x < xs.length
      · rw [if_pos hlt, hdone x hlt, if_neg hx]
      · rw [if_neg hlt, List.getElem?_eq_none (by omega)]
  | succ count ih =>
    have hstep : moveUp ys len shift (count + 1) =
        moveUp (ys.set (count + shift) (ys.getD count 0)) len shift count := by
      unfold moveUp
      rw [List.range_succ, List.foldr_append]
      simp only [List.foldr_cons, List.foldr_nil]
      rw [if_pos (by omega)]
    rw [hstep]
    apply ih (by omega) _ (by rw [List.length_set, hys])
    intro y hlong
    have hget : ys.getD count 0 = xs.getD count 0 := by
      rw [List.getD_eq_getElem?_getD, hdone count (by omega), if_pos (by omega),
        List.getD_eq_getElem?_getD]
    rw [hget]
    by_cases hy : count + shift = y
    · subst hy
      rw [List.getElem?_set_self (by omega), if_neg (by omega), Nat.add_sub_cancel,
        List.getElem?_eq_getElem (by omega), List.getD_eq_getElem _ _ (by omega)]
    · rw [List.getElem?_set_ne hy, hdone y hlong]
      by_cases hlt : y < count + shift
      · rw [if_pos hlt, if_pos (by omega)]
      · rw [if_neg hlt, if_neg (by omega)]

theorem moveUp_eq (old : List α) (shift : ℕ) :
    moveUp (old ++ List.replicate shift 0) old.length shift old.length =
      (old ++ List.replicate shift 0).take shift ++ old := by
  apply List.ext_getElem?
  intro x
  rw [moveUp_getElem? (old ++ List.replicate shift 0) shift old.length old.length (le_refl _)
    (by simp) _ rfl]
  · have htake : ((old ++ List.replicate shift (0 : α)).take shift).length = shift := by simp
    symm
    by_cases hx : x < shift
    · rw [if_pos hx, List.getElem?_append_left (by omega), List.getElem?_take_of_lt hx]
    · rw [if_neg hx, List.getElem?_append_right (by omega), htake, List.length_append,
        List.length_replicate]
      by_cases hlt : x < old.length + shift
      · rw [if_pos hlt, List.getElem?_append_left (by omega)]
      · rw [if_neg hlt, List.getElem?_eq_none (by omega)]
  · intro y hy
    rw [List.length_append, List.length_replicate] at hy
    rw [if_pos hy]

/- A loop that moves everything from `start` on down by one, and drops the last. -/
def moveDown (xs : List α) (start : ℕ) : List α :=
  ((List.range' start (xs.length - 1 - start)).foldl
    (fun xs i => xs.set i (xs.getD (i + 1) 0)) xs).dropLast

theorem moveDown_eq {xs : List α} {start : ℕ} (hstart : start < xs.length) :
    moveDown xs start = xs.eraseIdx start := by
  have hloop : ∀ n x : ℕ, start + n ≤ xs.length - 1 →
      ((List.range' start n).foldl (fun ys i => ys.set i (ys.getD (i + 1) 0)) xs)[x]? =
        if start ≤ x ∧ x < start + n then xs[x + 1]? else xs[x]? := by
    intro n
    induction n with
    | zero =>
      intro x hn
      rw [if_neg (by omega)]
      rfl
    | succ n ih =>
      intro x hn
      rw [List.range'_concat, List.foldl_append, List.foldl_cons, List.foldl_nil, Nat.one_mul]
      have hlen : start + n < ((List.range' start n).foldl
          (fun ys i => ys.set i (ys.getD (i + 1) 0)) xs).length := by
        by_contra hshort
        have hnone := List.getElem?_eq_none (Nat.not_lt.mp hshort)
        rw [ih (start + n) (by omega), if_neg (by omega), List.getElem?_eq_none_iff] at hnone
        omega
      by_cases hx : start + n = x
      · subst hx
        rw [List.getElem?_set_self hlen, if_pos (by omega), List.getD_eq_getElem?_getD,
          ih _ (by omega), if_neg (by omega), List.getElem?_eq_getElem (by omega)]
        rfl
      · rw [List.getElem?_set_ne hx, ih x (by omega)]
        by_cases hin : start ≤ x ∧ x < start + n
        · rw [if_pos hin, if_pos (by omega)]
        · rw [if_neg hin, if_neg (by omega)]
  have hlen : ∀ (is : List ℕ) (ys : List α),
      (is.foldl (fun ys i => ys.set i (ys.getD (i + 1) 0)) ys).length = ys.length := by
    intro is
    induction is with
    | nil => exact fun ys => rfl
    | cons i is ih =>
      intro ys
      rw [List.foldl_cons, ih, List.length_set]
  apply List.ext_getElem?
  intro x
  unfold moveDown
  rw [List.getElem?_dropLast, hlen, hloop _ x (by omega), List.getElem?_eraseIdx]
  by_cases hx : x < xs.length - 1
  · rw [if_pos hx]
    by_cases hlt : x < start
    · rw [if_pos hlt, if_neg (by omega)]
    · rw [if_neg hlt, if_pos (by omega)]
  · rw [if_neg hx, if_neg (by omega), List.getElem?_eq_none (by omega)]

end Move

def overwrite (xs : List α) (f : ℕ → α) (count : ℕ) : List α :=
  (List.range count).foldl (fun xs i => xs.set i (f i)) xs

theorem overwrite_eq {xs : List α} (f : ℕ → α) {count : ℕ} (hcount : count ≤ xs.length) :
    overwrite xs f count = (List.range count).map f ++ xs.drop count := by
  induction count with
  | zero => simp [overwrite]
  | succ count ih =>
    have hstep : overwrite xs f (count + 1) = (overwrite xs f count).set count (f count) := by
      unfold overwrite
      rw [List.range_succ, List.foldl_append]
      rfl
    rw [hstep, ih (by omega), List.range_succ, List.map_append, List.append_assoc,
      List.set_append_right _ _ (by simp), List.length_map, List.length_range, Nat.sub_self,
      List.drop_eq_getElem_cons (by omega)]
    rfl

end InPlace
