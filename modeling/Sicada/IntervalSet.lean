import Mathlib

namespace Sicada

/- A half-open interval; `T` is an integer type that an `i64` holds. -/
structure IntInterval where
  begin : ℤ
  stop : ℤ
deriving DecidableEq, Repr

namespace IntInterval

/- By `begin` ascending, then by `end` descending. -/
def lt (a b : IntInterval) : Bool :=
  decide (a.begin < b.begin) || (decide (a.begin = b.begin) && decide (b.stop < a.stop))

def le (a b : IntInterval) : Bool := !b.lt a

def length (iv : IntInterval) : ℕ := (iv.stop - iv.begin).toNat

end IntInterval

structure IntervalSet where
  intervals : List IntInterval
  count : ℕ
deriving DecidableEq, Repr

namespace IntervalSet

/- How many elements come before the first that does not satisfy `p`. -/
def partitionPoint (p : IntInterval → Bool) (intervals : List IntInterval) : ℕ :=
  (intervals.takeWhile p).length

def member (s : IntervalSet) (value : ℤ) : Bool :=
  if s.intervals = [] then false
  else
    match partitionPoint (·.lt ⟨value, value⟩) s.intervals with
    | 0 => false
    | pos + 1 => (s.intervals[pos]?).any fun iv => value < iv.stop

/- What the next interval does to those kept in front of it. -/
def mergeStep (kept : List IntInterval) (interval : IntInterval) : List IntInterval :=
  if interval.begin = interval.stop then kept
  else
    match kept.getLast? with
    | some last =>
      if interval.begin ≤ last.stop then
        if last.stop < interval.stop then kept.dropLast ++ [{ last with stop := interval.stop }]
        else kept
      else kept ++ [interval]
    | none => kept ++ [interval]

/- Nothing is overwritten before it is read. -/
def normalize (s : IntervalSet) : IntervalSet :=
  let intervals := (s.intervals.mergeSort IntInterval.le).foldl mergeStep []
  ⟨intervals, (intervals.map IntInterval.length).sum⟩

def intersectLoop : List IntInterval → List IntInterval → List IntInterval × ℕ
  | iv1 :: it1, iv2 :: it2 =>
    if iv1.stop ≤ iv2.begin then intersectLoop it1 (iv2 :: it2)
    else if iv2.stop ≤ iv1.begin then intersectLoop (iv1 :: it1) it2
    else
      let piece : IntInterval := ⟨max iv1.begin iv2.begin, min iv1.stop iv2.stop⟩
      let rest := if iv1.stop < iv2.stop then intersectLoop it1 (iv2 :: it2)
        else intersectLoop (iv1 :: it1) it2
      (piece :: rest.1, piece.length + rest.2)
  | _, _ => ([], 0)
termination_by it1 it2 => it1.length + it2.length

def intersect (s iset : IntervalSet) : IntervalSet :=
  let (intervals, count) := intersectLoop s.intervals iset.intervals
  ⟨intervals, count⟩

def complementLoop (maxval : ℤ) : List IntInterval → ℤ → List IntInterval × ℕ
  | [], currentBegin =>
    if currentBegin < maxval then
      ([⟨currentBegin, maxval⟩], (⟨currentBegin, maxval⟩ : IntInterval).length)
    else ([], 0)
  | current :: rest, currentBegin =>
    let stop := min current.begin maxval
    let (intervals, count) := complementLoop maxval rest current.stop
    if currentBegin < stop then
      (⟨currentBegin, stop⟩ :: intervals, (⟨currentBegin, stop⟩ : IntInterval).length + count)
    else (intervals, count)

def complement (s : IntervalSet) (maxval : ℤ) : IntervalSet :=
  let (intervals, count) := complementLoop maxval s.intervals 0
  ⟨intervals, count⟩

def difference (s iset : IntervalSet) : IntervalSet :=
  match s.intervals.getLast? with
  | none => ⟨[], 0⟩
  | some last => s.intersect (iset.complement last.stop)

def overlapsLoop : List IntInterval → List IntInterval → Bool
  | iv1 :: it1, iv2 :: it2 =>
    if iv1.stop ≤ iv2.begin then overlapsLoop it1 (iv2 :: it2)
    else if iv2.stop ≤ iv1.begin then overlapsLoop (iv1 :: it1) it2
    else true
  | _, _ => false
termination_by it1 it2 => it1.length + it2.length

def overlaps (s iset : IntervalSet) : Bool := overlapsLoop s.intervals iset.intervals

/- The flags are looked at after each step, and the loop is left once all of them are set. -/
def strictlyOverlapsLoop : List IntInterval → List IntInterval → Bool → Bool → Bool → Bool
  | iv1 :: it1, iv2 :: it2, only1, only2, overlap =>
    if iv1.stop ≤ iv2.begin then
      (only2 && overlap) || strictlyOverlapsLoop it1 (iv2 :: it2) true only2 overlap
    else if iv2.stop ≤ iv1.begin then
      (only1 && overlap) || strictlyOverlapsLoop (iv1 :: it1) it2 only1 true overlap
    else if iv2.begin = iv1.begin ∧ iv2.stop = iv1.stop then
      (only1 && only2) || strictlyOverlapsLoop it1 it2 only1 only2 true
    else if iv2.begin ≤ iv1.begin ∧ iv1.stop ≤ iv2.stop then
      only1 || strictlyOverlapsLoop it1 (iv2 :: it2) only1 true true
    else if iv1.begin ≤ iv2.begin ∧ iv2.stop ≤ iv1.stop then
      only2 || strictlyOverlapsLoop (iv1 :: it1) it2 true only2 true
    else true
  | it1, it2, only1, only2, overlap =>
    (only1 || !it1.isEmpty) && (only2 || !it2.isEmpty) && overlap
termination_by it1 it2 => it1.length + it2.length

def strictlyOverlaps (s iset : IntervalSet) : Bool :=
  strictlyOverlapsLoop s.intervals iset.intervals false false false

def containsLoop : List IntInterval → List IntInterval → Bool
  | iv1 :: it1, iv2 :: it2 =>
    if iv1.stop ≤ iv2.begin then containsLoop it1 (iv2 :: it2)
    else if iv2.begin < iv1.begin ∨ iv1.stop < iv2.stop then false
    else if iv2.stop = iv1.stop then containsLoop it1 it2
    else containsLoop (iv1 :: it1) it2
  | _, it2 => it2.isEmpty
termination_by it1 it2 => it1.length + it2.length

def contains (s iset : IntervalSet) : Bool :=
  if s.count < iset.count then false else containsLoop s.intervals iset.intervals

/- The integers of a list of intervals. -/
def covered (intervals : List IntInterval) : Set ℤ :=
  {x | ∃ iv ∈ intervals, iv.begin ≤ x ∧ x < iv.stop}

def members (s : IntervalSet) : Set ℤ := covered s.intervals

/- Sorted, none empty, and none next to another. -/
structure Apart (intervals : List IntInterval) : Prop where
  ordered : intervals.Pairwise fun a b => a.stop < b.begin
  nonempty : ∀ iv ∈ intervals, iv.begin < iv.stop

structure Normalized (s : IntervalSet) : Prop where
  apart : Apart s.intervals
  count_eq : s.count = s.members.ncard

def NonNegative (s : IntervalSet) : Prop := ∀ iv ∈ s.intervals, 0 ≤ iv.begin

section Covered

variable {iv a b : IntInterval} {ivs it1 it2 : List IntInterval} {x : ℤ}

theorem mem_covered : x ∈ covered ivs ↔ ∃ iv ∈ ivs, iv.begin ≤ x ∧ x < iv.stop := Iff.rfl

@[simp] theorem covered_nil : covered [] = ∅ := by
  ext x
  simp [mem_covered]

@[simp] theorem covered_cons : covered (iv :: ivs) = Set.Ico iv.begin iv.stop ∪ covered ivs := by
  ext x
  simp [mem_covered]

theorem covered_append : covered (it1 ++ it2) = covered it1 ∪ covered it2 := by
  ext x
  simp only [mem_covered, List.mem_append, or_and_right, exists_or, Set.mem_union]

theorem Apart.tail (h : Apart (iv :: ivs)) : Apart ivs :=
  ⟨h.ordered.of_cons, fun b hb => h.nonempty b (List.mem_cons_of_mem _ hb)⟩

theorem Apart.head (h : Apart (iv :: ivs)) : iv.begin < iv.stop :=
  h.nonempty iv (List.mem_cons_self ..)

/- What comes after an interval keeps a distance to it. -/
theorem Apart.after (h : Apart (iv :: ivs)) (hx : x ∈ covered ivs) : iv.stop < x := by
  obtain ⟨b, hb, hle, -⟩ := hx
  exact ((List.pairwise_cons.mp h.ordered).1 b hb).trans_le hle

theorem Apart.cons (h : Apart ivs) (hiv : iv.begin < iv.stop)
    (hafter : ∀ b ∈ ivs, iv.stop < b.begin) : Apart (iv :: ivs) := by
  refine ⟨List.pairwise_cons.mpr ⟨hafter, h.ordered⟩, fun b hb => ?_⟩
  rcases List.mem_cons.mp hb with rfl | hb
  · exact hiv
  · exact h.nonempty b hb

theorem begin_mem (h : Apart ivs) (hiv : iv ∈ ivs) : iv.begin ∈ covered ivs :=
  ⟨iv, hiv, le_rfl, h.nonempty iv hiv⟩

theorem finite_covered (ivs : List IntInterval) : (covered ivs).Finite := by
  induction ivs with
  | nil =>
    rw [covered_nil]
    exact Set.finite_empty
  | cons iv ivs ih =>
    rw [covered_cons]
    exact (Set.finite_Ico _ _).union ih

theorem ncard_covered (h : Apart ivs) :
    (covered ivs).ncard = (ivs.map IntInterval.length).sum := by
  induction ivs with
  | nil => simp
  | cons iv ivs ih =>
    have hdisjoint : Disjoint (Set.Ico iv.begin iv.stop) (covered ivs) := by
      rw [Set.disjoint_left]
      intro x hx hrest
      have hafter := h.after hrest
      have hbefore := hx.2
      omega
    have hcard : (Set.Ico iv.begin iv.stop).ncard = iv.length := by
      rw [Set.ncard_eq_toFinset_card', Set.toFinset_Ico, Int.card_Ico]
      rfl
    rw [covered_cons, Set.ncard_union_eq hdisjoint (Set.finite_Ico _ _) (finite_covered ivs),
      hcard, ih h.tail]
    rfl

theorem normalized_of_apart {s : IntervalSet} (h : Apart s.intervals)
    (hcount : s.count = (s.intervals.map IntInterval.length).sum) : Normalized s :=
  ⟨h, hcount.trans (ncard_covered h).symm⟩

end Covered

end IntervalSet

end Sicada
