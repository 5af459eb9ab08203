import Sicada.IntervalSet

namespace Sicada.IntervalSetExact

open IntervalSet

section Member

variable {iv : IntInterval} {ivs : List IntInterval} {value : ℤ}

/- Where the search ends, in what comes before it. -/
def searched (ivs : List IntInterval) (value : ℤ) : Bool :=
  match partitionPoint (·.lt ⟨value, value⟩) ivs with
  | 0 => false
  | pos + 1 => (ivs[pos]?).any fun iv => value < iv.stop

theorem partitionPoint_cons (p : IntInterval → Bool) (iv : IntInterval) (ivs : List IntInterval) :
    partitionPoint p (iv :: ivs) = if p iv then partitionPoint p ivs + 1 else 0 := by
  unfold partitionPoint
  rw [List.takeWhile_cons]
  split <;> rfl

theorem lt_iff (hiv : iv.begin < iv.stop) : iv.lt ⟨value, value⟩ = true ↔ iv.begin ≤ value := by
  simp only [IntInterval.lt, Bool.or_eq_true, Bool.and_eq_true, decide_eq_true_eq]
  omega

theorem searched_iff (h : Apart ivs) : searched ivs value = true ↔ value ∈ covered ivs := by
  induction ivs with
  | nil => simp [searched, partitionPoint]
  | cons iv ivs ih =>
    have hrest := ih h.tail
    rw [covered_cons, Set.mem_union, Set.mem_Ico, ← hrest]
    by_cases hle : iv.begin ≤ value
    · have hpoint : partitionPoint (·.lt ⟨value, value⟩) (iv :: ivs) =
          partitionPoint (·.lt ⟨value, value⟩) ivs + 1 := by
        rw [partitionPoint_cons, if_pos ((lt_iff h.head).mpr hle)]
      unfold searched
      rw [hpoint]
      cases hpos : partitionPoint (·.lt ⟨value, value⟩) ivs with
      | zero =>
        dsimp only
        rw [List.getElem?_cons_zero, Option.any_some, decide_eq_true_eq]
        exact ⟨fun hlt => Or.inl ⟨hle, hlt⟩, fun hor => hor.elim (·.2) nofun⟩
      | succ pos =>
        dsimp only
        rw [List.getElem?_cons_succ]
        refine ⟨Or.inr, fun hor => hor.elim (fun hin => ?_) id⟩
        -- The interval after this one begins at the value or before it.
        have hfirst : ∃ b ∈ ivs, b.begin ≤ value := by
          cases ivs with
          | nil => cases hpos
          | cons b rest =>
            refine ⟨b, List.mem_cons_self .., ?_⟩
            by_contra hgt
            rw [partitionPoint_cons, if_neg fun hlt => hgt ((lt_iff h.tail.head).mp hlt)] at hpos
            cases hpos
        obtain ⟨b, hb, hbegin⟩ := hfirst
        have hgap := (List.pairwise_cons.mp h.ordered).1 b hb
        omega
    · have hpoint : partitionPoint (·.lt ⟨value, value⟩) (iv :: ivs) = 0 := by
        rw [partitionPoint_cons, if_neg fun hlt => hle ((lt_iff h.head).mp hlt)]
      unfold searched
      rw [hpoint]
      refine iff_of_false nofun ?_
      rintro (hin | hin)
      · exact hle hin.1
      · have hafter := h.after (hrest.mp hin)
        have hhead := h.head
        omega

theorem member_iff {s : IntervalSet} (h : Apart s.intervals) (value : ℤ) :
    s.member value = true ↔ value ∈ s.members := by
  unfold IntervalSet.member
  by_cases hempty : s.intervals = []
  · rw [if_pos hempty, IntervalSet.members, hempty, covered_nil]
    exact iff_of_false nofun (Set.notMem_empty _)
  · rw [if_neg hempty]
    exact searched_iff h

end Member

section Normalize

variable {kept : List IntInterval} {interval : IntInterval}

theorem le_iff (a b : IntInterval) : a.le b = true ↔
    a.begin < b.begin ∨ a.begin = b.begin ∧ b.stop ≤ a.stop := by
  simp only [IntInterval.le, IntInterval.lt, Bool.not_eq_true', Bool.or_eq_false_iff,
    Bool.and_eq_false_iff, decide_eq_false_iff_not]
  omega

theorem sorted_begin (ivs : List IntInterval) :
    (ivs.mergeSort IntInterval.le).Pairwise fun a b => a.begin ≤ b.begin := by
  have htrans : ∀ a b c : IntInterval, a.le b = true → b.le c = true → a.le c = true := by
    intro a b c
    rw [le_iff, le_iff, le_iff]
    omega
  have htotal : ∀ a b : IntInterval, (a.le b || b.le a) = true := by
    intro a b
    rw [Bool.or_eq_true, le_iff, le_iff]
    omega
  refine (List.pairwise_mergeSort htrans htotal ivs).imp fun {a b} hab => ?_
  have hcases := (le_iff a b).mp hab
  omega

theorem apart_snoc {pre : List IntInterval} {last : IntInterval} : Apart (pre ++ [last]) ↔
    Apart pre ∧ last.begin < last.stop ∧ ∀ a ∈ pre, a.stop < last.begin := by
  constructor
  · rintro ⟨hordered, hnonempty⟩
    obtain ⟨hpre, -, hgaps⟩ := List.pairwise_append.mp hordered
    exact ⟨⟨hpre, fun a ha => hnonempty a (List.mem_append_left _ ha)⟩,
      hnonempty last (List.mem_append_right _ (List.mem_singleton.mpr rfl)),
      fun a ha => hgaps a ha last (List.mem_singleton.mpr rfl)⟩
  · rintro ⟨hpre, hlast, hgaps⟩
    refine ⟨List.pairwise_append.mpr ⟨hpre.ordered, List.pairwise_singleton _ _, ?_⟩, ?_⟩
    · intro a ha b hb
      rw [List.mem_singleton.mp hb]
      exact hgaps a ha
    · intro a ha
      rcases List.mem_append.mp ha with ha | ha
      · exact hpre.nonempty a ha
      · rw [List.mem_singleton.mp ha]
        exact hlast

/- Intervals come by where they begin, so that only the last one kept can grow. -/
theorem mergeStep_spec (h : Apart kept) (hbefore : ∀ a ∈ kept, a.begin ≤ interval.begin)
    (hinterval : interval.begin ≤ interval.stop) :
    Apart (mergeStep kept interval) ∧
      covered (mergeStep kept interval) = covered kept ∪ Set.Ico interval.begin interval.stop ∧
      ∀ a ∈ mergeStep kept interval, a.begin ≤ interval.begin := by
  unfold mergeStep
  by_cases hempty : interval.begin = interval.stop
  · rw [if_pos hempty, hempty, Set.Ico_self, Set.union_empty]
    exact ⟨h, rfl, hempty ▸ hbefore⟩
  · rw [if_neg hempty]
    have hkeep : ∀ {pre : List IntInterval}, Apart pre → (∀ a ∈ pre, a.begin ≤ interval.begin) →
        (∀ a ∈ pre, a.stop < interval.begin) → Apart (pre ++ [interval]) ∧
          covered (pre ++ [interval]) = covered pre ∪ Set.Ico interval.begin interval.stop ∧
          ∀ a ∈ pre ++ [interval], a.begin ≤ interval.begin := by
      intro pre hpre hbegins hgaps
      refine ⟨apart_snoc.mpr ⟨hpre, by omega, hgaps⟩, ?_, fun a ha => ?_⟩
      · rw [covered_append, covered_cons, covered_nil, Set.union_empty]
      · rcases List.mem_append.mp ha with ha | ha
        · exact hbegins a ha
        · rw [List.mem_singleton.mp ha]
    rcases List.eq_nil_or_concat kept with rfl | ⟨pre, last, rfl⟩
    · exact hkeep h hbefore (by simp)
    · rw [List.concat_eq_append] at h hbefore ⊢
      obtain ⟨hpre, hlast, hgaps⟩ := apart_snoc.mp h
      have hlastBefore := hbefore last (List.mem_append_right _ (List.mem_singleton.mpr rfl))
      rw [List.getLast?_concat, List.dropLast_concat]
      dsimp only
      by_cases htouch : interval.begin ≤ last.stop
      · rw [if_pos htouch]
        by_cases hgrow : last.stop < interval.stop
        · rw [if_pos hgrow]
          refine ⟨apart_snoc.mpr ⟨hpre, by dsimp only; omega, hgaps⟩, ?_, fun a ha => ?_⟩
          · ext x
            simp only [covered_append, covered_cons, covered_nil, Set.union_empty, Set.mem_union,
              Set.mem_Ico, or_assoc]
            exact or_congr_right (by omega)
          · rcases List.mem_append.mp ha with ha | ha
            · exact hbefore a (List.mem_append_left _ ha)
            · rw [List.mem_singleton.mp ha]
              exact hlastBefore
        · rw [if_neg hgrow]
          refine ⟨h, ?_, hbefore⟩
          ext x
          simp only [covered_append, covered_cons, covered_nil, Set.union_empty, Set.mem_union,
            Set.mem_Ico, or_assoc]
          exact or_congr_right (by omega)
      · rw [if_neg htouch]
        refine hkeep h hbefore fun a ha => ?_
        rcases List.mem_append.mp ha with ha | ha
        · exact (hgaps a ha).trans_le (by omega)
        · rw [List.mem_singleton.mp ha]
          omega

theorem foldl_mergeStep {ivs : List IntInterval}
    (hsorted : ivs.Pairwise fun a b => a.begin ≤ b.begin) (hivs : ∀ iv ∈ ivs, iv.begin ≤ iv.stop)
    (h : Apart kept) (hbefore : ∀ a ∈ kept, ∀ iv ∈ ivs, a.begin ≤ iv.begin) :
    Apart (ivs.foldl mergeStep kept) ∧
      covered (ivs.foldl mergeStep kept) = covered kept ∪ covered ivs := by
  induction ivs generalizing kept with
  | nil => exact ⟨h, by rw [List.foldl_nil, covered_nil, Set.union_empty]⟩
  | cons iv ivs ih =>
    obtain ⟨hfirst, hrest⟩ := List.pairwise_cons.mp hsorted
    obtain ⟨hapart, hcovered, hbegins⟩ := mergeStep_spec h
      (fun a ha => hbefore a ha iv (List.mem_cons_self ..)) (hivs iv (List.mem_cons_self ..))
    obtain ⟨happart', hcovered'⟩ := ih hrest (fun b hb => hivs b (List.mem_cons_of_mem _ hb)) hapart
      fun a ha b hb => (hbegins a ha).trans (hfirst b hb)
    refine ⟨happart', ?_⟩
    rw [List.foldl_cons, hcovered', hcovered, covered_cons, Set.union_assoc]

theorem covered_perm {ivs ivs' : List IntInterval} (h : ivs.Perm ivs') :
    covered ivs = covered ivs' := by
  ext x
  simp only [mem_covered, h.mem_iff]

theorem normalize_spec {s : IntervalSet} (hs : ∀ iv ∈ s.intervals, iv.begin ≤ iv.stop) :
    Normalized s.normalize ∧ s.normalize.members = s.members := by
  have hperm := List.mergeSort_perm s.intervals IntInterval.le
  obtain ⟨hapart, hcovered⟩ := foldl_mergeStep (sorted_begin s.intervals)
    (fun iv hiv => hs iv (hperm.mem_iff.mp hiv)) (⟨.nil, nofun⟩ : Apart []) nofun
  refine ⟨normalized_of_apart hapart rfl, ?_⟩
  rw [IntervalSet.members, IntervalSet.members, IntervalSet.normalize, hcovered, covered_nil,
    Set.empty_union, covered_perm hperm]

end Normalize

section Sweeps

variable {iv1 iv2 : IntInterval} {it1 it2 : List IntInterval}

/- An interval that ends before all of another list is in none of it. -/
theorem notMem_of_before (h2 : Apart (iv2 :: it2)) {x : ℤ} (hx : x < iv2.begin) :
    x ∉ covered (iv2 :: it2) := by
  rw [covered_cons]
  rintro (hin | hin)
  · exact absurd hin.1 (not_le.mpr hx)
  · have hafter := h2.after hin
    have hhead := h2.head
    omega

/- Past its first interval a list goes on only after a gap. -/
theorem notMem_of_gap (h1 : Apart (iv1 :: it1)) : iv1.stop ∉ covered (iv1 :: it1) := by
  rw [covered_cons]
  rintro (hin | hin)
  · exact lt_irrefl _ hin.2
  · exact lt_irrefl _ (h1.after hin)

theorem drop_left (h2 : Apart (iv2 :: it2))
    (hend : iv1.stop ≤ iv2.begin) {x : ℤ} (hx : x ∈ covered (iv2 :: it2)) :
    x ∈ covered (iv1 :: it1) ↔ x ∈ covered it1 := by
  have hge : iv2.begin ≤ x := by
    by_contra hlt
    exact notMem_of_before h2 (not_le.mp hlt) hx
  rw [covered_cons, Set.mem_union, Set.mem_Ico]
  exact or_iff_right fun hin => by omega

theorem intersectLoop_spec (h1 : Apart it1) (h2 : Apart it2) :
    Apart (intersectLoop it1 it2).1 ∧
      covered (intersectLoop it1 it2).1 = covered it1 ∩ covered it2 ∧
      (intersectLoop it1 it2).2 = ((intersectLoop it1 it2).1.map IntInterval.length).sum := by
  induction it1, it2 using intersectLoop.induct with
  | case1 iv1 it1 iv2 it2 hend ih =>
    obtain ⟨hapart, hcovered, hcount⟩ := ih h1.tail h2
    rw [intersectLoop, if_pos hend]
    refine ⟨hapart, ?_, hcount⟩
    rw [hcovered]
    ext x
    exact and_congr_left fun hx => (drop_left h2 hend hx).symm
  | case2 iv1 it1 iv2 it2 hend hend' ih =>
    obtain ⟨hapart, hcovered, hcount⟩ := ih h1 h2.tail
    rw [intersectLoop, if_neg hend, if_pos hend']
    refine ⟨hapart, ?_, hcount⟩
    rw [hcovered]
    ext x
    exact and_congr_right fun hx => (drop_left h1 hend' hx).symm
  | case3 iv1 it1 iv2 it2 hend hend' ih ih' =>
    rw [intersectLoop, if_neg hend, if_neg hend']
    dsimp only
    have hhead1 := h1.head
    have hhead2 := h2.head
    by_cases hfirst : iv1.stop < iv2.stop
    · obtain ⟨hapart, hcovered, hcount⟩ := ih h1.tail h2
      rw [if_pos hfirst]
      refine ⟨hapart.cons (by dsimp only; omega) fun b hb => ?_, ?_, ?_⟩
      · have hin := begin_mem hapart hb
        rw [hcovered] at hin
        have hafter := h1.after hin.1
        dsimp only
        omega
      · rw [covered_cons, hcovered]
        ext x
        have hafter : x ∈ covered it1 → iv1.stop < x := h1.after
        have hafter2 : x ∈ covered it2 → iv2.stop < x := h2.after
        simp only [covered_cons, Set.mem_union, Set.mem_inter_iff, Set.mem_Ico]
        grind
      · rw [List.map_cons, List.sum_cons, hcount]
    · obtain ⟨hapart, hcovered, hcount⟩ := ih' h1 h2.tail
      rw [if_neg hfirst]
      refine ⟨hapart.cons (by dsimp only; omega) fun b hb => ?_, ?_, ?_⟩
      · have hin := begin_mem hapart hb
        rw [hcovered] at hin
        have hafter := h2.after hin.2
        dsimp only
        omega
      · rw [covered_cons, hcovered]
        ext x
        have hafter : x ∈ covered it1 → iv1.stop < x := h1.after
        have hafter2 : x ∈ covered it2 → iv2.stop < x := h2.after
        simp only [covered_cons, Set.mem_union, Set.mem_inter_iff, Set.mem_Ico]
        grind
      · rw [List.map_cons, List.sum_cons, hcount]
  | case4 it1 it2 hno =>
    have hempty : intersectLoop it1 it2 = ([], 0) := by
      rw [intersectLoop]
      exact hno
    rw [hempty]
    refine ⟨⟨.nil, nofun⟩, ?_, rfl⟩
    cases it1 with
    | nil => simp
    | cons iv1 it1 =>
      cases it2 with
      | nil => simp
      | cons iv2 it2 => exact (hno _ _ _ _ rfl rfl).elim

theorem overlapsLoop_iff (h1 : Apart it1) (h2 : Apart it2) :
    overlapsLoop it1 it2 = true ↔ (covered it1 ∩ covered it2).Nonempty := by
  induction it1, it2 using overlapsLoop.induct with
  | case1 iv1 it1 iv2 it2 hend ih =>
    rw [overlapsLoop, if_pos hend, ih h1.tail h2]
    exact exists_congr fun x => and_congr_left fun hx => (drop_left h2 hend hx).symm
  | case2 iv1 it1 iv2 it2 hend hend' ih =>
    rw [overlapsLoop, if_neg hend, if_pos hend', ih h1 h2.tail]
    exact exists_congr fun x => and_congr_right fun hx => (drop_left h1 hend' hx).symm
  | case3 iv1 it1 iv2 it2 hend hend' =>
    rw [overlapsLoop, if_neg hend, if_neg hend']
    have hhead1 := h1.head
    have hhead2 := h2.head
    refine iff_of_true rfl ⟨max iv1.begin iv2.begin, ?_, ?_⟩
    · rw [covered_cons]
      exact Or.inl ⟨le_max_left _ _, by omega⟩
    · rw [covered_cons]
      exact Or.inl ⟨le_max_right _ _, by omega⟩
  | case4 it1 it2 hno =>
    have hfalse : overlapsLoop it1 it2 = false := by
      rw [overlapsLoop]
      exact hno
    rw [hfalse]
    refine iff_of_false nofun ?_
    rintro ⟨x, ⟨a, ha, -⟩, b, hb, -⟩
    obtain ⟨iv1, it1, rfl⟩ := List.exists_cons_of_ne_nil (List.ne_nil_of_mem ha)
    obtain ⟨iv2, it2, rfl⟩ := List.exists_cons_of_ne_nil (List.ne_nil_of_mem hb)
    exact hno _ _ _ _ rfl rfl

theorem meet_of_not_before (h1 : Apart (iv1 :: it1)) (h2 : Apart (iv2 :: it2))
    (hend : ¬iv1.stop ≤ iv2.begin) (hend' : ¬iv2.stop ≤ iv1.begin) :
    (covered (iv1 :: it1) ∩ covered (iv2 :: it2)).Nonempty := by
  have hhead1 := h1.head
  have hhead2 := h2.head
  refine ⟨max iv1.begin iv2.begin, ?_, ?_⟩
  · rw [covered_cons]
    exact Or.inl ⟨le_max_left _ _, by omega⟩
  · rw [covered_cons]
    exact Or.inl ⟨le_max_right _ _, by omega⟩

theorem sdiff_of_begin (h1 : Apart (iv1 :: it1)) (h2 : Apart (iv2 :: it2))
    (hbegin : iv1.begin < iv2.begin) :
    (covered (iv1 :: it1) \ covered (iv2 :: it2)).Nonempty :=
  ⟨iv1.begin, begin_mem h1 (List.mem_cons_self ..), notMem_of_before h2 hbegin⟩

theorem sdiff_of_stop (h2 : Apart (iv2 :: it2)) (hbegin : iv1.begin ≤ iv2.stop)
    (hstop : iv2.stop < iv1.stop) : (covered (iv1 :: it1) \ covered (iv2 :: it2)).Nonempty := by
  refine ⟨iv2.stop, ?_, notMem_of_gap h2⟩
  rw [covered_cons]
  exact Or.inl ⟨hbegin, hstop⟩

theorem nonempty_covered {ivs : List IntInterval} (h : Apart ivs) :
    (covered ivs).Nonempty ↔ ivs ≠ [] := by
  constructor
  · rintro ⟨x, iv, hiv, -⟩
    exact List.ne_nil_of_mem hiv
  · intro hne
    obtain ⟨iv, rest, rfl⟩ := List.exists_cons_of_ne_nil hne
    exact ⟨iv.begin, begin_mem h (List.mem_cons_self ..)⟩

/- An interval within another one gives nothing to the difference. -/
theorem sdiff_of_within (hbegin : iv2.begin ≤ iv1.begin) (hstop : iv1.stop ≤ iv2.stop) :
    covered (iv1 :: it1) \ covered (iv2 :: it2) = covered it1 \ covered (iv2 :: it2) := by
  ext x
  simp only [covered_cons, Set.mem_sdiff, Set.mem_union, Set.mem_Ico]
  grind

theorem sdiff_of_same (h1 : Apart (iv1 :: it1)) (hbegin : iv2.begin = iv1.begin)
    (hstop : iv2.stop = iv1.stop) :
    covered (iv1 :: it1) \ covered (iv2 :: it2) = covered it1 \ covered it2 := by
  ext x
  have hafter : x ∈ covered it1 → iv1.stop < x := h1.after
  simp only [covered_cons, Set.mem_sdiff, Set.mem_union, Set.mem_Ico]
  grind

theorem strictlyOverlapsLoop_iff (h1 : Apart it1) (h2 : Apart it2) (only1 only2 overlap : Bool) :
    strictlyOverlapsLoop it1 it2 only1 only2 overlap = true ↔
      (only1 = true ∨ (covered it1 \ covered it2).Nonempty) ∧
      (only2 = true ∨ (covered it2 \ covered it1).Nonempty) ∧
      (overlap = true ∨ (covered it1 ∩ covered it2).Nonempty) := by
  induction it1, it2, only1, only2, overlap using strictlyOverlapsLoop.induct with
  | case1 iv1 it1 iv2 it2 only1 only2 overlap hend ih =>
    have honly : (covered (iv1 :: it1) \ covered (iv2 :: it2)).Nonempty :=
      sdiff_of_begin h1 h2 (h1.head.trans_le hend)
    have hdiff : covered (iv2 :: it2) \ covered (iv1 :: it1) =
        covered (iv2 :: it2) \ covered it1 :=
      Set.ext fun x => and_congr_right fun hx => not_congr (drop_left h2 hend hx)
    have hinter : covered (iv1 :: it1) ∩ covered (iv2 :: it2) =
        covered it1 ∩ covered (iv2 :: it2) :=
      Set.ext fun x => and_congr_left fun hx => drop_left h2 hend hx
    rw [strictlyOverlapsLoop, if_pos hend, Bool.or_eq_true, Bool.and_eq_true, ih h1.tail h2, hdiff,
      hinter]
    simp only [honly, or_true, true_or, true_and]
    exact or_iff_right_of_imp fun hset => ⟨Or.inl hset.1, Or.inl hset.2⟩
  | case2 iv1 it1 iv2 it2 only1 only2 overlap hend hend' ih =>
    have honly : (covered (iv2 :: it2) \ covered (iv1 :: it1)).Nonempty :=
      sdiff_of_begin h2 h1 (h2.head.trans_le hend')
    have hdiff : covered (iv1 :: it1) \ covered (iv2 :: it2) =
        covered (iv1 :: it1) \ covered it2 :=
      Set.ext fun x => and_congr_right fun hx => not_congr (drop_left h1 hend' hx)
    have hinter : covered (iv1 :: it1) ∩ covered (iv2 :: it2) =
        covered (iv1 :: it1) ∩ covered it2 :=
      Set.ext fun x => and_congr_right fun hx => drop_left h1 hend' hx
    rw [strictlyOverlapsLoop, if_neg hend, if_pos hend', Bool.or_eq_true, Bool.and_eq_true,
      ih h1 h2.tail, hdiff, hinter]
    simp only [honly, or_true, true_or, true_and]
    exact or_iff_right_of_imp fun hset => ⟨Or.inl hset.1, Or.inl hset.2⟩
  | case3 iv1 it1 iv2 it2 only1 only2 overlap hend hend' hsame ih =>
    have hmeet := meet_of_not_before h1 h2 hend hend'
    rw [strictlyOverlapsLoop, if_neg hend, if_neg hend', if_pos hsame, Bool.or_eq_true,
      Bool.and_eq_true, ih h1.tail h2.tail, sdiff_of_same h1 hsame.1 hsame.2,
      sdiff_of_same h2 hsame.1.symm hsame.2.symm]
    simp only [hmeet, or_true, true_or, and_true]
    exact or_iff_right_of_imp fun hset => ⟨Or.inl hset.1, Or.inl hset.2⟩
  | case4 iv1 it1 iv2 it2 only1 only2 overlap hend hend' hsame hwithin ih =>
    have hmeet := meet_of_not_before h1 h2 hend hend'
    have honly : (covered (iv2 :: it2) \ covered (iv1 :: it1)).Nonempty := by
      by_cases hbegin : iv2.begin < iv1.begin
      · exact sdiff_of_begin h2 h1 hbegin
      · exact sdiff_of_stop h1 (by omega) (by omega)
    rw [strictlyOverlapsLoop, if_neg hend, if_neg hend', if_neg hsame, if_pos hwithin,
      Bool.or_eq_true, ih h1.tail h2, sdiff_of_within hwithin.1 hwithin.2]
    simp only [honly, hmeet, or_true, true_or, and_true]
    exact or_iff_right_of_imp Or.inl
  | case5 iv1 it1 iv2 it2 only1 only2 overlap hend hend' hsame hwithin hwithin' ih =>
    have hmeet := meet_of_not_before h1 h2 hend hend'
    have honly : (covered (iv1 :: it1) \ covered (iv2 :: it2)).Nonempty := by
      by_cases hbegin : iv1.begin < iv2.begin
      · exact sdiff_of_begin h1 h2 hbegin
      · exact sdiff_of_stop h2 (by omega) (by omega)
    rw [strictlyOverlapsLoop, if_neg hend, if_neg hend', if_neg hsame, if_neg hwithin,
      if_pos hwithin', Bool.or_eq_true, ih h1 h2.tail, sdiff_of_within hwithin'.1 hwithin'.2]
    simp only [honly, hmeet, or_true, true_or, true_and, and_true]
    exact or_iff_right_of_imp Or.inl
  | case6 iv1 it1 iv2 it2 only1 only2 overlap hend hend' hsame hwithin hwithin' =>
    -- Each hangs over the other, one to the left and one to the right.
    have hmeet := meet_of_not_before h1 h2 hend hend'
    rw [strictlyOverlapsLoop, if_neg hend, if_neg hend', if_neg hsame, if_neg hwithin,
      if_neg hwithin']
    refine iff_of_true rfl ⟨Or.inr ?_, Or.inr ?_, Or.inr hmeet⟩
    · by_cases hbegin : iv1.begin < iv2.begin
      · exact sdiff_of_begin h1 h2 hbegin
      · exact sdiff_of_stop h2 (by omega) (by omega)
    · by_cases hbegin : iv2.begin < iv1.begin
      · exact sdiff_of_begin h2 h1 hbegin
      · exact sdiff_of_stop h1 (by omega) (by omega)
  | case7 it1 it2 only1 only2 overlap hno =>
    have hdone : strictlyOverlapsLoop it1 it2 only1 only2 overlap =
        ((only1 || !it1.isEmpty) && (only2 || !it2.isEmpty) && overlap) := by
      rw [strictlyOverlapsLoop]
      exact hno
    rw [hdone]
    cases it1 with
    | nil => simp [nonempty_covered h2, and_assoc]
    | cons iv1 it1 =>
      cases it2 with
      | nil =>
        rw [covered_nil, Set.sdiff_empty, Set.empty_sdiff, Set.inter_empty]
        simp [h1.head]
      | cons iv2 it2 => exact (hno _ _ _ _ rfl rfl).elim

theorem containsLoop_iff (h1 : Apart it1) (h2 : Apart it2) :
    containsLoop it1 it2 = true ↔ covered it2 ⊆ covered it1 := by
  induction it1, it2 using containsLoop.induct with
  | case1 iv1 it1 iv2 it2 hend ih =>
    rw [containsLoop, if_pos hend, ih h1.tail h2]
    exact forall_congr' fun x => imp_congr_right fun hx => (drop_left h2 hend hx).symm
  | case2 iv1 it1 iv2 it2 hend hout =>
    rw [containsLoop, if_neg hend, if_pos hout]
    refine iff_of_false nofun (Set.not_subset_iff_exists_mem_notMem.mpr ?_)
    by_cases hbegin : iv2.begin < iv1.begin
    · exact sdiff_of_begin h2 h1 hbegin
    · exact sdiff_of_stop h1 (by omega) (by omega)
  | case3 iv1 it1 iv2 it2 hend hout hstop ih =>
    rw [containsLoop, if_neg hend, if_neg hout, if_pos hstop, ih h1.tail h2.tail]
    refine forall_congr' fun x => ?_
    have hafter : x ∈ covered it2 → iv2.stop < x := h2.after
    simp only [covered_cons, Set.mem_union, Set.mem_Ico]
    grind
  | case4 iv1 it1 iv2 it2 hend hout hstop ih =>
    rw [containsLoop, if_neg hend, if_neg hout, if_neg hstop, ih h1 h2.tail]
    refine forall_congr' fun x => ?_
    simp only [covered_cons, Set.mem_union, Set.mem_Ico]
    grind
  | case5 it1 it2 hno =>
    have hdone : containsLoop it1 it2 = it2.isEmpty := by
      rw [containsLoop]
      exact hno
    rw [hdone]
    cases it2 with
    | nil => simp
    | cons iv2 it2 =>
      cases it1 with
      | nil =>
        refine iff_of_false nofun fun hsub => ?_
        have hmem := hsub (begin_mem h2 (List.mem_cons_self ..))
        rw [covered_nil] at hmem
        exact hmem
      | cons iv1 it1 => exact (hno _ _ _ _ rfl rfl).elim

end Sweeps

section Complement

variable {ivs : List IntInterval} {currentBegin : ℤ}

theorem complementLoop_spec (maxval : ℤ) (h : Apart ivs)
    (hbegin : ∀ iv ∈ ivs, currentBegin ≤ iv.begin) :
    Apart (complementLoop maxval ivs currentBegin).1 ∧
      covered (complementLoop maxval ivs currentBegin).1 =
        Set.Ico currentBegin maxval \ covered ivs ∧
      (complementLoop maxval ivs currentBegin).2 =
        ((complementLoop maxval ivs currentBegin).1.map IntInterval.length).sum := by
  induction ivs generalizing currentBegin with
  | nil =>
    rw [complementLoop, covered_nil, Set.sdiff_empty]
    by_cases hlt : currentBegin < maxval
    · rw [if_pos hlt]
      exact ⟨Apart.cons ⟨.nil, nofun⟩ hlt nofun, by simp, by simp⟩
    · rw [if_neg hlt]
      exact ⟨⟨.nil, nofun⟩, by rw [covered_nil, Set.Ico_eq_empty hlt], rfl⟩
  | cons current rest ih =>
    have hcurrent := hbegin current (List.mem_cons_self ..)
    have hhead := h.head
    obtain ⟨hapart, hcovered, hcount⟩ := ih h.tail
      fun b hb => ((List.pairwise_cons.mp h.ordered).1 b hb).le
    rw [complementLoop]
    dsimp only
    have hafter : ∀ x, x ∈ covered rest → current.stop < x := fun x => h.after
    by_cases hlt : currentBegin < min current.begin maxval
    · rw [if_pos hlt]
      refine ⟨hapart.cons hlt fun b hb => ?_, ?_, ?_⟩
      · have hin := begin_mem hapart hb
        rw [hcovered] at hin
        have hge := hin.1.1
        dsimp only
        omega
      · rw [covered_cons, hcovered]
        ext x
        have hafter' := hafter x
        simp only [covered_cons, Set.mem_union, Set.mem_sdiff, Set.mem_Ico]
        grind
      · rw [List.map_cons, List.sum_cons, hcount]
    · rw [if_neg hlt]
      refine ⟨hapart, ?_, hcount⟩
      rw [hcovered]
      ext x
      have hafter' := hafter x
      simp only [covered_cons, Set.mem_union, Set.mem_sdiff, Set.mem_Ico]
      grind

end Complement

/- A set with its normal form, and what it is made of. -/
structure Yields (s : IntervalSet) (elements : Set ℤ) : Prop where
  normalized : Normalized s
  nonNegative : NonNegative s
  members_eq : s.members = elements

section Algebra

variable {s t : IntervalSet} {elements : Set ℤ}

theorem nonNegative_of_members (h : Normalized s) (helements : ∀ x ∈ s.members, 0 ≤ x) :
    NonNegative s :=
  fun _ hiv => helements _ (begin_mem h.apart hiv)

theorem NonNegative.members (h : NonNegative s) : ∀ x ∈ s.members, 0 ≤ x := by
  rintro x ⟨iv, hiv, hle, -⟩
  exact (h iv hiv).trans hle

theorem yields_of_normalized (h : Normalized s) (hmembers : s.members = elements)
    (helements : ∀ x ∈ elements, 0 ≤ x) : Yields s elements :=
  ⟨h, nonNegative_of_members h (hmembers ▸ helements), hmembers⟩

theorem intersect_spec (hs : Normalized s) (ht : Normalized t) :
    Normalized (s.intersect t) ∧ (s.intersect t).members = s.members ∩ t.members := by
  obtain ⟨hapart, hcovered, hcount⟩ := intersectLoop_spec hs.apart ht.apart
  exact ⟨normalized_of_apart hapart hcount, hcovered⟩

theorem complement_spec (hs : Normalized s) (hneg : NonNegative s) (maxval : ℤ) :
    Normalized (s.complement maxval) ∧
      (s.complement maxval).members = Set.Ico 0 maxval \ s.members := by
  obtain ⟨hapart, hcovered, hcount⟩ := complementLoop_spec maxval hs.apart hneg
  exact ⟨normalized_of_apart hapart hcount, hcovered⟩

/- Nothing of a list is past the end of its last interval. -/
theorem lt_last_stop {ivs : List IntInterval} {last : IntInterval} (h : Apart ivs)
    (hlast : ivs.getLast? = some last) {x : ℤ} (hx : x ∈ covered ivs) : x < last.stop := by
  obtain ⟨pre, rfl⟩ := List.getLast?_eq_some_iff.mp hlast
  obtain ⟨-, hnonempty, hgaps⟩ := apart_snoc.mp h
  obtain ⟨iv, hiv, -, hlt⟩ := hx
  rcases List.mem_append.mp hiv with hiv | hiv
  · have hgap := hgaps iv hiv
    omega
  · rwa [← List.mem_singleton.mp hiv]

theorem difference_spec (hs : Normalized s) (hsneg : NonNegative s) (ht : Normalized t)
    (htneg : NonNegative t) :
    Normalized (s.difference t) ∧ (s.difference t).members = s.members \ t.members := by
  unfold IntervalSet.difference
  cases hlast : s.intervals.getLast? with
  | none =>
    have hnone : s.intervals = [] := List.getLast?_eq_none_iff.mp hlast
    refine ⟨normalized_of_apart ⟨.nil, nofun⟩ rfl, ?_⟩
    rw [IntervalSet.members, IntervalSet.members, hnone, covered_nil, Set.empty_sdiff]
  | some last =>
    obtain ⟨hcomplement, hcomplementMembers⟩ := complement_spec ht htneg last.stop
    obtain ⟨hnormalized, hmembers⟩ := intersect_spec hs hcomplement
    refine ⟨hnormalized, ?_⟩
    rw [hmembers, hcomplementMembers]
    ext x
    constructor
    · rintro ⟨hin, -, hout⟩
      exact ⟨hin, hout⟩
    · rintro ⟨hin, hout⟩
      exact ⟨hin, ⟨NonNegative.members hsneg x hin, lt_last_stop hs.apart hlast hin⟩, hout⟩

theorem strictlyOverlaps_spec (hs : Normalized s) (ht : Normalized t) :
    s.strictlyOverlaps t = true ↔
      (s.members ∩ t.members).Nonempty ∧ ¬s.members ⊆ t.members ∧ ¬t.members ⊆ s.members := by
  rw [IntervalSet.strictlyOverlaps, strictlyOverlapsLoop_iff hs.apart ht.apart,
    ← Set.sdiff_nonempty, ← Set.sdiff_nonempty]
  simp only [Bool.false_eq_true, false_or]
  exact ⟨fun ⟨h1, h2, h⟩ => ⟨h, h1, h2⟩, fun ⟨h, h1, h2⟩ => ⟨h1, h2, h⟩⟩

theorem contains_spec (hs : Normalized s) (ht : Normalized t) :
    s.contains t = true ↔ t.members ⊆ s.members := by
  unfold IntervalSet.contains
  by_cases hcount : s.count < t.count
  · rw [if_pos hcount]
    refine iff_of_false nofun fun hsub => ?_
    have hle := Set.ncard_le_ncard hsub (finite_covered s.intervals)
    rw [← hs.count_eq, ← ht.count_eq] at hle
    exact absurd hcount (not_lt.mpr hle)
  · rw [if_neg hcount]
    exact containsLoop_iff hs.apart ht.apart

end Algebra

end Sicada.IntervalSetExact
