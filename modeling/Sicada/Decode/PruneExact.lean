import Sicada.Decode.Dense

namespace Sicada.PruneExact

open Frontier

variable {C : Type} [LinearOrderedAddCommMonoidWithTop C]

def best (frontier : Frontier C) : C := frontier.costs.foldl min ⊤

def cap (opts : DecodeOptions C) : WithTop ℕ := max opts.maxActive opts.minActive

def InBeam (opts : DecodeOptions C) (frontier : Frontier C) (token : Token C) : Prop :=
  token.cost ≤ best frontier + opts.beam

/- How many tokens are no worse than a cost, and how many are better. -/
def upTo (frontier : Frontier C) (cost : C) : ℕ := frontier.costs.countP (· ≤ cost)

def below (frontier : Frontier C) (cost : C) : ℕ := frontier.costs.countP (· < cost)

def inBeam (opts : DecodeOptions C) (frontier : Frontier C) : ℕ :=
  upTo frontier (best frontier + opts.beam)

/- What the options promise of the tokens that are kept. -/
structure Promised (opts : DecodeOptions C) (frontier kept : Frontier C) : Prop where
  subset : ∀ e ∈ kept.entries, e ∈ frontier.entries
  lowest : ∀ e ∈ frontier.entries, ∀ e' ∈ kept.entries, e.2.cost ≤ e'.2.cost → e ∈ kept.entries
  keepsBest : ∀ e ∈ frontier.entries, (∀ e' ∈ frontier.entries, e.2.cost ≤ e'.2.cost) →
    e ∈ kept.entries
  atMost : (kept.entries.length : WithTop ℕ) ≤ cap opts
  atLeast : min opts.minActive frontier.entries.length ≤ kept.entries.length
  keepsBeam : ∀ e ∈ frontier.entries, InBeam opts frontier e.2 →
    e ∈ kept.entries ∨ cap opts ≤ below frontier e.2.cost

section Ranks

/- In a list of different costs, sorted, the cost at a rank has that many before it. -/
theorem countP_sorted {costs : List C} (hsorted : costs.Pairwise (· < ·)) {rank : ℕ} {cost : C}
    (hcost : costs[rank]? = some cost) : costs.countP (· ≤ cost) = rank + 1 := by
  obtain ⟨hlt, hget⟩ := List.getElem?_eq_some_iff.mp hcost
  have hpairs := List.pairwise_iff_getElem.mp hsorted
  have hfront : (costs.take (rank + 1)).countP (· ≤ cost) = rank + 1 := by
    rw [List.countP_eq_length.mpr, List.length_take, Nat.min_eq_left hlt]
    intro c hc
    obtain ⟨i, hi, rfl⟩ := List.mem_take_iff_getElem.mp hc
    have hle : i ≤ rank := by omega
    rcases Nat.lt_or_eq_of_le hle with hi' | rfl
    · rw [← hget]
      exact decide_eq_true (hpairs i rank _ hlt hi').le
    · rw [hget]
      exact decide_eq_true le_rfl
  have hback : (costs.drop (rank + 1)).countP (· ≤ cost) = 0 := by
    rw [List.countP_eq_zero]
    intro c hc
    obtain ⟨i, hi, rfl⟩ := List.mem_drop_iff_getElem.mp hc
    rw [← hget, decide_eq_true_eq, not_le]
    exact hpairs rank (rank + 1 + i) hlt _ (by omega)
  rw [← List.take_append_drop (rank + 1) costs, List.countP_append, hfront, hback]

theorem upTo_rank {frontier : Frontier C} (hnodup : frontier.costs.Nodup) {rank : ℕ} {cost : C}
    (hcost : (frontier.costs.insertionSort (· ≤ ·))[rank]? = some cost) :
    upTo frontier cost = rank + 1 := by
  have hperm := List.perm_insertionSort (· ≤ ·) frontier.costs
  have hle := List.pairwise_insertionSort (· ≤ ·) frontier.costs
  have hlt : (frontier.costs.insertionSort (· ≤ ·)).Pairwise (· < ·) := by
    have hne : (frontier.costs.insertionSort (· ≤ ·)).Pairwise (· ≠ ·) := hperm.nodup_iff.mpr hnodup
    exact (hle.and hne).imp fun hab => lt_of_le_of_ne hab.1 hab.2
  unfold upTo
  rw [← hperm.countP_eq]
  exact countP_sorted hlt hcost

end Ranks

section Best

variable {frontier : Frontier C}

theorem cost_mem {e : Σ _ : ℕ, Token C} (he : e ∈ frontier.entries) :
    e.2.cost ∈ frontier.costs := List.mem_map.mpr ⟨e, he, rfl⟩

theorem foldl_min_le (costs : List C) (start : C) :
    costs.foldl min start ≤ start ∧ ∀ c ∈ costs, costs.foldl min start ≤ c := by
  induction costs generalizing start with
  | nil => exact ⟨le_rfl, fun c hc => absurd hc List.not_mem_nil⟩
  | cons cost costs ih =>
    obtain ⟨hstart, hall⟩ := ih (min start cost)
    refine ⟨hstart.trans (min_le_left _ _), fun c hc => ?_⟩
    rcases List.mem_cons.mp hc with rfl | hc
    · exact hstart.trans (min_le_right _ _)
    · exact hall c hc

theorem foldl_min_mem (costs : List C) (start : C) :
    costs.foldl min start = start ∨ costs.foldl min start ∈ costs := by
  induction costs generalizing start with
  | nil => exact Or.inl rfl
  | cons cost costs ih =>
    rcases ih (min start cost) with h | h
    · rw [List.foldl_cons, h]
      rcases min_choice start cost with hmin | hmin
      · exact Or.inl hmin
      · exact Or.inr (hmin.symm ▸ List.mem_cons_self)
    · exact Or.inr (List.mem_cons_of_mem _ h)

theorem best_le {e : Σ _ : ℕ, Token C} (he : e ∈ frontier.entries) :
    best frontier ≤ e.2.cost := (foldl_min_le _ _).2 _ (cost_mem he)

/- The best of a frontier is the cost of a token, unless there is none. -/
theorem exists_best (hne : frontier.entries ≠ []) :
    ∃ e ∈ frontier.entries, e.2.cost = best frontier := by
  rcases foldl_min_mem frontier.costs ⊤ with htop | hmem
  · obtain ⟨e, he⟩ := List.exists_mem_of_ne_nil _ hne
    have hle : ⊤ ≤ e.2.cost := htop ▸ best_le he
    exact ⟨e, he, (top_le_iff.mp hle).trans htop.symm⟩
  · obtain ⟨e, he, hcost⟩ := List.mem_map.mp hmem
    exact ⟨e, he, hcost⟩

end Best

section Kept

variable {opts : DecodeOptions C} {frontier : Frontier C}

/- A cutoff keeps the tokens that are no worse. -/
structure Cut (opts : DecodeOptions C) (frontier kept : Frontier C) (cutoff : C) : Prop where
  mem : ∀ e, e ∈ kept.entries ↔ e ∈ frontier.entries ∧ e.2.cost ≤ cutoff
  length : kept.entries.length = upTo frontier cutoff

theorem cut_of_cutoff (cutoff : C) : Cut opts frontier
    (if cutoff ≠ ⊤ then frontier.retain fun token => token.cost ≤ cutoff else frontier) cutoff := by
  split
  · constructor
    · intro e
      change e ∈ frontier.entries.filter _ ↔ _
      rw [List.mem_filter, decide_eq_true_eq]
    · change (frontier.entries.filter _).length = _
      unfold upTo Frontier.costs
      rw [List.countP_map, List.countP_eq_length_filter]
      rfl
  · next htop =>
    obtain rfl := not_not.mp htop
    constructor
    · exact fun e => ⟨fun he => ⟨he, le_top⟩, fun he => he.1⟩
    · unfold upTo
      rw [List.countP_eq_length.mpr fun c _ => decide_eq_true le_top]
      exact (List.length_map _).symm

theorem length_costs : frontier.costs.length = frontier.entries.length := List.length_map _

theorem upTo_mono {cost cost' : C} (hle : cost ≤ cost') :
    upTo frontier cost ≤ upTo frontier cost' := by
  apply List.countP_mono_left
  intro c _ hc
  exact decide_eq_true ((of_decide_eq_true hc).trans hle)

/- The cutoff is at the beam or, if it is lower, one token above the cap. -/
theorem exists_cutoff (opts : DecodeOptions C) (hnodup : frontier.costs.Nodup) : ∃ cutoff,
    Cut opts frontier (frontier.prune opts).1 cutoff ∧
      (cutoff = best frontier + opts.beam ∨ ∃ k : ℕ, cap opts = k ∧
        k < frontier.entries.length ∧ cutoff ≤ best frontier + opts.beam ∧
          upTo frontier cutoff = k + 1) ∧
      ∀ k : ℕ, cap opts = k → k < frontier.entries.length → upTo frontier cutoff ≤ k + 1 := by
  unfold Frontier.prune
  dsimp only
  refine ⟨_, cut_of_cutoff _, ?_⟩
  split
  · next hlt =>
    obtain ⟨k, hk⟩ := WithTop.ne_top_iff_exists.mp (hlt.trans_le le_top).ne
    have hklt : k < frontier.entries.length := by
      rw [← hk] at hlt
      exact WithTop.coe_lt_coe.mp hlt
    have hrank : (min (max opts.maxActive opts.minActive)
        ((frontier.entries.length - 1 : ℕ) : WithTop ℕ)).untopD 0 = k := by
      have hle : k ≤ frontier.entries.length - 1 := by omega
      have hk' : max opts.maxActive (opts.minActive : WithTop ℕ) = (k : WithTop ℕ) := hk.symm
      rw [hk', min_eq_left (Nat.cast_le.mpr hle)]
      rfl
    rw [hrank]
    have hidx : k < (frontier.costs.insertionSort (· ≤ ·)).length := by
      rwa [List.length_insertionSort, length_costs]
    obtain ⟨nth, hnth⟩ : ∃ nth, (frontier.costs.insertionSort (· ≤ ·))[k]? = some nth :=
      ⟨_, List.getElem?_eq_getElem hidx⟩
    have hcount := upTo_rank hnodup hnth
    rw [hnth, Option.getD_some]
    refine ⟨?_, fun k' hk' _ => ?_⟩
    · rcases le_total (best frontier + opts.beam) nth with hle | hle
      · exact Or.inl (min_eq_left hle)
      · refine Or.inr ⟨k, hk.symm, hklt, min_le_left _ _, ?_⟩
        rw [← hcount]
        exact congrArg (upTo frontier) (min_eq_right hle)
    · obtain rfl : k = k' := WithTop.coe_injective (hk.trans hk')
      rw [← hcount]
      exact upTo_mono (min_le_right _ _)
  · next hnot =>
    refine ⟨Or.inl rfl, fun k hk hlt => absurd ?_ hnot⟩
    change cap opts < _
    rw [hk]
    exact WithTop.coe_lt_coe.mpr hlt

variable (frontier) in
theorem below_of_lt {cost cost' : C} (hlt : cost < cost') :
    upTo frontier cost ≤ below frontier cost' := by
  apply List.countP_mono_left
  intro c _ hc
  exact decide_eq_true ((of_decide_eq_true hc).trans_lt hlt)

theorem cost_le_cutoff {cutoff : C} (hbeam : 0 ≤ opts.beam)
    (hcutoff : cutoff = best frontier + opts.beam ∨ ∃ k : ℕ, cap opts = k ∧
      k < frontier.entries.length ∧ cutoff ≤ best frontier + opts.beam ∧
        upTo frontier cutoff = k + 1) {e : Σ _ : ℕ, Token C} (he : e ∈ frontier.entries)
    (hall : ∀ e' ∈ frontier.entries, e.2.cost ≤ e'.2.cost) : e.2.cost ≤ cutoff := by
  rcases hcutoff with rfl | ⟨k, -, -, -, hcount⟩
  · obtain ⟨e', he', hcost⟩ := exists_best (List.ne_nil_of_mem he)
    rw [← hcost]
    exact (hall e' he').trans (le_add_of_nonneg_right hbeam)
  · have hpos : 0 < upTo frontier cutoff := by omega
    obtain ⟨c, hc, hle⟩ := List.countP_pos_iff.mp hpos
    obtain ⟨e', he', rfl⟩ := List.mem_map.mp hc
    exact (hall e' he').trans (of_decide_eq_true hle)

end Kept

/- The promise is kept if and only if the beam alone keeps it. -/
theorem prune_promised_iff (opts : DecodeOptions C) (frontier : Frontier C)
    (hnodup : frontier.costs.Nodup) (hbeam : 0 ≤ opts.beam) :
    Promised opts frontier (frontier.prune opts).1 ↔
      (inBeam opts frontier : WithTop ℕ) ≤ cap opts ∧
        min opts.minActive frontier.entries.length ≤ inBeam opts frontier := by
  obtain ⟨cutoff, hcut, hcutoff, hatMost⟩ := exists_cutoff opts hnodup
  have hlen := hcut.length
  constructor
  · intro h
    rcases hcutoff with rfl | ⟨k, hk, hlt, hle, hcount⟩
    · unfold inBeam
      rw [← hlen]
      exact ⟨h.atMost, h.atLeast⟩
    · -- one token too many has been kept
      have hcap := h.atMost
      rw [hlen, hcount, hk] at hcap
      have hkk : k + 1 ≤ k := WithTop.coe_le_coe.mp hcap
      omega
  · rintro ⟨hcap, hfloor⟩
    have hsame : upTo frontier cutoff = inBeam opts frontier := by
      rcases hcutoff with rfl | ⟨k, hk, hlt, hle, hcount⟩
      · rfl
      · have hmono : upTo frontier cutoff ≤ inBeam opts frontier := upTo_mono hle
        rw [hk] at hcap
        have hcap' : inBeam opts frontier ≤ k := WithTop.coe_le_coe.mp hcap
        omega
    refine ⟨fun e he => ((hcut.mem e).mp he).1, fun e he e' he' hle => ?_, fun e he hall => ?_,
      ?_, ?_, fun e he hin => ?_⟩
    · exact (hcut.mem e).mpr ⟨he, hle.trans ((hcut.mem e').mp he').2⟩
    · exact (hcut.mem e).mpr ⟨he, cost_le_cutoff hbeam hcutoff he hall⟩
    · rw [hlen, hsame]
      exact hcap
    · rw [hlen, hsame]
      exact hfloor
    · rcases hcutoff with rfl | ⟨k, hk, hlt, hle, hcount⟩
      · exact Or.inl ((hcut.mem e).mpr ⟨he, hin⟩)
      · rcases le_or_gt e.2.cost cutoff with hcost | hcost
        · exact Or.inl ((hcut.mem e).mpr ⟨he, hcost⟩)
        · have hbelow := below_of_lt frontier hcost
          refine Or.inr ?_
          rw [hk]
          exact Nat.cast_le.mpr (by omega)

/- Costs 0 and 1, both in the beam, where only one token may be kept. -/
def crowded : Frontier (WithTop ℕ) := ⟨[⟨0, ⟨0, none⟩⟩, ⟨1, ⟨1, none⟩⟩], by
  unfold List.NodupKeys
  decide⟩

def oneActive : DecodeOptions (WithTop ℕ) := ⟨5, 1, 0⟩

theorem prune_promised_iff_crowded :
    Promised oneActive crowded (crowded.prune oneActive).1 ↔
      (inBeam oneActive crowded : WithTop ℕ) ≤ cap oneActive ∧
        min oneActive.minActive crowded.entries.length ≤ inBeam oneActive crowded :=
  prune_promised_iff oneActive crowded (by decide) (by decide)

/- Costs 0 and 9, of which the beam leaves one where the floor asks for two. -/
def confident : Frontier (WithTop ℕ) := ⟨[⟨0, ⟨0, none⟩⟩, ⟨1, ⟨9, none⟩⟩], by
  unfold List.NodupKeys
  decide⟩

def twoActive : DecodeOptions (WithTop ℕ) := ⟨5, 7, 2⟩

theorem crowded_not_promised :
    ¬ Promised oneActive crowded (crowded.prune oneActive).1 ∧
      ¬ Promised twoActive confident (confident.prune twoActive).1 := by
  constructor
  · intro h
    have hcap : ((crowded.prune oneActive).1.entries.length : WithTop ℕ) ≤ cap oneActive := h.atMost
    exact absurd hcap (by decide)
  · intro h
    have hfloor : min twoActive.minActive confident.entries.length ≤
      (confident.prune twoActive).1.entries.length := h.atLeast
    exact absurd hfloor (by decide)

end Sicada.PruneExact
