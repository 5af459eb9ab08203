import Sicada.CcVisitors
import Sicada.SynchronizePaths

namespace Sicada.SynchronizeExact

open Synchronize SynchronizeRuns SynchronizePaths UnfoldLoop Paths Walk Relations

variable {L W : Type} [ArcLabel L]

/- By how many labels the output is ahead. -/
def delay (p : List (ℕ × Arc L W)) : ℤ := (ostring p).length - (istring p).length

/- No cycle gets one side ahead of the other. -/
def BoundedDelay (ifst : VectorFst L W) : Prop :=
  ∀ s p, IsWalk (Leaves ifst) follow s p s → delay p = 0

/- In step up to some point, and from there on further apart with every label. -/
def Synchronized (p : List (ℕ × Arc L W)) : Prop :=
  ∃ k, (∀ j ≤ k, delay (p.take j) = 0) ∧ ∀ j e, k ≤ j → p[j]? = some e →
    (e.2.ilabel ≠ epsilon ∨ e.2.olabel ≠ epsilon) →
      |delay (p.take j)| < |delay (p.take (j + 1))|

def arcGap (e : ℕ × Arc L W) : ℤ := gap (reading e)

theorem length_shown (label : L) : (shown label).length = if label = epsilon then 0 else 1 := by
  unfold shown
  split <;> rfl

theorem gap_eq (x : L × L × W) : gap x = (shown x.2.1).length - (shown x.1).length := by
  unfold gap
  rw [length_shown, length_shown]
  split <;> split <;> rfl

theorem delay_eq_sum (p : List (ℕ × Arc L W)) : delay p = (p.map arcGap).sum := by
  induction p with
  | nil => rfl
  | cons e p ih =>
    have hgap : arcGap e = (shown e.2.olabel).length - (shown e.2.ilabel).length := gap_eq _
    rw [List.map_cons, List.sum_cons, ← ih, hgap]
    unfold delay
    rw [istring_cons, ostring_cons, List.length_append, List.length_append]
    omega

theorem abs_arcGap_le (e : ℕ × Arc L W) : |arcGap e| ≤ 1 := by
  unfold arcGap gap
  split <;> split <;> decide

section Shape

variable {k n : ℕ} {c : ℤ}

theorem sum_take_of_le {j : ℕ} (hj : j ≤ k) :
    ((List.replicate k (0 : ℤ) ++ List.replicate n c).take j).sum = 0 := by
  rw [List.take_append_of_le_length (by rwa [List.length_replicate]), List.take_replicate,
    List.sum_replicate, smul_zero]

theorem sum_take_add {i : ℕ} (hi : i ≤ n) :
    ((List.replicate k (0 : ℤ) ++ List.replicate n c).take (k + i)).sum = i * c := by
  rw [List.take_append, List.length_replicate, Nat.add_sub_cancel_left,
    List.take_of_length_le (by rw [List.length_replicate]; omega), List.take_replicate,
    Nat.min_eq_left hi, List.sum_append, List.sum_replicate, List.sum_replicate, smul_zero,
    zero_add, nsmul_eq_mul]

theorem synchronized_of_gaps {p : List (ℕ × Arc L W)} (hc : |c| = 1)
    (hgaps : p.map arcGap = List.replicate k 0 ++ List.replicate n c) : Synchronized p := by
  have hdelay : ∀ j, delay (p.take j) =
      ((List.replicate k (0 : ℤ) ++ List.replicate n c).take j).sum := by
    intro j
    rw [delay_eq_sum, List.map_take, hgaps]
  have hlen : p.length = k + n := by
    have hlength := congrArg List.length hgaps
    rwa [List.length_map, List.length_append, List.length_replicate, List.length_replicate]
      at hlength
  refine ⟨k, fun j hj => ?_, fun j e hj he _ => ?_⟩
  · rw [hdelay, sum_take_of_le hj]
  · obtain ⟨i, rfl⟩ := Nat.exists_eq_add_of_le hj
    have hlt : k + i < k + n := hlen ▸ (List.getElem?_eq_some_iff.mp he).1
    rw [hdelay, hdelay, sum_take_add (by omega), Nat.add_assoc, sum_take_add (by omega), abs_mul,
      abs_mul, hc, Nat.abs_cast, Nat.abs_cast]
    omega

end Shape

section Bound

variable {ifst : VectorFst L W}

def labels (ifst : VectorFst L W) : List L :=
  ifst.states.flatMap fun s => s.arcs.flatMap fun arc => [arc.ilabel, arc.olabel]

theorem mem_labels {s : ℕ} {arc : Arc L W} (harc : arc ∈ ifst.arcs s) :
    arc.ilabel ∈ labels ifst ∧ arc.olabel ∈ labels ifst := by
  have hs : s < ifst.numStates := by
    by_contra hle
    rw [VectorFst.arcs_of_le (Nat.le_of_not_lt hle)] at harc
    cases harc
  have hget := List.getElem?_eq_getElem hs
  rw [VectorFst.arcs_of_getElem? hget] at harc
  have hmem : ∀ label ∈ [arc.ilabel, arc.olabel], label ∈ labels ifst := fun label hlabel =>
    List.mem_flatMap.mpr ⟨_, List.getElem_mem hs, List.mem_flatMap.mpr ⟨arc, harc, hlabel⟩⟩
  exact ⟨hmem _ (by simp), hmem _ (by simp)⟩

/- The states that the result may have. -/
structure Within (ifst : VectorFst L W) (held : Held L) : Prop where
  state : ∀ s, held.state = some s → s < ifst.numStates
  istring_le : held.istring.length ≤ ifst.numStates
  ostring_le : held.ostring.length ≤ ifst.numStates
  istring : ∀ label ∈ held.istring, label ∈ labels ifst
  ostring : ∀ label ∈ held.ostring, label ∈ labels ifst

theorem finite_lists (S : List L) (n : ℕ) :
    {string : List L | string.length ≤ n ∧ ∀ label ∈ string, label ∈ S}.Finite := by
  have hfin := (List.finite_length_le {label // label ∈ S} n).image (List.map Subtype.val)
  apply hfin.subset
  rintro string ⟨hlen, hmem⟩
  refine ⟨string.attachWith _ hmem, ?_, List.attachWith_map_subtype_val hmem⟩
  change (string.attachWith _ hmem).length ≤ n
  rwa [List.length_attachWith]

theorem finite_within (ifst : VectorFst L W) : {held | Within ifst held}.Finite := by
  have hstates : (insert none (some '' {s : ℕ | s < ifst.numStates})).Finite :=
    ((Set.finite_lt_nat _).image some).insert none
  have hlists := finite_lists (labels ifst) ifst.numStates
  apply ((hstates.prod (hlists.prod hlists)).image fun x => (⟨x.1, x.2.1, x.2.2⟩ : Held L)).subset
  intro held h
  refine ⟨(held.state, held.istring, held.ostring), ⟨?_, ⟨h.istring_le, h.istring⟩, h.ostring_le,
    h.ostring⟩, rfl⟩
  cases hstate : held.state with
  | none => exact Set.mem_insert _ _
  | some s => exact Set.mem_insert_of_mem _ ⟨s, h.state s hstate, rfl⟩

end Bound

section Reachable

variable [PreSemiring W] [DecidableEq W] {ifst : VectorFst L W} {istart : ℕ}

/- What is held back is how far apart a path has got. -/
structure Kept (ifst : VectorFst L W) (istart : ℕ) (held : Held L) : Prop where
  within : Within ifst held
  residual : Residual held
  walk : ∀ s, held.state = some s → ∃ p, IsWalk (Leaves ifst) follow istart p s ∧
    (held.ostring.length : ℤ) - held.istring.length = delay p

theorem abs_delay_lt (hrange : ifst.InRange) (hbounded : BoundedDelay ifst)
    (hstart : istart < ifst.numStates) {s : ℕ} {p : List (ℕ × Arc L W)}
    (hp : IsWalk (Leaves ifst) follow istart p s) : |delay p| < ifst.numStates := by
  have hcycle : ∀ s p, IsWalk (Leaves ifst) follow s p s → (p.map arcGap).sum = 0 := by
    intro s p hp
    rw [← delay_eq_sum]
    exact hbounded s p hp
  have hstep : ∀ s e, s ∈ Finset.range ifst.numStates → Leaves ifst s e →
      follow s e ∈ Finset.range ifst.numStates := fun s e _ he =>
    Finset.mem_range.mpr (hrange.arcs s e.2 (List.mem_of_getElem? he))
  have hlt := abs_sum_lt_card abs_arcGap_le hcycle hstep hp (Finset.mem_range.mpr hstart)
  rwa [← delay_eq_sum, Finset.card_range] at hlt

theorem kept_heldMove (hrange : ifst.InRange) (hbounded : BoundedDelay ifst)
    (hstart : istart < ifst.numStates) {held : Held L} (h : Kept ifst istart held) {s i : ℕ}
    (hstate : held.state = some s) {arc : Arc L W} (harc : (ifst.arcs s)[i]? = some arc) :
    Kept ifst istart (heldMove held arc).dest := by
  obtain ⟨hmoves, hbalance⟩ := moves_heldMove h.residual arc
  have hnext := heldMove_state held arc
  obtain ⟨p, hp, hdelay⟩ := h.walk s hstate
  have hmem := List.mem_of_getElem? harc
  have hwalk : IsWalk (Leaves ifst) follow istart (p ++ [(i, arc)]) arc.nextstate :=
    isWalk_append.mpr ⟨s, hp, harc, rfl⟩
  have hshown : (shown (heldMove held arc).ilabel).length =
      (shown (heldMove held arc).olabel).length := by
    rw [length_shown, length_shown]
    simp only [hbalance]
  have hi := congrArg List.length hmoves.istring
  have ho := congrArg List.length hmoves.ostring
  rw [List.length_append, List.length_append] at hi ho
  have hdelay' : ((heldMove held arc).dest.ostring.length : ℤ) -
      (heldMove held arc).dest.istring.length = delay (p ++ [(i, arc)]) := by
    have hgap : arcGap (i, arc) = (shown arc.olabel).length - (shown arc.ilabel).length :=
      gap_eq _
    rw [delay_eq_sum, List.map_append, List.sum_append, ← delay_eq_sum, ← hdelay,
      List.map_singleton, List.sum_singleton, hgap]
    omega
  have hlt := abs_delay_lt hrange hbounded hstart hwalk
  rw [← hdelay', abs_lt] at hlt
  obtain ⟨hilabel, holabel⟩ := mem_labels hmem
  have hlabel : ∀ {string : List L} {label : L}, (∀ l ∈ string, l ∈ labels ifst) →
      label ∈ labels ifst → ∀ l ∈ string ++ shown label, l ∈ labels ifst := by
    intro string label hstring hin l hl
    rcases List.mem_append.mp hl with hl | hl
    · exact hstring l hl
    · unfold shown at hl
      split at hl
      · cases hl
      · rwa [List.mem_singleton.mp hl]
  refine ⟨⟨fun t ht => ?_, ?_, ?_, fun l hl => ?_, fun l hl => ?_⟩, hmoves.residual,
    fun t ht => ?_⟩
  · rw [hnext] at ht
    rw [← Option.some.inj ht]
    exact hrange.arcs s arc hmem
  · rcases hmoves.residual.either with hnil | hnil
    · rw [hnil]
      exact Nat.zero_le _
    · rw [hnil, List.length_nil] at hlt
      omega
  · rcases hmoves.residual.either with hnil | hnil
    · rw [hnil, List.length_nil] at hlt
      omega
    · rw [hnil]
      exact Nat.zero_le _
  · apply hlabel h.within.istring hilabel
    rw [← hmoves.istring]
    exact List.mem_append_right _ hl
  · apply hlabel h.within.ostring holabel
    rw [← hmoves.ostring]
    exact List.mem_append_right _ hl
  · rw [hnext] at ht
    rw [← Option.some.inj ht]
    exact ⟨_, hwalk, hdelay'⟩

theorem kept_payMove {held : Held L} (h : Kept ifst istart held) :
    Kept ifst istart (payMove ifst held).dest := by
  have hle : ∀ string : List L, string.tail.length ≤ string.length := fun string => by
    rw [List.length_tail]
    exact Nat.sub_le _ _
  refine ⟨⟨fun t ht => ?_, (hle _).trans h.within.istring_le, (hle _).trans h.within.ostring_le,
    fun l hl => h.within.istring l (List.mem_of_mem_tail hl),
    fun l hl => h.within.ostring l (List.mem_of_mem_tail hl)⟩,
    (moves_payMove ifst h.residual).residual, fun t ht => ?_⟩
  · cases ht
  · cases ht

theorem kept_of_reached (hrange : ifst.InRange) (hbounded : BoundedDelay ifst)
    (hstart : istart < ifst.numStates) {held : Held L}
    (hreach : Relation.ReflTransGen (Leads (heldOut ifst)) ⟨some istart, [], []⟩ held) :
    Kept ifst istart held := by
  induction hreach with
  | refl =>
    refine ⟨⟨fun t ht => ?_, Nat.zero_le _, Nat.zero_le _, fun l hl => ?_, fun l hl => ?_⟩,
      ⟨Or.inl rfl, List.not_mem_nil, List.not_mem_nil⟩, fun t ht => ?_⟩
    · rwa [← Option.some.inj ht]
    · cases hl
    · cases hl
    · rw [← Option.some.inj ht]
      exact ⟨[], rfl, rfl⟩
  | tail _ hleads ih =>
    obtain ⟨m, hm, rfl⟩ := hleads
    obtain ⟨i, hi⟩ := List.mem_iff_getElem?.mp hm
    have htaken := (taken_iff (x := (i, m))).mp hi
    rcases htaken with ⟨arc, harc, rfl⟩ | ⟨heq, -, -⟩
    · unfold heldArcs at harc
      dsimp only at harc
      split at harc
      · next s hstate => exact kept_heldMove hrange hbounded hstart ih hstate harc
      · cases harc
    · rw [(Prod.mk.inj heq).2]
      exact kept_payMove ih

end Reachable

section Main

variable [PreSemiring W] [DecidableEq W] {ifst : VectorFst L W}

theorem synchronize_mono {fuel fuel' : ℕ} (hle : fuel ≤ fuel') {ofst res : VectorFst L W}
    (h : synchronize fuel ifst ofst = some res) : synchronize fuel' ifst ofst = some res := by
  unfold synchronize at h ⊢
  cases hstart : ifst.start with
  | none =>
    rw [hstart] at h
    exact h
  | some istart =>
    rw [hstart] at h
    dsimp only at h ⊢
    obtain ⟨l, hrun, hres⟩ := Option.map_eq_some_iff.mp h
    rw [Loop.runLoop_mono hle hrun]
    exact congrArg some hres

/- What the accepting paths of a result are to those of the FST it was made from. -/
structure Follows (ifst res : VectorFst L W)
    (source : List (ℕ × Arc L W) → List (ℕ × Arc L W)) : Prop where
  bijOn : Set.BijOn source (acceptingPaths res) (acceptingPaths ifst)
  strings : ∀ p ∈ acceptingPaths res,
    istring (source p) = istring p ∧ ostring (source p) = ostring p
  weight : ∀ p ∈ acceptingPaths res, weightOf ifst (source p) = weightOf res p
  synchronized : ∀ p ∈ acceptingPaths res, Synchronized p

theorem follows_of_unfolded {istart : ℕ} (hstart : ifst.start = some istart)
    {elements : List (Held L)} {res : VectorFst L W}
    (h : Unfolded (heldOut ifst) (heldFinal ifst) ⟨some istart, [], []⟩ elements res) :
    ∃ source, Follows ifst res source := by
  obtain ⟨turn, hbij, hturn⟩ := h.exists_turn
  have hresidual : Residual (⟨some istart, [], []⟩ : Held L) :=
    ⟨Or.inl rfl, List.not_mem_nil, List.not_mem_nil⟩
  have hpaths := acceptingPaths_of_some hstart
  by_cases hone : (1 : W) = 0
  · -- every weight is zero, so that nothing is accepted
    have hzero : ∀ w : W, w = 0 := fun w => by rw [← mul_one w, hone, mul_zero]
    have hnone : ∀ fst : VectorFst L W, acceptingPaths fst = ∅ := by
      intro fst
      ext p
      constructor
      · rintro ⟨s, -, t, -, ht⟩
        exact ht (hzero _)
      · exact fun hp => hp.elim
    refine ⟨id, ?_, ?_, ?_, ?_⟩
    · rw [hnone, hnone]
      exact Set.bijOn_id ∅
    all_goals
      rw [hnone]
      exact fun p hp => hp.elim
  · have hwalks := bijOn_arcsOf ifst hone hresidual rfl
    have hshows : ∀ p ∈ acceptingPaths res, Shows ifst ⟨some istart, [], []⟩ istart
        (arcsOf ifst ⟨some istart, [], []⟩ (turn p)) (turn p) := fun p hp =>
      shows_arcsOf hone hresidual rfl (hbij.mapsTo hp)
    refine ⟨fun p => arcsOf ifst ⟨some istart, [], []⟩ (turn p), ?_, fun p hp => ?_, fun p hp => ?_,
      fun p hp => ?_⟩
    · rw [hpaths]
      exact hwalks.comp hbij
    · obtain ⟨hread, -⟩ := hturn p hp
      rw [istring_eq p, ostring_eq p, ← hread, (hshows p hp).inputs, (hshows p hp).outputs]
      exact ⟨rfl, rfl⟩
    · obtain ⟨hread, hlast⟩ := hturn p hp
      have hweights : (turn p).map (·.2.weight) = p.map (·.2.weight) := by
        have hmap := congrArg (List.map (·.2.2)) hread
        rw [List.map_map, List.map_map] at hmap
        exact hmap
      have hweight := (hshows p hp).weight
      unfold moveWeight at hweight
      rw [hweights, ← hlast] at hweight
      have hlast' : lastWeight ifst (arcsOf ifst ⟨some istart, [], []⟩ (turn p)) =
          ifst.finalWeight (walkEnd follow istart (arcsOf ifst ⟨some istart, [], []⟩ (turn p))) := by
        unfold lastWeight
        rw [hstart]
        rfl
      unfold weightOf
      rw [hlast']
      exact hweight.symm
    · obtain ⟨k, n, c, hc, hgaps⟩ := (hshows p hp).gaps
      apply synchronized_of_gaps hc (k := k) (n := n)
      rw [← hgaps]
      have hmap := congrArg (List.map gap) (hturn p hp).1
      rw [List.map_map, List.map_map] at hmap
      exact hmap.symm

theorem follows_of_none {res : VectorFst L W} (hstart : ifst.start = none)
    (hres : res.start = none) : Follows ifst res id := by
  constructor
  · rw [acceptingPaths_of_none hstart, acceptingPaths_of_none hres]
    exact Set.bijOn_id ∅
  all_goals
    rw [acceptingPaths_of_none hres]
    exact fun p hp => hp.elim

theorem exists_follows (hrange : ifst.InRange) (hbounded : BoundedDelay ifst)
    (ofst : VectorFst L W) : ∃ fuel res, synchronize fuel ifst ofst = some res ∧
      ∃ source, Follows ifst res source := by
  cases hstart : ifst.start with
  | none =>
    refine ⟨0, ofst.deleteAllStates.setProperties
      (synchronizeProperties (ifst.properties &&& kFstProperties)) kFstProperties, ?_, id,
      follows_of_none hstart rfl⟩
    unfold synchronize
    rw [hstart]
  | some istart =>
    have hlt := hrange.start istart hstart
    have hfin := finite_within ifst
    obtain ⟨u, hrun, hinv, hnext⟩ := unfold_terminates (heldFinal ifst) hfin
      (fun held hreach => (kept_of_reached hrange hbounded hlt hreach).within)
      (Nat.lt_succ_self hfin.toFinset.card) ofst
    have hrel := synchronize_eq hstart (hfin.toFinset.card + 1) ofst
    rw [hrun] at hrel
    generalize hres : synchronize (hfin.toFinset.card + 1) ifst ofst = result at hrel
    cases hrel with
    | some hreads =>
      obtain ⟨l, hl, rfl⟩ := hreads
      rw [← hl.ofst] at hres
      exact ⟨_, _, hres, follows_of_unfolded hstart (hinv.unfolded hnext _ _)⟩

variable [TopologicalSpace W]

theorem synchronize_exact (hrange : ifst.InRange) (hbounded : BoundedDelay ifst)
    (ofst : VectorFst L W) : ∃ fuel res, (∀ fuel' ≥ fuel, synchronize fuel' ifst ofst = some res) ∧
      (∃ source, Follows ifst res source) ∧ ∀ i o w, Gives ifst i o w ↔ Gives res i o w := by
  obtain ⟨fuel, res, hres, source, hfollows⟩ := exists_follows hrange hbounded ofst
  refine ⟨fuel, res, fun fuel' hle => synchronize_mono hle hres, ⟨source, hfollows⟩,
    fun i o w => ?_⟩
  exact gives_of_bijOn hfollows.bijOn hfollows.strings hfollows.weight

/- What gets ahead by as much as its end is ahead of its start gains nothing around a cycle. -/
theorem boundedDelay_of_potential (ahead : ℕ → ℤ)
    (h : ∀ s, ∀ arc ∈ ifst.arcs s, gap (arc.ilabel, arc.olabel, arc.weight) =
      ahead arc.nextstate - ahead s) : BoundedDelay ifst := by
  have hwalk : ∀ s t p, IsWalk (Leaves ifst) follow s p t → delay p = ahead t - ahead s := by
    intro s t p hp
    induction p generalizing s with
    | nil =>
      obtain rfl : s = t := hp
      exact (sub_self _).symm
    | cons e p ih =>
      have hgap : arcGap e = ahead e.2.nextstate - ahead s := h s e.2 (List.mem_of_getElem? hp.1)
      have hrest := ih _ hp.2
      rw [delay_eq_sum] at hrest ⊢
      rw [List.map_cons, List.sum_cons, hrest, hgap]
      exact sub_add_sub_cancel' _ _ _
  intro s p hp
  rw [hwalk s s p hp, sub_self]

/- A cycle on which the output lags one behind. -/
def lagging : VectorFst ℤ ℕ := ⟨[⟨3, [⟨1, 0, 2, 1⟩], 0, 0⟩, ⟨0, [⟨0, 2, 1, 0⟩], 0, 0⟩], some 0, 0⟩

theorem synchronize_exact_lagging : ∃ fuel res,
    (∀ fuel' ≥ fuel, synchronize fuel' lagging VectorFst.new = some res) ∧
      (∃ source, Follows lagging res source) ∧
        ∀ i o w, Gives lagging i o w ↔ Gives res i o w := by
  have harcs : ∀ s, ∀ arc ∈ lagging.arcs s, arc.nextstate < lagging.numStates :=
    VectorFst.forall_arcs_of_lt (P := fun _ arc => arc.nextstate < lagging.numStates) (by decide)
  have hbounded : BoundedDelay lagging := by
    apply boundedDelay_of_potential fun s => -s
    apply VectorFst.forall_arcs_of_lt (P := fun s arc =>
      gap (arc.ilabel, arc.olabel, arc.weight) = -(arc.nextstate : ℤ) - -(s : ℤ))
    decide
  exact synchronize_exact ⟨by decide, harcs⟩ hbounded VectorFst.new

end Main

end Sicada.SynchronizeExact
