import Sicada.Decode.Align
import Sicada.Decode.BestPathExact
import Sicada.Decode.Reach

namespace Sicada.AlignExact

open ArcLabel (toI64 fromI64)
open Trellis Paths Walk Costs AlignChain ListLemmas

variable {L L' C : Type} [ArcLabel L] [ArcLabel L'] [LinearOrderedAddCommMonoidWithTop C]

section Errors

/- A run that reports nothing and does not panic. -/
theorem bind_eq_ok {α β : Type} {x : ExceptT String Option α} {f : α → ExceptT String Option β}
    {b : β} : (x >>= f) = (some (.ok b) : Option (Except String β)) ↔
      ∃ a, x = (some (.ok a) : Option (Except String α)) ∧
        f a = (some (.ok b) : Option (Except String β)) := by
  rcases x with _ | e | a
  · constructor
    · rintro ⟨⟩
    · rintro ⟨a, ⟨⟩, -⟩
  · constructor
    · rintro ⟨⟩
    · rintro ⟨a, ⟨⟩, -⟩
  · constructor
    · intro h
      exact ⟨a, rfl, h⟩
    · rintro ⟨a', ha, h⟩
      cases ha
      exact h

theorem pure_eq_ok {α : Type} {a b : α} :
    (pure a : ExceptT String Option α) = (some (.ok b) : Option (Except String α)) ↔ a = b := by
  constructor
  · rintro ⟨⟩
    rfl
  · rintro rfl
    rfl

theorem fits_eq_ok {value : ℤ} {what : String} {label : L} :
    fits (L := L) value what = (some (.ok label) : Option (Except String L)) ↔
      fromI64 value = some label := by
  unfold fits
  cases fromI64 (L := L) value with
  | none =>
    constructor
    · rintro ⟨⟩
    · rintro ⟨⟩
  | some label' =>
    dsimp only
    rw [pure_eq_ok, Option.some.injEq]

theorem input_eq_ok {labelOffset : ℤ} {column : ℕ} {label : L}
    (h : input (L := L) labelOffset column = (some (.ok label) : Option (Except String L))) :
    fromI64 (labelOffset + column) = some label := by
  unfold input at h
  split at h
  · exact fits_eq_ok.mp h
  · cases h

def isOk {α : Type} (x : Option (Except String α)) : Bool :=
  match x with
  | some (.ok _) => true
  | _ => false

theorem exists_of_isOk {α : Type} {x : Option (Except String α)} (h : isOk x = true) :
    ∃ a, x = some (.ok a) := by
  rcases x with _ | e | a
  · cases h
  · cases h
  · exact ⟨a, rfl⟩

end Errors

variable {i : ℕ} {chain : AlignChain C} {moves : List (Fin 4 × ℕ)}

section Topology

variable (chain : AlignChain C) (labelOffset : ℤ)

/- An arc of the chain that a transition stands for. -/
structure ChainArc (i : ℕ) (k : Fin 4) (column : ℕ) (arc : Arc L (Tropical C)) : Prop where
  label : fromI64 (labelOffset + column) = some arc.ilabel
  topology :
    (k = 0 ∧ column = chain.blank ∧ arc.weight = 1 ∧ arc.nextstate = i) ∨
    (k = 1 ∧ 0 < i ∧ column = chain.phone i ∧ arc.weight = 1 ∧ arc.nextstate = i) ∨
    (k = 2 ∧ i < chain.phones.length ∧ column = chain.phone (i + 1) ∧ arc.weight = 1 ∧
      arc.nextstate = i + 1) ∨
    (k = 3 ∧ i < chain.phones.length ∧ chain.skip (i + 1) ≠ ⊤ ∧ column = chain.blank ∧
      arc.weight = Tropical.trop (chain.skip (i + 1)) ∧ arc.nextstate = i + 1)

/- The transitions that leave a state. -/
def Legal (i : ℕ) (k : Fin 4) : Prop :=
  (k = 1 → 0 < i) ∧ (k = 2 → i < chain.phones.length) ∧
    (k = 3 → i < chain.phones.length ∧ chain.skip (i + 1) ≠ ⊤)

variable {chain labelOffset}

theorem heldArcs_spec {held : List (Arc L (Tropical C))} (h : chain.heldArcs labelOffset i =
      (some (.ok held) : Option (Except String (List (Arc L (Tropical C)))))) :
    (∀ arc ∈ held, ∃ column, ChainArc chain labelOffset i 1 column arc) ∧
      (0 < i → ∃ arc ∈ held, ∃ column, ChainArc chain labelOffset i 1 column arc) := by
  unfold heldArcs at h
  split at h
  · next hi =>
    obtain ⟨label, hlabel, h⟩ := bind_eq_ok.mp h
    obtain ⟨sounding, -, h⟩ := bind_eq_ok.mp h
    obtain rfl := pure_eq_ok.mp h
    have harc : ChainArc chain labelOffset i 1 (chain.phone i)
        (⟨label, sounding, 1, i⟩ : Arc L (Tropical C)) :=
      ⟨input_eq_ok hlabel, Or.inr (Or.inl ⟨rfl, hi, rfl, rfl, rfl⟩)⟩
    refine ⟨?_, fun _ => ⟨_, List.mem_singleton_self _, _, harc⟩⟩
    intro arc hmem
    rw [List.mem_singleton.mp hmem]
    exact ⟨_, harc⟩
  · next hi =>
    obtain rfl := pure_eq_ok.mp h
    exact ⟨fun arc hmem => absurd hmem List.not_mem_nil, fun hpos => absurd hpos hi⟩

theorem onwardArcs_spec {blank silent : L} {onward : List (Arc L (Tropical C))}
    (hblank : fromI64 (labelOffset + chain.blank) = some blank)
    (h : chain.onwardArcs labelOffset blank silent i =
      (some (.ok onward) : Option (Except String (List (Arc L (Tropical C)))))) :
    (∀ arc ∈ onward, ∃ k column, ChainArc chain labelOffset i k column arc) ∧
      (i < chain.phones.length →
        ∃ arc ∈ onward, ∃ column, ChainArc chain labelOffset i 2 column arc) ∧
      (i < chain.phones.length → chain.skip (i + 1) ≠ ⊤ →
        ∃ arc ∈ onward, ∃ column, ChainArc chain labelOffset i 3 column arc) := by
  unfold onwardArcs at h
  split at h
  · next hi =>
    obtain ⟨label, hlabel, h⟩ := bind_eq_ok.mp h
    obtain ⟨sounding, -, h⟩ := bind_eq_ok.mp h
    obtain rfl := pure_eq_ok.mp h
    have hcommit : ChainArc chain labelOffset i 2 (chain.phone (i + 1))
        (⟨label, sounding, 1, i + 1⟩ : Arc L (Tropical C)) :=
      ⟨input_eq_ok hlabel, Or.inr (Or.inr (Or.inl ⟨rfl, hi, rfl, rfl, rfl⟩))⟩
    have hskip : chain.skip (i + 1) ≠ ⊤ → ChainArc chain labelOffset i 3 chain.blank
        (⟨blank, silent, Tropical.trop (chain.skip (i + 1)), i + 1⟩ : Arc L (Tropical C)) :=
      fun hcost => ⟨hblank, Or.inr (Or.inr (Or.inr ⟨rfl, hi, hcost, rfl, rfl, rfl⟩))⟩
    refine ⟨?_, fun _ => ⟨_, List.mem_cons_self, _, hcommit⟩, fun _ hcost =>
      ⟨_, List.mem_cons_of_mem _ ?_, _, hskip hcost⟩⟩
    · intro arc hmem
      rcases List.mem_cons.mp hmem with rfl | hmem
      · exact ⟨_, _, hcommit⟩
      · split at hmem
        · cases hmem
        · next hcost =>
          rw [List.mem_singleton.mp hmem]
          exact ⟨_, _, hskip hcost⟩
    · rw [if_neg hcost]
      exact List.mem_singleton_self _
  · next hi =>
    obtain rfl := pure_eq_ok.mp h
    exact ⟨fun arc hmem => absurd hmem List.not_mem_nil, fun hlt => absurd hlt hi,
      fun hlt => absurd hlt hi⟩

theorem chainArcs_spec {blank silent : L} {arcs : List (Arc L (Tropical C))}
    (hblank : fromI64 (labelOffset + chain.blank) = some blank)
    (h : chain.chainArcs labelOffset blank silent i =
      (some (.ok arcs) : Option (Except String (List (Arc L (Tropical C)))))) :
    (∀ arc ∈ arcs, ∃ k column, ChainArc chain labelOffset i k column arc) ∧
      ∀ k, Legal chain i k → ∃ arc ∈ arcs, ∃ column, ChainArc chain labelOffset i k column arc := by
  unfold chainArcs at h
  obtain ⟨held, hheld, h⟩ := bind_eq_ok.mp h
  obtain ⟨onward, honward, h⟩ := bind_eq_ok.mp h
  obtain rfl := pure_eq_ok.mp h
  obtain ⟨hheld, hhold⟩ := heldArcs_spec hheld
  obtain ⟨honward, hcommit, hskip⟩ := onwardArcs_spec hblank honward
  have hwait : ChainArc chain labelOffset i 0 chain.blank
      (⟨blank, silent, 1, i⟩ : Arc L (Tropical C)) := ⟨hblank, Or.inl ⟨rfl, rfl, rfl, rfl⟩⟩
  constructor
  · intro arc hmem
    rcases List.mem_cons.mp hmem with rfl | hmem
    · exact ⟨_, _, hwait⟩
    · rcases List.mem_append.mp hmem with hmem | hmem
      · exact ⟨_, hheld arc hmem⟩
      · exact honward arc hmem
  · intro k hlegal
    match k with
    | 0 => exact ⟨_, List.mem_cons_self, _, hwait⟩
    | 1 =>
      obtain ⟨arc, hmem, harc⟩ := hhold (hlegal.1 rfl)
      exact ⟨arc, List.mem_cons_of_mem _ (List.mem_append_left _ hmem), harc⟩
    | 2 =>
      obtain ⟨arc, hmem, harc⟩ := hcommit (hlegal.2.1 rfl)
      exact ⟨arc, List.mem_cons_of_mem _ (List.mem_append_right _ hmem), harc⟩
    | 3 =>
      obtain ⟨arc, hmem, harc⟩ := hskip (hlegal.2.2 rfl).1 (hlegal.2.2 rfl).2
      exact ⟨arc, List.mem_cons_of_mem _ (List.mem_append_right _ hmem), harc⟩

/- The FST that a chain describes. -/
structure Describes (chain : AlignChain C) (labelOffset : ℤ) (fst : VectorFst L (Tropical C)) :
    Prop where
  start : fst.start = some 0
  final : ∀ s, fst.finalWeight s = if s = chain.phones.length then 1 else 0
  sound : ∀ s, ∀ arc ∈ fst.arcs s, s ≤ chain.phones.length ∧
    ∃ k column, ChainArc chain labelOffset s k column arc
  complete : ∀ s ≤ chain.phones.length, ∀ k, Legal chain s k →
    ∃ arc ∈ fst.arcs s, ∃ column, ChainArc chain labelOffset s k column arc

/- The states before `m` have their arcs. -/
structure BuiltTo (chain : AlignChain C) (labelOffset : ℤ) (m : ℕ)
    (fst : VectorFst L (Tropical C)) : Prop where
  numStates : fst.numStates = chain.phones.length + 1
  start : fst.start = some 0
  final : ∀ s, fst.finalWeight s = if s = chain.phones.length then 1 else 0
  sound : ∀ s, ∀ arc ∈ fst.arcs s, s < m ∧ ∃ k column, ChainArc chain labelOffset s k column arc
  complete : ∀ s < m, ∀ k, Legal chain s k →
    ∃ arc ∈ fst.arcs s, ∃ column, ChainArc chain labelOffset s k column arc

theorem builtTo_succ {blank silent : L} {m : ℕ} {fst fst' : VectorFst L (Tropical C)}
    (hblank : fromI64 (labelOffset + chain.blank) = some blank)
    (hm : m ≤ chain.phones.length) (hbuilt : BuiltTo chain labelOffset m fst)
    (h : chain.addChainArcs labelOffset blank silent fst m =
      (some (.ok fst') : Option (Except String (VectorFst L (Tropical C))))) :
    BuiltTo chain labelOffset (m + 1) fst' := by
  unfold addChainArcs at h
  obtain ⟨arcs, harcs, h⟩ := bind_eq_ok.mp h
  obtain rfl := pure_eq_ok.mp h
  obtain ⟨hsound, hcomplete⟩ := chainArcs_spec hblank harcs
  have hlt : m < fst.numStates := by
    rw [hbuilt.numStates]
    omega
  have hempty : fst.arcs m = [] := List.eq_nil_iff_forall_not_mem.mpr fun arc hmem =>
    absurd (hbuilt.sound m arc hmem).1 (Nat.lt_irrefl m)
  constructor
  · rw [VectorFst.numStates_addArcs]
    exact hbuilt.numStates
  · rw [VectorFst.start_addArcs]
    exact hbuilt.start
  · rw [VectorFst.finalWeight_addArcs]
    exact hbuilt.final
  · intro s arc hmem
    rw [VectorFst.arcs_addArcs hlt, hempty, List.nil_append] at hmem
    by_cases hs : s = m
    · subst hs
      rw [Function.update_self] at hmem
      exact ⟨Nat.lt_succ_self s, hsound arc hmem⟩
    · rw [Function.update_of_ne hs] at hmem
      obtain ⟨hlt, harc⟩ := hbuilt.sound s arc hmem
      exact ⟨Nat.lt_succ_of_lt hlt, harc⟩
  · intro s hs k hlegal
    rw [VectorFst.arcs_addArcs hlt, hempty, List.nil_append]
    by_cases hsm : s = m
    · subst hsm
      rw [Function.update_self]
      exact hcomplete k hlegal
    · rw [Function.update_of_ne hsm]
      exact hbuilt.complete s (by omega) k hlegal

theorem builtTo_foldlM {blank silent : L} {m : ℕ} {fst fst' : VectorFst L (Tropical C)}
    (hblank : fromI64 (labelOffset + chain.blank) = some blank)
    (hm : m ≤ chain.phones.length + 1) (hbuilt : BuiltTo chain labelOffset 0 fst)
    (h : (List.range m).foldlM (chain.addChainArcs labelOffset blank silent) fst =
      (some (.ok fst') : Option (Except String (VectorFst L (Tropical C))))) :
    BuiltTo chain labelOffset m fst' := by
  induction m generalizing fst' with
  | zero =>
    obtain rfl := pure_eq_ok.mp h
    exact hbuilt
  | succ m ih =>
    rw [List.range_succ, List.foldlM_append] at h
    obtain ⟨before, hbefore, h⟩ := bind_eq_ok.mp h
    rw [List.foldlM_cons] at h
    obtain ⟨after, hafter, h⟩ := bind_eq_ok.mp h
    obtain rfl := pure_eq_ok.mp h
    exact builtTo_succ hblank (by omega) (ih (by omega) hbefore) hafter

theorem describes_toFst {fst : VectorFst L (Tropical C)}
    (h : chain.toFst labelOffset = (some (.ok fst) : Option (Except String _))) :
    Describes chain labelOffset fst := by
  unfold toFst at h
  split at h
  · cases h
  · obtain ⟨blank, hblank, h⟩ := bind_eq_ok.mp h
    obtain ⟨silent, -, h⟩ := bind_eq_ok.mp h
    obtain ⟨harcs, hfinal, -, hnum⟩ :=
      VectorFst.growTo_eq (VectorFst.new : VectorFst L (Tropical C)) (chain.phones.length + 1)
    have hempty : ∀ s, (VectorFst.new : VectorFst L (Tropical C)).arcs s = [] := fun s => by
      simp [VectorFst.new, VectorFst.arcs]
    have hzero : ∀ s, (VectorFst.new : VectorFst L (Tropical C)).finalWeight s = 0 := fun s => by
      simp [VectorFst.new, VectorFst.finalWeight]
    have hgrown : ((VectorFst.new : VectorFst L (Tropical C)).growTo
        (chain.phones.length + 1)).numStates = chain.phones.length + 1 := by
      rw [hnum]
      simp [VectorFst.new, VectorFst.numStates]
    have hbuilt := builtTo_foldlM (input_eq_ok hblank) le_rfl (by
      constructor
      · rw [VectorFst.numStates_setFinal]
        exact hgrown
      · rw [VectorFst.start_setFinal]
        rfl
      · intro s
        rw [VectorFst.finalWeight_setFinal]
        · by_cases hs : s = chain.phones.length
          · subst hs
            rw [Function.update_self, if_pos rfl]
          · rw [Function.update_of_ne hs, if_neg hs]
            exact (congrFun hfinal s).trans (hzero s)
        · change chain.phones.length < (VectorFst.growTo _ _).numStates
          rw [hgrown]
          exact Nat.lt_succ_self _
      · intro s arc hmem
        rw [VectorFst.arcs_setFinal] at hmem
        have hnil := (congrFun harcs s).trans (hempty s)
        exact absurd (hnil ▸ hmem : arc ∈ []) List.not_mem_nil
      · intro s hs
        exact absurd hs (Nat.not_lt_zero s)) h
    refine ⟨hbuilt.start, hbuilt.final, fun s arc hmem => ?_, fun s hs => hbuilt.complete s (by omega)⟩
    obtain ⟨hlt, harc⟩ := hbuilt.sound s arc hmem
    exact ⟨Nat.le_of_lt_succ hlt, harc⟩

end Topology

variable {dense : DenseFst L C} {t : ℕ}

section Steps

variable {tr : ChainTrellis L C} {labelOffset : ℤ}

/- How many positions a transition advances. -/
def advanceOf (k : Fin 4) : ℕ := if k = 2 ∨ k = 3 then 1 else 0

theorem columns_lt {numSymbols : ℕ} (h : chain.checkColumns numSymbols = .ok ()) :
    chain.blank < numSymbols ∧ ∀ column ∈ chain.phones, column < numSymbols := by
  unfold checkColumns at h
  dsimp only at h
  split at h
  · next hfind =>
    rw [List.find?_eq_none] at hfind
    have hall : ∀ entry ∈ (none, chain.blank) ::
        chain.phones.zipIdx.map fun phone => (some phone.2, phone.1), entry.2 < numSymbols := by
      intro entry hmem
      have hnot := hfind entry hmem
      simpa using hnot
    refine ⟨hall _ List.mem_cons_self, ?_⟩
    intro column hmem
    obtain ⟨i, hi, rfl⟩ := List.mem_iff_getElem.mp hmem
    refine hall (some i, chain.phones[i]) (List.mem_cons_of_mem _ (List.mem_map.mpr
      ⟨(chain.phones[i], i), ?_, rfl⟩))
    rw [List.mem_zipIdx_iff_getElem?]
    exact List.getElem?_eq_getElem hi
  · cases h

theorem exists_column_of_error {numSymbols : ℕ} {e : String}
    (h : chain.checkColumns numSymbols = .error e) :
    ∃ column ∈ chain.blank :: chain.phones, numSymbols ≤ column := by
  unfold checkColumns at h
  dsimp only at h
  split at h
  · cases h
  · next position column hfind =>
    have hmem := List.mem_of_find?_eq_some hfind
    have hlarge := List.find?_some hfind
    refine ⟨column, ?_, by simpa using hlarge⟩
    rcases List.mem_cons.mp hmem with heq | hmem
    · rw [(Prod.mk.inj heq).2]
      exact List.mem_cons_self
    · obtain ⟨phone, hphone, heq⟩ := List.mem_map.mp hmem
      have hget := List.mem_zipIdx_iff_getElem?.mp hphone
      rw [← (Prod.mk.inj heq).2]
      exact List.mem_cons_of_mem _ (List.mem_of_getElem? hget)

theorem phone_mem (hi : 0 < i) (hle : i ≤ chain.phones.length) :
    chain.phone i ∈ chain.phones := by
  have hlt : i - 1 < chain.phones.length := by omega
  unfold phone
  rw [List.getD_eq_getElem _ _ hlt]
  exact List.getElem_mem hlt

theorem skip_nonneg (chain : AlignChain C) (i : ℕ) : 0 ≤ chain.skip i := by
  unfold skip
  by_cases hlt : i - 1 < chain.skips.length
  · rw [List.getD_eq_getElem _ _ hlt]
    exact chain.skips_nonneg _ (List.getElem_mem hlt)
  · rw [List.getD_eq_default _ _ (Nat.le_of_not_lt hlt)]
    exact le_top

theorem score_ne_top (hfinite : ∀ score ∈ dense.scores, score ≠ ⊤) (ht : t < dense.numFrames)
    {column : ℕ} (hcolumn : column < dense.numSymbols) :
    dense.score t column ≠ ⊤ := by
  have hlt : column < (dense.frame t).length := by rwa [DenseFst.length_frame ht]
  unfold DenseFst.score
  rw [List.getD_eq_getElem _ _ hlt]
  exact hfinite _ (List.mem_of_mem_drop (List.mem_of_mem_take (List.getElem_mem hlt)))

theorem stepsInto_zero (t : ℕ) (k : Fin 4) :
    tr.stepsInto t 0 k = if k = 0 then ⟨0, tr.dense.score t tr.chain.blank⟩ else ⟨0, ⊤⟩ := by
  unfold ChainTrellis.stepsInto
  fin_cases k <;> rfl

theorem stepsInto_pos (t : ℕ) (hi : 0 < i) (k : Fin 4) : tr.stepsInto t i k =
    ⟨advanceOf k,
      (if k = 3 then tr.chain.skip i else 0) + tr.dense.score t
        (if k = 0 ∨ k = 3 then tr.chain.blank else tr.chain.phone i)⟩ := by
  unfold ChainTrellis.stepsInto
  rw [if_neg (by omega)]
  fin_cases k <;> simp [advanceOf]

end Steps

section Arcs

variable {tr : ChainTrellis L C} {labelOffset : ℤ} {i column : ℕ} {k : Fin 4}
  {arc : Arc L' (Tropical C)}

theorem nextstate_of_arc (h : ChainArc tr.chain labelOffset i k column arc) :
    arc.nextstate = i + advanceOf k := by
  rcases h.topology with ⟨rfl, -, -, hnext⟩ | ⟨rfl, -, -, -, hnext⟩ | ⟨rfl, -, -, -, hnext⟩ |
    ⟨rfl, -, -, -, -, hnext⟩ <;> exact hnext

/- The transition into the state that an arc leads to costs what the arc and its column do. -/
theorem step_of_arc (h : ChainArc tr.chain labelOffset i k column arc) (t : ℕ) :
    tr.stepsInto t arc.nextstate k =
      ⟨advanceOf k, arc.weight.untrop + tr.dense.score t column⟩ := by
  rcases h.topology with ⟨rfl, rfl, hweight, hnext⟩ | ⟨rfl, hi, rfl, hweight, hnext⟩ |
    ⟨rfl, hi, rfl, hweight, hnext⟩ | ⟨rfl, hi, -, rfl, hweight, hnext⟩
  · rw [hnext, hweight]
    rcases Nat.eq_zero_or_pos i with rfl | hpos
    · rw [stepsInto_zero]
      simp [advanceOf]
    · rw [stepsInto_pos t hpos]
      simp [advanceOf]
  · rw [hnext, hweight, stepsInto_pos t hi]
    simp
  · rw [hnext, hweight, stepsInto_pos t (Nat.succ_pos i)]
    simp
  · rw [hnext, hweight, stepsInto_pos t (Nat.succ_pos i)]
    simp

theorem bounds_of_arc [Nontrivial C] (h : ChainArc tr.chain labelOffset i k column arc)
    (hi : i ≤ tr.chain.phones.length) : column < tr.dense.numSymbols ∧
      arc.nextstate ≤ tr.chain.phones.length ∧ arc.weight.untrop ≠ ⊤ := by
  obtain ⟨hblank, hphones⟩ := columns_lt tr.columns_ok
  have htop : (0 : C) ≠ ⊤ := zero_ne_top
  rcases h.topology with ⟨rfl, rfl, hweight, hnext⟩ | ⟨rfl, hpos, rfl, hweight, hnext⟩ |
    ⟨rfl, hlt, rfl, hweight, hnext⟩ | ⟨rfl, hlt, hskip, rfl, hweight, hnext⟩
  · rw [hnext, hweight]
    exact ⟨hblank, hi, htop⟩
  · rw [hnext, hweight]
    exact ⟨hphones _ (phone_mem hpos hi), hi, htop⟩
  · rw [hnext, hweight]
    exact ⟨hphones _ (phone_mem (Nat.succ_pos i) hlt), hlt, htop⟩
  · rw [hnext, hweight]
    exact ⟨hblank, hlt, hskip⟩

theorem legal_of_step {j : ℕ} (hcost : (tr.stepsInto t j k).cost ≠ ⊤)
    (hlands : i + (tr.stepsInto t j k).advance = j) (hj : j ≤ tr.chain.phones.length) :
    Legal tr.chain i k ∧ j = i + advanceOf k := by
  rcases Nat.eq_zero_or_pos j with rfl | hpos
  · rw [stepsInto_zero] at hcost hlands
    by_cases hk : k = 0
    · subst hk
      rw [if_pos rfl, Nat.add_zero] at hlands
      subst hlands
      refine ⟨⟨fun h => ?_, fun h => ?_, fun h => ?_⟩, rfl⟩ <;> exact absurd h (by decide)
    · rw [if_neg hk] at hcost
      exact absurd rfl hcost
  · rw [stepsInto_pos t hpos] at hcost hlands
    dsimp only at hcost hlands
    refine ⟨⟨?_, ?_, ?_⟩, hlands.symm⟩
    · rintro rfl
      rw [← hlands] at hpos
      simpa [advanceOf] using hpos
    · rintro rfl
      rw [show advanceOf 2 = 1 from rfl] at hlands
      omega
    · rintro rfl
      rw [show advanceOf 3 = 1 from rfl] at hlands
      refine ⟨by omega, ?_⟩
      rw [if_pos rfl] at hcost
      rw [hlands]
      exact fun htop => hcost (by rw [htop, top_add])

/- The column that an input label stands for. -/
def inputColumn (labelOffset : ℤ) (label : L') : ℕ :=
  ((toI64 label).map fun key => (key - labelOffset).toNat).getD 0

theorem inputColumn_of_arc (h : ChainArc tr.chain labelOffset i k column arc) :
    inputColumn labelOffset arc.ilabel = column := by
  have hkey := (ArcLabel.fromI64_eq_some _ _).mp h.label
  simp [inputColumn, hkey]

end Arcs

section Routes

variable {tr : ChainTrellis L C} {labelOffset : ℤ} {fst : VectorFst L' (Tropical C)}

/- What the frames from `t` on pay for the input labels of a path. -/
def scoresAlong (dense : DenseFst L C) (labelOffset : ℤ) (t : ℕ)
    (p : List (ℕ × Arc L' (Tropical C))) : C :=
  ((p.zipIdx t).map fun e => dense.score e.2 (inputColumn labelOffset e.1.2.ilabel)).sum

/- The cost of a path against the matrix: its arcs, and the score of each frame's input column. -/
def alignCost (dense : DenseFst L C) (labelOffset : ℤ) (fst : VectorFst L' (Tropical C))
    (p : List (ℕ × Arc L' (Tropical C))) : C :=
  (pathWeight fst p).untrop + scoresAlong dense labelOffset 0 p

theorem scoresAlong_cons (dense : DenseFst L C) (t : ℕ) (e : ℕ × Arc L' (Tropical C))
    (p : List (ℕ × Arc L' (Tropical C))) : scoresAlong dense labelOffset t (e :: p) =
      dense.score t (inputColumn labelOffset e.2.ilabel) +
        scoresAlong dense labelOffset (t + 1) p := by
  simp [scoresAlong]

theorem scoresAlong_append (dense : DenseFst L C) (t : ℕ) (p : List (ℕ × Arc L' (Tropical C)))
    (e : ℕ × Arc L' (Tropical C)) : scoresAlong dense labelOffset t (p ++ [e]) =
      scoresAlong dense labelOffset t p +
        dense.score (t + p.length) (inputColumn labelOffset e.2.ilabel) := by
  simp [scoresAlong, List.zipIdx_append]

theorem sum_stepCosts_append (h : tr.toTrellis.PathTo (· ≠ ⊤) t i moves) (k : Fin 4) (j : ℕ) :
    (tr.toTrellis.stepCosts (moves ++ [(k, j)])).sum =
      (tr.toTrellis.stepCosts moves).sum + (tr.stepsInto t j k).cost := by
  rw [stepCosts_append, List.sum_append, List.sum_singleton, h.length]
  rfl

variable [Nontrivial C] (hfinite : ∀ score ∈ tr.dense.scores, score ≠ ⊤)
  (hfst : Describes tr.chain labelOffset fst)

include hfinite hfst in
/- An accepting path is read as transitions, arc by arc. -/
theorem moves_of_path (hto : tr.toTrellis.PathTo (· ≠ ⊤) t i moves)
    (hi : i ≤ tr.chain.phones.length) {p : List (ℕ × Arc L' (Tropical C))}
    (hp : p ∈ acceptingFrom fst i) (ht : t + p.length = tr.dense.numFrames) :
    ∃ moves', tr.toTrellis.PathTo (· ≠ ⊤) tr.dense.numFrames tr.chain.phones.length moves' ∧
      (tr.toTrellis.stepCosts moves').sum = (tr.toTrellis.stepCosts moves).sum +
        ((weightFrom fst i p).untrop + scoresAlong tr.dense labelOffset t p) := by
  induction p generalizing t i moves with
  | nil =>
    have hfinal := nil_mem_acceptingFrom.mp hp
    rw [hfst.final] at hfinal
    have heq : i = tr.chain.phones.length := by
      by_contra hne
      rw [if_neg hne] at hfinal
      exact hfinal rfl
    rw [List.length_nil, Nat.add_zero] at ht
    subst heq ht
    refine ⟨moves, hto, ?_⟩
    simp [weightFrom, walkEnd, scoresAlong, hfst.final]
  | cons e p ih =>
    obtain ⟨hleaves, hrest⟩ := cons_mem_acceptingFrom.mp hp
    obtain ⟨-, k, column, harc⟩ := hfst.sound i e.2 (List.mem_of_getElem? hleaves)
    obtain ⟨hcolumn, hnext, hweight⟩ := bounds_of_arc harc hi
    rw [List.length_cons] at ht
    have hscore := score_ne_top hfinite (show t < tr.dense.numFrames by omega) hcolumn
    have hstep := step_of_arc harc t
    have hto' : tr.toTrellis.PathTo (· ≠ ⊤) (t + 1) e.2.nextstate (moves ++ [(k, e.2.nextstate)]) := by
      refine .step k hto ?_ ?_
      · change (tr.stepsInto t e.2.nextstate k).cost ≠ ⊤
        rw [hstep]
        exact add_ne_top hweight hscore
      · change i + (tr.stepsInto t e.2.nextstate k).advance = e.2.nextstate
        rw [hstep, nextstate_of_arc harc]
    obtain ⟨moves', hcomplete, hsum⟩ := ih hto' hnext hrest (by omega)
    refine ⟨moves', hcomplete, ?_⟩
    have hsplit : (weightFrom fst i (e :: p)).untrop =
        e.2.weight.untrop + (weightFrom fst e.2.nextstate p).untrop := by
      simp [weightFrom, walkEnd, follow, add_assoc]
    rw [hsum, sum_stepCosts_append hto, hstep, hsplit, scoresAlong_cons, inputColumn_of_arc harc]
    dsimp only
    abel

include hfst in
/- and transitions as the arcs of a path. -/
theorem path_of_moves (hto : tr.toTrellis.PathTo (· ≠ ⊤) t i moves)
    (hi : i ≤ tr.chain.phones.length) :
    ∃ p, IsWalk (Leaves fst) follow 0 p i ∧ p.length = t ∧
      (Reach.arcsWeight p).untrop + scoresAlong tr.dense labelOffset 0 p =
        (tr.toTrellis.stepCosts moves).sum := by
  induction hto with
  | start => exact ⟨[], rfl, rfl, by simp [Reach.arcsWeight, scoresAlong, stepCosts]⟩
  | @step t j i moves k hto hpresent hlands ih =>
    obtain ⟨hlegal, hnext⟩ := legal_of_step hpresent hlands hi
    obtain ⟨p, hwalk, hlen, hsum⟩ := ih (by omega)
    obtain ⟨arc, hmem, column, harc⟩ := hfst.complete j (by omega) k hlegal
    obtain ⟨place, hplace⟩ := List.getElem?_of_mem hmem
    have hi' : arc.nextstate = i := by rw [nextstate_of_arc harc, hnext]
    refine ⟨p ++ [(place, arc)], isWalk_append.mpr ⟨j, hwalk, hplace, hi'⟩, ?_, ?_⟩
    · rw [List.length_append, hlen, List.length_singleton]
    · have hstep := step_of_arc harc t
      rw [hi'] at hstep
      rw [sum_stepCosts_append hto, hstep, ← hsum, scoresAlong_append, hlen, Nat.zero_add,
        inputColumn_of_arc harc, Reach.arcsWeight_append]
      have hlast : (Reach.arcsWeight [(place, arc)]).untrop = arc.weight.untrop := by
        simp [Reach.arcsWeight]
      rw [Tropical.untrop_mul, hlast]
      dsimp only
      abel

end Routes

section Accounts

variable {tr : ChainTrellis L C}

/- What a transition sounds: one more than a position, or 0. -/
def soundOf (move : Fin 4 × ℕ) : ℕ := if move.1 = 1 ∨ move.1 = 2 then move.2 else 0

def columnRead (chain : AlignChain C) (move : Fin 4 × ℕ) : ℕ :=
  if move.1 = 1 ∨ move.1 = 2 then chain.phone move.2 else chain.blank

def acoustic (tr : ChainTrellis L C) (moves : List (Fin 4 × ℕ)) : C :=
  (moves.zipIdx.map fun e => tr.dense.score e.2 (columnRead tr.chain e.1)).sum

/- The positions behind `i` that nothing sounds, and what they cost. -/
def silentUpTo (i : ℕ) (sounding : List ℕ) : List ℕ :=
  (List.range i).filter fun p => p + 1 ∉ sounding

def givenUp (chain : AlignChain C) (positions : List ℕ) : C :=
  (positions.map fun p => chain.skip (p + 1)).sum

theorem code_cases (k : Fin 4) : k = 0 ∨ k = 1 ∨ k = 2 ∨ k = 3 := by
  revert k
  decide

theorem acoustic_append (moves : List (Fin 4 × ℕ)) (move : Fin 4 × ℕ) :
    acoustic tr (moves ++ [move]) =
      acoustic tr moves + tr.dense.score moves.length (columnRead tr.chain move) := by
  simp [acoustic, List.zipIdx_append]

theorem silentUpTo_append_of_lt {s : ℕ} (sounding : List ℕ) (hs : s = 0 ∨ i < s) :
    silentUpTo i (sounding ++ [s]) = silentUpTo i sounding := by
  unfold silentUpTo
  refine List.filter_congr fun p hp => ?_
  have hlt := List.mem_range.mp hp
  have hne : p + 1 ≠ s := by omega
  simp [hne]

theorem silentUpTo_append_of_mem {s : ℕ} {sounding : List ℕ} (hs : s ∈ sounding) :
    silentUpTo i (sounding ++ [s]) = silentUpTo i sounding := by
  unfold silentUpTo
  refine List.filter_congr fun p _ => ?_
  by_cases hp : p + 1 = s
  · simp [hp, hs]
  · simp [hp]

theorem silentUpTo_succ (i : ℕ) (sounding : List ℕ) : silentUpTo (i + 1) sounding =
    silentUpTo i sounding ++ if i + 1 ∈ sounding then [] else [i] := by
  unfold silentUpTo
  rw [List.range_succ, List.filter_append]
  congr 1
  by_cases hi : i + 1 ∈ sounding
  · simp [hi]
  · simp [hi]

theorem givenUp_append (chain : AlignChain C) (ps qs : List ℕ) :
    givenUp chain (ps ++ qs) = givenUp chain ps + givenUp chain qs := by
  simp [givenUp]

theorem givenUp_singleton (chain : AlignChain C) (p : ℕ) :
    givenUp chain [p] = chain.skip (p + 1) := by
  simp [givenUp]

theorem position_le (h : tr.toTrellis.PathTo (· ≠ ⊤) t i moves) :
    ∀ move ∈ moves, move.2 ≤ i := by
  induction h with
  | start => simp
  | step k h hpresent hlands ih =>
    intro move hmem
    rcases List.mem_append.mp hmem with hmem | hmem
    · have hle := ih move hmem
      omega
    · rw [List.mem_singleton.mp hmem]

theorem sound_le (h : tr.toTrellis.PathTo (· ≠ ⊤) t i moves) :
    ∀ s ∈ moves.map soundOf, s ≤ i := by
  intro s hs
  obtain ⟨move, hmem, rfl⟩ := List.mem_map.mp hs
  unfold soundOf
  split
  · exact position_le h move hmem
  · exact Nat.zero_le i

/- The transitions by which a path is continued. -/
variable (tr) in
theorem stepsInto_wait (t i : ℕ) :
    tr.stepsInto t i 0 = ⟨0, tr.dense.score t tr.chain.blank⟩ := by
  unfold ChainTrellis.stepsInto
  split <;> rfl

theorem pathTo_wait (h : tr.toTrellis.PathTo (· ≠ ⊤) t i moves)
    (hblank : tr.dense.score t tr.chain.blank ≠ ⊤) :
    tr.toTrellis.PathTo (· ≠ ⊤) (t + 1) i (moves ++ [(0, i)]) ∧
      (tr.toTrellis.stepCosts (moves ++ [(0, i)])).sum =
        (tr.toTrellis.stepCosts moves).sum + tr.dense.score t tr.chain.blank := by
  have hstep := stepsInto_wait tr t i
  refine ⟨.step 0 h ?_ ?_, ?_⟩
  · change (tr.stepsInto t i 0).cost ≠ ⊤
    rw [hstep]
    exact hblank
  · change i + (tr.stepsInto t i 0).advance = i
    rw [hstep, Nat.add_zero]
  · rw [sum_stepCosts_append h, hstep]

theorem pathTo_commit (h : tr.toTrellis.PathTo (· ≠ ⊤) t i moves)
    (hphone : tr.dense.score t (tr.chain.phone (i + 1)) ≠ ⊤) :
    tr.toTrellis.PathTo (· ≠ ⊤) (t + 1) (i + 1) (moves ++ [(2, i + 1)]) ∧
      (tr.toTrellis.stepCosts (moves ++ [(2, i + 1)])).sum =
        (tr.toTrellis.stepCosts moves).sum + tr.dense.score t (tr.chain.phone (i + 1)) := by
  have hstep : tr.stepsInto t (i + 1) 2 = ⟨1, tr.dense.score t (tr.chain.phone (i + 1))⟩ := by
    rw [stepsInto_pos t (Nat.succ_pos i)]
    simp [advanceOf]
  refine ⟨.step 2 h ?_ ?_, ?_⟩
  · change (tr.stepsInto t (i + 1) 2).cost ≠ ⊤
    rw [hstep]
    exact hphone
  · change i + (tr.stepsInto t (i + 1) 2).advance = i + 1
    rw [hstep]
  · rw [sum_stepCosts_append h, hstep]

theorem pathTo_extend {j : ℕ} {k : Fin 4} (h : tr.toTrellis.PathTo (· ≠ ⊤) t j moves)
    (hcost : (tr.stepsInto t i k).cost ≠ ⊤) (hlands : j + (tr.stepsInto t i k).advance = i) :
    tr.toTrellis.PathTo (· ≠ ⊤) (t + 1) i (moves ++ [(k, i)]) := .step k h hcost hlands

/- What a path costs is what its frames paid, the skip costs of what it never sounds, and an
excess, for what it skips and then sounds after all; and without the excess there is a path as
well. -/
structure Accounted (tr : ChainTrellis L C) (t i : ℕ) (moves : List (Fin 4 × ℕ)) (excess : C) :
    Prop where
  nonneg : 0 ≤ excess
  cost : (tr.toTrellis.stepCosts moves).sum = acoustic tr moves +
    givenUp tr.chain (silentUpTo i (moves.map soundOf)) + excess
  cheaper : ∃ moves', tr.toTrellis.PathTo (· ≠ ⊤) t i moves' ∧
    (tr.toTrellis.stepCosts moves').sum + excess ≤ (tr.toTrellis.stepCosts moves).sum
  pending : 0 < i → i ∉ moves.map soundOf →
    ∃ moves', tr.toTrellis.PathTo (· ≠ ⊤) t (i - 1) moves' ∧
      (tr.toTrellis.stepCosts moves').sum + (excess + tr.chain.skip i) ≤
        (tr.toTrellis.stepCosts moves).sum

variable {t i : ℕ} {moves : List (Fin 4 × ℕ)} {excess : C}

theorem accounted_wait (hto : tr.toTrellis.PathTo (· ≠ ⊤) t i moves)
    (h : Accounted tr t i moves excess) (hblank : tr.dense.score t tr.chain.blank ≠ ⊤) :
    Accounted tr (t + 1) i (moves ++ [(0, i)]) excess := by
  have hsum := (pathTo_wait hto hblank).2
  have hsound : (moves ++ [(0, i)]).map soundOf = moves.map soundOf ++ [0] := by
    simp [soundOf]
  constructor
  · exact h.nonneg
  · rw [hsum, hsound, silentUpTo_append_of_lt _ (Or.inl rfl), acoustic_append, hto.length, h.cost]
    simp only [columnRead, Fin.reduceEq, or_self, if_false]
    abel
  · obtain ⟨moves', hto', hle⟩ := h.cheaper
    obtain ⟨hto'', hsum'⟩ := pathTo_wait hto' hblank
    refine ⟨_, hto'', ?_⟩
    rw [hsum, hsum', add_right_comm]
    exact add_le_add_left hle _
  · intro hi hsilent
    rw [hsound] at hsilent
    obtain ⟨moves', hto', hle⟩ := h.pending hi fun hmem => hsilent (List.mem_append_left _ hmem)
    obtain ⟨hto'', hsum'⟩ := pathTo_wait hto' hblank
    refine ⟨_, hto'', ?_⟩
    rw [hsum, hsum', add_right_comm]
    exact add_le_add_left hle _

theorem accounted_hold (hto : tr.toTrellis.PathTo (· ≠ ⊤) t i moves)
    (h : Accounted tr t i moves excess) (hi : 0 < i)
    (hphone : tr.dense.score t (tr.chain.phone i) ≠ ⊤) :
    ∃ excess', Accounted tr (t + 1) i (moves ++ [(1, i)]) excess' := by
  have hstep : tr.stepsInto t i 1 = ⟨0, tr.dense.score t (tr.chain.phone i)⟩ := by
    rw [stepsInto_pos t hi]
    simp [advanceOf]
  have hsum : (tr.toTrellis.stepCosts (moves ++ [(1, i)])).sum =
      (tr.toTrellis.stepCosts moves).sum + tr.dense.score t (tr.chain.phone i) := by
    rw [sum_stepCosts_append hto, hstep]
  have hsound : (moves ++ [(1, i)]).map soundOf = moves.map soundOf ++ [i] := by
    simp [soundOf]
  have hacoustic : acoustic tr (moves ++ [(1, i)]) =
      acoustic tr moves + tr.dense.score t (tr.chain.phone i) := by
    rw [acoustic_append, hto.length]
    simp [columnRead]
  by_cases hmem : i ∈ moves.map soundOf
  · refine ⟨excess, h.nonneg, ?_, ?_, ?_⟩
    · rw [hsum, hsound, silentUpTo_append_of_mem hmem, hacoustic, h.cost]
      abel
    · obtain ⟨moves', hto', hle⟩ := h.cheaper
      refine ⟨moves' ++ [(1, i)], pathTo_extend hto' ?_ ?_, ?_⟩
      · rw [hstep]
        exact hphone
      · rw [hstep, Nat.add_zero]
      · rw [hsum, sum_stepCosts_append hto', hstep, add_right_comm]
        exact add_le_add_left hle _
    · intro _ hsilent
      rw [hsound] at hsilent
      exact absurd (List.mem_append_left _ hmem) hsilent
  · -- What was skipped is sounded: it could have been started here instead.
    obtain ⟨p, rfl⟩ : ∃ p, i = p + 1 := ⟨i - 1, by omega⟩
    refine ⟨excess + tr.chain.skip (p + 1), ?_, ?_, ?_, ?_⟩
    · exact add_nonneg h.nonneg (skip_nonneg _ _)
    · have hbefore : silentUpTo (p + 1) (moves.map soundOf) =
          silentUpTo p (moves.map soundOf) ++ [p] := by
        rw [silentUpTo_succ, if_neg hmem]
      have hafter : silentUpTo (p + 1) (moves.map soundOf ++ [p + 1]) =
          silentUpTo p (moves.map soundOf) := by
        rw [silentUpTo_succ, silentUpTo_append_of_lt _ (Or.inr (Nat.lt_succ_self p)),
          if_pos (List.mem_append_right _ (List.mem_singleton_self _)), List.append_nil]
      rw [hsum, hsound, hafter, hacoustic, h.cost, hbefore, givenUp_append, givenUp_singleton]
      abel
    · obtain ⟨moves', hto', hle⟩ := h.pending hi hmem
      obtain ⟨hto'', hsum'⟩ := pathTo_commit hto' hphone
      refine ⟨_, hto'', ?_⟩
      rw [hsum, hsum', add_right_comm]
      exact add_le_add_left hle _
    · intro _ hsilent
      rw [hsound] at hsilent
      exact absurd (List.mem_append_right _ (List.mem_singleton_self _)) hsilent

theorem accounted_commit (hto : tr.toTrellis.PathTo (· ≠ ⊤) t i moves)
    (h : Accounted tr t i moves excess)
    (hphone : tr.dense.score t (tr.chain.phone (i + 1)) ≠ ⊤) :
    Accounted tr (t + 1) (i + 1) (moves ++ [(2, i + 1)]) excess := by
  have hsum := (pathTo_commit hto hphone).2
  have hsound : (moves ++ [(2, i + 1)]).map soundOf = moves.map soundOf ++ [i + 1] := by
    simp [soundOf]
  have hmem : i + 1 ∈ moves.map soundOf ++ [i + 1] :=
    List.mem_append_right _ (List.mem_singleton_self _)
  constructor
  · exact h.nonneg
  · rw [hsum, hsound, silentUpTo_succ, if_pos hmem, List.append_nil,
      silentUpTo_append_of_lt _ (Or.inr (Nat.lt_succ_self i)), acoustic_append, hto.length, h.cost]
    simp only [columnRead, or_true, if_true]
    abel
  · obtain ⟨moves', hto', hle⟩ := h.cheaper
    obtain ⟨hto'', hsum'⟩ := pathTo_commit hto' hphone
    refine ⟨_, hto'', ?_⟩
    rw [hsum, hsum', add_right_comm]
    exact add_le_add_left hle _
  · intro _ hsilent
    rw [hsound] at hsilent
    exact absurd hmem hsilent

theorem accounted_skip (hto : tr.toTrellis.PathTo (· ≠ ⊤) t i moves)
    (h : Accounted tr t i moves excess)
    (hcost : tr.chain.skip (i + 1) + tr.dense.score t tr.chain.blank ≠ ⊤) :
    Accounted tr (t + 1) (i + 1) (moves ++ [(3, i + 1)]) excess := by
  have hstep : tr.stepsInto t (i + 1) 3 =
      ⟨1, tr.chain.skip (i + 1) + tr.dense.score t tr.chain.blank⟩ := by
    rw [stepsInto_pos t (Nat.succ_pos i)]
    simp [advanceOf]
  have hsum : (tr.toTrellis.stepCosts (moves ++ [(3, i + 1)])).sum =
      (tr.toTrellis.stepCosts moves).sum +
        (tr.chain.skip (i + 1) + tr.dense.score t tr.chain.blank) := by
    rw [sum_stepCosts_append hto, hstep]
  have hsound : (moves ++ [(3, i + 1)]).map soundOf = moves.map soundOf ++ [0] := by
    simp [soundOf]
  have hsilent : i + 1 ∉ moves.map soundOf ++ [0] := by
    intro hmem
    rcases List.mem_append.mp hmem with hmem | hmem
    · exact absurd (sound_le hto _ hmem) (by omega)
    · exact absurd (List.mem_singleton.mp hmem) (by omega)
  have hblank : tr.dense.score t tr.chain.blank ≠ ⊤ := fun htop => hcost (by rw [htop, add_top])
  constructor
  · exact h.nonneg
  · rw [hsum, hsound, silentUpTo_succ, if_neg hsilent, silentUpTo_append_of_lt _ (Or.inl rfl),
      givenUp_append, givenUp_singleton, acoustic_append, hto.length, h.cost]
    simp only [columnRead, Fin.reduceEq, or_self, if_false]
    abel
  · obtain ⟨moves', hto', hle⟩ := h.cheaper
    refine ⟨moves' ++ [(3, i + 1)], pathTo_extend hto' ?_ ?_, ?_⟩
    · rw [hstep]
      exact hcost
    · rw [hstep]
    · rw [hsum, sum_stepCosts_append hto', hstep, add_right_comm]
      exact add_le_add_left hle _
  · -- Waiting here would leave the phone to be started later.
    intro _ _
    obtain ⟨moves', hto', hle⟩ := h.cheaper
    obtain ⟨hto'', hsum'⟩ := pathTo_wait hto' hblank
    refine ⟨_, hto'', ?_⟩
    have hmove : (tr.toTrellis.stepCosts moves').sum + tr.dense.score t tr.chain.blank +
        (excess + tr.chain.skip (i + 1)) = (tr.toTrellis.stepCosts moves').sum + excess +
        (tr.chain.skip (i + 1) + tr.dense.score t tr.chain.blank) := by abel
    rw [hsum, hsum', hmove]
    exact add_le_add_left hle _

theorem exists_accounted (hto : tr.toTrellis.PathTo (· ≠ ⊤) t i moves) :
    ∃ excess, Accounted tr t i moves excess := by
  induction hto with
  | start =>
    refine ⟨0, le_rfl, ?_, ⟨[], .start, le_of_eq (add_zero _)⟩, fun hi => absurd hi (Nat.lt_irrefl 0)⟩
    simp [acoustic, givenUp, silentUpTo, stepCosts]
  | @step t j i moves k hto hpresent hlands ih =>
    obtain ⟨excess, h⟩ := ih
    change (tr.stepsInto t i k).cost ≠ ⊤ at hpresent
    change j + (tr.stepsInto t i k).advance = i at hlands
    rcases Nat.eq_zero_or_pos i with rfl | hi
    · rw [stepsInto_zero] at hpresent hlands
      by_cases hk : k = 0
      · subst hk
        rw [if_pos rfl] at hpresent hlands
        rw [Nat.add_zero] at hlands
        subst hlands
        exact ⟨excess, accounted_wait hto h hpresent⟩
      · rw [if_neg hk] at hpresent
        exact absurd rfl hpresent
    · rw [stepsInto_pos t hi] at hpresent hlands
      dsimp only at hpresent hlands
      obtain rfl | rfl | rfl | rfl := code_cases k
      · simp [advanceOf] at hpresent hlands
        subst hlands
        exact ⟨excess, accounted_wait hto h hpresent⟩
      · simp [advanceOf] at hpresent hlands
        subst hlands
        exact accounted_hold hto h hi hpresent
      · simp [advanceOf] at hpresent hlands
        subst hlands
        exact ⟨excess, accounted_commit hto h hpresent⟩
      · simp only [advanceOf, or_true, if_true] at hpresent hlands
        subst hlands
        exact ⟨excess, accounted_skip hto h hpresent⟩

end Accounts

section Alignments

variable {tr : ChainTrellis L C} {t i : ℕ} {moves : List (Fin 4 × ℕ)}

theorem position_pos (h : tr.toTrellis.PathTo (· ≠ ⊤) t i moves) :
    ∀ move ∈ moves, move.1 = 1 ∨ move.1 = 2 → 0 < move.2 := by
  induction h with
  | start => simp
  | @step t j i moves k h hpresent hlands ih =>
    intro move hmem hsounds
    rcases List.mem_append.mp hmem with hmem | hmem
    · exact ih move hmem hsounds
    · rw [List.mem_singleton.mp hmem] at hsounds ⊢
      by_contra hzero
      obtain rfl : i = 0 := by
        dsimp only at hzero
        omega
      change (tr.stepsInto t 0 k).cost ≠ ⊤ at hpresent
      rw [stepsInto_zero, if_neg] at hpresent
      · exact hpresent rfl
      · rintro rfl
        exact absurd hsounds (by decide)

theorem positions_sorted (h : tr.toTrellis.PathTo (· ≠ ⊤) t i moves) :
    (moves.map Prod.snd).Pairwise (· ≤ ·) := by
  induction h with
  | start => exact List.Pairwise.nil
  | step k h hpresent hlands ih =>
    rw [List.map_append, List.pairwise_append]
    refine ⟨ih, List.pairwise_singleton _ _, ?_⟩
    intro p hp q hq
    obtain ⟨move, hmem, rfl⟩ := List.mem_map.mp hp
    rw [List.map_singleton, List.mem_singleton] at hq
    have hle := position_le h move hmem
    omega

/- What a transition sounds, once its position is kept in 32 bits. -/
def writtenSound (move : Fin 4 × ℕ) : ℕ :=
  if move.1 = 1 ∨ move.1 = 2 then move.2 % 2 ^ 32 else 0

/- The alignment that is read back from the transitions taken. -/
theorem fromPath_written (chain : AlignChain C) (cost : C) :
    Alignment.fromPath chain ⟨moves.map fun move => (move.1 : ℕ),
      moves.map fun move => move.2 % 2 ^ 32, cost⟩ =
        .ok ⟨moves.map writtenSound, chain.phones.length, cost⟩ := by
  unfold Alignment.fromPath
  have hread : ∀ entry ∈ ((moves.map fun move => (move.1 : ℕ)).zip
      (moves.map fun move => move.2 % 2 ^ 32)).zipIdx, Alignment.soundingOf entry =
        pure (if entry.1.1 = 1 ∨ entry.1.1 = 2 then entry.1.2 else 0) := by
    rintro ⟨⟨code, position⟩, frame⟩ hmem
    rw [List.zip_map', List.zipIdx_map] at hmem
    obtain ⟨⟨⟨k, i⟩, t⟩, -, heq⟩ := List.mem_map.mp hmem
    simp only [Prod.map_apply, id_eq, Prod.mk.injEq] at heq
    obtain ⟨⟨rfl, rfl⟩, rfl⟩ := heq
    obtain rfl | rfl | rfl | rfl := code_cases k <;> rfl
  rw [mapM_eq_pure hread]
  have hmap : (((moves.map fun move => (move.1 : ℕ)).zip
      (moves.map fun move => move.2 % 2 ^ 32)).zipIdx.map fun entry =>
        if entry.1.1 = 1 ∨ entry.1.1 = 2 then entry.1.2 else 0) = moves.map writtenSound := by
    rw [List.zip_map', List.zipIdx_map, List.map_map]
    have hfst : moves.map writtenSound = (moves.zipIdx.map Prod.fst).map writtenSound := by
      rw [List.zipIdx_map_fst]
    rw [hfst, List.map_map]
    refine List.map_congr_left fun entry hmem => ?_
    obtain ⟨⟨k, i⟩, t⟩ := entry
    simp only [Function.comp, Prod.map_apply, id_eq, writtenSound]
    obtain rfl | rfl | rfl | rfl := code_cases k <;> rfl
  rw [hmap]
  rfl

theorem fromPath_moves (chain : AlignChain C) (cost : C) (hfew : ∀ move ∈ moves, move.2 < 2 ^ 32) :
    Alignment.fromPath chain ⟨moves.map fun move => (move.1 : ℕ),
      moves.map fun move => move.2 % 2 ^ 32, cost⟩ =
        .ok ⟨moves.map soundOf, chain.phones.length, cost⟩ := by
  have hmap : moves.map writtenSound = moves.map soundOf := by
    apply List.map_congr_left
    intro move hmem
    unfold writtenSound soundOf
    rw [Nat.mod_eq_of_lt (hfew move hmem)]
  rw [fromPath_written, hmap]

theorem acousticCosts_moves (h : tr.toTrellis.PathTo (· ≠ ⊤) t i moves)
    (hi : i ≤ tr.chain.phones.length) (ht : t ≤ tr.dense.numFrames) (cost : C) :
    Alignment.acousticCosts ⟨moves.map soundOf, tr.chain.phones.length, cost⟩ tr.chain tr.dense =
      some (moves.zipIdx.map fun e => tr.dense.score e.2 (columnRead tr.chain e.1)) := by
  obtain ⟨hblank, hphones⟩ := columns_lt tr.columns_ok
  unfold Alignment.acousticCosts Alignment.frames
  dsimp only
  rw [List.map_map, List.zipIdx_map]
  rw [List.mapM_map]
  refine mapM_eq_pure ?_
  rintro ⟨⟨k, p⟩, f⟩ hmem
  have hget := List.mem_zipIdx_iff_getElem?.mp hmem
  have hf : f < tr.dense.numFrames := by
    have hlt := (List.getElem?_eq_some_iff.mp hget).1
    rw [h.length] at hlt
    omega
  have hin := List.mem_of_getElem? hget
  have hscore : ∀ column < tr.dense.numSymbols,
      (tr.dense.frame f)[column]? = some (tr.dense.score f column) := by
    intro column hlt
    rw [← DenseFst.length_frame hf] at hlt
    unfold DenseFst.score
    rw [List.getD_eq_getElem _ _ hlt]
    exact List.getElem?_eq_getElem hlt
  simp only [Function.comp, Prod.map_apply, id_eq, soundOf, columnRead]
  by_cases hsounds : k = 1 ∨ k = 2
  · have hpos : 0 < p := position_pos h _ hin hsounds
    have hle : p ≤ tr.chain.phones.length := (position_le h _ hin).trans hi
    have hlt : p - 1 < tr.chain.phones.length := by omega
    have hcolumn : tr.chain.column (some (p - 1)) = some (tr.chain.phone p) := by
      unfold AlignChain.column phone
      rw [List.getD_eq_getElem _ _ hlt]
      exact List.getElem?_eq_getElem hlt
    rw [if_pos hsounds, if_pos hsounds, if_neg (by omega), hcolumn, Option.bind_some,
      hscore _ (hphones _ (phone_mem hpos hle))]
    rfl
  · rw [if_neg hsounds, if_neg hsounds, if_pos rfl]
    exact hscore _ hblank

end Alignments

section Aligning

/- The alignment is the best of the accepting paths with an arc for each frame, its positions are
in order, and its cost is what the frames paid and what was given up. -/
structure Aligned (chain : AlignChain C) (dense : DenseFst L C) (labelOffset : ℤ)
    (fst : VectorFst L' (Tropical C)) (alignment : Alignment C) : Prop where
  attained : ∃ p ∈ acceptingPaths fst, p.length = dense.numFrames ∧
    alignment.cost = alignCost dense labelOffset fst p
  least : ∀ p ∈ acceptingPaths fst, p.length = dense.numFrames →
    alignment.cost ≤ alignCost dense labelOffset fst p
  ordered : ∀ f g p q : ℕ, f ≤ g → alignment.frames[f]? = some (some p) →
    alignment.frames[g]? = some (some q) → p ≤ q
  accounted : ∃ costs skipped, alignment.acousticCosts chain dense = some costs ∧
    alignment.skipped = some skipped ∧ alignment.cost = costs.sum + givenUp chain skipped

def AlignsExactly (chain : AlignChain C) (dense : DenseFst L C) (labelOffset : ℤ)
    (fst : VectorFst L' (Tropical C)) : Prop :=
  ∃ r, align chain dense = some (.ok r) ∧
    (r = none ↔ ¬ ∃ p ∈ acceptingPaths fst, p.length = dense.numFrames) ∧
    ∀ alignment, r = some alignment → Aligned chain dense labelOffset fst alignment

variable {tr : ChainTrellis L C} {labelOffset : ℤ} {fst : VectorFst L' (Tropical C)}

theorem lawful_toTrellis : tr.toTrellis.Lawful (· ≠ ⊤) := by
  refine ⟨fun t _ i _ k hpresent => ?_, fun t _ i _ k hpresent => ?_⟩
  · change (tr.stepsInto t i k).advance ≤ 1
    rcases Nat.eq_zero_or_pos i with rfl | hi
    · rw [stepsInto_zero]
      split <;> exact Nat.zero_le 1
    · rw [stepsInto_pos t hi]
      dsimp only [advanceOf]
      split <;> omega
  · change (tr.stepsInto t i k).advance ≤ i
    rcases Nat.eq_zero_or_pos i with rfl | hi
    · rw [stepsInto_zero]
      split <;> exact le_rfl
    · rw [stepsInto_pos t hi]
      dsimp only [advanceOf]
      split <;> omega

theorem padded_toTrellis : tr.toTrellis.Padded := by
  intro t _ i _ k
  change (tr.stepsInto t i k).advance ≤ 1 + i
  rcases Nat.eq_zero_or_pos i with rfl | hi
  · rw [stepsInto_zero]
    split <;> exact Nat.zero_le _
  · rw [stepsInto_pos t hi]
    dsimp only [advanceOf]
    split <;> omega

variable [Nontrivial C]

/- The accepting paths with an arc for each frame are the complete paths of the trellis. -/
theorem exists_moves_of_path (hfinite : ∀ score ∈ tr.dense.scores, score ≠ ⊤)
    (hfst : Describes tr.chain labelOffset fst) {p : List (ℕ × Arc L' (Tropical C))}
    (hp : p ∈ acceptingPaths fst) (hlen : p.length = tr.dense.numFrames) :
    ∃ moves, tr.toTrellis.PathTo (· ≠ ⊤) tr.dense.numFrames tr.chain.phones.length moves ∧
      (tr.toTrellis.stepCosts moves).sum = alignCost tr.dense labelOffset fst p := by
  rw [mem_acceptingPaths hfst.start] at hp
  obtain ⟨moves, hmoves, hsum⟩ :=
    moves_of_path hfinite hfst .start (Nat.zero_le _) hp (by rw [Nat.zero_add, hlen])
  refine ⟨moves, hmoves, hsum.trans ?_⟩
  rw [alignCost, pathWeight, hfst.start]
  simp [stepCosts]

theorem exists_path_of_moves (hfst : Describes tr.chain labelOffset fst)
    (h : tr.toTrellis.PathTo (· ≠ ⊤) tr.dense.numFrames tr.chain.phones.length moves) :
    ∃ p ∈ acceptingPaths fst, p.length = tr.dense.numFrames ∧
      (tr.toTrellis.stepCosts moves).sum = alignCost tr.dense labelOffset fst p := by
  obtain ⟨p, hwalk, hlen, hsum⟩ := path_of_moves hfst h le_rfl
  have hfinal : fst.finalWeight tr.chain.phones.length = 1 := by
    rw [hfst.final, if_pos rfl]
  refine ⟨p, (mem_acceptingPaths hfst.start).mpr ⟨_, hwalk, ?_⟩, hlen, ?_⟩
  · intro hzero
    rw [hfinal] at hzero
    exact zero_ne_top (congrArg Tropical.untrop hzero)
  · rw [alignCost, pathWeight, hfst.start, Option.getD_some, weightFrom, walkEnd_eq hwalk, hfinal,
      mul_one]
    exact hsum.symm

theorem position_of_frame {n f p : ℕ} {cost : C}
    (h : (Alignment.frames ⟨moves.map soundOf, n, cost⟩)[f]? = some (some p)) :
    ∃ move, moves[f]? = some move ∧ move.2 = p + 1 := by
  unfold Alignment.frames at h
  rw [List.map_map, List.getElem?_map] at h
  obtain ⟨move, hmove, hp⟩ := Option.map_eq_some_iff.mp h
  refine ⟨move, hmove, ?_⟩
  dsimp only [Function.comp] at hp
  by_cases hzero : soundOf move = 0
  · rw [if_pos hzero] at hp
    cases hp
  · rw [if_neg hzero] at hp
    have hp' := Option.some.inj hp
    unfold soundOf at hzero hp'
    split at hzero
    · next hsounds =>
      rw [if_pos hsounds] at hp'
      omega
    · exact absurd rfl hzero

/- The best path neither skips a phone that it then sounds, at a cost, nor hides what it skips. -/
theorem aligned_of_best (hfinite : ∀ score ∈ tr.dense.scores, score ≠ ⊤)
    (hfst : Describes tr.chain labelOffset fst)
    (hmoves : tr.toTrellis.PathTo (· ≠ ⊤) tr.dense.numFrames tr.chain.phones.length moves)
    (hbest : ∀ moves',
      tr.toTrellis.PathTo (· ≠ ⊤) tr.dense.numFrames tr.chain.phones.length moves' →
        (tr.toTrellis.stepCosts moves).sum ≤ (tr.toTrellis.stepCosts moves').sum) :
    Aligned tr.chain tr.dense labelOffset fst
      ⟨moves.map soundOf, tr.chain.phones.length, (tr.toTrellis.stepCosts moves).sum⟩ := by
  constructor
  · exact exists_path_of_moves hfst hmoves
  · intro p hp hlen
    obtain ⟨moves', hmoves', hsum⟩ := exists_moves_of_path hfinite hfst hp hlen
    rw [← hsum]
    exact hbest moves' hmoves'
  · intro f g p q hfg hf hg
    obtain ⟨x, hx, hp⟩ := position_of_frame hf
    obtain ⟨y, hy, hq⟩ := position_of_frame hg
    have hle : x.2 ≤ y.2 := by
      rcases Nat.lt_or_eq_of_le hfg with hlt | rfl
      · obtain ⟨hf', rfl⟩ := List.getElem?_eq_some_iff.mp hx
        obtain ⟨hg', rfl⟩ := List.getElem?_eq_some_iff.mp hy
        have hsorted := List.pairwise_iff_getElem.mp (positions_sorted hmoves) f g
          (by rwa [List.length_map]) (by rwa [List.length_map]) hlt
        rwa [List.getElem_map, List.getElem_map] at hsorted
      · rw [Option.some.inj (hx.symm.trans hy)]
    omega
  · obtain ⟨excess, haccount⟩ := exists_accounted hmoves
    obtain ⟨moves', hmoves', hle⟩ := haccount.cheaper
    have hexcess : excess = 0 := by
      have hfin : (tr.toTrellis.stepCosts moves').sum ≠ ⊤ :=
        BestPathExact.pathCost_ne_top hmoves'
      have hle' := hle.trans (hbest moves' hmoves')
      refine le_antisymm ?_ haccount.nonneg
      rw [← add_zero (tr.toTrellis.stepCosts moves').sum, add_assoc, zero_add] at hle'
      exact (add_le_add_iff_right_of_ne_top hfin).mp hle'
    refine ⟨_, silentUpTo tr.chain.phones.length (moves.map soundOf),
      acousticCosts_moves hmoves le_rfl le_rfl _, ?_, ?_⟩
    · unfold Alignment.skipped
      exact if_pos fun k hk => sound_le hmoves k hk
    · dsimp only
      rw [haccount.cost, hexcess, add_zero]
      rfl

theorem against_of_ok (h : chain.checkColumns dense.numSymbols = .ok ()) :
    chain.against dense = .ok ⟨chain, dense, h⟩ := by
  unfold against
  split
  · rfl
  · next e he =>
    rw [h] at he
    cases he

theorem against_of_error {e : String} (h : chain.checkColumns dense.numSymbols = .error e) :
    chain.against dense = .error e := by
  unfold against
  split
  · next hok =>
    rw [h] at hok
    cases hok
  · next e' he =>
    rw [h] at he
    injection he with he
    rw [he]

theorem align_of_against {tr : ChainTrellis L C} (h : tr.chain.against tr.dense = .ok tr) :
    align tr.chain tr.dense = tr.toTrellis.bestPath.map (alignmentOf tr.chain) := by
  unfold align
  rw [h]

/- Alignment is a search of the FST that the chain describes, for every chain of phones that the
matrix has columns for; the other errors are those that are documented. -/
theorem align_matches_fst {chain : AlignChain C} {dense : DenseFst L C}
    (hfinite : ∀ score ∈ dense.scores, score ≠ ⊤) (hfew : chain.phones.length < 2 ^ 32)
    (hfst : chain.toFst labelOffset = (some (.ok fst) : Option (Except String _))) :
    AlignsExactly chain dense labelOffset fst ∨
      ((∃ column ∈ chain.blank :: chain.phones, dense.numSymbols ≤ column) ∧
        ∃ e, align chain dense = some (.error e)) ∨
      (usizeMax < dense.numFrames * (chain.phones.length / 4 + 1) ∧
        ∃ e, align chain dense = some (.error e)) := by
  cases hcolumns : chain.checkColumns dense.numSymbols with
  | error e =>
    refine Or.inr (Or.inl ⟨exists_column_of_error hcolumns, e, ?_⟩)
    unfold align
    rw [against_of_error hcolumns]
  | ok u =>
    obtain ⟨tr, rfl, rfl, hagainst⟩ : ∃ tr : ChainTrellis L C, tr.chain = chain ∧
        tr.dense = dense ∧ chain.against dense = .ok tr :=
      ⟨⟨chain, dense, hcolumns⟩, rfl, rfl, against_of_ok hcolumns⟩
    have halign := align_of_against hagainst
    have hdescribes := describes_toFst hfst
    rcases BestPathExact.solves_or_reports (@lawful_toTrellis _ _ _ _ tr) padded_toTrellis
      (by decide) (by decide) with ⟨r, hrun, hnone, hsome⟩ | ⟨hsize, e, hrun⟩
    · refine Or.inl ?_
      rw [hrun] at halign
      have hiff : r = none ↔
          ¬ ∃ p ∈ acceptingPaths fst, p.length = tr.dense.numFrames := by
        rw [hnone]
        refine not_congr ⟨?_, ?_⟩
        · rintro ⟨moves, hmoves⟩
          obtain ⟨p, hp, hlen, -⟩ := exists_path_of_moves hdescribes hmoves
          exact ⟨p, hp, hlen⟩
        · rintro ⟨p, hp, hlen⟩
          obtain ⟨moves, hmoves, -⟩ := exists_moves_of_path hfinite hdescribes hp hlen
          exact ⟨moves, hmoves⟩
      cases r with
      | none =>
        refine ⟨none, halign, iff_of_true rfl (hiff.mp rfl), ?_⟩
        rintro alignment ⟨⟩
      | some path =>
        obtain ⟨⟨moves, hmoves, hcodes, hpositions, hcost⟩, hleast⟩ := hsome path rfl
        have hsmall : ∀ move ∈ moves, move.2 < 2 ^ 32 := fun move hmem =>
          (position_le hmoves move hmem).trans_lt hfew
        have hpath : path = ⟨moves.map fun move => (move.1 : ℕ),
            moves.map fun move => move.2 % 2 ^ 32, (tr.toTrellis.stepCosts moves).sum⟩ := by
          rw [← hcodes, ← hpositions, ← hcost]
        have hbest := aligned_of_best hfinite hdescribes hmoves fun moves' hmoves' =>
          hcost ▸ hleast moves' hmoves'
        rw [Option.map_some, hpath] at halign
        rw [alignmentOf, fromPath_moves tr.chain _ hsmall] at halign
        refine ⟨some _, halign, iff_of_false (by simp) ?_, ?_⟩
        · exact fun hno => absurd (hiff.mpr hno) (by simp)
        · rintro alignment ⟨⟩
          exact hbest
    · refine Or.inr (Or.inr ⟨hsize, e, ?_⟩)
      rw [halign, hrun]
      rfl

/- Two phones in three frames, the second of them not in the audio. -/
def pair : AlignChain (WithTop ℕ) where
  phones := [1, 2]
  skips := [⊤, 3]
  blank := 0
  length_phones_le := by decide
  length_skips := rfl
  skips_nonneg := by decide

def threeFrames : DenseFst ℤ (WithTop ℕ) where
  scores := [(5 : ℕ), 1, (9 : ℕ), 1, (5 : ℕ), (9 : ℕ), 1, (7 : ℕ), (9 : ℕ)]
  numFrames := 3
  numSymbols := 3
  labelOffset := 1
  properties := DenseFst.computeProperties
    [((5 : ℕ) : WithTop ℕ), 1, (9 : ℕ), 1, (5 : ℕ), (9 : ℕ), 1, (7 : ℕ), (9 : ℕ)] 3 3 1
  size_lt := by decide
  length_scores := rfl
  numSymbols_pos := by decide
  labelOffset_nonneg := Int.one_nonneg
  last_label := fun _ => rfl

theorem align_matches_fst_pair : ∃ fst : VectorFst ℤ (Tropical (WithTop ℕ)),
    pair.toFst 1 = (some (.ok fst) : Option (Except String _)) ∧
      AlignsExactly pair threeFrames 1 fst := by
  obtain ⟨fst, hfst⟩ := exists_of_isOk
    (show isOk (pair.toFst (L := ℤ) 1 : Option (Except String _)) = true by decide +kernel)
  refine ⟨fst, hfst, ?_⟩
  have hfinite : ∀ score ∈ threeFrames.scores, score ≠ ⊤ := by decide
  rcases align_matches_fst hfinite (show pair.phones.length < 2 ^ 32 by decide) hfst with
    h | ⟨⟨column, hmem, hlarge⟩, -⟩ | ⟨hsize, -⟩
  · exact h
  · exact absurd hlarge (by revert column; decide)
  · exact absurd hsize (by decide)

/- A phone that is no column of the matrix. -/
def unread : AlignChain (WithTop ℕ) := .new [7] (by decide)

theorem unread_not_aligned : ∃ fst : VectorFst ℤ (Tropical (WithTop ℕ)),
    unread.toFst 1 = (some (.ok fst) : Option (Except String _)) ∧
      (∀ score ∈ threeFrames.scores, score ≠ ⊤) ∧ ¬ AlignsExactly unread threeFrames 1 fst := by
  obtain ⟨fst, hfst⟩ := exists_of_isOk
    (show isOk (unread.toFst (L := ℤ) 1 : Option (Except String _)) = true by decide +kernel)
  refine ⟨fst, hfst, by decide, ?_⟩
  rintro ⟨r, hrun, -⟩
  have herror : isOk (align unread threeFrames) = false := by decide
  rw [hrun] at herror
  cases herror

end Aligning

end Sicada.AlignExact
