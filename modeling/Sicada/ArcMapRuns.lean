import Sicada.ArcMap

namespace Sicada

/- The state `arcMap` leaves the mapper in. -/
def VectorFst.arcMapMapper {L W σ : Type} [ArcLabel L] [Zero W] [One W] [DecidableEq W]
    (fst : VectorFst L W) (mapper : ArcMapper σ L W) (m : σ) : σ :=
  if fst.start = none then m
  else
    let l := arcMapStart mapper fst m
    (arcMapStates mapper (List.range l.fst.numStates) l).1.mapper

namespace ArcMapRuns

variable {L W σ : Type} [ArcLabel L] [Zero W] [One W] [DecidableEq W]

/- What a mapper makes of an arc stays true of the states it comes to afterwards. -/
structure Tracks (mapper : ArcMapper σ L W) (later : σ → σ → Prop)
    (out : σ → Arc L W → Arc L W → Prop) : Prop where
  refl : ∀ m, later m m
  trans : ∀ m m' m'', later m m' → later m' m'' → later m m''
  mono : ∀ m m' arc arc', later m m' → out m arc arc' → out m' arc arc'
  step : ∀ arc m, later m (mapper.map arc m).2 ∧ out (mapper.map arc m).2 arc (mapper.map arc m).1

/- What becomes of a state whose arcs and final weight were mapped. -/
def finished (finalAction : MapFinalAction) (target : ℕ) (arcs : List (Arc L W))
    (mapped : Arc L W) : List (Arc L W) × W :=
  match finalAction with
  | .requireSuperfinal => (if becameAnArc mapped || mapped.weight ≠ 0 then
      arcs ++ [{ mapped with nextstate := target }] else arcs, 0)
  | _ => (arcs, mapped.weight)

variable {fst : VectorFst L W} {s : ℕ}

section Mutating

variable {later : σ → σ → Prop} {out : σ → Arc L W → Arc L W → Prop} {mapper : ArcMapper σ L W}

theorem mutateArcsLoop_tracks (h : Tracks mapper later out) (arcs : List (Arc L W))
    (props : BitVec 64) (m : σ) :
    later m (VectorFst.mutateArcsLoop mapper.map arcs props m).2.2 ∧
      List.Forall₂ (out (VectorFst.mutateArcsLoop mapper.map arcs props m).2.2) arcs
        (VectorFst.mutateArcsLoop mapper.map arcs props m).1 := by
  induction arcs generalizing props m with
  | nil => exact ⟨h.refl m, List.Forall₂.nil⟩
  | cons arc arcs ih =>
    obtain ⟨hfirst, hout⟩ := h.step arc m
    obtain ⟨hrest, hall⟩ := ih (setArcProperties props arc (mapper.map arc m).1) (mapper.map arc m).2
    exact ⟨h.trans _ _ _ hfirst hrest, List.Forall₂.cons (h.mono _ _ _ _ hrest hout) hall⟩

theorem mutateArcs_tracks (h : Tracks mapper later out) (hs : s < fst.numStates) (m : σ) :
    ∃ arcs, (fst.mutateArcs s mapper.map m).1.arcs = Function.update fst.arcs s arcs ∧
      (fst.mutateArcs s mapper.map m).1.finalWeight = fst.finalWeight ∧
      (fst.mutateArcs s mapper.map m).1.numStates = fst.numStates ∧
      (fst.mutateArcs s mapper.map m).1.start = fst.start ∧
      later m (fst.mutateArcs s mapper.map m).2 ∧
      List.Forall₂ (out (fst.mutateArcs s mapper.map m).2) (fst.arcs s) arcs := by
  have hsome : fst.states[s]? = some fst.states[s] := List.getElem?_eq_getElem hs
  obtain ⟨hlater, hall⟩ :=
    mutateArcsLoop_tracks h fst.states[s].arcs fst.properties m
  simp only [VectorFst.mutateArcs, hsome]
  refine ⟨_, VectorFst.arcs_set hsome _ _ _, ?_, by simp [VectorFst.numStates], trivial, hlater, ?_⟩
  · rw [VectorFst.finalWeight_set hsome]
    exact Function.update_eq_self_iff.mpr (VectorFst.finalWeight_of_getElem? hsome).symm
  · rw [VectorFst.arcs_of_getElem? hsome]
    exact hall

end Mutating

section Loop

variable {later : σ → σ → Prop} {out : σ → Arc L W → Arc L W → Prop} {mapper : ArcMapper σ L W}

/- From `m₀` on the mapper asks for a superfinal state, or makes no arc of a final weight. -/
def Settled (mapper : ArcMapper σ L W) (later : σ → σ → Prop)
    (out : σ → Arc L W → Arc L W → Prop) (m₀ : σ) : Prop :=
  mapper.finalAction = .requireSuperfinal ∨ (mapper.finalAction = .noSuperfinal ∧
    ∀ m w mapped, later m₀ m → out m (finalAsArc w) mapped → becameAnArc mapped = false)

/- What the states `s` and `s'` of two FSTs have to do with each other once `s` was mapped. -/
def MappedAt (mapper : ArcMapper σ L W) (out : σ → Arc L W → Arc L W → Prop) (target : ℕ)
    (m : σ) (fst fst' : VectorFst L W) (s : ℕ) : Prop :=
  ∃ arcs mapped, List.Forall₂ (out m) (fst.arcs s) arcs ∧
    out m (finalAsArc (fst.finalWeight s)) mapped ∧
    fst'.arcs s = (finished mapper.finalAction target arcs mapped).1 ∧
    fst'.finalWeight s = (finished mapper.finalAction target arcs mapped).2

structure MapTurn (mapper : ArcMapper σ L W) (later : σ → σ → Prop)
    (out : σ → Arc L W → Arc L W → Prop) (l l' : ArcMapLoop σ L W) (s : ℕ) : Prop where
  numStates : l'.fst.numStates = l.fst.numStates
  start : l'.fst.start = l.fst.start
  superfinal : l'.superfinal = l.superfinal
  later : later l.mapper l'.mapper
  others : ∀ t, t ≠ s → l'.fst.arcs t = l.fst.arcs t ∧ l'.fst.finalWeight t = l.fst.finalWeight t
  mapped : MappedAt mapper out (l.superfinal.getD 0) l'.mapper l.fst l'.fst s

variable {l : ArcMapLoop σ L W}

theorem mapFinal_reads {m₀ : σ} (hsettled : Settled mapper later out m₀) (hs : s < l.fst.numStates)
    {w : W} {m : σ} {mapped : Arc L W} (hm : later m₀ m) (hout : out m (finalAsArc w) mapped) :
    (mapFinal mapper.finalAction l s mapped).2 = false ∧
    (mapFinal mapper.finalAction l s mapped).1.superfinal = l.superfinal ∧
    (mapFinal mapper.finalAction l s mapped).1.mapper = l.mapper ∧
    (mapFinal mapper.finalAction l s mapped).1.fst.numStates = l.fst.numStates ∧
    (mapFinal mapper.finalAction l s mapped).1.fst.start = l.fst.start ∧
    (mapFinal mapper.finalAction l s mapped).1.fst.arcs = Function.update l.fst.arcs s
      (finished mapper.finalAction (l.superfinal.getD 0) (l.fst.arcs s) mapped).1 ∧
    (mapFinal mapper.finalAction l s mapped).1.fst.finalWeight =
      Function.update l.fst.finalWeight s
        (finished mapper.finalAction (l.superfinal.getD 0) (l.fst.arcs s) mapped).2 := by
  have hsome : l.fst.states[s]? = some l.fst.states[s] := List.getElem?_eq_getElem hs
  rcases hsettled with haction | ⟨haction, hplain⟩
  · rw [haction]
    unfold mapFinal finished
    dsimp only
    by_cases hadds : (becameAnArc mapped || decide (mapped.weight ≠ 0)) = true
    · simp only [hadds, if_true, VectorFst.numStates_setFinal, VectorFst.numStates_addArc,
        VectorFst.start_setFinal, VectorFst.addArc_start, VectorFst.arcs_setFinal, true_and]
      constructor
      · rw [VectorFst.arcs_addArc _ hsome, VectorFst.arcs_of_getElem? hsome]
      · rw [VectorFst.finalWeight_setFinal _ (by rwa [VectorFst.numStates_addArc]),
          VectorFst.finalWeight_addArc]
    · rw [Bool.not_eq_true] at hadds
      simp only [hadds, Bool.false_eq_true, if_false, VectorFst.numStates_setFinal,
        VectorFst.start_setFinal, VectorFst.arcs_setFinal, true_and]
      exact ⟨(Function.update_eq_self s _).symm, VectorFst.finalWeight_setFinal _ hs⟩
  · have hnot := hplain m w mapped hm hout
    rw [haction]
    unfold mapFinal finished
    dsimp only
    simp only [hnot, Bool.false_eq_true, if_false, VectorFst.numStates_setFinal,
      VectorFst.start_setFinal, VectorFst.arcs_setFinal, true_and]
    exact ⟨(Function.update_eq_self s _).symm, VectorFst.finalWeight_setFinal _ hs⟩

theorem arcMapState_turn (h : Tracks mapper later out) {m₀ : σ}
    (hsettled : Settled mapper later out m₀) (hm : later m₀ l.mapper) (hs : s < l.fst.numStates)
    (hne : l.superfinal ≠ some s) :
    (arcMapState mapper l s).2 = false ∧
      MapTurn mapper later out l (arcMapState mapper l s).1 s := by
  obtain ⟨arcs, harcs, hfinal, hnum, hstart, hlater, hall⟩ := mutateArcs_tracks h hs l.mapper
  unfold arcMapState
  dsimp only
  rw [if_neg hne]
  generalize hmutated : l.fst.mutateArcs s mapper.map l.mapper = mutated at *
  obtain ⟨fst, m⟩ := mutated
  dsimp only at *
  obtain ⟨hlater', hout⟩ := h.step (finalAsArc (fst.finalWeight s)) m
  obtain ⟨herror, hsuper, hmapper, hnum', hstart', harcs', hfinal'⟩ :=
    mapFinal_reads hsettled
      (l := ⟨fst, l.superfinal, (mapper.map (finalAsArc (fst.finalWeight s)) m).2⟩)
      (hnum.symm ▸ hs) (h.trans _ _ _ hm (h.trans _ _ _ hlater hlater')) hout
  refine ⟨herror, hnum'.trans hnum, hstart'.trans hstart, hsuper, ?_, ?_, ?_⟩
  · rw [hmapper]
    exact h.trans _ _ _ hlater hlater'
  · intro t ht
    rw [harcs', hfinal', Function.update_of_ne ht, Function.update_of_ne ht, harcs, hfinal,
      Function.update_of_ne ht]
    exact ⟨rfl, rfl⟩
  · rw [hmapper]
    refine ⟨arcs, (mapper.map (finalAsArc (fst.finalWeight s)) m).1,
      hall.imp fun _ _ => h.mono _ _ _ _ hlater', ?_, ?_, ?_⟩
    · rw [← hfinal]
      exact hout
    · rw [harcs', Function.update_self]
      dsimp only
      rw [harcs, Function.update_self]
    · rw [hfinal', Function.update_self]
      dsimp only
      rw [harcs, Function.update_self]

theorem MappedAt.mono (h : Tracks mapper later out) {target : ℕ} {m m' : σ}
    {fst₁ fst₂ : VectorFst L W} (hlater : later m m')
    (hmapped : MappedAt mapper out target m fst fst₁ s) (harcs : fst₂.arcs s = fst₁.arcs s)
    (hfinal : fst₂.finalWeight s = fst₁.finalWeight s) :
    MappedAt mapper out target m' fst fst₂ s := by
  obtain ⟨arcs, mapped, hall, hout, harcs', hfinal'⟩ := hmapped
  exact ⟨arcs, mapped, hall.imp fun _ _ => h.mono _ _ _ _ hlater, h.mono _ _ _ _ hlater hout,
    harcs.trans harcs', hfinal.trans hfinal'⟩

/- The states below `k` mapped, but for the superfinal one, and the others as they were. -/
structure MapRun (mapper : ArcMapper σ L W) (later : σ → σ → Prop)
    (out : σ → Arc L W → Arc L W → Prop) (l₀ l : ArcMapLoop σ L W) (k : ℕ) : Prop where
  numStates : l.fst.numStates = l₀.fst.numStates
  start : l.fst.start = l₀.fst.start
  superfinal : l.superfinal = l₀.superfinal
  later : later l₀.mapper l.mapper
  others : ∀ t, (k ≤ t ∨ l₀.superfinal = some t) →
    l.fst.arcs t = l₀.fst.arcs t ∧ l.fst.finalWeight t = l₀.fst.finalWeight t
  mapped : ∀ s < k, l₀.superfinal ≠ some s →
    MappedAt mapper out (l₀.superfinal.getD 0) l.mapper l₀.fst l.fst s

/- At the superfinal state there are no arcs to map. -/
theorem arcMapState_superfinal (h : Tracks mapper later out) (hs : s < l.fst.numStates)
    (hsuper : l.superfinal = some s) (harcs : l.fst.arcs s = []) :
    (arcMapState mapper l s).2 = false ∧
      (arcMapState mapper l s).1.fst.numStates = l.fst.numStates ∧
      (arcMapState mapper l s).1.fst.start = l.fst.start ∧
      (arcMapState mapper l s).1.superfinal = l.superfinal ∧
      later l.mapper (arcMapState mapper l s).1.mapper ∧
      (arcMapState mapper l s).1.fst.arcs = l.fst.arcs ∧
      (arcMapState mapper l s).1.fst.finalWeight = l.fst.finalWeight := by
  obtain ⟨arcs, harcs', hfinal, hnum, hstart, hlater, hall⟩ := mutateArcs_tracks h hs l.mapper
  unfold arcMapState
  dsimp only
  rw [if_pos hsuper]
  rw [harcs] at hall
  cases hall
  refine ⟨rfl, hnum, hstart, rfl, hlater, ?_, hfinal⟩
  rw [harcs', ← harcs, Function.update_eq_self]

theorem mapRun_step (h : Tracks mapper later out) {l₀ : ArcMapLoop σ L W}
    (hsettled : Settled mapper later out l₀.mapper) {k : ℕ} (hrun : MapRun mapper later out l₀ l k)
    (hk : k < l₀.fst.numStates) (hempty : ∀ t, l₀.superfinal = some t → l₀.fst.arcs t = []) :
    (arcMapState mapper l k).2 = false ∧
      MapRun mapper later out l₀ (arcMapState mapper l k).1 (k + 1) := by
  have hlt : k < l.fst.numStates := hrun.numStates.symm ▸ hk
  by_cases hsuper : l.superfinal = some k
  · have hsuper₀ := hrun.superfinal.symm.trans hsuper
    have harcs : l.fst.arcs k = [] := ((hrun.others k (Or.inl le_rfl)).1).trans (hempty k hsuper₀)
    obtain ⟨herror, hnum, hstart, hsuper', hlater, harcs', hfinal'⟩ :=
      arcMapState_superfinal h hlt hsuper harcs
    refine ⟨herror, hnum.trans hrun.numStates, hstart.trans hrun.start,
      hsuper'.trans hrun.superfinal, h.trans _ _ _ hrun.later hlater, ?_, ?_⟩
    · intro t ht
      rw [harcs', hfinal']
      exact hrun.others t (ht.imp_left fun hle => by omega)
    · intro s hs hne
      have hsk : s < k := by
        have hne' : s ≠ k := fun heq => hne (heq ▸ hsuper₀)
        omega
      exact (hrun.mapped s hsk hne).mono h hlater (by rw [harcs']) (by rw [hfinal'])
  · obtain ⟨herror, hturn⟩ := arcMapState_turn h hsettled hrun.later hlt hsuper
    refine ⟨herror, hturn.numStates.trans hrun.numStates, hturn.start.trans hrun.start,
      hturn.superfinal.trans hrun.superfinal, h.trans _ _ _ hrun.later hturn.later, ?_, ?_⟩
    · intro t ht
      have hne : t ≠ k := by
        rintro rfl
        rcases ht with hle | heq
        · omega
        · exact hsuper (hrun.superfinal.trans heq)
      obtain ⟨harcs, hfinal⟩ := hturn.others t hne
      obtain ⟨harcs', hfinal'⟩ := hrun.others t (ht.imp_left fun hle => by omega)
      exact ⟨harcs.trans harcs', hfinal.trans hfinal'⟩
    · intro s hs hne
      by_cases hsk : s = k
      · subst hsk
        obtain ⟨arcs, mapped, hall, hout, harcs, hfinal⟩ := hturn.mapped
        obtain ⟨harcs', hfinal'⟩ := hrun.others s (Or.inl le_rfl)
        rw [harcs'] at hall
        rw [hfinal'] at hout
        rw [hrun.superfinal] at harcs hfinal
        exact ⟨arcs, mapped, hall, hout, harcs, hfinal⟩
      · obtain ⟨harcs, hfinal⟩ := hturn.others s hsk
        exact (hrun.mapped s (by omega) hne).mono h hturn.later harcs hfinal

theorem mapRun_states (h : Tracks mapper later out) {l₀ : ArcMapLoop σ L W}
    (hsettled : Settled mapper later out l₀.mapper)
    (hempty : ∀ t, l₀.superfinal = some t → l₀.fst.arcs t = []) (n : ℕ) {k : ℕ}
    (hrun : MapRun mapper later out l₀ l k) (hk : k + n ≤ l₀.fst.numStates) :
    (arcMapStates mapper (List.range' k n) l).2 = false ∧
      MapRun mapper later out l₀ (arcMapStates mapper (List.range' k n) l).1 (k + n) := by
  induction n generalizing k l with
  | zero => exact ⟨rfl, hrun⟩
  | succ n ih =>
    obtain ⟨herror, hstep⟩ := mapRun_step h hsettled hrun (by omega) hempty
    obtain ⟨herror', hrest⟩ := ih hstep (by omega)
    rw [List.range'_succ, arcMapStates]
    dsimp only
    rw [herror]
    rw [show k + (n + 1) = k + 1 + n by omega]
    exact ⟨herror', hrest⟩

end Loop

section Whole

variable {later : σ → σ → Prop} {out : σ → Arc L W → Arc L W → Prop} {mapper : ArcMapper σ L W}

/- What `arcMap` makes of an FST that has a start state. -/
structure ArcMapped (mapper : ArcMapper σ L W) (out : σ → Arc L W → Arc L W → Prop) (m : σ)
    (fst fst' : VectorFst L W) : Prop where
  start : fst'.start = fst.start
  numStates : fst'.numStates =
    if mapper.finalAction = .requireSuperfinal then fst.numStates + 1 else fst.numStates
  mapped : ∀ s < fst.numStates, MappedAt mapper out fst.numStates m fst fst' s
  superfinal : mapper.finalAction = .requireSuperfinal →
    fst'.arcs fst.numStates = [] ∧ fst'.finalWeight fst.numStates = 1

theorem arcMapStart_reads (mapper : ArcMapper σ L W) (fst : VectorFst L W) (m : σ) :
    (arcMapStart mapper fst m).fst.start = fst.start ∧
    (arcMapStart mapper fst m).mapper = m ∧
    (arcMapStart mapper fst m).fst.arcs = fst.arcs ∧
    (∀ s < fst.numStates, (arcMapStart mapper fst m).fst.finalWeight s = fst.finalWeight s) ∧
    ((arcMapStart mapper fst m).fst.numStates =
      if mapper.finalAction = .requireSuperfinal then fst.numStates + 1 else fst.numStates) ∧
    ((arcMapStart mapper fst m).superfinal =
      if mapper.finalAction = .requireSuperfinal then some fst.numStates else none) ∧
    (mapper.finalAction = .requireSuperfinal →
      (arcMapStart mapper fst m).fst.finalWeight fst.numStates = 1) := by
  unfold arcMapStart
  by_cases haction : mapper.finalAction = .requireSuperfinal
  · have hlt : fst.numStates < fst.addState.numStates := by
      simp [VectorFst.numStates, VectorFst.addState]
    have hadd : fst.addState.finalWeight = fst.finalWeight :=
      VectorFst.finalWeight_addStates fst 1
    simp only [haction, if_true, VectorFst.start_setFinal, VectorFst.arcs_setFinal,
      VectorFst.numStates_setFinal, VectorFst.finalWeight_setFinal 1 hlt, hadd, true_and,
      forall_const, Function.update_self, and_true]
    refine ⟨rfl, VectorFst.arcs_addStates fst 1, fun s hs => ?_, ?_⟩
    · rw [Function.update_of_ne (by omega)]
    · simp [VectorFst.numStates, VectorFst.addState]
  · simp [haction]

theorem arcMap_mapped (h : Tracks mapper later out) {m : σ} (hsettled : Settled mapper later out m)
    (hstart : fst.start ≠ none) :
    (fst.arcMap mapper m).2 = .ok () ∧ later m (fst.arcMapMapper mapper m) ∧
      ArcMapped mapper out (fst.arcMapMapper mapper m) fst (fst.arcMap mapper m).1 := by
  obtain ⟨hstart', hmapper, harcs, hfinal, hnum, hsuper, hone⟩ := arcMapStart_reads mapper fst m
  have hlast : ∀ t, (arcMapStart mapper fst m).superfinal = some t → t = fst.numStates := by
    intro t ht
    rw [hsuper] at ht
    split at ht
    · exact (Option.some.inj ht).symm
    · cases ht
  have hrun : MapRun mapper later out (arcMapStart mapper fst m) (arcMapStart mapper fst m) 0 :=
    ⟨rfl, rfl, rfl, h.refl _, fun _ _ => ⟨rfl, rfl⟩, fun s hs => absurd hs (by omega)⟩
  have hempty : ∀ t, (arcMapStart mapper fst m).superfinal = some t →
      (arcMapStart mapper fst m).fst.arcs t = [] := by
    intro t ht
    rw [hlast t ht, harcs]
    exact VectorFst.arcs_of_le le_rfl
  obtain ⟨herror, hend⟩ := mapRun_states h (hmapper.symm ▸ hsettled) hempty
    (arcMapStart mapper fst m).fst.numStates hrun (by omega)
  rw [← List.range_eq_range'] at herror hend
  unfold VectorFst.arcMap VectorFst.arcMapMapper
  rw [if_neg hstart, if_neg hstart]
  dsimp only
  simp only [herror, Bool.false_eq_true, if_false, true_and]
  generalize arcMapStates mapper (List.range (arcMapStart mapper fst m).fst.numStates)
    (arcMapStart mapper fst m) = run at *
  obtain ⟨l, error⟩ := run
  dsimp only at *
  refine ⟨hmapper ▸ hend.later, hend.start.trans hstart', hend.numStates.trans hnum, ?_, ?_⟩
  · intro s hs
    have hne : (arcMapStart mapper fst m).superfinal ≠ some s := fun heq => by
      have hs' := hlast s heq
      omega
    have hle : fst.numStates ≤ (arcMapStart mapper fst m).fst.numStates := by
      rw [hnum]
      split <;> omega
    obtain ⟨arcs, mapped, hall, hout, harcs', hfinal'⟩ := hend.mapped s (by omega) hne
    rw [harcs] at hall
    rw [hfinal s hs] at hout
    refine ⟨arcs, mapped, hall, hout, ?_, ?_⟩
    · refine harcs'.trans ?_
      rw [hsuper]
      unfold finished
      cases mapper.finalAction <;> rfl
    · refine hfinal'.trans ?_
      unfold finished
      cases mapper.finalAction <;> rfl
  · intro haction
    have hsuper' : (arcMapStart mapper fst m).superfinal = some fst.numStates := by
      rw [hsuper, if_pos haction]
    obtain ⟨harcs', hfinal'⟩ := hend.others fst.numStates (Or.inr hsuper')
    refine ⟨harcs'.trans ?_, hfinal'.trans (hone haction)⟩
    rw [harcs]
    exact VectorFst.arcs_of_le le_rfl

end Whole

end ArcMapRuns

end Sicada
