import Sicada.ArcMap

namespace Sicada

variable {L W : Type} [ArcLabel L] [Zero W] [One W] [DecidableEq W]

inductive MutableOp (L W : Type) : Type 1
  | setStart (state : Option ℕ)
  | setFinal (state : ℕ) (weight : W)
  | addState
  | addStates (n : ℕ)
  | addArc (state : ℕ) (arc : Arc L W)
  | mutateArcs (σ : Type) (state : ℕ) (mutator : Arc L W → σ → Arc L W × σ) (m : σ)
  | deleteArcsN (state n : ℕ)
  | deleteArcs (state : ℕ)
  | deleteStates (dstates : List ℕ)
  | deleteAllStates

/- `none` is a panic. -/
def MutableOp.apply : MutableOp L W → VectorFst L W → Option (VectorFst L W)
  | .setStart state, fst => some (fst.setStart state)
  | .setFinal state weight, fst => some (fst.setFinal state weight)
  | .addState, fst => some fst.addState
  | .addStates n, fst => some (fst.addStates n)
  | .addArc state arc, fst => some (fst.addArc state arc)
  | .mutateArcs _ state mutator m, fst => some (fst.mutateArcs state mutator m).1
  | .deleteArcsN state n, fst => some (fst.deleteArcsN state n)
  | .deleteArcs state, fst => some (fst.deleteArcs state)
  | .deleteStates dstates, fst => fst.deleteStates dstates
  | .deleteAllStates, fst => some fst.deleteAllStates

inductive FstOp (L W : Type) : Type 1
  | edit (op : MutableOp L W)
  | arcMap (σ : Type) (mapper : ArcMapper σ L W) (m : σ)
  | invert
  | project (projectType : ProjectType)
  | relabel (ipairs opairs : List (L × L))

def FstOp.apply [ToString L] : FstOp L W → VectorFst L W → Option (VectorFst L W)
  | .edit op, fst => op.apply fst
  | .arcMap _ mapper m, fst => some (fst.arcMap mapper m).1
  | .invert, fst => some fst.invert.1
  | .project projectType, fst => some (fst.project projectType).1
  | .relabel ipairs opairs, fst => some (fst.relabel ipairs opairs).1

/- What a sequence of operations makes of an FST, one after the other. -/
def runOps {Op State : Type*} (apply : Op → State → Option State) :
    List Op → State → Option State
  | [], state => some state
  | op :: ops, state => (apply op state).bind (runOps apply ops)

section Invariants

variable {Op State : Type*} {apply : Op → State → Option State}

variable {ops : List Op} {Ok : State → Op → Prop}

@[simp] theorem runOps_cons_some {op : Op} {s t : State} :
    runOps apply (op :: ops) s = some t ↔ ∃ u, apply op s = some u ∧ runOps apply ops u = some t :=
  Option.bind_eq_some_iff

/- Every step of the run meets `Ok` in the state it is taken from. -/
def AllSteps (apply : Op → State → Option State) (Ok : State → Op → Prop) :
    List Op → State → Prop
  | [], _ => True
  | op :: ops, s => Ok s op ∧ ∀ t, apply op s = some t → AllSteps apply Ok ops t

theorem run_invariant {Inv : State → Prop}
    (hstep : ∀ op s t, Ok s op → Inv s → apply op s = some t → Inv t) {s t : State}
    (hall : AllSteps apply Ok ops s) (hs : Inv s) (hrun : runOps apply ops s = some t) : Inv t := by
  induction ops generalizing s with
  | nil =>
    have h : s = t := Option.some.inj hrun
    exact h ▸ hs
  | cons op ops ih =>
    obtain ⟨u, hu, hrun⟩ := runOps_cons_some.mp hrun
    exact ih (hall.2 u hu) (hstep op s u hall.1 hs hu) hrun

/- A run none of whose steps can fail gets to its end. -/
theorem run_succeeds {Inv : State → Prop}
    (hstep : ∀ op s, Ok s op → Inv s → ∃ t, apply op s = some t ∧ Inv t) {s : State}
    (hall : AllSteps apply Ok ops s) (hs : Inv s) :
    ∃ t, runOps apply ops s = some t ∧ Inv t := by
  induction ops generalizing s with
  | nil => exact ⟨s, rfl, hs⟩
  | cons op ops ih =>
    obtain ⟨u, hu, hinv⟩ := hstep op s hall.1 hs
    obtain ⟨t, hrun, ht⟩ := ih (hall.2 u hu) hinv
    exact ⟨t, runOps_cons_some.mpr ⟨u, hu, hrun⟩, ht⟩

theorem allSteps_of_forall (h : ∀ s op, Ok s op) (ops : List Op) (s : State) :
    AllSteps apply Ok ops s := by
  induction ops generalizing s with
  | nil => trivial
  | cons op ops ih => exact ⟨h s op, fun t _ => ih t⟩

theorem run_preserves {Inv : State → Prop} (hstep : ∀ op s t, Inv s → apply op s = some t → Inv t)
    {s t : State} (hs : Inv s) (hrun : runOps apply ops s = some t) : Inv t := by
  have hall : AllSteps apply (fun _ _ => True) ops s := allSteps_of_forall (fun _ _ => trivial) ops s
  exact run_invariant (fun op s t _ => hstep op s t) hall hs hrun

end Invariants

end Sicada
