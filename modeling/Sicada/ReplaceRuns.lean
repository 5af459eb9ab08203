import Sicada.Paths
import Sicada.ReplaceCycles

namespace Sicada.ReplaceRuns

open Paths Walk ReplaceCycles

variable {L W : Type} [ArcLabel L]

/- A path through a network read as a grammar: an arc taken as it stands, or one that stands for a
path of the FST it names. The last state of each FST gives its final weight. -/
inductive Derivation (L W : Type) where
  | done (finalWeight : W)
  | arc (e : ℕ × Arc L W) (rest : Derivation L W)
  | call (e : ℕ × Arc L W) (callee start : ℕ) (sub rest : Derivation L W)

instance [Zero W] : Inhabited (Derivation L W) := ⟨.done 0⟩

namespace Derivation

def istring : Derivation L W → List L
  | done _ => []
  | arc e rest => (if e.2.ilabel = epsilon then [] else [e.2.ilabel]) ++ istring rest
  | call _ _ _ sub rest => istring sub ++ istring rest

def ostring : Derivation L W → List L
  | done _ => []
  | arc e rest => (if e.2.olabel = epsilon then [] else [e.2.olabel]) ++ ostring rest
  | call _ _ _ sub rest => ostring sub ++ ostring rest

def weight [Mul W] : Derivation L W → W
  | done finalWeight => finalWeight
  | arc e rest => e.2.weight * weight rest
  | call e _ _ sub rest => e.2.weight * weight sub * weight rest

end Derivation

variable [Zero W]

/- Whether a label is that of the FST at a place in the network. -/
def Names (fsts : List (L × VectorFst L W)) (olabel : L) (callee : ℕ) : Prop :=
  olabel ≠ epsilon ∧ (fsts[callee]?).map Prod.fst = some olabel

/- The derivations from a state of one of the FSTs. -/
def Derives (fsts : List (L × VectorFst L W)) : ℕ → ℕ → Derivation L W → Prop
  | fstId, s, .done finalWeight =>
    finalWeight = (fstAt fsts fstId).finalWeight s ∧ finalWeight ≠ 0
  | fstId, s, .arc e rest => Leaves (fstAt fsts fstId) s e ∧
      (∀ callee, ¬ Names fsts e.2.olabel callee) ∧ Derives fsts fstId e.2.nextstate rest
  | fstId, s, .call e callee start sub rest => Leaves (fstAt fsts fstId) s e ∧
      Names fsts e.2.olabel callee ∧ (fstAt fsts callee).start = some start ∧
      Derives fsts callee start sub ∧ Derives fsts fstId e.2.nextstate rest

def derivations (fsts : List (L × VectorFst L W)) (root : L) : Set (Derivation L W) :=
  {d | ∃ fstId start, (fsts[fstId]?).map Prod.fst = some root ∧
    (fstAt fsts fstId).start = some start ∧ Derives fsts fstId start d}

/- Where an expansion stands: the calls to come back from, and a state of an FST. -/
@[ext]
structure Vertex where
  stack : List (ℕ × ℕ)
  fstId : ℕ
  fstState : ℕ
deriving DecidableEq

inductive Move (L W : Type) where
  | ret (finalWeight : W)
  | arc (e : ℕ × Arc L W)
  | call (e : ℕ × Arc L W) (callee start : ℕ)

def Enabled (fsts : List (L × VectorFst L W)) (v : Vertex) : Move L W → Prop
  | .ret finalWeight => v.stack ≠ [] ∧
      finalWeight = (fstAt fsts v.fstId).finalWeight v.fstState ∧ finalWeight ≠ 0
  | .arc e => Leaves (fstAt fsts v.fstId) v.fstState e ∧ ∀ callee, ¬ Names fsts e.2.olabel callee
  | .call e callee start => Leaves (fstAt fsts v.fstId) v.fstState e ∧
      Names fsts e.2.olabel callee ∧ (fstAt fsts callee).start = some start

def next (v : Vertex) : Move L W → Vertex
  | .ret _ =>
    match v.stack with
    | (caller, resume) :: stack => ⟨stack, caller, resume⟩
    | [] => v
  | .arc e => { v with fstState := e.2.nextstate }
  | .call e callee start => ⟨(v.fstId, e.2.nextstate) :: v.stack, callee, start⟩

def Finishes (fsts : List (L × VectorFst L W)) (v : Vertex) : Prop :=
  v.stack = [] ∧ (fstAt fsts v.fstId).finalWeight v.fstState ≠ 0

/- The runs of the expansion from a vertex to a final one. -/
def movesFrom (fsts : List (L × VectorFst L W)) (v : Vertex) : Set (List (Move L W)) :=
  acceptedFrom (Enabled fsts) next (Finishes fsts) v

namespace Derivation

def finalOf : Derivation L W → W
  | done finalWeight => finalWeight
  | arc _ rest => finalOf rest
  | call _ _ _ _ rest => finalOf rest

/- The moves of a derivation, one after the other. -/
def moves : Derivation L W → List (Move L W)
  | done _ => []
  | arc e rest => .arc e :: moves rest
  | call e callee start sub rest =>
    .call e callee start :: (moves sub ++ .ret (finalOf sub) :: moves rest)

end Derivation

variable {fsts : List (L × VectorFst L W)}

/- A derivation is a run that leaves the stack as it was. -/
theorem isWalk_moves {d : Derivation L W} {fstId s : ℕ} (h : Derives fsts fstId s d)
    (stack : List (ℕ × ℕ)) : ∃ t,
      IsWalk (Enabled fsts) next ⟨stack, fstId, s⟩ d.moves ⟨stack, fstId, t⟩ ∧
        d.finalOf = (fstAt fsts fstId).finalWeight t ∧ d.finalOf ≠ 0 := by
  induction d generalizing fstId s stack with
  | done finalWeight => exact ⟨s, rfl, h⟩
  | arc e rest ih =>
    obtain ⟨he, hnames, hrest⟩ := h
    obtain ⟨t, hwalk, hfinal⟩ := ih hrest stack
    exact ⟨t, ⟨⟨he, hnames⟩, hwalk⟩, hfinal⟩
  | call e callee start sub rest ihsub ihrest =>
    obtain ⟨he, hnames, hstart, hsub, hrest⟩ := h
    obtain ⟨u, hwalksub, hfinalsub⟩ := ihsub hsub ((fstId, e.2.nextstate) :: stack)
    obtain ⟨t, hwalk, hfinal⟩ := ihrest hrest stack
    refine ⟨t, ⟨⟨he, hnames, hstart⟩, ?_⟩, hfinal⟩
    exact isWalk_append.mpr ⟨_, hwalksub, ⟨List.cons_ne_nil _ _, hfinalsub⟩, hwalk⟩

/- What is left of a run when the FST it is in comes to an end. -/
def Resumes (fsts : List (L × VectorFst L W)) (finalWeight : W) :
    List (ℕ × ℕ) → List (Move L W) → Prop
  | [], tail => tail = []
  | (caller, resume) :: stack, tail =>
    ∃ q ∈ movesFrom fsts ⟨stack, caller, resume⟩, tail = .ret finalWeight :: q

/- A run takes the FST it is in to an end before anything on the stack is come back to. -/
theorem exists_derivation {n : ℕ} {q : List (Move L W)} (hn : q.length = n) {v : Vertex}
    (hq : q ∈ movesFrom fsts v) : ∃ d tail, Derives fsts v.fstId v.fstState d ∧
      q = d.moves ++ tail ∧ Resumes fsts d.finalOf v.stack tail := by
  induction n using Nat.strong_induction_on generalizing q v with
  | _ n ih =>
    obtain ⟨stack, fstId, s⟩ := v
    cases q with
    | nil =>
      obtain ⟨hstack, hfinal⟩ := nil_mem_acceptedFrom.mp hq
      dsimp only at hstack hfinal
      subst hstack
      exact ⟨.done ((fstAt fsts fstId).finalWeight s), [], ⟨rfl, hfinal⟩, rfl, rfl⟩
    | cons m q =>
      obtain ⟨hm, hrest⟩ := cons_mem_acceptedFrom.mp hq
      rw [List.length_cons] at hn
      cases m with
      | ret finalWeight =>
        obtain ⟨hstack, hfinal⟩ := hm
        cases stack with
        | nil => exact absurd rfl hstack
        | cons frame stack =>
          exact ⟨.done finalWeight, .ret finalWeight :: q, hfinal, rfl, q, hrest, rfl⟩
      | arc e =>
        obtain ⟨he, hnames⟩ := hm
        obtain ⟨d, tail, hd, rfl, htail⟩ := ih q.length (by omega) rfl hrest
        exact ⟨.arc e d, tail, ⟨he, hnames, hd⟩, rfl, htail⟩
      | call e callee start =>
        obtain ⟨he, hnames, hstart⟩ := hm
        obtain ⟨sub, tail, hsub, rfl, q', hq', rfl⟩ := ih q.length (by omega) rfl hrest
        have hlt : q'.length < n := by
          rw [← hn, List.length_append, List.length_cons]
          omega
        obtain ⟨d, tail, hd, rfl, htail⟩ := ih q'.length hlt rfl hq'
        refine ⟨.call e callee start sub d, tail, ⟨he, hnames, hstart, hsub, hd⟩, ?_, htail⟩
        simp [Derivation.moves]

/- Where a run comes to an end or goes back to a caller, the derivation before is settled. -/
def Closing (tail : List (Move L W)) : Prop := tail = [] ∨ ∃ w q, tail = .ret w :: q

theorem moves_injective {d d' : Derivation L W} {fstId s : ℕ} {tail tail' : List (Move L W)}
    (hd : Derives fsts fstId s d) (hd' : Derives fsts fstId s d') (htail : Closing tail)
    (htail' : Closing tail') (heq : d.moves ++ tail = d'.moves ++ tail') :
    d = d' ∧ tail = tail' := by
  induction d generalizing d' fstId s tail tail' with
  | done finalWeight =>
    cases d' with
    | done finalWeight' =>
      rw [hd.1, hd'.1]
      exact ⟨rfl, heq⟩
    | arc e rest =>
      have heq' : tail = .arc e :: (rest.moves ++ tail') := heq
      rcases htail with rfl | ⟨w, q, rfl⟩ <;> cases heq'
    | call e callee start sub rest =>
      have heq' : tail = .call e callee start :: (sub.moves ++ .ret sub.finalOf :: rest.moves ++
        tail') := heq
      rcases htail with rfl | ⟨w, q, rfl⟩ <;> cases heq'
  | arc e rest ih =>
    cases d' with
    | done finalWeight' =>
      have heq' : .arc e :: (rest.moves ++ tail) = tail' := heq
      rcases htail' with rfl | ⟨w, q, rfl⟩ <;> cases heq'
    | arc e' rest' =>
      obtain ⟨hhead, hmoves⟩ := List.cons.inj heq
      cases hhead
      obtain ⟨rfl, rfl⟩ := ih hd.2.2 hd'.2.2 htail htail' hmoves
      exact ⟨rfl, rfl⟩
    | call e' callee start sub rest' =>
      obtain ⟨hhead, -⟩ := List.cons.inj heq
      cases hhead
  | call e callee start sub rest ihsub ihrest =>
    cases d' with
    | done finalWeight' =>
      have heq' : .call e callee start :: (sub.moves ++ .ret sub.finalOf :: rest.moves ++ tail) =
        tail' := heq
      rcases htail' with rfl | ⟨w, q, rfl⟩ <;> cases heq'
    | arc e' rest' =>
      obtain ⟨hhead, -⟩ := List.cons.inj heq
      cases hhead
    | call e' callee' start' sub' rest' =>
      simp only [Derivation.moves, List.append_assoc, List.cons_append] at heq
      obtain ⟨hhead, hmoves⟩ := List.cons.inj heq
      cases hhead
      obtain ⟨-, -, -, hsub, hrest⟩ := hd
      obtain ⟨-, -, -, hsub', hrest'⟩ := hd'
      obtain ⟨rfl, htails⟩ := ihsub hsub hsub' (Or.inr ⟨_, _, rfl⟩)
        (Or.inr ⟨_, _, rfl⟩) hmoves
      obtain ⟨rfl, rfl⟩ := ihrest hrest hrest' htail htail' (List.cons.inj htails).2
      exact ⟨rfl, rfl⟩

/- The runs of the expansion stand one to one for the derivations. -/
theorem moves_bijOn (fstId s : ℕ) :
    Set.BijOn Derivation.moves {d | Derives fsts fstId s d} (movesFrom fsts ⟨[], fstId, s⟩) := by
  refine ⟨?_, ?_, ?_⟩
  · intro d hd
    obtain ⟨t, hwalk, hfinal, hne⟩ := isWalk_moves hd []
    exact ⟨_, hwalk, rfl, hfinal ▸ hne⟩
  · intro d hd d' hd' heq
    have heq' : d.moves ++ [] = d'.moves ++ [] := by rw [heq]
    exact (moves_injective hd hd' (Or.inl rfl) (Or.inl rfl) heq').1
  · intro q hq
    obtain ⟨d, tail, hd, rfl, htail⟩ := exists_derivation rfl hq
    obtain rfl : tail = [] := htail
    exact ⟨d, hd, (List.append_nil _).symm⟩

section Reading

/- What a move reads, writes and weighs. -/
def moveILabel : Move L W → L
  | .arc e => e.2.ilabel
  | _ => epsilon

def moveOLabel : Move L W → L
  | .arc e => e.2.olabel
  | _ => epsilon

def moveWeight : Move L W → W
  | .ret finalWeight => finalWeight
  | .arc e => e.2.weight
  | .call e _ _ => e.2.weight

theorem filter_moveILabel (d : Derivation L W) :
    (d.moves.map moveILabel).filter (· ≠ epsilon) = d.istring := by
  induction d with
  | done finalWeight => rfl
  | arc e rest ih =>
    rw [Derivation.moves, Derivation.istring, ← ih]
    by_cases heps : e.2.ilabel = epsilon <;> simp [moveILabel, heps]
  | call e callee start sub rest ihsub ihrest =>
    rw [Derivation.moves, Derivation.istring, ← ihsub, ← ihrest]
    simp [moveILabel]

theorem filter_moveOLabel (d : Derivation L W) :
    (d.moves.map moveOLabel).filter (· ≠ epsilon) = d.ostring := by
  induction d with
  | done finalWeight => rfl
  | arc e rest ih =>
    rw [Derivation.moves, Derivation.ostring, ← ih]
    by_cases heps : e.2.olabel = epsilon <;> simp [moveOLabel, heps]
  | call e callee start sub rest ihsub ihrest =>
    rw [Derivation.moves, Derivation.ostring, ← ihsub, ← ihrest]
    simp [moveOLabel]

end Reading

theorem prod_moveWeight {K : Type} [Semiring K] (d : Derivation L K) :
    (d.moves.map moveWeight).prod * d.finalOf = d.weight := by
  induction d with
  | done finalWeight => simp [Derivation.moves, Derivation.finalOf, Derivation.weight]
  | arc e rest ih =>
    rw [Derivation.moves, Derivation.weight, ← ih, List.map_cons, List.prod_cons, mul_assoc]
    rfl
  | call e callee start sub rest ihsub ihrest =>
    rw [Derivation.moves, Derivation.weight, ← ihsub, ← ihrest]
    simp [moveWeight, Derivation.finalOf, mul_assoc]

end Sicada.ReplaceRuns
