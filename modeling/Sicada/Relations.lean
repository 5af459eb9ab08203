import Sicada.Library.PathSemiring
import Sicada.Paths

namespace Sicada

/- Weights of which no side need distribute over sums. -/
class PreSemiring (W : Type) extends AddCommMonoid W, MonoidWithZero W

instance {W : Type} [Semiring W] : PreSemiring W := {}

namespace Relations

open Paths Walk Regroup

variable {L W : Type} [ArcLabel L]

/- What a path shows of one of its arcs. -/
def reading (e : ℕ × Arc L W) : L × L × W := (e.2.ilabel, e.2.olabel, e.2.weight)

section Reading

variable [Zero W]

/- The weight an accepting path ends with. -/
def lastWeight (fst : VectorFst L W) (p : List (ℕ × Arc L W)) : W :=
  fst.finalWeight (walkEnd follow (fst.start.getD 0) p)

/- The accepting paths of two FSTs stand one to one and read the same labels and weights. -/
def SamePaths (fst fst' : VectorFst L W) : Prop :=
  ∃ F, Set.BijOn F (acceptingPaths fst') (acceptingPaths fst) ∧ ∀ p ∈ acceptingPaths fst',
    (F p).map reading = p.map reading ∧ lastWeight fst (F p) = lastWeight fst' p

/- The accepting paths that spell a pair of strings, epsilons left out. -/
def related (fst : VectorFst L W) (i o : List L) : Set (List (ℕ × Arc L W)) :=
  {p | p ∈ acceptingPaths fst ∧ istring p = i ∧ ostring p = o}

/- What a path of an acceptor reads it also writes. -/
theorem strings_acceptor {fst : VectorFst L W}
    (h : ∀ s, ∀ arc ∈ fst.arcs s, arc.ilabel = arc.olabel) {p : List (ℕ × Arc L W)}
    (hp : p ∈ acceptingPaths fst) : istring p = ostring p := by
  obtain ⟨s, -, hp⟩ := hp
  induction p generalizing s with
  | nil => rfl
  | cons e p ih =>
    obtain ⟨he, hp⟩ := cons_mem_acceptingFrom.mp hp
    have hrest := ih _ hp
    unfold istring ostring at hrest ⊢
    rw [List.map_cons, List.map_cons, List.filter_cons, List.filter_cons,
      h s e.2 (List.mem_of_getElem? he), hrest]

end Reading

theorem istring_eq_of_reading {p q : List (ℕ × Arc L W)} (h : p.map reading = q.map reading) :
    istring p = istring q := by
  have hlabels : ∀ r : List (ℕ × Arc L W), r.map (·.2.ilabel) = (r.map reading).map (·.1) := by
    intro r
    rw [List.map_map]
    rfl
  unfold istring
  rw [hlabels p, hlabels q, h]

theorem ostring_eq_of_reading {p q : List (ℕ × Arc L W)} (h : p.map reading = q.map reading) :
    ostring p = ostring q := by
  have hlabels : ∀ r : List (ℕ × Arc L W), r.map (·.2.olabel) = (r.map reading).map (·.2.1) := by
    intro r
    rw [List.map_map]
    rfl
  unfold ostring
  rw [hlabels p, hlabels q, h]

section Kept

variable {V E W' : Type} {fst' : VectorFst L W'} {kept : ℕ → List E} {moved : ℕ → E → Arc L W'}
  {pick : ℕ → ℕ × Arc L W' → E} {Known : ℕ → Prop}

/- `pick` finds the edge that an arc was made from, among those kept at its state. -/
def Picks (fst' : VectorFst L W') (kept : ℕ → List E) (moved : ℕ → E → Arc L W')
    (pick : ℕ → ℕ × Arc L W' → E) (Known : ℕ → Prop) : Prop :=
  ∀ k e, Known k → Leaves fst' k e → (kept k)[e.1]? = some (pick k e) ∧ moved k (pick k e) = e.2

theorem picks_getD (harcs : ∀ k, Known k → fst'.arcs k = (kept k).map (moved k))
    (default : ℕ → ℕ × Arc L W' → E) :
    Picks fst' kept moved (fun k e => (kept k)[e.1]?.getD (default k e)) Known := by
  intro k e hk he
  unfold Leaves at he
  rw [harcs k hk, List.getElem?_map] at he
  obtain ⟨a, ha, hmoved⟩ := Option.map_eq_some_iff.mp he
  dsimp only
  rw [ha]
  exact ⟨rfl, hmoved⟩

/- An FST whose arcs are those of a list for each state covers the graph of the lists. -/
theorem covers_of_kept {edge : V → E → Prop} {dst : V → E → V} {base : ℕ → V}
    (hpick : Picks fst' kept moved pick Known)
    (harcs : ∀ k, Known k → fst'.arcs k = (kept k).map (moved k)) (hnodup : ∀ k, (kept k).Nodup)
    (hedge : ∀ k e, Known k → (e ∈ kept k ↔ edge (base k) e))
    (hdst : ∀ k e, Known k → e ∈ kept k →
      Known (moved k e).nextstate ∧ base (moved k e).nextstate = dst (base k) e) :
    Covers (Leaves fst') follow edge dst base pick Known := by
  refine covers_of_moves (fun k e hk he => ⟨(hpick k e hk he).1, ?_⟩) (fun k hk => ?_) hnodup hedge
  · have hmoved := hdst k _ hk (List.mem_of_getElem? (hpick k e hk he).1)
    rwa [(hpick k e hk he).2] at hmoved
  · rw [harcs k hk, List.length_map]

end Kept

section Listed

variable {fst' : VectorFst L W} {base : ℕ → ℕ} {kept : ℕ → List (ℕ × Arc L W)}
  {moved : ℕ × Arc L W → Arc L W} {Known : ℕ → Prop}

/- The edge an edge of the list `kept` of its state comes from. -/
def listed (kept : ℕ → List (ℕ × Arc L W)) (k : ℕ) (e : ℕ × Arc L W) : ℕ × Arc L W :=
  (kept k)[e.1]?.getD e

theorem picks_listed (harcs : ∀ k, Known k → fst'.arcs k = (kept k).map moved) :
    Picks fst' kept (fun _ => moved) (listed kept) Known :=
  picks_getD harcs fun _ e => e

theorem covers_of_lists {edge : ℕ → ℕ × Arc L W → Prop}
    (harcs : ∀ k, Known k → fst'.arcs k = (kept k).map moved) (hnodup : ∀ k, (kept k).Nodup)
    (hedge : ∀ k e, Known k → (e ∈ kept k ↔ edge (base k) e))
    (hdst : ∀ k e, Known k → e ∈ kept k →
      Known (moved e).nextstate ∧ base (moved e).nextstate = e.2.nextstate) :
    Covers (Leaves fst') follow edge follow base (listed kept) Known :=
  covers_of_kept (picks_listed harcs) harcs hnodup hedge hdst

theorem reading_listed (harcs : ∀ k, Known k → fst'.arcs k = (kept k).map moved)
    (hmoved : ∀ i e, reading (i, moved e) = reading e) (k : ℕ) (e : ℕ × Arc L W) (hk : Known k)
    (he : Leaves fst' k e) : reading (listed kept k e) = reading e := by
  have hpick : moved (listed kept k e) = e.2 := (picks_listed harcs k e hk he).2
  rw [← hmoved e.1, hpick]

end Listed

section Weights

variable [PreSemiring W]

def arcsWeight (p : List (ℕ × Arc L W)) : W := (p.map (·.2.weight)).prod

def weightOf (fst : VectorFst L W) (p : List (ℕ × Arc L W)) : W :=
  arcsWeight p * lastWeight fst p

theorem arcsWeight_eq_of_reading {p q : List (ℕ × Arc L W)} (h : p.map reading = q.map reading) :
    arcsWeight p = arcsWeight q := by
  have hweights : ∀ r : List (ℕ × Arc L W), r.map (·.2.weight) = (r.map reading).map (·.2.2) := by
    intro r
    rw [List.map_map]
    rfl
  unfold arcsWeight
  rw [hweights p, hweights q, h]

variable [TopologicalSpace W]

/- The weights of the paths that spell the two strings sum up to `w`, whichever way a sum of
endlessly many is read. -/
def Gives (fst : VectorFst L W) (i o : List L) (w : W) : Prop :=
  HasSum (fun p : related fst i o => weightOf fst p) w

theorem gives_single {fst : VectorFst L W} {i o : List L} {p : List (ℕ × Arc L W)}
    (h : related fst i o = {p}) : Gives fst i o (weightOf fst p) := by
  have hsum : HasSum (fun q : ({p} : Set (List (ℕ × Arc L W))) => weightOf fst q)
      (weightOf fst p) := hasSum_unique _
  unfold Gives
  rwa [h]

theorem gives_of_bijOn {fst fst' : VectorFst L W} {F : List (ℕ × Arc L W) → List (ℕ × Arc L W)}
    (hbij : Set.BijOn F (acceptingPaths fst') (acceptingPaths fst))
    (hstrings : ∀ p ∈ acceptingPaths fst', istring (F p) = istring p ∧ ostring (F p) = ostring p)
    (hweight : ∀ p ∈ acceptingPaths fst', weightOf fst (F p) = weightOf fst' p) {i o : List L}
    {w : W} : Gives fst i o w ↔ Gives fst' i o w := by
  have hrelated : Set.BijOn F (related fst' i o) (related fst i o) := by
    refine ⟨?_, hbij.injOn.mono fun p hp => hp.1, ?_⟩
    · rintro p ⟨hp, hi, ho⟩
      obtain ⟨hi', ho'⟩ := hstrings p hp
      exact ⟨hbij.mapsTo hp, hi'.trans hi, ho'.trans ho⟩
    · rintro q ⟨hq, hi, ho⟩
      obtain ⟨p, hp, rfl⟩ := hbij.surjOn hq
      obtain ⟨hi', ho'⟩ := hstrings p hp
      exact ⟨p, ⟨hp, hi'.symm.trans hi, ho'.symm.trans ho⟩, rfl⟩
  exact hasSum_bijOn hrelated fun p hp => hweight p hp.1

theorem SamePaths.gives {fst fst' : VectorFst L W} (h : SamePaths fst fst') {i o : List L}
    {w : W} : Gives fst i o w ↔ Gives fst' i o w := by
  obtain ⟨F, hbij, hread⟩ := h
  refine gives_of_bijOn hbij (fun p hp => ?_) fun p hp => ?_
  · have hreading := (hread p hp).1
    exact ⟨istring_eq_of_reading hreading, ostring_eq_of_reading hreading⟩
  · unfold weightOf
    rw [arcsWeight_eq_of_reading (hread p hp).1, (hread p hp).2]

end Weights

end Relations

end Sicada
