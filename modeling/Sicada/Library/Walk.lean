import Mathlib

namespace Walk

section Walks

variable {V E : Type*}

/- A walk names the edges it takes, each leaving the vertex the one before it leads to. -/
def IsWalk (edge : V → E → Prop) (dst : V → E → V) : V → List E → V → Prop
  | s, [], t => s = t
  | s, e :: p, t => edge s e ∧ IsWalk edge dst (dst s e) p t

variable {edge : V → E → Prop} {dst : V → E → V}

@[simp] theorem isWalk_nil {s t : V} : IsWalk edge dst s [] t ↔ s = t := Iff.rfl

@[simp] theorem isWalk_cons {s t : V} {e : E} {p : List E} :
    IsWalk edge dst s (e :: p) t ↔ edge s e ∧ IsWalk edge dst (dst s e) p t := Iff.rfl

theorem isWalk_append {s t : V} {p q : List E} :
    IsWalk edge dst s (p ++ q) t ↔ ∃ u, IsWalk edge dst s p u ∧ IsWalk edge dst u q t := by
  induction p generalizing s with
  | nil => simp
  | cons e p ih =>
    rw [List.cons_append, isWalk_cons, ih]
    constructor
    · rintro ⟨he, u, hp, hq⟩
      exact ⟨u, ⟨he, hp⟩, hq⟩
    · rintro ⟨u, ⟨he, hp⟩, hq⟩
      exact ⟨he, u, hp, hq⟩

/- Where a walk ends is settled by where it starts and the edges it takes. -/
def walkEnd (dst : V → E → V) (s : V) (p : List E) : V := p.foldl dst s

theorem walkEnd_eq {s t : V} {p : List E} (h : IsWalk edge dst s p t) : walkEnd dst s p = t := by
  induction p generalizing s with
  | nil => exact h
  | cons e p ih => exact ih h.2

/- The walks from `s` that end where `final` holds. -/
def acceptedFrom (edge : V → E → Prop) (dst : V → E → V) (final : V → Prop) (s : V) :
    Set (List E) :=
  {p | ∃ t, IsWalk edge dst s p t ∧ final t}

theorem nil_mem_acceptedFrom {final : V → Prop} {s : V} :
    [] ∈ acceptedFrom edge dst final s ↔ final s := by
  constructor
  · rintro ⟨t, rfl, ht⟩
    exact ht
  · intro hs
    exact ⟨s, rfl, hs⟩

theorem cons_mem_acceptedFrom {final : V → Prop} {s : V} {e : E} {p : List E} :
    e :: p ∈ acceptedFrom edge dst final s ↔
      edge s e ∧ p ∈ acceptedFrom edge dst final (dst s e) := by
  constructor
  · rintro ⟨t, ⟨he, hp⟩, ht⟩
    exact ⟨he, t, hp, ht⟩
  · rintro ⟨he, t, hp, ht⟩
    exact ⟨t, ⟨he, hp⟩, ht⟩

end Walks

/- One graph covers another when the edges leaving a vertex stand one to one for those leaving
the vertex it lies over. -/
structure Covers {V E V' E' : Type*} (edge' : V' → E' → Prop) (dst' : V' → E' → V')
    (edge : V → E → Prop) (dst : V → E → V) (base : V' → V) (shadow : V' → E' → E)
    (Known : V' → Prop) : Prop where
  edges : ∀ v e, Known v → edge' v e → edge (base v) (shadow v e)
  dst : ∀ v e, Known v → edge' v e → base (dst' v e) = dst (base v) (shadow v e)
  known : ∀ v e, Known v → edge' v e → Known (dst' v e)
  inj : ∀ v e₁ e₂, Known v → edge' v e₁ → edge' v e₂ → shadow v e₁ = shadow v e₂ → e₁ = e₂
  surj : ∀ v e, Known v → edge (base v) e → ∃ e', edge' v e' ∧ shadow v e' = e

namespace Covers

variable {V E V' E' : Type*} {edge' : V' → E' → Prop} {dst' : V' → E' → V'}
  {edge : V → E → Prop} {dst : V → E → V} {base : V' → V} {shadow : V' → E' → E}
  {Known : V' → Prop} {final' : V' → Prop} {final : V → Prop}

def project (dst' : V' → E' → V') (shadow : V' → E' → E) : V' → List E' → List E
  | _, [] => []
  | v, e :: p => shadow v e :: project dst' shadow (dst' v e) p

/- The walks of a covering graph stand one to one for the walks it lies over. -/
theorem bijOn_project (h : Covers edge' dst' edge dst base shadow Known)
    (hfinal : ∀ v, Known v → (final' v ↔ final (base v))) {v : V'} (hv : Known v) :
    Set.BijOn (project dst' shadow v) (acceptedFrom edge' dst' final' v)
      (acceptedFrom edge dst final (base v)) := by
  refine ⟨?_, ?_, ?_⟩
  · intro p hp
    induction p generalizing v with
    | nil => exact nil_mem_acceptedFrom.mpr ((hfinal v hv).mp (nil_mem_acceptedFrom.mp hp))
    | cons e p ih =>
      obtain ⟨he, hp⟩ := cons_mem_acceptedFrom.mp hp
      have hrest := ih (h.known v e hv he) hp
      rw [h.dst v e hv he] at hrest
      exact cons_mem_acceptedFrom.mpr ⟨h.edges v e hv he, hrest⟩
  · intro p hp q hq heq
    induction p generalizing v q with
    | nil =>
      cases q with
      | nil => rfl
      | cons e q => simp [project] at heq
    | cons e p ih =>
      cases q with
      | nil => simp [project] at heq
      | cons e' q =>
        obtain ⟨he, hp⟩ := cons_mem_acceptedFrom.mp hp
        obtain ⟨he', hq⟩ := cons_mem_acceptedFrom.mp hq
        obtain ⟨hshadow, hrest⟩ := List.cons.inj heq
        obtain rfl := h.inj v e e' hv he he' hshadow
        rw [ih (h.known v e hv he) hp hq hrest]
  · intro q hq
    induction q generalizing v with
    | nil =>
      have hv' := (hfinal v hv).mpr (nil_mem_acceptedFrom.mp hq)
      exact ⟨[], nil_mem_acceptedFrom.mpr hv', rfl⟩
    | cons e q ih =>
      obtain ⟨he, hq⟩ := cons_mem_acceptedFrom.mp hq
      obtain ⟨e', he', rfl⟩ := h.surj v e hv he
      rw [← h.dst v e' hv he'] at hq
      obtain ⟨p, hp, rfl⟩ := ih (h.known v e' hv he') hq
      exact ⟨e' :: p, cons_mem_acceptedFrom.mpr ⟨he', hp⟩, rfl⟩

/- What is read along a walk is read along the walk it lies over. -/
theorem map_project {X : Type*} (h : Covers edge' dst' edge dst base shadow Known)
    {read' : E' → X} {read : E → X}
    (hread : ∀ v e, Known v → edge' v e → read (shadow v e) = read' e) {v : V'} (hv : Known v)
    {p : List E'} (hp : p ∈ acceptedFrom edge' dst' final' v) :
    (project dst' shadow v p).map read = p.map read' := by
  induction p generalizing v with
  | nil => rfl
  | cons e p ih =>
    obtain ⟨he, hp⟩ := cons_mem_acceptedFrom.mp hp
    rw [project, List.map_cons, List.map_cons, hread v e hv he, ih (h.known v e hv he) hp]

theorem known_walkEnd (h : Covers edge' dst' edge dst base shadow Known) {v : V'} (hv : Known v)
    {p : List E'} (hp : p ∈ acceptedFrom edge' dst' final' v) : Known (walkEnd dst' v p) := by
  induction p generalizing v with
  | nil => exact hv
  | cons e p ih =>
    obtain ⟨he, hp⟩ := cons_mem_acceptedFrom.mp hp
    exact ih (h.known v e hv he) hp

theorem walkEnd_project (h : Covers edge' dst' edge dst base shadow Known) {v : V'}
    (hv : Known v) {p : List E'} (hp : p ∈ acceptedFrom edge' dst' final' v) :
    walkEnd dst (base v) (project dst' shadow v p) = base (walkEnd dst' v p) := by
  induction p generalizing v with
  | nil => rfl
  | cons e p ih =>
    obtain ⟨he, hp⟩ := cons_mem_acceptedFrom.mp hp
    have hrest := ih (h.known v e hv he) hp
    rw [h.dst v e hv he] at hrest
    exact hrest

end Covers

end Walk

namespace Walk

section Reverse

variable {V E : Type*} {Mem : E → Prop} {src dst : E → V}

/- A walk taken from its end leads back to its start. -/
theorem isWalk_reverse {s t : V} {p : List E} :
    IsWalk (fun v e => Mem e ∧ dst e = v) (fun _ => src) t p.reverse s ↔
      IsWalk (fun v e => Mem e ∧ src e = v) (fun _ => dst) s p t := by
  induction p generalizing s with
  | nil => exact eq_comm
  | cons e p ih =>
    rw [List.reverse_cons, isWalk_append, isWalk_cons]
    constructor
    · rintro ⟨u, hp, ⟨hmem, hdst⟩, hsrc⟩
      rw [ih, ← hdst] at hp
      exact ⟨⟨hmem, hsrc⟩, hp⟩
    · rintro ⟨⟨hmem, hsrc⟩, hp⟩
      exact ⟨dst e, ih.mpr hp, ⟨hmem, rfl⟩, hsrc⟩

/- The walks of a graph stand one to one for those back. -/
theorem bijOn_reverse (start final : V → Prop) :
    Set.BijOn List.reverse
      {p | ∃ t, final t ∧
        p ∈ acceptedFrom (fun v e => Mem e ∧ dst e = v) (fun _ => src) start t}
      {p | ∃ s, start s ∧
        p ∈ acceptedFrom (fun v e => Mem e ∧ src e = v) (fun _ => dst) final s} := by
  refine ⟨?_, List.reverse_injective.injOn, ?_⟩
  · rintro p ⟨t, ht, s, hp, hs⟩
    refine ⟨s, hs, t, ?_, ht⟩
    rw [← isWalk_reverse, p.reverse_reverse]
    exact hp
  · rintro p ⟨s, hs, t, hp, ht⟩
    exact ⟨p.reverse, ⟨t, ht, s, isWalk_reverse.mpr hp, hs⟩, p.reverse_reverse⟩

end Reverse

end Walk

namespace Acyclic

open Relation

variable {V : Type*} {r : V → V → Prop}

/- Where edges leave finitely many vertices only and close no cycle, every edge leads to a vertex
of a lower rank: the number of vertices with edges that are still to come. -/
theorem exists_rank {S : Finset V} (hS : ∀ s t, r s t → s ∈ S) (hacyclic : ∀ s, ¬ TransGen r s s) :
    ∃ rank : V → ℕ, ∀ s t, r s t → rank t < rank s := by
  classical
  refine ⟨fun s => (S.filter fun t => ReflTransGen r s t).card, ?_⟩
  intro s t hst
  apply Finset.card_lt_card
  rw [Finset.ssubset_iff_of_subset]
  · refine ⟨s, Finset.mem_filter.mpr ⟨hS s t hst, ReflTransGen.refl⟩, ?_⟩
    intro hs
    exact hacyclic s (TransGen.head' hst (Finset.mem_filter.mp hs).2)
  · intro u hu
    obtain ⟨huS, htu⟩ := Finset.mem_filter.mp hu
    exact Finset.mem_filter.mpr ⟨huS, ReflTransGen.head hst htu⟩

/- What can be reached along edges that bring a rank down and leave finitely many choices. -/
theorem reachable_finite {rank : V → ℕ} (hrank : ∀ s t, r s t → rank t < rank s)
    (hfin : ∀ s, {t | r s t}.Finite) (s : V) : {t | ReflTransGen r s t}.Finite := by
  induction hn : rank s using Nat.strong_induction_on generalizing s with
  | _ n ih =>
    have hnext : (⋃ t ∈ {t | r s t}, {u | ReflTransGen r t u}).Finite := by
      apply (hfin s).biUnion
      intro t ht
      exact ih (rank t) (hn ▸ hrank s t ht) t rfl
    apply (hnext.insert s).subset
    intro u hu
    rcases ReflTransGen.cases_head hu with rfl | ⟨t, hst, htu⟩
    · exact Set.mem_insert _ _
    · exact Set.mem_insert_of_mem _ (Set.mem_biUnion hst htu)

end Acyclic

namespace Walk

variable {V E : Type*} {edge : V → E → Prop} {dst : V → E → V}

/- The vertices that a walk goes through. -/
def visited (dst : V → E → V) : V → List E → List V
  | s, [] => [s]
  | s, e :: p => s :: visited dst (dst s e) p

theorem length_visited (s : V) (p : List E) : (visited dst s p).length = p.length + 1 := by
  induction p generalizing s with
  | nil => rfl
  | cons e p ih => rw [visited, List.length_cons, List.length_cons, ih]

theorem forall_visited {P : V → Prop} (hstep : ∀ s e, P s → edge s e → P (dst s e)) {s t : V}
    {p : List E} (hp : IsWalk edge dst s p t) (hs : P s) : ∀ u ∈ visited dst s p, P u := by
  induction p generalizing s with
  | nil =>
    intro u hu
    rwa [List.mem_singleton.mp hu]
  | cons e p ih =>
    intro u hu
    rcases List.mem_cons.mp hu with rfl | hu
    · exact hs
    · exact ih hp.2 (hstep s e hs hp.1) u hu

theorem exists_split {s t u : V} {p : List E} (hp : IsWalk edge dst s p t)
    (hu : u ∈ visited dst s p) : ∃ p₁ p₂, p = p₁ ++ p₂ ∧ IsWalk edge dst s p₁ u ∧
      IsWalk edge dst u p₂ t ∧ visited dst u p₂ <:+ visited dst s p := by
  induction p generalizing s with
  | nil =>
    obtain rfl := List.mem_singleton.mp hu
    exact ⟨[], [], rfl, rfl, hp, List.suffix_refl _⟩
  | cons e p ih =>
    rcases List.mem_cons.mp hu with rfl | hu
    · exact ⟨[], e :: p, rfl, rfl, hp, List.suffix_refl _⟩
    · obtain ⟨p₁, p₂, rfl, hp₁, hp₂, hsuffix⟩ := ih hp.2 hu
      exact ⟨e :: p₁, p₂, rfl, ⟨hp.1, hp₁⟩, hp₂, hsuffix.trans (List.suffix_cons _ _)⟩

/- Where nothing is gained around a cycle, every gain is the gain of a walk without one. -/
theorem exists_simple {M : Type*} [AddMonoid M] {gain : E → M}
    (hcycle : ∀ s p, IsWalk edge dst s p s → (p.map gain).sum = 0) {s t : V} {p : List E}
    (hp : IsWalk edge dst s p t) : ∃ q, IsWalk edge dst s q t ∧ (visited dst s q).Nodup ∧
      (q.map gain).sum = (p.map gain).sum := by
  induction p generalizing s with
  | nil => exact ⟨[], hp, List.nodup_singleton s, rfl⟩
  | cons e p ih =>
    obtain ⟨q, hq, hnodup, hsum⟩ := ih hp.2
    by_cases hs : s ∈ visited dst (dst s e) q
    · -- the walk comes back to where it starts
      obtain ⟨q₁, q₂, rfl, hq₁, hq₂, hsuffix⟩ := exists_split hq hs
      refine ⟨q₂, hq₂, hnodup.sublist hsuffix.sublist, ?_⟩
      have hback : ((e :: q₁).map gain).sum = 0 := hcycle s (e :: q₁) ⟨hp.1, hq₁⟩
      calc (q₂.map gain).sum = ((e :: q₁).map gain).sum + (q₂.map gain).sum := by
            rw [hback, zero_add]
        _ = gain e + ((q₁ ++ q₂).map gain).sum := by
            rw [← List.sum_append, ← List.map_append, List.cons_append, List.map_cons,
              List.sum_cons]
        _ = ((e :: p).map gain).sum := by rw [hsum, List.map_cons, List.sum_cons]
    · refine ⟨e :: q, ⟨hp.1, hq⟩, List.nodup_cons.mpr ⟨hs, hnodup⟩, ?_⟩
      rw [List.map_cons, List.sum_cons, hsum, List.map_cons, List.sum_cons]

/- A walk without a cycle through finitely many vertices is no longer than they are many. -/
theorem length_lt_card [DecidableEq V] {S : Finset V} {s : V} {p : List E}
    (hnodup : (visited dst s p).Nodup) (hS : ∀ u ∈ visited dst s p, u ∈ S) :
    p.length < S.card := by
  have hcard := List.toFinset_card_of_nodup hnodup
  rw [length_visited] at hcard
  have hle := Finset.card_le_card fun u hu => hS u (List.mem_toFinset.mp hu)
  omega

theorem abs_sum_le {α : Type*} {gain : α → ℤ} (hgain : ∀ e, |gain e| ≤ 1) (p : List α) :
    |(p.map gain).sum| ≤ p.length := by
  induction p with
  | nil => simp
  | cons e p ih =>
    rw [List.map_cons, List.sum_cons, List.length_cons, Nat.cast_add, Nat.cast_one]
    have hadd := abs_add_le (gain e) (p.map gain).sum
    have hone := hgain e
    linarith

/- Without a gain around a cycle, no walk through finitely many vertices gains much. -/
theorem abs_sum_lt_card [DecidableEq V] {gain : E → ℤ} (hgain : ∀ e, |gain e| ≤ 1)
    (hcycle : ∀ s p, IsWalk edge dst s p s → (p.map gain).sum = 0) {S : Finset V}
    (hstep : ∀ s e, s ∈ S → edge s e → dst s e ∈ S) {s t : V} {p : List E}
    (hp : IsWalk edge dst s p t) (hs : s ∈ S) : |(p.map gain).sum| < S.card := by
  obtain ⟨q, hq, hnodup, hsum⟩ := exists_simple hcycle hp
  have hlt := length_lt_card hnodup (forall_visited hstep hq hs)
  rw [← hsum]
  have hle := abs_sum_le hgain q
  omega

end Walk

namespace Links

open Relation

variable {α : Type*} {arcs : List (α × α)} {a b c s t : α}

/- The ends of the arcs, joined whichever way they point. -/
def Linked (arcs : List (α × α)) : α → α → Prop := EqvGen fun s t => (s, t) ∈ arcs

theorem linked_refl (a : α) : Linked arcs a a := EqvGen.refl a

theorem Linked.symm (h : Linked arcs a b) : Linked arcs b a := EqvGen.symm a b h

theorem Linked.trans (h : Linked arcs a b) (h' : Linked arcs b c) : Linked arcs a c :=
  EqvGen.trans a b c h h'

theorem linked_of_mem (h : (s, t) ∈ arcs) : Linked arcs s t := EqvGen.rel s t h

theorem linked_mono {arcs' : List (α × α)} (hsub : ∀ arc ∈ arcs, arc ∈ arcs')
    (h : Linked arcs a b) : Linked arcs' a b := EqvGen.mono (fun _ _ harc => hsub _ harc) _ _ h

/- A new arc joins what its ends were linked to. -/
theorem linked_cons : Linked ((s, t) :: arcs) a b ↔ Linked arcs a b ∨
    Linked arcs a s ∧ Linked arcs t b ∨ Linked arcs a t ∧ Linked arcs s b := by
  have hold : ∀ {a b : α}, Linked arcs a b → Linked ((s, t) :: arcs) a b :=
    fun h => linked_mono (fun _ harc => List.mem_cons_of_mem _ harc) h
  have hnew : Linked ((s, t) :: arcs) s t := linked_of_mem List.mem_cons_self
  constructor
  · intro h
    induction h with
    | rel x y hmem =>
      rcases List.mem_cons.mp hmem with heq | hmem
      · obtain ⟨rfl, rfl⟩ := Prod.mk.inj heq
        exact .inr (.inl ⟨linked_refl x, linked_refl y⟩)
      · exact .inl (linked_of_mem hmem)
    | refl x => exact .inl (linked_refl x)
    | symm x y _ ih =>
      rcases ih with h | ⟨hx, hy⟩ | ⟨hx, hy⟩
      · exact .inl h.symm
      · exact .inr (.inr ⟨hy.symm, hx.symm⟩)
      · exact .inr (.inl ⟨hy.symm, hx.symm⟩)
    | trans x y z _ _ ih ih' =>
      rcases ih with h | ⟨hx, hy⟩ | ⟨hx, hy⟩
      · rcases ih' with h' | ⟨hy', hz⟩ | ⟨hy', hz⟩
        · exact .inl (h.trans h')
        · exact .inr (.inl ⟨h.trans hy', hz⟩)
        · exact .inr (.inr ⟨h.trans hy', hz⟩)
      · rcases ih' with h' | ⟨-, hz⟩ | ⟨-, hz⟩
        · exact .inr (.inl ⟨hx, hy.trans h'⟩)
        · exact .inr (.inl ⟨hx, hz⟩)
        · exact .inl (hx.trans hz)
      · rcases ih' with h' | ⟨-, hz⟩ | ⟨-, hz⟩
        · exact .inr (.inr ⟨hx, hy.trans h'⟩)
        · exact .inl (hx.trans hz)
        · exact .inr (.inr ⟨hx, hz⟩)
  · rintro (h | ⟨hs, ht⟩ | ⟨ht, hs⟩)
    · exact hold h
    · exact ((hold hs).trans hnew).trans (hold ht)
    · exact ((hold ht).trans hnew.symm).trans (hold hs)

/- An arc between linked ends changes nothing. -/
theorem linked_cons_of_linked (hst : Linked arcs s t) :
    Linked ((s, t) :: arcs) a b ↔ Linked arcs a b := by
  rw [linked_cons]
  constructor
  · rintro (h | ⟨hs, ht⟩ | ⟨ht, hs⟩)
    · exact h
    · exact (hs.trans hst).trans ht
    · exact (ht.trans hst.symm).trans hs
  · exact .inl

/- What is the end of no arc is linked to itself only. -/
theorem eq_of_linked (hfresh : ∀ arc ∈ arcs, arc.1 ≠ a ∧ arc.2 ≠ a) (h : Linked arcs a b) :
    a = b := by
  have hboth : ∀ x y, Linked arcs x y → (x = a ↔ y = a) := by
    intro x y hxy
    induction hxy with
    | rel x y hmem => exact iff_of_false (hfresh _ hmem).1 (hfresh _ hmem).2
    | refl x => exact Iff.rfl
    | symm x y _ ih => exact ih.symm
    | trans x y z _ _ ih ih' => exact ih.trans ih'
  exact ((hboth a b h).mp rfl).symm

end Links
