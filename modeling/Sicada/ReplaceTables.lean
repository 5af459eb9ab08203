import Sicada.ReplaceRuns

namespace Sicada.ReplaceTables

open ListLemmas ReplaceRuns

section Prefixes

/- The frames of a stack, from the top down. -/
def stackOf (prefixes : List PrefixEntry) (prefixId : ℕ) : List (ℕ × ℕ) :=
  match PrefixTable.top prefixes prefixId with
  | some (parent, fstId, state) =>
    if parent < prefixId then (fstId, state) :: stackOf prefixes parent else []
  | none => []
termination_by prefixId

/- Every stack but the empty one has a frame on one that was there before it. -/
structure WellLinked (prefixes : List PrefixEntry) : Prop where
  nodup : prefixes.Nodup
  empty : prefixes[0]? = some ⟨0, 0, none⟩
  linked : ∀ id entry, prefixes[id]? = some entry → id ≠ 0 →
    entry.parent < id ∧ entry.returnState.isSome

variable {prefixes prefixes' : List PrefixEntry} {prefixId parent fstId state : ℕ}

theorem top_of_getElem? (h : prefixes[prefixId]? = some ⟨parent, fstId, some state⟩)
    (hne : prefixId ≠ 0) : PrefixTable.top prefixes prefixId = some (parent, fstId, state) := by
  rw [PrefixTable.top, if_neg hne, h]
  rfl

theorem stackOf_zero (prefixes : List PrefixEntry) : stackOf prefixes 0 = [] := by
  rw [stackOf, PrefixTable.top, if_pos rfl]

theorem stackOf_of_top (h : PrefixTable.top prefixes prefixId = some (parent, fstId, state))
    (hlt : parent < prefixId) :
    stackOf prefixes prefixId = (fstId, state) :: stackOf prefixes parent := by
  rw [stackOf, h]
  dsimp only
  rw [if_pos hlt]

/- A stack keeps its frames while others are added. -/
theorem stackOf_grow (h : prefixes <+: prefixes') (hlt : prefixId < prefixes.length) :
    stackOf prefixes' prefixId = stackOf prefixes prefixId := by
  induction prefixId using Nat.strong_induction_on with
  | _ prefixId ih =>
    have htop : PrefixTable.top prefixes' prefixId = PrefixTable.top prefixes prefixId := by
      obtain ⟨rest, rfl⟩ := h
      unfold PrefixTable.top
      rw [List.getElem?_append_left hlt]
    rw [stackOf, htop]
    conv_rhs => rw [stackOf]
    split
    · next parent fstId state hsome =>
      split
      · next hparent => rw [ih parent hparent (hparent.trans hlt)]
      · rfl
    · rfl

theorem WellLinked.exists_top (h : WellLinked prefixes) (hlt : prefixId < prefixes.length)
    (hne : prefixId ≠ 0) : ∃ parent fstId state,
      prefixes[prefixId]? = some ⟨parent, fstId, some state⟩ ∧ parent < prefixId ∧
        stackOf prefixes prefixId = (fstId, state) :: stackOf prefixes parent := by
  have hget := List.getElem?_eq_getElem hlt
  obtain ⟨hparent, hsome⟩ := h.linked prefixId _ hget hne
  obtain ⟨state, hstate⟩ := Option.isSome_iff_exists.mp hsome
  refine ⟨prefixes[prefixId].parent, prefixes[prefixId].fstId, state, ?_, hparent, ?_⟩
  · rw [hget, ← hstate]
  · apply stackOf_of_top _ hparent
    apply top_of_getElem? _ hne
    rw [hget, ← hstate]

theorem WellLinked.eq_zero (h : WellLinked prefixes) (hlt : prefixId < prefixes.length)
    (hstack : stackOf prefixes prefixId = []) : prefixId = 0 := by
  by_contra hne
  obtain ⟨parent, fstId, state, -, -, hcons⟩ := h.exists_top hlt hne
  rw [hstack] at hcons
  cases hcons

/- Two stacks with the same frames are the same entry. -/
theorem WellLinked.stackOf_injective (h : WellLinked prefixes) {a b : ℕ}
    (ha : a < prefixes.length) (hb : b < prefixes.length)
    (heq : stackOf prefixes a = stackOf prefixes b) : a = b := by
  induction a using Nat.strong_induction_on generalizing b with
  | _ a ih =>
    by_cases hzero : a = 0
    · subst hzero
      rw [stackOf_zero] at heq
      exact (h.eq_zero hb heq.symm).symm
    · obtain ⟨parent, fstId, state, hget, hlt, hstack⟩ := h.exists_top ha hzero
      by_cases hzero' : b = 0
      · subst hzero'
        rw [stackOf_zero] at heq
        exact h.eq_zero ha heq
      · obtain ⟨parent', fstId', state', hget', hlt', hstack'⟩ := h.exists_top hb hzero'
        rw [hstack, hstack'] at heq
        obtain ⟨hframe, hrest⟩ := List.cons.inj heq
        obtain ⟨rfl, rfl⟩ := Prod.mk.inj hframe
        obtain rfl := ih parent hlt (hlt.trans ha) (hlt'.trans hb) hrest
        exact (List.getElem?_inj ha h.nodup).mp (hget.trans hget'.symm)

theorem wellLinked_new : WellLinked PrefixTable.new := by
  refine ⟨List.nodup_singleton _, rfl, ?_⟩
  intro id entry hget hne
  have hlt := (List.getElem?_eq_some_iff.mp hget).1
  have hlen : PrefixTable.new.length = 1 := rfl
  omega

theorem push_spec (h : WellLinked prefixes) (hlt : prefixId < prefixes.length) (fstId state : ℕ) :
    WellLinked (PrefixTable.push prefixes prefixId fstId state).2 ∧
      prefixes <+: (PrefixTable.push prefixes prefixId fstId state).2 ∧
      (PrefixTable.push prefixes prefixId fstId state).1 <
        (PrefixTable.push prefixes prefixId fstId state).2.length ∧
      stackOf (PrefixTable.push prefixes prefixId fstId state).2
          (PrefixTable.push prefixes prefixId fstId state).1 =
        (fstId, state) :: stackOf prefixes prefixId := by
  obtain ⟨hgrow, hnodup, hid, -⟩ := BiTable.findId_spec h.nodup ⟨prefixId, fstId, some state⟩
  have hempty := getElem?_of_grow hgrow h.empty
  have hne : (BiTable.findId prefixes ⟨prefixId, fstId, some state⟩).1 ≠ 0 := by
    intro hzero
    rw [hzero, hempty] at hid
    cases hid
  have hlinked : ∀ id entry, (BiTable.findId prefixes ⟨prefixId, fstId, some state⟩).2[id]? =
      some entry → id ≠ 0 → entry.parent < id ∧ entry.returnState.isSome := by
    rcases BiTable.findId_cases prefixes ⟨prefixId, fstId, some state⟩ with ⟨id, -, hfind⟩ | hfind
    · rw [hfind]
      exact h.linked
    · rw [hfind]
      intro id entry hget hidne
      by_cases hidlt : id < prefixes.length
      · rw [List.getElem?_append_left hidlt] at hget
        exact h.linked id entry hget hidne
      · rw [List.getElem?_append_right (by omega), List.getElem?_singleton] at hget
        split at hget
        · cases hget
          exact ⟨by dsimp only; omega, rfl⟩
        · cases hget
  refine ⟨⟨hnodup, hempty, hlinked⟩, hgrow, (List.getElem?_eq_some_iff.mp hid).1, ?_⟩
  unfold PrefixTable.push
  rw [stackOf_of_top (top_of_getElem? hid hne) (hlinked _ _ hid hne).1, stackOf_grow hgrow hlt]

end Prefixes

structure TablesOk (l : ReplaceTables) : Prop where
  linked : WellLinked l.prefixes
  nodup : l.states.Nodup
  known : ∀ tuple ∈ l.states, tuple.prefixId < l.prefixes.length

def vertexOf (prefixes : List PrefixEntry) (tuple : StateTuple) : Vertex :=
  ⟨stackOf prefixes tuple.prefixId, tuple.fstId, tuple.fstState⟩

/- The vertex that a state of the result stands for. -/
def vertexAt (l : ReplaceTables) (q : ℕ) : Vertex :=
  vertexOf l.prefixes (l.states.getD q ⟨0, 0, 0⟩)

def At (l : ReplaceTables) (q : ℕ) (v : Vertex) : Prop :=
  q < l.states.length ∧ vertexAt l q = v

/- One set of tables has come from another by looking up more states. -/
structure Grown (l l' : ReplaceTables) : Prop where
  prefixes : l.prefixes <+: l'.prefixes
  states : l.states <+: l'.states
  ok : TablesOk l'
  pending : ∀ x, x ∈ l'.pending ↔
    x ∈ l.pending ∨ (l.states.length ≤ x ∧ x < l'.states.length)
  pendingNodup : (∀ x ∈ l.pending, x < l.states.length) → l.pending.Nodup → l'.pending.Nodup
  card : l'.pending.length + l.states.length = l.pending.length + l'.states.length

variable {l l' l'' : ReplaceTables}

theorem grown_refl (h : TablesOk l) : Grown l l := by
  refine ⟨List.prefix_rfl, List.prefix_rfl, h, ?_, fun _ hnodup => hnodup, rfl⟩
  intro x
  constructor
  · exact Or.inl
  · rintro (hx | ⟨hle, hlt⟩)
    · exact hx
    · omega

theorem Grown.trans (h : Grown l l') (h' : Grown l' l'') : Grown l l'' := by
  have hle := h.states.length_le
  have hle' := h'.states.length_le
  refine ⟨h.prefixes.trans h'.prefixes, h.states.trans h'.states, h'.ok, ?_, ?_, ?_⟩
  · exact ListLemmas.mem_worklist_trans h.pending h'.pending hle hle'
  · exact fun hlt hnodup => h'.pendingNodup (ListLemmas.lt_of_mem_worklist h.pending hle hlt)
      (h.pendingNodup hlt hnodup)
  · have hcard := h.card
    have hcard' := h'.card
    omega

theorem vertexOf_grow (h : l.prefixes <+: l'.prefixes) (hok : TablesOk l) {tuple : StateTuple}
    (htuple : tuple ∈ l.states) : vertexOf l'.prefixes tuple = vertexOf l.prefixes tuple := by
  rw [vertexOf, vertexOf, stackOf_grow h (hok.known tuple htuple)]

theorem vertexAt_eq {q : ℕ} {tuple : StateTuple} (h : l.states[q]? = some tuple) :
    vertexAt l q = vertexOf l.prefixes tuple := by
  rw [vertexAt, List.getD_eq_getElem?_getD, h, Option.getD_some]

theorem At.mono (h : Grown l l') (hok : TablesOk l) {q : ℕ} {v : Vertex} (hq : At l q v) :
    At l' q v := by
  obtain ⟨hlt, rfl⟩ := hq
  have hget := List.getElem?_eq_getElem hlt
  refine ⟨hlt.trans_le h.states.length_le, ?_⟩
  rw [vertexAt_eq hget, vertexAt_eq (getElem?_of_grow h.states hget),
    vertexOf_grow h.prefixes hok (List.getElem_mem hlt)]

/- No two states stand for one vertex. -/
theorem vertexOf_injective (h : TablesOk l) {tuple tuple' : StateTuple} (htuple : tuple ∈ l.states)
    (htuple' : tuple' ∈ l.states) (heq : vertexOf l.prefixes tuple = vertexOf l.prefixes tuple') :
    tuple = tuple' := by
  obtain ⟨hstack, hfst, hstate⟩ := Vertex.mk.inj heq
  have hid := h.linked.stackOf_injective (h.known _ htuple) (h.known _ htuple') hstack
  exact StateTuple.ext hid hfst hstate

/- A push before a lookup adds a stack and no state. -/
theorem grown_of_prefixes (h : TablesOk l) {prefixes : List PrefixEntry}
    (hlinked : WellLinked prefixes) (hgrow : l.prefixes <+: prefixes) :
    Grown l { l with prefixes := prefixes } := by
  obtain ⟨-, -, -, hpending, hnodup, hcard⟩ := grown_refl h
  refine ⟨hgrow, List.prefix_rfl, ⟨hlinked, h.nodup, ?_⟩, hpending, hnodup, hcard⟩
  intro tuple htuple
  exact (h.known tuple htuple).trans_le hgrow.length_le

theorem findState_spec (h : TablesOk l) {tuple : StateTuple}
    (hlt : tuple.prefixId < l.prefixes.length) :
    Grown l (l.findState tuple).2 ∧
      At (l.findState tuple).2 (l.findState tuple).1 (vertexOf l.prefixes tuple) ∧
      ∀ t ∈ (l.findState tuple).2.states, t ∈ l.states ∨ t = tuple := by
  obtain ⟨hgrow, hnodup, hid, hnew⟩ := BiTable.findId_spec h.nodup tuple
  have hok : TablesOk (l.findState tuple).2 := by
    refine ⟨h.linked, hnodup, ?_⟩
    intro t ht
    rcases hnew t ht with ht | rfl
    · exact h.known t ht
    · exact hlt
  have hat : At (l.findState tuple).2 (l.findState tuple).1 (vertexOf l.prefixes tuple) :=
    ⟨(List.getElem?_eq_some_iff.mp hid).1, vertexAt_eq hid⟩
  refine ⟨?_, hat, hnew⟩
  rcases BiTable.findId_cases l.states tuple with ⟨id, hidlt, hfind⟩ | hfind
  · have hsame : l.findState tuple = (id, l) := by
      simp [findState, hfind, hidlt.ne]
    rw [hsame]
    exact grown_refl h
  · have hadd : l.findState tuple = (l.states.length, { l with
        states := l.states ++ [tuple]
        pending := l.states.length :: l.pending }) := by
      simp [findState, hfind]
    rw [hadd] at hok ⊢
    refine ⟨List.prefix_rfl, List.prefix_append _ _, hok, ?_, ?_, ?_⟩
    · intro x
      simp only [List.mem_cons, List.length_append, List.length_singleton]
      constructor
      · rintro (rfl | hx)
        · exact Or.inr ⟨le_rfl, by omega⟩
        · exact Or.inl hx
      · rintro (hx | ⟨hle, hx⟩)
        · exact Or.inr hx
        · exact Or.inl (by omega)
    · intro hpending hpnodup
      exact List.nodup_cons.mpr ⟨fun hx => absurd (hpending _ hx) (lt_irrefl _), hpnodup⟩
    · simp only [List.length_cons, List.length_append, List.length_nil]
      omega

end Sicada.ReplaceTables
