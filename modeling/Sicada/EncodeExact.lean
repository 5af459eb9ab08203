import Sicada.Encode
import Sicada.Superfinal

set_option linter.unusedSectionVars false

namespace Sicada.EncodeExact

open ArcMapRuns Encode ListLemmas Superfinals Relations RmFinalEpsilonExact

section Table

variable {L W : Type} [ArcLabel L] [Zero W] [One W] [DecidableEq W]

/- A table at a later time: nothing it held is lost or moved. -/
structure Later (table table' : EncodeTable L W) : Prop where
  flags : table'.flags = table.flags
  triples : table.triples <+: table'.triples
  nodup : table.triples.Nodup → table'.triples.Nodup

theorem Later.refl (table : EncodeTable L W) : Later table table :=
  ⟨rfl, List.prefix_rfl, id⟩

theorem Later.trans {table₁ table₂ table₃ : EncodeTable L W} (h : Later table₁ table₂)
    (h' : Later table₂ table₃) : Later table₁ table₃ :=
  ⟨h'.flags.trans h.flags, h.triples.trans h'.triples, h'.nodup ∘ h.nodup⟩

/- The labels and the weight of `arc'` stand for `arc` by an entry of the table. -/
structure Stands (table : EncodeTable L W) (arc arc' : Arc L W) (id : ℕ) : Prop where
  entry : table.triples[id]? = some (EncodeTable.entry table.flags arc)
  ilabel : arc'.ilabel = (ArcLabel.fromI64 (id + 1)).getD noLabel
  olabel : arc'.olabel = if table.flags.labels then arc'.ilabel else arc.olabel
  weight : arc'.weight = if table.flags.weights then 1 else arc.weight

/- What the encoder makes of an arc, told by the table it leaves or any later one. -/
def Encodes (table : EncodeTable L W) (arc arc' : Arc L W) : Prop :=
  if isSuperfinal arc && (!table.flags.weights || arc.weight = 0) then arc' = arc
  else arc'.nextstate = arc.nextstate ∧ ∃ id, Stands table arc arc' id

variable {table : EncodeTable L W} {id : ℕ}

theorem Stands.later {table' : EncodeTable L W} {arc arc' : Arc L W} (h : Stands table arc arc' id)
    (hlater : Later table table') : Stands table' arc arc' id := by
  constructor
  · rw [hlater.flags]
    obtain ⟨rest, hrest⟩ := hlater.triples
    rw [← hrest, List.getElem?_append_left (List.getElem?_eq_some_iff.mp h.entry).1]
    exact h.entry
  · exact h.ilabel
  · rw [hlater.flags]
    exact h.olabel
  · rw [hlater.flags]
    exact h.weight

theorem tracks_encode (flags : EncodeFlags) :
    Tracks (encodeMapper flags) (Later (L := L) (W := W)) Encodes := by
  constructor
  · exact Later.refl
  · exact fun _ _ _ h h' => h.trans h'
  · intro table table' arc arc' hlater hout
    unfold Encodes at hout ⊢
    rw [hlater.flags]
    split at hout
    next hpassed => rwa [if_pos hpassed]
    next hcoded =>
      rw [if_neg hcoded]
      obtain ⟨hnext, id, hstands⟩ := hout
      exact ⟨hnext, id, hstands.later hlater⟩
  · intro arc table
    change Later table (encodeArc arc table).2 ∧
      Encodes (encodeArc arc table).2 arc (encodeArc arc table).1
    by_cases hpassed : (isSuperfinal arc && (!table.flags.weights || arc.weight = 0)) = true
    · have heq : encodeArc arc table = (arc, table) := if_pos hpassed
      rw [heq]
      exact ⟨Later.refl table, by rw [Encodes, if_pos hpassed]⟩
    · have heq : encodeArc arc table = (⟨(table.encode arc).1,
          if table.flags.labels then (table.encode arc).1 else arc.olabel,
          if table.flags.weights then 1 else arc.weight, arc.nextstate⟩, (table.encode arc).2) :=
        if_neg hpassed
      have hflags : (table.encode arc).2.flags = table.flags := rfl
      rw [heq]
      refine ⟨⟨rfl, BiTable.prefix_findId _ _, fun hnodup => ?_⟩, ?_⟩
      · exact (BiTable.findId_spec hnodup _).2.1
      · unfold Encodes
        rw [hflags, if_neg hpassed]
        exact ⟨rfl, _, BiTable.getElem?_findId _ _, rfl, rfl, rfl⟩

/- The label type has a label for every triple of the table. -/
def Room (table : EncodeTable L W) : Prop :=
  (ArcLabel.fromI64 (L := L) table.triples.length).isSome = true

instance (table : EncodeTable L W) : Decidable (Room table) :=
  inferInstanceAs (Decidable (_ = true))

theorem label_eq (hroom : Room table) (hid : id < table.triples.length) : ∃ label : L,
      ArcLabel.fromI64 ((id : ℤ) + 1) = some label ∧ ArcLabel.toI64 label = some ((id : ℤ) + 1) := by
  have hsome : (ArcLabel.fromI64 (L := L) ((id : ℤ) + 1)).isSome = true :=
    ArcLabel.fromI64_isSome_of_le _ _ (by omega) (by omega) hroom
  obtain ⟨label, hlabel⟩ := Option.isSome_iff_exists.mp hsome
  exact ⟨label, hlabel, (ArcLabel.fromI64_eq_some _ _).mp hlabel⟩

theorem Stands.label {arc arc' : Arc L W} (h : Stands table arc arc' id) (hroom : Room table) :
    ArcLabel.toI64 arc'.ilabel = some ((id : ℤ) + 1) := by
  obtain ⟨label, hfrom, hto⟩ := label_eq hroom (List.getElem?_eq_some_iff.mp h.entry).1
  rw [h.ilabel, hfrom]
  exact hto

theorem Stands.ilabel_ne {arc arc' : Arc L W} (h : Stands table arc arc' id) (hroom : Room table) :
    arc'.ilabel ≠ epsilon := by
  intro heq
  have hlabel := h.label hroom
  rw [heq, ArcLabel.toI64_epsilon] at hlabel
  have hzero := Option.some.inj hlabel
  omega

theorem Stands.decode {arc arc' : Arc L W} (h : Stands table arc arc' id) (hroom : Room table) :
    table.decode arc'.ilabel = some (EncodeTable.entry table.flags arc) := by
  unfold EncodeTable.decode
  have hindex : ((id : ℤ) + 1 - 1).toNat = id := by omega
  rw [h.label hroom, Option.bind_some, if_neg (by omega), hindex, h.entry]

/- Arcs have the same label just when their triples are the same. -/
theorem Stands.ilabel_eq_iff {arc₁ arc₁' arc₂ arc₂' : Arc L W} {id₁ id₂ : ℕ}
    (h₁ : Stands table arc₁ arc₁' id₁) (h₂ : Stands table arc₂ arc₂' id₂) (hroom : Room table)
    (hnodup : table.triples.Nodup) : arc₁'.ilabel = arc₂'.ilabel ↔
      EncodeTable.entry table.flags arc₁ = EncodeTable.entry table.flags arc₂ := by
  constructor
  · intro heq
    have hdecode := h₁.decode hroom
    rw [heq, h₂.decode hroom] at hdecode
    exact (Option.some.inj hdecode).symm
  · intro heq
    have hlt := (List.getElem?_eq_some_iff.mp h₁.entry).1
    have hid : id₁ = id₂ := by
      refine (List.getElem?_inj hlt hnodup).mp ?_
      rw [h₁.entry, h₂.entry, heq]
    rw [h₁.ilabel, h₂.ilabel, hid]

theorem entry_of_arc {flags : EncodeFlags} {arc : Arc L W} (h : isSuperfinal arc = false) :
    EncodeTable.entry flags arc = Triple.fromArc arc flags := by
  have hne : arc.nextstate ≠ noState := by simpa [isSuperfinal] using h
  unfold EncodeTable.entry
  rw [if_neg fun hboth => hne hboth.1]

theorem fromArc_eq_iff {flags : EncodeFlags} {arc₁ arc₂ : Arc L W} :
    Triple.fromArc arc₁ flags = Triple.fromArc arc₂ flags ↔ arc₁.ilabel = arc₂.ilabel ∧
      (flags.labels = true → arc₁.olabel = arc₂.olabel) ∧
      (flags.weights = true → arc₁.weight = arc₂.weight) := by
  obtain ⟨labels, weights⟩ := flags
  cases labels <;> cases weights <;> simp [Triple.fromArc]

/- What the decoder makes of an arc that stands for one, wherever it leads. -/
theorem decodeArc_stands {arc arc' : Arc L W} (h : Stands table arc arc' id) (hroom : Room table)
    (noWeight : W) {t : ℕ} (ht : t ≠ noState) (error : Bool) :
    (decodeArc noWeight table { arc' with nextstate := t } error).1 =
      if (EncodeTable.entry table.flags arc).ilabel = noLabel then
        ⟨epsilon, epsilon, (EncodeTable.entry table.flags arc).weight, t⟩
      else ⟨(EncodeTable.entry table.flags arc).ilabel,
        if table.flags.labels then (EncodeTable.entry table.flags arc).olabel else arc.olabel,
        if table.flags.weights then (EncodeTable.entry table.flags arc).weight else arc.weight, t⟩ := by
  have hpassed : ¬ (isSuperfinal { arc' with nextstate := t } || arc'.ilabel = epsilon) = true := by
    simp [isSuperfinal, ht, h.ilabel_ne hroom]
  have hdecode := h.decode hroom
  unfold decodeArc
  rw [if_neg hpassed]
  simp only [hdecode]
  split
  · rfl
  · rw [h.olabel, h.weight]
    by_cases hlabels : table.flags.labels = true <;>
      by_cases hweights : table.flags.weights = true <;> simp [hlabels, hweights]

theorem decodeArc_arc {arc arc' : Arc L W} (h : Encodes table arc arc') (hroom : Room table)
    (noWeight : W) (hnext : arc.nextstate ≠ noState) (hlabel : arc.ilabel ≠ noLabel) (error : Bool) :
    (decodeArc noWeight table arc' error).1 = arc := by
  have hreal : isSuperfinal arc = false := by simpa [isSuperfinal] using hnext
  unfold Encodes at h
  rw [hreal, Bool.false_and, if_neg Bool.false_ne_true] at h
  obtain ⟨hsame, id, hstands⟩ := h
  have harc : arc' = { arc' with nextstate := arc.nextstate } := by rw [← hsame]
  rw [harc, decodeArc_stands hstands hroom noWeight hnext, entry_of_arc hreal]
  have hilabel : (Triple.fromArc arc table.flags).ilabel = arc.ilabel := rfl
  rw [hilabel, if_neg hlabel]
  unfold Triple.fromArc
  by_cases hlabels : table.flags.labels = true <;>
    by_cases hweights : table.flags.weights = true <;> simp [hlabels, hweights]

end Table

section Runs

variable {L W : Type} [ArcLabel L] [Zero W] [One W] [DecidableEq W]

theorem encodes_final {table : EncodeTable L W} {w : W} {mapped : Arc L W}
    (h : Encodes table (finalAsArc w) mapped) :
    ((table.flags.weights = false ∨ w = 0) ∧ mapped = finalAsArc w) ∨
      (table.flags.weights = true ∧ w ≠ 0 ∧ ∃ id, Stands table (finalAsArc w) mapped id) := by
  have hfinal : isSuperfinal (finalAsArc w : Arc L W) = true := by
    simp [isSuperfinal, finalAsArc]
  have hweight : (finalAsArc w : Arc L W).weight = w := rfl
  unfold Encodes at h
  rw [hfinal, hweight, Bool.true_and] at h
  split at h
  next hpassed => exact Or.inl ⟨by simpa using hpassed, h⟩
  next hcoded =>
    have hboth : table.flags.weights = true ∧ w ≠ 0 := by simpa using hcoded
    exact Or.inr ⟨hboth.1, hboth.2, h.2⟩

theorem becameAnArc_finalAsArc (w : W) : becameAnArc (finalAsArc w : Arc L W) = false := by
  simp [becameAnArc, finalAsArc]

theorem settled_encode (table : EncodeTable L W) :
    Settled (encodeMapper table.flags) Later Encodes table := by
  by_cases hweights : table.flags.weights = true
  · exact Or.inl (if_pos hweights)
  · refine Or.inr ⟨if_neg hweights, fun table' w mapped hlater hout => ?_⟩
    rcases encodes_final hout with ⟨-, rfl⟩ | ⟨htrue, -⟩
    · exact becameAnArc_finalAsArc w
    · exact absurd (hlater.flags ▸ htrue) hweights

/- An encoded FST, told by the table its encoding left or any later one. -/
def Encoded (table : EncodeTable L W) (fst encoded : VectorFst L W) : Prop :=
  ArcMapped (encodeMapper table.flags) Encodes table fst encoded

theorem Encoded.later {table table' : EncodeTable L W} {fst encoded : VectorFst L W}
    (h : Encoded table fst encoded) (hlater : Later table table') : Encoded table' fst encoded := by
  unfold Encoded at h ⊢
  rw [hlater.flags]
  exact ⟨h.start, h.numStates,
    fun s hs => (h.mapped s hs).mono (tracks_encode table.flags) hlater rfl rfl, h.superfinal⟩

theorem encode_encoded {fst : VectorFst L W} (hstart : fst.start ≠ none)
    (table : EncodeTable L W) : (fst.encode table).1.2 = .ok () ∧
      Later table (fst.encode table).2 ∧ Encoded (fst.encode table).2 fst (fst.encode table).1.1 := by
  obtain ⟨hok, hlater, hmapped⟩ :=
    arcMap_mapped (tracks_encode table.flags) (settled_encode table) hstart
  refine ⟨hok, hlater, ?_⟩
  unfold Encoded
  have hflags : (fst.encode table).2.flags = table.flags := hlater.flags
  rw [hflags]
  exact hmapped

/- FSTs encoded in turn stay encoded while the table grows. -/
theorem encodeAll_encoded {fsts : List (VectorFst L W)} (hstart : ∀ fst ∈ fsts, fst.start ≠ none)
    (table : EncodeTable L W) : Later table (encodeAll fsts table).2 ∧
      ∀ (k : ℕ) fst, fsts[k]? = some fst → ∃ encoded,
        (encodeAll fsts table).1[k]? = some (encoded, .ok ()) ∧
          Encoded (encodeAll fsts table).2 fst encoded := by
  induction fsts generalizing table with
  | nil => exact ⟨Later.refl table, fun k fst hk => by simp at hk⟩
  | cons fst fsts ih =>
    obtain ⟨hok, hlater, hencoded⟩ := encode_encoded (hstart fst List.mem_cons_self) table
    obtain ⟨hrest, hall⟩ := ih (fun f hf => hstart f (List.mem_cons_of_mem fst hf))
      (fst.encode table).2
    refine ⟨hlater.trans hrest, fun k f hk => ?_⟩
    cases k with
    | zero =>
      obtain rfl : fst = f := by simpa using hk
      refine ⟨(fst.encode table).1.1, ?_, hencoded.later hrest⟩
      rw [← hok]
      rfl
    | succ k => exact hall k f (by simpa using hk)

/- An FST the encoder can be used on: one with a start state, whose states fit the state type and
none of whose arcs reads the label kept for no label. -/
structure Encodable (fst : VectorFst L W) : Prop where
  start : fst.start ≠ none
  range : fst.InRange
  states : fst.numStates < noState
  labels : ∀ s, ∀ arc ∈ fst.arcs s, arc.ilabel ≠ noLabel

variable {table : EncodeTable L W} {fst encoded : VectorFst L W}

theorem Encodable.nextstate (h : Encodable fst) {s : ℕ} {arc : Arc L W} (harc : arc ∈ fst.arcs s) :
    arc.nextstate ≠ noState := by
  have hlt := h.range.arcs s arc harc
  have hstates := h.states
  omega

/- The last arc of an encoded state, which stands for its final weight. -/
def finalArcs (table : EncodeTable L W) (target : ℕ) (w : W) (arcs : List (Arc L W)) : Prop :=
  if table.flags.weights = true ∧ w ≠ 0 then ∃ mapped id, Stands table (finalAsArc w) mapped id ∧
    arcs = [{ mapped with nextstate := target }]
  else arcs = []

theorem Encoded.reads (h : Encoded table fst encoded) (hroom : Room table) {s : ℕ}
    (hs : s < fst.numStates) : ∃ arcs last, List.Forall₂ (Encodes table) (fst.arcs s) arcs ∧
      finalArcs table fst.numStates (fst.finalWeight s) last ∧ encoded.arcs s = arcs ++ last ∧
      encoded.finalWeight s = if table.flags.weights = true then 0 else fst.finalWeight s := by
  obtain ⟨arcs, mapped, hall, hout, harcs, hfinal⟩ := h.mapped s hs
  unfold finalArcs
  have haction : (encodeMapper table.flags : ArcMapper (EncodeTable L W) L W).finalAction =
      if table.flags.weights then .requireSuperfinal else .noSuperfinal := rfl
  rw [haction] at harcs hfinal
  rcases encodes_final hout with ⟨hnone, rfl⟩ | ⟨hweights, hne, id, hstands⟩
  · refine ⟨arcs, [], hall, ?_, ?_, ?_⟩
    · rw [if_neg]
      rintro ⟨hweights, hne⟩
      rcases hnone with hfalse | hzero
      · rw [hweights] at hfalse
        cases hfalse
      · exact hne hzero
    · rw [harcs, List.append_nil]
      unfold finished
      split
      next hrequire =>
        have hzero : fst.finalWeight s = 0 := by
          refine hnone.resolve_left fun hfalse => ?_
          rw [hfalse] at hrequire
          cases hrequire
        rw [becameAnArc_finalAsArc]
        simp [finalAsArc, hzero]
      next => rfl
    · rw [hfinal]
      unfold finished
      by_cases hweights : table.flags.weights = true
      · simp [hweights]
      · simp [hweights, finalAsArc]
  · have hbecame : becameAnArc mapped = true := by
      simp [becameAnArc, hstands.ilabel_ne hroom]
    refine ⟨arcs, [{ mapped with nextstate := fst.numStates }], hall, ?_, ?_, ?_⟩
    · rw [if_pos ⟨hweights, hne⟩]
      exact ⟨mapped, id, hstands, rfl⟩
    · rw [harcs, hweights]
      simp [finished, hbecame]
    · rw [hfinal, hweights]
      rfl

/- Every arc of an encoded FST has a label of the table. -/
theorem Encoded.stands (h : Encoded table fst encoded) (hroom : Room table)
    (hfst : Encodable fst) {s : ℕ} (hs : s < fst.numStates) :
    ∀ arc' ∈ encoded.arcs s, ∃ arc id, Stands table arc arc' id := by
  obtain ⟨arcs, last, hall, hlast, harcs, -⟩ := h.reads hroom hs
  intro arc' harc'
  rw [harcs, List.mem_append] at harc'
  rcases harc' with harc' | harc'
  · obtain ⟨i, hi⟩ := List.mem_iff_getElem?.mp harc'
    obtain ⟨arc, harc, hencodes⟩ := forall₂_getElem? hall hi
    have hnext := hfst.nextstate (List.mem_of_getElem? harc)
    have hreal : isSuperfinal arc = false := by simpa [isSuperfinal] using hnext
    unfold Encodes at hencodes
    rw [hreal, Bool.false_and, if_neg Bool.false_ne_true] at hencodes
    exact ⟨arc, hencodes.2⟩
  · unfold finalArcs at hlast
    split at hlast
    · obtain ⟨mapped, id, hstands, rfl⟩ := hlast
      obtain rfl := List.mem_singleton.mp harc'
      exact ⟨_, id, hstands.entry, hstands.ilabel, hstands.olabel, hstands.weight⟩
    · rw [hlast] at harc'
      cases harc'

theorem tracks_decode (noWeight : W) (table : EncodeTable L W) :
    Tracks (decodeMapper noWeight table) (fun _ _ => True)
      (fun _ arc arc' => ∃ error, arc' = (decodeArc noWeight table arc error).1) :=
  ⟨fun _ => trivial, fun _ _ _ _ _ => trivial, fun _ _ _ _ _ h => h,
    fun _ error => ⟨trivial, error, rfl⟩⟩

theorem decodeArc_finalAsArc (noWeight : W) (table : EncodeTable L W) (w : W) (error : Bool) :
    (decodeArc noWeight table (finalAsArc w) error).1 = finalAsArc w := by
  have hpassed : (isSuperfinal (finalAsArc w : Arc L W) ||
      (finalAsArc w : Arc L W).ilabel = epsilon) = true := by simp [isSuperfinal, finalAsArc]
  unfold decodeArc
  rw [if_pos hpassed]

theorem settled_decode (noWeight : W) (table : EncodeTable L W) (error : Bool) :
    Settled (decodeMapper noWeight table) (fun _ _ => True)
      (fun _ arc arc' => ∃ error, arc' = (decodeArc noWeight table arc error).1) error := by
  refine Or.inr ⟨rfl, fun _ w mapped _ hout => ?_⟩
  obtain ⟨error, rfl⟩ := hout
  rw [decodeArc_finalAsArc]
  exact becameAnArc_finalAsArc w

/- What the decoder rewrites: the arcs, one by one. -/
theorem arcMap_decode (noWeight : W) (table : EncodeTable L W) {encoded : VectorFst L W}
    (hstart : encoded.start ≠ none) :
    (encoded.arcMap (decodeMapper noWeight table) false).2 = .ok () ∧
    (encoded.arcMap (decodeMapper noWeight table) false).1.start = encoded.start ∧
    (encoded.arcMap (decodeMapper noWeight table) false).1.numStates = encoded.numStates ∧
    ∀ s < encoded.numStates, List.Forall₂
        (fun arc arc' => ∃ error, arc' = (decodeArc noWeight table arc error).1)
        (encoded.arcs s) ((encoded.arcMap (decodeMapper noWeight table) false).1.arcs s) ∧
      (encoded.arcMap (decodeMapper noWeight table) false).1.finalWeight s =
        encoded.finalWeight s := by
  obtain ⟨hok, -, hmapped⟩ := arcMap_mapped (tracks_decode noWeight table)
    (settled_decode noWeight table false) hstart
  refine ⟨hok, hmapped.start, hmapped.numStates, fun s hs => ?_⟩
  obtain ⟨arcs, mapped, hall, ⟨error, rfl⟩, harcs, hfinal⟩ := hmapped.mapped s hs
  rw [decodeArc_finalAsArc] at harcs hfinal
  rw [harcs, hfinal]
  exact ⟨hall, rfl⟩

theorem decoded_arcs (hroom : Room table) (noWeight : W) {arcs arcs' last decoded : List (Arc L W)}
    (hall : List.Forall₂ (Encodes table) arcs arcs')
    (hreal : ∀ arc ∈ arcs, arc.nextstate ≠ noState ∧ arc.ilabel ≠ noLabel)
    (hdecoded : List.Forall₂ (fun arc arc' => ∃ error, arc' = (decodeArc noWeight table arc error).1)
      (arcs' ++ last) decoded) : ∃ rest, decoded = arcs ++ rest ∧
        List.Forall₂ (fun arc arc' => ∃ error, arc' = (decodeArc noWeight table arc error).1)
          last rest := by
  induction hall generalizing decoded with
  | nil => exact ⟨decoded, rfl, hdecoded⟩
  | @cons arc arc' arcs arcs' hfirst _ ih =>
    obtain ⟨hnext, hlabel⟩ := hreal arc List.mem_cons_self
    rw [List.cons_append] at hdecoded
    cases hdecoded with
    | cons hdecode hrest =>
      obtain ⟨error, rfl⟩ := hdecode
      obtain ⟨rest, rfl, hlast⟩ := ih (fun a ha => hreal a (List.mem_cons_of_mem arc ha)) hrest
      refine ⟨rest, ?_, hlast⟩
      rw [decodeArc_arc hfirst hroom noWeight hnext hlabel]
      rfl

/- The last arc of a state is decoded to an epsilon arc that carries the final weight. -/
theorem decoded_last (hroom : Room table) (noWeight : W) {target : ℕ} (htarget : target ≠ noState)
    {w : W} {last rest : List (Arc L W)} (hlast : finalArcs table target w last)
    (hrest : List.Forall₂ (fun arc arc' => ∃ error, arc' = (decodeArc noWeight table arc error).1)
      last rest) :
    rest = if table.flags.weights = true ∧ w ≠ 0 then [⟨epsilon, epsilon, w, target⟩] else [] := by
  unfold finalArcs at hlast
  split at hlast
  next hboth =>
    obtain ⟨mapped, id, hstands, rfl⟩ := hlast
    cases hrest with
    | cons hdecode hnil =>
      cases hnil
      obtain ⟨error, rfl⟩ := hdecode
      have hentry : EncodeTable.entry table.flags (finalAsArc w : Arc L W) =
          ⟨noLabel, noLabel, w⟩ := if_pos ⟨rfl, hboth.1⟩
      rw [if_pos hboth, decodeArc_stands hstands hroom noWeight htarget, hentry]
      simp
  next hnot =>
    rw [hlast] at hrest
    cases hrest
    rw [if_neg hnot]

theorem Encoded.restored (h : Encoded table fst encoded) (hroom : Room table)
    (hfst : Encodable fst) (noWeight : W) :
    if table.flags.weights = true then
      Superfinal fst (encoded.arcMap (decodeMapper noWeight table) false).1
    else SameReads fst (encoded.arcMap (decodeMapper noWeight table) false).1 := by
  have hstart : encoded.start ≠ none := h.start ▸ hfst.start
  obtain ⟨-, hstart', hnum, hall⟩ := arcMap_decode noWeight table hstart
  generalize (encoded.arcMap (decodeMapper noWeight table) false).1 = decoded at *
  have htarget : fst.numStates ≠ noState := by
    have hstates := hfst.states
    omega
  have hle : fst.numStates ≤ encoded.numStates := by
    rw [h.numStates]
    split <;> omega
  have harcs : ∀ s < fst.numStates, decoded.arcs s = fst.arcs s ++
      if table.flags.weights = true ∧ fst.finalWeight s ≠ 0 then
        [⟨epsilon, epsilon, fst.finalWeight s, fst.numStates⟩] else [] := by
    intro s hs
    obtain ⟨arcs, last, hforall, hlast, harcs, -⟩ := h.reads hroom hs
    have hdecoded := (hall s (by omega)).1
    rw [harcs] at hdecoded
    obtain ⟨rest, hrest, hdecode⟩ := decoded_arcs hroom noWeight hforall
      (fun arc harc => ⟨hfst.nextstate harc, hfst.labels s arc harc⟩) hdecoded
    rw [hrest, decoded_last hroom noWeight htarget hlast hdecode]
  have hfinal : ∀ s < fst.numStates, decoded.finalWeight s =
      if table.flags.weights = true then 0 else fst.finalWeight s := by
    intro s hs
    obtain ⟨arcs, last, -, -, -, hfinal⟩ := h.reads hroom hs
    rw [(hall s (by omega)).2, hfinal]
  have haction : (encodeMapper table.flags : ArcMapper (EncodeTable L W) L W).finalAction =
      if table.flags.weights then .requireSuperfinal else .noSuperfinal := rfl
  have hstart₂ : decoded.start = fst.start := hstart'.trans h.start
  have hnum₂ := hnum.trans h.numStates
  split
  next hweights =>
    rw [haction, if_pos hweights, if_pos rfl] at hnum₂
    obtain ⟨hlast, hone⟩ := h.superfinal (by rw [haction, if_pos hweights])
    obtain ⟨hdecoded, hsame⟩ := hall fst.numStates (by omega)
    refine ⟨hstart₂, hnum₂, ?_, ?_, ?_, hsame.trans hone⟩
    · intro s hs
      rw [harcs s hs]
      simp only [hweights, true_and]
    · intro s hs
      rw [hfinal s hs, if_pos hweights]
    · rw [hlast] at hdecoded
      generalize decoded.arcs fst.numStates = arcs at hdecoded
      cases hdecoded
      rfl
  next hweights =>
    rw [haction, if_neg hweights, if_neg (by simp)] at hnum₂
    refine ⟨hstart₂, hnum₂, ?_, ?_⟩
    · intro s hs
      rw [harcs s hs, if_neg fun hboth => hweights hboth.1, List.append_nil]
    · intro s hs
      rw [hfinal s hs, if_neg hweights]

section Checking

variable [ToString L] [ToString W]

theorem forM_ok {X ε : Type} {f : X → Except ε Unit} {xs : List X} (h : ∀ x ∈ xs, f x = .ok ()) :
    xs.forM f = .ok () := by
  induction xs with
  | nil => rfl
  | cons x xs ih =>
    have hstep : (x :: xs).forM f = f x >>= fun _ => xs.forM f := rfl
    rw [hstep, h x List.mem_cons_self]
    exact ih fun y hy => h y (List.mem_cons_of_mem x hy)

theorem checkArc_stands {arc arc' : Arc L W} {id : ℕ} (h : Stands table arc arc' id)
    (hroom : Room table) (state : ℕ) : checkArc table state arc' = .ok () := by
  have hdecode : table.decode arc'.ilabel ≠ none := by
    rw [h.decode hroom]
    simp
  unfold checkArc
  rw [if_neg (h.ilabel_ne hroom), if_neg, if_neg, if_neg hdecode]
  · rintro ⟨hweights, hne⟩
    exact hne (by rw [h.weight, if_pos hweights])
  · rintro ⟨hlabels, hne⟩
    exact hne (by rw [h.olabel, if_pos hlabels])

/- What was encoded passes the check of the decoder. -/
theorem Encoded.checked (h : Encoded table fst encoded) (hroom : Room table)
    (hfst : Encodable fst) : checkDecodable table encoded = .ok () := by
  refine forM_ok fun s _ => forM_ok fun arc harc => ?_
  by_cases hs : s < fst.numStates
  · obtain ⟨_, id, hstands⟩ := h.stands hroom hfst hs arc harc
    exact checkArc_stands hstands hroom s
  · by_cases hlast : (encodeMapper table.flags : ArcMapper (EncodeTable L W) L W).finalAction =
      .requireSuperfinal ∧ s = fst.numStates
    · rw [hlast.2, (h.superfinal hlast.1).1] at harc
      cases harc
    · have hnum := h.numStates
      have hle : encoded.numStates ≤ s := by
        rw [hnum]
        split
        next haction =>
          have hne : s ≠ fst.numStates := fun heq => hlast ⟨haction, heq⟩
          omega
        next => omega
      rw [VectorFst.arcs_of_le hle] at harc
      cases harc

end Checking

end Runs

section Weights

variable {L W : Type} [ArcLabel L] [PreSemiring W] [DecidableEq W] [ToString L] [ToString W]
  {table : EncodeTable L W} {fst encoded : VectorFst L W} {isMember : W → Bool}
  {leftDistributive : Bool}

/- A decoder that fails has changed nothing. -/
theorem decode_error {noWeight : W} {fst' : VectorFst L W} {e : OpenFstError}
    (h : fst.decode noWeight isMember leftDistributive table = some (fst', .error e)) :
    fst' = fst := by
  unfold VectorFst.decode at h
  split at h
  next =>
    obtain ⟨rfl, -⟩ := Prod.mk.inj (Option.some.inj h)
    rfl
  next =>
    split at h
    next fst'' e' hmap =>
      by_cases hstart : fst.start = none
      · unfold VectorFst.arcMap at hmap
        rw [if_pos hstart] at hmap
        cases (Prod.mk.inj hmap).2
      · have hok := (arcMap_decode noWeight table hstart).1
        rw [hmap] at hok
        cases hok
    next =>
      obtain ⟨_, -, heq⟩ := Option.map_eq_some_iff.mp h
      cases (Prod.mk.inj heq).2

theorem Encoded.decoded [TopologicalSpace W] [ContinuousAdd W] [RegularSpace W]
    (h : Encoded table fst encoded) (hroom : Room table) (hfst : Encodable fst) (noWeight : W)
    (hmember : ∀ w, isMember w = true)
    (hdist : leftDistributive = true → ∀ a b c : W, a * (b + c) = a * b + a * c) :
    ∃ decoded, encoded.decode noWeight isMember leftDistributive table = some (decoded, .ok ()) ∧
      ∀ i o w, Gives fst i o w → Gives decoded i o w := by
  obtain ⟨start, hstart⟩ := Option.ne_none_iff_exists'.mp hfst.start
  have hstart₁ : encoded.start = some start := h.start.trans hstart
  have hstarts : encoded.start ≠ none := by simp [hstart₁]
  have hmap := arcMap_decode noWeight table hstarts
  have hrestored := h.restored hroom hfst noWeight
  have hcheck := h.checked hroom hfst
  have hprepared : (encoded.arcMap (decodeMapper noWeight table) false).1.InRange ∧
      ∀ i o w, Gives fst i o w →
        Gives (encoded.arcMap (decodeMapper noWeight table) false).1 i o w := by
    split at hrestored
    · exact ⟨hrestored.inRange hfst.range, fun i o w hgives =>
        (hrestored.gives hfst.range hstart).mpr hgives⟩
    · exact ⟨hrestored.inRange hfst.range, fun i o w hgives => hrestored.gives.mp hgives⟩
  obtain ⟨decoded, hremoved, hgives⟩ := rmFinalEpsilon_gives hprepared.1 hmember
    (hmap.2.1.trans hstart₁) hdist
  refine ⟨decoded, ?_, fun i o w hw => hgives i o w (hprepared.2 i o w hw)⟩
  unfold VectorFst.decode
  rw [hcheck]
  dsimp only
  generalize encoded.arcMap (decodeMapper noWeight table) false = mapped at *
  obtain ⟨fst', result⟩ := mapped
  dsimp only at *
  rw [hmap.1]
  dsimp only
  rw [hremoved]
  rfl

theorem Encoded.stands_arc (h : Encoded table fst encoded) (hroom : Room table)
    (hfst : Encodable fst) {s j : ℕ} {arc arc' : Arc L W} (harc : (fst.arcs s)[j]? = some arc)
    (harc' : (encoded.arcs s)[j]? = some arc') : ∃ id, Stands table arc arc' id ∧
      EncodeTable.entry table.flags arc = Triple.fromArc arc table.flags := by
  have hlt : s < fst.numStates := by
    by_contra hge
    rw [VectorFst.arcs_of_le (by omega)] at harc
    cases harc
  obtain ⟨arcs, last, hall, -, harcs, -⟩ := h.reads hroom hlt
  have hj : j < arcs.length := hall.length_eq ▸ (List.getElem?_eq_some_iff.mp harc).1
  rw [harcs, List.getElem?_append_left hj] at harc'
  obtain ⟨arc₀, harc₀, hencodes⟩ := forall₂_getElem? hall harc'
  obtain rfl := Option.some.inj (harc₀.symm.trans harc)
  have hnext := hfst.nextstate (List.mem_of_getElem? harc)
  have hreal : isSuperfinal arc₀ = false := by simpa [isSuperfinal] using hnext
  unfold Encodes at hencodes
  rw [hreal, Bool.false_and, if_neg Bool.false_ne_true] at hencodes
  obtain ⟨-, id, hstands⟩ := hencodes
  exact ⟨id, hstands, entry_of_arc hreal⟩

/- FSTs encoded in turn with one table all decode and give every pair of strings the weight they
gave it; arcs have one label just when what is folded into it is the same; and a decoder that
fails changes nothing. -/
theorem encodeAll_decode [TopologicalSpace W] [ContinuousAdd W] [RegularSpace W]
    {fsts : List (VectorFst L W)} (hfsts : ∀ fst ∈ fsts, Encodable fst) (flags : EncodeFlags)
    (hroom : Room (encodeAll fsts (EncodeTable.new flags)).2) (noWeight : W)
    (hmember : ∀ w, isMember w = true)
    (hdist : leftDistributive = true → ∀ a b c : W, a * (b + c) = a * b + a * c) :
    (∀ (k : ℕ) fst, fsts[k]? = some fst → ∃ encoded decoded,
      (encodeAll fsts (EncodeTable.new flags)).1[k]? = some (encoded, .ok ()) ∧
      encoded.decode noWeight isMember leftDistributive (encodeAll fsts (EncodeTable.new flags)).2 =
        some (decoded, .ok ()) ∧
      ∀ i o w, Gives fst i o w → Gives decoded i o w) ∧
    (∀ (k₁ k₂ : ℕ) fst₁ fst₂ encoded₁ encoded₂, fsts[k₁]? = some fst₁ → fsts[k₂]? = some fst₂ →
      (encodeAll fsts (EncodeTable.new flags)).1[k₁]? = some (encoded₁, .ok ()) →
      (encodeAll fsts (EncodeTable.new flags)).1[k₂]? = some (encoded₂, .ok ()) →
      ∀ (s₁ j₁ s₂ j₂ : ℕ) arc₁ arc₁' arc₂ arc₂',
        (fst₁.arcs s₁)[j₁]? = some arc₁ → (encoded₁.arcs s₁)[j₁]? = some arc₁' →
        (fst₂.arcs s₂)[j₂]? = some arc₂ → (encoded₂.arcs s₂)[j₂]? = some arc₂' →
        (arc₁'.ilabel = arc₂'.ilabel ↔ arc₁.ilabel = arc₂.ilabel ∧
          (flags.labels = true → arc₁.olabel = arc₂.olabel) ∧
          (flags.weights = true → arc₁.weight = arc₂.weight))) ∧
    (∀ (fst fst' : VectorFst L W) table e,
      fst.decode noWeight isMember leftDistributive table = some (fst', .error e) → fst' = fst) := by
  obtain ⟨hlater, hall⟩ := encodeAll_encoded (fun fst hfst => (hfsts fst hfst).start)
    (EncodeTable.new flags)
  generalize encodeAll fsts (EncodeTable.new flags) = run at *
  have hflags : run.2.flags = flags := hlater.flags
  refine ⟨?_, ?_, fun fst fst' table e h => decode_error h⟩
  · intro k fst hk
    obtain ⟨encoded, hget, hencoded⟩ := hall k fst hk
    obtain ⟨decoded, hdecode, hgives⟩ := hencoded.decoded hroom
      (hfsts fst (List.mem_of_getElem? hk)) noWeight hmember hdist
    exact ⟨encoded, decoded, hget, hdecode, hgives⟩
  · intro k₁ k₂ fst₁ fst₂ encoded₁ encoded₂ hk₁ hk₂ hget₁ hget₂ s₁ j₁ s₂ j₂ arc₁ arc₁' arc₂ arc₂'
      harc₁ harc₁' harc₂ harc₂'
    have hencoded : ∀ {k : ℕ} {fst encoded}, fsts[k]? = some fst →
        run.1[k]? = some (encoded, .ok ()) → Encoded run.2 fst encoded := by
      intro k fst encoded hk hget
      obtain ⟨encoded', hget', hencoded⟩ := hall k fst hk
      obtain ⟨rfl, -⟩ := Prod.mk.inj (Option.some.inj (hget'.symm.trans hget))
      exact hencoded
    obtain ⟨id₁, hstands₁, hentry₁⟩ := (hencoded hk₁ hget₁).stands_arc hroom
      (hfsts fst₁ (List.mem_of_getElem? hk₁)) harc₁ harc₁'
    obtain ⟨id₂, hstands₂, hentry₂⟩ := (hencoded hk₂ hget₂).stands_arc hroom
      (hfsts fst₂ (List.mem_of_getElem? hk₂)) harc₂ harc₂'
    rw [hstands₁.ilabel_eq_iff hstands₂ hroom (hlater.nodup List.nodup_nil), hentry₁, hentry₂,
      fromArc_eq_iff, hflags]

end Weights

section Fixed

def plainFst : VectorFst ℤ ℕ := ⟨[⟨0, [⟨1, 2, 3, 1⟩], 0, 0⟩, ⟨4, [], 0, 0⟩], some 0, 0⟩

theorem encodable_plainFst : Encodable plainFst := by
  refine ⟨by decide, ⟨?_, ?_⟩, by decide, ?_⟩
  · rintro s hs
    obtain rfl := Option.some.inj hs
    decide
  · exact VectorFst.forall_arcs_of_lt (by decide)
  · exact VectorFst.forall_arcs_of_lt (by decide)

theorem encodeAll_decode_plainFst : ∃ encoded decoded,
    (encodeAll [plainFst] (EncodeTable.new ⟨true, true⟩)).1[0]? = some (encoded, .ok ()) ∧
    encoded.decode 0 (fun _ => true) true (encodeAll [plainFst] (EncodeTable.new ⟨true, true⟩)).2 =
      some (decoded, .ok ()) ∧
    ∀ i o w, Gives plainFst i o w → Gives decoded i o w :=
  (encodeAll_decode (fun _ hfst => List.mem_singleton.mp hfst ▸ encodable_plainFst) ⟨true, true⟩
    (by decide +kernel) 0 (fun _ => rfl) fun _ => mul_add).1 0 plainFst rfl

/- The one arc reads the label kept for no label. -/
def noLabelFst : VectorFst ℤ ℕ := ⟨[⟨0, [⟨-1, 5, 1, 1⟩], 0, 0⟩, ⟨1, [], 0, 0⟩], some 0, 0⟩

/- No start state, and an arc all the same. -/
def startlessFst : VectorFst ℤ ℕ := ⟨[⟨0, [⟨1, 2, 1, 0⟩], 0, 0⟩], none, 0⟩

/- Encoded, labels only, and decoded again. -/
def codedAgain (fst : VectorFst ℤ ℕ) : Option (VectorFst ℤ ℕ × Except OpenFstError Unit) :=
  let run := encodeAll [fst] (EncodeTable.new ⟨true, false⟩)
  run.1[0]?.bind fun encoded => encoded.1.decode 0 (fun _ => true) true run.2

theorem gives_noLabelFst : Gives noLabelFst [-1] [5] 1 := by
  have hpath : [(0, ⟨-1, 5, 1, 1⟩)] ∈ related noLabelFst [-1] [5] := by
    refine ⟨⟨0, rfl, ?_⟩, by decide, by decide⟩
    rw [Paths.cons_mem_acceptingFrom, Paths.nil_mem_acceptingFrom]
    decide
  have honly : ∀ p ∈ Paths.acceptingPaths noLabelFst, p = [(0, ⟨-1, 5, 1, 1⟩)] := by
    rintro p ⟨s, hs, hp⟩
    obtain rfl := Option.some.inj hs
    cases p with
    | nil => exact absurd rfl (Paths.nil_mem_acceptingFrom.mp hp)
    | cons e p =>
      obtain ⟨he, hp⟩ := Paths.cons_mem_acceptingFrom.mp hp
      obtain ⟨i, arc⟩ := e
      cases i with
      | succ i => simp [noLabelFst, VectorFst.arcs] at he
      | zero =>
        obtain rfl : (⟨-1, 5, 1, 1⟩ : Arc ℤ ℕ) = arc := by
          simpa [noLabelFst, VectorFst.arcs] using he
        cases p with
        | nil => rfl
        | cons e p =>
          obtain ⟨he, -⟩ := Paths.cons_mem_acceptingFrom.mp hp
          simp [noLabelFst, VectorFst.arcs] at he
  let f : related noLabelFst [-1] [5] → ℕ := fun p => weightOf noLabelFst p
  have hsum : HasSum f (f ⟨_, hpath⟩) :=
    hasSum_single (f := f) ⟨_, hpath⟩ fun p hp => absurd (Subtype.ext (honly p p.2.1)) hp
  exact hsum

/- An arc that reads the label kept for no label loses its labels, and an FST with no start state
is left as it is by the encoder but not by the check of the decoder. -/
theorem codedAgain_differs :
    (∃ decoded, codedAgain noLabelFst = some (decoded, .ok ()) ∧
      Gives noLabelFst [-1] [5] 1 ∧ ¬ Gives decoded [-1] [5] 1) ∧
    ∃ e, codedAgain startlessFst = some (startlessFst, .error e) := by
  refine ⟨⟨⟨[⟨1, [], 0, 0⟩], some 0, 5497558138880⟩, by decide +kernel, gives_noLabelFst, ?_⟩,
    ⟨.invalidOperation (differentMessage 0 (⟨1, 2, 1, 0⟩ : Arc ℤ ℕ)), by decide +kernel⟩⟩
  intro hgives
  have hnone : related (⟨[⟨1, [], 0, 0⟩], some 0, 5497558138880⟩ : VectorFst ℤ ℕ) [-1] [5] = ∅ := by
    refine Set.eq_empty_iff_forall_notMem.mpr ?_
    rintro p ⟨⟨s, hs, hp⟩, hi, -⟩
    obtain rfl := Option.some.inj hs
    cases p with
    | nil => simp [Paths.istring] at hi
    | cons e p =>
      obtain ⟨he, -⟩ := Paths.cons_mem_acceptingFrom.mp hp
      simp [VectorFst.arcs] at he
  unfold Gives at hgives
  rw [hnone] at hgives
  have hzero := hgives.unique hasSum_empty
  exact one_ne_zero hzero

end Fixed

end Sicada.EncodeExact
