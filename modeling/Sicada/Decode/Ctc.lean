import Sicada.Decode.Viterbi

namespace Sicada

open ArcLabel (toI64 fromI64)

namespace Ctc

variable {L W : Type} [ArcLabel L]

/- Errors are returned; the outer `none` is a panic. -/
def labelOf (labelOffset : ℤ) (column : ℕ) : ExceptT String Option L :=
  if labelOffset + column < 2 ^ 63 then
    match fromI64 (labelOffset + column) with
    | some label => pure label
    | none => throw s!"ctc_topo: label {labelOffset + column} does not fit the arc's label type"
  else ExceptT.lift none

variable [Zero W] [One W] [DecidableEq W]

def addSymbol (labelOffset : ℤ) (last : ℕ) (fst : VectorFst L W) (symbol : ℕ) :
    ExceptT String Option (VectorFst L W) := do
  let label ← labelOf labelOffset symbol
  let said := if symbol = last then epsilon else label
  pure (fst.addArc last ⟨label, said, 1, symbol⟩)

/- A blank says nothing and resets what may repeat; a symbol again is the same one held longer. -/
def addLast (numSymbols : ℕ) (labelOffset : ℤ) (blank : L) (fst : VectorFst L W) (last : ℕ) :
    ExceptT String Option (VectorFst L W) :=
  let fst := (fst.setFinal last 1).addArc last ⟨blank, epsilon, 1, 0⟩
  (List.range' 1 (numSymbols - 1)).foldlM (addSymbol labelOffset last) fst

end Ctc

open Ctc

variable {L W : Type} [ArcLabel L] [Zero W] [One W] [DecidableEq W]

/- State 0 has a blank behind it or nothing, any other state the symbol of its number. The source
then has the properties tested, which changes nothing but the bits that are held of them. -/
def ctcTopo (numSymbols : ℕ) (labelOffset : ℤ) : ExceptT String Option (VectorFst L W) :=
  if numSymbols < 2 then
    throw s!"ctc_topo: {numSymbols} symbols is not enough for a blank and something else"
  else if labelOffset < 1 then
    throw "ctc_topo: column 0 would be epsilon, which consumes no frame"
  else do
    let fst := (VectorFst.new.growTo numSymbols).setStart (some 0)
    let blank ← labelOf labelOffset 0
    (List.range numSymbols).foldlM (addLast numSymbols labelOffset blank) fst

/- Runs of the same symbol become one, then the blanks go. -/
def collapse (columns : List ℕ) : List ℕ :=
  (columns.foldl (fun l column =>
    (if column ≠ l.2 ∧ column ≠ 0 then l.1 ++ [column] else l.1, column)) ([], usizeMax)).1

namespace Ctc

/- The labels that stand for columns. -/
def Offset (labelOffset : ℤ) (columns : List ℕ) (string : List L) : Prop :=
  string.map toI64 = columns.map fun column : ℕ => some (labelOffset + column)

variable {columns : List ℕ}

section Labels

variable {numSymbols : ℕ} {labelOffset : ℤ}

/- The labels of every column, in a topology where they fit. -/
structure Labels (numSymbols : ℕ) (labelOffset : ℤ) (label : ℕ → L) : Prop where
  fits : ∀ column < numSymbols, labelOf labelOffset column = pure (label column)
  key : ∀ column < numSymbols, toI64 (label column) = some (labelOffset + column)

theorem exists_labels (hfits : labelOffset + numSymbols ≤ 2 ^ 63)
    (hsome : ∀ column < numSymbols, (fromI64 (L := L) (labelOffset + column)).isSome) :
    ∃ label : ℕ → L, Labels numSymbols labelOffset label := by
  refine ⟨fun column => (fromI64 (labelOffset + column)).getD epsilon, fun column hcolumn => ?_,
    fun column hcolumn => ?_⟩
  · obtain ⟨label, hlabel⟩ := Option.isSome_iff_exists.mp (hsome column hcolumn)
    unfold labelOf
    rw [if_pos (by omega), hlabel]
    rfl
  · obtain ⟨label, hlabel⟩ := Option.isSome_iff_exists.mp (hsome column hcolumn)
    rw [hlabel]
    exact (ArcLabel.fromI64_eq_some _ _).mp hlabel

variable {label : ℕ → L}

theorem Labels.ne_epsilon (h : Labels numSymbols labelOffset label) (hoffset : 1 ≤ labelOffset)
    {column : ℕ} (hcolumn : column < numSymbols) : label column ≠ epsilon := by
  intro heq
  have hkey := h.key column hcolumn
  rw [heq, ArcLabel.toI64_epsilon] at hkey
  have hzero := Option.some.inj hkey
  omega

theorem Labels.offset (h : Labels numSymbols labelOffset label)
    (hcolumns : ∀ column ∈ columns, column < numSymbols) {string : List L} :
    Offset labelOffset columns string ↔ string = columns.map label := by
  have hmap : (columns.map label).map toI64 =
      columns.map fun column : ℕ => some (labelOffset + column) := by
    rw [List.map_map]
    apply List.map_congr_left
    exact fun column hcolumn => h.key column (hcolumns column hcolumn)
  constructor
  · intro hoffset
    unfold Offset at hoffset
    rw [← hmap] at hoffset
    clear hmap
    induction string generalizing columns with
    | nil =>
      cases columns with
      | nil => rfl
      | cons column columns => cases hoffset
    | cons l string ih =>
      cases columns with
      | nil => cases hoffset
      | cons column columns =>
        obtain ⟨hl, hrest⟩ := List.cons.inj hoffset
        have hkey := h.key column (hcolumns column List.mem_cons_self)
        have hfrom := (ArcLabel.fromI64_eq_some _ l).mpr (hl.trans hkey)
        rw [(ArcLabel.fromI64_eq_some _ _).mpr hkey] at hfrom
        rw [← Option.some.inj hfrom,
          ih (fun column hc => hcolumns column (List.mem_cons_of_mem _ hc)) hrest]
        rfl
  · rintro rfl
    exact hmap

end Labels

section Topology

variable {numSymbols : ℕ} {labelOffset : ℤ} {label : ℕ → L}

def ctcArc (label : ℕ → L) (last symbol : ℕ) : Arc L W :=
  ⟨label symbol, if symbol = 0 ∨ symbol = last then epsilon else label symbol, 1, symbol⟩

/- A state is final and has an arc for every column. -/
theorem addLast_eq (h : Labels numSymbols labelOffset label) (hpos : 0 < numSymbols)
    (fst : VectorFst L W) (last : ℕ) : addLast numSymbols labelOffset (label 0) fst last =
      pure (((List.range numSymbols).map (ctcArc label last)).foldl
        (fun fst arc => fst.addArc last arc) (fst.setFinal last 1)) := by
  have hrange : List.range numSymbols = 0 :: List.range' 1 (numSymbols - 1) := by
    obtain ⟨n, rfl⟩ := Nat.exists_eq_succ_of_ne_zero hpos.ne'
    rw [List.range_eq_range', List.range'_succ]
    rfl
  have hfirst : (ctcArc label last 0 : Arc L W) = ⟨label 0, epsilon, 1, 0⟩ := by
    unfold ctcArc
    rw [if_pos (Or.inl rfl)]
  have hsymbol : ∀ symbol ∈ List.range' 1 (numSymbols - 1), ∀ fst : VectorFst L W,
      addSymbol labelOffset last fst symbol = pure (fst.addArc last (ctcArc label last symbol)) := by
    intro symbol hmem fst
    obtain ⟨hle, hlt⟩ := List.mem_range'_1.mp hmem
    have hne : symbol ≠ 0 := by omega
    unfold addSymbol ctcArc
    rw [h.fits symbol (by omega), pure_bind]
    simp only [hne, false_or]
  unfold addLast
  dsimp only
  rw [ListLemmas.foldlM_eq_pure hsymbol, hrange, List.map_cons, List.foldl_cons, List.foldl_map, hfirst]

/- What the loop over the states has made of the first of them. -/
structure Made (numSymbols : ℕ) (label : ℕ → L) (k : ℕ) (fst : VectorFst L W) : Prop where
  numStates : fst.numStates = numSymbols
  start : fst.start = some 0
  arcs : ∀ s < k, fst.arcs s = (List.range numSymbols).map (ctcArc label s)
  final : ∀ s < k, fst.finalWeight s = 1
  bare : ∀ s, k ≤ s → fst.arcs s = []

theorem Made.next {k : ℕ} {fst : VectorFst L W} (h : Made numSymbols label k fst)
    (hk : k < numSymbols) : Made numSymbols label (k + 1)
      (((List.range numSymbols).map (ctcArc label k)).foldl (fun fst arc => fst.addArc k arc)
        (fst.setFinal k 1)) := by
  have hlt : k < fst.numStates := hk.trans_eq h.numStates.symm
  have hlt' : k < (fst.setFinal k 1).numStates := by rwa [VectorFst.numStates_setFinal]
  have harcs := VectorFst.arcs_addArcs hlt' ((List.range numSymbols).map (ctcArc label k))
  rw [VectorFst.arcs_setFinal, h.bare k (Nat.le_refl k), List.nil_append] at harcs
  constructor
  · rw [VectorFst.numStates_addArcs, VectorFst.numStates_setFinal, h.numStates]
  · rw [VectorFst.start_addArcs, VectorFst.start_setFinal, h.start]
  · intro s hs
    rw [harcs]
    rcases Nat.lt_or_eq_of_le (Nat.le_of_lt_succ hs) with hs | rfl
    · rw [Function.update_of_ne hs.ne]
      exact h.arcs s hs
    · rw [Function.update_self]
  · intro s hs
    rw [VectorFst.finalWeight_addArcs, VectorFst.finalWeight_setFinal 1 hlt]
    rcases Nat.lt_or_eq_of_le (Nat.le_of_lt_succ hs) with hs | rfl
    · rw [Function.update_of_ne hs.ne]
      exact h.final s hs
    · rw [Function.update_self]
  · intro s hs
    rw [harcs, Function.update_of_ne (by omega)]
    exact h.bare s (by omega)

theorem exists_made (h : Labels numSymbols labelOffset label) (hsymbols : 2 ≤ numSymbols)
    (hoffset : 1 ≤ labelOffset) : ∃ fst : VectorFst L W,
      ctcTopo numSymbols labelOffset = pure fst ∧ Made numSymbols label numSymbols fst := by
  have hpos : 0 < numSymbols := by omega
  unfold ctcTopo
  rw [if_neg (by omega), if_neg (by omega), h.fits 0 hpos, pure_bind,
    ListLemmas.foldlM_eq_pure fun last _ fst => addLast_eq h hpos fst last]
  refine ⟨_, rfl, ?_⟩
  have hfirst : Made (W := W) numSymbols label 0
      ((VectorFst.new.growTo numSymbols).setStart (some 0)) := by
    obtain ⟨harcs, -, -, hnum⟩ := VectorFst.growTo_eq (VectorFst.new : VectorFst L W) numSymbols
    refine ⟨hnum.trans (Nat.zero_add _), rfl, fun s hs => ?_, fun s hs => ?_,
      fun s _ => ?_⟩
    · exact absurd hs (Nat.not_lt_zero s)
    · exact absurd hs (Nat.not_lt_zero s)
    · exact congrFun harcs s
  have hrun : ∀ k ≤ numSymbols, Made numSymbols label k ((List.range k).foldl
      (fun fst last => ((List.range numSymbols).map (ctcArc label last)).foldl
        (fun fst arc => fst.addArc last arc) (fst.setFinal last 1))
      ((VectorFst.new.growTo numSymbols : VectorFst L W).setStart (some 0))) := by
    intro k hk
    induction k with
    | zero => exact hfirst
    | succ k ih =>
      rw [List.range_succ, List.foldl_append]
      exact (ih (by omega)).next hk
  exact hrun numSymbols (Nat.le_refl _)

end Topology

section Walks

open Paths Walk

variable {numSymbols : ℕ} {labelOffset : ℤ} {label : ℕ → L} {fst : VectorFst L W}

/- The path that reads columns, and what the rule says of them behind a symbol. -/
def pathOn (label : ℕ → L) : ℕ → List ℕ → List (ℕ × Arc L W)
  | _, [] => []
  | last, column :: columns => (column, ctcArc label last column) :: pathOn label column columns

def collapseFrom : ℕ → List ℕ → List ℕ
  | _, [] => []
  | last, column :: columns =>
    (if column ≠ last ∧ column ≠ 0 then [column] else []) ++ collapseFrom column columns

theorem collapse_eq (columns : List ℕ) : collapse columns = collapseFrom usizeMax columns := by
  have hfold : ∀ (out : List ℕ) (last : ℕ), (columns.foldl (fun l column =>
      (if column ≠ l.2 ∧ column ≠ 0 then l.1 ++ [column] else l.1, column)) (out, last)).1 =
        out ++ collapseFrom last columns := by
    induction columns with
    | nil => exact fun out last => (List.append_nil out).symm
    | cons column columns ih =>
      intro out last
      rw [List.foldl_cons, ih, collapseFrom]
      dsimp only
      split
      · rw [List.append_assoc]
      · rfl
  exact hfold [] usizeMax

/- A blank before the first column and no column at all are the same to the rule. -/
theorem collapseFrom_zero {last : ℕ} (h : ∀ column ∈ columns, column ≠ last) :
    collapseFrom last columns = collapseFrom 0 columns := by
  cases columns with
  | nil => rfl
  | cons column columns =>
    have hne : column ≠ last := h column List.mem_cons_self
    simp only [collapseFrom, hne, ne_eq, not_false_eq_true, true_and, and_self]

theorem leaves_iff (h : Made numSymbols label numSymbols fst) {s : ℕ} (hs : s < numSymbols)
    {e : ℕ × Arc L W} : Leaves fst s e ↔ e.1 < numSymbols ∧ e.2 = ctcArc label s e.1 := by
  unfold Leaves
  rw [h.arcs s hs, List.getElem?_map]
  constructor
  · intro he
    obtain ⟨c, hc, harc⟩ := Option.map_eq_some_iff.mp he
    obtain ⟨hlt, hget⟩ := List.getElem?_eq_some_iff.mp hc
    rw [List.length_range] at hlt
    rw [List.getElem_range] at hget
    subst hget
    exact ⟨hlt, harc.symm⟩
  · rintro ⟨hlt, harc⟩
    rw [List.getElem?_range hlt, harc]
    rfl

theorem isWalk_iff (h : Made numSymbols label numSymbols fst) {s t : ℕ} (hs : s < numSymbols)
    {p : List (ℕ × Arc L W)} : IsWalk (Leaves fst) follow s p t ↔ ∃ columns,
      (∀ column ∈ columns, column < numSymbols) ∧ p = pathOn label s columns ∧
        t = (s :: columns).getLast (List.cons_ne_nil s columns) := by
  induction p generalizing s with
  | nil =>
    constructor
    · intro hp
      exact ⟨[], fun c hc => absurd hc List.not_mem_nil, rfl, Eq.symm hp⟩
    · rintro ⟨columns, -, hpath, ht⟩
      cases columns with
      | nil => exact ht.symm
      | cons column columns => cases hpath
  | cons e p ih =>
    rw [isWalk_cons, leaves_iff h hs]
    constructor
    · rintro ⟨⟨hlt, harc⟩, hp⟩
      have hnext : follow s e = e.1 := by
        unfold follow
        rw [harc]
        rfl
      rw [hnext, ih hlt] at hp
      obtain ⟨columns, hcolumns, rfl, ht⟩ := hp
      refine ⟨e.1 :: columns, List.forall_mem_cons.mpr ⟨hlt, hcolumns⟩, ?_, ?_⟩
      · rw [pathOn, ← harc]
      · rw [ht, List.getLast_cons (List.cons_ne_nil _ _)]
    · rintro ⟨columns, hcolumns, hpath, ht⟩
      cases columns with
      | nil => cases hpath
      | cons column columns =>
        obtain ⟨rfl, rfl⟩ := List.cons.inj hpath
        obtain ⟨hlt, hcolumns⟩ := List.forall_mem_cons.mp hcolumns
        refine ⟨⟨hlt, rfl⟩, (ih hlt).mpr ⟨columns, hcolumns, rfl, ?_⟩⟩
        rw [ht, List.getLast_cons (List.cons_ne_nil _ _)]

theorem istring_pathOn (h : Labels numSymbols labelOffset label) (hoffset : 1 ≤ labelOffset)
    (hcolumns : ∀ column ∈ columns, column < numSymbols) (s : ℕ) :
    istring (pathOn label s columns : List (ℕ × Arc L W)) = columns.map label := by
  induction columns generalizing s with
  | nil => rfl
  | cons column columns ih =>
    obtain ⟨hlt, hcolumns⟩ := List.forall_mem_cons.mp hcolumns
    have hne := h.ne_epsilon hoffset hlt
    have hrest := ih hcolumns column
    have hkept : decide ((ctcArc label s column : Arc L W).ilabel ≠ epsilon) = true :=
      decide_eq_true hne
    unfold istring at hrest ⊢
    rw [pathOn, List.map_cons, List.filter_cons, if_pos hkept, hrest]
    rfl

theorem ostring_pathOn (h : Labels numSymbols labelOffset label) (hoffset : 1 ≤ labelOffset)
    (hcolumns : ∀ column ∈ columns, column < numSymbols) (s : ℕ) :
    ostring (pathOn label s columns : List (ℕ × Arc L W)) =
      (collapseFrom s columns).map label := by
  induction columns generalizing s with
  | nil => rfl
  | cons column columns ih =>
    obtain ⟨hlt, hcolumns⟩ := List.forall_mem_cons.mp hcolumns
    have hne := h.ne_epsilon hoffset hlt
    have hrest := ih hcolumns column
    unfold ostring at hrest ⊢
    rw [pathOn, collapseFrom, List.map_cons, List.map_append, ← hrest]
    by_cases hsilent : column = 0 ∨ column = s
    · have hsaid : ¬ (column ≠ s ∧ column ≠ 0) := fun hboth =>
        hsilent.elim hboth.2 hboth.1
      rw [if_neg hsaid, List.filter_cons_of_neg (by simp [ctcArc, hsilent])]
      rfl
    · obtain ⟨hzero, hsame⟩ := not_or.mp hsilent
      rw [if_pos ⟨hsame, hzero⟩,
        List.filter_cons_of_pos (by simpa [ctcArc, hzero, hsame] using hne)]
      simp [ctcArc, hzero, hsame]

theorem mem_collapseFrom {s : ℕ} :
    ∀ column ∈ collapseFrom s columns, column ∈ columns := by
  induction columns generalizing s with
  | nil => exact fun column hcolumn => hcolumn
  | cons column columns ih =>
    intro c hc
    rcases List.mem_append.mp hc with hc | hc
    · split at hc
      · rw [List.mem_singleton.mp hc]
        exact List.mem_cons_self
      · cases hc
    · exact List.mem_cons_of_mem _ (ih c hc)

theorem weight_pathOn {s : ℕ} :
    ∀ e ∈ (pathOn label s columns : List (ℕ × Arc L W)), e.2.weight = 1 := by
  induction columns generalizing s with
  | nil => exact fun e he => absurd he List.not_mem_nil
  | cons column columns ih =>
    intro e he
    rcases List.mem_cons.mp he with rfl | he
    · rfl
    · exact ih e he

theorem Offset.unique {columns' : List ℕ} {string : List L} (h : Offset labelOffset columns string)
    (h' : Offset labelOffset columns' string) :
    columns = columns' := by
  have hinj : Function.Injective fun column : ℕ => some (labelOffset + column) := by
    intro column column' heq
    have hsame := Option.some.inj heq
    omega
  exact hinj.list_map (h.symm.trans h')

/- The topology reads every sequence of columns along one path, and says what the rule makes
of it. -/
theorem ctc_topo_exact (hsymbols : 2 ≤ numSymbols) (hsize : numSymbols ≤ usizeMax)
    (hoffset : 1 ≤ labelOffset) (hfits : labelOffset + numSymbols ≤ 2 ^ 63)
    (hsome : ∀ column < numSymbols, (fromI64 (L := L) (labelOffset + column)).isSome) :
    ∃ fst : VectorFst L W, ctcTopo numSymbols labelOffset = pure fst ∧ fst.start = some 0 ∧
      (∀ columns, (∀ column ∈ columns, column < numSymbols) → ∃ p t,
        IsWalk (Leaves fst) follow 0 p t ∧ Offset labelOffset columns (istring p) ∧
        (∀ q u, IsWalk (Leaves fst) follow 0 q u → Offset labelOffset columns (istring q) →
          q = p) ∧
        fst.finalWeight t = 1 ∧ (∀ e ∈ p, e.2.weight = 1) ∧
        Offset labelOffset (collapse columns) (ostring p)) ∧
      ∀ p t, IsWalk (Leaves fst) follow 0 p t → ∃ columns,
        (∀ column ∈ columns, column < numSymbols) ∧ Offset labelOffset columns (istring p) := by
  obtain ⟨label, h⟩ := exists_labels hfits hsome
  obtain ⟨fst, hfst, hmade⟩ := exists_made (W := W) h hsymbols hoffset
  have hzero : 0 < numSymbols := by omega
  refine ⟨fst, hfst, hmade.start, fun columns hcolumns => ?_, fun p t hp => ?_⟩
  · refine ⟨pathOn label 0 columns, _, (isWalk_iff hmade hzero).mpr ⟨columns, hcolumns, rfl, rfl⟩,
      ?_, fun q u hq hread => ?_, ?_, ?_, ?_⟩
    · rw [h.offset hcolumns, istring_pathOn h hoffset hcolumns]
    · obtain ⟨columns', hcolumns', rfl, -⟩ := (isWalk_iff hmade hzero).mp hq
      have hread' := (h.offset hcolumns').mpr (istring_pathOn (W := W) h hoffset hcolumns' 0)
      rw [hread.unique hread']
    · apply hmade.final
      rcases List.mem_cons.mp (List.getLast_mem (List.cons_ne_nil 0 columns)) with hlast | hlast
      · rw [hlast]
        exact hzero
      · exact hcolumns _ hlast
    · exact weight_pathOn
    · have hfar : ∀ column ∈ columns, column ≠ usizeMax := fun column hcolumn =>
        ((hcolumns column hcolumn).trans_le hsize).ne
      rw [collapse_eq, collapseFrom_zero hfar, h.offset fun column hcolumn =>
        hcolumns column (mem_collapseFrom column hcolumn)]
      exact ostring_pathOn h hoffset hcolumns 0
  · obtain ⟨columns, hcolumns, rfl, -⟩ := (isWalk_iff hmade hzero).mp hp
    exact ⟨columns, hcolumns, (h.offset hcolumns).mpr (istring_pathOn h hoffset hcolumns 0)⟩

theorem ctc_topo_exact_three : ∃ fst : VectorFst ℤ ℕ, ctcTopo 3 1 = pure fst ∧
    fst.start = some 0 ∧
      (∀ columns, (∀ column ∈ columns, column < 3) → ∃ p t,
        IsWalk (Leaves fst) follow 0 p t ∧ Offset 1 columns (istring p) ∧
        (∀ q u, IsWalk (Leaves fst) follow 0 q u → Offset 1 columns (istring q) → q = p) ∧
        fst.finalWeight t = 1 ∧ (∀ e ∈ p, e.2.weight = 1) ∧ Offset 1 (collapse columns) (ostring p)) ∧
      ∀ p t, IsWalk (Leaves fst) follow 0 p t → ∃ columns,
        (∀ column ∈ columns, column < 3) ∧ Offset 1 columns (istring p) :=
  ctc_topo_exact (by decide) (by decide) (by decide) (by decide) fun _ _ => rfl

end Walks

end Ctc

end Sicada
