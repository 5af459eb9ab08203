import Sicada.SymbolTableText

namespace Sicada.SymbolTableRoundTrip

open Codec Io SymbolTableImpl SymbolTableExact SymbolTableIo SymbolTableText

variable {getHash : String → ℕ} {t : SymbolTableImpl} {separator : List Char}

/- The bytes of a line are a text. -/
def IsText (line : List UInt8) : Prop := ∃ text, fromUtf8 line = .ok text

/- A line of text that is neither blank nor a symbol and a key. -/
def IsMalformed (separator : List Char) (line : List UInt8) : Prop :=
  ∃ text nline e, fromUtf8 line = .ok text ∧ parseLine separator nline text.toList = .error e

/- What a line is for a table. -/
def Says (separator : List Char) (line : List UInt8) (item : Option (String × ℤ)) : Prop :=
  ∃ text nline, fromUtf8 line = .ok text ∧ parseLine separator nline text.toList = .ok item

def addItems (getHash : String → ℕ) (t : SymbolTableImpl) :
    List (Option (String × ℤ)) → Option SymbolTableImpl
  | [] => some t
  | none :: items => addItems getHash t items
  | some (symbol, key) :: items => do
    let (_, t) ← t.addSymbol getHash symbol key
    addItems getHash t items

/- The table holds what every one of the lines says. -/
def Accounts (getHash : String → ℕ) (bytes : List UInt8) (name sep : String)
    (t : SymbolTableImpl) : Prop :=
  ∃ items table m, List.Forall₂ (Says (separatorOr "\t " sep)) (lines bytes) items ∧
    addItems getHash (.new name) items = some table ∧
    table.symbols.shrinkToFit getHash = some m ∧ t = { table with symbols := m }

/- Every line is a text, or one before the first that is none is malformed. -/
def NoLineLost (separator : List Char) (ls : List (List UInt8)) : Prop :=
  (∀ line ∈ ls, IsText line) ∨ ∃ before bad after, ls = before ++ bad :: after ∧
    (∀ line ∈ before, IsText line) ∧ IsMalformed separator bad

theorem parseLine_nline {nline : ℕ} {line : List Char} {item : Option (String × ℤ)}
    (h : parseLine separator nline line = .ok item) (nline' : ℕ) :
    parseLine separator nline' line = .ok item := by
  unfold parseLine at h ⊢
  dsimp only at h ⊢
  by_cases hblank : line.rdropWhile isLineEnd = []
  · rw [if_pos hblank] at h ⊢
    exact h
  · rw [if_neg hblank] at h ⊢
    split at h
    · split at h
      · exact h
      · cases h
    · cases h

theorem not_malformed_of_says {line : List UInt8} {item : Option (String × ℤ)}
    (h : Says separator line item) : ¬IsMalformed separator line := by
  rintro ⟨text, nline, e, htext, herror⟩
  obtain ⟨text', nline', htext', hok⟩ := h
  rw [htext] at htext'
  cases htext'
  rw [parseLine_nline hok nline] at herror
  cases herror

/- The three ways the loop ends: past the last line, at a malformed one, at bytes that are no
text. -/
theorem readLines_cases (separator : List Char) (h : Filled getHash t) (ls : List (List UInt8)) (nline : ℕ) :
    (∃ table items, readLines getHash separator ls nline t = some (.ok table) ∧
      List.Forall₂ (Says separator) ls items ∧ addItems getHash t items = some table ∧
      Filled getHash table) ∨
    (∃ e before bad after, readLines getHash separator ls nline t = some (.error e) ∧
      ls = before ++ bad :: after ∧ (∀ line ∈ before, IsText line) ∧
      IsMalformed separator bad) ∨
    ∃ table before bad after, readLines getHash separator ls nline t = some (.ok table) ∧
      Filled getHash table ∧ ls = before ++ bad :: after ∧
      (∀ line ∈ before, IsText line ∧ ¬IsMalformed separator line) ∧ ¬IsText bad := by
  induction ls generalizing t nline with
  | nil => exact Or.inl ⟨t, [], rfl, List.Forall₂.nil, rfl, h⟩
  | cons line ls ih =>
    cases htext : fromUtf8 line with
    | error e =>
      refine Or.inr (Or.inr ⟨t, [], line, ls, ?_, h, rfl, fun l hl => by simp at hl, ?_⟩)
      · rw [readLines, htext]
      · rintro ⟨text, hok⟩
        rw [hok] at htext
        cases htext
    | ok text =>
      cases hparse : parseLine separator (nline + 1) text.toList with
      | error e =>
        refine Or.inr (Or.inl ⟨e, [], line, ls, ?_, rfl, fun l hl => by simp at hl,
          ⟨text, nline + 1, e, htext, hparse⟩⟩)
        rw [readLines, htext]
        dsimp only
        rw [hparse]
      | ok item =>
        have hsays : Says separator line item := ⟨text, nline + 1, htext, hparse⟩
        have hnot := not_malformed_of_says hsays
        -- the table after the line, and what reading on from it does
        obtain ⟨u, hu, hitems, hstep⟩ : ∃ u, Filled getHash u ∧
            (∀ items, addItems getHash t (item :: items) = addItems getHash u items) ∧
            readLines getHash separator (line :: ls) nline t =
              readLines getHash separator ls (nline + 1) u := by
          cases item with
          | none =>
            refine ⟨t, h, fun items => rfl, ?_⟩
            rw [readLines, htext]
            dsimp only
            rw [hparse]
          | some entry =>
            obtain ⟨r, u, hadd, hu⟩ := h.addSymbol entry.1 entry.2
            refine ⟨u, hu, ?_, ?_⟩
            · intro items
              rw [addItems, hadd]
              rfl
            · rw [readLines, htext]
              dsimp only
              rw [hparse]
              dsimp only
              rw [hadd]
              rfl
        rw [hstep]
        rcases ih hu (nline + 1) with ⟨table, items, hrun, hall, hadd, hfilled⟩ |
          ⟨e, before, bad, after, hrun, rfl, hbefore, hbad⟩ |
          ⟨table, before, bad, after, hrun, hfilled, rfl, hbefore, hbad⟩
        · exact Or.inl ⟨table, item :: items, hrun, List.Forall₂.cons hsays hall,
            by rw [hitems, hadd], hfilled⟩
        · refine Or.inr (Or.inl ⟨e, line :: before, bad, after, hrun, rfl, ?_, hbad⟩)
          intro l hl
          rcases List.mem_cons.mp hl with rfl | hl
          · exact ⟨text, htext⟩
          · exact hbefore l hl
        · refine Or.inr (Or.inr ⟨table, line :: before, bad, after, hrun, hfilled, rfl, ?_, hbad⟩)
          intro l hl
          rcases List.mem_cons.mp hl with rfl | hl
          · exact ⟨⟨text, htext⟩, hnot⟩
          · exact hbefore l hl

theorem not_noLineLost {before after : List (List UInt8)} {bad : List UInt8}
    (hbefore : ∀ line ∈ before, IsText line ∧ ¬IsMalformed separator line) (hbad : ¬IsText bad) :
    ¬NoLineLost separator (before ++ bad :: after) := by
  rintro (hall | ⟨before', bad', after', heq, hbefore', text, nline, e, htext, herror⟩)
  · exact hbad (hall bad (by simp))
  · rcases List.append_eq_append_iff.mp heq with ⟨mid, rfl, hmid⟩ | ⟨mid, rfl, hmid⟩
    · cases mid with
      | nil =>
        obtain ⟨rfl, -⟩ := List.cons.inj hmid
        exact hbad ⟨text, htext⟩
      | cons l mid =>
        obtain ⟨rfl, -⟩ := List.cons.inj hmid
        exact hbad (hbefore' bad (by simp))
    · cases mid with
      | nil =>
        obtain ⟨rfl, -⟩ := List.cons.inj hmid
        exact hbad ⟨text, htext⟩
      | cons l mid =>
        obtain ⟨rfl, -⟩ := List.cons.inj hmid
        exact (hbefore bad' (by simp)).2 ⟨text, nline, e, htext, herror⟩

theorem readText_iff (getHash : String → ℕ) (bytes : List UInt8) (name sep : String) :
    (∃ r, readText getHash bytes name sep = some r ∧
      ∀ t, r = .ok t → Accounts getHash bytes name sep t) ↔
    NoLineLost (separatorOr "\t " sep) (lines bytes) := by
  have hnew : Filled getHash (.new name) := filled_new name
  rcases readLines_cases (separatorOr "\t " sep) hnew (lines bytes) 0 with ⟨table, items, hrun, hall, hadd, hfilled⟩ |
      ⟨e, before, bad, after, hrun, heq, hbefore, hbad⟩ |
      ⟨table, before, bad, after, hrun, hfilled, heq, hbefore, hbad⟩
  · obtain ⟨m, hshrink, -⟩ := DenseSymbolMap.shrinkToFit_sound hfilled.sound
    have hread : readText getHash bytes name sep = some (.ok { table with symbols := m }) := by
      unfold readText
      rw [hrun]
      simp only [Option.bind_eq_bind, Option.bind_some, hshrink]
      rfl
    constructor
    · intro _
      refine Or.inl fun line hline => ?_
      obtain ⟨item, -, text, nline, htext, -⟩ := ListLemmas.forall₂_mem_left hall hline
      exact ⟨text, htext⟩
    · intro _
      refine ⟨_, hread, ?_⟩
      intro t ht
      cases ht
      exact ⟨items, table, m, hall, hadd, hshrink, rfl⟩
  · have hread : readText getHash bytes name sep = some (.error e) := by
      unfold readText
      rw [hrun]
      rfl
    constructor
    · exact fun _ => Or.inr ⟨before, bad, after, heq, hbefore, hbad⟩
    · intro _
      refine ⟨_, hread, ?_⟩
      intro t ht
      cases ht
  · obtain ⟨m, hshrink, -⟩ := DenseSymbolMap.shrinkToFit_sound hfilled.sound
    have hread : readText getHash bytes name sep = some (.ok { table with symbols := m }) := by
      unfold readText
      rw [hrun]
      simp only [Option.bind_eq_bind, Option.bind_some, hshrink]
      rfl
    constructor
    · rintro ⟨r, hr, haccounts⟩
      rw [hread] at hr
      cases hr
      obtain ⟨items, table', m', hall, -⟩ := haccounts _ rfl
      obtain ⟨item, -, text, nline, htext, -⟩ := ListLemmas.forall₂_mem_left hall (a := bad)
        (by rw [heq]; simp)
      exact absurd ⟨text, htext⟩ hbad
    · intro hlost
      rw [heq] at hlost
      exact absurd hlost (not_noLineLost hbefore hbad)

/- Both formats restore the bindings of a table; text is read to its last line exactly when no
line is lost. -/
theorem symbolTable_roundTrips (getHash : String → ℕ) :
    (∀ t bytes pos, Consistent getHash t → FitsVec t → write t = some (.ok bytes) →
      ∃ t', Codes (read getHash) pos bytes t' ∧ SameBindings getHash t t' ∧ t'.name = t.name ∧
        t'.availableKey = t.availableKey) ∧
    (∀ t name sep, Consistent getHash t → Separates (separatorOr "\t " sep) t.entries →
      ∃ bytes t', writeText getHash t sep = some bytes ∧
        readText getHash bytes name sep = some (.ok t') ∧ SameBindings getHash t t') ∧
    ∀ bytes name sep, (∃ r, readText getHash bytes name sep = some r ∧
        ∀ t, r = .ok t → Accounts getHash bytes name sep t) ↔
      NoLineLost (separatorOr "\t " sep) (lines bytes) := by
  refine ⟨?_, ?_, readText_iff getHash⟩
  · intro t bytes pos h hsize hwrite
    obtain ⟨t', hcodes, -, hrest⟩ := codes_read h hsize hwrite pos
    exact ⟨t', hcodes, hrest⟩
  · intro t name sep h hsep
    obtain ⟨bytes, t', hwrite, hread, -, hsame⟩ := readText_writeText h name hsep
    exact ⟨bytes, t', hwrite, hread, hsame⟩

theorem symbolTable_roundTrips_added : ∃ t r,
    SymbolTableImpl.addSymbol String.length (.new "") "a" 5 = some (r, t) ∧
      (∃ bytes t', write t = some (.ok bytes) ∧ Codes (read String.length) 0 bytes t' ∧
        SameBindings String.length t t') ∧
      ∃ bytes t', writeText String.length t "," = some bytes ∧
        readText String.length bytes "" "," = some (.ok t') ∧ SameBindings String.length t t' := by
  obtain ⟨t, hrun, hcons, hkeys, hsymbols, -, hname, -⟩ := addSymbol_new (s := "a")
    (consistent_new "") (by decide) (show (5 : ℤ) ≠ kNoSymbol by decide) (by decide) (by decide)
    (by decide)
  obtain ⟨hbinary, htext, -⟩ := symbolTable_roundTrips String.length
  have hentries : t.entries = [(5, "a")] := by
    unfold entries
    rw [hkeys, hsymbols]
    rfl
  refine ⟨t, 5, hrun, ?_, ?_⟩
  · obtain ⟨bytes, hwrite⟩ := write_total hcons (by rw [hname]; decide)
      (by
        rw [hsymbols]
        intro s hs
        obtain rfl := List.mem_singleton.mp hs
        decide)
    obtain ⟨t', hcodes, hsame, -⟩ := hbinary t bytes 0 hcons (by
      unfold FitsVec size DenseSymbolMap.size
      rw [hsymbols, List.length_append, List.length_singleton]
      norm_num [SymbolTableImpl.new, DenseSymbolMap.new]) hwrite
    exact ⟨bytes, t', hwrite, hcodes, hsame⟩
  · apply htext t "" "," hcons
    have hcomma : separatorOr "\t " "," = [','] := by simp [separatorOr]
    rw [hentries, hcomma]
    refine ⟨by simp, ?_⟩
    intro e he
    obtain rfl := List.mem_singleton.mp he
    simp

/- A byte that is no text ends the reading without an error: the second line is gone. -/
theorem line_lost : ∃ t, readText String.length [97, 9, 49, 10, 255, 10] "" "" = some (.ok t) ∧
    lines [97, 9, 49, 10, 255, 10] = [[97, 9, 49, 10], [255, 10]] ∧
    t.size = 1 ∧ ¬Accounts String.length [97, 9, 49, 10, 255, 10] "" "" t := by
  have hbad : fromUtf8 [255, 10] = .error (.io .invalidData) := by decide +kernel
  have hread : ∃ t, readText String.length [97, 9, 49, 10, 255, 10] "" "" = some (.ok t) ∧
      t.size = 1 := by
    obtain ⟨table, hlines, hsize, hbuckets⟩ : ∃ table, readLines String.length
        (separatorOr "\t " "") (lines [97, 9, 49, 10, 255, 10]) 0 (.new "") = some (.ok table) ∧
        table.size = 1 ∧ table.symbols.buckets.length = 16 := ⟨_, rfl, rfl, rfl⟩
    refine ⟨table, ?_, hsize⟩
    obtain ⟨k, hgrown, hk, -⟩ := DenseSymbolMap.grown_spec
      (DenseSymbolMap.requiredCapacity table.symbols.symbols.length) 4
    have hpow : 2 ^ 4 ≤ 2 ^ k := Nat.pow_le_pow_right (by norm_num) hk
    unfold readText
    rw [hlines]
    simp only [Option.bind_eq_bind, Option.bind_some]
    unfold DenseSymbolMap.shrinkToFit
    rw [show (16 : ℕ) = 2 ^ 4 from rfl, hgrown, hbuckets, if_neg (by omega)]
    rfl
  obtain ⟨t, hrun, hsize⟩ := hread
  refine ⟨t, hrun, rfl, hsize, ?_⟩
  rintro ⟨items, table, m, hall, -⟩
  obtain ⟨item, -, text, nline, htext, -⟩ := ListLemmas.forall₂_mem_left hall
    (a := [255, 10]) (by decide)
  rw [hbad] at htext
  cases htext

end Sicada.SymbolTableRoundTrip
