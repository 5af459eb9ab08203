import Sicada.SymbolTableIo

namespace Sicada.SymbolTableText

open Io SymbolTableImpl SymbolTableExact SymbolTableIo

variable (getHash : String → ℕ)

/- What `read_line` gives call by call: the newline is part of a line. -/
def lines : List UInt8 → List (List UInt8)
  | [] => []
  | byte :: bytes =>
    if byte = 10 then [byte] :: lines bytes
    else match lines bytes with
      | [] => [[byte]]
      | line :: rest => (byte :: line) :: rest

def maxMagnitude (negative : Bool) : ℕ := if negative then 2 ^ 63 else 2 ^ 63 - 1

def parseDigits (negative : Bool) (digits : List Char) : Option ℤ :=
  if digits = [] ∨ digits.any (!·.isDigit) then none
  else
    let n := Nat.ofDigitChars 10 digits 0
    if maxMagnitude negative < n then none else some (if negative then -n else n)

/- `str::parse::<i64>` -/
def parseI64 : List Char → Option ℤ
  | '-' :: digits => parseDigits true digits
  | '+' :: digits => parseDigits false digits
  | digits => parseDigits false digits

def columns (separator line : List Char) : List (List Char) :=
  (line.splitOnP (· ∈ separator)).filter (· ≠ [])

def columnsMessage (parts : List (List Char)) (nline : ℕ) : String :=
  "ReadText: Bad number of columns (" ++ toString parts.length ++ "), line = " ++ toString nline

def labelMessage (column : List Char) (nline : ℕ) : String :=
  "ReadText: Invalid integer label (" ++ String.ofList column ++ "), line = " ++ toString nline

def isLineEnd (c : Char) : Bool := c = '\n' ∨ c = '\r'

/- What a line says: nothing when it is blank, else a symbol and its key. -/
def parseLine (separator : List Char) (nline : ℕ) (line : List Char) :
    Except OpenFstError (Option (String × ℤ)) :=
  let trimmed := line.rdropWhile isLineEnd
  if trimmed = [] then .ok none
  else
    match columns separator trimmed with
    | [symbol, label] =>
      match parseI64 label with
      | some key => .ok (some (String.ofList symbol, key))
      | none => .error (.symbolTable (labelMessage label nline))
    | parts => .error (.symbolTable (columnsMessage parts nline))

/- A `read_line` that fails, as it does on bytes that are no text, ends the loop. -/
def readLines (separator : List Char) :
    List (List UInt8) → ℕ → SymbolTableImpl → Option (Except OpenFstError SymbolTableImpl)
  | [], _, table => some (.ok table)
  | line :: rest, nline, table =>
    match fromUtf8 line with
    | .error _ => some (.ok table)
    | .ok text =>
      match parseLine separator (nline + 1) text.toList with
      | .error e => some (.error e)
      | .ok none => readLines separator rest (nline + 1) table
      | .ok (some (symbol, key)) => do
        let (_, table) ← table.addSymbol getHash symbol key
        readLines separator rest (nline + 1) table

def separatorOr (default sep : String) : List Char := if sep = "" then default.toList else sep.toList

def readText (bytes : List UInt8) (name sep : String) :
    Option (Except OpenFstError SymbolTableImpl) := do
  match ← readLines getHash (separatorOr "\t " sep) (lines bytes) 0 (.new name) with
  | .error e => some (.error e)
  | .ok table =>
    (table.symbols.shrinkToFit getHash).map fun symbols => .ok { table with symbols := symbols }

def writeLine (separator : List Char) (item : ℤ × String) : List UInt8 :=
  asBytes (String.ofList (item.2.toList ++ separator ++ (toString item.1).toList ++ ['\n']))

def writeText (t : SymbolTableImpl) (sep : String) : Option (List UInt8) :=
  (t.iter getHash).map fun items => items.flatMap (writeLine (separatorOr "\t" sep))

variable {getHash} {t : SymbolTableImpl} {separator : List Char}

section Bytes

theorem asBytes_ofList (cs : List Char) :
    asBytes (String.ofList cs) = cs.flatMap String.utf8EncodeChar := by
  unfold asBytes
  rw [String.toByteArray_ofList]
  simp [List.utf8Encode]

/- The newline is the only character with its byte in it. -/
theorem newline_of_mem {c : Char} (h : 10 ∈ String.utf8EncodeChar c) : c = '\n' := by
  have hbig : ∀ n m : ℕ, 128 ≤ m → m < 256 → n < 256 - m → (10 : UInt8) ≠ UInt8.ofNat (n + m) := by
    intro n m hm hm' hn heq
    have hnat := congrArg UInt8.toNat heq
    rw [UInt8.toNat_ofNat'] at hnat
    have hten : (10 : UInt8).toNat = 10 := rfl
    omega
  unfold String.utf8EncodeChar at h
  dsimp only at h
  split at h
  · next hle =>
    have heq := congrArg UInt8.toNat (List.mem_singleton.mp h)
    rw [UInt8.toNat_ofNat'] at heq
    have hten : (10 : UInt8).toNat = 10 := rfl
    apply Char.ext
    apply UInt32.toNat_inj.mp
    have hval : ('\n').val.toNat = 10 := rfl
    omega
  · exfalso
    split at h
    · simp only [List.mem_cons, List.not_mem_nil, or_false] at h
      rcases h with h | h
      · exact hbig _ _ (by norm_num) (by norm_num) (by omega) h
      · exact hbig _ _ (by norm_num) (by norm_num) (by omega) h
    · split at h
      · simp only [List.mem_cons, List.not_mem_nil, or_false] at h
        rcases h with h | h | h
        · exact hbig _ _ (by norm_num) (by norm_num) (by omega) h
        · exact hbig _ _ (by norm_num) (by norm_num) (by omega) h
        · exact hbig _ _ (by norm_num) (by norm_num) (by omega) h
      · simp only [List.mem_cons, List.not_mem_nil, or_false] at h
        rcases h with h | h | h | h
        · exact hbig _ _ (by norm_num) (by norm_num) (by omega) h
        · exact hbig _ _ (by norm_num) (by norm_num) (by omega) h
        · exact hbig _ _ (by norm_num) (by norm_num) (by omega) h
        · exact hbig _ _ (by norm_num) (by norm_num) (by omega) h

theorem lines_append {line : List UInt8} (h : 10 ∉ line) (rest : List UInt8) :
    lines (line ++ 10 :: rest) = (line ++ [10]) :: lines rest := by
  induction line with
  | nil => rfl
  | cons byte line ih =>
    rw [List.mem_cons, not_or] at h
    rw [List.cons_append, lines, if_neg (Ne.symm h.1), ih h.2]
    rfl

theorem lines_text {cs : List Char} (h : '\n' ∉ cs) (rest : List UInt8) :
    lines (asBytes (String.ofList (cs ++ ['\n'])) ++ rest) =
      asBytes (String.ofList (cs ++ ['\n'])) :: lines rest := by
  have hbytes : asBytes (String.ofList (cs ++ ['\n'])) =
      cs.flatMap String.utf8EncodeChar ++ [10] := by
    rw [asBytes_ofList, List.flatMap_append]
    rfl
  rw [hbytes, List.append_assoc]
  apply lines_append
  intro hmem
  obtain ⟨c, hc, hbyte⟩ := List.mem_flatMap.mp hmem
  exact h (newline_of_mem hbyte ▸ hc)

end Bytes

section Lines

theorem toList_toString (k : ℤ) : (toString k).toList =
    if k < 0 then '-' :: Nat.toDigits 10 k.natAbs else Nat.toDigits 10 k.natAbs := by
  change (Int.repr k).toList = _
  rw [Int.repr_eq_if]
  by_cases hk : k < 0
  · have habs : (-k).toNat = k.natAbs := by omega
    rw [if_pos hk, if_neg (by omega), String.toList_append, Nat.toList_repr, habs]
    rfl
  · have habs : k.toNat = k.natAbs := by omega
    rw [if_neg hk, if_pos (by omega), Nat.toList_repr, habs]

theorem isDigit_of_mem {n : ℕ} {c : Char} (h : c ∈ Nat.toDigits 10 n) : c.isDigit :=
  Nat.isDigit_of_mem_toDigits (by norm_num) (le_refl 10) h

theorem key_char {k : ℤ} {c : Char} (h : c ∈ (toString k).toList) : c.isDigit ∨ c = '-' := by
  rw [toList_toString] at h
  split at h
  · rcases List.mem_cons.mp h with rfl | h
    · exact Or.inr rfl
    · exact Or.inl (isDigit_of_mem h)
  · exact Or.inl (isDigit_of_mem h)

theorem parseDigits_toDigits {negative : Bool} {n : ℕ} (h : n ≤ maxMagnitude negative) :
    parseDigits negative (Nat.toDigits 10 n) = some (if negative then -(n : ℤ) else n) := by
  have hdigits : ¬(Nat.toDigits 10 n = [] ∨ (Nat.toDigits 10 n).any (!·.isDigit)) := by
    rintro (hnil | hany)
    · exact Nat.toDigits_ne_nil hnil
    · obtain ⟨c, hc, hnot⟩ := List.any_eq_true.mp hany
      rw [isDigit_of_mem hc] at hnot
      cases hnot
  unfold parseDigits
  rw [if_neg hdigits, Nat.ofDigitChars_ten_toDigits]
  dsimp only
  rw [if_neg (by omega)]

theorem parseI64_toString {k : ℤ} (hlow : -2 ^ 63 ≤ k) (hhigh : k ≤ maxI64) :
    parseI64 (toString k).toList = some k := by
  unfold maxI64 at hhigh
  rw [toList_toString]
  by_cases hk : k < 0
  · have hminus : parseI64 ('-' :: Nat.toDigits 10 k.natAbs) =
        parseDigits true (Nat.toDigits 10 k.natAbs) := rfl
    have hfits : k.natAbs ≤ maxMagnitude true := by
      unfold maxMagnitude
      rw [if_pos rfl]
      omega
    rw [if_pos hk, hminus, parseDigits_toDigits hfits, if_pos rfl]
    congr 1
    omega
  · rw [if_neg hk]
    have hplain : ∀ cs : List Char, (∀ c ∈ cs, c.isDigit) → parseI64 cs = parseDigits false cs := by
      intro cs hcs
      unfold parseI64
      split
      · exact absurd (hcs '-' List.mem_cons_self) (by decide)
      · exact absurd (hcs '+' List.mem_cons_self) (by decide)
      · rfl
    have hfits : k.natAbs ≤ maxMagnitude false := by
      unfold maxMagnitude
      rw [if_neg (by decide)]
      omega
    rw [hplain _ fun c hc => isDigit_of_mem hc, parseDigits_toDigits hfits, if_neg (by decide)]
    congr 1
    omega

/- A column, characters of the separator, and another column. -/
theorem columns_two {first sep second : List Char} (hfirst : ∀ c ∈ first, c ∉ separator)
    (hne : first ≠ []) (hsep : ∀ c ∈ sep, c ∈ separator) (hsep' : sep ≠ [])
    (hsecond : ∀ c ∈ second, c ∉ separator) (hne' : second ≠ []) :
    columns separator (first ++ sep ++ second) = [first, second] := by
  have hrest : ∀ ws : List Char, (∀ c ∈ ws, c ∈ separator) →
      ((ws ++ second).splitOnP (· ∈ separator)).filter (· ≠ []) = [second] := by
    intro ws hws
    induction ws with
    | nil =>
      rw [List.nil_append, List.splitOnP_eq_singleton fun c hc => by simpa using hsecond c hc]
      simp [hne']
    | cons w ws ih =>
      have hnil : ∀ x ∈ ([] : List Char), decide (x ∈ separator) = false := by simp
      have hsplit := List.splitOnP_append_cons_of_forall_mem hnil w
        (by simpa using hws w List.mem_cons_self) (ws ++ second)
      rw [List.nil_append] at hsplit
      rw [List.cons_append, hsplit, List.filter_cons_of_neg (by simp)]
      exact ih fun c hc => hws c (List.mem_cons_of_mem w hc)
  cases sep with
  | nil => exact absurd rfl hsep'
  | cons w ws =>
    unfold columns
    rw [List.append_assoc, List.cons_append, List.splitOnP_append_cons_of_forall_mem
      (fun c hc => by simpa using hfirst c hc) w (by simpa using hsep w List.mem_cons_self),
      List.filter_cons_of_pos (by simpa using hne),
      hrest ws fun c hc => hsep c (List.mem_cons_of_mem w hc)]

/- A separator and symbols that leave the columns of a line apart. -/
structure Separates (separator : List Char) (items : List (ℤ × String)) : Prop where
  plain : ∀ c ∈ separator, ¬c.isDigit ∧ c ≠ '-' ∧ c ≠ '\n'
  symbol : ∀ e ∈ items, e.2 ≠ "" ∧ ∀ c ∈ e.2.toList, c ∉ separator ∧ c ≠ '\n'

theorem parseLine_written {sep : List Char} {e : ℤ × String} (nline : ℕ)
    (h : Separates separator [e]) (hsep : ∀ c ∈ sep, c ∈ separator) (hsep' : sep ≠ [])
    (hlow : -2 ^ 63 ≤ e.1) (hhigh : e.1 ≤ maxI64) :
    parseLine separator nline (e.2.toList ++ sep ++ (toString e.1).toList ++ ['\n']) =
      .ok (some (e.2, e.1)) := by
  obtain ⟨hne, hchars⟩ := h.symbol e List.mem_cons_self
  have hkey : (toString e.1).toList ≠ [] := by
    rw [toList_toString]
    split
    · exact List.cons_ne_nil _ _
    · exact Nat.toDigits_ne_nil
  have hsecond : ∀ c ∈ (toString e.1).toList, c ∉ separator := by
    intro c hc hin
    obtain ⟨hdigit, hminus, -⟩ := h.plain c hin
    rcases key_char hc with hd | hd
    · exact hdigit hd
    · exact hminus hd
  have htrim : (e.2.toList ++ sep ++ (toString e.1).toList ++ ['\n']).rdropWhile isLineEnd =
      e.2.toList ++ sep ++ (toString e.1).toList := by
    rw [List.rdropWhile_concat_pos _ _ _ (by decide), List.rdropWhile_eq_self_iff]
    intro hl
    rw [List.getLast_append_of_ne_nil hl hkey]
    have hlast := key_char (List.getLast_mem hkey)
    intro hend
    have hcases : (toString e.1).toList.getLast hkey = '\n' ∨
        (toString e.1).toList.getLast hkey = '\r' := by simpa [isLineEnd] using hend
    rcases hcases with heq | heq
    · rw [heq] at hlast
      revert hlast
      decide
    · rw [heq] at hlast
      revert hlast
      decide
  have hsymbol : e.2.toList ≠ [] := by
    intro hnil
    apply hne
    rw [← String.ofList_toList (s := e.2), hnil]
  unfold parseLine
  rw [htrim]
  dsimp only
  have hfull : e.2.toList ++ sep ++ (toString e.1).toList ≠ [] := by
    intro hnil
    exact hkey (List.append_eq_nil_iff.mp hnil).2
  rw [if_neg hfull, columns_two (fun c hc => (hchars c hc).1) hsymbol hsep hsep'
    hsecond hkey]
  dsimp only
  rw [parseI64_toString hlow hhigh, String.ofList_toList]

theorem readLines_written {sep : List Char} {items : List (ℤ × String)}
    (hconsistent : Consistent getHash t) (hitems : Bindable t items)
    (h : Separates separator items) (hsep : ∀ c ∈ sep, c ∈ separator) (hsep' : sep ≠ [])
    (nline : ℕ) :
    ∃ t', readLines getHash separator (lines (items.flatMap (writeLine sep))) nline t =
        some (.ok t') ∧ Consistent getHash t' ∧ t'.keys = t.keys ++ items.map Prod.fst ∧
      t'.symbols.symbols = t.symbols.symbols ++ items.map Prod.snd := by
  induction items generalizing t nline with
  | nil => exact ⟨t, rfl, hconsistent, by simp, by simp⟩
  | cons e items ih =>
    have hone : Separates separator [e] := by
      refine ⟨h.plain, ?_⟩
      intro e' he'
      obtain rfl := List.mem_singleton.mp he'
      exact h.symbol e' List.mem_cons_self
    have hmore : Separates separator items :=
      ⟨h.plain, fun e' he' => h.symbol e' (List.mem_cons_of_mem e he')⟩
    obtain ⟨-, hlow, hhigh⟩ := hitems.key e List.mem_cons_self
    obtain ⟨u, hrun, hcons, hrest, hkeys, hsymbols, -⟩ := hitems.add hconsistent
    obtain ⟨t', hread, hcons', hkeys', hsymbols'⟩ := ih hcons hrest hmore (nline + 1)
    refine ⟨t', ?_, hcons', ?_, ?_⟩
    · have hnewline : '\n' ∉ e.2.toList ++ sep ++ (toString e.1).toList := by
        intro hmem
        rw [List.mem_append, List.mem_append] at hmem
        rcases hmem with (hmem | hmem) | hmem
        · exact ((h.symbol e List.mem_cons_self).2 _ hmem).2 rfl
        · exact (h.plain _ (hsep _ hmem)).2.2 rfl
        · have hchar := key_char hmem
          revert hchar
          decide
      rw [List.flatMap_cons]
      unfold writeLine at hread ⊢
      rw [lines_text hnewline, readLines, fromUtf8_asBytes]
      dsimp only
      rw [String.toList_ofList, parseLine_written _ hone hsep hsep' hlow hhigh.le]
      dsimp only
      rw [hrun]
      exact hread
    · rw [hkeys', hkeys, List.append_assoc]
      rfl
    · rw [hsymbols', hsymbols, List.append_assoc]
      rfl

/- What is read back of a table that was written as text. -/
theorem readText_writeText (h : Consistent getHash t) {sep : String} (name : String)
    (hsep : Separates (separatorOr "\t " sep) t.entries) :
    ∃ bytes t', writeText getHash t sep = some bytes ∧
      readText getHash bytes name sep = some (.ok t') ∧ Consistent getHash t' ∧
      SameBindings getHash t t' := by
  have hsub : ∀ c ∈ separatorOr "\t" sep, c ∈ separatorOr "\t " sep := by
    intro c hc
    unfold separatorOr at hc ⊢
    by_cases hempty : sep = ""
    · rw [if_pos hempty] at hc ⊢
      revert hc
      simp +contextual
    · rwa [if_neg hempty] at hc ⊢
  have hne : separatorOr "\t" sep ≠ [] := by
    unfold separatorOr
    split
    · decide
    · next hsep =>
      intro hnil
      apply hsep
      rw [← String.ofList_toList (s := sep), hnil]
  have hbind : Bindable (.new name) t.entries := bindable_of_perm h (List.Perm.refl _) rfl rfl
  obtain ⟨u, hread, hcons, hkeys, hsymbols⟩ := readLines_written (consistent_new name) hbind hsep
    hsub hne 0
  obtain ⟨m, hshrink, hsame, hsound⟩ := DenseSymbolMap.shrinkToFit_sound hcons.sound
  have hcons' : Consistent getHash { u with symbols := m } := by
    refine ⟨hsound, ?_, hcons.nodup, hcons.mapped, hcons.below, hcons.named, hcons.inRange⟩
    dsimp only
    rw [hsame]
    exact hcons.length
  refine ⟨_, { u with symbols := m }, by rw [writeText, h.keyed.iter_eq]; rfl, ?_, hcons', ?_⟩
  · unfold readText
    rw [hread]
    simp only [Option.bind_eq_bind, Option.bind_some, hshrink]
    rfl
  · apply sameBindings_of_perm h hcons'
    have hentries : ({ u with symbols := m } : SymbolTableImpl).entries = t.entries := by
      have hkeys' : ({ u with symbols := m } : SymbolTableImpl).keys =
          t.entries.map Prod.fst := hkeys
      unfold entries at hkeys' ⊢
      dsimp only at hkeys' ⊢
      rw [hkeys', hsame, hsymbols]
      exact (List.zip_of_prod rfl rfl).symm
    rw [hentries]

end Lines

end Sicada.SymbolTableText
