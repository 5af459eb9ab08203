import Sicada.Weights.UnionSums
import Sicada.Weights.WeightText

set_option linter.unusedSectionVars false

namespace Sicada.WeightTextExact

open StringParse SparseTupleExact

open SparsePowerWeight (failing)

section Trimming

variable {c : Char}

theorem trimEnd_cons (c : Char) (s : List Char) :
    trimEnd (c :: s) = if isWhitespace c = true ∧ trimEnd s = [] then [] else c :: trimEnd s := by
  unfold trimEnd
  rw [List.reverse_cons, List.dropWhile_append]
  by_cases hempty : s.reverse.dropWhile isWhitespace = []
  · by_cases hc : isWhitespace c = true
    · simp [hempty, hc]
    · simp [hempty, hc]
  · simp [hempty]

theorem trimStart_trimEnd (s : List Char) : trimStart (trimEnd s) = trimEnd (trimStart s) := by
  induction s with
  | nil => rfl
  | cons c s ih =>
    rw [trimEnd_cons]
    by_cases hc : isWhitespace c = true
    · have hdrop : ∀ s, trimStart (c :: s) = trimStart s := fun s => List.dropWhile_cons_of_pos hc
      rw [hdrop, ← ih]
      split
      · next hempty => rw [hempty.2]
      · rw [hdrop]
    · have hkeep : ∀ s, trimStart (c :: s) = c :: s := fun s => List.dropWhile_cons_of_neg hc
      rw [if_neg (fun h => hc h.1), hkeep, hkeep, trimEnd_cons, if_neg (fun h => hc h.1)]

theorem trimStart_trimStart (s : List Char) : trimStart (trimStart s) = trimStart s :=
  List.dropWhile_idempotent _ _

theorem trimEnd_trimEnd (s : List Char) : trimEnd (trimEnd s) = trimEnd s := by
  unfold trimEnd
  rw [List.reverse_reverse, List.dropWhile_idempotent]

theorem trim_trimStart (s : List Char) : trim (trimStart s) = trim s :=
  congrArg trimEnd (trimStart_trimStart s)

theorem trim_trimEnd (s : List Char) : trim (trimEnd s) = trim s := by
  unfold trim
  rw [trimStart_trimEnd, trimEnd_trimEnd]

theorem trim_trim (s : List Char) : trim (trim s) = trim s := by
  change trim (trimEnd (trimStart s)) = _
  rw [trim_trimEnd, trim_trimStart]

theorem trimStart_join (hc : isWhitespace c = false) (p r : List Char) :
    trimStart (p ++ c :: r) = trimStart p ++ c :: r := by
  unfold trimStart
  rw [List.dropWhile_append]
  split
  · next hempty =>
    rw [List.isEmpty_iff.mp hempty, List.dropWhile_cons_of_neg (by simp [hc]), List.nil_append]
  · rfl

theorem trimEnd_join (hc : isWhitespace c = false) (p r : List Char) :
    trimEnd (p ++ c :: r) = p ++ c :: trimEnd r := by
  induction p with
  | nil => exact (trimEnd_cons c r).trans (if_neg fun h => by simp [hc] at h)
  | cons x p ih =>
    rw [List.cons_append, trimEnd_cons, ih, if_neg fun h => by simp at h]
    rfl

theorem mem_of_mem_trim {s : List Char} (h : c ∈ trim s) : c ∈ s := by
  have hstart : c ∈ trimStart s := by
    have hmem := (List.dropWhile_sublist isWhitespace).subset (List.mem_reverse.mp h)
    exact List.mem_reverse.mp hmem
  exact (List.dropWhile_sublist isWhitespace).subset hstart

end Trimming

section Splitting

variable {s s' p : List Char} {ps ps' : List (List Char)}

@[simp]
theorem writeAll_singleton (c : Char) (p : List Char) : writeAll c [p] = p := by
  simp [writeAll]

@[simp]
theorem writeAll_cons_cons (c : Char) (p q : List Char) (ps : List (List Char)) :
    writeAll c (p :: q :: ps) = p ++ c :: writeAll c (q :: ps) := by
  unfold writeAll
  rw [List.intercalate_cons_cons]
  simp

/- The parts between the commas of a text without parentheses. -/
inductive Parts : List Char → List (List Char) → Prop
  | single {p : List Char} (hp : Plain p) : Parts p [p]
  | cons {p s : List Char} {ps : List (List Char)} (hp : Plain p) (h : Parts s ps) :
      Parts (p ++ ',' :: s) (p :: ps)

theorem Plain.trim (h : Plain s) : Plain (trim s) := fun c hc => h c (mem_of_mem_trim hc)

theorem Plain.notMem (h : Plain s) : ',' ∉ s := fun hmem => (h ',' hmem).1 rfl

theorem Parts.nonempty (h : Parts s ps) : ps ≠ [] := by
  cases h <;> exact List.cons_ne_nil _ _

theorem Parts.plain (h : Parts s ps) : ∀ p ∈ ps, Plain p := by
  induction h with
  | single hp => simpa using hp
  | cons hp _ ih => simpa using ⟨hp, ih⟩

theorem Parts.of_plain (hne : ps ≠ []) (h : ∀ p ∈ ps, Plain p) : Parts (writeAll ',' ps) ps := by
  induction ps with
  | nil => exact absurd rfl hne
  | cons p ps ih =>
    have hp := h p List.mem_cons_self
    cases ps with
    | nil =>
      rw [writeAll_singleton]
      exact .single hp
    | cons q ps =>
      rw [writeAll_cons_cons]
      exact .cons hp (ih (List.cons_ne_nil _ _) fun r hr => h r (List.mem_cons_of_mem p hr))

theorem Parts.pair (h : Parts s ps) (h' : Parts s' ps') :
    Parts (writePair s s') (ps ++ ps') := by
  induction h with
  | single hp => exact .cons hp h'
  | @cons p s ps hp _ ih =>
    unfold writePair at *
    rw [List.append_assoc, List.cons_append]
    exact .cons hp ih

theorem Parts.all {ss : List (List Char)} (h : ∀ s ∈ ss, ∃ ps, Parts s ps) :
    ∃ ps, Parts (writeAll ',' ss) ps := by
  induction ss with
  | nil => exact ⟨[[]], .single fun c hc => absurd hc List.not_mem_nil⟩
  | cons s ss ih =>
    obtain ⟨ps, hps⟩ := h s List.mem_cons_self
    obtain ⟨ps', hps'⟩ := ih fun s' hs' => h s' (List.mem_cons_of_mem s hs')
    cases ss with
    | nil => exact ⟨ps, by rwa [writeAll_singleton]⟩
    | cons s' ss => exact ⟨ps ++ ps', by rw [writeAll_cons_cons]; exact hps.pair hps'⟩

theorem Parts.eq_singleton (h : Parts s ps) (hcomma : ',' ∉ s) : ps = [s] := by
  induction h with
  | @single p hp => rfl
  | @cons p s ps hp _ _ => exact absurd (by simp) hcomma

theorem Parts.eq_of_length (h : Parts s ps) (hlen : ps.length = 1) : ps = [s] := by
  cases h with
  | single hp => rfl
  | cons hp h => exact absurd (List.length_eq_zero_iff.mp (Nat.succ.inj hlen)) h.nonempty

theorem Parts.of_notMem {ss : List (List Char)} (hne : ss ≠ []) (h : ∀ s ∈ ss, ∃ ps, Parts s ps)
    (hcomma : ∀ s ∈ ss, ',' ∉ s) : Parts (writeAll ',' ss) ss := by
  refine Parts.of_plain hne fun s hs => ?_
  obtain ⟨ps, hps⟩ := h s hs
  rw [hps.eq_singleton (hcomma s hs)] at hps
  exact hps.plain s (List.mem_singleton_self s)

theorem Parts.trimEnd (h : Parts s ps) :
    ∃ ps', Parts (trimEnd s) ps' ∧ ps'.map trim = ps.map trim := by
  induction h with
  | @single p hp =>
    have hplain : Plain (StringParse.trimEnd p) := fun c hc => hp c
      (List.mem_reverse.mp ((List.dropWhile_sublist isWhitespace).subset (List.mem_reverse.mp hc)))
    exact ⟨_, Parts.single hplain, congrArg (fun q => [q]) (trim_trimEnd p)⟩
  | @cons p s ps hp _ ih =>
    obtain ⟨ps', hps', hmap⟩ := ih
    rw [trimEnd_join rfl]
    exact ⟨p :: ps', Parts.cons hp hps', congrArg (StringParse.trim p :: ·) hmap⟩

theorem Parts.trimStart (h : Parts s ps) :
    ∃ ps', Parts (trimStart s) ps' ∧ ps'.map trim = ps.map trim := by
  have hdrop : ∀ {p : List Char}, Plain p → Plain (StringParse.trimStart p) :=
    fun hp c hc => hp c ((List.dropWhile_sublist isWhitespace).subset hc)
  induction h with
  | @single p hp =>
    exact ⟨_, Parts.single (hdrop hp), congrArg (fun q => [q]) (trim_trimStart p)⟩
  | @cons p s ps hp hrest _ =>
    rw [trimStart_join rfl]
    exact ⟨_, .cons (hdrop hp) hrest, congrArg (· :: ps.map StringParse.trim) (trim_trimStart p)⟩

theorem Parts.notMem (h : Parts s ps) : '(' ∉ s := by
  induction h with
  | @single p hp => exact fun hmem => (hp _ hmem).2.1 rfl
  | @cons p s ps hp _ ih =>
    intro hmem
    rcases List.mem_append.mp hmem with hmem | hmem
    · exact (hp _ hmem).2.1 rfl
    · rcases List.mem_cons.mp hmem with hcomma | hmem
      · exact absurd hcomma (by decide)
      · exact ih hmem

/- What is not cut is read on. -/
theorem splitParts_plain (hp : Plain p) (offset : ℕ) (part rest : List Char) :
    ∃ offset', splitParts ',' '(' ')' offset 0 part (p ++ rest) =
      splitParts ',' '(' ')' offset' 0 (part ++ p) rest := by
  induction p generalizing offset part with
  | nil => exact ⟨offset, by rw [List.nil_append, List.append_nil]⟩
  | cons c p ih =>
    obtain ⟨hcomma, hopen, hclose⟩ := hp c List.mem_cons_self
    obtain ⟨offset', heq⟩ := ih (fun c hc => hp c (List.mem_cons_of_mem _ hc))
      (offset + c.utf8Size) (part ++ [c])
    refine ⟨offset', ?_⟩
    rw [List.cons_append, splitParts, if_neg hopen, if_neg hclose, if_neg (fun h => hcomma h.1),
      heq, List.append_assoc]
    rfl

theorem splitParts_parts (h : Parts s ps) (offset : ℕ) :
    splitParts ',' '(' ')' offset 0 [] s = .ok (ps.map trim) := by
  induction h generalizing offset with
  | @single p hp =>
    obtain ⟨offset', heq⟩ := splitParts_plain hp offset [] []
    rw [List.append_nil] at heq
    rw [heq]
    rfl
  | @cons p s ps hp _ ih =>
    obtain ⟨offset', heq⟩ := splitParts_plain hp offset [] (',' :: s)
    rw [heq, splitParts, if_neg (by decide), if_neg (by decide), if_pos ⟨rfl, rfl⟩, ih]
    rfl

theorem splitWeight_parts (h : Parts s ps) : splitWeight s = .ok (ps.map trim) := by
  obtain ⟨ps₁, hps₁, hmap₁⟩ := h.trimStart
  obtain ⟨ps₂, hps₂, hmap₂⟩ := hps₁.trimEnd
  have hstrip : stripOuter '(' ')' (trim s) = trim s :=
    if_neg fun h => hps₂.notMem (List.mem_of_mem_head? h.1)
  have hparts : splitParts ',' '(' ')' 0 0 [] (trim s) = .ok (ps₂.map trim) :=
    splitParts_parts hps₂ 0
  unfold splitWeight splitCompositeWeight
  rw [hstrip, hparts, hmap₂, hmap₁]

theorem splitWeight_trim (s : List Char) : splitWeight (trim s) = splitWeight s := by
  unfold splitWeight splitCompositeWeight
  rw [trim_trim]

end Splitting

section Reading

variable {A A₁ A₂ B : Type} {read : List Char → Except ParseError A} {s s₁ s₂ : List Char} {a : A}
  {read₁ : List Char → Except ParseError A₁} {read₂ : List Char → Except ParseError A₂}
  {a₁ : A₁} {a₂ : A₂} {ps ps₁ ps₂ : List (List Char)}

/- A part that has no part of its own is read as the weight. -/
def Reads (read : List Char → Except ParseError A) (s : List Char) (a : A) : Prop :=
  ',' ∉ s ∧ read (trim s) = .ok a

theorem map_eq_ok {x : Except ParseError A} {f : A → B} {b : B} :
    x.map f = .ok b ↔ ∃ a, x = .ok a ∧ f a = b := by
  cases x with
  | error error => simp [Except.map]
  | ok a => simp [Except.map]

theorem bind_ok {x : Except ParseError A} {f : A → Except ParseError B} {b : B} :
    (x >>= f) = .ok b ↔ ∃ a, x = .ok a ∧ f a = .ok b := by
  cases x with
  | error error => simp [Bind.bind, Except.bind]
  | ok a => simp [Bind.bind, Except.bind]

theorem failing_iff {message : String} : failing message read s = .ok a ↔ read s = .ok a := by
  refine ⟨failing_ok, fun h => ?_⟩
  unfold failing
  rw [h]

theorem reads_failing {message : String} :
    Reads (failing message read) s a ↔ Reads read s a := and_congr_right fun _ => failing_iff

theorem readPair_ok : readPair read₁ read₂ s = .ok (a₁, a₂) ↔
    ∃ part₁ part₂, splitWeight s = .ok [part₁, part₂] ∧ read₁ part₁ = .ok a₁ ∧
      read₂ part₂ = .ok a₂ := by
  refine bind_ok.trans ⟨?_, ?_⟩
  · rintro ⟨parts, hsplit, h⟩
    split at h
    · obtain ⟨b₁, h₁, h⟩ := bind_ok.mp h
      obtain ⟨b₂, h₂, h⟩ := bind_ok.mp h
      cases h
      exact ⟨_, _, hsplit, h₁, h₂⟩
    · cases h
  · rintro ⟨part₁, part₂, hsplit, h₁, h₂⟩
    exact ⟨_, hsplit, bind_ok.mpr ⟨_, h₁, bind_ok.mpr ⟨_, h₂, rfl⟩⟩⟩

theorem readPair_trim : readPair read₁ read₂ (trim s) = readPair read₁ read₂ s := by
  unfold readPair
  rw [splitWeight_trim]

/- A pair reads back where neither text has a comma. -/
theorem readPair_written (h₁ : ∃ ps, Parts s₁ ps) (h₂ : ∃ ps, Parts s₂ ps) :
    readPair read₁ read₂ (writePair s₁ s₂) = .ok (a₁, a₂) ↔
      Reads read₁ s₁ a₁ ∧ Reads read₂ s₂ a₂ := by
  obtain ⟨ps₁, hps₁⟩ := h₁
  obtain ⟨ps₂, hps₂⟩ := h₂
  rw [readPair_ok, splitWeight_parts (hps₁.pair hps₂)]
  constructor
  · rintro ⟨part₁, part₂, hparts, hread₁, hread₂⟩
    have hlen : (ps₁ ++ ps₂).length = 2 := by
      rw [← List.length_map, Except.ok.inj hparts]
      rfl
    have hpos₁ := List.length_pos_iff.mpr hps₁.nonempty
    have hpos₂ := List.length_pos_iff.mpr hps₂.nonempty
    rw [List.length_append] at hlen
    obtain rfl := hps₁.eq_of_length (by omega)
    obtain rfl := hps₂.eq_of_length (by omega)
    cases hparts
    exact ⟨⟨Plain.notMem (hps₁.plain _ (List.mem_singleton_self _)), hread₁⟩,
      Plain.notMem (hps₂.plain _ (List.mem_singleton_self _)), hread₂⟩
  · rintro ⟨⟨hcomma₁, hread₁⟩, hcomma₂, hread₂⟩
    rw [hps₁.eq_singleton hcomma₁, hps₂.eq_singleton hcomma₂]
    exact ⟨_, _, rfl, hread₁, hread₂⟩

theorem readPair_plain (h : Plain s) : readPair read₁ read₂ s ≠ .ok (a₁, a₂) := by
  intro hread
  obtain ⟨_, _, hsplit, -⟩ := readPair_ok.mp hread
  rw [splitWeight_parts (.single h)] at hsplit
  cases hsplit

theorem readAll_ok {values : List A} :
    readAll read ps = .ok values ↔ List.Forall₂ (fun p a => read p = .ok a) ps values := by
  induction ps generalizing values with
  | nil =>
    rw [List.forall₂_nil_left_iff]
    exact ⟨fun h => (Except.ok.inj h).symm, fun h => h ▸ rfl⟩
  | cons p ps ih =>
    rw [List.forall₂_cons_left_iff]
    refine bind_ok.trans ⟨?_, ?_⟩
    · rintro ⟨a, hp, h⟩
      obtain ⟨values', hps, h⟩ := bind_ok.mp h
      cases h
      exact ⟨a, values', hp, ih.mp hps, rfl⟩
    · rintro ⟨a, values', hp, hall, rfl⟩
      exact ⟨a, hp, bind_ok.mpr ⟨values', ih.mpr hall, rfl⟩⟩

end Reading

section Strings

variable {L : Type} {S : StringType} {label : LabelText L}

theorem mem_writeAll {separator c : Char} {ps : List (List Char)} (h : c ∈ writeAll separator ps) :
    c = separator ∨ ∃ p ∈ ps, c ∈ p := by
  induction ps with
  | nil => cases h
  | cons p ps ih =>
    cases ps with
    | nil =>
      rw [writeAll_singleton] at h
      exact Or.inr ⟨p, List.mem_cons_self, h⟩
    | cons q ps =>
      rw [writeAll_cons_cons] at h
      rcases List.mem_append.mp h with h | h
      · exact Or.inr ⟨p, List.mem_cons_self, h⟩
      · rcases List.mem_cons.mp h with h | h
        · exact Or.inl h
        · rcases ih h with h | ⟨r, hr, h⟩
          · exact Or.inl h
          · exact Or.inr ⟨r, List.mem_cons_of_mem p hr, h⟩

variable (label) in
theorem char_of_labels {v : List L} {c : Char} (h : c ∈ writeAll '_' (v.map label.text)) :
    c.isDigit = true ∨ c = '-' ∨ c = '_' := by
  rcases mem_writeAll h with h | ⟨p, hp, h⟩
  · exact Or.inr (Or.inr h)
  · obtain ⟨l, -, rfl⟩ := List.mem_map.mp hp
    exact (label.digits l c h).imp_right Or.inl

variable (label) in
theorem string_cases (w : StringWeight L S) :
    StringWeight.text label.text w ∈ ["Infinity".toList, "BadString".toList, "Epsilon".toList] ∨
      ∃ v : List L, v ≠ [] ∧ w = ⟨.labels v⟩ ∧
        StringWeight.text label.text w = writeAll '_' (v.map label.text) := by
  obtain ⟨value⟩ := w
  match value with
  | .zero => exact Or.inl (by simp [StringWeight.text])
  | .noWeight => exact Or.inl (by simp [StringWeight.text])
  | .labels [] => exact Or.inl (by simp [StringWeight.text])
  | .labels (l :: v) => exact Or.inr ⟨l :: v, List.cons_ne_nil l v, rfl, rfl⟩

theorem digit_range {c : Char} (h : c.isDigit = true) : 48 ≤ c.toNat ∧ c.toNat ≤ 57 := by
  unfold Char.isDigit at h
  rw [Bool.and_eq_true, decide_eq_true_eq, decide_eq_true_eq] at h
  exact h

/- No separator, parenthesis or white space is in this range. -/
theorem char_of_range {c : Char} (h : 45 ≤ c.toNat ∧ c.toNat < 128) :
    (c ≠ ',' ∧ c ≠ '(' ∧ c ≠ ')') ∧ isWhitespace c = false := by
  refine ⟨⟨?_, ?_, ?_⟩, ?_⟩
  · rintro rfl
    exact absurd h (by decide)
  · rintro rfl
    exact absurd h (by decide)
  · rintro rfl
    exact absurd h (by decide)
  · unfold isWhitespace
    simp only [Bool.or_eq_false_iff, Bool.and_eq_false_iff, decide_eq_false_iff_not,
      beq_eq_false_iff_ne]
    omega

theorem string_char (w : StringWeight L S) :
    ∀ c ∈ StringWeight.text label.text w, 45 ≤ c.toNat ∧ c.toNat < 128 := by
  rcases string_cases label w with h | ⟨v, -, -, h⟩
  · have hall : ∀ s ∈ ["Infinity".toList, "BadString".toList, "Epsilon".toList], ∀ c ∈ s,
        45 ≤ c.toNat ∧ c.toNat < 128 := by simp
    exact hall _ h
  · rw [h]
    intro c hc
    rcases char_of_labels label hc with hdigit | rfl | rfl
    · have hrange := digit_range hdigit
      omega
    · decide
    · decide

theorem trim_of_forall {s : List Char} (h : ∀ c ∈ s, isWhitespace c = false) : trim s = s := by
  have hdrop : ∀ s : List Char, (∀ c ∈ s, isWhitespace c = false) →
      s.dropWhile isWhitespace = s := by
    intro s hs
    cases s with
    | nil => rfl
    | cons c s => exact List.dropWhile_cons_of_neg (by simp [hs c List.mem_cons_self])
  unfold trim trimEnd trimStart
  rw [hdrop s h, hdrop s.reverse fun c hc => h c (List.mem_reverse.mp hc), List.reverse_reverse]

variable (label) in
/- The text of a string is a part, and reads back. -/
theorem string_reads (w : StringWeight L S) :
    Plain (StringWeight.text label.text w) ∧
      Reads (StringWeight.fromStr label.fromStr) (StringWeight.text label.text w) w := by
  have hplain : Plain (StringWeight.text label.text w) :=
    fun c hc => (char_of_range (string_char w c hc)).1
  refine ⟨hplain, Plain.notMem hplain, ?_⟩
  rw [trim_of_forall fun c hc => (char_of_range (string_char w c hc)).2]
  obtain ⟨value⟩ := w
  match value with
  | .zero => rfl
  | .noWeight => rfl
  | .labels [] => rfl
  | .labels (l :: v) =>
    change StringWeight.fromStr label.fromStr (writeAll '_' ((l :: v).map label.text)) = _
    have hname : ∀ s : List Char, (∃ c ∈ s, 57 < c.toNat ∧ c ≠ '_') →
        writeAll '_' ((l :: v).map label.text) ≠ s := by
      rintro s ⟨c, hc, hlarge, hline⟩ rfl
      rcases char_of_labels label hc with hdigit | rfl | rfl
      · exact absurd hlarge (Nat.not_lt.mpr (digit_range hdigit).2)
      · exact absurd hlarge (by decide)
      · exact hline rfl
    have hsplit : (writeAll '_' ((l :: v).map label.text)).splitOn '_' =
        (l :: v).map label.text := by
      refine List.splitOn_intercalate '_' (fun s hs hmem => ?_) (List.cons_ne_nil _ _)
      obtain ⟨l', -, rfl⟩ := List.mem_map.mp hs
      rcases label.digits l' _ hmem with hdigit | hdash
      · exact absurd hdigit (by decide)
      · exact absurd hdash (by decide)
    have hread : readAll label.fromStr ((l :: v).map label.text) = .ok (l :: v) :=
      readAll_ok.mpr
        (List.forall₂_map_left_iff.mpr (List.forall₂_same.mpr fun l' _ => label.reads l'))
    unfold StringWeight.fromStr
    rw [if_neg (hname _ ⟨'I', by decide, by decide⟩), if_neg (hname _ ⟨'E', by decide, by decide⟩),
      if_neg (hname _ ⟨'B', by decide, by decide⟩), hsplit, hread]

end Strings

section Lists

variable {W K E : Type} {n : ℕ} {text : W → List Char} {read : List Char → Except ParseError W}
  {s : List Char}

theorem power_ok {w : PowerWeight W n} : PowerWeight.fromStr read s = .ok w ↔
    ∃ parts, splitWeight s = .ok parts ∧
      List.Forall₂ (fun p a => read p = .ok a) parts (List.ofFn w.elements) := by
  have hfailing : ∀ parts (values : List W), readAll (failing "element" read) parts = .ok values ↔
      List.Forall₂ (fun p a => read p = .ok a) parts values := fun parts values => by
    simp only [readAll_ok, failing_iff]
  refine bind_ok.trans (exists_congr fun parts => and_congr_right fun _ => ?_)
  constructor
  · intro h
    split at h
    · cases h
    · obtain ⟨parsed, hread, h⟩ := bind_ok.mp h
      split at h
      · next hlen =>
        cases h
        subst hlen
        have heq : List.ofFn (fun i => parsed.get (Fin.cast rfl i)) = parsed := List.ofFn_get parsed
        rw [heq]
        exact (hfailing _ _).mp hread
      · cases h
  · intro hall
    have hlen : parts.length = n := hall.length_eq.trans List.length_ofFn
    rw [if_neg (not_not.mpr hlen)]
    refine bind_ok.mpr ⟨_, (hfailing _ _).mpr hall, ?_⟩
    rw [dif_pos List.length_ofFn]
    refine congrArg Except.ok (PowerWeight.ext (funext fun i => ?_))
    simp

theorem forall₂_mem_right {A B : Type} {R : A → B → Prop} {as : List A} {bs : List B}
    (h : List.Forall₂ R as bs) {b : B} (hb : b ∈ bs) : ∃ a ∈ as, R a b := by
  induction h with
  | nil => cases hb
  | @cons a b' as bs hab _ ih =>
    rcases List.mem_cons.mp hb with rfl | hb
    · exact ⟨a, List.mem_cons_self, hab⟩
    · obtain ⟨a', ha', hR⟩ := ih hb
      exact ⟨a', List.mem_cons_of_mem a ha', hR⟩

/- Texts that fall into parts, and what is read of a part is written without a comma. -/
structure Fitting (text : W → List Char) (read : List Char → Except ParseError W) : Prop where
  parts : ∀ a, ∃ ps, Parts (text a) ps
  notMem : ∀ {s : List Char} {a : W}, Plain s → read s = .ok a → ',' ∉ text a

theorem plain_of_mem {ps : List (List Char)} (h : Parts s ps) {p : List Char}
    (hp : p ∈ ps.map trim) : Plain p := by
  obtain ⟨q, hq, rfl⟩ := List.mem_map.mp hp
  exact Plain.trim (h.plain q hq)

theorem power_trim : (PowerWeight.fromStr read (trim s) : Except ParseError (PowerWeight W n)) =
    PowerWeight.fromStr read s := by
  unfold PowerWeight.fromStr
  rw [splitWeight_trim]

theorem power_text (text : W → List Char) (w : PowerWeight W n) :
    PowerWeight.text text w = writeAll ',' ((List.ofFn w.elements).map text) := by
  rw [List.map_ofFn]
  rfl

theorem power_written (h : Fitting text read) (w : PowerWeight W n) :
    PowerWeight.fromStr read (PowerWeight.text text w) = .ok w ↔
      n ≠ 0 ∧ ∀ i, Reads read (text (w.elements i)) (w.elements i) := by
  have hall : ∀ s ∈ (List.ofFn w.elements).map text, ∃ ps, Parts s ps := by
    intro s hs
    obtain ⟨a, -, rfl⟩ := List.mem_map.mp hs
    exact h.parts a
  have hpoint : List.Forall₂ (fun p a => read p = .ok a)
      (((List.ofFn w.elements).map text).map trim) (List.ofFn w.elements) ↔
        ∀ i, read (trim (text (w.elements i))) = .ok (w.elements i) := by
    rw [List.map_map, List.forall₂_map_left_iff, List.forall₂_same, List.forall_mem_ofFn_iff]
    rfl
  rw [power_ok, power_text]
  constructor
  · rintro ⟨parts, hsplit, hread⟩
    obtain ⟨ps, hps⟩ := Parts.all hall
    obtain rfl : parts = ps.map trim := Except.ok.inj (hsplit.symm.trans (splitWeight_parts hps))
    have hn : n ≠ 0 := by
      rintro rfl
      have hlen := hread.length_eq
      rw [List.length_map, List.length_ofFn] at hlen
      exact hps.nonempty (List.length_eq_zero_iff.mp hlen)
    have hcomma : ∀ a ∈ List.ofFn w.elements, ',' ∉ text a := by
      intro a ha
      obtain ⟨p, hp, hpa⟩ := forall₂_mem_right hread ha
      exact h.notMem (plain_of_mem hps hp) hpa
    have hwhole : Parts (writeAll ',' ((List.ofFn w.elements).map text))
        ((List.ofFn w.elements).map text) := by
      refine Parts.of_notMem (fun hnil => hn ?_) hall (List.forall_mem_map.mpr hcomma)
      simpa using congrArg List.length hnil
    rw [← Except.ok.inj ((splitWeight_parts hwhole).symm.trans (splitWeight_parts hps)),
      hpoint] at hread
    exact ⟨hn, fun i => ⟨hcomma _ (List.mem_ofFn.mpr ⟨i, rfl⟩), hread i⟩⟩
  · rintro ⟨hn, hreads⟩
    have hwhole : Parts (writeAll ',' ((List.ofFn w.elements).map text))
        ((List.ofFn w.elements).map text) := by
      refine Parts.of_notMem (fun hnil => hn ?_) hall ?_
      · simpa using congrArg List.length hnil
      · rw [List.forall_mem_map, List.forall_mem_ofFn_iff]
        exact fun i => (hreads i).1
    exact ⟨_, splitWeight_parts hwhole, hpoint.mpr fun i => (hreads i).2⟩

variable [DecidableEq W] [LinearOrder K]

open SparseTupleWeight

variable {parseKey : List Char → Except ParseError K} {parts : List (List Char)}
  {entries : List (K × W)} {parseDefault : List Char → Except ParseError W}

theorem readEntries_pairs (h : SparseTupleExact.Pairs read parseKey parts entries) (count : ℕ)
    (t : SparseTupleWeight W K) : readEntries read parseKey count parts t =
      .ok ⟨t.default, t.rest ++ entries.filter fun e => e.2 ≠ t.default⟩ := by
  induction h generalizing t with
  | nil =>
    rw [readEntries, List.filter_nil, List.append_nil]
  | @cons keyText valueText k w parts entries hkey hvalue _ ih =>
    rw [readEntries, hkey, hvalue]
    change readEntries read parseKey count parts (t.pushBack k w) = _
    rw [ih, default_pushBack, rest_pushBack, List.append_assoc, ← List.filter_append,
      List.singleton_append]

theorem readParts_iff {t : SparseTupleWeight W K} :
    readParts parseDefault read parseKey s = .ok t ↔
      ∃ first parts entries, splitWeight s = .ok (first :: parts) ∧
        parseDefault first = .ok t.default ∧
          SparseTupleExact.Pairs read parseKey parts entries ∧
            t.rest = entries.filter fun e => e.2 ≠ t.default := by
  refine ⟨readParts_ok, ?_⟩
  rintro ⟨first, parts, entries, hsplit, hfirst, hpairs, hrest⟩
  unfold readParts
  rw [hsplit]
  change (parseDefault first >>= fun default => readEntries read parseKey (parts.length + 1) parts
    (new default)) = _
  rw [hfirst]
  change readEntries read parseKey (parts.length + 1) parts (new t.default) = _
  rw [readEntries_pairs hpairs]
  exact congrArg (fun rest => Except.ok (SparseTupleWeight.mk t.default rest)) hrest.symm

theorem readParts_trim :
    readParts parseDefault read parseKey (trim s) = readParts parseDefault read parseKey s := by
  unfold readParts
  rw [splitWeight_trim]

/- The texts of the entries, a key and a weight in turn. -/
def entryTexts (text : W → List Char) (key : K → List Char) (rest : List (K × W)) :
    List (List Char) :=
  rest.flatMap fun e => [key e.1, text e.2]

theorem sparse_text (key : K → List Char) (t : SparseTupleWeight W K) :
    SparseTupleWeight.text text key t =
      writeAll ',' (text t.default :: entryTexts text key t.rest) := by
  have hwrite : ∀ (first : List Char) (rest : List (K × W)),
      first ++ rest.flatMap (fun e => ',' :: key e.1 ++ ',' :: text e.2) =
        writeAll ',' (first :: entryTexts text key rest) := by
    intro first rest
    induction rest generalizing first with
    | nil => simp [entryTexts]
    | cons e rest ih =>
      have hnext := ih (text e.2)
      have hcons : entryTexts text key (e :: rest) =
          key e.1 :: text e.2 :: entryTexts text key rest := rfl
      rw [hcons, writeAll_cons_cons, writeAll_cons_cons, ← hnext, List.flatMap_cons]
      simp
  exact hwrite _ _

theorem pairs_length (h : SparseTupleExact.Pairs read parseKey parts entries) :
    parts.length = 2 * entries.length := by
  induction h with
  | nil => rfl
  | cons _ _ _ ih =>
    rw [List.length_cons, List.length_cons, List.length_cons, ih]
    omega

theorem pairs_mem (h : SparseTupleExact.Pairs read parseKey parts entries) {e : K × W}
    (he : e ∈ entries) : ∃ p ∈ parts, read p = .ok e.2 := by
  induction h with
  | nil => cases he
  | @cons keyText valueText k w parts entries _ hvalue _ ih =>
    rcases List.mem_cons.mp he with rfl | he
    · exact ⟨valueText, by simp, hvalue⟩
    · obtain ⟨p, hp, hread⟩ := ih he
      exact ⟨p, by simp [hp], hread⟩

theorem pairs_texts {key : K → List Char} {rest : List (K × W)} :
    SparseTupleExact.Pairs read parseKey ((entryTexts text key rest).map trim) rest ↔
      ∀ e ∈ rest, parseKey (trim (key e.1)) = .ok e.1 ∧ read (trim (text e.2)) = .ok e.2 := by
  induction rest with
  | nil => exact ⟨fun _ e he => absurd he List.not_mem_nil, fun _ => .nil⟩
  | cons e rest ih =>
    rw [List.forall_mem_cons, ← ih]
    constructor
    · rintro (_ | ⟨hkey, hvalue, hrest⟩)
      exact ⟨⟨hkey, hvalue⟩, hrest⟩
    · rintro ⟨⟨hkey, hvalue⟩, hrest⟩
      exact .cons hkey hvalue hrest

theorem sparse_parts (key : Leaf K) (h : ∀ a, ∃ ps, Parts (text a) ps) (t : SparseTupleWeight W K) :
    ∀ s ∈ text t.default :: entryTexts text key.text t.rest, ∃ ps, Parts s ps := by
  intro s hs
  rcases List.mem_cons.mp hs with rfl | hs
  · exact h t.default
  · obtain ⟨e, -, he⟩ := List.mem_flatMap.mp hs
    rcases List.mem_pair.mp he with rfl | rfl
    · exact ⟨_, .single (key.plain e.1)⟩
    · exact h e.2

/- A tuple reads back where no text of a weight has a comma, and no entry is the default. -/
theorem sparse_written (key : Leaf K) (hdefault : Fitting text parseDefault) (h : Fitting text read)
    (t : SparseTupleWeight W K) :
    readParts parseDefault read key.fromStr (SparseTupleWeight.text text key.text t) = .ok t ↔
      Reads parseDefault (text t.default) t.default ∧ ∀ e ∈ t.rest, e.2 ≠ t.default ∧
        key.fromStr (trim (key.text e.1)) = .ok e.1 ∧ Reads read (text e.2) e.2 := by
  have hall := sparse_parts key h.parts t
  have hwhole : ',' ∉ text t.default → (∀ e ∈ t.rest, ',' ∉ text e.2) →
      splitWeight (SparseTupleWeight.text text key.text t) =
        .ok (trim (text t.default) :: (entryTexts text key.text t.rest).map trim) := by
    intro hfirst hrest
    rw [sparse_text]
    refine splitWeight_parts (Parts.of_notMem (List.cons_ne_nil _ _) hall fun s hs => ?_)
    rcases List.mem_cons.mp hs with rfl | hs
    · exact hfirst
    · obtain ⟨e, he, hs⟩ := List.mem_flatMap.mp hs
      rcases List.mem_pair.mp hs with rfl | rfl
      · exact Plain.notMem (key.plain e.1)
      · exact hrest e he
  rw [readParts_iff]
  constructor
  · rintro ⟨first, parts, entries, hsplit, hfirst, hpairs, hrest⟩
    obtain ⟨ps, hps⟩ := Parts.all hall
    rw [← sparse_text] at hps
    have hparts := Except.ok.inj ((splitWeight_parts hps).symm.trans hsplit)
    have hplain : ∀ p ∈ first :: parts, Plain p := fun p hp => plain_of_mem hps (hparts ▸ hp)
    have hcomma := hdefault.notMem (hplain first List.mem_cons_self) hfirst
    have hsub : ∀ e ∈ t.rest, e ∈ entries ∧ e.2 ≠ t.default := by
      intro e he
      rw [hrest] at he
      exact ⟨(List.mem_filter.mp he).1, of_decide_eq_true (List.mem_filter.mp he).2⟩
    have hcommas : ∀ e ∈ t.rest, ',' ∉ text e.2 := by
      intro e he
      obtain ⟨p, hp, hread⟩ := pairs_mem hpairs (hsub e he).1
      exact h.notMem (hplain p (List.mem_cons_of_mem first hp)) hread
    rw [hwhole hcomma hcommas] at hsplit
    cases hsplit
    -- as many entries are read as were written, so that none is left out
    have hlen := pairs_length hpairs
    have hwritten : (entryTexts text key.text t.rest).length = 2 * t.rest.length := by
      unfold entryTexts
      rw [List.length_flatMap]
      simp [mul_comm]
    rw [List.length_map, hwritten] at hlen
    have hkept : entries.filter (fun e => e.2 ≠ t.default) = entries :=
      List.filter_sublist.eq_of_length (by rw [← hrest]; omega)
    obtain rfl : t.rest = entries := hrest.trans hkept
    have hreads := pairs_texts.mp hpairs
    exact ⟨⟨hcomma, hfirst⟩,
      fun e he => ⟨(hsub e he).2, (hreads e he).1, hcommas e he, (hreads e he).2⟩⟩
  · rintro ⟨⟨hcomma, hfirst⟩, hentries⟩
    refine ⟨_, _, t.rest, hwhole hcomma fun e he => (hentries e he).2.2.1, hfirst,
      pairs_texts.mpr fun e he => ⟨(hentries e he).2.1, (hentries e he).2.2.2⟩, ?_⟩
    exact (List.filter_eq_self.mpr fun e he => decide_eq_true (hentries e he).1).symm

end Lists

section Unions

variable {E K : Type} [WeightOps E] [LinearOrder K] {O : UnionWeightOptions E} {key : E → K}
  {write : E → List Char} {read : List Char → Except ParseError E} {s : List Char} {e : E}
  {elems elems' added values pre : List E} {w : UnionWeight E O}

open WeightOps (isMember)

open UnionWeight (pushAll pushBack readElements emptySet newBad)

open UnionSums (Sorted pushBack_pushed sorted_added)

theorem readElements_ok {parts : List (List Char)} {weight : UnionWeight E O} :
    readElements read parts weight = .ok w ↔
      ∃ values, List.Forall₂ (fun p a => read p = .ok a) parts values ∧
        pushAll weight values true = w := by
  induction parts generalizing weight with
  | nil =>
    simp only [List.forall₂_nil_left_iff, exists_eq_left]
    exact ⟨fun h => Except.ok.inj h, fun h => congrArg Except.ok h⟩
  | cons p parts ih =>
    simp only [List.forall₂_cons_left_iff]
    refine bind_ok.trans ⟨?_, ?_⟩
    · rintro ⟨v, hp, h⟩
      obtain ⟨values, hvalues, hpush⟩ := ih.mp h
      exact ⟨v :: values, ⟨v, values, failing_iff.mp hp, hvalues, rfl⟩, hpush⟩
    · rintro ⟨_, ⟨v, values, hp, hvalues, rfl⟩, hpush⟩
      exact ⟨v, failing_iff.mpr hp, ih.mpr ⟨values, hvalues, hpush⟩⟩

/- Members that come one after the other are put at the end. -/
theorem pushAll_chain (hmember : ∀ e ∈ elems, isMember e = true)
    (hchain : (pre ++ elems).IsChain fun e e' => O.compare e e' = true) :
    pushAll (⟨some pre⟩ : UnionWeight E O) elems true = ⟨some (pre ++ elems)⟩ := by
  induction elems generalizing pre with
  | nil => rw [List.append_nil]; rfl
  | cons e elems ih =>
    have hpush : (⟨some pre⟩ : UnionWeight E O).pushBack e true = ⟨some (pre ++ [e])⟩ := by
      unfold pushBack
      dsimp only
      rw [if_neg (by simp [hmember e List.mem_cons_self])]
      rcases List.eq_nil_or_concat pre with rfl | ⟨pre, back, rfl⟩
      · rfl
      · rw [List.concat_eq_append] at hchain ⊢
        have hback : O.compare back e = true := by
          rw [List.append_assoc] at hchain
          exact List.isChain_cons_cons.mp (List.isChain_append.mp hchain).2.1 |>.1
        rw [List.getLast?_concat]
        dsimp only
        rw [if_pos rfl, if_pos hback]
    change pushAll ((⟨some pre⟩ : UnionWeight E O).pushBack e true) elems true = _
    rw [hpush, ih (fun e he => hmember e (List.mem_cons_of_mem _ he)), List.append_assoc]
    · rfl
    · rwa [List.append_assoc]

theorem pushAll_none : pushAll (⟨none⟩ : UnionWeight E O) added true = ⟨none⟩ := by
  induction added with
  | nil => rfl
  | cons e added ih => exact ih

/- What a push leaves: one element more at most, and none that is new but a merged one. -/
structure Grown (O : UnionWeightOptions E) (e : E) (elems elems' : List E) : Prop where
  member : isMember e = true
  length_le : elems'.length ≤ elems.length + 1
  mem (x : E) : x ∈ elems' → x ∈ elems ∨ x = e ∨ ∃ old ∈ elems, x = O.merge old e

theorem pushBack_grown
    (h : (⟨some elems⟩ : UnionWeight E O).pushBack e true = ⟨some elems'⟩) :
    Grown O e elems elems' := by
  have hinsert : isMember e = true → Grown O e elems (UnionWeight.insert O elems e) := by
    intro hmember
    unfold UnionWeight.insert
    split
    · refine ⟨hmember, by simp, fun x hx => ?_⟩
      obtain ⟨i, hi, rfl⟩ := List.mem_iff_getElem.mp hx
      rw [List.length_modify] at hi
      rw [List.getElem_modify]
      split
      · exact Or.inr (Or.inr ⟨_, List.getElem_mem hi, rfl⟩)
      · exact Or.inl (List.getElem_mem hi)
    · refine ⟨hmember, ?_, fun x hx => ?_⟩
      · exact List.length_insertIdx_le_succ
      · rcases List.eq_or_mem_of_mem_insertIdx hx with rfl | hx
        · exact Or.inr (Or.inl rfl)
        · exact Or.inl hx
  have happend : isMember e = true → Grown O e elems (elems ++ [e]) := fun hmember =>
    ⟨hmember, by simp, fun x hx => (List.mem_append.mp hx).imp_right fun hx =>
      Or.inl (List.mem_singleton.mp hx)⟩
  unfold pushBack at h
  dsimp only at h
  split at h
  · cases h
  · next hmember =>
    have hmember : isMember e = true := by simpa using hmember
    split at h
    · cases h
      exact happend hmember
    · next back hback =>
      rw [if_pos rfl] at h
      split at h
      · cases h
        exact happend hmember
      · split at h
        · cases h
          have hmem : back ∈ elems := List.mem_of_getLast? hback
          refine ⟨hmember, by simp, fun x hx => ?_⟩
          rcases List.mem_append.mp hx with hx | hx
          · exact Or.inl (List.dropLast_subset _ hx)
          · exact Or.inr (Or.inr ⟨back, hmem, List.mem_singleton.mp hx⟩)
        · cases h
          exact hinsert hmember

/- A run of pushes to some set is a push to some set and a run. -/
theorem pushAll_cons
    (h : pushAll (⟨some elems⟩ : UnionWeight E O) (e :: added) true = ⟨some elems'⟩) :
    ∃ next, (⟨some elems⟩ : UnionWeight E O).pushBack e true = ⟨some next⟩ ∧
      pushAll (⟨some next⟩ : UnionWeight E O) added true = ⟨some elems'⟩ := by
  change pushAll ((⟨some elems⟩ : UnionWeight E O).pushBack e true) added true = _ at h
  cases hpush : (⟨some elems⟩ : UnionWeight E O).pushBack e true with
  | mk next =>
    rw [hpush] at h
    cases next with
    | none =>
      rw [pushAll_none] at h
      cases h
    | some next => exact ⟨next, rfl, h⟩

theorem pushAll_length (h : pushAll (⟨some elems⟩ : UnionWeight E O) added true = ⟨some elems'⟩) :
    elems'.length ≤ elems.length + added.length := by
  induction added generalizing elems with
  | nil =>
    cases h
    exact le_rfl
  | cons e added ih =>
    obtain ⟨next, hpush, hrun⟩ := pushAll_cons h
    have hstep := (pushBack_grown hpush).length_le
    have hrest := ih hrun
    rw [List.length_cons]
    omega

theorem pushAll_forall {P : E → Prop} (hmerge : ∀ e e', P e → P e' → P (O.merge e e'))
    (h : pushAll (⟨some elems⟩ : UnionWeight E O) added true = ⟨some elems'⟩)
    (helems : ∀ e ∈ elems, P e) (hadded : ∀ e ∈ added, P e) : ∀ e ∈ elems', P e := by
  induction added generalizing elems with
  | nil =>
    cases h
    exact helems
  | cons e added ih =>
    obtain ⟨next, hpush, hrun⟩ := pushAll_cons h
    have he := hadded e List.mem_cons_self
    refine ih hrun (fun x hx => ?_) fun x hx => hadded x (List.mem_cons_of_mem e hx)
    rcases (pushBack_grown hpush).mem x hx with hx | rfl | ⟨old, hold, rfl⟩
    · exact helems x hx
    · exact he
    · exact hmerge old e (helems old hold) he

/- As many elements as were pushed are the members that were pushed, in order. -/
theorem pushAll_sorted (hkey : ∀ e e', O.compare e e' = decide (key e < key e'))
    (hs : Sorted key elems)
    (h : pushAll (⟨some elems⟩ : UnionWeight E O) added true = ⟨some elems'⟩)
    (hlen : elems'.length = elems.length + added.length) :
    Sorted key elems' ∧ (∀ e ∈ added, isMember e = true) ∧
      ∀ e ∈ elems', e ∈ elems ∨ e ∈ added := by
  induction added generalizing elems with
  | nil =>
    cases h
    exact ⟨hs, by simp, fun e he => Or.inl he⟩
  | cons e added ih =>
    obtain ⟨next, hpush, hrun⟩ := pushAll_cons h
    have hmember := (pushBack_grown hpush).member
    obtain ⟨next', hpush', hpushed⟩ := pushBack_pushed hkey hs hmember true
    obtain rfl : next = next' :=
      Option.some.inj (congrArg UnionWeight.elements (hpush.symm.trans hpush'))
    have hrest := pushAll_length hrun
    rw [List.length_cons] at hlen
    cases hpushed with
    | added pre post hpre hpost =>
      obtain ⟨hsorted, hmembers, hmem⟩ :=
        ih (sorted_added hs hpre hpost) hrun (by simp at hlen ⊢; omega)
      refine ⟨hsorted, by simpa using ⟨hmember, hmembers⟩, fun x hx => ?_⟩
      rcases hmem x hx with hx | hx
      · simp only [List.mem_append, List.mem_cons] at hx ⊢
        tauto
      · exact Or.inr (List.mem_cons_of_mem e hx)
    | merged pre old post _ =>
      simp only [List.length_append, List.length_cons] at hlen hrest
      omega

/- The texts of no set and of the empty one. -/
def setNames : List (List Char) := ["EmptySet".toList, "BadSet".toList]

theorem empty_mem : "EmptySet".toList ∈ setNames := List.mem_cons_self

theorem bad_mem : "BadSet".toList ∈ setNames := List.mem_cons_of_mem _ List.mem_cons_self

theorem union_ok (h : trim s ∉ setNames) : UnionWeight.fromStr read s = .ok w ↔
    ∃ parts values, splitWeight s = .ok parts ∧
      List.Forall₂ (fun p a => read p = .ok a) parts values ∧ pushAll emptySet values true = w := by
  obtain ⟨hempty, hbad⟩ : trim s ≠ "EmptySet".toList ∧ trim s ≠ "BadSet".toList := by
    simpa [setNames] using h
  unfold UnionWeight.fromStr
  dsimp only
  rw [if_neg hempty, if_neg hbad, splitWeight_trim]
  refine bind_ok.trans (exists_congr fun parts => ?_)
  rw [readElements_ok]
  exact exists_and_left.symm

theorem union_trim : (UnionWeight.fromStr read (trim s) : Except ParseError (UnionWeight E O)) =
    UnionWeight.fromStr read s := by
  unfold UnionWeight.fromStr
  rw [trim_trim]

theorem union_name (h : trim s ∈ setNames) (hok : UnionWeight.fromStr read s = .ok w) :
    w = emptySet ∨ w = newBad := by
  unfold UnionWeight.fromStr at hok
  dsimp only at hok
  split at hok
  · exact Or.inl (Except.ok.inj hok).symm
  · next hempty =>
    have hbad : trim s = "BadSet".toList :=
      List.mem_singleton.mp ((List.mem_cons.mp h).resolve_left hempty)
    rw [if_pos hbad] at hok
    exact Or.inr (Except.ok.inj hok).symm

/- An order of the elements by a key, merging and reading that keep their texts apart. -/
structure Orderly (O : UnionWeightOptions E) (write : E → List Char)
    (read : List Char → Except ParseError E) : Prop where
  keyed : ∃ (K : Type) (_ : LinearOrder K) (key : E → K),
    ∀ e e', O.compare e e' = decide (key e < key e')
  merge (e e' : E) : ',' ∉ write e → ',' ∉ write e' → ',' ∉ write (O.merge e e')
  stable (e e' : E) : Reads read (write e) e' → read (trim (write e')) = .ok e'

/- The elements are members in order, each with a text that is one part, and not that of a set. -/
structure Listed (O : UnionWeightOptions E) (write : E → List Char) (legible : E → Prop)
    (elems : List E) : Prop where
  chain : elems.IsChain fun e e' => O.compare e e' = true
  member (e : E) : e ∈ elems → isMember e = true
  part (e : E) : e ∈ elems → ',' ∉ write e ∧ legible e
  name (e : E) : elems = [e] → trim (write e) ∉ setNames

theorem union_text_cons (e : E) (elems : List E) (w : UnionWeight E O)
    (hw : w.elements = some (e :: elems)) :
    UnionWeight.text write w = writeAll ',' ((e :: elems).map write) := by
  unfold UnionWeight.text
  rw [hw]

theorem trim_names {s : List Char} (h : s ∈ setNames) : Plain s ∧ trim s = s := by
  have hchars : ∀ s ∈ setNames, ∀ c ∈ s, 45 ≤ c.toNat ∧ c.toNat < 128 := by simp [setNames]
  exact ⟨fun c hc => (char_of_range (hchars s h c hc)).1,
    trim_of_forall fun c hc => (char_of_range (hchars s h c hc)).2⟩

theorem union_parts (h : ∀ e, ∃ ps, Parts (write e) ps) (w : UnionWeight E O) :
    ∃ ps, Parts (UnionWeight.text write w) ps := by
  obtain ⟨elements⟩ := w
  match elements with
  | none => exact ⟨_, .single (trim_names bad_mem).1⟩
  | some [] => exact ⟨_, .single (trim_names empty_mem).1⟩
  | some (e :: elems) =>
    refine Parts.all fun s hs => ?_
    obtain ⟨e, -, rfl⟩ := List.mem_map.mp hs
    exact h e

theorem union_notMem (h : Fitting write read) (hs : Plain s)
    (hok : UnionWeight.fromStr read s = .ok w) : ',' ∉ UnionWeight.text write w := by
  have hname : ∀ {s}, s ∈ setNames → ',' ∉ s := fun hs => Plain.notMem (trim_names hs).1
  by_cases hset : trim s ∈ setNames
  · rcases union_name hset hok with rfl | rfl
    · exact hname empty_mem
    · exact hname bad_mem
  · obtain ⟨parts, values, hsplit, hvalues, hpush⟩ := (union_ok hset).mp hok
    rw [splitWeight_parts (.single hs)] at hsplit
    cases hsplit
    cases hvalues with
    | @cons _ v _ rest hv hnil =>
      cases hnil
      have hone : pushAll (emptySet : UnionWeight E O) [v] true =
          if isMember v = true then ⟨some [v]⟩ else newBad := by
        cases hmember : isMember v <;> simp [pushAll, pushBack, emptySet, hmember]
      rw [hone] at hpush
      split at hpush
      · subst hpush
        have hv := h.notMem (Plain.trim hs) hv
        simpa [UnionWeight.text] using hv
      · subst hpush
        exact hname bad_mem

/- The parts of the text are the texts of the elements, where none has a comma. -/
theorem union_split (h : ∀ e, ∃ ps, Parts (write e) ps) (hne : elems ≠ [])
    (hcomma : ∀ e ∈ elems, ',' ∉ write e) :
    splitWeight (writeAll ',' (elems.map write)) = .ok ((elems.map write).map trim) := by
  refine splitWeight_parts (Parts.of_notMem (fun hnil => hne (List.map_eq_nil_iff.mp hnil)) ?_ ?_)
  · exact List.forall_mem_map.mpr fun e _ => h e
  · exact List.forall_mem_map.mpr hcomma

/- More than one part is no name of a set. -/
theorem union_text_name (h : trim (writeAll ',' (elems.map write)) ∈ setNames)
    (hne : elems ≠ []) : ∃ e, elems = [e] ∧ trim (write e) ∈ setNames := by
  match elems with
  | [] => exact absurd rfl hne
  | [e] => exact ⟨e, rfl, by simpa using h⟩
  | e :: e' :: elems =>
    have hcomma := Plain.notMem (trim_names h).1
    rw [List.map_cons, List.map_cons, writeAll_cons_cons] at hcomma
    unfold trim at hcomma
    rw [trimStart_join rfl, trimEnd_join rfl] at hcomma
    exact absurd (by simp) hcomma

theorem union_written (h : Fitting write read) {legible : E → Prop}
    (hread : ∀ e, legible e → read (trim (write e)) = .ok e)
    (hw : ∀ elems, w.elements = some elems → Listed O write legible elems) :
    UnionWeight.fromStr read (UnionWeight.text write w) = .ok w := by
  obtain ⟨elements⟩ := w
  match elements with
  | none => rfl
  | some [] => rfl
  | some (e :: elems) =>
    obtain ⟨hchain, hmember, hpart, hname⟩ := hw _ rfl
    rw [union_text_cons e elems _ rfl, union_ok]
    · refine ⟨_, e :: elems, union_split h.parts (List.cons_ne_nil _ _) fun e he => (hpart e he).1,
        ?_, pushAll_chain hmember hchain⟩
      rw [List.map_map, List.forall₂_map_left_iff, List.forall₂_same]
      exact fun e he => hread e (hpart e he).2
    · intro hset
      obtain ⟨e', heq, hset⟩ := union_text_name hset (List.cons_ne_nil _ _)
      exact hname e' heq hset

theorem union_listed (h : Fitting write read) {legible : E → Prop}
    (hread : ∀ e, read (trim (write e)) = .ok e → legible e) (hO : Orderly O write read)
    (hok : UnionWeight.fromStr read (UnionWeight.text write w) = .ok w)
    (hw : w.elements = some elems) : Listed O write legible elems := by
  obtain ⟨K, hK, key, hkey⟩ := hO.keyed
  cases elems with
  | nil => exact ⟨.nil, by simp, by simp, fun e he => absurd he.symm (List.cons_ne_nil e [])⟩
  | cons e elems =>
    have hne : e :: elems ≠ [] := List.cons_ne_nil e elems
    have hset : trim (UnionWeight.text write w) ∉ setNames := by
      intro hset
      rcases union_name hset hok with rfl | rfl <;> cases hw
    obtain ⟨parts, values, hsplit, hvalues, hpush⟩ := (union_ok hset).mp hok
    obtain rfl : w = ⟨some (e :: elems)⟩ := UnionWeight.ext hw
    rw [union_text_cons e elems _ rfl] at hsplit hset
    obtain ⟨ps, hps⟩ : ∃ ps, Parts (writeAll ',' ((e :: elems).map write)) ps :=
      union_parts h.parts (⟨some (e :: elems)⟩ : UnionWeight E O)
    obtain rfl := Except.ok.inj ((splitWeight_parts hps).symm.trans hsplit)
    -- what was read has no comma in its text, and neither has what is made of it
    have hcomma : ∀ x ∈ e :: elems, ',' ∉ write x := by
      refine pushAll_forall hO.merge hpush (by simp) fun v hv => ?_
      obtain ⟨p, hp, hpv⟩ := forall₂_mem_right hvalues hv
      exact h.notMem (plain_of_mem hps hp) hpv
    rw [Except.ok.inj (hsplit.symm.trans (union_split h.parts hne hcomma)),
      List.map_map] at hvalues
    have hlen : (e :: elems).length = values.length := by
      rw [← hvalues.length_eq, List.length_map]
    obtain ⟨hsorted, hmember, hmem⟩ :=
      pushAll_sorted hkey List.Pairwise.nil hpush (by simpa using hlen)
    have hpoint := List.forall₂_map_left_iff.mp hvalues
    -- an element is read somewhere, and reads back from its own text
    have hback : ∀ x ∈ e :: elems, read (trim (write x)) = .ok x := by
      intro x hx
      obtain ⟨y, hy, hyx⟩ := forall₂_mem_right hpoint ((hmem x hx).resolve_left (by simp))
      exact hO.stable y x ⟨hcomma y hy, hyx⟩
    have hsame : e :: elems = values := by
      have heq := ((List.forall₂_and_left _ _).mpr ⟨hback, hpoint⟩).imp
        fun x y hxy => Except.ok.inj (hxy.1.symm.trans hxy.2)
      rwa [List.forall₂_eq_eq_eq] at heq
    refine ⟨?_, fun x hx => hmember x (hsame ▸ hx), fun x hx => ⟨hcomma x hx, hread x (hback x hx)⟩,
      fun x hx hname => ?_⟩
    · exact (hsorted.imp fun {x y} hxy => (hkey x y).trans (decide_eq_true hxy)).isChain
    · rw [hx, List.map_singleton, writeAll_singleton] at hset
      exact hset hname

end Unions

section Nestings

variable {W W₁ W₂ K : Type} {s : List Char}

/- What reads back from its text without the white space around it. -/
def Legible : {W : Type} → Nested W → W → Prop
  | _, .leaf own, w => own.fromStr (trim (own.text w)) = .ok w
  | _, .pair first second, w => (',' ∉ first.text w.value1 ∧ Legible first w.value1) ∧
      ',' ∉ second.text w.value2 ∧ Legible second w.value2
  | _, .product first second, w => (',' ∉ first.text w.value1 ∧ Legible first w.value1) ∧
      ',' ∉ second.text w.value2 ∧ Legible second w.value2
  | _, .lexicographic first second, w => (',' ∉ first.text w.value1 ∧ Legible first w.value1) ∧
      ',' ∉ second.text w.value2 ∧ Legible second w.value2
  | _, .expectation inner, w => (',' ∉ inner.text w.value1 ∧ Legible inner w.value1) ∧
      ',' ∉ inner.text w.value2 ∧ Legible inner w.value2
  | _, .power n inner, w =>
    n ≠ 0 ∧ ∀ i, ',' ∉ inner.text (w.elements i) ∧ Legible inner (w.elements i)
  | _, @Nested.sparsePower _ _ _ _ key inner, w =>
    (',' ∉ inner.text w.inner.default ∧ Legible inner w.inner.default) ∧
      ∀ e ∈ w.inner.rest, e.2 ≠ w.inner.default ∧ key.fromStr (trim (key.text e.1)) = .ok e.1 ∧
        ',' ∉ inner.text e.2 ∧ Legible inner e.2
  | _, .gallic _ _ inner, w => ',' ∉ inner.text w.product.value2 ∧ Legible inner w.product.value2
  | _, @Nested.union _ _ O inner, w =>
    ∀ elems, w.elements = some elems → Listed O inner.text (Legible inner) elems

/- The sets in it are ordered by a key, and merging and reading keep their texts apart. -/
def Settled : {W : Type} → Nested W → Prop
  | _, .leaf _ => True
  | _, .pair first second => Settled first ∧ Settled second
  | _, .product first second => Settled first ∧ Settled second
  | _, .lexicographic first second => Settled first ∧ Settled second
  | _, .expectation inner => Settled inner
  | _, .power _ inner => Settled inner
  | _, @Nested.sparsePower _ _ _ _ _ inner => Settled inner
  | _, .gallic _ _ inner => Settled inner
  | _, @Nested.union _ _ O inner => Settled inner ∧ Orderly O inner.text inner.fromStr

theorem parts_pair {s₁ s₂ : List Char} (h₁ : ∃ ps, Parts s₁ ps) (h₂ : ∃ ps, Parts s₂ ps) :
    ∃ ps, Parts (writePair s₁ s₂) ps := by
  obtain ⟨ps₁, hps₁⟩ := h₁
  obtain ⟨ps₂, hps₂⟩ := h₂
  exact ⟨ps₁ ++ ps₂, hps₁.pair hps₂⟩

section Components

variable {read₁ : List Char → Except ParseError W₁} {read₂ : List Char → Except ParseError W₂}
  {text : W → List Char} {read : List Char → Except ParseError W} {f : W₁ × W₂ → W}

theorem map_plain (hs : Plain s) (w : W) : (readPair read₁ read₂ s).map f ≠ .ok w := by
  intro h
  obtain ⟨⟨a₁, a₂⟩, hread, -⟩ := map_eq_ok.mp h
  exact readPair_plain hs hread

theorem map_pair {w : W} {a₁ : W₁} {a₂ : W₂} {s₁ s₂ : List Char} (hf : ∀ p, f p = w ↔ p = (a₁, a₂))
    (h₁ : ∃ ps, Parts s₁ ps) (h₂ : ∃ ps, Parts s₂ ps) :
    (readPair read₁ read₂ (trim (writePair s₁ s₂))).map f = .ok w ↔
      Reads read₁ s₁ a₁ ∧ Reads read₂ s₂ a₂ := by
  rw [readPair_trim, map_eq_ok, ← readPair_written h₁ h₂]
  simp only [hf, exists_eq_right]

theorem product_read {w : ProductWeight W₁ W₂} {text₁ : W₁ → List Char} {text₂ : W₂ → List Char}
    (h₁ : ∃ ps, Parts (text₁ w.value1) ps) (h₂ : ∃ ps, Parts (text₂ w.value2) ps)
    (read₁ : List Char → Except ParseError W₁) (read₂ : List Char → Except ParseError W₂) :
    ProductWeight.fromStr read₁ read₂ (trim (ProductWeight.text text₁ text₂ w)) = .ok w ↔
      Reads read₁ (text₁ w.value1) w.value1 ∧ Reads read₂ (text₂ w.value2) w.value2 :=
  (map_pair (fun p => by rw [ProductWeight.ext_iff, Prod.ext_iff]) h₁ h₂).trans
    (and_congr reads_failing reads_failing)

theorem power_fitting {n : ℕ} (h : Fitting text read) :
    Fitting (PowerWeight.text text (n := n)) (PowerWeight.fromStr read) := by
  refine ⟨fun w => ?_, fun {s w} hs hread => ?_⟩
  · rw [power_text]
    refine Parts.all fun s hs => ?_
    obtain ⟨a, -, rfl⟩ := List.mem_map.mp hs
    exact h.parts a
  · obtain ⟨parts, hsplit, hall⟩ := power_ok.mp hread
    rw [splitWeight_parts (.single hs)] at hsplit
    cases hsplit
    rw [power_text]
    generalize List.ofFn w.elements = values at hall
    obtain ⟨v, _, hv, hnil, rfl⟩ := List.forall₂_cons_left_iff.mp hall
    cases hnil
    rw [List.map_singleton, writeAll_singleton]
    exact h.notMem (Plain.trim hs) hv

variable [DecidableEq W] [LinearOrder K]

theorem sparse_fitting (key : Leaf K) {parseDefault : List Char → Except ParseError W}
    (hdefault : Fitting text parseDefault) :
    Fitting (SparseTupleWeight.text text key.text)
      (SparseTupleWeight.readParts parseDefault read key.fromStr) := by
  refine ⟨fun t => ?_, fun {s t} hs hread => ?_⟩
  · rw [sparse_text]
    exact Parts.all (sparse_parts key hdefault.parts t)
  · obtain ⟨first, parts, entries, hsplit, hfirst, hpairs, hrest⟩ := readParts_iff.mp hread
    rw [splitWeight_parts (.single hs)] at hsplit
    cases hsplit
    cases hpairs
    rw [sparse_text, hrest, List.filter_nil]
    change ',' ∉ writeAll ',' [text t.default]
    rw [writeAll_singleton]
    exact hdefault.notMem (Plain.trim hs) hfirst

end Components

theorem fitting_failing {text : W → List Char} {read : List Char → Except ParseError W}
    (h : Fitting text read) (message : String) : Fitting text (failing message read) :=
  ⟨h.parts, fun hs hread => h.notMem hs (failing_iff.mp hread)⟩

def failingKey (key : Leaf K) : Leaf K where
  text := key.text
  fromStr := failing "key" key.fromStr
  reads k := failing_iff.mpr (key.reads k)
  plain := key.plain

theorem fitting (t : Nested W) : Fitting t.text t.fromStr := by
  induction t with
  | leaf own => exact ⟨fun a => ⟨_, .single (own.plain a)⟩, fun _ _ => Plain.notMem (own.plain _)⟩
  | pair first second ih₁ ih₂ =>
    exact ⟨fun w => parts_pair (ih₁.parts _) (ih₂.parts _), fun hs h => absurd h (map_plain hs _)⟩
  | product first second ih₁ ih₂ =>
    exact ⟨fun w => parts_pair (ih₁.parts _) (ih₂.parts _), fun hs h => absurd h (map_plain hs _)⟩
  | lexicographic first second ih₁ ih₂ =>
    exact ⟨fun w => parts_pair (ih₁.parts _) (ih₂.parts _), fun hs h => absurd h (map_plain hs _)⟩
  | expectation inner ih =>
    exact ⟨fun w => parts_pair (ih.parts _) (ih.parts _), fun hs h => absurd h (map_plain hs _)⟩
  | power n inner ih => exact power_fitting ih
  | @sparsePower W K _ _ key inner ih =>
    have h : Fitting (SparseTupleWeight.text inner.text key.text)
        (SparsePowerWeight.fromStr inner.fromStr key.fromStr) :=
      sparse_fitting (failingKey key) (fitting_failing ih "default weight")
    refine ⟨fun w => h.parts w.inner, fun {s w} hs hread => ?_⟩
    obtain ⟨t, ht, rfl⟩ := map_eq_ok.mp hread
    exact h.notMem hs ht
  | gallic G label inner ih =>
    refine ⟨fun w => parts_pair ⟨_, .single (string_reads label w.product.value1).1⟩ (ih.parts _),
      fun {s w} hs h => ?_⟩
    obtain ⟨p, hp, -⟩ := map_eq_ok.mp h
    exact absurd hp (map_plain hs p)
  | union O inner ih => exact ⟨union_parts ih.parts, union_notMem ih⟩

/- Only a leaf sees the white space around its text. -/
theorem fromStr_trim (t : Nested W) (s : List Char) :
    (∃ own, t = .leaf own) ∨ t.fromStr (trim s) = t.fromStr s := by
  cases t with
  | leaf own => exact Or.inl ⟨own, rfl⟩
  | pair first second => exact Or.inr (congrArg (Except.map _) readPair_trim)
  | product first second => exact Or.inr (congrArg (Except.map _) readPair_trim)
  | lexicographic first second => exact Or.inr (congrArg (Except.map _) readPair_trim)
  | expectation inner => exact Or.inr (congrArg (Except.map _) readPair_trim)
  | power n inner => exact Or.inr power_trim
  | sparsePower key inner => exact Or.inr (congrArg (Except.map _) readParts_trim)
  | gallic G label inner =>
    exact Or.inr (congrArg (Except.map _) (congrArg (Except.map _) readPair_trim))
  | union O inner => exact Or.inr union_trim

/- What is legible reads back, and only that where the sets are settled. -/
structure Faithful (t : Nested W) : Prop where
  reads (w : W) : Legible t w → t.fromStr (trim (t.text w)) = .ok w
  legible (w : W) : Settled t → t.fromStr (trim (t.text w)) = .ok w → Legible t w

theorem Faithful.of_pair {t : Nested W} {t₁ : Nested W₁} {t₂ : Nested W₂} {v₁ : W → W₁}
    {v₂ : W → W₂}
    (hread : ∀ w, t.fromStr (trim (t.text w)) = .ok w ↔
      Reads t₁.fromStr (t₁.text (v₁ w)) (v₁ w) ∧ Reads t₂.fromStr (t₂.text (v₂ w)) (v₂ w))
    (hlegible : ∀ w, Legible t w ↔ (',' ∉ t₁.text (v₁ w) ∧ Legible t₁ (v₁ w)) ∧
      ',' ∉ t₂.text (v₂ w) ∧ Legible t₂ (v₂ w))
    (hsettled : Settled t → Settled t₁ ∧ Settled t₂) (h₁ : Faithful t₁) (h₂ : Faithful t₂) :
    Faithful t := by
  constructor
  · intro w hw
    rw [hlegible] at hw
    exact (hread w).mpr (hw.imp (And.imp_right (h₁.reads _)) (And.imp_right (h₂.reads _)))
  · intro w hs hw
    rw [hread] at hw
    obtain ⟨hs₁, hs₂⟩ := hsettled hs
    exact (hlegible w).mpr
      (hw.imp (And.imp_right (h₁.legible _ hs₁)) (And.imp_right (h₂.legible _ hs₂)))

theorem power_read (n : ℕ) (inner : Nested W) (w : PowerWeight W n) :
    (Nested.power n inner).fromStr (trim ((Nested.power n inner).text w)) = .ok w ↔
      n ≠ 0 ∧ ∀ i, Reads inner.fromStr (inner.text (w.elements i)) (w.elements i) := by
  rw [← power_written (fitting inner)]
  exact Eq.congr_left power_trim

theorem sparse_read [DecidableEq W] [LinearOrder K] (key : Leaf K) (inner : Nested W)
    (w : SparsePowerWeight W K) :
    (Nested.sparsePower key inner).fromStr (trim ((Nested.sparsePower key inner).text w)) = .ok w ↔
      Reads inner.fromStr (inner.text w.inner.default) w.inner.default ∧
        ∀ e ∈ w.inner.rest, e.2 ≠ w.inner.default ∧ key.fromStr (trim (key.text e.1)) = .ok e.1 ∧
          Reads inner.fromStr (inner.text e.2) e.2 := by
  have hwritten := sparse_written (failingKey key)
    (fitting_failing (fitting inner) "default weight") (fitting_failing (fitting inner) "weight")
    w.inner
  simp only [reads_failing] at hwritten
  have hkey : ∀ k : K, (failingKey key).fromStr (trim ((failingKey key).text k)) = .ok k ↔
      key.fromStr (trim (key.text k)) = .ok k := fun k => failing_iff
  simp only [hkey] at hwritten
  rw [← hwritten]
  change (SparsePowerWeight.fromStr inner.fromStr key.fromStr _).map _ = _ ↔ _
  rw [map_eq_ok]
  unfold SparsePowerWeight.fromStr
  rw [readParts_trim]
  constructor
  · rintro ⟨t, ht, rfl⟩
    exact ht
  · exact fun h => ⟨w.inner, h, rfl⟩

theorem gallic_read {L : Type} {G : GallicType} (label : LabelText L) (inner : Nested W)
    (w : GallicWeight L W G) :
    (Nested.gallic G label inner).fromStr (trim ((Nested.gallic G label inner).text w)) = .ok w ↔
      Reads inner.fromStr (inner.text w.product.value2) w.product.value2 := by
  obtain ⟨hplain, hstring⟩ := string_reads label w.product.value1
  have hpair := product_read ⟨_, .single hplain⟩ ((fitting inner).parts w.product.value2)
    (StringWeight.fromStr label.fromStr) inner.fromStr
  rw [and_iff_right hstring] at hpair
  rw [← hpair]
  refine map_eq_ok.trans ⟨?_, fun h => ⟨w.product, h, rfl⟩⟩
  rintro ⟨product, hproduct, rfl⟩
  exact hproduct

theorem faithful (t : Nested W) : Faithful t := by
  induction t with
  | leaf own => exact ⟨fun _ h => h, fun _ _ h => h⟩
  | pair first second ih₁ ih₂ =>
    refine .of_pair (fun w => ?_) (fun _ => Iff.rfl) (fun h => h) ih₁ ih₂
    exact map_pair (fun p => by rw [PairWeight.ext_iff, Prod.ext_iff]) ((fitting first).parts _)
      ((fitting second).parts _)
  | product first second ih₁ ih₂ =>
    refine .of_pair (fun w => ?_) (fun _ => Iff.rfl) (fun h => h) ih₁ ih₂
    exact product_read ((fitting first).parts _) ((fitting second).parts _) _ _
  | lexicographic first second ih₁ ih₂ =>
    refine .of_pair (fun w => ?_) (fun _ => Iff.rfl) (fun h => h) ih₁ ih₂
    exact (map_pair (fun p => by rw [LexicographicWeight.ext_iff, Prod.ext_iff])
      ((fitting first).parts _) ((fitting second).parts _)).trans
        (and_congr reads_failing reads_failing)
  | expectation inner ih =>
    refine .of_pair (fun w => ?_) (fun _ => Iff.rfl) (fun h => ⟨h, h⟩) ih ih
    exact (map_pair (fun p => by rw [ExpectationWeight.ext_iff, Prod.ext_iff])
      ((fitting inner).parts _) ((fitting inner).parts _)).trans
        (and_congr reads_failing reads_failing)
  | power n inner ih =>
    constructor
    · exact fun w hw => (power_read n inner w).mpr
        ⟨hw.1, fun i => (hw.2 i).imp_right (ih.reads _)⟩
    · intro w hs hw
      obtain ⟨hn, hreads⟩ := (power_read n inner w).mp hw
      exact ⟨hn, fun i => (hreads i).imp_right (ih.legible _ hs)⟩
  | sparsePower key inner ih =>
    constructor
    · rintro w ⟨hdefault, hentries⟩
      exact (sparse_read key inner w).mpr ⟨hdefault.imp_right (ih.reads _), fun e he =>
        (hentries e he).imp_right (And.imp_right (And.imp_right (ih.reads _)))⟩
    · intro w hs hw
      obtain ⟨hdefault, hentries⟩ := (sparse_read key inner w).mp hw
      exact ⟨hdefault.imp_right (ih.legible _ hs), fun e he =>
        (hentries e he).imp_right (And.imp_right (And.imp_right (ih.legible _ hs)))⟩
  | gallic G label inner ih =>
    constructor
    · exact fun w hw => (gallic_read label inner w).mpr (hw.imp_right (ih.reads _))
    · exact fun w hs hw => ((gallic_read label inner w).mp hw).imp_right (ih.legible _ hs)
  | union O inner ih =>
    have htrim : ∀ w, (Nested.union O inner).fromStr (trim ((Nested.union O inner).text w)) =
        UnionWeight.fromStr inner.fromStr (UnionWeight.text inner.text w) := fun w => union_trim
    constructor
    · exact fun w hw => (htrim w).trans (union_written (fitting inner) ih.reads hw)
    · rintro w ⟨hs, hO⟩ hw elems helems
      exact union_listed (fitting inner) (fun e => ih.legible e hs) hO
        ((htrim w).symm.trans hw) helems

/- What is read back of the printed text is the weight where, at every level, no component has a
comma in its text. -/
theorem text_exact (t : Nested W) :
    (∀ w, (∃ own, t = .leaf own) ∨ Legible t w → t.fromStr (t.text w) = .ok w) ∧
      (Settled t → ∀ w, t.fromStr (t.text w) = .ok w ↔ (∃ own, t = .leaf own) ∨ Legible t w) := by
  have hleaf : ∀ w, (∃ own, t = .leaf own) → t.fromStr (t.text w) = .ok w := by
    rintro w ⟨own, rfl⟩
    exact own.reads w
  have hsound : ∀ w, (∃ own, t = .leaf own) ∨ Legible t w → t.fromStr (t.text w) = .ok w := by
    intro w hw
    by_cases hown : ∃ own, t = .leaf own
    · exact hleaf w hown
    · rw [← (fromStr_trim t (t.text w)).resolve_left hown]
      exact (faithful t).reads w (hw.resolve_left hown)
  refine ⟨hsound, fun hs w => ⟨fun h => or_iff_not_imp_left.mpr fun hown => ?_, hsound w⟩⟩
  rw [← (fromStr_trim t (t.text w)).resolve_left hown] at h
  exact (faithful t).legible w hs h

/- Weights of one digit. -/
def digit : Leaf Bool where
  text b := [if b then '1' else '0']
  fromStr s :=
    if s = ['1'] then .ok true else if s = ['0'] then .ok false else .error .parseInt
  reads := by decide
  plain b := by
    cases b <;> simp [Plain]

instance digitOps : WeightOps Bool := ⟨false, true, false, or, and, fun _ => true, 0⟩

def digitOptions : UnionWeightOptions Bool := ⟨fun b b' => b < b', fun b _ => b, id⟩

/- A power of one digit before a set of digits. -/
def digits : Nested (LexicographicWeight (PowerWeight Bool 1) (UnionWeight Bool digitOptions)) :=
  .lexicographic (.power 1 (.leaf digit)) (.union digitOptions (.leaf digit))

theorem digit_trim (b : Bool) : digit.fromStr (trim (digit.text b)) = .ok b := by
  cases b <;> rfl

theorem settled_digits : Settled digits := by
  refine ⟨trivial, trivial, ⟨Bool, inferInstance, id, fun _ _ => rfl⟩, fun b _ h _ => h, ?_⟩
  exact fun _ b _ => digit_trim b

/- A set of one digit is one part, a set of two digits is two. -/
theorem text_exact_digits :
    digits.fromStr (digits.text ⟨⟨fun _ => true⟩, ⟨some [false]⟩⟩) =
        .ok ⟨⟨fun _ => true⟩, ⟨some [false]⟩⟩ ∧
      digits.fromStr (digits.text ⟨⟨fun _ => true⟩, ⟨some [false, true]⟩⟩) ≠
        .ok ⟨⟨fun _ => true⟩, ⟨some [false, true]⟩⟩ := by
  constructor
  · refine (text_exact digits).1 _ (Or.inr ⟨⟨by decide, Nat.one_ne_zero,
      fun _ => ⟨Plain.notMem (digit.plain true), rfl⟩⟩, by decide, fun elems helems => ?_⟩)
    cases helems
    refine ⟨.singleton _, fun _ _ => rfl,
      fun b _ => ⟨Plain.notMem (digit.plain b), digit_trim b⟩, fun b hb => ?_⟩
    cases hb
    decide
  · intro h
    rcases ((text_exact digits).2 settled_digits _).mp h with ⟨own, hown⟩ | ⟨-, hcomma, -⟩
    · cases hown
    · exact absurd hcomma (by decide)

def pairs : Nested (PairWeight (PairWeight Bool Bool) (PairWeight Bool Bool)) :=
  .pair (.pair (.leaf digit) (.leaf digit)) (.pair (.leaf digit) (.leaf digit))

/- A pair of pairs is printed without parentheses, and its text has four parts. -/
theorem pairs_lost :
    pairs.text ⟨⟨true, false⟩, ⟨false, true⟩⟩ = ['1', ',', '0', ',', '0', ',', '1'] ∧
      pairs.fromStr (pairs.text ⟨⟨true, false⟩, ⟨false, true⟩⟩) =
        .error (.invalidElementCount 2 4) := by
  constructor
  · rfl
  · rfl

end Nestings

end Sicada.WeightTextExact
