import Mathlib

namespace Cursor

/- What is set to a place, asked there for the items under a key, and hands them out one by one;
`share` is what it sees of a copy that is set to a place. A `none` is a panic. -/
structure Handle (S L A M : Type*) where
  setState : S → M → M
  share : S → M → M
  find : L → M → Option (Bool × M)
  done : M → Option Bool
  value : M → Option A
  next : M → M
  priority : S → M → ℤ

variable {S L A M : Type*}

variable {x : M}

section Handing

variable (done : M → Option Bool) (value : M → Option A) (next : M → Option M)

/- What is handed out until it is done. -/
inductive Yields : M → List A → Prop
  | nil {x : M} (hdone : done x = some true) : Yields x []
  | cons {x y : M} {a : A} {rest : List A} (hdone : done x = some false) (hvalue : value x = some a)
      (hnext : next x = some y) (hrest : Yields y rest) : Yields x (a :: rest)

variable {done value next}

theorem Yields.unique {xs ys : List A} (hx : Yields done value next x xs)
    (hy : Yields done value next x ys) : xs = ys := by
  induction hx generalizing ys with
  | nil hdone =>
    cases hy with
    | nil => rfl
    | cons hdone' => simp [hdone] at hdone'
  | cons hdone hvalue hnext hrest ih =>
    cases hy with
    | nil hdone' => simp [hdone] at hdone'
    | cons hdone' hvalue' hnext' hrest' =>
      rw [hvalue] at hvalue'
      rw [hnext] at hnext'
      cases hnext'
      rw [Option.some.inj hvalue', ih hrest']

end Handing

section Laws

/- At a place the right items are found, and what is found is handed out in order. -/
structure Lawful (h : Handle S L A M) (answer : S → L → List A) (Valid : M → Prop)
    (At : M → S → Prop) (Left : M → S → List A → Prop) : Prop where
  setState : ∀ x s, Valid x → At (h.setState s x) s
  stay : ∀ x s rest, Left x s rest → Left (h.setState s x) s rest
  shareValid : ∀ x s, Valid x → Valid (h.share s x)
  shareAt : ∀ x s t, At x t → At (h.share s x) t
  shareLeft : ∀ x s t rest, Left x t rest → Left (h.share s x) t rest
  find : ∀ x s l, At x s →
    ∃ x', h.find l x = some (!(answer s l).isEmpty, x') ∧ Left x' s (answer s l)
  findValid : ∀ x l b x', Valid x → h.find l x = some (b, x') → Valid x'
  done : ∀ x s rest, Left x s rest → h.done x = some rest.isEmpty
  value : ∀ x s a rest, Left x s (a :: rest) → h.value x = some a
  next : ∀ x s rest, Left x s rest → Left (h.next x) s rest.tail
  nextAt : ∀ x s, At x s → At (h.next x) s
  nextValid : ∀ x, Valid x → Valid (h.next x)
  left : ∀ x s rest, Left x s rest → At x s
  valid : ∀ x s, At x s → Valid x

variable {h : Handle S L A M} {answer : S → L → List A} {Valid : M → Prop} {At : M → S → Prop}
  {Left : M → S → List A → Prop}

theorem Lawful.setValid (hl : Lawful h answer Valid At Left) (s : S) (hx : Valid x) :
    Valid (h.setState s x) := hl.valid _ s (hl.setState x s hx)

/- A wrapper that hands out what a handle does, changed by `f`, and then the items of `tail`. -/
theorem Lawful.yields_append (hl : Lawful h answer Valid At Left) {N B : Type*} (inner : N → M)
    {f : A → B} {done : N → Option Bool} {value : N → Option B} {next : N → Option N} {s : S}
    {tail : List B} (Inside : N → Prop)
    (hdone : ∀ n a rest, Inside n → Left (inner n) s (a :: rest) → done n = some false)
    (hvalue : ∀ n, Inside n → value n = (h.value (inner n)).map f)
    (hnext : ∀ n a b rest, Inside n → Left (inner n) s (a :: b :: rest) →
      ∃ n', next n = some n' ∧ Inside n' ∧ inner n' = h.next (inner n))
    (hlast : ∀ n a, Inside n → Left (inner n) s [a] →
      ∃ n', next n = some n' ∧ Yields done value next n' tail) {n : N} {a : A} {rest : List A}
    (hn : Inside n) (hleft : Left (inner n) s (a :: rest)) :
    Yields done value next n ((a :: rest).map f ++ tail) := by
  induction rest generalizing n a with
  | nil =>
    obtain ⟨n', hn', htail⟩ := hlast n a hn hleft
    refine .cons (hdone n a [] hn hleft) ?_ hn' htail
    rw [hvalue n hn, hl.value _ s a [] hleft]
    rfl
  | cons b rest ih =>
    obtain ⟨n', hn', hinside, heq⟩ := hnext n a b rest hn hleft
    have hleft' := hl.next _ s _ hleft
    rw [← heq] at hleft'
    refine .cons (hdone n a _ hn hleft) ?_ hn' (ih hinside hleft')
    rw [hvalue n hn, hl.value _ s a _ hleft]
    rfl

/- A wrapper that is done when the handle is. -/
theorem Lawful.yields_map (hl : Lawful h answer Valid At Left) {N B : Type*} {inner : N → M}
    {f : A → B} {done : N → Option Bool} {value : N → Option B} {next : N → Option N} {s : S}
    (Inside : N → Prop) (hdone : ∀ n, Inside n → done n = h.done (inner n))
    (hvalue : ∀ n, Inside n → value n = (h.value (inner n)).map f)
    (hnext : ∀ n, Inside n → ∃ n', next n = some n' ∧ Inside n' ∧ inner n' = h.next (inner n))
    {n : N} {rest : List A} (hn : Inside n) (hleft : Left (inner n) s rest) :
    Yields done value next n (rest.map f) := by
  have hnil : ∀ n, Inside n → Left (inner n) s [] → Yields done value next n [] := by
    intro n hn hleft
    exact .nil ((hdone n hn).trans (hl.done _ s [] hleft))
  cases rest with
  | nil => exact hnil n hn hleft
  | cons a rest =>
    rw [← List.append_nil (List.map f (a :: rest))]
    apply hl.yields_append _ Inside _ hvalue _ _ hn hleft
    · intro n a rest hn hleft
      exact (hdone n hn).trans (hl.done _ s _ hleft)
    · exact fun n _ _ _ hn _ => hnext n hn
    · intro n a hn hleft
      obtain ⟨n', hn', hinside, heq⟩ := hnext n hn
      have hleft' := hl.next _ s _ hleft
      rw [← heq] at hleft'
      exact ⟨n', hn', hnil n' hinside hleft'⟩

end Laws

section Runs

inductive Call (S L : Type*) where
  | setState (state : S)
  | share (state : S)
  | find (label : L)
  | next
  | done
  | value

inductive Reply (A : Type*) where
  | moved
  | found (found : Bool)
  | done (done : Bool)
  | value (item : A)
deriving DecidableEq

def call (h : Handle S L A M) : Call S L → M → Option (Reply A × M)
  | .setState s, x => some (.moved, h.setState s x)
  | .share s, x => some (.moved, h.share s x)
  | .find l, x => (h.find l x).map fun (b, x) => (.found b, x)
  | .next, x => some (.moved, h.next x)
  | .done, x => (h.done x).map fun b => (.done b, x)
  | .value, x => (h.value x).map fun a => (.value a, x)

/- The replies to one call after another. -/
def replies (h : Handle S L A M) : List (Call S L) → M → Option (List (Reply A))
  | [], _ => some []
  | c :: calls, x => (call h c x).bind fun (reply, x) => (replies h calls x).map (reply :: ·)

/- The place that was set last, and what is left of the items that were found there since. -/
structure Asked (S A : Type*) where
  state : Option S
  left : Option (List A)

/- What a call is answered; `none` where nothing is promised: a find before a place is set, an item
asked for past the end, or after the place has changed. -/
def promised [DecidableEq S] (answer : S → L → List A) :
    Call S L → Asked S A → Option (Reply A × Asked S A)
  | .setState s, q => some (.moved, if q.state = some s then q else ⟨some s, none⟩)
  | .share _, q => some (.moved, q)
  | .find l, q => q.state.map fun s => (.found (!(answer s l).isEmpty), ⟨some s, some (answer s l)⟩)
  | .next, q => some (.moved, ⟨q.state, q.left.map List.tail⟩)
  | .done, q => q.left.map fun rest => (.done rest.isEmpty, q)
  | .value, q => (q.left.bind List.head?).map fun a => (.value a, q)

def promises [DecidableEq S] (answer : S → L → List A) :
    List (Call S L) → Asked S A → Option (List (Reply A))
  | [], _ => some []
  | c :: calls, q => (promised answer c q).bind fun (reply, q) =>
      (promises answer calls q).map (reply :: ·)

variable [DecidableEq S] {h : Handle S L A M} {answer : S → L → List A} {Valid : M → Prop}
  {At : M → S → Prop} {Left : M → S → List A → Prop}

/- What a handle has to do with what was asked of it. -/
def Answers (Valid : M → Prop) (At : M → S → Prop) (Left : M → S → List A → Prop) (x : M) :
    Asked S A → Prop
  | ⟨none, none⟩ => Valid x
  | ⟨some s, none⟩ => At x s
  | ⟨some s, some rest⟩ => Left x s rest
  | ⟨none, some _⟩ => False

variable {q : Asked S A}

theorem answers_valid (hl : Lawful h answer Valid At Left) (hx : Answers Valid At Left x q) :
    Valid x := by
  obtain ⟨_ | s, _ | rest⟩ := q
  · exact hx
  · exact hx.elim
  · exact hl.valid x s hx
  · exact hl.valid x s (hl.left x s rest hx)

theorem answers_at (hl : Lawful h answer Valid At Left) {s : S} {left : Option (List A)}
    (hx : Answers Valid At Left x ⟨some s, left⟩) : At x s := by
  cases left with
  | none => exact hx
  | some rest => exact hl.left x s rest hx

theorem answers_setState (hl : Lawful h answer Valid At Left) (s : S)
    (hx : Answers Valid At Left x q) :
    Answers Valid At Left (h.setState s x) (if q.state = some s then q else ⟨some s, none⟩) := by
  have hset := hl.setState x s (answers_valid hl hx)
  split
  · next hs =>
    obtain ⟨state, _ | rest⟩ := q
    · cases hs
      exact hset
    · cases hs
      exact hl.stay x s rest hx
  · exact hset

theorem answers_share (hl : Lawful h answer Valid At Left) (s : S) (hx : Answers Valid At Left x q) :
    Answers Valid At Left (h.share s x) q := by
  obtain ⟨_ | t, _ | rest⟩ := q
  · exact hl.shareValid x s hx
  · exact hx.elim
  · exact hl.shareAt x s t hx
  · exact hl.shareLeft x s t rest hx

theorem answers_next (hl : Lawful h answer Valid At Left) (hx : Answers Valid At Left x q) :
    Answers Valid At Left (h.next x) ⟨q.state, q.left.map List.tail⟩ := by
  obtain ⟨_ | t, _ | rest⟩ := q
  · exact hl.nextValid x hx
  · exact hx.elim
  · exact hl.nextAt x t hx
  · exact hl.next x t rest hx

/- A call is answered as promised. -/
theorem answers_call (hl : Lawful h answer Valid At Left) {q' : Asked S A}
    (hx : Answers Valid At Left x q) {c : Call S L} {reply : Reply A}
    (hpromised : promised answer c q = some (reply, q')) :
    ∃ x', call h c x = some (reply, x') ∧ Answers Valid At Left x' q' := by
  cases c with
  | setState s =>
    cases hpromised
    exact ⟨_, rfl, answers_setState hl s hx⟩
  | share s =>
    cases hpromised
    exact ⟨_, rfl, answers_share hl s hx⟩
  | next =>
    cases hpromised
    exact ⟨_, rfl, answers_next hl hx⟩
  | find l =>
    obtain ⟨state, left⟩ := q
    obtain ⟨s, rfl, hreply⟩ := Option.map_eq_some_iff.mp hpromised
    cases hreply
    obtain ⟨x', hfind, hleft⟩ := hl.find x s l (answers_at hl hx)
    exact ⟨x', congrArg (Option.map _) hfind, hleft⟩
  | done =>
    obtain ⟨state, left⟩ := q
    obtain ⟨rest, rfl, hreply⟩ := Option.map_eq_some_iff.mp hpromised
    cases hreply
    cases state with
    | none => exact hx.elim
    | some s => exact ⟨x, congrArg (Option.map _) (hl.done x s rest hx), hx⟩
  | value =>
    obtain ⟨state, left⟩ := q
    obtain ⟨a, hhead, hreply⟩ := Option.map_eq_some_iff.mp hpromised
    cases hreply
    obtain ⟨rest, rfl, hrest⟩ := Option.bind_eq_some_iff.mp hhead
    obtain ⟨tail, rfl⟩ := List.head?_eq_some_iff.mp hrest
    cases state with
    | none => exact hx.elim
    | some s => exact ⟨x, congrArg (Option.map _) (hl.value x s a tail hx), hx⟩

/- And so are all calls, one after another. -/
theorem replies_eq (hl : Lawful h answer Valid At Left) {calls : List (Call S L)}
    (hx : Answers Valid At Left x q) {rs : List (Reply A)}
    (hpromises : promises answer calls q = some rs) : replies h calls x = some rs := by
  induction calls generalizing x q rs with
  | nil => exact hpromises
  | cons c calls ih =>
    obtain ⟨⟨reply, q'⟩, hpromised, hrest⟩ := Option.bind_eq_some_iff.mp hpromises
    obtain ⟨rs', hrs, rfl⟩ := Option.map_eq_some_iff.mp hrest
    obtain ⟨x', hcall, hx'⟩ := answers_call hl hx hpromised
    rw [replies, hcall, Option.bind_some]
    exact congrArg (Option.map (reply :: ·)) (ih hx' hrs)

theorem replies_eq_of_valid (hl : Lawful h answer Valid At Left) {calls : List (Call S L)}
    (hx : Valid x) {rs : List (Reply A)} (hpromises : promises answer calls ⟨none, none⟩ = some rs) :
    replies h calls x = some rs := by
  have hanswers : Answers Valid At Left x ⟨none, none⟩ := hx
  exact replies_eq hl hanswers hpromises

end Runs

end Cursor
