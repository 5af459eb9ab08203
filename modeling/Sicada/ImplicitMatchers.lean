import Sicada.Difference
import Sicada.Matcher

namespace Sicada.Matcher

open Cursor

inductive MatcherRewriteMode where
  | auto
  | always
  | never
deriving DecidableEq

variable {L W M : Type} [ArcLabel L]

def MatcherRewriteMode.rewritesBoth [Zero W] [One W] [DecidableEq W] (mode : MatcherRewriteMode)
    (fst : VectorFst L W) : Bool :=
  match mode with
  | .auto => (fst.testedProperties kAcceptor).1 &&& kAcceptor ≠ 0
  | .always => true
  | .never => false

def rewrite (arc : Arc L W) (implicitLabel matched : L) (rewriteBoth : Bool)
    (matchType : MatchType) : Arc L W :=
  if rewriteBoth then
    ⟨if arc.ilabel = implicitLabel then matched else arc.ilabel,
      if arc.olabel = implicitLabel then matched else arc.olabel, arc.weight, arc.nextstate⟩
  else if matchType = .input then { arc with ilabel := matched }
  else { arc with olabel := matched }

/- Why a search for a label has no end of its own: a panic, or more steps than the fuel. -/
inductive Stop where
  | panic
  | endless
deriving DecidableEq

def orPanic {α : Type} : Option α → Except Stop α
  | some a => .ok a
  | none => .error .panic

structure PhiMatcher (L W M : Type) where
  matcher : M
  matchType : MatchType
  phiLabel : L
  phiLoop : Bool
  rewriteBoth : Bool
  hasPhi : Bool
  phiMatch : L
  state : Option ℕ
  phiWeight : W
  error : Bool

namespace PhiMatcher

variable [Monoid W] [DecidableEq W] (h : Handle ℕ L (Arc L W) M) (m : PhiMatcher L W M)

/- `matcher` is what the constructor of the inner matcher returns. -/
def newWithOptions [Zero W] (fst : VectorFst L W) (matcher : Except OpenFstError M)
    (matchType : MatchType) (phiLabel : L) (phiLoop : Bool) (mode : MatcherRewriteMode) :
    Except OpenFstError (PhiMatcher L W M) := do
  let matcher ← matcher
  return ⟨matcher, matchType, phiLabel, phiLoop, mode.rewritesBoth fst, false, noLabel, none, 1,
    false⟩

def setState (state : ℕ) : PhiMatcher L W M :=
  if m.state = some state then m
  else { m with
    matcher := h.setState state m.matcher
    state := some state
    hasPhi := m.phiLabel ≠ noLabel }

def searchPhi : L := if m.phiLabel = epsilon then noLabel else m.phiLabel

/- The loop of `find`: a phi arc is followed until a state carries the label. -/
def follow (label : L) : ℕ → ℕ → PhiMatcher L W M → Except Stop (Bool × PhiMatcher L W M)
  | 0, _, _ => .error .endless
  | fuel + 1, s, m => do
    let (found, inner) ← orPanic (h.find label m.matcher)
    if found then return (true, { m with matcher := inner })
    let (found, inner) ← orPanic (h.find m.searchPhi inner)
    if !found then return (false, { m with matcher := inner })
    let val ← orPanic (h.value inner)
    if m.phiLoop && val.nextstate = s then
      return (true, { m with matcher := inner, phiMatch := label })
    let finished ← orPanic (h.done (h.next inner))
    follow label fuel val.nextstate { m with
      matcher := h.setState val.nextstate (h.next inner)
      phiWeight := m.phiWeight * val.weight
      error := m.error || !finished }

def find (fuel : ℕ) (label : L) : Except Stop (Bool × PhiMatcher L W M) :=
  if label = m.phiLabel ∧ m.phiLabel ≠ noLabel ∧ m.phiLabel ≠ epsilon then
    .ok (false, { m with error := true })
  else do
    let state ← orPanic m.state
    let m := { m with matcher := h.setState state m.matcher, phiMatch := noLabel, phiWeight := 1 }
    if m.phiLabel = epsilon ∧ label = noLabel then return (false, m)
    if m.phiLabel = epsilon ∧ label = epsilon then
      let (found, inner) ← orPanic (h.find noLabel m.matcher)
      if found then return (true, { m with matcher := inner, phiMatch := epsilon })
      let (found, inner) ← orPanic (h.find epsilon inner)
      return (found, { m with matcher := inner })
    if !m.hasPhi ∨ label = epsilon ∨ label = noLabel then
      let (found, inner) ← orPanic (h.find label m.matcher)
      return (found, { m with matcher := inner })
    follow h label fuel state m

def done : Option Bool := h.done m.matcher

def value : Option (Arc L W) :=
  if m.phiMatch = noLabel ∧ m.phiWeight = 1 then h.value m.matcher
  else if m.phiMatch = epsilon then m.state.map (loopArc m.matchType)
  else (h.value m.matcher).map fun arc =>
    let rewritten := if m.phiMatch = noLabel then arc
      else rewrite arc m.phiLabel m.phiMatch m.rewriteBoth m.matchType
    { rewritten with weight := m.phiWeight * arc.weight }

def next : PhiMatcher L W M := { m with matcher := h.next m.matcher }

def priority (state : ℕ) : Option (ℤ × PhiMatcher L W M) :=
  if m.phiLabel = noLabel then some (h.priority state m.matcher, m)
  else (h.find m.searchPhi (h.setState state m.matcher)).map fun (hasPhi, inner) =>
    (if hasPhi then requirePriority else h.priority state inner, { m with matcher := inner })

end PhiMatcher

structure RhoMatcher (L M : Type) where
  matcher : M
  matchType : MatchType
  rhoLabel : L
  rewriteBoth : Bool
  rhoMatch : L
  hasRho : Bool
  state : Option ℕ
  error : Bool

namespace RhoMatcher

variable (h : Handle ℕ L (Arc L W) M) (m : RhoMatcher L M)

def newWithOptions [Zero W] [One W] [DecidableEq W] (fst : VectorFst L W)
    (matcher : Except OpenFstError M) (matchType : MatchType) (rhoLabel : L)
    (mode : MatcherRewriteMode) : Except OpenFstError (RhoMatcher L M) :=
  if matchType = .both then .error (.matcherInvalidMatchType "RhoMatcher" matchType)
  else if rhoLabel = epsilon then
    .error (.matcherInvalidConfiguration "RhoMatcher" "epsilon cannot be used as the rho label")
  else do
    let matcher ← matcher
    return ⟨matcher, matchType, rhoLabel, mode.rewritesBoth fst, noLabel, false, none, false⟩

def setState (state : ℕ) : RhoMatcher L M :=
  if m.state = some state then m
  else { m with
    state := some state
    matcher := h.setState state m.matcher
    hasRho := m.rhoLabel ≠ noLabel }

def find (label : L) : Option (Bool × RhoMatcher L M) :=
  if label = m.rhoLabel ∧ m.rhoLabel ≠ noLabel then some (false, { m with error := true })
  else do
    let (found, inner) ← h.find label m.matcher
    if found then return (true, { m with matcher := inner, rhoMatch := noLabel })
    if m.hasRho ∧ label ≠ epsilon ∧ label ≠ noLabel then
      let (hasRho, inner) ← h.find m.rhoLabel inner
      if hasRho then
        return (true, { m with matcher := inner, hasRho := true, rhoMatch := label })
      return (false, { m with matcher := inner, hasRho := false })
    return (false, { m with matcher := inner })

def done : Option Bool := h.done m.matcher

def value : Option (Arc L W) :=
  (h.value m.matcher).map fun arc =>
    if m.rhoMatch = noLabel then arc
    else rewrite arc m.rhoLabel m.rhoMatch m.rewriteBoth m.matchType

def next : RhoMatcher L M := { m with matcher := h.next m.matcher }

def priority (state : ℕ) : Option (ℤ × RhoMatcher L M) :=
  if m.rhoLabel = noLabel then some (h.priority state m.matcher, m)
  else (h.find m.rhoLabel (h.setState state m.matcher)).map fun (hasRho, inner) =>
    (if hasRho then requirePriority else h.priority state inner,
      { m with state := some state, matcher := inner, hasRho := hasRho })

end RhoMatcher

structure SigmaMatcher (L M : Type) where
  matcher : M
  matchType : MatchType
  sigmaLabel : L
  rewriteBoth : Bool
  sigmaMatch : L
  matchLabel : L
  hasSigma : Bool
  state : Option ℕ
  error : Bool

namespace SigmaMatcher

variable (h : Handle ℕ L (Arc L W) M) (m : SigmaMatcher L M)

def newWithOptions [Zero W] [One W] [DecidableEq W] (fst : VectorFst L W)
    (matcher : Except OpenFstError M) (matchType : MatchType) (sigmaLabel : L)
    (mode : MatcherRewriteMode) : Except OpenFstError (SigmaMatcher L M) :=
  if matchType = .both then .error (.matcherInvalidMatchType "SigmaMatcher" matchType)
  else if sigmaLabel = epsilon then
    .error (.matcherInvalidConfiguration "SigmaMatcher"
      "epsilon cannot be used as the sigma label")
  else do
    let matcher ← matcher
    return ⟨matcher, matchType, sigmaLabel, mode.rewritesBoth fst, noLabel, noLabel, false, none, false⟩

def setState (state : ℕ) : Option (SigmaMatcher L M) :=
  if m.state = some state then some m
  else
    let inner := h.setState state m.matcher
    if m.sigmaLabel = noLabel then
      some { m with state := some state, matcher := inner, hasSigma := false }
    else (h.find m.sigmaLabel inner).map fun (hasSigma, inner) =>
      { m with state := some state, matcher := inner, hasSigma := hasSigma }

def find (label : L) : Option (Bool × SigmaMatcher L M) :=
  let m := { m with matchLabel := label }
  if label = m.sigmaLabel ∧ m.sigmaLabel ≠ noLabel then some (false, { m with error := true })
  else do
    let (found, inner) ← h.find label m.matcher
    if found then return (true, { m with matcher := inner, sigmaMatch := noLabel })
    if m.hasSigma ∧ label ≠ epsilon ∧ label ≠ noLabel then
      let (found, inner) ← h.find m.sigmaLabel inner
      if found then return (true, { m with matcher := inner, sigmaMatch := label })
      return (false, { m with matcher := inner })
    return (false, { m with matcher := inner })

def done : Option Bool := h.done m.matcher

def value : Option (Arc L W) :=
  (h.value m.matcher).map fun arc =>
    if m.sigmaMatch = noLabel then arc
    else rewrite arc m.sigmaLabel m.sigmaMatch m.rewriteBoth m.matchType

/- Once the arcs of the label are through, those of the sigma label follow. -/
def next : Option (SigmaMatcher L M) := do
  let inner := h.next m.matcher
  let finished ← h.done inner
  if finished ∧ m.hasSigma ∧ m.sigmaMatch = noLabel ∧ m.matchLabel ≠ epsilon ∧
      m.matchLabel ≠ noLabel then
    let (_, inner) ← h.find m.sigmaLabel inner
    return { m with matcher := inner, sigmaMatch := m.matchLabel }
  return { m with matcher := inner }

def priority (state : ℕ) : Option (ℤ × SigmaMatcher L M) :=
  if m.sigmaLabel = noLabel then some (h.priority state m.matcher, m)
  else (m.setState h state).map fun m =>
    (if m.hasSigma then requirePriority else h.priority state m.matcher, m)

end SigmaMatcher

structure MultiEpsFlags where
  list : Bool
  loop : Bool
deriving DecidableEq

structure MultiEpsMatcher (L M : Type) where
  matcher : M
  flags : MultiEpsFlags
  multiEpsLabels : List L
  multiEpsIndex : Option ℕ
  currentLoop : Bool
  loopState : Option ℕ
  finished : Bool
  matchType : MatchType

namespace MultiEpsMatcher

variable (h : Handle ℕ L (Arc L W) M) (m : MultiEpsMatcher L M)

def newWithFlags (matcher : Except OpenFstError M) (matchType : MatchType) (flags : MultiEpsFlags) :
    Except OpenFstError (MultiEpsMatcher L M) := do
  let matcher ← matcher
  return ⟨matcher, flags, [], none, false, none, true, matchType⟩

def addMultiEpsLabel (label : L) : Except OpenFstError (MultiEpsMatcher L M) :=
  if label = epsilon then
    .error (.matcherInvalidConfiguration "MultiEpsMatcher"
      "epsilon is already a multi-epsilon label")
  else if label ∈ m.multiEpsLabels then .ok m
  else .ok { m with multiEpsLabels := m.multiEpsLabels.orderedInsert (· ≤ ·) label }

def removeMultiEpsLabel (label : L) : MultiEpsMatcher L M :=
  { m with multiEpsLabels := m.multiEpsLabels.erase label }

def clearMultiEpsLabels : MultiEpsMatcher L M :=
  { m with multiEpsLabels := [], multiEpsIndex := none }

/- The loop of `seekMultiEps` over the labels from `index` on. -/
def seekIn : List L → ℕ → MultiEpsMatcher L M → Option (Bool × MultiEpsMatcher L M)
  | [], _, m => some (false, { m with multiEpsIndex := some m.multiEpsLabels.length })
  | label :: labels, index, m => do
    let (found, inner) ← h.find label m.matcher
    if found then return (true, { m with matcher := inner, multiEpsIndex := some index })
    seekIn labels (index + 1) { m with matcher := inner }

def seekMultiEps (index : ℕ) : Option (Bool × MultiEpsMatcher L M) :=
  seekIn h (m.multiEpsLabels.drop index) index m

def setState (state : ℕ) : MultiEpsMatcher L M :=
  { m with matcher := h.setState state m.matcher, loopState := some state }

/- The arcs the inner matcher has for a label. -/
def findInner (label : L) : Option (Bool × MultiEpsMatcher L M) :=
  (h.find label m.matcher).map fun (found, inner) => (found, { m with matcher := inner })

def search (label : L) : Option (Bool × MultiEpsMatcher L M) :=
  if label = epsilon then m.findInner h epsilon
  else if label = noLabel then
    if m.flags.list then do
      let (found, m) ← m.seekMultiEps h 0
      if found then return (true, m)
      m.findInner h noLabel
    else m.findInner h noLabel
  else if m.flags.loop ∧ label ∈ m.multiEpsLabels then some (true, { m with currentLoop := true })
  else m.findInner h label

def find (label : L) : Option (Bool × MultiEpsMatcher L M) :=
  (search h { m with multiEpsIndex := some m.multiEpsLabels.length, currentLoop := false }
    label).map fun (found, m) => (found, { m with finished := !found })

def done : Option Bool := some m.finished

def value [One W] : Option (Arc L W) :=
  if m.currentLoop then m.loopState.map fun state => ⟨noLabel, noLabel, 1, state⟩
  else h.value m.matcher

def next : Option (MultiEpsMatcher L M) :=
  if m.currentLoop then some { m with finished := true }
  else do
    let inner := h.next m.matcher
    let finished ← h.done inner
    let m := { m with matcher := inner, finished := finished }
    if !finished then return m
    match m.multiEpsIndex with
    | none => return m
    | some index =>
      if m.multiEpsLabels.length ≤ index then return m
      let (found, m) ← m.seekMultiEps h (index + 1)
      if found then return { m with finished := false }
      let (found, m) ← m.findInner h noLabel
      return { m with finished := !found }

def priority (state : ℕ) : ℤ := h.priority state m.matcher

end MultiEpsMatcher

end Sicada.Matcher
