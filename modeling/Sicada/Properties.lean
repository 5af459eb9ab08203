import Sicada.Arc

namespace Sicada

variable {L W : Type} [ArcLabel L]

def kExpanded : BitVec 64 := 0x1#64
def kMutable : BitVec 64 := 0x2#64
def kError : BitVec 64 := 0x4#64
def kAcceptor : BitVec 64 := 0x10000#64
def kNotAcceptor : BitVec 64 := 0x20000#64
def kIDeterministic : BitVec 64 := 0x40000#64
def kNonIDeterministic : BitVec 64 := 0x80000#64
def kODeterministic : BitVec 64 := 0x100000#64
def kNonODeterministic : BitVec 64 := 0x200000#64
def kEpsilons : BitVec 64 := 0x400000#64
def kNoEpsilons : BitVec 64 := 0x800000#64
def kIEpsilons : BitVec 64 := 0x1000000#64
def kNoIEpsilons : BitVec 64 := 0x2000000#64
def kOEpsilons : BitVec 64 := 0x4000000#64
def kNoOEpsilons : BitVec 64 := 0x8000000#64
def kILabelSorted : BitVec 64 := 0x10000000#64
def kNotILabelSorted : BitVec 64 := 0x20000000#64
def kOLabelSorted : BitVec 64 := 0x40000000#64
def kNotOLabelSorted : BitVec 64 := 0x80000000#64
def kWeighted : BitVec 64 := 0x100000000#64
def kUnweighted : BitVec 64 := 0x200000000#64
def kCyclic : BitVec 64 := 0x400000000#64
def kAcyclic : BitVec 64 := 0x800000000#64
def kInitialCyclic : BitVec 64 := 0x1000000000#64
def kInitialAcyclic : BitVec 64 := 0x2000000000#64
def kTopSorted : BitVec 64 := 0x4000000000#64
def kNotTopSorted : BitVec 64 := 0x8000000000#64
def kAccessible : BitVec 64 := 0x10000000000#64
def kNotAccessible : BitVec 64 := 0x20000000000#64
def kCoAccessible : BitVec 64 := 0x40000000000#64
def kNotCoAccessible : BitVec 64 := 0x80000000000#64
def kString : BitVec 64 := 0x100000000000#64
def kNotString : BitVec 64 := 0x200000000000#64
def kWeightedCycles : BitVec 64 := 0x400000000000#64
def kUnweightedCycles : BitVec 64 := 0x800000000000#64
def kNullProperties : BitVec 64 :=
  kAcceptor ||| kIDeterministic ||| kODeterministic ||| kNoEpsilons ||| kNoIEpsilons |||
  kNoOEpsilons ||| kILabelSorted ||| kOLabelSorted ||| kUnweighted ||| kAcyclic |||
  kInitialAcyclic ||| kTopSorted ||| kAccessible ||| kCoAccessible ||| kString |||
  kUnweightedCycles

def kCopyProperties : BitVec 64 :=
  kError ||| kAcceptor ||| kNotAcceptor ||| kIDeterministic ||| kNonIDeterministic |||
  kODeterministic ||| kNonODeterministic ||| kEpsilons ||| kNoEpsilons ||| kIEpsilons |||
  kNoIEpsilons ||| kOEpsilons ||| kNoOEpsilons ||| kILabelSorted ||| kNotILabelSorted |||
  kOLabelSorted ||| kNotOLabelSorted ||| kWeighted ||| kUnweighted ||| kCyclic ||| kAcyclic |||
  kInitialCyclic ||| kInitialAcyclic ||| kTopSorted ||| kNotTopSorted ||| kAccessible |||
  kNotAccessible ||| kCoAccessible ||| kNotCoAccessible ||| kString ||| kNotString |||
  kWeightedCycles ||| kUnweightedCycles

def kSetStartProperties : BitVec 64 :=
  kExpanded ||| kMutable ||| kError ||| kAcceptor ||| kNotAcceptor ||| kIDeterministic |||
  kNonIDeterministic ||| kODeterministic ||| kNonODeterministic ||| kEpsilons |||
  kNoEpsilons ||| kIEpsilons ||| kNoIEpsilons ||| kOEpsilons ||| kNoOEpsilons |||
  kILabelSorted ||| kNotILabelSorted ||| kOLabelSorted ||| kNotOLabelSorted ||| kWeighted |||
  kUnweighted ||| kCyclic ||| kAcyclic ||| kTopSorted ||| kNotTopSorted ||| kCoAccessible |||
  kNotCoAccessible ||| kWeightedCycles ||| kUnweightedCycles

def kSetFinalProperties : BitVec 64 :=
  kExpanded ||| kMutable ||| kError ||| kAcceptor ||| kNotAcceptor ||| kIDeterministic |||
  kNonIDeterministic ||| kODeterministic ||| kNonODeterministic ||| kEpsilons |||
  kNoEpsilons ||| kIEpsilons ||| kNoIEpsilons ||| kOEpsilons ||| kNoOEpsilons |||
  kILabelSorted ||| kNotILabelSorted ||| kOLabelSorted ||| kNotOLabelSorted ||| kCyclic |||
  kAcyclic ||| kInitialCyclic ||| kInitialAcyclic ||| kTopSorted ||| kNotTopSorted |||
  kAccessible ||| kNotAccessible ||| kWeightedCycles ||| kUnweightedCycles

def kAddStateProperties : BitVec 64 :=
  kExpanded ||| kMutable ||| kError ||| kAcceptor ||| kNotAcceptor ||| kIDeterministic |||
  kNonIDeterministic ||| kODeterministic ||| kNonODeterministic ||| kEpsilons |||
  kNoEpsilons ||| kIEpsilons ||| kNoIEpsilons ||| kOEpsilons ||| kNoOEpsilons |||
  kILabelSorted ||| kNotILabelSorted ||| kOLabelSorted ||| kNotOLabelSorted ||| kWeighted |||
  kUnweighted ||| kCyclic ||| kAcyclic ||| kInitialCyclic ||| kInitialAcyclic |||
  kTopSorted ||| kNotTopSorted ||| kNotAccessible ||| kNotCoAccessible ||| kNotString |||
  kWeightedCycles ||| kUnweightedCycles

def kAddArcProperties : BitVec 64 :=
  kExpanded ||| kMutable ||| kError ||| kNotAcceptor ||| kNonIDeterministic |||
  kNonODeterministic ||| kEpsilons ||| kIEpsilons ||| kOEpsilons ||| kNotILabelSorted |||
  kNotOLabelSorted ||| kWeighted ||| kCyclic ||| kInitialCyclic ||| kNotTopSorted |||
  kAccessible ||| kCoAccessible ||| kWeightedCycles

def kSetArcProperties : BitVec 64 :=
  kExpanded ||| kMutable ||| kError

def kDeleteStatesProperties : BitVec 64 :=
  kExpanded ||| kMutable ||| kError ||| kAcceptor ||| kIDeterministic ||| kODeterministic |||
  kNoEpsilons ||| kNoIEpsilons ||| kNoOEpsilons ||| kILabelSorted ||| kOLabelSorted |||
  kUnweighted ||| kAcyclic ||| kInitialAcyclic ||| kTopSorted ||| kUnweightedCycles

def kDeleteArcsProperties : BitVec 64 :=
  kExpanded ||| kMutable ||| kError ||| kAcceptor ||| kIDeterministic ||| kODeterministic |||
  kNoEpsilons ||| kNoIEpsilons ||| kNoOEpsilons ||| kILabelSorted ||| kOLabelSorted |||
  kUnweighted ||| kAcyclic ||| kInitialAcyclic ||| kTopSorted ||| kNotAccessible |||
  kNotCoAccessible ||| kUnweightedCycles

def kStateSortProperties : BitVec 64 :=
  kExpanded ||| kMutable ||| kError ||| kAcceptor ||| kNotAcceptor ||| kIDeterministic |||
  kNonIDeterministic ||| kODeterministic ||| kNonODeterministic ||| kEpsilons |||
  kNoEpsilons ||| kIEpsilons ||| kNoIEpsilons ||| kOEpsilons ||| kNoOEpsilons |||
  kILabelSorted ||| kNotILabelSorted ||| kOLabelSorted ||| kNotOLabelSorted ||| kWeighted |||
  kUnweighted ||| kCyclic ||| kAcyclic ||| kInitialCyclic ||| kInitialAcyclic |||
  kAccessible ||| kNotAccessible ||| kCoAccessible ||| kNotCoAccessible ||| kWeightedCycles |||
  kUnweightedCycles

def kArcSortProperties : BitVec 64 :=
  kExpanded ||| kMutable ||| kError ||| kAcceptor ||| kNotAcceptor ||| kIDeterministic |||
  kNonIDeterministic ||| kODeterministic ||| kNonODeterministic ||| kEpsilons |||
  kNoEpsilons ||| kIEpsilons ||| kNoIEpsilons ||| kOEpsilons ||| kNoOEpsilons ||| kWeighted |||
  kUnweighted ||| kCyclic ||| kAcyclic ||| kInitialCyclic ||| kInitialAcyclic |||
  kTopSorted ||| kNotTopSorted ||| kAccessible ||| kNotAccessible ||| kCoAccessible |||
  kNotCoAccessible ||| kString ||| kNotString ||| kWeightedCycles ||| kUnweightedCycles

def kILabelInvariantProperties : BitVec 64 :=
  kExpanded ||| kMutable ||| kError ||| kODeterministic ||| kNonODeterministic |||
  kOEpsilons ||| kNoOEpsilons ||| kOLabelSorted ||| kNotOLabelSorted ||| kWeighted |||
  kUnweighted ||| kCyclic ||| kAcyclic ||| kInitialCyclic ||| kInitialAcyclic |||
  kTopSorted ||| kNotTopSorted ||| kAccessible ||| kNotAccessible ||| kCoAccessible |||
  kNotCoAccessible ||| kString ||| kNotString ||| kWeightedCycles ||| kUnweightedCycles

def kOLabelInvariantProperties : BitVec 64 :=
  kExpanded ||| kMutable ||| kError ||| kIDeterministic ||| kNonIDeterministic |||
  kIEpsilons ||| kNoIEpsilons ||| kILabelSorted ||| kNotILabelSorted ||| kWeighted |||
  kUnweighted ||| kCyclic ||| kAcyclic ||| kInitialCyclic ||| kInitialAcyclic |||
  kTopSorted ||| kNotTopSorted ||| kAccessible ||| kNotAccessible ||| kCoAccessible |||
  kNotCoAccessible ||| kString ||| kNotString ||| kWeightedCycles ||| kUnweightedCycles

def kWeightInvariantProperties : BitVec 64 :=
  kExpanded ||| kMutable ||| kError ||| kAcceptor ||| kNotAcceptor ||| kIDeterministic |||
  kNonIDeterministic ||| kODeterministic ||| kNonODeterministic ||| kEpsilons |||
  kNoEpsilons ||| kIEpsilons ||| kNoIEpsilons ||| kOEpsilons ||| kNoOEpsilons |||
  kILabelSorted ||| kNotILabelSorted ||| kOLabelSorted ||| kNotOLabelSorted ||| kCyclic |||
  kAcyclic ||| kInitialCyclic ||| kInitialAcyclic ||| kTopSorted ||| kNotTopSorted |||
  kAccessible ||| kNotAccessible ||| kCoAccessible ||| kNotCoAccessible ||| kString |||
  kNotString

def kAddSuperFinalProperties : BitVec 64 :=
  kExpanded ||| kMutable ||| kError ||| kAcceptor ||| kNotAcceptor ||| kNonIDeterministic |||
  kNonODeterministic ||| kEpsilons ||| kIEpsilons ||| kOEpsilons ||| kNotILabelSorted |||
  kNotOLabelSorted ||| kWeighted ||| kUnweighted ||| kCyclic ||| kAcyclic |||
  kInitialCyclic ||| kInitialAcyclic ||| kNotTopSorted ||| kNotAccessible |||
  kCoAccessible ||| kNotCoAccessible ||| kNotString ||| kWeightedCycles |||
  kUnweightedCycles

def kRmSuperFinalProperties : BitVec 64 :=
  kExpanded ||| kMutable ||| kError ||| kAcceptor ||| kNotAcceptor ||| kIDeterministic |||
  kODeterministic ||| kNoEpsilons ||| kNoIEpsilons ||| kNoOEpsilons ||| kILabelSorted |||
  kOLabelSorted ||| kWeighted ||| kUnweighted ||| kCyclic ||| kAcyclic ||| kInitialCyclic |||
  kInitialAcyclic ||| kTopSorted ||| kAccessible ||| kCoAccessible ||| kNotCoAccessible |||
  kString ||| kWeightedCycles ||| kUnweightedCycles

def kBinaryProperties : BitVec 64 := 0x7#64
def kTrinaryProperties : BitVec 64 := 0xffffffff0000#64
def kPosTrinaryProperties : BitVec 64 :=
  kTrinaryProperties &&& 0x5555555555555555#64

def kNegTrinaryProperties : BitVec 64 :=
  kTrinaryProperties &&& 0xaaaaaaaaaaaaaaaa#64

def kFstProperties : BitVec 64 :=
  kBinaryProperties ||| kTrinaryProperties

def isTrivialWeight [Zero W] [One W] [DecidableEq W] (weight : W) : Bool :=
  weight = 0 || weight = 1

/- The bits an arc `old` justified are dropped, those `new` forces are set, and what neither
decides is left unknown. -/
def setArcProperties [Zero W] [One W] [DecidableEq W]
    (inprops : BitVec 64) (oldArc newArc : Arc L W) : BitVec 64 :=
  let props := inprops
  let props := if oldArc.ilabel ≠ oldArc.olabel then props &&& ~~~kNotAcceptor else props
  let props :=
    if oldArc.ilabel = epsilon then
      let props := props &&& ~~~kIEpsilons
      if oldArc.olabel = epsilon then props &&& ~~~kEpsilons else props
    else props
  let props := if oldArc.olabel = epsilon then props &&& ~~~kOEpsilons else props
  let props := if !isTrivialWeight oldArc.weight then props &&& ~~~kWeighted else props
  let props :=
    if newArc.ilabel ≠ newArc.olabel then (props ||| kNotAcceptor) &&& ~~~kAcceptor else props
  let props :=
    if newArc.ilabel = epsilon then
      let props := (props ||| kIEpsilons) &&& ~~~kNoIEpsilons
      if newArc.olabel = epsilon then (props ||| kEpsilons) &&& ~~~kNoEpsilons else props
    else props
  let props :=
    if newArc.olabel = epsilon then (props ||| kOEpsilons) &&& ~~~kNoOEpsilons else props
  let props :=
    if !isTrivialWeight newArc.weight then (props ||| kWeighted) &&& ~~~kUnweighted else props
  props &&& (kSetArcProperties ||| kAcceptor ||| kNotAcceptor ||| kEpsilons ||| kNoEpsilons |||
    kIEpsilons ||| kNoIEpsilons ||| kOEpsilons ||| kNoOEpsilons ||| kWeighted ||| kUnweighted)

def setStartProperties (inprops : BitVec 64) : BitVec 64 :=
  let outprops := inprops &&& kSetStartProperties
  if inprops &&& kAcyclic ≠ 0 then outprops ||| kInitialAcyclic else outprops

def setFinalProperties [Zero W] [One W] [DecidableEq W]
    (inprops : BitVec 64) (oldWeight newWeight : W) : BitVec 64 :=
  let outprops := inprops
  let outprops :=
    if oldWeight ≠ 0 ∧ oldWeight ≠ 1 then outprops &&& ~~~kWeighted else outprops
  let outprops :=
    if newWeight ≠ 0 ∧ newWeight ≠ 1 then (outprops ||| kWeighted) &&& ~~~kUnweighted
    else outprops
  outprops &&& (kSetFinalProperties ||| kWeighted ||| kUnweighted)

def addStateProperties (inprops : BitVec 64) : BitVec 64 :=
  inprops &&& kAddStateProperties

def addArcProperties [Zero W] [One W] [DecidableEq W]
    (inprops : BitVec 64) (s : ℕ) (arc : Arc L W) (prevArc : Option (Arc L W)) : BitVec 64 :=
  let outprops := inprops
  let outprops :=
    if arc.ilabel ≠ arc.olabel then (outprops ||| kNotAcceptor) &&& ~~~kAcceptor else outprops
  let outprops :=
    if arc.ilabel = epsilon then
      let outprops := (outprops ||| kIEpsilons) &&& ~~~kNoIEpsilons
      if arc.olabel = epsilon then (outprops ||| kEpsilons) &&& ~~~kNoEpsilons else outprops
    else outprops
  let outprops :=
    if arc.olabel = epsilon then (outprops ||| kOEpsilons) &&& ~~~kNoOEpsilons else outprops
  let outprops :=
    match prevArc with
    | some prev =>
      let outprops :=
        if arc.ilabel < prev.ilabel then (outprops ||| kNotILabelSorted) &&& ~~~kILabelSorted
        else outprops
      if arc.olabel < prev.olabel then (outprops ||| kNotOLabelSorted) &&& ~~~kOLabelSorted
      else outprops
    | none => outprops
  let outprops :=
    if arc.weight ≠ 0 ∧ arc.weight ≠ 1 then (outprops ||| kWeighted) &&& ~~~kUnweighted
    else outprops
  let outprops :=
    if arc.nextstate ≤ s then (outprops ||| kNotTopSorted) &&& ~~~kTopSorted else outprops
  let outprops := outprops &&& (kAddArcProperties ||| kAcceptor ||| kNoEpsilons |||
    kNoIEpsilons ||| kNoOEpsilons ||| kILabelSorted ||| kOLabelSorted ||| kUnweighted |||
    kTopSorted)
  if outprops &&& kTopSorted ≠ 0 then outprops ||| (kAcyclic ||| kInitialAcyclic) else outprops

def deleteStatesProperties (inprops : BitVec 64) : BitVec 64 :=
  inprops &&& kDeleteStatesProperties

def deleteAllStatesProperties (inprops staticProps : BitVec 64) : BitVec 64 :=
  let outprops := inprops &&& kError
  outprops ||| kNullProperties ||| staticProps

def deleteArcsProperties (inprops : BitVec 64) : BitVec 64 :=
  inprops &&& kDeleteArcsProperties

def invertProperties (inprops : BitVec 64) : BitVec 64 :=
  let outprops := (kExpanded ||| kMutable ||| kError ||| kAcceptor ||| kNotAcceptor |||
    kEpsilons ||| kNoEpsilons ||| kWeighted ||| kUnweighted ||| kWeightedCycles |||
    kUnweightedCycles ||| kCyclic ||| kAcyclic ||| kInitialCyclic ||| kInitialAcyclic |||
    kTopSorted ||| kNotTopSorted ||| kAccessible ||| kNotAccessible ||| kCoAccessible |||
    kNotCoAccessible ||| kString ||| kNotString) &&& inprops
  let outprops :=
    if kIDeterministic &&& inprops ≠ 0 then outprops ||| kODeterministic
    else outprops
  let outprops :=
    if kNonIDeterministic &&& inprops ≠ 0 then outprops ||| kNonODeterministic
    else outprops
  let outprops :=
    if kODeterministic &&& inprops ≠ 0 then outprops ||| kIDeterministic
    else outprops
  let outprops :=
    if kNonODeterministic &&& inprops ≠ 0 then outprops ||| kNonIDeterministic
    else outprops
  let outprops := if kIEpsilons &&& inprops ≠ 0 then outprops ||| kOEpsilons else outprops
  let outprops := if kNoIEpsilons &&& inprops ≠ 0 then outprops ||| kNoOEpsilons else outprops
  let outprops := if kOEpsilons &&& inprops ≠ 0 then outprops ||| kIEpsilons else outprops
  let outprops := if kNoOEpsilons &&& inprops ≠ 0 then outprops ||| kNoIEpsilons else outprops
  let outprops := if kILabelSorted &&& inprops ≠ 0 then outprops ||| kOLabelSorted else outprops
  let outprops :=
    if kNotILabelSorted &&& inprops ≠ 0 then outprops ||| kNotOLabelSorted
    else outprops
  let outprops := if kOLabelSorted &&& inprops ≠ 0 then outprops ||| kILabelSorted else outprops
  let outprops :=
    if kNotOLabelSorted &&& inprops ≠ 0 then outprops ||| kNotILabelSorted
    else outprops
  outprops

def projectProperties (inprops : BitVec 64) (projectInput : Bool) : BitVec 64 :=
  let outprops := kAcceptor
  let outprops := outprops ||| ((kExpanded ||| kMutable ||| kError ||| kWeighted |||
    kUnweighted ||| kWeightedCycles ||| kUnweightedCycles ||| kCyclic ||| kAcyclic |||
    kInitialCyclic ||| kInitialAcyclic ||| kTopSorted ||| kNotTopSorted ||| kAccessible |||
    kNotAccessible ||| kCoAccessible ||| kNotCoAccessible ||| kString ||| kNotString) &&& inprops)
  let outprops :=
    if projectInput then
      let outprops := outprops ||| ((kIDeterministic ||| kNonIDeterministic ||| kIEpsilons |||
        kNoIEpsilons ||| kILabelSorted ||| kNotILabelSorted) &&& inprops)
      let outprops :=
        if kIDeterministic &&& inprops ≠ 0 then outprops ||| kODeterministic
        else outprops
      let outprops :=
        if kNonIDeterministic &&& inprops ≠ 0 then outprops ||| kNonODeterministic
        else outprops
      let outprops :=
        if kIEpsilons &&& inprops ≠ 0 then outprops ||| (kOEpsilons ||| kEpsilons)
        else outprops
      let outprops :=
        if kNoIEpsilons &&& inprops ≠ 0 then outprops ||| (kNoOEpsilons ||| kNoEpsilons)
        else outprops
      let outprops :=
        if kILabelSorted &&& inprops ≠ 0 then outprops ||| kOLabelSorted
        else outprops
      let outprops :=
        if kNotILabelSorted &&& inprops ≠ 0 then outprops ||| kNotOLabelSorted
        else outprops
      outprops
    else
      let outprops := outprops ||| ((kODeterministic ||| kNonODeterministic ||| kOEpsilons |||
        kNoOEpsilons ||| kOLabelSorted ||| kNotOLabelSorted) &&& inprops)
      let outprops :=
        if kODeterministic &&& inprops ≠ 0 then outprops ||| kIDeterministic
        else outprops
      let outprops :=
        if kNonODeterministic &&& inprops ≠ 0 then outprops ||| kNonIDeterministic
        else outprops
      let outprops :=
        if kOEpsilons &&& inprops ≠ 0 then outprops ||| (kIEpsilons ||| kEpsilons)
        else outprops
      let outprops :=
        if kNoOEpsilons &&& inprops ≠ 0 then outprops ||| (kNoIEpsilons ||| kNoEpsilons)
        else outprops
      let outprops :=
        if kOLabelSorted &&& inprops ≠ 0 then outprops ||| kILabelSorted
        else outprops
      let outprops :=
        if kNotOLabelSorted &&& inprops ≠ 0 then outprops ||| kNotILabelSorted
        else outprops
      outprops
  outprops

def relabelProperties (inprops : BitVec 64) : BitVec 64 :=
  let outprops := kExpanded ||| kMutable ||| kError ||| kWeighted ||| kUnweighted |||
    kWeightedCycles ||| kUnweightedCycles ||| kCyclic ||| kAcyclic ||| kInitialCyclic |||
    kInitialAcyclic ||| kTopSorted ||| kNotTopSorted ||| kAccessible ||| kNotAccessible |||
    kCoAccessible ||| kNotCoAccessible ||| kString ||| kNotString
  outprops &&& inprops

def reverseProperties (inprops : BitVec 64) (hasSuperinitial : Bool) : BitVec 64 :=
  let outprops := (kExpanded ||| kMutable ||| kError ||| kAcceptor ||| kNotAcceptor |||
    kEpsilons ||| kIEpsilons ||| kOEpsilons ||| kUnweighted ||| kCyclic ||| kAcyclic |||
    kWeightedCycles ||| kUnweightedCycles) &&& inprops
  let outprops := if hasSuperinitial then outprops ||| (kWeighted &&& inprops) else outprops
  outprops

def synchronizeProperties (inprops : BitVec 64) : BitVec 64 :=
  let outprops := (kError ||| kAcceptor ||| kAcyclic ||| kAccessible ||| kCoAccessible |||
    kUnweighted ||| kUnweightedCycles) &&& inprops
  if inprops &&& kAccessible ≠ 0 then
    outprops ||| ((kCyclic ||| kNotCoAccessible ||| kWeighted ||| kWeightedCycles) &&& inprops)
  else outprops

def complementProperties (inprops : BitVec 64) : BitVec 64 :=
  let outprops := kAcceptor ||| kUnweighted ||| kUnweightedCycles ||| kNoEpsilons |||
    kNoIEpsilons ||| kNoOEpsilons ||| kIDeterministic ||| kODeterministic ||| kAccessible
  let outprops := outprops |||
    ((kError ||| kILabelSorted ||| kOLabelSorted ||| kInitialCyclic) &&& inprops)
  if inprops &&& kAccessible ≠ 0 then
    outprops ||| (kNotILabelSorted ||| kNotOLabelSorted ||| kCyclic)
  else outprops

def composeProperties (inprops1 inprops2 : BitVec 64) : BitVec 64 :=
  let outprops := kError &&& (inprops1 ||| inprops2)
  let outprops :=
    if inprops1 &&& kAcceptor ≠ 0 ∧ inprops2 &&& kAcceptor ≠ 0 then
      let outprops := outprops ||| (kAcceptor ||| kAccessible)
      let outprops := outprops ||| ((kNoEpsilons ||| kNoIEpsilons ||| kNoOEpsilons |||
        kAcyclic ||| kInitialAcyclic) &&& inprops1 &&& inprops2)
      let outprops :=
        if kNoIEpsilons &&& inprops1 &&& inprops2 ≠ 0 then outprops ||| ((kIDeterministic |||
          kODeterministic) &&& inprops1 &&& inprops2)
        else outprops
      outprops
    else
      let outprops := outprops ||| kAccessible
      let outprops := outprops ||| ((kAcceptor ||| kNoIEpsilons ||| kAcyclic |||
        kInitialAcyclic) &&& inprops1 &&& inprops2)
      let outprops :=
        if kNoIEpsilons &&& inprops1 &&& inprops2 ≠ 0 then outprops |||
          (kIDeterministic &&& inprops1 &&& inprops2)
        else outprops
      outprops
  outprops

def determinizeProperties (inprops : BitVec 64)
    (hasSubsequentialLabel distinctPsubsequentialLabels : Bool) : BitVec 64 :=
  let outprops := kAccessible
  let outprops :=
    if kAcceptor &&& inprops ≠ 0 ∨
        (kNoIEpsilons &&& inprops ≠ 0 ∧ distinctPsubsequentialLabels) ∨
        (hasSubsequentialLabel ∧ distinctPsubsequentialLabels) then
      outprops ||| kIDeterministic
    else outprops
  let outprops := outprops ||| ((kError ||| kAcceptor ||| kAcyclic ||| kInitialAcyclic |||
    kCoAccessible ||| kString) &&& inprops)
  let outprops :=
    if inprops &&& kNoIEpsilons ≠ 0 ∧ distinctPsubsequentialLabels then outprops |||
      (kNoEpsilons &&& inprops)
    else outprops
  let outprops :=
    if inprops &&& kAccessible ≠ 0 then outprops ||| ((kIEpsilons ||| kOEpsilons |||
      kCyclic) &&& inprops)
    else outprops
  let outprops :=
    if inprops &&& kAcceptor ≠ 0 then outprops ||| ((kNoIEpsilons ||| kNoOEpsilons) &&& inprops)
    else outprops
  let outprops :=
    if inprops &&& kNoIEpsilons ≠ 0 ∧ hasSubsequentialLabel then outprops ||| kNoIEpsilons
    else outprops
  outprops

/- What the calls and returns of a replacement put on its arcs, and what its FSTs have in common. -/
structure ReplaceTraits where
  epsilonOnCall : Bool
  epsilonOnReturn : Bool
  outEpsilonOnCall : Bool
  outEpsilonOnReturn : Bool
  replaceTransducer : Bool
  noEmptyFsts : Bool
  allILabelSorted : Bool
  allOLabelSorted : Bool
  allNegativeOrDense : Bool

def replaceProperties (inprops : List (BitVec 64)) (root : ℕ) (traits : ReplaceTraits) :
    BitVec 64 :=
  if inprops = [] then kNullProperties
  else
    let rootProps := (inprops[root]?).getD 0
    let outprops := inprops.foldl (fun outprops inprop => outprops ||| (kError &&& inprop)) 0
    let accessProps := inprops.foldl
      (fun accessProps inprop => accessProps &&& (inprop &&& (kAccessible ||| kCoAccessible)))
      (if traits.noEmptyFsts then kAccessible ||| kCoAccessible else 0)
    let outprops :=
      if accessProps = kAccessible ||| kCoAccessible then
        let outprops := outprops ||| accessProps
        let outprops :=
          if rootProps &&& kInitialCyclic ≠ 0 then outprops ||| kInitialCyclic else outprops
        let props := inprops.foldl (fun props inprop =>
          (if traits.replaceTransducer then props ||| (kNotAcceptor &&& inprop) else props) |||
            ((kNonIDeterministic ||| kNonODeterministic ||| kEpsilons ||| kIEpsilons |||
              kOEpsilons ||| kWeighted ||| kWeightedCycles ||| kCyclic ||| kNotTopSorted |||
              kNotString) &&& inprop)) 0
        let outprops := outprops ||| props
        if inprops.all fun inprop => inprop &&& kString ≠ 0 then outprops ||| kString
        else outprops
      else outprops
    let all := fun bit => inprops.all fun inprop => inprop &&& bit ≠ 0
    let othersNoIEpsilons := inprops.zipIdx.all fun entry =>
      entry.2 = root || entry.1 &&& kNoIEpsilons ≠ 0
    let acceptor := !traits.replaceTransducer && all kAcceptor
    let ideterministic := (!traits.epsilonOnCall && traits.epsilonOnReturn) &&
      all kIDeterministic && othersNoIEpsilons
    let noIEpsilons := (!traits.epsilonOnCall && !traits.epsilonOnReturn) && all kNoIEpsilons
    let outprops := if acceptor then outprops ||| kAcceptor else outprops
    let outprops := if ideterministic then outprops ||| kIDeterministic else outprops
    let outprops := if noIEpsilons then outprops ||| kNoIEpsilons else outprops
    let outprops := if all kAcyclic then outprops ||| kAcyclic else outprops
    let outprops := if all kUnweighted then outprops ||| kUnweighted else outprops
    let outprops :=
      if rootProps &&& kInitialAcyclic ≠ 0 then outprops ||| kInitialAcyclic else outprops
    let outprops :=
      if traits.allILabelSorted && traits.epsilonOnReturn &&
          (!traits.epsilonOnCall || traits.allNegativeOrDense) then outprops ||| kILabelSorted
      else outprops
    if traits.allOLabelSorted && traits.outEpsilonOnReturn &&
        (!traits.outEpsilonOnCall || traits.allNegativeOrDense) then outprops ||| kOLabelSorted
    else outprops

end Sicada

namespace Sicada

namespace PropertyBits

variable {L W : Type} [ArcLabel L] [Zero W] [One W]

def Held (props bits : BitVec 64) : Prop := props &&& bits ≠ 0

instance (props bits : BitVec 64) : Decidable (Held props bits) :=
  inferInstanceAs (Decidable (_ ≠ _))

section Bits

variable {x y b : BitVec 64}

theorem held_and (h : Held (x &&& y) b) : Held x b ∧ Held y b := by
  constructor
  · intro hx
    apply h
    rw [BitVec.and_assoc, BitVec.and_comm y b, ← BitVec.and_assoc, hx]
    exact BitVec.zero_and
  · intro hy
    apply h
    rw [BitVec.and_assoc, hy]
    exact BitVec.and_zero

theorem held_or (h : Held (x ||| y) b) : Held x b ∨ Held y b := by
  by_contra hnone
  simp only [Held, not_or, not_not] at hnone
  apply h
  rw [BitVec.and_or_distrib_right, hnone.1, hnone.2]
  rfl

/- A step in the computation of a mask: when it fires, some bits are set and then some
cleared. -/
structure Update where
  fires : Bool
  set : BitVec 64
  clear : BitVec 64

def Update.run (u : Update) (props : BitVec 64) : BitVec 64 :=
  if u.fires then (props ||| u.set) &&& ~~~u.clear else props

def runUpdates (us : List Update) (props : BitVec 64) : BitVec 64 :=
  us.foldl (fun props u => u.run props) props

/- A bit held at the end was set on the way, or was held before and cleared nowhere. -/
theorem held_runUpdates {us : List Update} (h : Held (runUpdates us x) b) :
    (∃ u ∈ us, u.fires = true ∧ Held u.set b) ∨
      (Held x b ∧ ∀ u ∈ us, u.fires = true → Held (~~~u.clear) b) := by
  induction us generalizing x with
  | nil => exact Or.inr ⟨h, by simp⟩
  | cons u us ih =>
    rcases ih h with ⟨v, hv, hset⟩ | ⟨hx, hclear⟩
    · exact Or.inl ⟨v, List.mem_cons_of_mem u hv, hset⟩
    · change Held (u.run x) b at hx
      unfold Update.run at hx
      by_cases hf : u.fires = true
      · rw [if_pos hf] at hx
        obtain ⟨hor, hnot⟩ := held_and hx
        rcases held_or hor with hold | hset
        · refine Or.inr ⟨hold, ?_⟩
          intro v hv hvf
          rcases List.mem_cons.mp hv with rfl | hv
          · exact hnot
          · exact hclear v hv hvf
        · exact Or.inl ⟨u, List.mem_cons_self, hf, hset⟩
      · rw [if_neg hf] at hx
        refine Or.inr ⟨hx, ?_⟩
        intro v hv hvf
        rcases List.mem_cons.mp hv with rfl | hv
        · exact absurd hvf hf
        · exact hclear v hv hvf

end Bits

section Masks

variable [DecidableEq W]

def labelUpdates (arc : Arc L W) : List Update :=
  [⟨arc.ilabel ≠ arc.olabel, kNotAcceptor, kAcceptor⟩,
    ⟨arc.ilabel = epsilon, kIEpsilons, kNoIEpsilons⟩,
    ⟨arc.ilabel = epsilon ∧ arc.olabel = epsilon, kEpsilons, kNoEpsilons⟩,
    ⟨arc.olabel = epsilon, kOEpsilons, kNoOEpsilons⟩]

def weightUpdate (weight : W) : Update := ⟨weight ≠ 0 ∧ weight ≠ 1, kWeighted, kUnweighted⟩

def setArcUpdates (oldArc newArc : Arc L W) : List Update :=
  [⟨oldArc.ilabel ≠ oldArc.olabel, 0, kNotAcceptor⟩,
    ⟨oldArc.ilabel = epsilon, 0, kIEpsilons⟩,
    ⟨oldArc.ilabel = epsilon ∧ oldArc.olabel = epsilon, 0, kEpsilons⟩,
    ⟨oldArc.olabel = epsilon, 0, kOEpsilons⟩,
    ⟨oldArc.weight ≠ 0 ∧ oldArc.weight ≠ 1, 0, kWeighted⟩] ++
  labelUpdates newArc ++ [weightUpdate newArc.weight]

theorem setArcProperties_eq (props : BitVec 64) (oldArc newArc : Arc L W) :
    setArcProperties props oldArc newArc = runUpdates (setArcUpdates oldArc newArc) props &&&
      (kSetArcProperties ||| kAcceptor ||| kNotAcceptor ||| kEpsilons ||| kNoEpsilons |||
        kIEpsilons ||| kNoIEpsilons ||| kOEpsilons ||| kNoOEpsilons ||| kWeighted |||
        kUnweighted) := by
  by_cases h1 : oldArc.ilabel = epsilon <;> by_cases h2 : oldArc.olabel = epsilon <;>
    by_cases h3 : newArc.ilabel = epsilon <;> by_cases h4 : newArc.olabel = epsilon <;>
      simp [setArcProperties, setArcUpdates, labelUpdates, weightUpdate, runUpdates, Update.run,
        isTrivialWeight, h1, h2, h3, h4]

def addArcUpdates (s : ℕ) (arc : Arc L W) (prevArc : Option (Arc L W)) : List Update :=
  labelUpdates arc ++
  [⟨prevArc.any fun prev => arc.ilabel < prev.ilabel, kNotILabelSorted, kILabelSorted⟩,
    ⟨prevArc.any fun prev => arc.olabel < prev.olabel, kNotOLabelSorted, kOLabelSorted⟩,
    weightUpdate arc.weight,
    ⟨arc.nextstate ≤ s, kNotTopSorted, kTopSorted⟩]

def addArcMask : BitVec 64 :=
  kAddArcProperties ||| kAcceptor ||| kNoEpsilons ||| kNoIEpsilons ||| kNoOEpsilons |||
    kILabelSorted ||| kOLabelSorted ||| kUnweighted ||| kTopSorted

theorem addArcProperties_eq (props : BitVec 64) (s : ℕ) (arc : Arc L W)
    (prevArc : Option (Arc L W)) :
    addArcProperties props s arc prevArc =
      let out := runUpdates (addArcUpdates s arc prevArc) props &&& addArcMask
      if out &&& kTopSorted ≠ 0 then out ||| (kAcyclic ||| kInitialAcyclic) else out := by
  cases prevArc <;> by_cases h1 : arc.ilabel = epsilon <;> by_cases h2 : arc.olabel = epsilon <;>
    simp [addArcProperties, addArcUpdates, addArcMask, labelUpdates, weightUpdate, runUpdates,
      Update.run, h1, h2]

end Masks

end PropertyBits

end Sicada
