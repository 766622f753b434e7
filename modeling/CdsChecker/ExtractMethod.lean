import CdsChecker.MethodCall

/-! Extracting the method calls from the annotations of a thread. -/
namespace CdsChecker

/-- `SPEC_ANALYSIS`, the value of the annotations that belong to a specification. -/
def specAnalysis : ℕ := 1

inductive SpecAnnotation
  | init
  | potentialOP (label : ℕ)
  | opDefine
  | opCheck (label : ℕ)
  | opClear
  | opClearDefine
  | interfaceBegin (name : ℕ)
  | interfaceEnd
  deriving DecidableEq, Repr

/-- The actions, and what the location of an annotation points to. -/
structure AnnotatedActions where
  acts : ActionId → ModelAction
  annotation : ActionId → SpecAnnotation

namespace AnnotatedActions

variable (e : AnnotatedActions)

def getAnnotation (act : ActionId) : Option SpecAnnotation :=
  if (e.acts act).isAnnotated && (e.acts act).value == specAnalysis then some (e.annotation act)
  else none

/-- The actions before the iterator, the last one first. -/
def findPrevAction (passed : List ActionId) : Option ActionId :=
  passed.find? fun act => !(e.acts act).isAnnotated

/-- `PotentialOP`. -/
structure PotentialOP where
  operation : ActionId
  label : ℕ

structure Extracting where
  m : MethodCall
  popList : List PotentialOP := []
  nestedLevel : ℕ := 0

def Extracting.addOrderingPoint (s : Extracting) (act : ActionId) : Extracting :=
  if act ∈ s.m.orderingPoints then s
  else { s with m := { s.m with orderingPoints := s.m.orderingPoints ++ [act] } }

def Extracting.clear (s : Extracting) : Extracting :=
  { s with popList := [],m := { s.m with orderingPoints := [] } }

/-- What one annotation does: it goes on, ends the method call, or marks the graph as broken. -/
inductive Turn
  | go (s : Extracting)
  | complete
  | broken

def extractTurn (passed : List ActionId) (s : Extracting) : SpecAnnotation → Result Turn
  | .potentialOP label =>
    match e.findPrevAction passed with
    | none => .ok .broken
    | some op => .ok (.go { s with popList := s.popList ++ [⟨op,label⟩] })
  | .opCheck label =>
    match s.popList.reverse.find? fun potentialOP => potentialOP.label == label with
    | none => .ok .broken
    | some potentialOP => .ok (.go (s.addOrderingPoint potentialOP.operation))
  | .opDefine =>
    match e.findPrevAction passed with
    | none => .ok .broken
    | some op => .ok (.go (s.addOrderingPoint op))
  | .opClear => .ok (.go s.clear)
  | .opClearDefine =>
    match e.findPrevAction passed with
    | none => .ok .broken
    | some op => .ok (.go (s.clear.addOrderingPoint op))
  | .interfaceBegin _ => .ok (.go { s with nestedLevel := s.nestedLevel + 1 })
  | .interfaceEnd =>
    if s.nestedLevel = 0 then .ok .complete
    else .ok (.go { s with nestedLevel := s.nestedLevel - 1 })
  | .init => .error .assertion

/-- The loop. It returns the method call and the iterator, also at the end of the list. -/
def extractLoop : List ActionId → List ActionId → Extracting →
    Result (Option (MethodCall × List ActionId × List ActionId))
  | passed,[],s => .ok (some (s.m,passed,[]))
  | passed,act :: rest,s =>
    match e.getAnnotation act with
    | none => extractLoop (act :: passed) rest s
    | some anno => do
      match ← e.extractTurn passed s anno with
      | .go s => extractLoop (act :: passed) rest s
      | .complete => pure (some (s.m,act :: passed,rest))
      | .broken => pure none

/-- The iterator is at the beginning annotation. -/
def extractMethod (passed : List ActionId) (act : ActionId) (name : ℕ) (rest : List ActionId) :
    Result (Option (MethodCall × List ActionId × List ActionId)) :=
  e.extractLoop (act :: passed) rest { m := { name := .interface name,begin := some act } }

/-- The flags and the list of the graph. -/
structure Nodes where
  methodList : List MethodCall := []
  broken : Bool := false
  noOrderingPoint : Bool := false

def buildNodesLoop : ℕ → List ActionId → List ActionId → Nodes → Result Nodes
  | _,_,[],g => .ok g
  | 0,_,_ :: _,_ => .error .diverges
  | fuel + 1,passed,act :: rest,g =>
    match e.getAnnotation act with
    | none => buildNodesLoop fuel (act :: passed) rest g
    | some (.interfaceBegin name) => do
      match ← e.extractMethod passed act name rest with
      | some (m,passed,rest) =>
        buildNodesLoop fuel passed rest {
          g with
          methodList := g.methodList ++ [m]
          noOrderingPoint := g.noOrderingPoint || m.orderingPoints.isEmpty }
      | none => pure { g with broken := true }
    | some .init => buildNodesLoop fuel (act :: passed) rest g
    | some _ => .ok { g with broken := true }

/-- Each turn goes on by one action at least. -/
def buildNodesFromThread (actions : List ActionId) : Result Nodes :=
  e.buildNodesLoop actions.length [] actions {}

end AnnotatedActions
end CdsChecker
