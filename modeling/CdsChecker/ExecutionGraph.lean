import CdsChecker.MethodCall

/-! The execution graph: method calls with the order of their ordering points. -/
namespace CdsChecker

/-- What `conflict` returns: 0, 1, -1 or `SELF_CYCLE`. -/
inductive Conflict
  | commute
  | before
  | after
  | selfCycle
  deriving DecidableEq, Repr

structure ExecutionGraph where
  acts : ActionId → ModelAction
  methods : Method → MethodCall
  methodList : List Method
  broken : Bool := false
  cyclic : Bool := false
  allowCyclic : Bool := false

namespace ExecutionGraph

def modify (g : ExecutionGraph) (m : Method) (f : MethodCall → MethodCall) : ExecutionGraph :=
  { g with methods := Function.update g.methods m (f (g.methods m)) }

/-! ### The order of two method calls -/

def conflictActions (act1 act2 : ModelAction) : Conflict :=
  if act1.happensBefore act2 then .before
  else if act2.happensBefore act1 then .after
  else if act1.isSeqcst && act2.isSeqcst then
    if act1.seqNumber < act2.seqNumber then .before else .after
  else .commute

/-- The two loops over the ordering points. -/
def conflictOPs (acts : ActionId → ModelAction) : List (ActionId × ActionId) → Conflict → Conflict
  | [],val => val
  | (act1,act2) :: pairs,val =>
    let res := conflictActions (acts act1) (acts act2)
    if res = .commute then conflictOPs acts pairs val
    else if val = .commute then conflictOPs acts pairs res
    else if val ≠ res then .selfCycle
    else conflictOPs acts pairs val

def conflictVal (g : ExecutionGraph) (m1 m2 : Method) : Conflict :=
  let call1 := g.methods m1
  let call2 := g.methods m2
  if call1.isStartMethod then .before
  else if call2.isFinishMethod then .before
  else if call1.orderingPoints.isEmpty || call2.orderingPoints.isEmpty then .commute
  else conflictOPs g.acts (call1.orderingPoints ×ˢ call2.orderingPoints) .commute

/-- A self cycle is noted in the graph. -/
def conflict (g : ExecutionGraph) (m1 m2 : Method) : Result (Conflict × ExecutionGraph) := do
  assert (m1 ≠ m2)
  let val := g.conflictVal m1 m2
  if val = .selfCycle then pure (val,{ g with cyclic := true,broken := g.broken || !g.allowCyclic })
  else pure (val,g)

/-! ### Building the edges -/

def addEdge (g : ExecutionGraph) (m1 m2 : Method) : ExecutionGraph :=
  (g.modify m1 fun c => { c with allNext := c.allNext.insert m2 }).modify m2
    fun c => { c with allPrev := c.allPrev.insert m1 }

def orderPair (m1 : Method) (g : ExecutionGraph) (m2 : Method) : Result ExecutionGraph := do
  let (val,g) ← g.conflict m1 m2
  match val with
  | .before => pure (g.addEdge m1 m2)
  | .after => pure (g.addEdge m2 m1)
  | .selfCycle => if g.allowCyclic then pure ((g.addEdge m1 m2).addEdge m2 m1) else pure g
  | .commute => pure g

/-- Each method call with those behind it in the list. -/
def orderMethods : List Method → ExecutionGraph → Result ExecutionGraph
  | [],g => .ok g
  | m1 :: ms,g => do
    let g ← ms.foldlM (orderPair m1) g
    orderMethods ms g

def addFakeEdges (startMethod finishMethod : Method) (g : ExecutionGraph) (m : Method) :
    ExecutionGraph :=
  (g.addEdge startMethod m).addEdge m finishMethod

/-- The start and the finish of the graph are new objects. -/
def addFakeMethods (startMethod finishMethod : Method) (g : ExecutionGraph) : ExecutionGraph :=
  let g := (g.modify startMethod fun _ => { name := .start }).modify finishMethod
    fun _ => { name := .finish }
  let g := g.addEdge startMethod finishMethod
  let g := g.methodList.foldl (addFakeEdges startMethod finishMethod) g
  { g with methodList := startMethod :: g.methodList ++ [finishMethod] }

def linkPrev (m : Method) (g : ExecutionGraph) (prevMethod : Method) : ExecutionGraph :=
  if (g.methods m).allPrev.disjoint (g.methods prevMethod).allNext then
    (g.modify m fun c => { c with prev := c.prev.insert prevMethod }).modify prevMethod
      fun c => { c with next := c.next.insert m }
  else g

def linkConcurrent (m : Method) (g : ExecutionGraph) (concur : Method) : ExecutionGraph :=
  if concur ≠ m ∧ concur ∉ (g.methods m).allPrev ∧ concur ∉ (g.methods m).allNext then
    g.modify m fun c => { c with concurrent := c.concurrent.insert concur }
  else g

def linkMethod (g : ExecutionGraph) (m : Method) : ExecutionGraph :=
  let g := (g.methods m).allPrev.toList.foldl (linkPrev m) g
  g.methodList.foldl (linkConcurrent m) g

/-! ### The assertions about the edges -/

def assertConflict (g : ExecutionGraph) (m1 m2 : Method) (expected : Conflict → Bool) :
    Result ExecutionGraph := do
  let (val,g) ← g.conflict m1 m2
  assert (expected val)
  pure g

/-- No other method call of the set is between. The pair is arranged for `conflict`. -/
def assertNoneBetween (arrange : Method → Method → Method × Method) (all : MethodSet) (x : Method)
    (g : ExecutionGraph) : Result ExecutionGraph :=
  all.toList.foldlM (fun g middle =>
    if middle = x then pure g
    else g.assertConflict (arrange x middle).1 (arrange x middle).2 (· ≠ .before)) g

/-- What is in `prev` or in `next` is in the set, with none between. -/
def assertSound (arrange : Method → Method → Method × Method) (direct all : MethodSet)
    (g : ExecutionGraph) : Result ExecutionGraph :=
  direct.toList.foldlM (fun g x => do
    assert (x ∈ all)
    assertNoneBetween arrange all x g) g

def findMiddle (arrange : Method → Method → Method × Method) (x : Method) :
    Bool × ExecutionGraph → Method → Result (Bool × ExecutionGraph)
  | (hasMiddle,g),middle =>
    if middle = x then .ok (hasMiddle,g)
    else do
      let (val,g) ← g.conflict (arrange x middle).1 (arrange x middle).2
      pure (hasMiddle || val == .before,g)

/-- What is in the set but not in `prev` or in `next` has one between. -/
def assertComplete (arrange : Method → Method → Method × Method) (direct all : MethodSet)
    (g : ExecutionGraph) : Result ExecutionGraph :=
  all.toList.foldlM (fun g x =>
    if x ∈ direct then pure g
    else do
      let (hasMiddle,g) ← all.toList.foldlM (findMiddle arrange x) (false,g)
      assert hasMiddle
      pure g) g

def assertMethod (g : ExecutionGraph) (m : Method) : Result ExecutionGraph := do
  let c := g.methods m
  let g ← c.allPrev.toList.foldlM
    (fun g prevMethod => g.assertConflict prevMethod m (· = .before)) g
  let g ← c.allNext.toList.foldlM
    (fun g nextMethod => g.assertConflict m nextMethod (· = .before)) g
  let g ← c.concurrent.toList.foldlM (fun g concur => g.assertConflict m concur (· = .commute)) g
  assert (1 + c.allPrev.toList.length + c.allNext.toList.length + c.concurrent.toList.length =
    g.methodList.length)
  let g ← g.assertSound (fun prev middle => (prev,middle)) c.prev c.allPrev
  let g ← g.assertComplete (fun prev middle => (prev,middle)) c.prev c.allPrev
  let g ← g.assertSound (fun next middle => (middle,next)) c.next c.allNext
  g.assertComplete (fun next middle => (middle,next)) c.next c.allNext

def assertEdges (g : ExecutionGraph) : Result ExecutionGraph := do
  assert (!g.cyclic)
  g.methodList.foldlM assertMethod g

/-! ### The justified method calls -/

/-- The walk up the first elements of the `prev` sets. -/
def findJustified (g : ExecutionGraph) (m : Method) : ℕ → Method → Result Method
  | 0,_ => .error .diverges
  | fuel + 1,justified =>
    match (g.methods justified).prev.toList with
    | [] => .error .assertion
    | first :: _ =>
      if (g.methods first).concurrent.disjoint (g.methods m).allPrev then .ok first
      else findJustified g m fuel first

def justifyMethod (fuel : ℕ) (g : ExecutionGraph) (m : Method) : Result ExecutionGraph := do
  let justified ← g.findJustified m fuel m
  assert (justified ≠ m)
  pure (g.modify m fun c => { c with justifiedMethod := some justified,justified := false })

/-- From the second method call on, behind the start. -/
def initializeJustifiedNode (fuel : ℕ) (g : ExecutionGraph) : Result ExecutionGraph :=
  g.methodList.tail.foldlM (justifyMethod fuel) g

/-- The edges without the checks of them. -/
def linkEdges (startMethod finishMethod : Method) (g : ExecutionGraph) : Result ExecutionGraph := do
  let g ← orderMethods g.methodList g
  let g := g.addFakeMethods startMethod finishMethod
  pure (g.methodList.foldl linkMethod g)

def buildEdges (fuel : ℕ) (startMethod finishMethod : Method) (g : ExecutionGraph) :
    Result ExecutionGraph := do
  let g ← g.linkEdges startMethod finishMethod
  let g ← if g.cyclic then pure g else g.assertEdges
  if g.cyclic then pure g else g.initializeJustifiedNode fuel

end ExecutionGraph
end CdsChecker
