import CdsChecker.Basic
import CdsChecker.Library.OrderGraph
import CdsChecker.Library.Worklist

/-! The modification-order graph: nodes with forward and back edge lists, the two lookup
tables, and the undo logs. Nodes are allocated from a heap and never freed. -/
namespace CdsChecker

/-- A node stands for one write or, while its `action` is unset, for a promised value. -/
structure CycleNode where
  action : Option ActionId := none
  promise : Option PromiseId := none
  edges : List NodeId := []
  backEdges : List NodeId := []
  hasRMW : Option NodeId := none
  deriving DecidableEq, Repr

/-- The objects that can have a node, the template parameters of `addEdge`. -/
inductive GraphObj
  | action (a : ActionId)
  | promise (p : PromiseId)
  deriving DecidableEq, Repr

structure CycleGraph where
  node : NodeId → CycleNode
  numNodes : ℕ
  actionToNode : ActionId → Option NodeId
  promiseToNode : PromiseId → Option NodeId
  hasCycles : Bool
  oldCycles : Bool
  rollbackvector : List NodeId
  rmwrollbackvector : List NodeId

namespace CycleNode

def isPromise (n : CycleNode) : Bool := n.action.isNone

/-- The object a node stands for. -/
def obj (n : CycleNode) : Option GraphObj :=
  match n.action with
  | some a => some (.action a)
  | none => n.promise.map .promise

def ofObj : GraphObj → CycleNode
  | .action a => { action := some a }
  | .promise p => { promise := some p }

end CycleNode

namespace CycleGraph

def empty : CycleGraph where
  node := fun _ => {}
  numNodes := 0
  actionToNode := fun _ => none
  promiseToNode := fun _ => none
  hasCycles := false
  oldCycles := false
  rollbackvector := []
  rmwrollbackvector := []

def setNode (g : CycleGraph) (n : NodeId) (v : CycleNode) : CycleGraph :=
  { g with node := Function.update g.node n v }

def modifyNode (g : CycleGraph) (n : NodeId) (f : CycleNode → CycleNode) : CycleGraph :=
  g.setNode n (f (g.node n))

def getNodeNoCreate (g : CycleGraph) : GraphObj → Option NodeId
  | .action a => g.actionToNode a
  | .promise p => g.promiseToNode p

def putNode (g : CycleGraph) (x : GraphObj) (n : NodeId) : CycleGraph :=
  match x with
  | .action a => { g with actionToNode := Function.update g.actionToNode a (some n) }
  | .promise p => { g with promiseToNode := Function.update g.promiseToNode p (some n) }

/-- `HashTable::put` asserts that its key is not `NULL`. -/
def erasePromiseNode (g : CycleGraph) : Option PromiseId → Result CycleGraph
  | none => .error .assertion
  | some p => .ok { g with promiseToNode := Function.update g.promiseToNode p none }

/-- Gets the node of an object, allocating it when there is none. -/
def getNode (g : CycleGraph) (x : GraphObj) : CycleGraph × NodeId :=
  match g.getNodeNoCreate x with
  | some n => (g,n)
  | none =>
    (({ g with numNodes := g.numNodes + 1 }.setNode g.numNodes (.ofObj x)).putNode x g.numNodes,
      g.numNodes)

def getRMW (g : CycleGraph) (n : NodeId) : Option NodeId := (g.node n).hasRMW

def pushEdge (g : CycleGraph) (fromnode tonode : NodeId) : CycleGraph :=
  (g.modifyNode fromnode fun v => { v with edges := v.edges ++ [tonode] }).modifyNode tonode
    fun v => { v with backEdges := v.backEdges ++ [fromnode] }

/-- `CycleNode::addEdge`: false when the edge exists already. -/
def nodeAddEdge (g : CycleGraph) (fromnode tonode : NodeId) : CycleGraph × Bool :=
  if tonode ∈ (g.node fromnode).edges then (g,false) else (g.pushEdge fromnode tonode,true)

/-- `CycleNode::removeEdge`: pop the newest forward edge and its back edge. -/
def removeEdge (g : CycleGraph) (n : NodeId) : CycleGraph × Option NodeId :=
  match (g.node n).edges.getLast? with
  | none => (g,none)
  | some ret =>
    ((g.modifyNode n fun v => { v with edges := v.edges.dropLast }).modifyNode ret
      fun v => { v with backEdges := v.backEdges.erase n },some ret)

/-- `CycleNode::removeBackEdge`: pop the newest back edge and its forward edge. -/
def removeBackEdge (g : CycleGraph) (n : NodeId) : CycleGraph × Option NodeId :=
  match (g.node n).backEdges.getLast? with
  | none => (g,none)
  | some ret =>
    ((g.modifyNode n fun v => { v with backEdges := v.backEdges.dropLast }).modifyNode ret
      fun v => { v with edges := v.edges.erase n },some ret)

/-- `CycleNode::setRMW`: true when another RMW already reads from the node. -/
def setRMW (g : CycleGraph) (n rmw : NodeId) : CycleGraph × Bool :=
  if (g.getRMW n).isSome then (g,true)
  else (g.modifyNode n fun v => { v with hasRMW := some rmw },false)

def clearRMW (g : CycleGraph) (n : NodeId) : CycleGraph :=
  g.modifyNode n fun v => { v with hasRMW := none }

/-- The private `checkReachable`, a search from one node to another. -/
def checkReachableNode (g : CycleGraph) (fromnode tonode : NodeId) : Bool :=
  (Worklist.visit (fun n => (g.node n).edges) (fun n => n == tonode) (g.numNodes + 1)
    [fromnode] [fromnode]).2

def checkReachable (g : CycleGraph) (x y : GraphObj) : Bool :=
  match g.getNodeNoCreate x,g.getNodeNoCreate y with
  | some fromnode,some tonode => g.checkReachableNode fromnode tonode
  | _,_ => false

/-- Whether the promise is reached, and the actions met on the way, whose threads are
eliminated. A write without a node is the key `NULL` of `discovered`. -/
def checkPromise (g : CycleGraph) (fromact : ActionId) (p : PromiseId) :
    Result (Bool × List ActionId) :=
  match g.actionToNode fromact with
  | none => .error .assertion
  | some fromnode =>
    let r := Worklist.visit (fun n => (g.node n).edges) (fun n => (g.node n).promise == some p)
      (g.numNodes + 1) [fromnode] [fromnode]
    let met := if r.2 then r.1.dropLast else r.1
    .ok (r.2,met.filterMap fun n => (g.node n).action)

def checkForCycles (g : CycleGraph) : Bool := g.hasCycles

/-- Insert one edge; a new one is logged and searched for a cycle unless one is known. -/
def insertEdge (g : CycleGraph) (fromnode tonode : NodeId) : CycleGraph × Bool :=
  match g.nodeAddEdge fromnode tonode with
  | (_,false) => (g,false)
  | (g',true) =>
    ({ g' with
        rollbackvector := g'.rollbackvector ++ [fromnode]
        hasCycles := g'.hasCycles || g'.checkReachableNode tonode fromnode },true)

/-- The loop of `addNodeEdge` along the RMW chain, up to `tonode` or the chain's end. A walk
over more nodes than the heap holds never ends. -/
def followRMW (g : CycleGraph) (tonode rmwnode : NodeId) : Result NodeId :=
  match OrderGraph.walk g.getRMW tonode (g.numNodes + 1) rmwnode with
  | some last => .ok last
  | none => .error .diverges

def addNodeEdge (g : CycleGraph) (fromnode tonode : NodeId) : Result (CycleGraph × Bool) :=
  match g.insertEdge fromnode tonode with
  | (_,false) => .ok (g,false)
  | (g,true) =>
    match g.getRMW fromnode with
    | none => .ok (g,true)
    | some rmwnode => do
      let last ← g.followRMW tonode rmwnode
      -- the chain that meets `tonode` already orders it
      if last = tonode then pure (g,true)
      else pure ((g.insertEdge last tonode).1,true)

def addEdge (g : CycleGraph) (x y : GraphObj) : Result (CycleGraph × Bool) :=
  let (g,fromnode) := g.getNode x
  let (g,tonode) := g.getNode y
  g.addNodeEdge fromnode tonode

/-- The unchecked transfer loop of `addRMWEdge`. -/
def transferEdges (g : CycleGraph) (rmwnode : NodeId) : List NodeId → CycleGraph
  | [] => g
  | tonode :: rest =>
    if tonode = rmwnode then transferEdges g rmwnode rest
    else
      match g.nodeAddEdge rmwnode tonode with
      | (_,false) => transferEdges g rmwnode rest
      | (g',true) =>
        transferEdges { g' with rollbackvector := g'.rollbackvector ++ [rmwnode] } rmwnode rest

/-- The first statements of `addRMWEdge`: claim the write, then transfer its edges. -/
def attachRMW (g : CycleGraph) (fromnode rmwnode : NodeId) : CycleGraph :=
  let g :=
    match g.setRMW fromnode rmwnode with
    | (g,true) => { g with hasCycles := true }
    | (g,false) => { g with rmwrollbackvector := g.rmwrollbackvector ++ [fromnode] }
  g.transferEdges rmwnode (g.node fromnode).edges

def addRMWEdge (g : CycleGraph) (x : GraphObj) (rmw : ActionId) : Result CycleGraph := do
  let (g,fromnode) := g.getNode x
  let (g,rmwnode) := g.getNode (.action rmw)
  assert (g.getRMW rmwnode).isNone
  let r ← (g.attachRMW fromnode rmwnode).addNodeEdge fromnode rmwnode
  pure r.1

def startChanges (g : CycleGraph) : Result CycleGraph := do
  assert g.rollbackvector.isEmpty
  assert g.rmwrollbackvector.isEmpty
  assert (g.oldCycles == g.hasCycles)
  pure g

def commitChanges (g : CycleGraph) : CycleGraph :=
  { g with rollbackvector := [],rmwrollbackvector := [],oldCycles := g.hasCycles }

def rollbackChanges (g : CycleGraph) : CycleGraph :=
  let g' := g.rollbackvector.foldl (fun g n => (g.removeEdge n).1) g
  let g' := g.rmwrollbackvector.foldl clearRMW g'
  { g' with hasCycles := g.oldCycles,rollbackvector := [],rmwrollbackvector := [] }

/-- Move the newest back edges of the promise node to the write node, until the promise
node has none left or a cycle appears. -/
def transferBackEdges (w p : NodeId) : ℕ → CycleGraph → Result (CycleGraph × Bool)
  | 0,g => .ok (g,true)
  | n + 1,g =>
    match g.removeBackEdge p with
    | (g,none) => .ok (g,true)
    | (g,some back) =>
      if back = w then transferBackEdges w p n g
      else do
        let r ← g.addNodeEdge back w
        if r.1.hasCycles then pure (r.1,false) else transferBackEdges w p n r.1

/-- The same for the forward edges. -/
def transferForwardEdges (w p : NodeId) : ℕ → CycleGraph → Result (CycleGraph × Bool)
  | 0,g => .ok (g,true)
  | n + 1,g =>
    match g.removeEdge p with
    | (g,none) => .ok (g,true)
    | (g,some forward) =>
      if forward = w then transferForwardEdges w p n g
      else do
        let r ← g.addNodeEdge w forward
        if r.1.hasCycles then pure (r.1,false) else transferForwardEdges w p n r.1

/-- The RMW of the promise node moves to the write node, unless that has another one. -/
def transferRMW (g : CycleGraph) (w p : NodeId) : CycleGraph × Bool :=
  match g.getRMW p with
  | none => (g,true)
  | some rmw =>
    if g.getRMW w = some rmw then (g,true)
    else
      match g.setRMW w rmw with
      | (g,true) => (g,false)
      | (g,false) => (g,true)

/-- What `CycleGraph` asks of a promise about the write that may fulfil it. -/
structure PromiseTests where
  isCompatible : PromiseId → ActionId → Bool
  sameValue : PromiseId → ActionId → Bool

def mergeNodes (tests : PromiseTests) (g : CycleGraph) (w p : NodeId) :
    Result (CycleGraph × Bool) := do
  assert !(g.node w).isPromise
  assert (g.node p).isPromise
  match (g.node p).promise,(g.node w).action with
  | some promise,some act =>
    if !tests.isCompatible promise act || !tests.sameValue promise act then pure (g,false)
    else
      match g.transferRMW w p with
      | (g,false) => pure (g,false)
      | (g,true) => do
        let (g,ok) ← transferBackEdges w p (g.node p).backEdges.length g
        if !ok then pure (g,false)
        else do
          let (g,ok) ← transferForwardEdges w p (g.node p).edges.length g
          if !ok then pure (g,false)
          else do
            let g ← g.erasePromiseNode (some promise)
            pure (g,!g.hasCycles)
  | _,_ => .error .assertion

/-- `CycleNode::resolvePromise`: the promise node becomes the node of the write. -/
def nodeResolvePromise (tests : PromiseTests) (g : CycleGraph) (n : NodeId) (writer : ActionId) :
    Result CycleGraph := do
  assert (g.node n).isPromise
  assert (((g.node n).promise.map fun p => tests.isCompatible p writer).getD false)
  pure (g.modifyNode n fun v => { v with action := some writer,promise := none })

def resolvePromise (tests : PromiseTests) (g : CycleGraph) (promise : PromiseId)
    (writer : ActionId) : Result (CycleGraph × Bool) :=
  match g.promiseToNode promise with
  | none => .error .assertion
  | some p =>
    match g.actionToNode writer with
    | some w => mergeNodes tests g w p
    | none => do
      let g ← g.nodeResolvePromise tests p writer
      -- the node was converted already, so its `promise` field is `NULL` by now
      let g ← g.erasePromiseNode (g.node p).promise
      pure (g.putNode (.action writer) p,true)

/-! ### Runs -/

/-- The two ways to insert constraints. -/
inductive Edit
  | addEdge (x y : GraphObj)
  | addRMWEdge (x : GraphObj) (rmw : ActionId)
  deriving DecidableEq, Repr

inductive Change
  | edit (e : Edit)
  | startChanges
  | commitChanges
  | rollbackChanges
  deriving DecidableEq, Repr

/-- What a promise answers may change from call to call. -/
inductive Op
  | change (c : Change)
  | resolvePromise (tests : PromiseTests) (promise : PromiseId) (writer : ActionId)

def edit (g : CycleGraph) : Edit → Result CycleGraph
  | .addEdge x y => do
    let r ← g.addEdge x y
    pure r.1
  | .addRMWEdge x rmw => g.addRMWEdge x rmw

def change (g : CycleGraph) : Change → Result CycleGraph
  | .edit e => g.edit e
  | .startChanges => g.startChanges
  | .commitChanges => .ok g.commitChanges
  | .rollbackChanges => .ok g.rollbackChanges

def op (g : CycleGraph) : Op → Result CycleGraph
  | .change c => g.change c
  | .resolvePromise tests promise writer => do
    let r ← g.resolvePromise tests promise writer
    pure r.1

/-- A sequence of calls, up to the first that does not return. -/
def run {α : Type} (step : CycleGraph → α → Result CycleGraph) :
    CycleGraph → List α → Result CycleGraph
  | g,[] => .ok g
  | g,a :: l => do
    let g ← step g a
    run step g l

end CycleGraph
end CdsChecker
