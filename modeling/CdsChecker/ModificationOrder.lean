import CdsChecker.Execution

/-! The modification-order constraints of a read or a write. Which edges a call adds does not
depend on the graph, so the scan that finds them is separate from their insertion. -/
namespace CdsChecker
namespace Execution

/-- The SC fences compared with the actions of one thread. -/
structure Fences where
  fenceLocal : Option ActionId
  fenceThreadLocal : Option ActionId
  fenceThreadBefore : Option ActionId

def beforeFence (e : Execution) (act : ActionId) (fence : Option ActionId) : Option ActionId :=
  fence.filter fun f => e.before act f

/-- The fence branches for a write of another action's thread, statements 5, 4 and 6 in this
order. -/
def readFenceRule (e : Execution) (curr act : ActionId) (fences : Fences) : Option MoRule :=
  if !(e.acts act).isWrite then none
  else
    match (if (e.acts curr).isSeqcst then e.beforeFence act fences.fenceThreadLocal else none) with
    | some x => some (.statement5 x)
    | none =>
      match (if (e.acts act).isSeqcst then e.beforeFence act fences.fenceLocal else none) with
      | some y => some (.statement4 y)
      | none =>
        match e.beforeFence act fences.fenceThreadBefore,fences.fenceLocal with
        | some x,some y => some (.statement6 x y)
        | _,_ => none

/-- The store or promise that an earlier read observed. A read of neither would add an edge from
`NULL`. -/
def observed (e : Execution) (act : ActionId) : Result GraphObj :=
  match (e.acts act).readsFrom,(e.acts act).readsFromPromise with
  | some rf,_ => .ok (.action rf)
  | none,some promise => .ok (.promise promise)
  | none,none => .error .assertion

/-- The actions of one thread, newest first, up to the one that gives the edge for this
thread. -/
def readScan (e : Execution) (curr : ActionId) (rf : GraphObj) (fences : Fences) :
    List ActionId → Result (Option MoEdge)
  | [] => .ok none
  | act :: rest =>
    if (e.acts act).isAnnotated then readScan e curr rf fences rest
    else if act = curr then readScan e curr rf fences rest
    else if .action act = rf then
      if e.happensBefore act curr then .ok none else readScan e curr rf fences rest
    else
      match e.readFenceRule curr act fences with
      | some rule => .ok (some ⟨.action act,rf,rule⟩)
      | none =>
        if e.happensBefore act curr then
          if (e.acts act).isWrite then .ok (some ⟨.action act,rf,.happensBefore⟩)
          else do
            let prevrf ← e.observed act
            pure (if prevrf = rf then none else some ⟨prevrf,rf,.happensBefore⟩)
        else readScan e curr rf fences rest

/-- The SC fences for thread `i` in `r_modification_order`. -/
def readFences (e : Execution) (curr : ActionId) (i : ThreadId) : Fences :=
  let fenceLocal := e.getLastSeqCstFence (e.acts curr).tid none
  { fenceLocal := fenceLocal
    fenceThreadLocal := if i ≠ (e.acts curr).tid then e.getLastSeqCstFence i none else none
    fenceThreadBefore := fenceLocal.bind fun f => e.getLastSeqCstFence i (some f) }

/-- In `w_modification_order` only statement 7 applies, and only to other threads. -/
def writeFences (e : Execution) (curr : ActionId) (i : ThreadId) : Fences :=
  let fenceLocal := e.getLastSeqCstFence (e.acts curr).tid none
  { fenceLocal := fenceLocal
    fenceThreadLocal := none
    fenceThreadBefore :=
      if i ≠ (e.acts curr).tid then fenceLocal.bind fun f => e.getLastSeqCstFence i (some f)
      else none }

def writeFenceRule (e : Execution) (act : ActionId) (fences : Fences) : Option MoRule :=
  if !(e.acts act).isWrite then none
  else
    match e.beforeFence act fences.fenceThreadBefore,fences.fenceLocal with
    | some x,some y => some (.statement7 x y)
    | _,_ => none

/-- The same scan for a write. An action that is neither a write nor a read ends it without an
edge. -/
def writeScan (e : Execution) (curr : ActionId) (fences : Fences) :
    List ActionId → Result (Option MoEdge)
  | [] => .ok none
  | act :: rest =>
    if act = curr then
      -- an RMW that read from a store has its edges from the read
      if (e.acts curr).isRmw && (e.acts curr).readsFrom.isSome then .ok none
      else writeScan e curr fences rest
    else
      match e.writeFenceRule act fences with
      | some rule => .ok (some ⟨.action act,.action curr,rule⟩)
      | none =>
        if e.happensBefore act curr then
          if (e.acts act).isWrite then .ok (some ⟨.action act,.action curr,.happensBefore⟩)
          else if (e.acts act).isRead then do
            let prevrf ← e.observed act
            pure (some ⟨prevrf,.action curr,.happensBefore⟩)
          else .ok none
        else writeScan e curr fences rest

/-- A scan of every thread's actions on a location, in the order of the threads. -/
def scanThreads (scan : ThreadId → List ActionId → Result (Option MoEdge)) :
    ThreadId → List (List ActionId) → Result (List MoEdge)
  | _,[] => .ok []
  | i,list :: lists => do
    let edge ← scan i list.reverse
    let edges ← scanThreads scan (i + 1) lists
    pure (edge.toList ++ edges)

/-- Promises that only the current action's thread can keep come after it. -/
def exclusiveEdges (e : Execution) (curr : ActionId) (x : GraphObj) : List MoEdge :=
  (e.promises.filter fun p => e.isCompatibleExclusive p curr).map fun p =>
    ⟨x,.promise p,.exclusivePromise⟩

def readEdges (e : Execution) (curr : ActionId) (rf : GraphObj) : Result (List MoEdge) := do
  assert (e.acts curr).isRead
  let edges ← scanThreads (fun i => e.readScan curr rf (e.readFences curr i)) 0
    (e.objThrdMap (e.acts curr).location)
  pure (edges ++ e.exclusiveEdges curr rf)

def lastSeqCstEdge (e : Execution) (curr : ActionId) : List MoEdge :=
  if (e.acts curr).isSeqcst then
    ((e.getLastSeqCstWrite curr).map fun w =>
      (⟨.action w,.action curr,.lastSeqCstWrite⟩ : MoEdge)).toList
  else []

def writeEdges (e : Execution) (curr : ActionId) : Result (List MoEdge) := do
  assert (e.acts curr).isWrite
  let edges ← scanThreads (fun i => e.writeScan curr (e.writeFences curr i)) 0
    (e.objThrdMap (e.acts curr).location)
  pure (e.lastSeqCstEdge curr ++ edges ++ e.exclusiveEdges curr (.action curr))

/-- The calls of `addEdge`, and whether some edge was new. -/
def addEdges (g : CycleGraph) : List MoEdge → Result (CycleGraph × Bool)
  | [] => .ok (g,false)
  | edge :: edges => do
    let (g,added) ← g.addEdge edge.source edge.target
    let (g,more) ← addEdges g edges
    pure (g,added || more)

def moCall (e : Execution) (curr : ActionId) (target : GraphObj) (edges : List MoEdge) : MoCall :=
  { acts := e.acts,fences := e.objMap .fence,curr := curr,target := target,edges := edges }

def insertEdges (e : Execution) (curr : ActionId) (target : GraphObj) (edges : List MoEdge) :
    Result (Execution × Bool) := do
  let (g,added) ← addEdges e.moGraph edges
  pure ({ e with moGraph := g,moCalls := e.moCall curr target edges :: e.moCalls },added)

def rModificationOrder (e : Execution) (curr : ActionId) (rf : GraphObj) :
    Result (Execution × Bool) := do
  let edges ← e.readEdges curr rf
  e.insertEdges curr rf edges

/-- The future values that a write offers to earlier reads go to the nodes of those reads, for
later executions, and are left out. -/
def wModificationOrder (e : Execution) (curr : ActionId) : Result (Execution × Bool) := do
  let edges ← e.writeEdges curr
  e.insertEdges curr (.action curr) edges

def startChanges (e : Execution) : Result Execution := do
  let g ← e.moGraph.startChanges
  pure { e with moGraph := g }

def commitChanges (e : Execution) : Execution := { e with moGraph := e.moGraph.commitChanges }

def rollbackChanges (e : Execution) : Execution :=
  { e with moGraph := e.moGraph.rollbackChanges }

/-! ### May-read-from -/

/-- Whether the constraints of a read from `rf` keep the execution feasible. -/
def tryRead (e : Execution) (curr : ActionId) (rf : GraphObj) : Result (Execution × Bool) := do
  let e ← e.startChanges
  let (e,_) ← e.rModificationOrder curr rf
  pure (e.rollbackChanges,!e.isInfeasible)

/-- A seq_cst read may read from one seq_cst write only, and from nothing that happens before
it. -/
def allowRead (e : Execution) (curr act : ActionId) (lastScWrite : Option ActionId) : Bool :=
  !((e.acts curr).isSeqcst &&
    ((e.acts act).isSeqcst || lastScWrite.any fun w => e.happensBefore act w) &&
      some act != lastScWrite)

/-- The writes of one thread, newest first, up to the first that happens before the read. -/
def pastReads (curr : ActionId) (lastScWrite : Option ActionId) :
    List ActionId → Execution → Result (Execution × List ActionId)
  | [],e => .ok (e,[])
  | act :: rest,e =>
    if !(e.acts act).isWrite || act == curr then pastReads curr lastScWrite rest e
    else do
      let (e,feasible) ←
        if e.allowRead curr act lastScWrite then e.tryRead curr (.action act)
        else pure (e,false)
      let (e,more) ←
        if e.happensBefore act curr then pure (e,[])
        else pastReads curr lastScWrite rest e
      pure (e,if feasible then act :: more else more)

def pastReadsThreads (curr : ActionId) (lastScWrite : Option ActionId) :
    List (List ActionId) → Execution → Result (Execution × List ActionId)
  | [],e => .ok (e,[])
  | list :: lists,e => do
    let (e,reads) ← pastReads curr lastScWrite list.reverse e
    let (e,more) ← pastReadsThreads curr lastScWrite lists e
    pure (e,reads ++ more)

def promiseReads (curr : ActionId) : List PromiseId → Execution →
    Result (Execution × List PromiseId)
  | [],e => .ok (e,[])
  | p :: ps,e => do
    let (e,feasible) ←
      if (e.proms p).readers.head?.any fun r => (e.acts r).sameVar (e.acts curr) then
        e.tryRead curr (.promise p)
      else pure (e,false)
    let (e,more) ← promiseReads curr ps e
    pure (e,if feasible then p :: more else more)

/-- The stores and promises that a read may read from. -/
def buildMayReadFrom (e : Execution) (curr : ActionId) :
    Result (Execution × List ActionId × List PromiseId) := do
  assert (e.acts curr).isRead
  let lastScWrite := if (e.acts curr).isSeqcst then e.getLastSeqCstWrite curr else none
  let (e,past) ← pastReadsThreads curr lastScWrite (e.objThrdMap (e.acts curr).location) e
  let (e,promises) ← promiseReads curr e.promises e
  if past.isEmpty && promises.isEmpty then
    pure ({ e with noValidReads := true }.setAssert,past,promises)
  else pure (e,past,promises)

end Execution
end CdsChecker
