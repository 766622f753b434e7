import CdsChecker.ProcessAction

/-! How an action enters the execution, and when it is enabled. -/
namespace CdsChecker

structure ExecutionParams where
  uninitvalue : ℕ := 0
  yieldblock : Bool := false
  bound : ℕ := 0
  deriving DecidableEq, Repr

def resizeUp {α : Type} (l : List α) (size : ℕ) (fill : α) : List α :=
  l ++ List.replicate (size - l.length) fill

namespace Execution

/-! ### Initialization -/

/-- The second part of an RMW completes the read of its thread. -/
def processRmw (e : Execution) (act : ModelAction) : Result (Execution × ActionId) :=
  match e.getLastAction act.tid with
  | none => .error .assertion
  | some lastread =>
    let e := e.modifyAct lastread fun a => a.processRmw act
    if !act.isRmw then .ok (e,lastread)
    else
      let source :=
        match (e.acts lastread).readsFrom with
        | some rf => some (GraphObj.action rf)
        | none => (e.acts lastread).readsFromPromise.map GraphObj.promise
      match source with
      | none => .error .assertion
      | some source => do
        let g ← e.moGraph.addRMWEdge source lastread
        pure ({ e with moGraph := g }.commitChanges,lastread)

def newAction (e : Execution) (act : ModelAction) : Execution × ActionId :=
  let seq := e.usedSequenceNumbers + 1
  let a := { act with
    seqNumber := seq
    lastFenceRelease := e.getLastFenceRelease act.tid }
  let a := a.createCv ((e.getParentAction act.tid).map e.acts)
  ({ e with
    acts := Function.update e.acts e.numActs a
    numActs := e.numActs + 1
    usedSequenceNumbers := seq },e.numActs)

def initializeCurrAction (e : Execution) (act : ModelAction) : Result (Execution × ActionId) :=
  if act.isRmwc || act.isRmw then e.processRmw act else .ok (e.newAction act)

/-! ### Lists -/

def pushObjThrd (e : Execution) (loc : Location) (act : ActionId) : Execution :=
  let tid := (e.acts act).tid
  let vec := e.objThrdMap loc
  let vec := if vec.length ≤ tid then resizeUp vec e.getNumThreads [] else vec
  { e with objThrdMap := Function.update e.objThrdMap loc (vec.modify tid fun l => l ++ [act]) }

def pushObj (e : Execution) (loc : Location) (act : ActionId) : Execution :=
  { e with objMap := Function.update e.objMap loc (e.objMap loc ++ [act]) }

/-- An action for the value of a variable that nothing has written yet, by the model thread. -/
def getUninitializedAction (params : ExecutionParams) (e : Execution) (loc : Location) :
    Execution × ActionId :=
  let a : ModelAction := {
    type := .atomicUninit
    order := .relaxed
    location := loc
    value := params.uninitvalue
    tid := 0 }
  ({ e with
    acts := Function.update e.acts e.numActs (a.createCv none)
    numActs := e.numActs + 1 },e.numActs)

/-- The uninitialized action goes to the front of every list. -/
def pushUninit (e : Execution) (loc : Location) (uninit : ActionId) : Execution :=
  { e with
    objMap := Function.update e.objMap loc (uninit :: e.objMap loc)
    actionTrace := uninit :: e.actionTrace
    objThrdMap := Function.update e.objThrdMap loc
      ((e.objThrdMap loc).modify 0 fun l => uninit :: l)
    thrdLastAction := e.thrdLastAction.set 0 (some uninit) }

def setLast (e : Execution) (l : List (Option ActionId)) (act : ActionId) :
    List (Option ActionId) :=
  let tid := (e.acts act).tid
  (if l.length ≤ tid then resizeUp l e.getNumThreads none else l).set tid (some act)

/-- A hash table has no entry for the location `NULL`. -/
def addActionToLists (params : ExecutionParams) (e : Execution) (act : ActionId) :
    Result Execution := do
  let a := e.acts act
  assert (a.location != .null)
  let first := (e.objMap a.location).isEmpty && a.isAtomicVar
  let e := e.pushObj a.location act
  let e : Execution := { e with actionTrace := e.actionTrace ++ [act] }
  let e := e.pushObjThrd a.location act
  let e : Execution := { e with thrdLastAction := e.setLast e.thrdLastAction act }
  let e :=
    if first then
      let (e,uninit) := e.getUninitializedAction params a.location
      e.pushUninit a.location uninit
    else e
  let e : Execution :=
    if a.isFence && a.isRelease then
      { e with thrdLastFenceRelease := e.setLast e.thrdLastFenceRelease act }
    else e
  if a.isWait then do
    let m := Location.object a.value
    assert (a.value != 0)
    pure ((e.pushObj m act).pushObjThrd m act)
  else pure e

/-! ### Blocking -/

/-- The readers of one promise: whether the function returns there. -/
def blockingReaders (blocker waiting : ThreadId) (p : PromiseId) :
    List ActionId → Execution → Execution × Bool
  | [],e => (e,false)
  | reader :: rest,e =>
    if (e.acts reader).tid ≠ blocker then blockingReaders blocker waiting p rest e
    else
      match e.eliminateThread p waiting with
      | (e,true) => blockingReaders blocker waiting p rest { e with failedPromise := true }
      | (e,false) => (e,true)

def blockingPromises (blocker waiting : ThreadId) : List PromiseId → Execution → Execution
  | [],e => e
  | p :: ps,e =>
    if !(e.proms p).threadIsAvailable waiting then blockingPromises blocker waiting ps e
    else
      match blockingReaders blocker waiting p (e.proms p).readers e with
      | (e,true) => e
      | (e,false) => blockingPromises blocker waiting ps e

/-- A thread that waits for another one cannot keep a promise that thread reads from. -/
def threadBlockingCheckPromises (e : Execution) (blocker waiting : ThreadId) : Execution :=
  blockingPromises blocker waiting e.promises e

def isComplete (e : Execution) (t : ThreadId) : Bool :=
  e.threads[t]?.any fun th => th.state == .completed

def checkActionEnabled (params : ExecutionParams) (e : Execution) (act : ModelAction) :
    Execution × Bool :=
  if act.isLock then (e,(e.mutexes act.location).locked.isNone)
  else
    match act.getThreadOperand with
    | some blocking =>
      if e.isComplete blocking then (e,true)
      else (e.threadBlockingCheckPromises blocking act.tid,false)
    | none => (e,!(params.yieldblock && act.isYield))

def threadWaitingOn (e : Execution) (t : ThreadId) : Option ThreadId :=
  e.threads[t]?.bind e.waitingOn

/-- The walk of `is_waiting_on`, with as many steps as the first argument allows. -/
def isWaitingOnLoop (e : Execution) (t : ThreadId) : ℕ → Option ThreadId → Result Bool
  | _,none => .ok false
  | 0,some _ => .error .diverges
  | n + 1,some wait => if wait = t then .ok true else isWaitingOnLoop e t n (e.threadWaitingOn wait)

/-- A walk longer than the number of threads never ends. -/
def isWaitingOn (e : Execution) (thr t : ThreadId) : Result Bool :=
  e.isWaitingOnLoop t (e.getNumThreads + 1) (e.threadWaitingOn thr)

end Execution
end CdsChecker
