import CdsChecker.CycleGraph
import CdsChecker.Promise

/-! The state of one execution of the checked program. The scheduler's sleep sets and the node
stack are not part of it: a thread is enabled or not, and the choices of a node come as input. -/
namespace CdsChecker

inductive ThreadState
  | created
  | running
  | ready
  | blocked
  | completed
  deriving DecidableEq, Repr

structure Thread where
  modelThread : Bool := false
  parent : Option ThreadId := none
  creation : Option ActionId := none
  pending : Option ModelAction := none
  state : ThreadState := .created
  deriving DecidableEq, Repr

structure MutexState where
  locked : Option ThreadId := none
  allocTid : ThreadId := 0
  allocClock : ℕ := 0
  deriving DecidableEq, Repr

structure ReleaseSeq where
  acquire : ActionId
  read : ActionId
  rf : Option ActionId := none
  release : Option ActionId := none
  writes : List ActionId := []
  deriving DecidableEq, Repr

/-- Why an edge enters the modification order; the statements are those of C++11, section 29.3,
with the SC fences of the other thread and of the current one that are compared. -/
inductive MoRule
  | happensBefore
  | lastSeqCstWrite
  | exclusivePromise
  | statement4 (fenceLocal : ActionId)
  | statement5 (fenceThreadLocal : ActionId)
  | statement6 (fenceThreadBefore fenceLocal : ActionId)
  | statement7 (fenceThreadBefore fenceLocal : ActionId)
  deriving DecidableEq, Repr

structure MoEdge where
  source : GraphObj
  target : GraphObj
  rule : MoRule
  deriving DecidableEq, Repr

/-- A call of `r_modification_order` or `w_modification_order`: the actions and the fences as they
are at the call, the current action, what it reads from or the write itself, and the edges. -/
structure MoCall where
  acts : ActionId → ModelAction
  fences : List ActionId
  curr : ActionId
  target : GraphObj
  edges : List MoEdge

structure PromiseView where
  acts : ActionId → ModelAction
  proms : PromiseId → Promise
  promises : List PromiseId
  thrdLastAction : List (Option ActionId)

structure SyncCall where
  first : ActionId
  second : ActionId
  before : PromiseView
  after : PromiseView

/-- Actions and promises are allocated from heaps and never freed. The last three fields only
record what happens: the pairs for which `synchronize` returned true, all its calls, and the calls
that add edges to the modification order. -/
structure Execution where
  acts : ActionId → ModelAction
  numActs : ℕ
  proms : PromiseId → Promise
  numProms : ℕ
  threads : List Thread
  enabled : ThreadId → Bool
  actionTrace : List ActionId
  objMap : Location → List ActionId
  objThrdMap : Location → List (List ActionId)
  condvarWaitersMap : Location → List ActionId
  mutexes : Location → MutexState
  promises : List PromiseId
  pendingRelSeqs : List ReleaseSeq
  thrdLastAction : List (Option ActionId)
  thrdLastFenceRelease : List (Option ActionId)
  usedSequenceNumbers : ℕ
  moGraph : CycleGraph
  failedPromise : Bool
  hardFailedPromise : Bool
  tooManyReads : Bool
  noValidReads : Bool
  badSynchronization : Bool
  badScRead : Bool
  asserted : Bool
  bugs : ℕ
  synchronized : List (ActionId × ActionId)
  syncCalls : List SyncCall
  moCalls : List MoCall

namespace Execution

def init : Execution where
  acts := fun _ => { type := .atomicUninit,order := .relaxed,location := .null,tid := 0 }
  numActs := 0
  proms := fun _ => { fv := ⟨0,0,0⟩,readers := [] }
  numProms := 0
  threads := [{ modelThread := true,state := .ready },{}]
  enabled := fun t => t == 1
  actionTrace := []
  objMap := fun _ => []
  objThrdMap := fun _ => []
  condvarWaitersMap := fun _ => []
  mutexes := fun _ => {}
  promises := []
  pendingRelSeqs := []
  thrdLastAction := []
  thrdLastFenceRelease := []
  usedSequenceNumbers := 0
  moGraph := .empty
  failedPromise := false
  hardFailedPromise := false
  tooManyReads := false
  noValidReads := false
  badSynchronization := false
  badScRead := false
  asserted := false
  bugs := 0
  synchronized := []
  syncCalls := []
  moCalls := []

def happensBefore (e : Execution) (a b : ActionId) : Bool :=
  (e.acts a).happensBefore (e.acts b)

def before (e : Execution) (a b : ActionId) : Bool := (e.acts a).before (e.acts b)

def modifyAct (e : Execution) (a : ActionId) (f : ModelAction → ModelAction) : Execution :=
  { e with acts := Function.update e.acts a (f (e.acts a)) }

def modifyPromise (e : Execution) (p : PromiseId) (f : Promise → Promise) : Execution :=
  { e with proms := Function.update e.proms p (f (e.proms p)) }

def modifyThread (e : Execution) (t : ThreadId) (f : Thread → Thread) : Execution :=
  { e with threads := e.threads.modify t f }

def getNumThreads (e : Execution) : ℕ := e.threads.length

/-! ### Feasibility -/

def promisesExpired (e : Execution) : Bool :=
  e.promises.any fun p => (e.proms p).fv.expiration < e.usedSequenceNumbers

def isInfeasible (e : Execution) : Bool :=
  e.moGraph.checkForCycles || e.noValidReads || e.tooManyReads || e.badSynchronization ||
    e.badScRead || e.hardFailedPromise || e.promisesExpired

def isFeasiblePrefixIgnoreRelseq (e : Execution) : Bool :=
  !e.isInfeasible && e.promises.isEmpty && !e.failedPromise

def isfeasibleprefix (e : Execution) : Bool :=
  e.pendingRelSeqs.isEmpty && e.isFeasiblePrefixIgnoreRelseq

def setAssert (e : Execution) : Execution := { e with asserted := true }

def assertBug (e : Execution) : Execution :=
  let e := { e with bugs := e.bugs + 1 }
  if e.isfeasibleprefix then e.setAssert else e

/-! ### Lookups -/

def getLastAction (e : Execution) (tid : ThreadId) : Option ActionId := e.thrdLastAction[tid]?.join

def getLastFenceRelease (e : Execution) (tid : ThreadId) : Option ActionId :=
  e.thrdLastFenceRelease[tid]?.join

def getParentAction (e : Execution) (tid : ThreadId) : Option ActionId :=
  match e.getLastAction tid with
  | some a => some a
  | none => e.threads[tid]?.bind Thread.creation

def olderThan (l : List ActionId) (a : ActionId) : List ActionId :=
  (l.reverse.dropWhile fun b => b ≠ a).tail

def getLastSeqCstWrite (e : Execution) (curr : ActionId) : Option ActionId :=
  (olderThan (e.objMap (e.acts curr).location) curr).find? fun a =>
    (e.acts a).isWrite && (e.acts a).isSeqcst

def getLastSeqCstFence (e : Execution) (tid : ThreadId) (beforeFence : Option ActionId) :
    Option ActionId :=
  let list := e.objMap .fence
  (match beforeFence with
    | none => list.reverse
    | some fence => olderThan list fence).find? fun a =>
      (e.acts a).isFence && tid == (e.acts a).tid && (e.acts a).isSeqcst

def getLastUnlock (e : Execution) (curr : ActionId) : Option ActionId :=
  (e.objMap (e.acts curr).location).reverse.find? fun a =>
    (e.acts a).isUnlock || (e.acts a).isWait

/-! ### Promises -/

/-- A promise that no thread can keep any more fails the execution. -/
def checkPromisesThreadDisabled (e : Execution) : Execution :=
  if e.promises.any fun p => (e.proms p).hasFailed then { e with failedPromise := true } else e

/-- `eliminate_thread` for one promise, and whether the promise has failed by it. -/
def eliminateThread (e : Execution) (p : PromiseId) (tid : ThreadId) : Execution × Bool :=
  (e.modifyPromise p fun q => (q.eliminateThread tid).1,((e.proms p).eliminateThread tid).2)

/-- The loop of `check_promises`: a thread that now comes after a reader of a promise cannot
keep it. -/
def checkPromisesLoop (tid : ThreadId) (oldCv : Option ClockVector) (mergeCv : ClockVector) :
    List PromiseId → Execution → Execution
  | [],e => e
  | p :: ps,e =>
    let new := (e.proms p).readers.any fun r =>
      !(oldCv.any fun cv => cv.synchronizedSince (e.acts r).tid (e.acts r).seqNumber) &&
        mergeCv.synchronizedSince (e.acts r).tid (e.acts r).seqNumber
    if (e.proms p).threadIsAvailable tid && new then
      match e.eliminateThread p tid with
      | (e,true) => { e with failedPromise := true }
      | (e,false) => checkPromisesLoop tid oldCv mergeCv ps e
    else checkPromisesLoop tid oldCv mergeCv ps e

def checkPromises (e : Execution) (tid : ThreadId) (oldCv : Option ClockVector)
    (mergeCv : ClockVector) : Execution :=
  checkPromisesLoop tid oldCv mergeCv e.promises e

/-- `CycleGraph::checkPromise` rules out the threads of the actions it meets. -/
def checkPromise (e : Execution) (write : ActionId) (p : PromiseId) :
    Result (Execution × Bool) := do
  let (found,met) ← e.moGraph.checkPromise write p
  pure (e.modifyPromise p fun q => met.foldl (fun q a => (q.eliminateThread (e.acts a).tid).1) q,
    found)

/-- One promise of `mo_check_promises`; true when the promise has failed. -/
def moCheckPromise (e : Execution) (act write : ActionId) (p : PromiseId) :
    Result (Execution × Bool) := do
  let promise := e.proms p
  let (e,failed) ←
    if promise.readers.any fun r => e.happensBefore r act then e.checkPromise write p
    else pure (e,false)
  if failed then pure (e,true)
  else if (e.proms p).threadIsAvailable (e.acts act).tid &&
      e.moGraph.checkReachable (.promise p) (.action write) then e.checkPromise write p
  else pure (e,false)

def sameLocation (e : Execution) (p : PromiseId) (a : ActionId) : Bool :=
  ((e.proms p).readers.head?.any fun r => (e.acts r).sameVar (e.acts a))

def moCheckPromisesLoop (act write : ActionId) : List PromiseId → Execution → Result Execution
  | [],e => .ok e
  | p :: ps,e =>
    if e.sameLocation p write then do
      let (e,failed) ← e.moCheckPromise act write p
      if failed then pure { e with hardFailedPromise := true }
      else moCheckPromisesLoop act write ps e
    else moCheckPromisesLoop act write ps e

/-- A read that reads from a promise has no write; comparing its location would crash. -/
def moCheckPromises (e : Execution) (act : ActionId) (isReadCheck : Bool) : Result Execution :=
  match (if isReadCheck then (e.acts act).readsFrom else some act) with
  | some write => moCheckPromisesLoop act write e.promises e
  | none => if e.promises.isEmpty then .ok e else .error .assertion

def isCompatible (e : Execution) (p : PromiseId) (a : ActionId) : Bool :=
  (e.proms p).threadIsAvailable (e.acts a).tid && e.sameLocation p a

def isCompatibleExclusive (e : Execution) (p : PromiseId) (a : ActionId) : Bool :=
  (e.proms p).numAvailableThreads == 1 && e.isCompatible p a

def sameValue (e : Execution) (p : PromiseId) (a : ActionId) : Bool :=
  (e.proms p).fv.value == (e.acts a).value

def promiseTests (e : Execution) : CycleGraph.PromiseTests := ⟨e.isCompatible,e.sameValue⟩

/-- The promises a store could keep, as indices of the pending ones. -/
def computePromises (e : Execution) (curr : ActionId) : List ℕ :=
  e.promises.zipIdx.filterMap fun x =>
    if e.isCompatible x.1 curr && e.sameValue x.1 curr &&
        !((e.proms x.1).readers.any fun r =>
          e.happensBefore r curr || (e.acts r).couldSynchronizeWith (e.acts curr))
    then some x.2 else none

/-! ### Threads -/

def setState (e : Execution) (t : ThreadId) (s : ThreadState) : Result Execution := do
  assert (s == .completed || (e.threads[t]?.any fun th => th.state != .completed))
  pure (e.modifyThread t fun th => { th with state := s })

def setEnabled (e : Execution) (t : ThreadId) (status : Bool) : Execution :=
  let e := { e with enabled := Function.update e.enabled t status }
  if status then e else e.checkPromisesThreadDisabled

def isEnabled (e : Execution) (t : ThreadId) : Bool := e.enabled t

def sleep (e : Execution) (t : ThreadId) : Result Execution :=
  (e.setEnabled t false).setState t .blocked

def wake (e : Execution) (t : ThreadId) : Result Execution := do
  assert (e.threads[t]?.any fun th => !th.modelThread)
  (e.setEnabled t true).setState t .ready

/-- The thread another one waits for: the joined one, or the holder of the lock. -/
def waitingOn (e : Execution) (th : Thread) : Option ThreadId :=
  match th.pending with
  | none => none
  | some act =>
    if act.isThreadJoin then act.getThreadOperand
    else if act.isLock then (e.mutexes act.location).locked
    else none

/-! ### Synchronization -/

def synchronizeWith (e : Execution) (second first : ActionId) : Execution × Bool :=
  let (a,success) := (e.acts second).synchronizeWith (e.acts first)
  (e.modifyAct second fun _ => a,success)

/-- The right-hand side inherits the clock vector, unless it comes first in the execution. -/
def synchronizeCall (e : Execution) (first second : ActionId) : Execution × Bool :=
  if e.before second first then ({ e with badSynchronization := true },false)
  else
    let e := e.checkPromises (e.acts first).tid (some (e.acts second).cv) (e.acts first).cv
    match e.synchronizeWith second first with
    | (e,true) => ({ e with synchronized := (first,second) :: e.synchronized },true)
    | (e,false) => (e,false)

def promiseView (e : Execution) : PromiseView := ⟨e.acts,e.proms,e.promises,e.thrdLastAction⟩

def synchronize (e : Execution) (first second : ActionId) : Execution × Bool :=
  let (e',success) := e.synchronizeCall first second
  ({ e' with syncCalls := ⟨first,second,e.promiseView,e'.promiseView⟩ :: e'.syncCalls },success)

def synchronizeAll (e : Execution) (second : ActionId) : List ActionId → Execution × Bool
  | [] => (e,false)
  | first :: rest =>
    let (e,success) := e.synchronize first second
    let (e,more) := synchronizeAll e second rest
    (e,success || more)

end Execution
end CdsChecker
