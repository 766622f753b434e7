import CdsChecker.CheckCurrentAction

/-! The run loop of the model checker over one execution. The program under test and the choices
of the nodes come as inputs; the fixups of release sequences after the last execution, which stop
at the location `NULL`, are left out. -/
namespace CdsChecker

/-- Where the run loop stands: before a thread that may have to run up to its next action, after
it did, before the choice of a thread, and in the work queue of the current action. -/
inductive Phase
  | stash (i : ThreadId)
  | detect (i : ThreadId)
  | schedule
  | work (curr : ActionId) (secondPartOfRmw : Bool) (node : Choices) (queue : List WorkItem)
  | ended
  deriving DecidableEq, Repr

structure Config where
  exec : Execution
  phase : Phase
  next : Option ThreadId

inductive Input
  | constructMutex (address : ℕ)
  | reportBug
  | act (type : ActionType) (order : MemoryOrder) (location : Location) (value : ℕ)
  | proceed
  | takeStep (t : ThreadId) (newlyExplored : Bool) (node : Choices)
  deriving DecidableEq, Repr

namespace Execution

/-! ### The program under test -/

def needsStash (e : Execution) (t : ThreadId) : Bool :=
  e.threads[t]?.any fun th => !th.modelThread && th.state != .completed && th.pending.isNone

/-- The location and the order that the library functions pass for a type of action. -/
def wellTyped (e : Execution) (act : ModelAction) : Bool :=
  match act.type with
  | .modelFixupRelseq | .atomicUninit => false
  | .threadStart | .threadYield | .threadFinish =>
    act.location == .thread act.tid && act.order == .seqCst
  | .threadJoin =>
    act.order == .seqCst &&
      match act.location with
      | .thread u => 0 < u && u < e.getNumThreads
      | _ => false
  | .atomicFence => act.location == .fence
  | .threadCreate | .atomicLock | .atomicTrylock | .atomicUnlock | .atomicNotifyOne
  | .atomicNotifyAll | .atomicWait | .atomicAnnotated =>
    act.order == .seqCst &&
      match act.location with
      | .object _ => true
      | _ => false
  | .atomicInit =>
    act.order == .relaxed &&
      match act.location with
      | .object _ => true
      | _ => false
  | .atomicRead | .atomicWrite | .atomicRmwr | .atomicRmw | .atomicRmwc =>
    match act.location with
    | .object _ => true
    | _ => false

/-- What a thread can do next: it starts first, the two parts of an RMW follow each other, and
`condition_variable::wait` locks the mutex again. -/
def follows (e : Execution) (act : ModelAction) : Bool :=
  match (e.getLastAction act.tid).map e.acts with
  | none => act.isThreadStart
  | some last =>
    if last.isRmwr then (act.isRmw || act.isRmwc) && act.location == last.location
    else if last.isWait then act.isLock && act.location == .object last.value
    else !(act.isThreadStart || act.isRmw || act.isRmwc)

/-- The constructor of `std::mutex`, called by the running thread. -/
def constructMutex (e : Execution) (t : ThreadId) (m : Location) : Option Execution :=
  (e.getParentAction t).map fun parent =>
    { e with mutexes := Function.update e.mutexes m {
        locked := none
        allocTid := t
        allocClock := (e.acts parent).cv.getClock t } }

/-! ### The run loop -/

def switchFromMaster (e : Execution) (act : ModelAction) : Result Execution := do
  let e ← e.setState act.tid .running
  let e ← e.setState act.tid .ready
  pure (e.modifyThread act.tid fun th => { th with pending := some act })

def sleepDisabled (params : ExecutionParams) : List ThreadId → Execution → Result Execution
  | [],e => .ok e
  | t :: ts,e => do
    let e ←
      match e.threads[t]?.bind Thread.pending with
      | some act =>
        if e.isEnabled t then
          match e.checkActionEnabled params act with
          | (e,true) => pure e
          | (e,false) => e.sleep t
        else pure e
      | none => pure e
    sleepDisabled params ts e

def miscMax (e : Execution) (curr : ActionId) : ℕ :=
  if (e.acts curr).isWait then 2
  else if (e.acts curr).isNotifyOne then (e.condvarWaitersMap (e.acts curr).location).length
  else 0

/-- A new node starts at zero and takes its bound from the execution; a replay finds both as they
were left. -/
def checkMisc (e : Execution) (curr : ActionId) (newlyExplored : Bool) (node : Choices) : Bool :=
  if newlyExplored then node.misc == 0 && node.miscMax == e.miscMax curr
  else node.misc == 0 || node.misc < node.miscMax

/-- Only a promise that the store could keep is kept. -/
def checkKept (e : Execution) (curr : ActionId) (index : Option ℕ) : Bool :=
  match index with
  | none => true
  | some i => (e.acts curr).isWrite && (e.computePromises curr).contains i

/-- Future values come from earlier executions, by threads that exist at the read. -/
def checkSource (e : Execution) (newlyExplored : Bool) (past : List ActionId)
    (promises : List PromiseId) : ReadSource → Bool
  | .past rf => past.contains rf || (newlyExplored && past.isEmpty && promises.isEmpty)
  | .promise p => promises.contains p
  | .future fv => !newlyExplored && fv.tid < e.getNumThreads

def checkRead (e : Execution) (curr : ActionId) (newlyExplored : Bool) (source : ReadSource) :
    Option Execution := do
  let (built,past,promises) ← (e.buildMayReadFrom curr).toOption
  guard (e.checkSource newlyExplored past promises source)
  pure (if newlyExplored then built else e)

def takePending (params : ExecutionParams) (e : Execution) (t : ThreadId) :
    Option (Execution × ModelAction) := do
  let th ← e.threads[t]?
  let act ← th.pending
  let e := e.modifyThread t fun th => { th with pending := none }
  guard (th.state == .ready)
  let (e,enabled) := e.checkActionEnabled params act
  guard enabled
  pure (e,act)

/-- `check_current_action` up to its work queue. -/
def beginAction (params : ExecutionParams) (e : Execution) (act : ModelAction)
    (newlyExplored : Bool) (node : Choices) : Option (Execution × ActionId) := do
  let secondPartOfRmw := act.isRmwc || act.isRmw
  let (e,curr) ← (e.initializeCurrAction act).toOption
  guard (e.checkKept curr node.promise)
  if secondPartOfRmw then pure (e,curr)
  else do
    guard (e.checkMisc curr newlyExplored node)
    let e ← (e.addActionToLists params curr).toOption
    if (e.acts curr).isRead then do
      let e ← e.checkRead curr newlyExplored node.readFrom
      pure (e,curr)
    else pure (e,curr)

def removeStopped (e : Execution) (t : ThreadId) : Execution :=
  if e.threads[t]?.any fun th => th.state == .blocked || th.state == .completed then
    e.setEnabled t false
  else e

/-- An RMW is not split, and a created thread starts at once. -/
def actionSelectNextThread (e : Execution) (curr : ActionId) : Option ThreadId :=
  if (e.acts curr).isRmwr then some (e.acts curr).tid
  else if (e.acts curr).type = .threadCreate then
    e.threads.findIdx? fun th => th.creation = some curr
  else none

def tooManySteps (params : ExecutionParams) (e : Execution) : Bool :=
  params.bound != 0 && params.bound < e.usedSequenceNumbers

end Execution

namespace Config

def init : Config := ⟨.init,.stash 0,some 1⟩

def finishStep (params : ExecutionParams) (e : Execution) (curr : ActionId) : Config :=
  let e := e.removeStopped (e.acts curr).tid
  let next := e.actionSelectNextThread curr
  if e.isInfeasible then ⟨e,.ended,next⟩
  else if e.isfeasibleprefix && e.bugs != 0 then ⟨e.setAssert,.ended,next⟩
  else if e.tooManySteps params then ⟨e,.ended,next⟩
  else ⟨e,.stash 0,next⟩

def proceed (params : ExecutionParams) (c : Config) : Option Config :=
  match c.phase with
  | .stash i =>
    if c.exec.needsStash i then none
    else if i < c.exec.getNumThreads then some { c with phase := .stash (i + 1) }
    else do
      let e ← (Execution.sleepDisabled params (List.range c.exec.getNumThreads) c.exec).toOption
      pure { c with exec := e,phase := if e.asserted then .ended else .schedule }
  | .detect i => do
    let deadlock ← (c.exec.isWaitingOn i i).toOption
    let e := if deadlock then c.exec.assertBug else c.exec
    pure { c with exec := e,phase := .stash (i + 1) }
  | .work curr secondPartOfRmw node queue =>
    match queue with
    | [] => some (finishStep params c.exec curr)
    | item :: queue =>
      if c.exec.asserted then some (finishStep params c.exec curr)
      else do
        let (e,items) ← (c.exec.processWork curr secondPartOfRmw node item).toOption
        pure { c with exec := e,phase := .work curr secondPartOfRmw node (queue ++ items) }
  | .schedule | .ended => none

def act (c : Config) (type : ActionType) (order : MemoryOrder) (location : Location) (value : ℕ) :
    Option Config :=
  match c.phase with
  | .stash i => do
    let act : ModelAction := {
      type := type
      order := order
      location := location
      value := value
      tid := i }
    guard (c.exec.needsStash i && c.exec.wellTyped act && c.exec.follows act)
    let e ← (c.exec.switchFromMaster act).toOption
    pure { c with exec := e,phase := .detect i }
  | _ => none

def constructMutex (c : Config) (address : ℕ) : Option Config :=
  match c.phase with
  | .stash i => do
    guard (c.exec.needsStash i)
    let e ← c.exec.constructMutex i (.object address)
    pure { c with exec := e }
  | _ => none

def reportBug (c : Config) : Option Config :=
  match c.phase with
  | .stash _ => some { c with exec := c.exec.assertBug }
  | .work _ _ _ queue =>
    if queue.contains .checkCurrAction then none else some { c with exec := c.exec.assertBug }
  | _ => none

/-- The chosen thread takes its step; any enabled one can be chosen. -/
def takeStep (params : ExecutionParams) (c : Config) (t : ThreadId) (newlyExplored : Bool)
    (node : Choices) : Option Config := do
  guard (c.phase = .schedule)
  guard (c.next = some t ∨ c.next = none ∧ c.exec.isEnabled t = true)
  let (e,act) ← c.exec.takePending params t
  let (e,curr) ← e.beginAction params act newlyExplored node
  pure ⟨e,.work curr (act.isRmwc || act.isRmw) node [.checkCurrAction],none⟩

/-- None where the input is not possible, or where the checker stops at a failure. -/
def step (params : ExecutionParams) (c : Config) : Input → Option Config
  | .constructMutex address => c.constructMutex address
  | .reportBug => c.reportBug
  | .act type order location value => c.act type order location value
  | .proceed => c.proceed params
  | .takeStep t newlyExplored node => c.takeStep params t newlyExplored node

def run (params : ExecutionParams) (c : Config) (inputs : List Input) : Option Config :=
  inputs.foldlM (step params) c

def Reachable (params : ExecutionParams) (c : Config) : Prop :=
  ∃ inputs, run params init inputs = some c

end Config
end CdsChecker
