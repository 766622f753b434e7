import CdsChecker.ReleaseSequence

/-! What the checker does for the current action, by the kind of the action. -/
namespace CdsChecker

inductive ReadSource
  | past (rf : ActionId)
  | promise (p : PromiseId)
  | future (fv : FutureValue)
  deriving DecidableEq, Repr

/-- The choices of the node of an action: what it reads and whether `check_recency` objects to it,
the index of the promise it keeps, its misc value with the bound for it, and the write that breaks a
release sequence. -/
structure Choices where
  readFrom : ReadSource := .past 0
  stale : Bool := false
  promise : Option ℕ := none
  misc : ℕ := 0
  miscMax : ℕ := 0
  relseqBreak : Option ActionId := none
  deriving DecidableEq, Repr

namespace Execution

/-! ### Reads and writes -/

def readFrom (e : Execution) (act rf : ActionId) : Result (Execution × Bool) := do
  assert (e.acts rf).isWrite
  let e := e.modifyAct act fun a => a.setReadFrom rf
  if (e.acts act).isAcquire then do
    let (e,heads) ← e.getReleaseSeqHeads act act
    pure (e.synchronizeAll act heads)
  else pure (e,false)

def readersReadFrom (write : ActionId) :
    List ActionId → Execution → Result (Execution × List WorkItem)
  | [],e => .ok (e,[])
  | read :: reads,e => do
    let (e,updated) ← e.readFrom read write
    let (e,items) ← if updated then e.propagateClockvector read else pure (e,[])
    let (e,more) ← readersReadFrom write reads e
    pure (e,items ++ more)

def moCheckReads : List ActionId → Execution → Result Execution
  | [],e => .ok e
  | read :: reads,e => do
    let e ← e.moCheckPromises read true
    moCheckReads reads e

def resolvePromise (e : Execution) (write : ActionId) (p : PromiseId) :
    Result (Execution × List WorkItem) := do
  let readers := (e.proms p).readers
  let (e,items) ← readersReadFrom write readers e
  assert (e.isCompatible p write && e.sameValue p write)
  let (g,resolved) ← e.moGraph.resolvePromise e.promiseTests p write
  let e := { e with moGraph := g,hardFailedPromise := e.hardFailedPromise || !resolved }
  let e ← moCheckReads readers e
  pure (e,items)

def markStale (e : Execution) (stale : Bool) : Execution :=
  if stale then { e with tooManyReads := true } else e

def processRead (e : Execution) (curr : ActionId) (node : Choices) : Result (Execution × Bool) :=
  match node.readFrom with
  | .past rf => do
    let e ← e.startChanges
    assert !e.isInfeasible
    let e := e.markStale node.stale
    let (e,updated) ← e.rModificationOrder curr (.action rf)
    let (e,_) ← e.readFrom curr rf
    let e ← e.commitChanges.moCheckPromises curr true
    pure (e,updated)
  | .promise p => do
    let (promise,failed) := (e.proms p).addReader curr (e.acts curr).tid
    let e := e.modifyPromise p fun _ => promise
    let e := if failed then { e with failedPromise := true } else e
    let e := e.modifyAct curr fun a => a.setReadFromPromise p
    let e ← e.startChanges
    let e := e.markStale node.stale
    let (e,updated) ← e.rModificationOrder curr (.promise p)
    pure (e.commitChanges,updated)
  | .future fv => do
    let p := e.numProms
    let e := { e with
      proms := Function.update e.proms p (Promise.create curr (e.acts curr).tid fv)
      numProms := p + 1 }
    let e := e.modifyAct curr fun a => a.setReadFromPromise p
    let e := { e with promises := e.promises ++ [p] }
    let e ← e.startChanges
    let (e,updated) ← e.rModificationOrder curr (.promise p)
    pure (e.commitChanges,updated)

/-- The promise that the node wants to keep leaves the pending ones. -/
def keepPromise (e : Execution) (curr : ActionId) (index : Option ℕ) :
    Result (Execution × Bool × List WorkItem) :=
  match index with
  | none => .ok (e,false,[])
  | some i =>
    match e.promises[i]? with
    | none => .ok (e,false,[])
    | some p => do
      let (e,items) ←
        ({ e with promises := e.promises.eraseIdx i } : Execution).resolvePromise curr p
      pure (e,true,items)

/-- Future values for earlier reads are left out. -/
def processWrite (e : Execution) (curr : ActionId) (node : Choices) :
    Result (Execution × Bool × List WorkItem) := do
  let (e,updatedModOrder) ← e.wModificationOrder curr
  let (e,updatedPromises,items) ← e.keepPromise curr node.promise
  let e ← e.commitChanges.moCheckPromises curr false
  pure (e,updatedModOrder || updatedPromises,items)

/-- The reads before an acquire fence in its thread, up to a prior acquire fence. -/
def fenceLoop (curr : ActionId) : List ActionId → Execution → Result (Execution × Bool)
  | [],e => .ok (e,false)
  | act :: rest,e =>
    if act = curr then fenceLoop curr rest e
    else if (e.acts act).tid ≠ (e.acts curr).tid then fenceLoop curr rest e
    else if (e.acts act).isThreadStart then .ok (e,false)
    else if (e.acts act).isFence && (e.acts act).isAcquire then .ok (e,false)
    else if !(e.acts act).isRead || (e.acts act).isAcquire then fenceLoop curr rest e
    else do
      let (e,heads) ← e.getReleaseSeqHeads curr act
      let (e,more) ← fenceLoop curr rest (e.synchronizeAll curr heads).1
      pure (e,!heads.isEmpty || more)

def processFence (e : Execution) (curr : ActionId) : Result (Execution × Bool) :=
  if (e.acts curr).isAcquire then fenceLoop curr e.actionTrace.reverse e else .ok (e,false)

/-! ### Mutexes -/

def setLocked (e : Execution) (m : Location) (holder : Option ThreadId) : Execution :=
  { e with mutexes := Function.update e.mutexes m { e.mutexes m with locked := holder } }

/-- Grabs the lock and synchronizes with the previous unlock. -/
def grabLock (e : Execution) (curr : ActionId) (m : Location) : Execution × Bool :=
  let state := e.mutexes m
  let e :=
    if (e.acts curr).cv.getClock state.allocTid ≤ state.allocClock then e.assertBug else e
  let e := e.setLocked m (some (e.acts curr).tid)
  match e.getLastUnlock curr with
  | some unlock => ((e.synchronize unlock curr).1,true)
  | none => (e,false)

def wakeWaiting (test : ModelAction → Bool) (on : ThreadId) :
    List ThreadId → Execution → Result Execution
  | [],e => .ok e
  | t :: ts,e => do
    let e ←
      match e.threads[t]? with
      | some th =>
        if e.waitingOn th = some on && th.pending.any test then e.wake t else pure e
      | none => pure e
    wakeWaiting test on ts e

def wakeAll : List ActionId → Execution → Result Execution
  | [],e => .ok e
  | waiter :: waiters,e => do
    let e ← e.wake (e.acts waiter).tid
    wakeAll waiters e

def setWaiters (e : Execution) (condvar : Location) (waiters : List ActionId) : Execution :=
  { e with condvarWaitersMap := Function.update e.condvarWaitersMap condvar waiters }

/-- Unlocks the mutex after waking up those who wait for the thread. -/
def releaseLock (e : Execution) (curr : ActionId) (m : Location) : Result Execution := do
  let e ← wakeWaiting ModelAction.isLock (e.acts curr).tid (List.range e.getNumThreads) e
  pure (e.setLocked m none)

/-- A wait goes to sleep unless it is to wake up spuriously. -/
def sleepWaiting (e : Execution) (curr : ActionId) (misc : ℕ) : Result Execution :=
  if misc = 0 then
    let condvar := (e.acts curr).location
    (e.setWaiters condvar (e.condvarWaitersMap condvar ++ [curr])).sleep (e.acts curr).tid
  else .ok e

/-- The waiter at the index of the node is woken up; there is none behind the end of the list. -/
def notifyOne (e : Execution) (curr : ActionId) (misc : ℕ) : Result Execution :=
  let condvar := (e.acts curr).location
  match (e.condvarWaitersMap condvar)[misc]? with
  | none => .error .outOfBounds
  | some waiter => do
    let e ← e.wake (e.acts waiter).tid
    pure (e.setWaiters condvar ((e.condvarWaitersMap condvar).eraseIdx misc))

def notifyAll (e : Execution) (curr : ActionId) : Result Execution := do
  let condvar := (e.acts curr).location
  let e ← wakeAll (e.condvarWaitersMap condvar) e
  pure (e.setWaiters condvar [])

def mutexOf (e : Execution) (curr : ActionId) : Result Location :=
  match (e.acts curr).getMutex with
  | some m => .ok m
  | none => .error .assertion

def processMutex (e : Execution) (curr : ActionId) (misc : ℕ) : Result (Execution × Bool) :=
  match (e.acts curr).type with
  | .atomicTrylock => do
    let m ← e.mutexOf curr
    let success := (e.mutexes m).locked.isNone
    let e := e.modifyAct curr fun a => a.setTryLock success
    if success then pure (e.grabLock curr m) else pure (e,false)
  | .atomicLock => do
    let m ← e.mutexOf curr
    pure (e.grabLock curr m)
  | .atomicUnlock => do
    let m ← e.mutexOf curr
    let e ← e.releaseLock curr m
    pure (e,false)
  | .atomicWait => do
    let m ← e.mutexOf curr
    let e ← e.releaseLock curr m
    let e ← e.sleepWaiting curr misc
    pure (e,false)
  | .atomicNotifyAll => do
    let e ← e.notifyAll curr
    pure (e,false)
  | .atomicNotifyOne => do
    let e ← e.notifyOne curr misc
    pure (e,false)
  | _ => .error .assertion

/-! ### Threads -/

/-- The new thread can keep the promises that its parent can keep. -/
def createThread (e : Execution) (curr : ActionId) : Execution :=
  let t := e.threads.length
  let thread : Thread := { parent := some (e.acts curr).tid,creation := some curr }
  let e : Execution := { e with threads := e.threads ++ [thread] }
  let e := e.setEnabled t true
  { e with proms := fun p =>
      if e.promises.contains p && (e.proms p).threadIsAvailable (e.acts curr).tid then
        (e.proms p).addThread t
      else e.proms p }

def eliminateAll (tid : ThreadId) : List PromiseId → Execution → Execution
  | [],e => e
  | p :: ps,e =>
    match e.eliminateThread p tid with
    | (e,true) => eliminateAll tid ps { e with failedPromise := true }
    | (e,false) => eliminateAll tid ps e

def finishThread (e : Execution) (curr : ActionId) : Result Execution := do
  let t := (e.acts curr).tid
  let e ← wakeWaiting ModelAction.isThreadJoin t (List.range e.getNumThreads) e
  assert (e.threads[t]?.any fun th => th.state != .completed)
  let e := e.modifyThread t fun th => { th with state := .completed }
  pure (eliminateAll t e.promises e)

def joinThread (e : Execution) (curr : ActionId) : Result Execution :=
  match (e.acts curr).getThreadOperand.bind e.getLastAction with
  | some act => .ok (e.synchronize act curr).1
  | none => .error .assertion

def processThreadAction (e : Execution) (curr : ActionId) : Result (Execution × Bool) :=
  match (e.acts curr).type with
  | .threadCreate => .ok (e.createThread curr,false)
  | .threadJoin => do
    let e ← e.joinThread curr
    pure (e,true)
  | .threadFinish => do
    let e ← e.finishThread curr
    pure (e,true)
  | .threadStart => .ok (e.checkPromises (e.acts curr).tid none (e.acts curr).cv,false)
  | _ => .ok (e,false)

/-! ### The work queue -/

/-- The last pending release sequence completes, or a write breaks it. -/
def processRelseqFixup (e : Execution) (write : Option ActionId) :
    Result (Execution × List WorkItem) :=
  match e.pendingRelSeqs.getLast? with
  | none => .error .assertion
  | some sequence =>
    let e := { e with pendingRelSeqs := e.pendingRelSeqs.dropLast }
    match sequence.rf,sequence.release with
    | some rf,some release => do
      assert ((e.acts release).sameThread (e.acts rf))
      match write with
      | none =>
        match e.synchronize release sequence.acquire with
        | (e,false) => pure (e,[])
        | (e,true) => e.propagateClockvector sequence.acquire
      | some write => do
        let (g,_) ← e.moGraph.addEdge (.action release) (.action write)
        let (g,_) ← g.addEdge (.action write) (.action rf)
        pure ({ e with moGraph := g },[])
    | _,_ => .error .assertion

def checkCurrAction (e : Execution) (curr : ActionId) (secondPartOfRmw : Bool) (node : Choices) :
    Result (Execution × List WorkItem) := do
  let (e,thread) ← e.processThreadAction curr
  let (e,read) ←
    if (e.acts curr).isRead && !secondPartOfRmw then e.processRead curr node else pure (e,false)
  let (e,write,items) ←
    if (e.acts curr).isWrite then e.processWrite curr node else pure (e,false,[])
  let (e,fence) ← if (e.acts curr).isFence then e.processFence curr else pure (e,false)
  let (e,mutex) ←
    if (e.acts curr).isMutexOp then e.processMutex curr node.misc else pure (e,false)
  let (e,fixups) ←
    if (e.acts curr).isRelseqFixup then e.processRelseqFixup node.relseqBreak else pure (e,[])
  let last :=
    if thread || fence || mutex then [.checkReleaseSeq none]
    else if read || write then [.checkReleaseSeq (some (e.acts curr).location)]
    else []
  pure (e,items ++ fixups ++ last)

/-- A read may not read from what happens before the last seq_cst write. -/
def recheckRead (e : Execution) (act : ActionId) : Result (Execution × Bool) :=
  match (e.acts act).readsFrom,(e.acts act).readsFromPromise with
  | some rf,_ => do
    let (e,updated) ← e.rModificationOrder act (.action rf)
    let bad := (e.acts act).isSeqcst &&
      (e.getLastSeqCstWrite act).any fun w => e.happensBefore rf w
    pure (if bad then { e with badScRead := true } else e,updated)
  | none,some p => e.rModificationOrder act (.promise p)
  | none,none => .ok (e,false)

def checkMoEdges (e : Execution) (act : ActionId) : Result (Execution × List WorkItem) := do
  let (e,read) ← if (e.acts act).isRead then e.recheckRead act else pure (e,false)
  let (e,write) ← if (e.acts act).isWrite then e.wModificationOrder act else pure (e,false)
  let e := e.commitChanges
  pure (e,if read || write then [.checkReleaseSeq (some (e.acts act).location)] else [])

/-- The first entry of the queue, and what it adds at the end. -/
def processWork (e : Execution) (curr : ActionId) (secondPartOfRmw : Bool) (node : Choices) :
    WorkItem → Result (Execution × List WorkItem)
  | .checkCurrAction => e.checkCurrAction curr secondPartOfRmw node
  | .checkReleaseSeq location => e.resolveReleaseSequences location
  | .checkMoEdges act => e.checkMoEdges act

end Execution
end CdsChecker
