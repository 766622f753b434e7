import CdsChecker.ClockVector

/-! The actions of the checked program, as the checker records them. -/
namespace CdsChecker

inductive ActionType
  | modelFixupRelseq
  | threadCreate
  | threadStart
  | threadYield
  | threadJoin
  | threadFinish
  | atomicUninit
  | atomicRead
  | atomicWrite
  | atomicRmwr
  | atomicRmw
  | atomicRmwc
  | atomicInit
  | atomicFence
  | atomicLock
  | atomicTrylock
  | atomicUnlock
  | atomicNotifyOne
  | atomicNotifyAll
  | atomicWait
  | atomicAnnotated
  deriving DecidableEq, Repr

inductive MemoryOrder
  | relaxed
  | acquire
  | release
  | acqRel
  | seqCst
  deriving DecidableEq, Repr

/-- What the location of an action points to: the one object all fences share, a `Thread` object,
or an object of the program. -/
inductive Location
  | null
  | fence
  | thread (id : ThreadId)
  | object (address : ℕ)
  deriving DecidableEq, Repr

def valueNone : ℕ := 0xdeadbeef

structure ModelAction where
  type : ActionType
  order : MemoryOrder
  location : Location
  value : ℕ := valueNone
  tid : ThreadId
  readsFrom : Option ActionId := none
  readsFromPromise : Option PromiseId := none
  lastFenceRelease : Option ActionId := none
  seqNumber : ℕ := 0
  cv : ClockVector := ⟨[]⟩
  deriving DecidableEq, Repr

namespace ModelAction

def isThreadStart (a : ModelAction) : Bool := a.type == .threadStart
def isThreadJoin (a : ModelAction) : Bool := a.type == .threadJoin
def isRelseqFixup (a : ModelAction) : Bool := a.type == .modelFixupRelseq

def isMutexOp (a : ModelAction) : Bool :=
  a.type == .atomicLock || a.type == .atomicTrylock || a.type == .atomicUnlock ||
    a.type == .atomicWait || a.type == .atomicNotifyOne || a.type == .atomicNotifyAll

def isLock (a : ModelAction) : Bool := a.type == .atomicLock
def isWait (a : ModelAction) : Bool := a.type == .atomicWait
def isNotify (a : ModelAction) : Bool := a.type == .atomicNotifyOne || a.type == .atomicNotifyAll
def isNotifyOne (a : ModelAction) : Bool := a.type == .atomicNotifyOne
def isUnlock (a : ModelAction) : Bool := a.type == .atomicUnlock
def isTrylock (a : ModelAction) : Bool := a.type == .atomicTrylock

def isSuccessLock (a : ModelAction) : Bool :=
  a.type == .atomicLock || (a.type == .atomicTrylock && a.value == 1)

def isUninitialized (a : ModelAction) : Bool := a.type == .atomicUninit

def isRead (a : ModelAction) : Bool :=
  a.type == .atomicRead || a.type == .atomicRmwr || a.type == .atomicRmw

def isWrite (a : ModelAction) : Bool :=
  a.type == .atomicWrite || a.type == .atomicRmw || a.type == .atomicInit ||
    a.type == .atomicUninit

def isRmwr (a : ModelAction) : Bool := a.type == .atomicRmwr
def isRmw (a : ModelAction) : Bool := a.type == .atomicRmw
def isRmwc (a : ModelAction) : Bool := a.type == .atomicRmwc
def isFence (a : ModelAction) : Bool := a.type == .atomicFence
def isYield (a : ModelAction) : Bool := a.type == .threadYield
def isAnnotated (a : ModelAction) : Bool := a.type == .atomicAnnotated

def couldBeWrite (a : ModelAction) : Bool := a.isWrite || a.isRmwr
def isAtomicVar (a : ModelAction) : Bool := a.isRead || a.couldBeWrite

def isAcquire (a : ModelAction) : Bool :=
  match a.order with
  | .acquire | .acqRel | .seqCst => true
  | .relaxed | .release => false

def isRelease (a : ModelAction) : Bool :=
  match a.order with
  | .release | .acqRel | .seqCst => true
  | .relaxed | .acquire => false

def isSeqcst (a : ModelAction) : Bool := a.order == .seqCst

def sameThread (a act : ModelAction) : Bool := a.tid == act.tid

/-- The value of a wait is the mutex it releases. -/
def sameVar (a act : ModelAction) : Bool :=
  (act.isWait && a.isWait && a.value == act.value) ||
    (a.isWait && !act.isWait && Location.object a.value == act.location) ||
    (act.isWait && !a.isWait && a.location == Location.object act.value) ||
    a.location == act.location

/-- The joined thread. -/
def getThreadOperand (a : ModelAction) : Option ThreadId :=
  match a.type,a.location with
  | .threadJoin,.thread id => some id
  | _,_ => none

def getMutex (a : ModelAction) : Option Location :=
  if a.isTrylock || a.isLock || a.isUnlock then some a.location
  else if a.isWait then some (.object a.value)
  else none

/-- Close out the read part of an RMW: an RMW with its value, or a plain read. -/
def processRmw (a act : ModelAction) : ModelAction :=
  let a := { a with order := act.order }
  if act.isRmwc then { a with type := .atomicRead }
  else if act.isRmw then { a with type := .atomicRmw,value := act.value }
  else a

/-- Whether the two should be explored in both orders. -/
def couldSynchronizeWith (a act : ModelAction) : Bool :=
  if a.sameThread act then false
  else if !a.sameVar act && !a.isFence && !act.isFence then false
  else
    ((a.couldBeWrite || act.couldBeWrite || a.isFence || act.isFence) && a.isSeqcst &&
      act.isSeqcst) ||
    (a.isAcquire && act.isRelease && a.isRead && act.couldBeWrite) ||
    ((a.isLock || a.isTrylock) && (act.isUnlock || act.isWait)) ||
    (a.isTrylock && act.isSuccessLock) ||
    (a.isUnlock && (act.isTrylock || act.isLock)) ||
    (a.isNotify && act.isWait) ||
    (a.isWait && act.isNotify)

def createCv (a : ModelAction) (parent : Option ModelAction) : ModelAction :=
  { a with cv := ClockVector.create (parent.map cv) a.tid a.seqNumber }

def setTryLock (a : ModelAction) (obtainedlock : Bool) : ModelAction :=
  { a with value := if obtainedlock then 1 else 0 }

def setReadFrom (a : ModelAction) (act : ActionId) : ModelAction :=
  { a with readsFrom := some act,readsFromPromise := none }

def setReadFromPromise (a : ModelAction) (promise : PromiseId) : ModelAction :=
  { a with readsFromPromise := some promise,readsFrom := none }

/-- The execution order, `operator <`. -/
def before (a act : ModelAction) : Bool := a.seqNumber < act.seqNumber

/-- False for an action that comes later in the execution. -/
def synchronizeWith (a act : ModelAction) : ModelAction × Bool :=
  if a.before act then (a,false) else ({ a with cv := (a.cv.merge act.cv).1 },true)

def hasSynchronizedWith (a act : ModelAction) : Bool :=
  a.cv.synchronizedSince act.tid act.seqNumber

def happensBefore (a act : ModelAction) : Bool := act.cv.synchronizedSince a.tid a.seqNumber

end ModelAction
end CdsChecker
