import CdsChecker.ScAnalysis

/-! The generator of sequentially consistent orders that fence inference starts from. Its clock
vectors, its thread lists and its `merge`, `getNextActions` and `pruneArray` are those of
`SCAnalysis`; its constraints come from whole passes over the trace. -/
namespace CdsChecker
namespace SCGenerator

open SCAnalysis

/-- The actions of each thread, and the last thread. -/
def buildVectors (e : Execution) (list : List ActionId) (threadlist : List (List ActionId)) :
    List (List ActionId) × ℕ :=
  list.foldl (fun r act =>
    let threadid := (e.acts act).tid
    let r := if r.2 < threadid then (resize r.1 (threadid + 1) [],threadid) else r
    (r.1.modify threadid (· ++ [act]),r.2)) (threadlist,0)

def dupThreadlists (e : Execution) (list : List ActionId) : List (List ActionId) :=
  (buildVectors e list [[]]).1

/-! ### Reads -/

/-- `write2` is before the write that is read; where the write has no vector, that counts as new. -/
def mergeRead (e : Execution) (s : SCAnalysis) (write write2 : ActionId) :
    Result (SCAnalysis × Bool) :=
  if (s.cvmap write).isNone then .ok (s,true) else s.merge e write write2

/-- `write2` is after the read, if it knows the write that is read. -/
def fastAfter (e : Execution) (read write write2 : ActionId) (s : SCAnalysis) (changed : Bool) :
    Result (SCAnalysis × Bool) :=
  if knows e (s.cvmap write2) write then do
    let (s,status) ← s.merge e write2 read
    pure (s,changed || status)
  else .ok (s,changed)

/-- The writes of one thread, from the newest on, up to one that the read knows. -/
def fastWrites (e : Execution) (read write : ActionId) :
    List ActionId → SCAnalysis × Bool → Result (SCAnalysis × Bool)
  | [],r => .ok r
  | write2 :: rest,(s,changed) =>
    if !(e.acts write2).isWrite || write2 = write || write2 = read || (s.cvmap write2).isNone then
      fastWrites e read write rest (s,changed)
    else do
      let (s,changed) ← fastAfter e read write write2 s changed
      if knows e (s.cvmap read) write2 then do
        let (s,status) ← mergeRead e s write write2
        pure (s,changed || status)
      else fastWrites e read write rest (s,changed)

def fastThreads (e : Execution) (read write : ActionId) :
    List ThreadId → SCAnalysis × Bool → Result (SCAnalysis × Bool)
  | [],r => .ok r
  | tid :: tids,r => do
    let r ← fastWrites e read write ((e.objThrdMap (e.acts read).location).getD tid []).reverse r
    fastThreads e read write tids r

/-- A read from a promise is left alone. -/
def processReadFast (e : Execution) (s : SCAnalysis) (read : ActionId) :
    Result (SCAnalysis × Bool) :=
  match (e.acts read).readsFrom with
  | none => .ok (s,false)
  | some write => do
    let (s,merged) ← s.merge e read write
    fastThreads e read write (List.range (s.maxthreads + 1)) (s,merged && e.before read write)

/-- The same, unless an edge to an action that this pass is through with was the last one. -/
def slowAfter (e : Execution) (read write write2 : ActionId) (s : SCAnalysis)
    (changed updateFuture : Bool) : Result (SCAnalysis × Bool × Bool) :=
  if knows e (s.cvmap write2) write && (e.before read write2 || !updateFuture) then do
    let (s,status) ← s.merge e write2 read
    pure (s,changed || status,updateFuture || status && e.before write2 read)
  else .ok (s,changed,updateFuture)

def slowBefore (e : Execution) (write write2 : ActionId) (s : SCAnalysis)
    (changed updateFuture : Bool) : Result (SCAnalysis × Bool × Bool) :=
  if e.before write2 write || !updateFuture then do
    let (s,status) ← mergeRead e s write write2
    pure (s,changed || status,updateFuture || status && e.before write write2)
  else .ok (s,changed,updateFuture)

def slowWrites (e : Execution) (read write : ActionId) :
    List ActionId → SCAnalysis × Bool × Bool → Result (SCAnalysis × Bool × Bool)
  | [],r => .ok r
  | write2 :: rest,(s,changed,updateFuture) =>
    if !(e.acts write2).isWrite || write2 = write || write2 = read || (s.cvmap write2).isNone then
      slowWrites e read write rest (s,changed,updateFuture)
    else do
      let (s,changed,updateFuture) ← slowAfter e read write write2 s changed updateFuture
      if knows e (s.cvmap read) write2 then slowBefore e write write2 s changed updateFuture
      else slowWrites e read write rest (s,changed,updateFuture)

def slowThreads (e : Execution) (read write : ActionId) :
    List ThreadId → SCAnalysis × Bool × Bool → Result (SCAnalysis × Bool × Bool)
  | [],r => .ok r
  | tid :: tids,r => do
    let r ← slowWrites e read write ((e.objThrdMap (e.acts read).location).getD tid []).reverse r
    slowThreads e read write tids r

def processAnnotatedReadSlow (e : Execution) (s : SCAnalysis) (read : ActionId)
    (updateFuture : Bool) :
    Result (SCAnalysis × Bool × Bool) := do
  let write ← deref (e.acts read).readsFrom
  if e.before write read || !updateFuture then do
    let (s,merged) ← s.merge e read write
    let status := merged && e.before read write
    pure (s,status,status)
  else pure (s,false,updateFuture)

def processReadSlow (e : Execution) (s : SCAnalysis) (read : ActionId) (updateFuture : Bool) :
    Result (SCAnalysis × Bool × Bool) := do
  let write ← deref (e.acts read).readsFrom
  let r ← processAnnotatedReadSlow e s read updateFuture
  slowThreads e read write (List.range (s.maxthreads + 1)) r

/-! ### Clock vectors -/

def ensureCV (e : Execution) (s : SCAnalysis) (act : ActionId) : SCAnalysis :=
  if (s.cvmap act).isSome then s
  else { s with
    cvmap := Function.update s.cvmap act
      (some (ClockVector.create (some (e.acts act).cv) (e.acts act).tid (e.acts act).seqNumber)) }

def processRead (e : Execution) (annotated : ActionId → Bool) (s : SCAnalysis) (read : ActionId)
    (updateFuture : Bool) : Result (SCAnalysis × Bool × Bool) :=
  if s.fastVersion then do
    let (s,status) ← processReadFast e s read
    pure (s,status,updateFuture)
  else if annotated read then processAnnotatedReadSlow e s read updateFuture
  else processReadSlow e s read updateFuture

/-- The action before it in its thread, or the creation of the thread; no matter what changes. -/
def mergeLast (e : Execution) (s : SCAnalysis) (act : ActionId) :
    Option ActionId → Result SCAnalysis
  | none => .ok s
  | some lastact => do
    let (s,_) ← s.merge e act lastact
    pure s

def mergeFinish (e : Execution) (s : SCAnalysis) (act : ActionId) (changed : Bool) :
    Result (SCAnalysis × Bool) :=
  match (e.acts act).getThreadOperand with
  | none => .ok (s,changed)
  | some joinedthr => do
    let finish ← deref (e.getLastAction joinedthr)
    let (s,status) ← s.merge e act finish
    pure (s,changed || status)

def passAct (e : Execution) (annotated : ActionId → Bool) (p : Pass) (act : ActionId) :
    Result Pass := do
  let a := e.acts act
  let lastact :=
    if a.isThreadStart then e.threads[a.tid]?.bind Thread.creation else p.lastAct a.tid
  let s ← mergeLast e (ensureCV e p.s act) act lastact
  let (s,changed) ← mergeFinish e s act p.changed
  let lastAct := Function.update p.lastAct a.tid (some act)
  if a.isRead then do
    let (s,status,updateFuture) ← processRead e annotated s act p.updateFuture
    pure ⟨s,lastAct,changed || status,updateFuture⟩
  else pure ⟨s,lastAct,changed,p.updateFuture⟩

/-- Passes over the trace until nothing changes; the slow version goes on with any edge allowed.
The first pass always counts as a change. -/
def computeLoop (e : Execution) (annotated : ActionId → Bool) (list : List ActionId) :
    ℕ → Bool → (ThreadId → Option ActionId) → SCAnalysis → Result SCAnalysis
  | 0,_,_,_ => .error .diverges
  | n + 1,firsttime,lastAct,s => do
    let p ← list.foldlM (passAct e annotated) ⟨s,lastAct,firsttime,false⟩
    if p.changed then computeLoop e annotated list n false (fun _ => none) p.s
    else if p.s.fastVersion then .ok p.s
    else if !p.s.allowNonSC then
      computeLoop e annotated list n false p.lastAct { p.s with allowNonSC := true }
    else .ok p.s

def computeCV (e : Execution) (annotated : ActionId → Bool) (n : ℕ) (list : List ActionId)
    (s : SCAnalysis) : Result SCAnalysis :=
  computeLoop e annotated list n true (fun _ => none) s

/-! ### The order -/

def orderThread (e : Execution) (act : ActionId) :
    List ActionId → SCAnalysis → Result (SCAnalysis × Bool)
  | [],s => .ok (s,false)
  | write :: rest,s =>
    if !(e.acts write).isWrite then orderThread e act rest s
    else if knows e (s.cvmap write) act then .ok (s,false)
    else if (e.acts write).location = (e.acts act).location then do
      let (s,_) ← s.merge e write act
      pure (s,true)
    else orderThread e act rest s

def orderThreads (e : Execution) (act : ActionId) :
    List ThreadId → SCAnalysis → Result (SCAnalysis × Bool)
  | [],s => .ok (s,false)
  | tid :: tids,s =>
    if tid = (e.acts act).tid then orderThreads e act tids s
    else do
      let (s,changed) ← orderThread e act (s.threadlist tid) s
      let (s,changed') ← orderThreads e act tids s
      pure (s,changed || changed')

def updateConstraints (e : Execution) (act : ActionId) (s : SCAnalysis) :
    Result (SCAnalysis × Bool) :=
  orderThreads e act (List.range (s.maxthreads + 1)) s

/-- `reset` and then the lists of the threads once more. -/
def build (e : Execution) (list : List ActionId) (s : SCAnalysis) : SCAnalysis :=
  let r := buildVectors e list s.threadlists
  { s with threadlists := r.1,maxthreads := r.2 }

def rollBack (e : Execution) (annotated : ActionId → Bool) (n : ℕ) (list : List ActionId)
    (b : Build)
    (lastchoice : ℕ) : Result Build := do
  let s ← computeCV e annotated n list (build e list (reset list b.s))
  pure {
    s := s
    sclist := []
    choices := b.choices.modify lastchoice (· + 1)
    endchoice := lastchoice + 1
    currchoice := 0
    lastchoice := none }

/-- `computeCV`, if there is something to propagate. -/
def propagate (e : Execution) (annotated : ActionId → Bool) (n : ℕ) (list : List ActionId)
    (s : SCAnalysis) (changed : Bool) : Result SCAnalysis :=
  if changed then computeCV e annotated n list s else .ok s

/-- The action leaves its thread for the list, unless the choice makes a cycle and another one
is left. -/
def generateStep (e : Execution) (annotated : ActionId → Bool) (n : ℕ) (list array : List ActionId)
    (b : Build) : Result Build := do
  let (act,b) ← choose e b array
  let s := { b.s with threadlists := b.s.threadlists.modify (e.acts act).tid List.tail }
  let (s,changed) ← updateConstraints e act s
  let s' ← propagate e annotated n list s changed
  match changed && !s.cyclic && s'.cyclic,b.lastchoice with
  | true,some lastchoice => rollBack e annotated n list { b with s := s' } lastchoice
  | _,_ => pure { b with s := s',sclist := b.sclist ++ [act] }

def generateLoop (e : Execution) (annotated : ActionId → Bool) (n : ℕ) (list : List ActionId) :
    ℕ → Build → Result Build
  | 0,_ => .error .diverges
  | m + 1,b => do
    let array ← b.s.getNextActions e
    if array.isEmpty then pure b
    else do
      let b ← generateStep e annotated n list array b
      generateLoop e annotated n list m b

def generateSC (e : Execution) (annotated : ActionId → Bool) (n m : ℕ) (list : List ActionId)
    (s : SCAnalysis) : Result (SCAnalysis × List ActionId) := do
  let s ← computeCV e annotated n list (build e list s)
  let b ← generateLoop e annotated n list m { s := s,choices := List.replicate list.length 0 }
  pure (b.s,b.sclist)

end SCGenerator
end CdsChecker
