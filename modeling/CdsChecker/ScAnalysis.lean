import CdsChecker.CheckCurrentAction

/-! The analysis that looks for a sequentially consistent order of a trace: clock vectors closed
under the edges that the reads imply, and a list built from them greedily. -/
namespace CdsChecker

structure ActionNode where
  sb : Option ActionId := none
  specialEdge : Option ActionId := none
  deriving DecidableEq, Repr

/-- In `writeMap`, `none` is the null pointer. -/
structure SCAnalysis where
  cvmap : ActionId → Option ClockVector := fun _ => none
  cyclic : Bool := false
  lastwrmap : Location → Option ActionId := fun _ => none
  threadlists : List (List ActionId) := [[]]
  fastVersion : Bool := true
  allowNonSC : Bool := false
  maxthreads : ℕ := 0
  nodeMap : ActionId → Option ActionNode := fun _ => none
  writeMap : Location → List (Option (List ActionId)) := fun _ => []
  updateSet : List ActionId := []
  updateSetSize : ℕ := 0

def resize {α : Type} (l : List α) (size : ℕ) (fill : α) : List α :=
  l.take size ++ List.replicate (size - l.length) fill

/-- What is read behind a null pointer or the end of an array. -/
def deref {α : Type} : Option α → Result α
  | some a => .ok a
  | none => .error .outOfBounds

namespace SCAnalysis

def threadlist (s : SCAnalysis) (t : ThreadId) : List ActionId := s.threadlists.getD t []

/-- `synchronized_since`, where there is a clock vector. -/
def knows (e : Execution) (cv : Option ClockVector) (act : ActionId) : Bool :=
  cv.any fun cv => cv.synchronizedSince (e.acts act).tid (e.acts act).seqNumber

/-- `act2` is before `act`. A cycle is noted and not made; the slow version prefers the edges of
happens-before and of the SC order. -/
def merge (e : Execution) (s : SCAnalysis) (act act2 : ActionId) : Result (SCAnalysis × Bool) :=
  match s.cvmap act2 with
  | none => .ok (s,true)
  | some cv2 =>
    let a := e.acts act
    let a2 := e.acts act2
    if a.seqNumber ≤ cv2.getClock a.tid ∧ a.seqNumber ≠ 0 then .ok ({ s with cyclic := true },false)
    else do
      let cv ← deref (s.cvmap act)
      let (cv,merged) := cv.merge cv2
      let t := { s with cvmap := Function.update s.cvmap act (some cv) }
      if s.fastVersion then pure (t,merged)
      else if s.allowNonSC then pure ({ t with allowNonSC := !merged },merged)
      else if a2.happensBefore a || a.isSeqcst && a2.isSeqcst && a2.before a then pure (t,merged)
      else pure (s,false)

def pushChange (s : SCAnalysis) (act : ActionId) : SCAnalysis :=
  { s with updateSet := s.updateSet ++ [act],updateSetSize := s.updateSetSize + 1 }

def passEdge (e : Execution) (s : SCAnalysis) (act : ActionId) : Option ActionId → Result SCAnalysis
  | none => .ok s
  | some nextAct => do
    let (s,status) ← s.merge e nextAct act
    pure (if status then s.pushChange nextAct else s)

/-- Only the edges of the program order, and one more for each action. -/
def passChange (e : Execution) (s : SCAnalysis) (act : ActionId) : Result SCAnalysis :=
  match s.nodeMap act with
  | none => .ok s
  | some node => do
    let s ← s.passEdge e act node.sb
    s.passEdge e act node.specialEdge

/-- `act2` is before `act`, and the change is passed on from `from`. -/
def mergePass (e : Execution) (s : SCAnalysis) (act act2 source : ActionId) :
    Result (SCAnalysis × Bool) := do
  let (s,status) ← s.merge e act act2
  if status then do
    let s ← s.passChange e source
    pure (s,true)
  else pure (s,false)

/-! ### Reads, fast version -/

def searchKnown (e : Execution) (s : SCAnalysis) (cv : Option ClockVector) (list : List ActionId)
    (low high : ℕ) : ℕ × ℕ :=
  if _h : low + 1 < high then
    let mid := (low + high) / 2
    if list[mid]?.any fun write2 => (s.cvmap write2).isSome && knows e cv write2 then
      searchKnown e s cv list mid high
    else searchKnown e s cv list low (mid - 1)
  else (low,high)
termination_by high - low
decreasing_by all_goals omega

/-- The search for the first write that knows the one the read reads from. -/
def searchKnowing (e : Execution) (s : SCAnalysis) (write : ActionId) (list : List ActionId)
    (low high : ℕ) : ℕ × ℕ :=
  if _h : low + 1 < high then
    let mid := (low + high) / 2
    if list[mid]?.any fun write2 => knows e (s.cvmap write2) write then
      searchKnowing e s write list low mid
    else searchKnowing e s write list (mid + 1) high
  else (low,high)
termination_by high - low
decreasing_by all_goals omega

def nextWrite (write : ActionId) : List ActionId → Option ActionId
  | write2 :: act :: rest => if act = write then some write2 else nextWrite write (act :: rest)
  | _ => none

/-- The thread of the write: its next write is after the read. -/
def processOwn (e : Execution) (s : SCAnalysis) (read write : ActionId) (list : List ActionId) :
    Result (SCAnalysis × Bool) :=
  match nextWrite write list.reverse with
  | none => .ok (s,false)
  | some write2 =>
    if (s.cvmap write2).isSome then s.mergePass e write2 read write else .ok (s,false)

/-- Another thread: its last write that the read knows is before the write, with its position. -/
def processKnown (e : Execution) (s : SCAnalysis) (read write : ActionId) (list : List ActionId) :
    Result (SCAnalysis × Bool × Option ℕ) := do
  let known := fun write2 => (s.cvmap write2).isSome && knows e (s.cvmap read) write2
  let (low,high) := searchKnown e s (s.cvmap read) list 0 (list.length - 1)
  let write2 ← deref list[high]?
  if known write2 then do
    let (s,status) ← s.mergePass e write write2 write
    pure (s,status,some high)
  else if low ≠ high then do
    let write2 ← deref list[low]?
    if known write2 then do
      let (s,status) ← s.mergePass e write write2 write
      pure (s,status,some low)
    else pure (s,false,none)
  else pure (s,false,none)

/-- Its first write that knows the write is after the read. -/
def processKnowing (e : Execution) (s : SCAnalysis) (read write : ActionId) (list : List ActionId)
    (earliestPos : Option ℕ) : Result (SCAnalysis × Bool) := do
  let start := earliestPos.elim 0 (· + 1)
  let start := if start = list.length then 0 else start
  let (low,high) := searchKnowing e s write list start (list.length - 1)
  let write2 ← deref list[low]?
  if knows e (s.cvmap write2) write then s.mergePass e write2 read write2
  else if high ≠ low then do
    let write2 ← deref list[high]?
    if knows e (s.cvmap write2) write then s.mergePass e write2 read write2
    else pure (s,false)
  else pure (s,false)

def processThread (e : Execution) (s : SCAnalysis) (read write : ActionId) (tid : ThreadId)
    (list : List ActionId) : Result (SCAnalysis × Bool) :=
  if tid = (e.acts write).tid then s.processOwn e read write list
  else do
    let (s,changed,earliestPos) ← s.processKnown e read write list
    let (s,changed') ← s.processKnowing e read write list earliestPos
    pure (s,changed || changed')

/-- The loop over the threads; it ends where the lists do. -/
def processThreads (e : Execution) (read write : ActionId) :
    List ThreadId → SCAnalysis → Result (SCAnalysis × Bool)
  | [],s => .ok (s,false)
  | tid :: tids,s =>
    if tid = (e.acts read).tid then processThreads e read write tids s
    else
      let writeLists := s.writeMap (e.acts read).location
      if writeLists.length = tid then .ok (s,false)
      else
        match writeLists[tid]? with
        | none => .error .outOfBounds
        | some none | some (some []) => processThreads e read write tids s
        | some (some list) => do
          let (s,changed) ← s.processThread e read write tid list
          let (s,changed') ← processThreads e read write tids s
          pure (s,changed || changed')

def processReadFast (e : Execution) (s : SCAnalysis) (read : ActionId) :
    Result (SCAnalysis × Bool) := do
  let write ← deref (e.acts read).readsFrom
  processThreads e read write (List.range (s.maxthreads + 1)) s

def computeCVFast (e : Execution) : ℕ → SCAnalysis → Result SCAnalysis
  | 0,_ => .error .diverges
  | n + 1,s =>
    if s.updateSetSize = 0 then .ok s
    else do
      let act ← deref s.updateSet.head?
      let s := { s with updateSet := s.updateSet.tail,updateSetSize := s.updateSetSize - 1 }
      let s ← s.passChange e act
      if (e.acts act).isRead then do
        let (s,_) ← s.processReadFast e act
        computeCVFast e n s
      else computeCVFast e n s

/-! ### Reads, slow version -/

/-- The writes of one thread, from the newest on; whether something changed, and whether an edge
was added to an action that this pass is through with. -/
def slowWrites (e : Execution) (read write : ActionId) :
    List ActionId → SCAnalysis × Bool × Bool → Result (SCAnalysis × Bool × Bool)
  | [],r => .ok r
  | write2 :: rest,(s,changed,updateFuture) =>
    if !(e.acts write2).isWrite || write2 = write || (s.cvmap write2).isNone then
      slowWrites e read write rest (s,changed,updateFuture)
    else do
      let (s,changed,updateFuture) ←
        if knows e (s.cvmap write2) write && (e.before read write2 || !updateFuture) then do
          let (s,status) ← s.merge e write2 read
          pure (s,changed || status,updateFuture || status && e.before write2 read)
        else pure (s,changed,updateFuture)
      if knows e (s.cvmap read) write2 then
        if e.before write2 write || !updateFuture then do
          let (s,status) ←
            if (s.cvmap write).isNone then pure (s,true) else s.merge e write write2
          pure (s,changed || status,updateFuture || status && e.before write write2)
        else pure (s,changed,updateFuture)
      else slowWrites e read write rest (s,changed,updateFuture)

def slowThreads (e : Execution) (read write : ActionId) :
    List ThreadId → SCAnalysis × Bool × Bool → Result (SCAnalysis × Bool × Bool)
  | [],r => .ok r
  | tid :: tids,r =>
    if tid = (e.acts read).tid then slowThreads e read write tids r
    else do
      let r ← slowWrites e read write
        ((e.objThrdMap (e.acts read).location).getD tid []).reverse r
      slowThreads e read write tids r

def processReadSlow (e : Execution) (s : SCAnalysis) (read : ActionId) (updateFuture : Bool) :
    Result (SCAnalysis × Bool × Bool) := do
  let write ← deref (e.acts read).readsFrom
  let r ←
    if e.before write read || !updateFuture then do
      let (s,merged) ← s.merge e read write
      let status := merged && e.before read write
      pure (s,status,status)
    else pure (s,false,updateFuture)
  slowThreads e read write (List.range (s.maxthreads + 1)) r

structure Pass where
  s : SCAnalysis
  lastAct : ThreadId → Option ActionId
  changed : Bool
  updateFuture : Bool := false

def passAct (e : Execution) (p : Pass) (act : ActionId) : Result Pass := do
  let a := e.acts act
  let lastact :=
    if a.isThreadStart then e.threads[a.tid]?.bind Thread.creation else p.lastAct a.tid
  let s :=
    if (p.s.cvmap act).isSome then p.s
    else { p.s with
      cvmap := Function.update p.s.cvmap act
        (some (ClockVector.create (some a.cv) a.tid a.seqNumber)) }
  let s ←
    match lastact with
    | none => pure s
    | some lastact => do
      let (s,_) ← s.merge e act lastact
      pure s
  let (s,changed) ←
    match a.getThreadOperand with
    | none => pure (s,p.changed)
    | some joinedthr => do
      let finish ← deref (e.getLastAction joinedthr)
      let (s,status) ← s.merge e act finish
      pure (s,p.changed || status)
  let lastAct := Function.update p.lastAct a.tid (some act)
  if a.isRead then do
    let (s,status,updateFuture) ← s.processReadSlow e act p.updateFuture
    pure ⟨s,lastAct,changed || status,updateFuture⟩
  else pure ⟨s,lastAct,changed,p.updateFuture⟩

/-- Passes over the trace until nothing changes, and once more after any edge is allowed. -/
def computeCVSlow (e : Execution) (list : List ActionId) :
    ℕ → Bool → (ThreadId → Option ActionId) → SCAnalysis → Result SCAnalysis
  | 0,_,_,_ => .error .diverges
  | n + 1,firsttime,lastAct,s => do
    let p ← list.foldlM (passAct e) ⟨s,lastAct,firsttime,false⟩
    if p.changed then computeCVSlow e list n false (fun _ => none) p.s
    else if !p.s.allowNonSC then
      computeCVSlow e list n false p.lastAct { p.s with allowNonSC := true }
    else .ok p.s

def computeCV (e : Execution) (n : ℕ) (list : List ActionId) (s : SCAnalysis) : Result SCAnalysis :=
  if s.fastVersion then computeCVFast e n s else computeCVSlow e list n true (fun _ => none) s

/-! ### The lists -/

def node (s : SCAnalysis) (act : ActionId) : ActionNode := (s.nodeMap act).getD {}

def setNode (s : SCAnalysis) (act : ActionId) (node : ActionNode) : SCAnalysis :=
  { s with nodeMap := Function.update s.nodeMap act (some node) }

def addSb (s : SCAnalysis) (act : ActionId) (next : ActionId) : SCAnalysis :=
  s.setNode act { s.node act with sb := some next }

def addSpecialEdge (s : SCAnalysis) (act : ActionId) (next : ActionId) : SCAnalysis :=
  s.setNode act { s.node act with specialEdge := some next }

def ensureCV (e : Execution) (s : SCAnalysis) (act : ActionId) : SCAnalysis :=
  if (s.cvmap act).isSome then s
  else { s with
    cvmap := Function.update s.cvmap act
      (some (ClockVector.create none (e.acts act).tid (e.acts act).seqNumber)) }

def growThreads (s : SCAnalysis) (threadid : ThreadId) : SCAnalysis :=
  if s.maxthreads < threadid then
    { s with threadlists := resize s.threadlists (threadid + 1) [],maxthreads := threadid }
  else s

/-- The writes of a location by thread. The vector grows where it is shorter than the index, and
is then accessed at the index. -/
def addWrite (e : Execution) (s : SCAnalysis) (act : ActionId) : Result SCAnalysis := do
  let a := e.acts act
  let writeLists := s.writeMap a.location
  let writeLists :=
    if writeLists.length < a.tid then resize writeLists (a.tid + 1) none else writeLists
  let writeList ← deref writeLists[a.tid]?
  let writeList := writeList.getD []
  let writeList := if a.isWrite then writeList ++ [act] else writeList
  pure { s with
    writeMap := Function.update s.writeMap a.location (writeLists.set a.tid (some writeList)) }

def addRf (e : Execution) (s : SCAnalysis) (act : ActionId) : Result SCAnalysis :=
  if (e.acts act).isRead then do
    let write ← deref (e.acts act).readsFrom
    if (e.acts write).seqNumber ≠ 0 then do
      let (s,_) ← (s.ensureCV e write).merge e act write
      pure ((s.pushChange act).addSpecialEdge write act)
    else pure s
  else .ok s

def addStart (e : Execution) (s : SCAnalysis) (act : ActionId) : SCAnalysis :=
  if (e.acts act).isThreadStart then
    match e.threads[(e.acts act).tid]?.bind Thread.creation with
    | none => s
    | some create => (s.addSpecialEdge create act).pushChange create
  else s

def addJoin (e : Execution) (s : SCAnalysis) (act : ActionId) : Result SCAnalysis :=
  match (e.acts act).getThreadOperand with
  | none => .ok s
  | some joinedthr => do
    let finish ← deref (e.getLastAction joinedthr)
    pure ((s.addSpecialEdge finish act).pushChange finish)

def pushBack (s : SCAnalysis) (threadid : ThreadId) (act : ActionId) : SCAnalysis :=
  { s with threadlists := s.threadlists.modify threadid fun l => l ++ [act] }

/-- The edge from the action before it in its thread, if there is one: `back` of an empty list of
pointers reads a null pointer. -/
def addLast (e : Execution) (s : SCAnalysis) (act : ActionId) : SCAnalysis :=
  match (s.threadlist (e.acts act).tid).getLast? with
  | none => s
  | some lastAct => s.addSb lastAct act

def buildFast (e : Execution) (s : SCAnalysis) (act : ActionId) : Result SCAnalysis := do
  let s := (s.ensureCV e act).growThreads (e.acts act).tid
  let s ← s.addWrite e act
  let s ← (s.addLast e act).addRf e act
  let s ← (s.addStart e act).addJoin e act
  pure (s.pushBack (e.acts act).tid act)

def buildSlow (e : Execution) (s : SCAnalysis) (act : ActionId) : SCAnalysis :=
  ((s.ensureCV e act).growThreads (e.acts act).tid).pushBack (e.acts act).tid act

def buildVectors (e : Execution) (list : List ActionId) (s : SCAnalysis) : Result SCAnalysis :=
  let s := { s with maxthreads := 0 }
  if s.fastVersion then list.foldlM (buildFast e) s else .ok (list.foldl (buildSlow e) s)

/-- The number of updates is not reset with them. -/
def reset (list : List ActionId) (s : SCAnalysis) : SCAnalysis :=
  { s with
    threadlists := s.threadlists.mapIdx fun t l => if t ≤ s.maxthreads then [] else l
    cvmap := fun act => if act ∈ list then none else s.cvmap act
    updateSet := []
    cyclic := false }

/-! ### The order -/

def available (e : Execution) (s : SCAnalysis) (cv : ActionId → Option ClockVector) :
    List ActionId :=
  (List.range (s.maxthreads + 1)).filterMap fun t =>
    match s.threadlist t with
    | [] => none
    | act :: _ =>
      if (List.range (s.maxthreads + 1)).any fun i =>
          i ≠ t && (s.threadlist i).head?.any fun first => knows e (cv act) first
      then none
      else some act

/-- By the clock vectors, or where they allow none by happens-before. -/
def getNextActions (e : Execution) (s : SCAnalysis) : Result (List ActionId) :=
  let array := s.available e s.cvmap
  if array ≠ [] then .ok array
  else do
    let array := s.available e fun act => some (e.acts act).cv
    assert (array.isEmpty || s.cyclic)
    pure array

def oldest (e : Execution) (array : List ActionId) : Option ActionId :=
  array.foldl (fun found act =>
    match found with
    | none => some act
    | some best => if e.before act best then some act else some best) none

def conflictIn (e : Execution) (s : SCAnalysis) (act : ActionId) : List ActionId → Bool
  | [] => false
  | write :: rest =>
    if !(e.acts write).isWrite then conflictIn e s act rest
    else if knows e (s.cvmap write) act then false
    else if (e.acts write).location = (e.acts act).location then true
    else conflictIn e s act rest

def conflicts (e : Execution) (s : SCAnalysis) (act : ActionId) : Bool :=
  (List.range (s.maxthreads + 1)).any fun i =>
    i ≠ (e.acts act).tid && s.conflictIn e act (s.threadlist i)

def pruneArray (e : Execution) (s : SCAnalysis) (array : List ActionId) : Option ActionId :=
  match array with
  | [act] => some act
  | _ =>
    match oldest e (array.filter fun act => !(e.acts act).isWrite) with
    | some nonwrite => some nonwrite
    | none => oldest e (array.filter fun act => !s.conflicts e act)

def orderThread (e : Execution) (act : ActionId) :
    List ActionId → SCAnalysis → Result (SCAnalysis × Bool)
  | [],s => .ok (s,false)
  | write :: rest,s =>
    if !(e.acts write).isWrite then orderThread e act rest s
    else if knows e (s.cvmap write) act then .ok (s,false)
    else if (e.acts write).location = (e.acts act).location then do
      let (s,_) ← s.mergePass e write act write
      pure (s,true)
    else orderThread e act rest s

def orderThreads (e : Execution) (act : ActionId) :
    List ThreadId → SCAnalysis → Result (SCAnalysis × Bool)
  | [],s => .ok (s,false)
  | tid :: tids,s =>
    if tid = (e.acts act).tid then orderThreads e act tids s
    else do
      let (s,changed) ← orderThread e act (s.threadlist tid) s
      let (s,changed') ← orderThreads e act tids s
      pure (s,changed || changed')

def updateConstraints (e : Execution) (act : ActionId) (s : SCAnalysis) :
    Result (SCAnalysis × Bool) :=
  orderThreads e act (List.range (s.maxthreads + 1)) s

structure Build where
  s : SCAnalysis
  sclist : List ActionId := []
  choices : List ℕ
  endchoice : ℕ := 0
  currchoice : ℕ := 0
  lastchoice : Option ℕ := none

/-- The next action, by an old choice or a new one where nothing else decides. -/
def choose (e : Execution) (b : Build) (array : List ActionId) : Result (ActionId × Build) :=
  match b.s.pruneArray e array with
  | some act => .ok (act,b)
  | none => do
    let choice := if b.currchoice < b.endchoice then b.choices.getD b.currchoice 0 else 0
    let act ← deref array[choice]?
    pure (act,{ b with
      choices := b.choices.set b.currchoice choice
      lastchoice := if choice + 1 < array.length then some b.currchoice else b.lastchoice
      currchoice := b.currchoice + 1 })

def rollBack (e : Execution) (n : ℕ) (list : List ActionId) (b : Build) (lastchoice : ℕ) :
    Result Build := do
  let s ← buildVectors e list (reset list b.s)
  let s ← computeCV e n list s
  pure {
    s := s
    sclist := []
    choices := b.choices.modify lastchoice (· + 1)
    endchoice := lastchoice + 1
    currchoice := 0
    lastchoice := none }

/-- The action leaves its thread for the list, unless the choice makes a cycle. -/
def generateStep (e : Execution) (n : ℕ) (list array : List ActionId) (b : Build) :
    Result (Build × Bool) := do
  let (act,b) ← choose e b array
  let s := { b.s with threadlists := b.s.threadlists.modify (e.acts act).tid List.tail }
  let (s,changed) ← s.updateConstraints e act
  let s' ← if changed then s.computeCV e n list else pure s
  if changed && !s.cyclic && s'.cyclic then
    match b.lastchoice with
    | some lastchoice => do
      let b ← rollBack e n list { b with s := s' } lastchoice
      pure (b,false)
    | none => pure ({ b with s := { s' with fastVersion := false } },true)
  else pure ({ b with s := s',sclist := b.sclist ++ [act] },false)

def generateLoop (e : Execution) (n : ℕ) (list : List ActionId) : ℕ → Build → Result Build
  | 0,_ => .error .diverges
  | m + 1,b => do
    let array ← b.s.getNextActions e
    if array.isEmpty then pure b
    else do
      let (b,stop) ← generateStep e n list array b
      if stop then pure b else generateLoop e n list m b

/-- No list where the fast version finds a cycle at once. -/
def generateSC (e : Execution) (n : ℕ) (list : List ActionId) (s : SCAnalysis) :
    Result (SCAnalysis × Option (List ActionId)) := do
  let s ← buildVectors e list s
  let s ← s.computeCV e n list
  if s.fastVersion && s.cyclic then pure (s,none)
  else do
    let b ← generateLoop e n list n { s := s,choices := List.replicate list.length 0 }
    pure (b.s,some b.sclist)

def hasBadRF (e : Execution) : List ActionId → (Location → Option ActionId) → Bool
  | [],_ => false
  | act :: rest,lastwrmap =>
    let a := e.acts act
    a.isRead && a.readsFrom ≠ lastwrmap a.location ||
      hasBadRF e rest (if a.isWrite then Function.update lastwrmap a.location (some act)
        else lastwrmap)

def checkRf (e : Execution) (s : SCAnalysis) (list : List ActionId) : Result Unit :=
  assert (hasBadRF e list s.lastwrmap == s.cyclic)

/-- The loops run `n` times at most. The list that is checked comes with the verdict. -/
def analyze (e : Execution) (n : ℕ) (actions : List ActionId) (s : SCAnalysis) :
    Result (SCAnalysis × List ActionId) := do
  let (s,list) ← generateSC e n actions { s with fastVersion := true }
  let (s,list) ←
    if s.cyclic then generateSC e n actions { reset actions s with fastVersion := false }
    else pure (s,list)
  let list ← deref list
  checkRf e s list
  pure (s,list)

end SCAnalysis
end CdsChecker
