import CdsChecker.ModificationOrder

/-! Release sequences: the heads that an acquire synchronizes with, and the sequences that stay
pending until more of the modification order is known. -/
namespace CdsChecker

/-- An entry of the work queue. -/
inductive WorkItem
  | checkCurrAction
  | checkReleaseSeq (location : Option Location)
  | checkMoEdges (act : ActionId)
  deriving DecidableEq, Repr

namespace Execution

/-- The chain of RMWs from a write on: the heads found on it, whether the chain itself completes
the sequence, and the write at its end, none for a read from a promise. -/
def chainHeads (e : Execution) : ℕ → Option ActionId → List ActionId →
    Result (List ActionId × Bool × Option ActionId)
  | _,none,heads => .ok (heads,false,none)
  | 0,some _,_ => .error .diverges
  | n + 1,some rf,heads => do
    assert (e.acts rf).isWrite
    let heads :=
      if (e.acts rf).isRelease then heads ++ [rf]
      else
        match (e.acts rf).lastFenceRelease with
        | some fence => heads ++ [fence]
        | none => heads
    if !(e.acts rf).isRmw then pure (heads,false,some rf)
    else if (e.acts rf).isAcquire && (e.acts rf).isRelease then pure (heads,true,some rf)
    else chainHeads e n (e.acts rf).readsFrom heads

/-- The last write-release or fence-release up to `rf` in its thread's actions on the location;
a fence-release before it is stronger. -/
def findRelease (e : Execution) (fence : Option ActionId) : List ActionId → Option ActionId
  | [] => none
  | act :: rest =>
    if fence.any fun f => e.before act f then none
    else if (e.acts act).isRelease then some act
    else findRelease e fence rest

/-- The writes of another thread, newest first, that may come between the release and `rf`:
whether one does, whether the thread's future writes are ordered, and the writes that might. -/
def breakWrites (e : Execution) (rf release : ActionId) :
    List ActionId → Bool → Bool × Bool × List ActionId
  | [],futureOrdered => (false,futureOrdered,[])
  | act :: rest,futureOrdered =>
    if e.happensBefore act release then (false,futureOrdered,[])
    else if e.happensBefore rf act then breakWrites e rf release rest true
    else if !(e.acts act).isWrite || (e.acts act).isRmw then
      breakWrites e rf release rest futureOrdered
    else if e.moGraph.checkReachable (.action rf) (.action act) then
      breakWrites e rf release rest true
    else if e.moGraph.checkReachable (.action act) (.action release) then
      (false,futureOrdered,[])
    else if e.moGraph.checkReachable (.action release) (.action act) &&
        e.moGraph.checkReachable (.action act) (.action rf) then (true,futureOrdered,[])
    else
      let (broken,futureOrdered,writes) := breakWrites e rf release rest futureOrdered
      (broken,futureOrdered,act :: writes)

/-- The other threads in turn, until one breaks the sequence: whether one does, whether all are
certain not to, and the writes that might. -/
def breakThreads (e : Execution) (rf release : ActionId) :
    ThreadId → List (List ActionId) → Result (Bool × Bool × List ActionId)
  | _,[] => .ok (false,true,[])
  | i,list :: lists =>
    if (e.acts rf).tid = i then breakThreads e rf release (i + 1) lists
    else do
      let th := e.threads[i]?
      let futureOrdered := ((e.getLastAction i).any fun last => e.happensBefore rf last) ||
        !e.isEnabled i || th.any fun th => th.state == .completed
      assert (!(th.any Thread.modelThread) || futureOrdered)
      let (broken,futureOrdered,writes) := e.breakWrites rf release list.reverse futureOrdered
      if broken then pure (true,true,writes)
      else do
        let (broken,certain,more) ← breakThreads e rf release (i + 1) lists
        pure (broken,futureOrdered && writes.isEmpty && certain,writes ++ more)

/-- The heads that are certain, whether they are all, and the record of an uncertain sequence. -/
def releaseSeqHeads (e : Execution) (rf : Option ActionId) (pending : ReleaseSeq) :
    Result (List ActionId × Bool × ReleaseSeq) :=
  if e.moGraph.checkForCycles then .ok ([],false,pending)
  else do
    let (heads,complete,last) ← e.chainHeads e.numActs rf []
    if complete then pure (heads,true,pending)
    else
      match last with
      | none => pure (heads,false,{ pending with rf := none })
      | some rf =>
        if (e.acts rf).isRelease then pure (heads,true,pending)
        else do
          let fence := (e.acts rf).lastFenceRelease
          let heads := heads ++ fence.toList
          let lists := e.objThrdMap (e.acts rf).location
          let older := (lists[(e.acts rf).tid]?.getD []).reverse.dropWhile fun a => a ≠ rf
          assert !older.isEmpty
          match e.findRelease fence older with
          | none => pure (heads,true,pending)
          | some release => do
            let (broken,certain,writes) ← e.breakThreads rf release 0 lists
            if broken then pure (heads,true,{ pending with writes := writes })
            else if certain then pure (heads ++ [release],true,{ pending with writes := [] })
            else pure (heads,false,
              { pending with release := some release,rf := some rf,writes := writes })

/-- An uncertain sequence is kept for later. -/
def getReleaseSeqHeads (e : Execution) (acquire read : ActionId) :
    Result (Execution × List ActionId) := do
  let (heads,complete,sequence) ←
    e.releaseSeqHeads (e.acts read).readsFrom { acquire := acquire,read := read }
  if complete then pure (e,heads)
  else pure ({ e with pendingRelSeqs := e.pendingRelSeqs ++ [sequence] },heads)

/-- The actions after an acquire, newest first, that it happens before. -/
def propagateLoop (acquire : ActionId) :
    List ActionId → Execution → Result (Execution × List WorkItem)
  | [],_ => .error .outOfBounds
  | act :: rest,e =>
    if act = acquire then .ok (e,[])
    else if e.happensBefore acquire act then do
      let (e,items) ← propagateLoop acquire rest (e.synchronize acquire act).1
      pure (e,.checkMoEdges act :: items)
    else propagateLoop acquire rest e

def propagateClockvector (e : Execution) (acquire : ActionId) :
    Result (Execution × List WorkItem) := do
  let (e,items) ← propagateLoop acquire e.actionTrace.reverse e
  pure (e,.checkReleaseSeq none :: .checkMoEdges acquire :: items)

/-- Synchronizing with the heads that are new to the acquire. -/
def synchronizeNew (e : Execution) (acquire : ActionId) : List ActionId → Execution × Bool
  | [] => (e,false)
  | head :: rest =>
    if (e.acts acquire).hasSynchronizedWith (e.acts head) then synchronizeNew e acquire rest
    else
      let (e,success) := e.synchronize head acquire
      let (e,more) := synchronizeNew e acquire rest
      (e,success || more)

/-- The pending sequences in turn, those that stay and whether some synchronization is new. Once
it is, every later sequence propagates its acquire. -/
def resolveLoop (location : Option Location) :
    List ReleaseSeq → Bool → Execution → Result (Execution × List ReleaseSeq × List WorkItem)
  | [],_,e => .ok (e,[],[])
  | pending :: rest,updated,e =>
    if location.any fun l => (e.acts pending.read).location ≠ l then do
      let (e,kept,items) ← resolveLoop location rest updated e
      pure (e,pending :: kept,items)
    else do
      let (heads,complete,sequence) ← e.releaseSeqHeads (e.acts pending.read).readsFrom pending
      let (e,success) := e.synchronizeNew pending.acquire heads
      let updated := updated || success
      let (e,items) ←
        if updated then e.propagateClockvector pending.acquire else pure (e,[])
      let (e,kept,more) ← resolveLoop location rest updated e
      pure (e,if complete then kept else sequence :: kept,items ++ more)

def resolveReleaseSequences (e : Execution) (location : Option Location) :
    Result (Execution × List WorkItem) := do
  let (e,kept,items) ← resolveLoop location e.pendingRelSeqs false e
  pure ({ e with pendingRelSeqs := kept },items)

end Execution
end CdsChecker
