import CdsChecker.Patches
import CdsChecker.RfSbPaths

/-! The fixes of fence inference: candidates that strengthen the current inference against what is
wrong with an execution, and the flag that says whether one of them is new. -/
namespace CdsChecker

inductive OriginalMo
  | wildcard (id : ℕ) (pos : 0 < id)
  | order (mo : MemoryOrder)
  | normal
  deriving DecidableEq

namespace OriginalMo

def isWildcard : OriginalMo → Bool
  | wildcard _ _ => true
  | _ => false

def unit : OriginalMo → MemoryOrder → PatchUnit
  | wildcard id pos,mo => ⟨some id,mo,fun _ h => Option.some.inj h ▸ pos⟩
  | _,mo => ⟨none,mo,by simp⟩

/-- A turn of `isApplicable`; the order of a normal access is above all others. -/
def applicable : OriginalMo → MemoryOrder → Bool
  | wildcard _ _,_ => true
  | order mo',mo =>
    let compVal := Inference.compareMemoryOrder (some mo') (some mo)
    !(compVal == 2 || compVal == -1)
  | normal,_ => true

end OriginalMo

structure SCFence where
  e : Execution
  originalMo : ActionId → OriginalMo
  annotatedReadSet : ActionId → Bool
  lastwrmap : Location → Option ActionId
  implicitMOReadBound : ℕ
  turns : ℕ

namespace SCFence

variable (x : SCFence)

def dupThreadlists : List (List ActionId) := SCGenerator.dupThreadlists x.e x.e.actionTrace

def thread (act : ActionId) : Result (List ActionId) := deref x.dupThreadlists[(x.e.acts act).tid]?

def paths (act1 act2 : ActionId) : Result (List (List ActionId)) :=
  getRfSbPaths x.e x.dupThreadlists x.turns act1 act2

/-! ### Patches -/

/-- None where it is not applicable. -/
def newPatch (act1 : ActionId) (mo1 : MemoryOrder) (act2 : ActionId) (mo2 : MemoryOrder) :
    List Patch :=
  if (x.originalMo act1).applicable mo1 && (x.originalMo act2).applicable mo2 then
    [[(x.originalMo act1).unit mo1,(x.originalMo act2).unit mo2]]
  else []

/-- On pairs of fences, or on one fence and an access. -/
def fencePatches (read write : ActionId) (acqFences relFences : List ActionId) : List Patch :=
  let twoFences := relFences.flatMap fun relFence => acqFences.flatMap fun acqFence =>
    x.newPatch relFence .release acqFence .acquire
  if twoFences.isEmpty then
    (acqFences.flatMap fun fence => x.newPatch fence .acquire write .release) ++
      relFences.flatMap fun fence => x.newPatch fence .release read .acquire
  else twoFences

/-- The fences from the read on, up to its bound, and from the write back to its bound. -/
def getAcqRel (read readBound write writeBound : ActionId) : Result (List Patch) := do
  let readThrd ← x.thread read
  let writeThrd ← x.thread write
  let readIter := readThrd.dropWhile (· != read)
  let writeIter := writeThrd.reverse.dropWhile (· != write)
  let _ ← deref readIter.head?
  let _ ← deref writeIter.head?
  let acqFences := (readIter.takeWhile (· != readBound)).filter fun act => (x.e.acts act).isFence
  let relFences := (writeIter.takeWhile (· != writeBound)).filter fun act => (x.e.acts act).isFence
  let patches := x.fencePatches read write acqFences relFences
  pure (if patches.isEmpty then x.newPatch read .acquire write .release else patches)

def isReleaseSequence : List ActionId → Bool
  | nextRead :: read :: path =>
    ((x.e.acts read).readsFrom == some nextRead) && isReleaseSequence (read :: path)
  | _ => true

/-- The loop over the reads of a path. `prevRead` is null in each turn, and the candidates of the
turns before one that has no patch stay. -/
def imposeReads (curInfer : Inference) (beginAct endAct : ActionId) :
    List ActionId → List Inference → Result (List Inference)
  | [],cands => .ok cands
  | read :: path,cands => do
    let write ← deref (x.e.acts read).readsFrom
    let patches ← x.getAcqRel read endAct write (path.head?.getD beginAct)
    if patches.isEmpty then pure cands
    else do
      let cands ← applyPatch cands curInfer patches
      imposeReads curInfer beginAct endAct path cands

def imposeSyncPath (curInfer : Inference) (path : List ActionId) (beginAct endAct : ActionId) :
    Result (List Inference) :=
  if x.isReleaseSequence path then do
    let front ← deref path.head?
    let relHead ← deref (x.e.acts front).readsFrom
    let lastRead ← deref path.getLast?
    let patches ← x.getAcqRel lastRead endAct relHead beginAct
    if patches.isEmpty then pure [] else applyPatch [] curInfer patches
  else x.imposeReads curInfer beginAct endAct path []

def imposeSync (curInfer : Inference) (beginAct endAct : ActionId) :
    List (List ActionId) → List Inference → Result (List Inference)
  | [],inferList => .ok inferList
  | path :: paths,inferList => do
    let cands ← x.imposeSyncPath curInfer path beginAct endAct
    imposeSync curInfer beginAct endAct paths (inferList ++ cands)

def fencePairs : List ActionId → List (ActionId × ActionId)
  | [] => []
  | fence1 :: fences => (fences.map fun fence2 => (fence1,fence2)) ++ fencePairs fences

/-- The order of its wildcard, which was inspected in the execution. -/
def curOrder (curInfer : Inference) (act : ActionId) : Option MemoryOrder :=
  match x.originalMo act with
  | .wildcard id _ => (curInfer.orders[id - 1]?).join
  | _ => none

def scPatches (curInfer : Inference) (act1 act2 : ActionId) (fences : List ActionId) : List Patch :=
  let twoFences := (fencePairs fences).any fun p =>
    x.curOrder curInfer p.1 != some .seqCst || x.curOrder curInfer p.2 != some .seqCst
  ((fencePairs fences).flatMap fun p => x.newPatch p.1 .seqCst p.2 .seqCst) ++
    if twoFences then []
    else (fences.flatMap fun fence =>
      x.newPatch act1 .seqCst fence .seqCst ++ x.newPatch act2 .seqCst fence .seqCst) ++
        x.newPatch act1 .seqCst act2 .seqCst

/-- The fences between the actions, where they are wildcards. -/
def imposeSC (actions : List ActionId) (curInfer : Inference) (act1 act2 : ActionId)
    (inferList : List Inference) : Result (List Inference) := do
  let act1Iter := actions.dropWhile (· != act1)
  let _ ← deref act1Iter.head?
  let fences := (act1Iter.tail.takeWhile (· != act2)).filter fun fence =>
    (x.e.acts fence).isFence && (x.originalMo fence).isWildcard
  let patches := x.scPatches curInfer act1 act2 fences
  if patches.isEmpty then pure inferList else applyPatch inferList curInfer patches

/-! ### Patterns -/

/-- Along the paths between the actions, or by sequential consistency where there is none. -/
def imposeBetween (actions : List ActionId) (curInfer : Inference) (act1 act2 : ActionId)
    (inferList : List Inference) : Result (List Inference) := do
  let paths ← x.paths act1 act2
  if paths.isEmpty then x.imposeSC actions curInfer act1 act2 inferList
  else x.imposeSync curInfer act1 act2 paths inferList

/-- One turn of pattern (a): the write before the other one, and that one before the read. -/
def fixWrite2 (list : List ActionId) (curInfer : Inference) (read write write2 : ActionId) :
    Result (List Inference) := do
  let ordered := x.e.moGraph.checkReachable (.action write) (.action write2)
  let isWritesMO := ordered && !x.e.happensBefore write write2
  let tmpCandidates ← if ordered then pure [] else x.imposeBetween list curInfer write write2 []
  if x.e.happensBefore write2 read then pure tmpCandidates
  else do
    let paths2 ← x.paths write2 read
    if paths2.isEmpty then do
      let tmpCandidates ← x.imposeSC list curInfer write2 read tmpCandidates
      if isWritesMO then x.imposeBetween list curInfer write write2 tmpCandidates
      else pure tmpCandidates
    else x.imposeSync curInfer write2 read paths2 tmpCandidates

def fixWrite2s (list : List ActionId) (curInfer : Inference) (read write : ActionId) :
    List ActionId → Result (List Inference)
  | [] => .ok []
  | write2 :: write2s => do
    let tmpCandidates ← x.fixWrite2 list curInfer read write write2
    let candidates ← fixWrite2s list curInfer read write write2s
    pure (tmpCandidates ++ candidates)

/-- The actions that the `do` loop goes over, which asks for the read behind the first one only. -/
def between (list : List ActionId) (read write : ActionId) : Result (List ActionId) :=
  match (list.dropWhile (· != write)).tail with
  | [] => .error .outOfBounds
  | act :: rest =>
    if rest.contains read then .ok (act :: rest.takeWhile (· != read)) else .error .outOfBounds

def getFixesFromPatternA (list : List ActionId) (curInfer : Inference) (read write : ActionId) :
    Result (List Inference) := do
  let acts ← between list read write
  x.fixWrite2s list curInfer read write (acts.filter fun write2 =>
    (x.e.acts write2).isWrite && (x.e.acts write2).location == (x.e.acts write).location)

def getFixesFromPatternB (curInfer : Inference) (read write : ActionId) :
    Result (List Inference) := do
  let paths1 ← x.paths read write
  let res ← if paths1.isEmpty then pure [] else x.imposeSync curInfer read write paths1 []
  let paths2 ← x.paths write read
  let candidates ← x.imposeSync curInfer write read paths2 []
  pure (res ++ candidates)

/-! ### The four types of fixes -/

def badReads : List ActionId → (Location → Option ActionId) → List ActionId
  | [],_ => []
  | act :: list,lastwrmap =>
    let a := x.e.acts act
    let lastwrmap' :=
      if a.isWrite then Function.update lastwrmap a.location (some act) else lastwrmap
    if a.isRead && a.readsFrom.isSome && a.readsFrom != lastwrmap a.location then
      act :: badReads list lastwrmap'
    else badReads list lastwrmap'

/-- The set of the inferences, and the candidates; `addCandidates` deletes the list of these. -/
structure Fixing where
  inferenceSet : InferenceSet
  candidates : Option (List Inference) := some []

def addFixesNonSC (list : List ActionId) (cur : ℕ) (curInfer : Inference) (s : InferenceSet) :
    Result (InferenceSet × Bool) :=
  let badrfset := x.badReads list x.lastwrmap
  match list.find? fun act => decide (0 < (x.e.acts act).seqNumber) && badrfset.contains act &&
      !x.annotatedReadSet act with
  | none => .ok (s,false)
  | some read => do
    let write ← deref (x.e.acts read).readsFrom
    let readOldVal := (list.takeWhile (· != read)).contains write
    let candidates ←
      if readOldVal then x.getFixesFromPatternA list curInfer read write
      else x.getFixesFromPatternB curInfer read write
    s.addCandidates cur candidates

/-- The candidates for these paths are added to the list, and the list to the set. -/
def impose (cur : ℕ) (curInfer : Inference) (act1 act2 : ActionId) (paths1 : List (List ActionId))
    (f : Fixing) : Result (Fixing × Bool) := do
  let candidates ← deref f.candidates
  let candidates ← x.imposeSync curInfer act1 act2 paths1 candidates
  let (inferenceSet,added) ← f.inferenceSet.addCandidates cur candidates
  pure (⟨inferenceSet,none⟩,added)

def fixUninitRead (cur : ℕ) (curInfer : Inference) (uninitRead : ActionId) :
    List ActionId → Fixing → Result (Fixing × Bool)
  | [],f => .ok (f,false)
  | write :: list,f =>
    if (x.e.acts write).sameVar (x.e.acts uninitRead) then do
      let paths1 ← x.paths write uninitRead
      if paths1.isEmpty then fixUninitRead cur curInfer uninitRead list f
      else do
        let (f,added) ← x.impose cur curInfer write uninitRead paths1 f
        if added then pure (f,true) else fixUninitRead cur curInfer uninitRead list f
    else fixUninitRead cur curInfer uninitRead list f

/-- The outer loop, from the end of the list. -/
def buggyLoop (list : List ActionId) (cur : ℕ) (curInfer : Inference) :
    List ActionId → Fixing → Result (Fixing × Bool)
  | [],f => .ok (f,false)
  | uninitRead :: rest,f =>
    if decide (0 < (x.e.acts uninitRead).seqNumber) && (x.e.acts uninitRead).isRead then do
      let write ← deref (x.e.acts uninitRead).readsFrom
      if (x.e.acts write).isUninitialized then do
        let (f,foundFix) ← x.fixUninitRead cur curInfer uninitRead list f
        if foundFix then pure (f,true) else buggyLoop list cur curInfer rest f
      else buggyLoop list cur curInfer rest f
    else buggyLoop list cur curInfer rest f

def addFixesBuggyExecution (list : List ActionId) (cur : ℕ) (curInfer : Inference)
    (s : InferenceSet) : Result (InferenceSet × Bool) := do
  let (f,added) ← x.buggyLoop list cur curInfer list.reverse { inferenceSet := s }
  pure (f.inferenceSet,added)

def sameWrite (write2 write1 : ActionId) : Bool :=
  (x.e.acts write1).isWrite && (x.e.acts write1).location == (x.e.acts write2).location

def readCnt (write2 : ActionId) (rest : List ActionId) : ℕ :=
  (rest.takeWhile fun act => !x.sameWrite write2 act).countP fun read =>
    (x.e.acts read).isRead && (x.e.acts read).location == (x.e.acts write2).location

/-- The loop from the end of the list. Only the write before is looked at. -/
def implicitMOLoop (cur : ℕ) (curInfer : Inference) :
    List ActionId → Fixing → Result (Fixing × Bool)
  | [],f => .ok (f,false)
  | write2 :: rest,f =>
    match if (x.e.acts write2).isWrite then rest.find? (x.sameWrite write2) else none with
    | none => implicitMOLoop cur curInfer rest f
    | some write1 =>
      if x.implicitMOReadBound < x.readCnt write2 rest &&
          !x.e.moGraph.checkReachable (.action write1) (.action write2) then do
        let paths1 ← x.paths write1 write2
        if paths1.isEmpty then implicitMOLoop cur curInfer rest f
        else do
          let (f,added) ← x.impose cur curInfer write1 write2 paths1 f
          if added then pure (f,true) else implicitMOLoop cur curInfer rest f
      else implicitMOLoop cur curInfer rest f

def addFixesImplicitMO (list : List ActionId) (cur : ℕ) (curInfer : Inference)
    (s : InferenceSet) : Result (InferenceSet × Bool) := do
  let (f,added) ← x.implicitMOLoop cur curInfer list.reverse { inferenceSet := s }
  pure (f.inferenceSet,added)

def opList (list : List ActionId) : List (List ActionId) :=
  list.foldl (fun opList act =>
    if x.originalMo act != .normal then opList
    else
      let sameLocation := fun ops : List ActionId =>
        ops.head?.any fun listAct => (x.e.acts listAct).location == (x.e.acts act).location
      if opList.any sameLocation then
        opList.map fun ops => if sameLocation ops then ops ++ [act] else ops
      else opList ++ [[act]]) []

def firstRace : List ActionId → Option (ActionId × ActionId)
  | [] => none
  | raceAct1 :: ops =>
    match ops.find? fun raceAct2 =>
      !x.e.happensBefore raceAct1 raceAct2 && !x.e.happensBefore raceAct2 raceAct1 with
    | some raceAct2 => some (raceAct1,raceAct2)
    | none => firstRace ops

def checkDataRace (list : List ActionId) : Option (ActionId × ActionId) :=
  (x.opList list).findSome? x.firstRace

def sbPrevAction (act : ActionId) : Result ActionId := do
  let list ← x.thread act
  deref (list.takeWhile (· != act)).getLast?

def sbNextAction (act : ActionId) : Result ActionId := do
  let list ← x.thread act
  deref ((list.dropWhile (· != act)).tail).head?

def addFixesDataRace (list : List ActionId) (cur : ℕ) (curInfer : Inference) (s : InferenceSet) :
    Result (InferenceSet × Bool) :=
  match x.checkDataRace list with
  | none => .ok (s,false)
  | some (act1,act2) => do
    let next1 ← x.sbNextAction act1
    let prev2 ← x.sbPrevAction act2
    let next2 ← x.sbNextAction act2
    let prev1 ← x.sbPrevAction act1
    let paths1 ← x.paths next1 prev2
    let paths2 ← x.paths next2 prev1
    let added := false
    if paths1.isEmpty then pure (s,added)
    else do
      let candidates1 ← x.imposeSync curInfer act1 act2 paths1 []
      -- another `added`, which is gone at the end of the block
      let (s,_) ← s.addCandidates cur candidates1
      if paths2.isEmpty then pure (s,added)
      else do
        let candidates2 ← x.imposeSync curInfer act2 act1 paths2 []
        let (s,_) ← s.addCandidates cur candidates2
        pure (s,added)

inductive FixType
  | buggyExecution
  | implicitMO
  | nonSC
  | dataRace
  deriving DecidableEq, Repr

structure Current where
  inferenceSet : InferenceSet
  curInference : ℕ
  buggy : Bool := false
  hasFixes : Bool := false

def addFixes (list : List ActionId) (type : FixType) (s : Current) : Result (Current × Bool) := do
  let curInfer ← deref s.inferenceSet.infers[s.curInference]?
  if !curInfer.shouldFix then pure (s,false)
  else do
    let (inferenceSet,added) ← match type with
      | .buggyExecution =>
        x.addFixesBuggyExecution list s.curInference curInfer s.inferenceSet
      | .implicitMO => x.addFixesImplicitMO list s.curInference curInfer s.inferenceSet
      | .nonSC => x.addFixesNonSC list s.curInference curInfer s.inferenceSet
      | .dataRace => x.addFixesDataRace list s.curInference curInfer s.inferenceSet
    pure ({ s with
      inferenceSet := inferenceSet
      hasFixes := s.hasFixes || (added && s.buggy) },added)

end SCFence
end CdsChecker
