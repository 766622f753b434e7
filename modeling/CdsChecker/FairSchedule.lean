import CdsChecker.Basic
import Mathlib.Data.BitVec
import Mathlib.Data.List.Basic

/-! What the nodes of an execution keep for fair scheduling, by a window of past turns and by
yields, and the scheduler that goes by it. -/
namespace CdsChecker

inductive EnabledType
  | disabled | enabled | sleepSet
  deriving DecidableEq, Repr

/-- The scheduler's `enabled` array; there is no entry behind its end. -/
abbrev EnabledArray := List EnabledType

/-- Enabled or in the sleep set. -/
def EnabledArray.isEnabled (enabled : EnabledArray) (tid : ThreadId) : Bool :=
  match enabled[tid]? with
  | none | some .disabled => false
  | some _ => true

structure FairnessInfo where
  enabledCount : ℤ := 0
  turns : ℤ := 0
  priority : Bool := false
  deriving DecidableEq, Repr

/-- A set of the flags below. -/
abbrev YieldState := BitVec 4

def YIELD_E : YieldState := 1
def YIELD_D : YieldState := 2
def YIELD_S : YieldState := 4
def YIELD_P : YieldState := 8

structure FairParams where
  fairwindow : ℕ := 0
  enabledcount : ℕ := 1
  yieldon : Bool := false
  deriving DecidableEq, Repr

structure FairAction where
  tid : ThreadId
  isYield : Bool := false
  isCreate : Bool := false
  deriving DecidableEq, Repr

namespace FairnessInfo

/-- What a new node adds for a thread. -/
def enter (fi : FairnessInfo) (enabled turn : Bool) : FairnessInfo :=
  let fi := if enabled then { fi with enabledCount := fi.enabledCount + 1 } else fi
  if turn then { fi with turns := fi.turns + 1,priority := false } else fi

/-- What the node that leaves the window takes away. -/
def leave (fi : FairnessInfo) (enabled turn : Bool) : FairnessInfo :=
  let fi := if enabled then { fi with enabledCount := fi.enabledCount - 1 } else fi
  if turn then { fi with turns := fi.turns - 1 } else fi

/-- The conditions on a full window. -/
def evaluate (params : FairParams) (fi : FairnessInfo) : FairnessInfo :=
  if params.enabledcount ≤ fi.enabledCount ∧ fi.turns = 0 then { fi with priority := true } else fi

end FairnessInfo

/-- `enabledArray` is what was enabled when the last child was explored, and empty before;
`yieldData` is allocated by the first `update_yield`. -/
structure FairNode where
  action : FairAction
  numThreads : ℕ
  fairness : List FairnessInfo
  enabledArray : EnabledArray := []
  yieldData : Option (ThreadId → ThreadId → YieldState) := none

namespace FairNode

def isEnabled (n : FairNode) (tid : ThreadId) : Bool :=
  decide (tid < n.numThreads) && n.enabledArray.isEnabled tid

def exploreChild (n : FairNode) (isEnabled : EnabledArray) : FairNode :=
  { n with enabledArray := isEnabled.take n.numThreads }

def hasPriority (n : FairNode) (tid : ThreadId) : Result Bool :=
  match n.fairness[tid]? with
  | none => .error .outOfBounds
  | some info => .ok info.priority

/-- The constructor's loop body for thread `i`. The node that leaves the window comes with its
parent. -/
def fairnessEntry (params : FairParams) (act : FairAction) (parent : Option FairNode)
    (prevfairness : Option (FairNode × FairNode)) (i : ThreadId) : FairnessInfo :=
  let fi : FairnessInfo := (parent.bind (·.fairness[i]?)).getD {}
  let fi := fi.enter (parent.any (·.isEnabled i)) (i == act.tid)
  match prevfairness with
  | none => fi
  | some (prev,prevParent) =>
    (fi.leave (prevParent.isEnabled i) (i == prev.action.tid)).evaluate params

/-- The constructor. -/
def create (params : FairParams) (act : FairAction) (parent : Option FairNode) (nthreads : ℕ)
    (prevfairness : Option (FairNode × FairNode)) : FairNode where
  action := act
  numThreads := nthreads
  fairness :=
    if params.fairwindow ≠ 0 then
      (List.range nthreads).map (fairnessEntry params act parent prevfairness)
    else List.replicate nthreads {}

/-- Threads that did not exist at the node have no priority over others. -/
def getYieldData (n : FairNode) : Result (ThreadId → ThreadId → YieldState) :=
  match n.yieldData with
  | none => .error .outOfBounds
  | some data => .ok fun tid1 tid2 =>
      if tid1 < n.numThreads ∧ tid2 < n.numThreads then data tid1 tid2 else YIELD_S ||| YIELD_D

def hasPriorityOver (n : FairNode) (tid1 tid2 : ThreadId) : Result Bool := do
  let data ← n.getYieldData
  pure (data tid1 tid2 &&& YIELD_P != 0)

/-- The inner loop of `update_yield`, for one entry of the parent. -/
def yieldEntry (curr : ThreadId) (u : ThreadId) (nextEnabled currEnabled : Bool)
    (yieldState : YieldState) : YieldState :=
  if nextEnabled then yieldState
  else
    -- the intersection of ES and E, and whether we disabled the thread
    let yieldState := yieldState &&& ~~~YIELD_E
    if u = curr ∧ currEnabled then yieldState ||| YIELD_D else yieldState

/-- The row of a thread that yields. -/
def yieldRow (nextEnabled : Bool) (yieldState : YieldState) : YieldState :=
  let yieldState :=
    if yieldState &&& (YIELD_E ||| YIELD_D) ≠ 0 ∧ yieldState &&& YIELD_S = 0 then
      yieldState ||| YIELD_P
    else yieldState
  let yieldState := yieldState &&& YIELD_P
  if nextEnabled then yieldState ||| YIELD_E else yieldState

/-- The row of `u` from the parent's, with no priority over the current thread. -/
def yieldStates (n parent : FairNode) (scheduler : EnabledArray)
    (parentData : ThreadId → ThreadId → YieldState) (u : ThreadId) : ThreadId → YieldState :=
  let curr := n.action.tid
  let states v := yieldEntry curr u (scheduler.isEnabled v) (parent.isEnabled v) (parentData u v)
  Function.update states curr (states curr &&& ~~~YIELD_P ||| YIELD_S)

/-- All rows, that of the current thread after its yield if it does. -/
def yieldMatrix (n parent : FairNode) (scheduler : EnabledArray)
    (parentData : ThreadId → ThreadId → YieldState) : ThreadId → ThreadId → YieldState :=
  let curr := n.action.tid
  let row := n.yieldStates parent scheduler parentData
  if n.action.isYield then
    Function.update row curr fun v => yieldRow (scheduler.isEnabled v) (row curr v)
  else row

def updateYield (n : FairNode) (parent : Option FairNode) (scheduler : EnabledArray) :
    Result FairNode :=
  match parent with
  | none => .ok { n with yieldData := some fun _ _ => YIELD_S ||| YIELD_D }
  | some parent => do
    let parentData ← parent.getYieldData
    pure { n with yieldData := some (n.yieldMatrix parent scheduler parentData) }

end FairNode

/-- The parent of a node is the one below it; `headIdx` is the source's plus one. -/
structure FairStack where
  nodeList : List FairNode
  headIdx : ℕ

namespace FairStack

def empty : FairStack := ⟨[],0⟩

def getHead (s : FairStack) : Option FairNode :=
  if s.headIdx = 0 then none else s.nodeList[s.headIdx - 1]?

/-- The node that leaves the window when the next one is added, if the window is full. -/
def slides (params : FairParams) (headIdx : ℕ) : Option ℕ :=
  if params.fairwindow ≠ 0 ∧ params.fairwindow + 1 < headIdx then
    some (headIdx - 1 - params.fairwindow)
  else none

def prevfairness (params : FairParams) (s : FairStack) : Option (FairNode × FairNode) := do
  let i ← slides params s.headIdx
  let prev ← s.nodeList[i]?
  let parent ← s.nodeList[i - 1]?
  pure (prev,parent)

def exploreChild (s : FairStack) (isEnabled : EnabledArray) : FairStack :=
  { s with nodeList := s.nodeList.modify (s.headIdx - 1) (·.exploreChild isEnabled) }

/-- An action to replay, if one is left; else the action gets a new node. -/
def exploreAction (params : FairParams) (s : FairStack) (act : FairAction)
    (isEnabled : EnabledArray)
    (numThreads : ℕ) : FairStack :=
  if s.headIdx < s.nodeList.length then { s with headIdx := s.headIdx + 1 }
  else
    let nextThreads := if act.isCreate then numThreads + 1 else numThreads
    let s := s.exploreChild isEnabled
    { nodeList := s.nodeList ++
        [FairNode.create params act s.getHead nextThreads (s.prevfairness params)]
      headIdx := s.headIdx + 1 }

/-- `update_yield` on the node of the current action. -/
def updateYield (s : FairStack) (scheduler : EnabledArray) : Result FairStack := do
  let i := s.headIdx - 1
  match s.nodeList[i]? with
  | none => .error .outOfBounds
  | some node => do
    let node ← node.updateYield (if i = 0 then none else s.nodeList[i - 1]?) scheduler
    pure { s with nodeList := s.nodeList.set i node }

/-- The part of `check_current_action` that concerns the node of the action. -/
def checkCurrentAction (params : FairParams) (s : FairStack) (act : FairAction)
    (isEnabled : EnabledArray) (numThreads : ℕ) (scheduler : EnabledArray) : Result FairStack :=
  let s := s.exploreAction params act isEnabled numThreads
  if params.yieldon then s.updateYield scheduler else .ok s

def popRestofstack (s : FairStack) (numAhead : ℕ) : FairStack :=
  { s with nodeList := s.nodeList.take (s.headIdx + numAhead - 1) }

def resetExecution (s : FairStack) : FairStack := { s with headIdx := 0 }

def fullReset (_ : FairStack) : FairStack := empty

/-- What happens to the stack, for any threads enabled at any time. Thread identifiers are
below the number of threads, which only grows along an execution. -/
inductive Step (params : FairParams) (s : FairStack) : FairStack → Prop
  | checkCurrentAction {s' : FairStack} (act : FairAction) (isEnabled : EnabledArray)
      (numThreads : ℕ) (scheduler : EnabledArray) (htid : act.tid < numThreads)
      (hthreads : ∀ head, s.getHead = some head → head.numThreads ≤ numThreads)
      (h : s.checkCurrentAction params act isEnabled numThreads scheduler = .ok s') :
      Step params s s'
  -- the second part of an RMW action belongs to the same node
  | updateYield {s' : FairStack} (scheduler : EnabledArray) (hyield : params.yieldon)
      (h : s.updateYield scheduler = .ok s') : Step params s s'
  | popRestofstack (numAhead : ℕ) (hahead : 0 < numAhead)
      (hlen : s.headIdx + numAhead - 1 ≤ s.nodeList.length) :
      Step params s (s.popRestofstack numAhead)
  | resetExecution : Step params s s.resetExecution
  | fullReset : Step params s s.fullReset

inductive Reachable (params : FairParams) : FairStack → Prop
  | init : Reachable params empty
  | step {s s' : FairStack} (h : Reachable params s) (hstep : Step params s s') :
      Reachable params s'

/-- A run of actions, each with the threads that are enabled at it. -/
def play (params : FairParams) : List (FairAction × EnabledArray) → FairStack → Option FairStack
  | [],s => some s
  | (act,enabled) :: rest,s =>
    if act.tid < enabled.length ∧ s.getHead.all fun head => head.numThreads ≤ enabled.length then
      match s.checkCurrentAction params act enabled enabled.length enabled with
      | .ok s' => play params rest s'
      | .error _ => none
    else none

theorem Reachable.play {params : FairParams} {run : List (FairAction × EnabledArray)}
    {s s' : FairStack} (h : Reachable params s) (hplay : s.play params run = some s') :
    Reachable params s' := by
  induction run generalizing s with
  | nil => exact Option.some.inj hplay ▸ h
  | cons input rest ih =>
    unfold FairStack.play at hplay
    split at hplay
    · rename_i hvalid
      split at hplay
      · rename_i s₁ hs₁
        have hthreads : ∀ head, s.getHead = some head → head.numThreads ≤ input.2.length := by
          intro head hhead
          simpa [hhead] using hvalid.2
        exact ih (h.step (.checkCurrentAction _ _ _ _ hvalid.1 hthreads hs₁)) hplay
      · cases hplay
    · cases hplay

theorem exists_play (params : FairParams) (run : List (FairAction × EnabledArray))
    (p : FairStack → Bool) (h : (play params run empty).any p = true) :
    ∃ s, Reachable params s ∧ p s = true := by
  cases hplay : play params run empty with
  | none => simp [hplay] at h
  | some s => exact ⟨s,.play .init hplay,by simpa [hplay] using h⟩

@[simp] theorem headIdx_exploreChild (s : FairStack) (isEnabled : EnabledArray) :
    (s.exploreChild isEnabled).headIdx = s.headIdx := rfl

@[simp] theorem length_exploreChild (s : FairStack) (isEnabled : EnabledArray) :
    (s.exploreChild isEnabled).nodeList.length = s.nodeList.length := by
  simp [exploreChild]

/-- Exploring a child changes what the head says was enabled. -/
theorem getElem?_exploreChild (s : FairStack) (isEnabled : EnabledArray) (i : ℕ) :
    (s.exploreChild isEnabled).nodeList[i]? =
      if s.headIdx - 1 = i then (s.nodeList[i]?).map (·.exploreChild isEnabled)
      else s.nodeList[i]? := by
  rw [exploreChild,List.getElem?_modify]
  split
  · rfl
  · simp

end FairStack

/-- The inner loop of `select_next_thread`: whether an enabled thread has priority. -/
def badThread (n : FairNode) (enabled : EnabledArray) (curr : ThreadId) :
    List ThreadId → Result Bool
  | [] => .ok false
  | j :: js =>
    if enabled.isEnabled j then do
      if ← n.hasPriorityOver curr j then .ok true else badThread n enabled curr js
    else badThread n enabled curr js

def haveEnabledThreadWithPriority (n : FairNode) (enabled : EnabledArray) :
    List ThreadId → Result Bool
  | [] => .ok false
  | i :: is => do
    let priority ← n.hasPriority i
    let rest ← haveEnabledThreadWithPriority n enabled is
    pure (priority && enabled.isEnabled i || rest)

def selectLoop (params : FairParams) (n : FairNode) (enabled : EnabledArray) (oldCurrThread : ℕ)
    (havePriority : Bool) : List ℕ → ℕ → Result (Option ThreadId × ℕ)
  | [],currThreadIndex => .ok (none,currThreadIndex)
  | i :: is,_ => do
    let curr := (oldCurrThread + i + 1) % enabled.length
    let bad ← if params.yieldon then
        badThread n enabled curr (List.range enabled.length) else .ok false
    if bad then selectLoop params n enabled oldCurrThread havePriority is curr
    else if enabled[curr]? = some .enabled then do
      let priority ← if havePriority then n.hasPriority curr else .ok true
      if priority then .ok (some curr,curr)
      else selectLoop params n enabled oldCurrThread havePriority is curr
    else selectLoop params n enabled oldCurrThread havePriority is curr

/-- The thread selected by round-robin, and the new `curr_thread_index`. -/
def selectNextThread (params : FairParams) (n : FairNode) (enabled : EnabledArray)
    (currThreadIndex : ℕ) : Result (Option ThreadId × ℕ) := do
  let threads := List.range enabled.length
  let havePriority ←
    if params.fairwindow ≠ 0 then haveEnabledThreadWithPriority n enabled threads else .ok false
  selectLoop params n enabled currThreadIndex havePriority threads currThreadIndex

end CdsChecker
