import CdsChecker.Action
import CdsChecker.Node

/-! The stack of the nodes of an execution, replayed up to a point where the next execution
diverges. -/
namespace CdsChecker

/-- The parent of a node is the one below it; `headIdx` is the source's plus one, the number of
nodes replayed. -/
structure NodeStack where
  nodeList : List Node
  headIdx : ℕ
  totalNodes : ℕ
  deriving DecidableEq, Repr

namespace NodeStack

def empty : NodeStack := ⟨[],0,1⟩

def getHead (s : NodeStack) : Option Node :=
  if s.headIdx = 0 then none else s.nodeList[s.headIdx - 1]?

def getNext (s : NodeStack) : Option Node := s.nodeList[s.headIdx]?

/-- The head's node is the last one when an action is new. -/
def exploreChild (s : NodeStack) (tid : ThreadId) : Result (List Node) :=
  match s.getHead with
  | none => .ok s.nodeList
  | some head => do
    let head ← head.exploreChild tid
    pure (s.nodeList.set (s.headIdx - 1) head)

/-- An action to replay, if one is left; else the action gets a new node. -/
def exploreAction (s : NodeStack) (act : ActionId) (type : ActionType) (tid : ThreadId)
    (numThreads : ℕ) : Result (NodeStack × Option ActionId) :=
  match s.getNext with
  | some node => .ok ({ s with headIdx := s.headIdx + 1 },some node.action)
  | none => do
    let nodeList ← s.exploreChild tid
    let nextThreads := if type = .threadCreate then numThreads + 1 else numThreads
    pure ({ s with
      nodeList := nodeList ++ [Node.create act tid nextThreads]
      totalNodes := s.totalNodes + 1
      headIdx := s.headIdx + 1 },none)

/-- Removes the nodes after the given number, and clears the threads of the last one kept. -/
def popRestofstack (s : NodeStack) (numAhead : ℕ) : NodeStack :=
  let it := s.headIdx + numAhead - 1
  { s with nodeList := (s.nodeList.take it).modify (it - 1) Node.clearBacktracking }

def resetExecution (s : NodeStack) : NodeStack := { s with headIdx := 0 }

def fullReset (_ : NodeStack) : NodeStack := empty

def setBacktrack (s : NodeStack) (i : ℕ) (tid : ThreadId) : Result NodeStack :=
  match s.nodeList[i]? with
  | none => .error .outOfBounds
  | some node => do
    let (node,_) ← node.setBacktrack tid
    pure { s with nodeList := s.nodeList.set i node }

/-- The divergence point of `get_next_thread`: the same thread with a new behaviour, or another
thread from the node below. -/
def diverge (s : NodeStack) : Result (NodeStack × ThreadId) :=
  match s.getNext with
  | none => .error .assertion
  | some nextnode =>
    match nextnode.incrementBehaviors with
    | (nextnode',true) =>
      .ok ({ s with nodeList := s.nodeList.set s.headIdx nextnode' }.popRestofstack 2,nextnode.tid)
    | (_,false) =>
      match s.getHead with
      | none => .error .assertion
      | some prevnode => do
        let (prevnode,tid) ← prevnode.getNextBacktrack
        pure ({ s with nodeList := s.nodeList.set (s.headIdx - 1) prevnode }.popRestofstack 1,tid)

/-! ### Runs -/

/-- What the execution adds to a node while it runs. -/
inductive Supply
  | addReadFromPast (act : ActionId)
  | addReadFromPromise (reader : ActionId)
  | addFutureValue (fv : FutureValue)
  | addRelseqBreak (write : Option ActionId)
  | setPromise (i : ℕ)
  | setMiscMax (i : ℤ)
  | getReadFromStatus
  | incrementReadFrom
  deriving DecidableEq, Repr

def supply (params : ModelParams) (n : Node) : Supply → Node
  | .addReadFromPast act => n.addReadFromPast act
  | .addReadFromPromise reader => n.addReadFromPromise reader
  | .addFutureValue fv => (n.addFutureValue params fv).1
  | .addRelseqBreak write => n.addRelseqBreak write
  | .setPromise i => n.setPromise i
  | .setMiscMax i => n.setMiscMax i
  | .getReadFromStatus => n.getReadFromStatus.1
  | .incrementReadFrom => n.incrementReadFrom.1

inductive Op
  | exploreAction (act : ActionId) (type : ActionType) (tid : ThreadId) (numThreads : ℕ)
  | setBacktrack (i : ℕ) (tid : ThreadId)
  | supply (i : ℕ) (option : Supply)
  | diverge
  | resetExecution
  | fullReset
  deriving DecidableEq, Repr

def step (params : ModelParams) (s : NodeStack) : Op → Result NodeStack
  | .exploreAction act type tid numThreads =>
    (s.exploreAction act type tid numThreads).map Prod.fst
  | .setBacktrack i tid => s.setBacktrack i tid
  | .supply i option => .ok { s with nodeList := s.nodeList.modify i (supply params · option) }
  | .diverge => s.diverge.map Prod.fst
  | .resetExecution => .ok s.resetExecution
  | .fullReset => .ok s.fullReset

def run (params : ModelParams) (s : NodeStack) (ops : List Op) : Result NodeStack :=
  ops.foldlM (step params) s

/-! ### What a step may take out of a set -/

def inBacktrack (s : NodeStack) (i : ℕ) (tid : ThreadId) : Prop :=
  ∃ n, s.nodeList[i]? = some n ∧ n.inBacktrack tid = true

def hasBeenExplored (s : NodeStack) (i : ℕ) (tid : ThreadId) : Prop :=
  ∃ n, s.nodeList[i]? = some n ∧ n.hasBeenExplored tid = true

/-- The next node has a behaviour that is not explored yet. -/
def BehaviourLeft (s : NodeStack) : Prop := ∃ n, s.getNext = some n ∧ n.allEmpty = false

/-- The thread is explored from the node, by `explore_child` or out of the backtrack set. -/
def Explores (s : NodeStack) (i : ℕ) (tid : ThreadId) : Op → Prop
  | .exploreAction _ _ tid' _ => s.getNext = none ∧ i + 1 = s.headIdx ∧ tid = tid'
  | .diverge => ¬ s.BehaviourLeft ∧ i + 1 = s.headIdx ∧ ∃ s', s.diverge = .ok (s',tid)
  | _ => False

/-- The node's own action gets a new behaviour. -/
def Renews (s : NodeStack) (i : ℕ) : Op → Prop
  | .diverge => s.BehaviourLeft ∧ i = s.headIdx
  | _ => False

/-- A thread leaves a backtrack set only by being explored, or with the node. -/
def KeepsBacktracks (s : NodeStack) (op : Op) (s' : NodeStack) : Prop :=
  ∀ i tid, s.inBacktrack i tid → s'.inBacktrack i tid ∨ s.Explores i tid op ∨
    s'.nodeList.length ≤ i ∨ s.Renews i op

/-- The record of the explored threads goes only with the node. -/
def KeepsExplored (s : NodeStack) (op : Op) (s' : NodeStack) : Prop :=
  ∀ i tid, s.hasBeenExplored i tid → s'.hasBeenExplored i tid ∨ s'.nodeList.length ≤ i ∨
    s.Renews i op

/-- Something holds of every step of a run. -/
def EveryStep (params : ModelParams) (p : NodeStack → Op → NodeStack → Prop) (ops : List Op) :
    Prop :=
  ∀ ops₁ op ops₂ s s', ops = ops₁ ++ op :: ops₂ → run params empty ops₁ = .ok s →
    step params s op = .ok s' → p s op s'

/-- The backtrack points and the explored threads are never lost. -/
def NothingLost (params : ModelParams) (ops : List Op) : Prop :=
  EveryStep params (fun s op s' => KeepsBacktracks s op s' ∧ KeepsExplored s op s') ops

end NodeStack
end CdsChecker
