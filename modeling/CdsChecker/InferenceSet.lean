import CdsChecker.Action
import Mathlib.Data.List.Basic

/-! Fence inference: assignments of memory orders to wildcards, and the set of those that the
search has discovered. -/
namespace CdsChecker

namespace MemoryOrder

/-- The value of the enumerator. -/
def toNat : MemoryOrder → ℕ
  | relaxed => 0
  | acquire => 1
  | release => 2
  | acqRel => 3
  | seqCst => 4

end MemoryOrder

def MAX_WILDCARD_NUM : ℕ := 50

/-- `orders` starts at wildcard 1; `none` is `WILDCARD_NONEXIST`. -/
structure Inference where
  orders : List (Option MemoryOrder)
  explored : Bool := false
  leaf : Bool := false
  shouldFix : Bool := true
  deriving DecidableEq, Repr

namespace Inference

def size (infer : Inference) : ℕ := infer.orders.length

def resize (infer : Inference) (newsize : ℕ) : Result Inference := do
  assert (decide (infer.size < newsize) && decide (newsize ≤ MAX_WILDCARD_NUM))
  pure { infer with orders := infer.orders ++ List.replicate (newsize - infer.size) none }

/-- `operator[]`, which makes room for the wildcard it is asked for. -/
def lookup (infer : Inference) (idx : ℕ) : Result Inference :=
  if 0 < idx ∧ idx ≤ infer.size then .ok infer else infer.resize idx

/-- `SCFence::inspectModelAction` on the current inference: a wildcard without an order gets
the relaxed one. -/
def inspectModelAction (infer : Inference) (wildcardID : ℕ) : Result Inference := do
  let infer ← infer.lookup wildcardID
  match infer.orders[wildcardID - 1]? with
  | some none => pure { infer with orders := infer.orders.set (wildcardID - 1) (some .relaxed) }
  | _ => pure infer

/-- How `compareTo` ranks the orders of one wildcard. -/
def subResult : Option MemoryOrder → Option MemoryOrder → ℤ
  | none,none => 0
  | none,some _ => 1
  | some mo1,none => if mo1 = .relaxed then 1 else -1
  | some mo1,some mo2 => if mo2.toNat < mo1.toNat then 1 else if mo1 = mo2 then 0 else -1

def incomparable (mo1 mo2 : Option MemoryOrder) : Bool :=
  mo1 = some .acquire && mo2 = some .release || mo1 = some .release && mo2 = some .acquire

/-- The loop over the wildcards of the smaller inference. -/
def compareLoop : List (Option MemoryOrder) → List (Option MemoryOrder) → ℤ → ℤ
  | mo1 :: orders1,mo2 :: orders2,result =>
    if incomparable mo1 mo2 then -2
    else
      let sub := subResult mo1 mo2
      if (0 < sub ∧ result < 0) ∨ (sub < 0 ∧ 0 < result) then -2
      else compareLoop orders1 orders2 (if sub ≠ 0 then sub else result)
  | _,_,result => result

/-- 1 for stronger, -1 for weaker, 0 for equal, -2 for incomparable. -/
def compareTo (this infer : Inference) : ℤ :=
  compareLoop this.orders infer.orders
    (if this.size = infer.size then 0 else if infer.size < this.size then 1 else -1)

end Inference

/-- Only the weakest of the candidates, and none as strong as the current inference. -/
def pruneCandidates (candidates : List Inference) (curInfer : Inference) : List Inference :=
  candidates.foldl (fun newCandidates cand =>
    if cand.compareTo curInfer = 0 then newCandidates
    else newCandidates.filter (fun added =>
      !(added.compareTo cand == 0 || added.compareTo cand == 1)) ++ [cand]) []

/-- An inference is known by its index in `infers`, where the objects are. -/
structure InferenceSet where
  infers : List Inference := []
  discoveredSet : List ℕ := []
  results : List ℕ := []
  candidates : List ℕ := []
  notAddedAtFirstPlace : ℕ := 0
  deriving DecidableEq, Repr

namespace InferenceSet

def objects (s : InferenceSet) (list : List ℕ) : List Inference := list.filterMap (s.infers[·]?)

/-- Whether an equal inference was discovered, or a weaker one explored. -/
def hasBeenDiscovered (s : InferenceSet) (infer : Inference) : Bool :=
  (s.objects s.discoveredSet).any fun discovered =>
    discovered.compareTo infer == 0 ||
      discovered.compareTo infer == -1 && discovered.leaf && discovered.explored

def hasBeenExplored (s : InferenceSet) (infer : Inference) : Bool :=
  (s.objects s.discoveredSet).any fun discovered =>
    discovered.explored &&
      (discovered.compareTo infer == 0 || discovered.compareTo infer == -1)

/-- An object of its own, such as the first current inference. -/
def newInference (s : InferenceSet) (infer : Inference) : InferenceSet :=
  { s with infers := s.infers ++ [{ infer with leaf := false }] }

def addInference (s : InferenceSet) (infer : Inference) : InferenceSet × Bool :=
  if s.hasBeenDiscovered infer then
    ({ s with notAddedAtFirstPlace := s.notAddedAtFirstPlace + 1 },false)
  else
    let id := s.infers.length
    ({ s with
      infers := s.infers ++ [{ infer with leaf := true }]
      candidates := s.candidates ++ [id]
      discoveredSet := s.discoveredSet ++ [id] },true)

def addCurInference (s : InferenceSet) (curInfer : ℕ) : InferenceSet :=
  { s with
    infers := s.infers.modify curInfer fun infer => { infer with leaf := false }
    candidates := s.candidates ++ [curInfer] }

/-- The loop of `addCandidates`, and whether it added one. -/
def addAll (s : InferenceSet) : List Inference → InferenceSet × Bool
  | [] => (s,false)
  | candidate :: cands =>
    let (s,tmpAdded) := s.addInference candidate
    let (s,added) := s.addAll cands
    (s,tmpAdded || added)

def addCandidates (s : InferenceSet) (curInfer : ℕ) (inferList : List Inference) :
    Result (InferenceSet × Bool) :=
  match s.infers[curInfer]? with
  | none => .error .outOfBounds
  | some infer => .ok ((s.addCurInference curInfer).addAll (pruneCandidates inferList infer))

/-- Results as strong as the new one go. -/
def addResult (s : InferenceSet) (id : ℕ) (infer : Inference) : InferenceSet :=
  { s with
    results := s.results.filter (fun exist =>
      !(s.infers[exist]?).any fun existResult =>
        existResult.compareTo infer == 0 || existResult.compareTo infer == 1) ++ [id] }

def commitInference (s : InferenceSet) (id : ℕ) (feasible : Bool) : Result InferenceSet :=
  match s.infers[id]? with
  | none => .error .outOfBounds
  | some infer =>
    let infer := { infer with explored := true }
    let s := { s with infers := s.infers.set id infer }
    .ok (if feasible then s.addResult id infer else s)

/-- The loop of `getNextInference`; each turn takes a candidate. -/
def getNextLoop : ℕ → InferenceSet → Result (InferenceSet × Option ℕ)
  | 0,s => .ok (s,none)
  | n + 1,s =>
    match s.candidates.getLast? with
    | none => .ok (s,none)
    | some id =>
      let s := { s with candidates := s.candidates.dropLast }
      match s.infers[id]? with
      | none => .error .outOfBounds
      | some infer =>
        if infer.leaf = false then do
          let s ← s.commitInference id false
          getNextLoop n s
        else if infer.shouldFix && s.hasBeenExplored infer then getNextLoop n s
        else .ok (s,some id)

def getNextInference (s : InferenceSet) : Result (InferenceSet × Option ℕ) :=
  getNextLoop s.candidates.length s

def modifyInference (s : InferenceSet) (id : ℕ) (f : Inference → Result Inference) :
    Result InferenceSet :=
  match s.infers[id]? with
  | none => .error .outOfBounds
  | some infer => do
    let infer ← f infer
    pure { s with infers := s.infers.set id infer }

end InferenceSet
end CdsChecker
