import CdsChecker.Promise
import Mathlib.Data.List.GetD

/-! A node of the node stack: the threads to explore from it and the behaviours of its own action,
each behaviour with a cursor. -/
namespace CdsChecker

structure ModelParams where
  maxfuturevalues : ℕ
  expireslop : ℕ
  deriving DecidableEq, Repr

/-- The defaults of the command line. -/
def defaultParams : ModelParams := { maxfuturevalues := 0,expireslop := 4 }

inductive ReadFromType
  | past
  | promise
  | future
  | none
  deriving DecidableEq, Repr

/-- A vector is read with `getD`, false or none where it ends. A `NULL` write of
`relseq_break_writes` lets the release sequence synchronize. -/
structure Node where
  readFromStatus : ReadFromType := .past
  action : ActionId
  tid : ThreadId
  exploredChildren : List Bool
  backtrack : List Bool
  numBacktracks : ℕ := 0
  readFromPast : List ActionId := []
  readFromPastIdx : ℕ := 0
  readFromPromises : List ActionId := []
  readFromPromiseIdx : ℤ := -1
  futureValues : List FutureValue := []
  futureIndex : ℤ := -1
  resolvePromise : List Bool := []
  resolvePromiseIdx : ℤ := -1
  relseqBreakWrites : List (Option ActionId) := []
  relseqBreakIndex : ℤ := 0
  miscIndex : ℤ := 0
  miscMax : ℤ := 0
  deriving DecidableEq, Repr

/-! ### Cursors -/

section Cursor
variable {α : Type} [LinearOrder α] [Add α] [One α]

/-- The common body of the increment functions: the new index, and whether it is in range. -/
def advanceIndex (index size : α) : α × Bool :=
  if index < size then (index + 1,index + 1 < size) else (index,false)

def indexAtEnd (index size : α) : Bool := index + 1 ≥ size

theorem advanceIndex_eq_true {index size i : α} (h : advanceIndex index size = (i,true)) :
    index < size ∧ i = index + 1 ∧ i < size := by
  by_cases hlt : index < size
  · rw [advanceIndex,if_pos hlt,Prod.mk.injEq,decide_eq_true_eq] at h
    exact ⟨hlt,h.1.symm,h.1 ▸ h.2⟩
  · simp [advanceIndex,hlt] at h

theorem advanceIndex_eq_false {index size i : α} (h : advanceIndex index size = (i,false)) :
    (index < size ∧ i = index + 1 ∧ size ≤ i) ∨ (size ≤ index ∧ i = index) := by
  by_cases hlt : index < size
  · rw [advanceIndex,if_pos hlt,Prod.mk.injEq,decide_eq_false_iff_not,not_lt] at h
    exact .inl ⟨hlt,h.1.symm,h.1 ▸ h.2⟩
  · simp only [advanceIndex,if_neg hlt,Prod.mk.injEq] at h
    exact .inr ⟨not_lt.mp hlt,h.1.symm⟩

end Cursor

namespace Node

/-- The constructor. -/
def create (act : ActionId) (tid : ThreadId) (nthreads : ℕ) : Node where
  action := act
  tid := tid
  exploredChildren := List.replicate nthreads false
  backtrack := List.replicate nthreads false

/-! ### Threads -/

def hasBeenExplored (n : Node) (tid : ThreadId) : Bool := n.exploredChildren.getD tid false

def inBacktrack (n : Node) (tid : ThreadId) : Bool := n.backtrack.getD tid false

def backtrackEmpty (n : Node) : Bool := n.numBacktracks == 0

def explore (n : Node) (tid : ThreadId) : Result Node := do
  assert (tid < n.backtrack.length)
  let n :=
    if n.inBacktrack tid then
      { n with backtrack := n.backtrack.set tid false,numBacktracks := n.numBacktracks - 1 }
    else n
  pure { n with exploredChildren := n.exploredChildren.set tid true }

/-- The scheduler's view of the threads, which the fairness rules read, is left out. -/
def exploreChild (n : Node) (tid : ThreadId) : Result Node := n.explore tid

/-- False if the thread was already set to be backtracked. -/
def setBacktrack (n : Node) (id : ThreadId) : Result (Node × Bool) := do
  assert (id < n.backtrack.length)
  if n.inBacktrack id then pure (n,false)
  else
    pure ({ n with backtrack := n.backtrack.set id true,numBacktracks := n.numBacktracks + 1 },
      true)

/-- Takes the first thread out of the set. -/
def getNextBacktrack (n : Node) : Result (Node × ThreadId) :=
  match n.backtrack.findIdx? (· == true) with
  | none => .error .assertion
  | some i =>
    .ok ({ n with backtrack := n.backtrack.set i false,numBacktracks := n.numBacktracks - 1 },i)

def clearBacktracking (n : Node) : Node :=
  { n with
    backtrack := n.backtrack.map fun _ => false
    exploredChildren := n.exploredChildren.map fun _ => false
    numBacktracks := 0 }

/-! ### Promises to resolve -/

def setPromise (n : Node) (i : ℕ) : Node :=
  { n with resolvePromise := setPadded n.resolvePromise false (i + 1) i true }

def getPromise (n : Node) (i : ℕ) : Bool :=
  i < n.resolvePromise.length && (i : ℤ) == n.resolvePromiseIdx

/-- The first promise to resolve from an index on. -/
def nextPromise (marks : List Bool) (i : ℕ) : Option ℕ :=
  ((marks.drop i).findIdx? (· == true)).map (· + i)

theorem nextPromise_eq_some {marks : List Bool} {k i : ℕ} (h : nextPromise marks k = some i) :
    k ≤ i ∧ marks.getD i false = true ∧ ∀ j, k ≤ j → j < i → marks.getD j false = false := by
  rw [nextPromise,Option.map_eq_some_iff] at h
  obtain ⟨d,hd,rfl⟩ := h
  rw [List.findIdx?_eq_some_iff_getElem] at hd
  obtain ⟨hlen,hmark,hfirst⟩ := hd
  rw [List.length_drop] at hlen
  have hget : ∀ j, marks.getD (j + k) false = (marks.drop k).getD j false := by
    intro j
    rw [List.getD_eq_getElem?_getD,List.getD_eq_getElem?_getD,List.getElem?_drop,Nat.add_comm]
  refine ⟨Nat.le_add_left k d,?_,?_⟩
  · rw [hget,List.getD_eq_getElem _ _ (by rw [List.length_drop]; exact hlen)]
    simpa using hmark
  · intro j hk hj
    have hlt : j - k < d := by omega
    have hj' := hfirst (j - k) hlt
    rw [show j = j - k + k by omega,hget,
      List.getD_eq_getElem _ _ (by rw [List.length_drop]; omega)]
    simpa using hj'

theorem nextPromise_eq_none {marks : List Bool} {k : ℕ} :
    nextPromise marks k = none ↔ ∀ j, k ≤ j → marks.getD j false = false := by
  rw [nextPromise,Option.map_eq_none_iff,List.findIdx?_eq_none_iff]
  constructor
  · intro h j hj
    by_cases hlen : j < marks.length
    · have hmem : marks[j] ∈ marks.drop k := List.mem_drop_iff_getElem.mpr ⟨j - k,by omega,by
        congr 1; omega⟩
      rw [List.getD_eq_getElem _ _ hlen]
      simpa using h _ hmem
    · rw [List.getD_eq_default _ _ (not_lt.mp hlen)]
  · intro h x hx
    obtain ⟨j,hj,rfl⟩ := List.mem_drop_iff_getElem.mp hx
    have hmark := h (k + j) (Nat.le_add_right k j)
    rw [List.getD_eq_getElem _ _ (by omega)] at hmark
    simpa using hmark

def incrementPromise (n : Node) : Node × Bool :=
  match nextPromise n.resolvePromise (n.resolvePromiseIdx + 1).toNat with
  | some i => ({ n with resolvePromiseIdx := i },true)
  | none => (n,false)

def promiseEmpty (n : Node) : Bool :=
  (n.resolvePromise.drop (n.resolvePromiseIdx + 1).toNat).all (· == false)

theorem promiseEmpty_iff (n : Node) : n.promiseEmpty = true ↔
    nextPromise n.resolvePromise (n.resolvePromiseIdx + 1).toNat = none := by
  rw [promiseEmpty,nextPromise,Option.map_eq_none_iff,List.findIdx?_eq_none_iff,
    List.all_eq_true]
  simp

def clearPromiseResolutions (n : Node) : Node :=
  { n with resolvePromise := [],resolvePromiseIdx := -1 }

/-! ### Miscellaneous values -/

def setMiscMax (n : Node) (i : ℤ) : Node := { n with miscMax := i }

def getMisc (n : Node) : ℤ := n.miscIndex

def incrementMisc (n : Node) : Node × Bool :=
  let (i,more) := advanceIndex n.miscIndex n.miscMax
  ({ n with miscIndex := i },more)

def miscEmpty (n : Node) : Bool := indexAtEnd n.miscIndex n.miscMax

/-! ### Reads -/

def addReadFromPast (n : Node) (act : ActionId) : Node :=
  { n with readFromPast := n.readFromPast ++ [act] }

def getReadFromPast (n : Node) : Option ActionId := n.readFromPast[n.readFromPastIdx]?

def readFromPastEmpty (n : Node) : Bool := indexAtEnd n.readFromPastIdx n.readFromPast.length

def incrementReadFromPast (n : Node) : Node × Bool :=
  let (i,more) := advanceIndex n.readFromPastIdx n.readFromPast.length
  ({ n with readFromPastIdx := i },more)

def addReadFromPromise (n : Node) (reader : ActionId) : Node :=
  { n with readFromPromises := n.readFromPromises ++ [reader] }

/-- The reader whose promise is read. -/
def getReadFromPromise (n : Node) : Result ActionId :=
  match (if 0 ≤ n.readFromPromiseIdx then n.readFromPromises[n.readFromPromiseIdx.toNat]?
    else none) with
  | some reader => .ok reader
  | none => .error .assertion

def readFromPromiseEmpty (n : Node) : Bool :=
  indexAtEnd n.readFromPromiseIdx (n.readFromPromises.length : ℤ)

def incrementReadFromPromise (n : Node) : Node × Bool :=
  let (i,more) := advanceIndex n.readFromPromiseIdx (n.readFromPromises.length : ℤ)
  ({ n with readFromPromiseIdx := i },more)

/-- The loop of `add_future_value`: `none` if the value was already set with at least this
expiration, else the highest index of the value. -/
def findFutureValue (fv : FutureValue) : ℕ → ℤ → List FutureValue → Option ℤ
  | _,idx,[] => some idx
  | i,idx,fv' :: fvs =>
    if fv'.value == fv.value && fv'.tid == fv.tid then
      if fv.expiration ≤ fv'.expiration then none else findFutureValue fv (i + 1) i fvs
    else findFutureValue fv (i + 1) idx fvs

/-- A value that is not explored yet gets the new expiration; one that is explored is added again
only outside the sloppy window, the end of which is an `unsigned int`. -/
def addFutureValue (params : ModelParams) (n : Node) (fv : FutureValue) : Node × Bool :=
  match findFutureValue fv 0 (-1) n.futureValues with
  | none => (n,false)
  | some idx =>
    if idx > n.futureIndex then
      ({ n with futureValues :=
          n.futureValues.modify idx.toNat fun fv' => { fv' with expiration := fv.expiration } },
        true)
    else if 0 ≤ idx &&
        n.futureValues[idx.toNat]?.any fun fv' =>
          fv.expiration ≤ (fv'.expiration + params.expireslop) % 2 ^ 32
    then (n,false)
    else if params.maxfuturevalues > 0 && n.futureValues.length ≥ params.maxfuturevalues then
      (n,false)
    else ({ n with futureValues := n.futureValues ++ [fv] },true)

def getFutureValue (n : Node) : Result FutureValue :=
  match (if 0 ≤ n.futureIndex then n.futureValues[n.futureIndex.toNat]? else none) with
  | some fv => .ok fv
  | none => .error .assertion

def futureValueEmpty (n : Node) : Bool := indexAtEnd n.futureIndex (n.futureValues.length : ℤ)

def incrementFutureValue (n : Node) : Node × Bool :=
  let (i,more) := advanceIndex n.futureIndex (n.futureValues.length : ℤ)
  ({ n with futureIndex := i },more)

/-- Past writes come first, then the readers of promises, then future values. -/
def incrementReadFrom (n : Node) : Node × Bool :=
  match n.clearPromiseResolutions.incrementReadFromPast with
  | (n,true) => ({ n with readFromStatus := .past },true)
  | (n,false) =>
    match n.incrementReadFromPromise with
    | (n,true) => ({ n with readFromStatus := .promise },true)
    | (n,false) =>
      match n.incrementFutureValue with
      | (n,true) => ({ n with readFromStatus := .future },true)
      | (n,false) => ({ n with readFromStatus := .none },false)

/-- Without a past write the iteration starts behind them. -/
def getReadFromStatus (n : Node) : Node × ReadFromType :=
  if n.readFromStatus = .past ∧ n.readFromPast = [] then
    (n.incrementReadFrom.1,n.incrementReadFrom.1.readFromStatus)
  else (n,n.readFromStatus)

def readFromEmpty (n : Node) : Bool :=
  n.readFromPastEmpty && n.readFromPromiseEmpty && n.futureValueEmpty

def readFromSize (n : Node) : ℕ :=
  n.readFromPast.length + n.readFromPromises.length + n.futureValues.length

/-! ### Release sequences -/

def addRelseqBreak (n : Node) (write : Option ActionId) : Node :=
  { n with relseqBreakWrites := n.relseqBreakWrites ++ [write] }

def getRelseqBreak (n : Node) : Option ActionId :=
  (n.relseqBreakWrites[n.relseqBreakIndex.toNat]?).join

def incrementRelseqBreak (n : Node) : Node × Bool :=
  let (i,more) := advanceIndex n.relseqBreakIndex (n.relseqBreakWrites.length : ℤ)
  ({ n with relseqBreakIndex := i },more)

def relseqBreakEmpty (n : Node) : Bool :=
  indexAtEnd n.relseqBreakIndex (n.relseqBreakWrites.length : ℤ)

/-! ### All behaviours -/

/-- Moves on to a behaviour that is not explored yet, if there is one. -/
def incrementBehaviors (n : Node) : Node × Bool :=
  match n.incrementMisc with
  | (n,true) => (n,true)
  | (n,false) =>
    match n.incrementPromise with
    | (n,true) => (n,true)
    | (n,false) =>
      match n.incrementReadFrom with
      | (n,true) => (n,true)
      | (n,false) => n.incrementRelseqBreak

/-- The tests of `check_curr_backtracking` on the node of the current action. -/
def allEmpty (n : Node) : Bool :=
  n.miscEmpty && n.readFromEmpty && n.promiseEmpty && n.relseqBreakEmpty

end Node
end CdsChecker
