import CdsChecker.Action

/-! Promised future values: the readers of the value and the threads that may still write it. -/
namespace CdsChecker

structure FutureValue where
  value : ℕ
  expiration : ℕ
  tid : ThreadId
  deriving DecidableEq, Repr

structure Promise where
  fv : FutureValue
  availableThread : List Bool := []
  wasAvailableThread : List Bool := []
  numAvailableThreads : ℕ := 0
  numWasAvailableThreads : ℕ := 0
  readers : List ActionId
  deriving DecidableEq, Repr

/-- Writing behind the end of a vector, after filling it up. -/
def setPadded {α : Type} (l : List α) (fill : α) (size i : ℕ) (x : α) : List α :=
  (l ++ List.replicate (size - l.length) fill).set i x

theorem getD_setPadded {α : Type} (l : List α) (fill : α) (i j : ℕ) (x : α) :
    (setPadded l fill (i + 1) i x).getD j fill = if j = i then x else l.getD j fill := by
  have hlen : i < (l ++ List.replicate (i + 1 - l.length) fill).length := by
    rw [List.length_append,List.length_replicate]
    omega
  by_cases hj : j = i
  · rw [if_pos hj,hj,setPadded,List.getD,List.getElem?_set_self hlen,Option.getD_some]
  · rw [if_neg hj,setPadded,List.getD,List.getElem?_set_ne (Ne.symm hj)]
    by_cases hl : j < l.length
    · rw [List.getElem?_append_left hl,List.getD]
    · rw [List.getElem?_append_right (not_lt.mp hl),List.getElem?_replicate,List.getD,
        List.getElem?_eq_none (not_lt.mp hl)]
      split <;> rfl

namespace Promise

def threadIsAvailable (p : Promise) (tid : ThreadId) : Bool := p.availableThread.getD tid false

def threadWasAvailable (p : Promise) (tid : ThreadId) : Bool := p.wasAvailableThread.getD tid false

def hasFailed (p : Promise) : Bool := p.numAvailableThreads == 0

/-- True when the promise cannot be kept any more. -/
def eliminateThread (p : Promise) (tid : ThreadId) : Promise × Bool :=
  if !p.threadIsAvailable tid then (p,false)
  else
    let p := { p with
      availableThread := p.availableThread.set tid false
      numAvailableThreads := p.numAvailableThreads - 1 }
    (p,p.hasFailed)

def addThread (p : Promise) (tid : ThreadId) : Promise :=
  let p :=
    if p.threadIsAvailable tid then p
    else { p with
      availableThread := setPadded p.availableThread false (tid + 1) tid true
      numAvailableThreads := p.numAvailableThreads + 1 }
  if p.threadWasAvailable tid then p
  else { p with
    wasAvailableThread := setPadded p.wasAvailableThread false (tid + 1) tid true
    numWasAvailableThreads := p.numWasAvailableThreads + 1 }

/-- The constructor: the reader's own thread cannot write the value it has read. -/
def create (read : ActionId) (tid : ThreadId) (fv : FutureValue) : Promise :=
  ((({ fv := fv,readers := [read] } : Promise).addThread fv.tid).eliminateThread tid).1

def addReader (p : Promise) (reader : ActionId) (tid : ThreadId) : Promise × Bool :=
  ({ p with readers := p.readers ++ [reader] } : Promise).eliminateThread tid

end Promise
end CdsChecker
