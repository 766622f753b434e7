import CdsChecker.Basic
import Mathlib.Data.List.Basic
import Mathlib.Tactic

/-! Clock vectors: one clock for each thread, zero where the array ends. -/
namespace CdsChecker

structure ClockVector where
  clock : List ℕ
  deriving DecidableEq, Repr

namespace ClockVector

def numThreads (cv : ClockVector) : ℕ := cv.clock.length

def getClock (cv : ClockVector) (thread : ThreadId) : ℕ := cv.clock.getD thread 0

/-- The constructor: a copy of the parent's clocks with the action's own clock on top. -/
def create (parent : Option ClockVector) (tid : ThreadId) (seq : ℕ) : ClockVector :=
  let old := (parent.map clock).getD []
  ⟨(old ++ List.replicate (tid + 1 - old.length) 0).set tid seq⟩

/-- Element-wise maximum, and whether an entry of this vector grew. -/
def merge (cv cv' : ClockVector) : ClockVector × Bool :=
  (⟨(List.range (max cv.numThreads cv'.numThreads)).map fun i =>
      max (cv.getClock i) (cv'.getClock i)⟩,
    (List.range cv'.numThreads).any fun i => cv.getClock i < cv'.getClock i)

def synchronizedSince (cv : ClockVector) (tid : ThreadId) (seq : ℕ) : Bool :=
  tid < cv.numThreads && seq ≤ cv.getClock tid

theorem getClock_of_le {cv : ClockVector} {t : ThreadId} (h : cv.numThreads ≤ t) :
    cv.getClock t = 0 := by
  rw [getClock,List.getD,List.getElem?_eq_none h,Option.getD_none]

/-- Writing behind the end of an array of clocks pads it with zeros. -/
theorem getD_set_padded (l : List ℕ) (p a j : ℕ) :
    ((l ++ List.replicate (p + 1 - l.length) 0).set p a).getD j 0 =
      if j = p then a else l.getD j 0 := by
  have hlen : p < (l ++ List.replicate (p + 1 - l.length) 0).length := by
    rw [List.length_append,List.length_replicate]
    omega
  by_cases hj : j = p
  · subst hj
    rw [if_pos rfl,List.getD,List.getElem?_set_self hlen,Option.getD_some]
  · rw [if_neg hj,List.getD,List.getElem?_set_ne (Ne.symm hj)]
    by_cases hl : j < l.length
    · rw [List.getElem?_append_left hl,List.getD]
    · rw [List.getElem?_append_right (not_lt.mp hl),List.getElem?_replicate,List.getD,
        List.getElem?_eq_none (not_lt.mp hl)]
      split <;> rfl

theorem getClock_create (parent : Option ClockVector) (tid t : ThreadId) (seq : ℕ) :
    (create parent tid seq).getClock t =
      if t = tid then seq else (parent.map fun cv => cv.getClock t).getD 0 := by
  rw [getClock,create,getD_set_padded]
  cases parent <;> simp [getClock]

@[simp] theorem getClock_merge (cv cv' : ClockVector) (t : ThreadId) :
    (cv.merge cv').1.getClock t = max (cv.getClock t) (cv'.getClock t) := by
  by_cases h : t < max cv.numThreads cv'.numThreads
  · simp only [merge,getClock,List.getD]
    rw [List.getElem?_map,List.getElem?_range h]
    rfl
  · have h' : ¬ t < (cv.merge cv').1.numThreads := by simpa [merge,numThreads] using h
    rw [not_lt,max_le_iff] at h
    rw [getClock_of_le (not_lt.mp h'),getClock_of_le h.1,getClock_of_le h.2]
    simp

theorem merge_changed (cv cv' : ClockVector) :
    (cv.merge cv').2 = true ↔ ∃ t, cv.getClock t < cv'.getClock t := by
  simp only [merge,List.any_eq_true,List.mem_range,decide_eq_true_eq]
  constructor
  · rintro ⟨t,_,ht⟩
    exact ⟨t,ht⟩
  · rintro ⟨t,ht⟩
    refine ⟨t,?_,ht⟩
    by_contra hlen
    rw [getClock_of_le (not_lt.mp hlen)] at ht
    exact absurd ht (Nat.not_lt_zero _)

/-- Knowing an action means having reached its clock. -/
theorem synchronizedSince_iff {cv : ClockVector} {tid : ThreadId} {seq : ℕ} (h : 0 < seq) :
    cv.synchronizedSince tid seq = true ↔ seq ≤ cv.getClock tid := by
  simp only [synchronizedSince,Bool.and_eq_true,decide_eq_true_eq,and_iff_right_iff_imp]
  intro hle
  by_contra hlen
  rw [getClock_of_le (not_lt.mp hlen)] at hle
  omega

end ClockVector
end CdsChecker
