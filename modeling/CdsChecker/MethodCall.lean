import CdsChecker.Action

/-! The method calls of a specification check: the nodes of the execution graph. -/
namespace CdsChecker

/-- A `MethodCall` pointer, its address. -/
abbrev Method := ℕ

/-- `SnapSet<Method>`: the iterators go through the addresses in their order. -/
structure MethodSet where
  toList : List Method
  sorted : toList.Pairwise (· < ·)
  deriving DecidableEq

def insertSorted (m : Method) : List Method → List Method
  | [] => [m]
  | x :: xs => if m < x then m :: x :: xs else if m = x then x :: xs else x :: insertSorted m xs

theorem mem_insertSorted {m y : Method} {l : List Method} :
    y ∈ insertSorted m l ↔ y ∈ l ∨ y = m := by
  induction l with
  | nil => simp [insertSorted]
  | cons x xs ih =>
    rw [insertSorted]
    split
    · simp only [List.mem_cons]
      tauto
    · split
      · rename_i hmx
        subst hmx
        simp only [List.mem_cons]
        tauto
      · simp only [List.mem_cons,ih]
        tauto

theorem sorted_insertSorted {m : Method} {l : List Method} (h : l.Pairwise (· < ·)) :
    (insertSorted m l).Pairwise (· < ·) := by
  induction l with
  | nil => exact List.pairwise_singleton ..
  | cons x xs ih =>
    obtain ⟨hx,hxs⟩ := List.pairwise_cons.mp h
    rw [insertSorted]
    split
    · rename_i hlt
      refine List.pairwise_cons.mpr ⟨fun y hy => ?_,h⟩
      rcases List.mem_cons.mp hy with rfl | hy
      · exact hlt
      · exact Nat.lt_trans hlt (hx y hy)
    · split
      · exact h
      · rename_i hnlt hne
        refine List.pairwise_cons.mpr ⟨fun y hy => ?_,ih hxs⟩
        rcases mem_insertSorted.mp hy with hy | rfl
        · exact hx y hy
        · exact Nat.lt_of_le_of_ne (Nat.not_lt.mp hnlt) (Ne.symm hne)

namespace MethodSet

def empty : MethodSet := ⟨[],List.Pairwise.nil⟩

def insert (s : MethodSet) (m : Method) : MethodSet :=
  ⟨insertSorted m s.toList,sorted_insertSorted s.sorted⟩

instance : Membership Method MethodSet := ⟨fun s m => m ∈ s.toList⟩

instance (m : Method) (s : MethodSet) : Decidable (m ∈ s) :=
  inferInstanceAs (Decidable (m ∈ s.toList))

theorem mem_toList {m : Method} {s : MethodSet} : m ∈ s.toList ↔ m ∈ s := Iff.rfl

@[simp] theorem not_mem_empty {m : Method} : m ∉ empty := List.not_mem_nil

@[simp] theorem mem_insert {s : MethodSet} {m y : Method} : y ∈ s.insert m ↔ y ∈ s ∨ y = m :=
  mem_insertSorted

theorem nodup (s : MethodSet) : s.toList.Nodup := s.sorted.imp Nat.ne_of_lt

/-- `MethodCall::disjoint`. -/
def disjoint (s1 s2 : MethodSet) : Bool := s1.toList.all fun m => decide (m ∉ s2)

theorem disjoint_iff {s1 s2 : MethodSet} : s1.disjoint s2 = true ↔ ∀ m ∈ s1, m ∉ s2 := by
  simp only [disjoint,List.all_eq_true,decide_eq_true_eq,mem_toList]

end MethodSet

/-- `GRAPH_START`, `GRAPH_FINISH`, or the label of an interface. -/
inductive MethodName
  | start
  | finish
  | interface (label : ℕ)
  deriving DecidableEq, Repr

structure MethodCall where
  name : MethodName
  begin : Option ActionId := none
  orderingPoints : List ActionId := []
  prev : MethodSet := .empty
  next : MethodSet := .empty
  concurrent : MethodSet := .empty
  allPrev : MethodSet := .empty
  allNext : MethodSet := .empty
  justifiedMethod : Option Method := none
  justified : Bool := false
  exist : Bool := true
  deriving DecidableEq

namespace MethodCall

def isStartMethod (m : MethodCall) : Bool := m.name == .start
def isFinishMethod (m : MethodCall) : Bool := m.name == .finish
def isFakeMethod (m : MethodCall) : Bool := m.isStartMethod || m.isFinishMethod

end MethodCall
end CdsChecker
