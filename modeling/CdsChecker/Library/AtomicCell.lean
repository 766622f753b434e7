import Mathlib.Data.List.Basic

/-! One atomic location with its modification order: a load reads some value of the order,
a read-modify-write the latest. -/

/-- The values an atomic location has had, the latest apart. -/
structure AtomicCell (α : Type*) where
  earlier : List α
  latest : α
  deriving DecidableEq, Repr

namespace AtomicCell

variable {α : Type*}

def values (a : AtomicCell α) : List α := a.earlier ++ [a.latest]

/-- The index of the latest value. -/
def position (a : AtomicCell α) : ℕ := a.earlier.length

def load (a : AtomicCell α) (i : ℕ) : Option α := a.values[i]?

def store (a : AtomicCell α) (v : α) : AtomicCell α := ⟨a.values,v⟩

/-- Every value that a load may read satisfies `P`. -/
def All (a : AtomicCell α) (P : α → Prop) : Prop := ∀ i v, a.load i = some v → P v

@[simp] theorem latest_store (a : AtomicCell α) (v : α) : (a.store v).latest = v := rfl

@[simp] theorem values_store (a : AtomicCell α) (v : α) :
    (a.store v).values = a.values ++ [v] := rfl

@[simp] theorem length_values (a : AtomicCell α) : a.values.length = a.position + 1 := by
  simp [values,position]

theorem load_store (a : AtomicCell α) (v : α) (i : ℕ) :
    (a.store v).load i = if i = a.position + 1 then some v else a.load i := by
  rw [load,values_store]
  rcases Nat.lt_trichotomy i (a.position + 1) with hi | hi | hi
  · rw [List.getElem?_append_left (by simpa using hi),if_neg (by omega)]
    rfl
  · rw [if_pos hi,hi,← length_values]
    exact List.getElem?_concat_length
  · rw [if_neg (by omega),List.getElem?_eq_none (by simp; omega)]
    exact (List.getElem?_eq_none (by simp; omega)).symm

theorem load_position (a : AtomicCell α) : a.load a.position = some a.latest := by
  simp [load,values,position]

theorem load_of_position_lt {a : AtomicCell α} {i : ℕ} (h : a.position < i) : a.load i = none :=
  List.getElem?_eq_none (by simp; omega)

theorem load_eq_latest {a : AtomicCell α} {i : ℕ} {v : α} (h : a.load i = some v)
    (hi : a.position ≤ i) : v = a.latest := by
  rcases Nat.eq_or_lt_of_le hi with rfl | hlt
  · rw [load_position] at h
    exact (Option.some.inj h).symm
  · rw [load_of_position_lt hlt] at h
    cases h

theorem All.store {a : AtomicCell α} {P : α → Prop} (h : a.All P) {v : α} (hv : P v) :
    (a.store v).All P := by
  intro i w hw
  rw [load_store] at hw
  split at hw
  · exact Option.some.inj hw ▸ hv
  · exact h i w hw

theorem All.latest {a : AtomicCell α} {P : α → Prop} (h : a.All P) : P a.latest :=
  h a.position a.latest a.load_position

end AtomicCell
