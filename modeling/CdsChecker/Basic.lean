import Mathlib.Data.Nat.Notation
import Mathlib.Logic.Function.Basic

/-! Names shared by all parts of the checker. -/
namespace CdsChecker

/-- Pointers to `ModelAction`, `Promise` and `CycleNode` objects. -/
abbrev ActionId := ℕ
abbrev PromiseId := ℕ
abbrev NodeId := ℕ

abbrev ThreadId := ℕ

/-- Why a call does not return: a failed `ASSERT` exits the program, a loop never ends, or an
array is accessed behind its end. -/
inductive Failure
  | assertion
  | diverges
  | outOfBounds
  deriving DecidableEq, Repr

abbrev Result := Except Failure

/-- The `ASSERT` macro. -/
def assert (b : Bool) : Result Unit := if b then .ok () else .error .assertion

theorem assert_eq_ok {b : Bool} {u : Unit} : assert b = .ok u ↔ b = true := by
  cases b <;> simp [assert]

theorem assert_eq_error {b : Bool} {e : Failure} :
    assert b = .error e ↔ b = false ∧ e = .assertion := by
  cases b <;> simp [assert,eq_comm]

/-- A computation that returns splits at each bind. -/
theorem bind_eq_ok {α β : Type} {x : Result α} {f : α → Result β} {r : β} :
    (x >>= f) = .ok r ↔ ∃ a, x = .ok a ∧ f a = .ok r := by
  cases x with
  | error e => simp [bind,Except.bind]
  | ok a => simp [bind,Except.bind]

/-- A computation that fails does so in one of its parts. -/
theorem bind_eq_error {α β : Type} {x : Result α} {f : α → Result β} {e : Failure} :
    (x >>= f) = .error e ↔ x = .error e ∨ ∃ a, x = .ok a ∧ f a = .error e := by
  cases x with
  | error e' => simp [bind,Except.bind]
  | ok a => simp [bind,Except.bind]

/-- Two branches that go on in the same way. -/
theorem ite_bind_eq_ok {α β : Type} {c : Prop} [Decidable c] {x y : Result α}
    {f : α → Result β} {r : β} :
    (if c then x >>= f else y >>= f) = .ok r ↔
      ∃ a, (if c then x else y) = .ok a ∧ f a = .ok r := by
  split <;> exact bind_eq_ok

theorem map_eq_ok {α β : Type} {x : Result α} {f : α → β} {r : β} :
    x.map f = .ok r ↔ ∃ a, x = .ok a ∧ f a = r := by
  cases x with
  | error e => simp [Except.map]
  | ok a => simp [Except.map]

@[simp] theorem pure_ne_error {α : Type} {a : α} {e : Failure} :
    (pure a : Result α) ≠ .error e := by
  simp [pure,Except.pure]

@[simp] theorem pure_eq_ok {α : Type} {a b : α} : (pure a : Result α) = .ok b ↔ a = b := by
  simp [pure,Except.pure]

end CdsChecker
