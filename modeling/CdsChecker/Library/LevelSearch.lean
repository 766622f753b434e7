import Mathlib.Data.List.Basic
import Mathlib.Tactic

/-! A queue that is served from the front and gets the children of what is served at its end. -/
namespace CdsChecker

variable {α β : Type} (children : α → List α)

/-- Level by level. -/
def level (q : List α) : ℕ → List α
  | 0 => q
  | n + 1 => (level q n).flatMap children

/-- The first `n` levels, one after the other. -/
def levels (q : List α) : ℕ → List α
  | 0 => []
  | n + 1 => levels q n ++ level children q n

/-- Serving the queue: each element changes the state, and its children queue up. -/
def serve (step : β → α → β) : ℕ → List α → β → Option β
  | _,[],s => some s
  | 0,_ :: _,_ => none
  | fuel + 1,x :: q,s => serve step fuel (q ++ children x) (step s x)

variable {children} {q : List α}

theorem level_succ (q : List α) (n : ℕ) :
    level children q (n + 1) = level children (q.flatMap children) n := by
  induction n with
  | zero => rfl
  | succ n ih => rw [level,ih,level]

theorem levels_succ (q : List α) (n : ℕ) :
    levels children q (n + 1) = q ++ levels children (q.flatMap children) n := by
  induction n with
  | zero => simp [levels,level]
  | succ n ih => rw [levels,ih,level_succ,List.append_assoc,levels]

variable {step : β → α → β} {s : β}

/-- A whole queue is served, and its children have queued up. -/
theorem serve_append (q r : List α) (fuel : ℕ) (s : β) :
    serve children step (q.length + fuel) (q ++ r) s =
      serve children step fuel (r ++ q.flatMap children) (q.foldl step s) := by
  induction q generalizing r s with
  | nil => simp
  | cons x q ih =>
    rw [List.length_cons,Nat.add_right_comm,List.cons_append,serve,List.append_assoc,ih]
    simp

/-- Where the levels come to an end they are served in their order. -/
theorem exists_serve {n : ℕ} (hempty : level children q n = []) :
    ∃ fuel, serve children step fuel q s = some ((levels children q n).foldl step s) := by
  induction n generalizing q s with
  | zero =>
    obtain rfl : q = [] := hempty
    exact ⟨0,rfl⟩
  | succ n ih =>
    rw [level_succ] at hempty
    obtain ⟨fuel,hserve⟩ := ih (s := q.foldl step s) hempty
    refine ⟨q.length + fuel,?_⟩
    have hfirst : serve children step (q.length + fuel) (q ++ []) s =
        serve children step fuel ([] ++ q.flatMap children) (q.foldl step s) :=
      serve_append q [] fuel s
    rw [List.append_nil,List.nil_append] at hfirst
    rw [hfirst,hserve,levels_succ,List.foldl_append]

theorem mem_levels {x : α} {n : ℕ} : x ∈ levels children q n ↔ ∃ k < n, x ∈ level children q k := by
  induction n with
  | zero => simp [levels]
  | succ n ih =>
    rw [levels,List.mem_append,ih]
    constructor
    · rintro (⟨k,hk,hx⟩ | hx)
      · exact ⟨k,Nat.lt_succ_of_lt hk,hx⟩
      · exact ⟨n,Nat.lt_succ_self n,hx⟩
    · rintro ⟨k,hk,hx⟩
      rcases Nat.lt_succ_iff_lt_or_eq.mp hk with hlt | rfl
      · exact .inl ⟨k,hlt,hx⟩
      · exact .inr hx

end CdsChecker
