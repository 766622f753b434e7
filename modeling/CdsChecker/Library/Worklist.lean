import Mathlib.Logic.Relation
import Mathlib.Data.Finset.Card
import Mathlib.Data.Finset.Dedup
import Mathlib.Tactic

/-! Depth-first worklist search over an adjacency function.
A node is recorded when it is first met and stacked once, so a search over a finite
closed universe needs no more rounds than the universe has nodes. -/
namespace Worklist

open Relation

variable {α : Type*} [DecidableEq α]

/-- One scan of an adjacency list: nodes not met before are recorded and stacked. -/
def discover : List α → List α → List α → List α × List α
  | [],seen,stack => (seen,stack)
  | n :: ns,seen,stack =>
    if n ∈ seen then discover ns seen stack else discover ns (n :: seen) (n :: stack)

/-- Pop nodes until one meets the goal: the popped nodes in order, and whether one did. -/
def visit (succ : α → List α) (goal : α → Bool) : ℕ → List α → List α → List α × Bool
  | 0,_,_ => ([],false)
  | _ + 1,_,[] => ([],false)
  | fuel + 1,seen,n :: stack =>
    if goal n then ([n],true)
    else
      let next := discover (succ n) seen stack
      let rest := visit succ goal fuel next.1 next.2
      (n :: rest.1,rest.2)

theorem mem_discover_seen (ns seen stack : List α) (x : α) :
    x ∈ (discover ns seen stack).1 ↔ x ∈ seen ∨ x ∈ ns := by
  induction ns generalizing seen stack with
  | nil => simp [discover]
  | cons n ns ih =>
    by_cases hn : n ∈ seen
    · simp only [discover,hn,if_true,ih,List.mem_cons]
      constructor
      · tauto
      · rintro (h | rfl | h) <;> tauto
    · simp only [discover,hn,if_false,ih,List.mem_cons]
      tauto

theorem mem_discover_stack (ns seen stack : List α) (x : α) :
    x ∈ (discover ns seen stack).2 ↔ x ∈ stack ∨ (x ∈ ns ∧ x ∉ seen) := by
  induction ns generalizing seen stack with
  | nil => simp [discover]
  | cons n ns ih =>
    by_cases hn : n ∈ seen
    · simp only [discover,hn,if_true,ih,List.mem_cons]
      constructor
      · tauto
      · rintro (h | ⟨rfl | h,hx⟩) <;> tauto
    · simp only [discover,hn,if_false,ih,List.mem_cons]
      by_cases hx : x = n
      · subst hx; simp [hn]
      · tauto

theorem discover_nodup (ns seen stack : List α) (h : seen.Nodup) :
    (discover ns seen stack).1.Nodup := by
  induction ns generalizing seen stack with
  | nil => exact h
  | cons n ns ih =>
    by_cases hn : n ∈ seen
    · simpa [discover,hn] using ih seen stack h
    · simpa [discover,hn] using ih (n :: seen) (n :: stack) (List.nodup_cons.mpr ⟨hn,h⟩)

/-- Every newly recorded node is stacked exactly once. -/
theorem discover_length (ns seen stack : List α) :
    (discover ns seen stack).1.length + stack.length =
      seen.length + (discover ns seen stack).2.length := by
  induction ns generalizing seen stack with
  | nil => rfl
  | cons n ns ih =>
    by_cases hn : n ∈ seen
    · simpa [discover,hn] using ih seen stack
    · have h := ih (n :: seen) (n :: stack)
      simp only [discover,hn,if_false,List.length_cons] at h ⊢
      omega

/-- The invariant of the search from `s` inside the closed universe `U`: a recorded node
is waiting on the stack, or it missed the goal and all its successors are recorded. -/
structure Invariant (succ : α → List α) (goal : α → Bool) (U : Finset α) (s : α)
    (seen stack : List α) : Prop where
  nodup : seen.Nodup
  sub : ∀ x ∈ seen, x ∈ U
  start : s ∈ seen
  reach : ∀ x ∈ seen, ReflTransGen (fun a b => b ∈ succ a) s x
  waiting : ∀ x ∈ stack, x ∈ seen
  closed : ∀ x ∈ seen, x ∈ stack ∨ goal x = false ∧ ∀ y ∈ succ x, y ∈ seen

variable {succ : α → List α} {goal : α → Bool} {U : Finset α} {s : α}

omit [DecidableEq α] in
theorem Invariant.init (hs : s ∈ U) : Invariant succ goal U s [s] [s] where
  nodup := by simp
  sub := by simpa using hs
  start := by simp
  reach := by intro x hx; rw [List.mem_singleton.mp hx]
  waiting := by simp
  closed := by intro x hx; exact Or.inl hx

theorem Invariant.step (hU : ∀ x ∈ U, ∀ y ∈ succ x, y ∈ U) {n : α} {seen stack : List α}
    (h : Invariant succ goal U s seen (n :: stack)) (hn : goal n = false) :
    Invariant succ goal U s (discover (succ n) seen stack).1
      (discover (succ n) seen stack).2 := by
  have hns : n ∈ seen := h.waiting n (by simp)
  refine ⟨discover_nodup _ _ _ h.nodup,?_,?_,?_,?_,?_⟩
  · intro x hx
    rcases (mem_discover_seen _ _ _ _).mp hx with hx | hx
    · exact h.sub x hx
    · exact hU n (h.sub n hns) x hx
  · exact (mem_discover_seen _ _ _ _).mpr (Or.inl h.start)
  · intro x hx
    rcases (mem_discover_seen _ _ _ _).mp hx with hx | hx
    · exact h.reach x hx
    · exact (h.reach n hns).tail hx
  · intro x hx
    rcases (mem_discover_stack _ _ _ _).mp hx with hx | hx
    · exact (mem_discover_seen _ _ _ _).mpr (Or.inl (h.waiting x (by simp [hx])))
    · exact (mem_discover_seen _ _ _ _).mpr (Or.inr hx.1)
  · intro x hx
    simp only [mem_discover_stack,mem_discover_seen] at hx ⊢
    by_cases hxs : x ∈ seen
    · rcases h.closed x hxs with hw | ⟨hg,hc⟩
      · rcases List.mem_cons.mp hw with rfl | hw
        · exact Or.inr ⟨hn,fun y hy => Or.inr hy⟩
        · exact Or.inl (Or.inl hw)
      · exact Or.inr ⟨hg,fun y hy => Or.inl (hc y hy)⟩
    · exact Or.inl (Or.inr ⟨hx.resolve_left hxs,hxs⟩)

omit [DecidableEq α] in
/-- With an empty stack the recorded nodes are closed, so the goal is out of reach. -/
theorem Invariant.exhausted {seen : List α} (h : Invariant succ goal U s seen []) {x : α}
    (hx : ReflTransGen (fun a b => b ∈ succ a) s x) : goal x = false := by
  have hmem : x ∈ seen := by
    induction hx with
    | refl => exact h.start
    | tail _ hyz ih => exact ((h.closed _ ih).resolve_left (by simp)).2 _ hyz
  exact ((h.closed x hmem).resolve_left (by simp)).1

/-- From any state that keeps the invariant, enough fuel decides reachability of the goal. -/
theorem visit_found_of_invariant (hU : ∀ x ∈ U, ∀ y ∈ succ x, y ∈ U) (fuel : ℕ)
    (seen stack : List α) (h : Invariant succ goal U s seen stack)
    (hf : U.card + stack.length < fuel + seen.length) :
    (visit succ goal fuel seen stack).2 = true ↔
      ∃ x, ReflTransGen (fun a b => b ∈ succ a) s x ∧ goal x = true := by
  have hcard : seen.length ≤ U.card := by
    rw [← List.toFinset_card_of_nodup h.nodup]
    exact Finset.card_le_card (fun x hx => h.sub x (List.mem_toFinset.mp hx))
  induction fuel generalizing seen stack with
  | zero => omega
  | succ fuel ih =>
    cases stack with
    | nil =>
      simp only [visit,Bool.false_eq_true,false_iff,not_exists,not_and]
      intro x hx
      simp [h.exhausted hx]
    | cons n stack =>
      by_cases hn : goal n = true
      · simp only [visit,hn,if_true,true_iff]
        exact ⟨n,h.reach n (h.waiting n (by simp)),hn⟩
      · have hn' : goal n = false := by simpa using hn
        have hstep := h.step hU hn'
        have hlen := discover_length (succ n) seen stack
        simp only [List.length_cons] at hf
        have hcard' : (discover (succ n) seen stack).1.length ≤ U.card := by
          rw [← List.toFinset_card_of_nodup hstep.nodup]
          exact Finset.card_le_card (fun x hx => hstep.sub x (List.mem_toFinset.mp hx))
        simp only [visit,hn',Bool.false_eq_true,if_false]
        exact ih _ _ hstep (by omega) hcard'

/-- Search from a single node is exact when the fuel exceeds a finite closed universe. -/
theorem visit_found_iff (hU : ∀ x ∈ U, ∀ y ∈ succ x, y ∈ U) (hs : s ∈ U) {fuel : ℕ}
    (hf : U.card < fuel) :
    (visit succ goal fuel [s] [s]).2 = true ↔
      ∃ x, ReflTransGen (fun a b => b ∈ succ a) s x ∧ goal x = true :=
  visit_found_of_invariant hU fuel [s] [s] (Invariant.init hs) (by simpa using hf)

end Worklist
