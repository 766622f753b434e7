import Mathlib.Algebra.BigOperators.Group.Finset.Basic
import Mathlib.Algebra.BigOperators.Ring.Finset
import Mathlib.Tactic

/-! Counting over a window of indices: when an index is added another may leave, and a count is
kept up by what the two contribute. -/

namespace SlidingWindow

open Finset

/-- The indices up to `k` that have not left; `leaves` tells which one leaves when an index is
added. -/
def window (leaves : ℕ → Option ℕ) (k : ℕ) : Finset ℕ :=
  (range (k + 1)).filter fun j : ℕ => ∀ l : ℕ, l < k + 1 → leaves l ≠ some j

variable {leaves : ℕ → Option ℕ}

theorem mem_window {k j : ℕ} :
    j ∈ window leaves k ↔ j ≤ k ∧ ∀ l ≤ k, leaves l ≠ some j := by
  simp [window]

/-- Each index leaves once, after it was added. -/
structure Orderly (leaves : ℕ → Option ℕ) : Prop where
  earlier : ∀ {k j}, leaves k = some j → j < k
  once : ∀ {k l j}, leaves k = some j → leaves l = some j → k = l

theorem window_zero (h : Orderly leaves) : window leaves 0 = {0} := by
  ext j
  rw [mem_window,mem_singleton]
  constructor
  · exact fun hj => Nat.le_zero.mp hj.1
  · rintro rfl
    exact ⟨le_refl _,fun l hl hleaves => absurd (h.earlier hleaves) (Nat.not_lt.mpr hl)⟩

theorem mem_window_succ (h : Orderly leaves) {k j : ℕ} : j ∈ window leaves (k + 1) ↔
    (j = k + 1 ∨ j ∈ window leaves k) ∧ leaves (k + 1) ≠ some j := by
  rw [mem_window,mem_window]
  constructor
  · rintro ⟨hj,hstay⟩
    refine ⟨?_,hstay (k + 1) (le_refl _)⟩
    rcases Nat.eq_or_lt_of_le hj with rfl | hlt
    · exact .inl rfl
    · exact .inr ⟨Nat.lt_succ_iff.mp hlt,fun l hl => hstay l (Nat.le_succ_of_le hl)⟩
  · rintro ⟨rfl | ⟨hj,hstay⟩,hlast⟩
    · exact ⟨le_refl _,fun l hl hleaves => absurd (h.earlier hleaves) (Nat.not_lt.mpr hl)⟩
    · refine ⟨Nat.le_succ_of_le hj,fun l hl => ?_⟩
      rcases Nat.eq_or_lt_of_le hl with rfl | hlt
      · exact hlast
      · exact hstay l (Nat.lt_succ_iff.mp hlt)

/-- The index that leaves was still in the window. -/
theorem mem_window_of_leaves (h : Orderly leaves) {k j : ℕ} (hleaves : leaves (k + 1) = some j) :
    j ∈ window leaves k := by
  refine mem_window.mpr ⟨Nat.lt_succ_iff.mp (h.earlier hleaves),fun l hl hl' => ?_⟩
  exact absurd (h.once hl' hleaves) (by omega)

/-- What a step of the window does to a sum over it. -/
theorem sum_window_succ (h : Orderly leaves) (f : ℕ → ℤ) (k : ℕ) :
    ∑ j ∈ window leaves (k + 1), f j =
      ∑ j ∈ window leaves k, f j + f (k + 1) - ((leaves (k + 1)).map f).getD 0 := by
  have hnew : k + 1 ∉ window leaves k := fun hmem => by
    have := (mem_window.mp hmem).1
    omega
  cases hleaves : leaves (k + 1) with
  | none =>
    have hwindow : window leaves (k + 1) = insert (k + 1) (window leaves k) := by
      ext j
      rw [mem_insert,mem_window_succ h,hleaves]
      simp
    rw [hwindow,sum_insert hnew]
    simp [add_comm]
  | some l =>
    have hne : l ≠ k + 1 := Nat.ne_of_lt (h.earlier hleaves)
    have hwindow : window leaves (k + 1) = insert (k + 1) ((window leaves k).erase l) := by
      ext j
      rw [mem_insert,mem_erase,mem_window_succ h,hleaves,ne_eq,Option.some.injEq]
      constructor
      · rintro ⟨rfl | hj,hl⟩
        · exact .inl rfl
        · exact .inr ⟨Ne.symm hl,hj⟩
      · rintro (rfl | ⟨hl,hj⟩)
        · exact ⟨.inl rfl,hne⟩
        · exact ⟨.inr hj,Ne.symm hl⟩
    rw [hwindow,sum_insert fun hmem => hnew (mem_of_mem_erase hmem),
      sum_erase_eq_sub (mem_window_of_leaves h hleaves)]
    simp only [Option.map_some,Option.getD_some]
    ring

theorem sum_window_eq_card (p : ℕ → Prop) [DecidablePred p] (k : ℕ) :
    ∑ j ∈ window leaves k, (if p j then (1 : ℤ) else 0) = ((window leaves k).filter p).card := by
  simp

end SlidingWindow
