import CdsChecker.Basic
import Mathlib.Data.List.Basic
import Mathlib.Order.Lattice

/-! The stack of snapshots of `snapshot-interface.cc`, newest last. -/
namespace CdsChecker

structure SnapshotEntry where
  snapshotid : ℕ
  index : ℤ
  deriving DecidableEq, Repr

namespace SnapshotStack

def snapshotStep (stack : List SnapshotEntry) (snapshotid : ℕ) (seqindex : ℤ) :
    List SnapshotEntry :=
  stack ++ [⟨snapshotid,seqindex⟩]

/-- The loop of `backTrackBeforeStep`: it counts `i` up while it drops entries from the end. -/
def backTrackLoop (seqindex : ℤ) : ℕ → ℤ → List SnapshotEntry → Result (ℤ × List SnapshotEntry)
  | 0,_,_ => .error .diverges
  | n + 1,i,stack =>
    if i < 0 then .ok (i,stack)
    else match stack[i.toNat]? with
      | none => .error .outOfBounds
      | some entry =>
        if entry.index ≤ seqindex then .ok (i,stack)
        else backTrackLoop seqindex n (i + 1) stack.dropLast

/-- The stack left, the snapshot rolled back to and the index returned. -/
def backTrackBeforeStep (stack : List SnapshotEntry) (seqindex : ℤ) :
    Result (List SnapshotEntry × ℕ × ℤ) := do
  let (i,stack) ← backTrackLoop seqindex (stack.length + 2) (stack.length - 1) stack
  assert (decide (0 ≤ i))
  match stack[i.toNat]? with
  | none => .error .outOfBounds
  | some entry => .ok (stack,entry.snapshotid,entry.index)

/-- The entry of the largest index not after `seqindex` is rolled back to, and those above it
are gone. -/
def BackTracks (stack : List SnapshotEntry) (seqindex : ℤ) : Prop :=
  ∃ entry ∈ stack, entry.index ≤ seqindex ∧
    (∀ x ∈ stack, x.index ≤ seqindex → x.index ≤ entry.index) ∧
    backTrackBeforeStep stack seqindex =
      .ok (stack.filter (·.index ≤ entry.index),entry.snapshotid,entry.index)

theorem backTrackLoop_top (older : List SnapshotEntry) (top : SnapshotEntry) (seqindex : ℤ)
    (n : ℕ) :
    backTrackLoop seqindex (n + 1) older.length (older ++ [top]) =
      if top.index ≤ seqindex then .ok (older.length,older ++ [top])
      else backTrackLoop seqindex n (older.length + 1) older := by
  rw [backTrackLoop,if_neg (by omega)]
  simp

/-- The index behind the entry just dropped is two behind the end. -/
theorem backTrackLoop_dropped (older : List SnapshotEntry) (seqindex : ℤ) (n : ℕ) :
    backTrackLoop seqindex (n + 1) (older.length + 1) older = .error .outOfBounds := by
  have hi : ((older.length : ℤ) + 1).toNat = older.length + 1 := by omega
  rw [backTrackLoop,if_neg (by omega),hi,List.getElem?_eq_none (Nat.le_succ _)]

theorem backTrackBeforeStep_concat (older : List SnapshotEntry) (top : SnapshotEntry)
    (seqindex : ℤ) :
    backTrackBeforeStep (older ++ [top]) seqindex =
      if top.index ≤ seqindex then .ok (older ++ [top],top.snapshotid,top.index)
      else .error .outOfBounds := by
  have hlast : (((older ++ [top]).length : ℕ) : ℤ) - 1 = older.length := by simp
  rw [backTrackBeforeStep,hlast,backTrackLoop_top]
  by_cases h : top.index ≤ seqindex
  · rw [if_pos h,if_pos h]
    simp [bind,Except.bind,assert]
  · rw [if_neg h,if_neg h,List.length_append,backTrackLoop_dropped]
    rfl

theorem getLast_cases {stack : List SnapshotEntry} (h : stack ≠ []) :
    ∃ older top, stack = older ++ [top] :=
  ⟨stack.dropLast,stack.getLast h,(List.dropLast_append_getLast h).symm⟩

/-- The loop ends: it drops one entry at most. -/
theorem backTrackBeforeStep_terminates (stack : List SnapshotEntry) (seqindex : ℤ) :
    backTrackBeforeStep stack seqindex ≠ .error .diverges := by
  by_cases hnil : stack = []
  · simp [hnil,backTrackBeforeStep,backTrackLoop,bind,Except.bind,assert]
  · obtain ⟨older,top,rfl⟩ := getLast_cases hnil
    rw [backTrackBeforeStep_concat]
    split <;> simp

/-- Going back past the newest entry. -/
theorem backTracks_too_new : ¬ ∀ (stack : List SnapshotEntry) (seqindex : ℤ),
    stack.Pairwise (·.index < ·.index) → (∃ e ∈ stack, e.index ≤ seqindex) →
      BackTracks stack seqindex := by
  intro hclaim
  obtain ⟨_,_,_,_,hstep⟩ := hclaim [⟨0,0⟩,⟨1,5⟩] 3 (by decide) (by decide)
  have hfault : backTrackBeforeStep [⟨0,0⟩,⟨1,5⟩] 3 = .error .outOfBounds := by decide
  cases hfault.symm.trans hstep

/-- Going back finds its snapshot exactly when that is the newest. -/
theorem backTracks_iff (stack : List SnapshotEntry) (seqindex : ℤ)
    (hsorted : stack.Pairwise (·.index < ·.index)) (hmem : ∃ e ∈ stack, e.index ≤ seqindex) :
    BackTracks stack seqindex ↔ ∀ top, stack.getLast? = some top → top.index ≤ seqindex := by
  obtain ⟨e,he,hle⟩ := hmem
  obtain ⟨older,top,rfl⟩ := getLast_cases (List.ne_nil_of_mem he)
  have htop : (∀ x, (older ++ [top]).getLast? = some x → x.index ≤ seqindex) ↔
      top.index ≤ seqindex := by simp
  rw [htop]
  constructor
  · rintro ⟨_,_,_,_,hstep⟩
    by_contra hnew
    rw [backTrackBeforeStep_concat,if_neg hnew] at hstep
    cases hstep
  · intro h
    have hmax : ∀ x ∈ older ++ [top], x.index ≤ top.index := fun x hx => by
      rcases List.mem_append.mp hx with hx | hx
      · exact (List.pairwise_append.mp hsorted).2.2 x hx top (by simp) |>.le
      · rw [List.mem_singleton.mp hx]
    refine ⟨top,by simp,h,fun x hx _ => hmax x hx,?_⟩
    rw [backTrackBeforeStep_concat,if_pos h,List.filter_eq_self.mpr (by simpa using hmax)]

theorem backTracks_iff_two : BackTracks [⟨0,0⟩,⟨1,5⟩] 7 ↔
    ∀ top, [(⟨0,0⟩ : SnapshotEntry),⟨1,5⟩].getLast? = some top → top.index ≤ 7 :=
  backTracks_iff [⟨0,0⟩,⟨1,5⟩] 7 (by decide) (by decide)

end SnapshotStack
end CdsChecker
