import CdsChecker.InferenceSet
import Mathlib.Data.Fintype.Card
import Mathlib.Data.Fintype.Pi
import Mathlib.Tactic

/-! What `compareTo` tells apart: assignments by how they are represented. -/
namespace CdsChecker

instance : Fintype MemoryOrder :=
  ⟨{.relaxed,.acquire,.release,.acqRel,.seqCst},fun mo => by cases mo <;> decide⟩

theorem card_memoryOrder : Fintype.card MemoryOrder = 5 := rfl

namespace Inference

/-- The order of a wildcard, relaxed where there is none. -/
def order (infer : Inference) (w : ℕ) : MemoryOrder := (infer.orders[w]?).join.getD .relaxed

theorem subResult_eq_zero {mo1 mo2 : Option MemoryOrder} : subResult mo1 mo2 = 0 ↔ mo1 = mo2 := by
  rcases mo1 with _ | mo1 <;> rcases mo2 with _ | mo2
  · simp [subResult]
  · simp [subResult]
  · simp only [subResult]
    split <;> simp
  · simp only [subResult,Option.some.injEq]
    by_cases heq : mo1 = mo2
    · subst heq
      simp
    · simp only [heq,iff_false]
      split <;> decide

theorem incomparable_self (mo : Option MemoryOrder) : incomparable mo mo = false := by
  rcases mo with _ | mo
  · rfl
  · cases mo <;> rfl

/-- A result is not taken back. -/
theorem compareLoop_ne_zero {result : ℤ} (h : result ≠ 0)
    (orders1 orders2 : List (Option MemoryOrder)) :
    compareLoop orders1 orders2 result ≠ 0 := by
  induction orders1 generalizing orders2 result with
  | nil => simpa [compareLoop] using h
  | cons mo1 orders1 ih =>
    cases orders2 with
    | nil => simpa [compareLoop] using h
    | cons mo2 orders2 =>
      rw [compareLoop]
      split
      · decide
      · simp only
        split
        · decide
        · apply ih
          split
          · assumption
          · exact h

theorem compareLoop_zero {orders1 orders2 : List (Option MemoryOrder)}
    (hlen : orders1.length = orders2.length) :
    compareLoop orders1 orders2 0 = 0 ↔ orders1 = orders2 := by
  induction orders1 generalizing orders2 with
  | nil =>
    cases orders2 with
    | nil => simp [compareLoop]
    | cons mo2 orders2 => cases hlen
  | cons mo1 orders1 ih =>
    cases orders2 with
    | nil => cases hlen
    | cons mo2 orders2 =>
      have hrest := ih (Nat.succ.inj hlen)
      rw [compareLoop]
      by_cases hmo : mo1 = mo2
      · subst hmo
        have hsub : subResult mo1 mo1 = 0 := subResult_eq_zero.mpr rfl
        simp [incomparable_self,hsub,hrest]
      · have hsub : subResult mo1 mo2 ≠ 0 := fun h => hmo (subResult_eq_zero.mp h)
        have hne : ¬ (mo1 :: orders1 = mo2 :: orders2) := fun h => hmo (List.cons.inj h).1
        rw [iff_false_intro hne,iff_false]
        split
        · decide
        · simp only
          split
          · decide
          · exact compareLoop_ne_zero (by simpa using hsub) _ _

/-- Only the same representation compares equal. -/
theorem compareTo_eq_zero {a b : Inference} : a.compareTo b = 0 ↔ a.orders = b.orders := by
  unfold compareTo
  by_cases hlen : a.size = b.size
  · rw [if_pos hlen]
    exact compareLoop_zero hlen
  · have hne : a.orders ≠ b.orders := fun h => hlen (congrArg List.length h)
    rw [if_neg hlen,iff_false_intro hne,iff_false]
    apply compareLoop_ne_zero
    split <;> decide

/-- What `compareTo` counts as a weaker order of one wildcard. -/
def Weaker : Option MemoryOrder → Option MemoryOrder → Prop
  | some mo1,some mo2 => mo1.toNat < mo2.toNat ∧ ¬ (mo1 = .acquire ∧ mo2 = .release)
  | some mo1,none => mo1 ≠ .relaxed
  | none,_ => False

/-- No order of the first list is above that of the second. -/
def WeaklyBelow : List (Option MemoryOrder) → List (Option MemoryOrder) → Prop
  | mo1 :: orders1,mo2 :: orders2 => (mo1 = mo2 ∨ Weaker mo1 mo2) ∧ WeaklyBelow orders1 orders2
  | _,_ => True

theorem weaker_iff {mo1 mo2 : Option MemoryOrder} :
    Weaker mo1 mo2 ↔ incomparable mo1 mo2 = false ∧ subResult mo1 mo2 < 0 := by
  rcases mo1 with _ | mo1 <;> rcases mo2 with _ | mo2
  · simp [Weaker,subResult]
  · simp [Weaker,subResult]
  · cases mo1 <;> simp [Weaker,subResult,incomparable]
  · cases mo1 <;> cases mo2 <;> simp [Weaker,subResult,incomparable,MemoryOrder.toNat]

theorem subResult_cases (mo1 mo2 : Option MemoryOrder) :
    subResult mo1 mo2 = 1 ∨ subResult mo1 mo2 = 0 ∨ subResult mo1 mo2 = -1 := by
  rcases mo1 with _ | mo1 <;> rcases mo2 with _ | mo2
  · exact .inr (.inl rfl)
  · exact .inl rfl
  · simp only [subResult]
    split <;> simp
  · simp only [subResult]
    split
    · exact .inl rfl
    · split <;> simp

/-- One turn of the loop. -/
theorem compareLoop_cons (mo1 mo2 : Option MemoryOrder)
    (orders1 orders2 : List (Option MemoryOrder))
    (result : ℤ) : compareLoop (mo1 :: orders1) (mo2 :: orders2) result =
      if incomparable mo1 mo2 then -2
      else if (0 < subResult mo1 mo2 ∧ result < 0) ∨ (subResult mo1 mo2 < 0 ∧ 0 < result) then -2
      else compareLoop orders1 orders2
        (if subResult mo1 mo2 ≠ 0 then subResult mo1 mo2 else result) := rfl

theorem compareLoop_pos (orders1 orders2 : List (Option MemoryOrder)) :
    compareLoop orders1 orders2 1 ≠ -1 := by
  induction orders1 generalizing orders2 with
  | nil => simp [compareLoop]
  | cons mo1 orders1 ih =>
    cases orders2 with
    | nil => simp [compareLoop]
    | cons mo2 orders2 =>
      rw [compareLoop_cons]
      split
      · decide
      · rcases subResult_cases mo1 mo2 with hsub | hsub | hsub
        · simpa [hsub] using ih orders2
        · simpa [hsub] using ih orders2
        · simp [hsub]

theorem compareLoop_neg (orders1 orders2 : List (Option MemoryOrder)) :
    compareLoop orders1 orders2 (-1) = -1 ↔ WeaklyBelow orders1 orders2 := by
  induction orders1 generalizing orders2 with
  | nil => simp [compareLoop,WeaklyBelow]
  | cons mo1 orders1 ih =>
    cases orders2 with
    | nil => simp [compareLoop,WeaklyBelow]
    | cons mo2 orders2 =>
      rw [compareLoop_cons,WeaklyBelow,weaker_iff,← subResult_eq_zero,← ih orders2]
      by_cases hincomparable : incomparable mo1 mo2 = true
      · have hsub : subResult mo1 mo2 ≠ 0 := fun h => by
          rw [subResult_eq_zero.mp h,incomparable_self] at hincomparable
          cases hincomparable
        simp [hincomparable,hsub]
      · rcases subResult_cases mo1 mo2 with hsub | hsub | hsub
        · simp [hincomparable,hsub]
        · simp [hincomparable,hsub]
        · simp [hincomparable,hsub]

theorem compareLoop_zero_neg {orders1 orders2 : List (Option MemoryOrder)}
    (hlen : orders1.length = orders2.length) : compareLoop orders1 orders2 0 = -1 ↔
      orders1 ≠ orders2 ∧ WeaklyBelow orders1 orders2 := by
  induction orders1 generalizing orders2 with
  | nil =>
    cases orders2 with
    | nil => simp [compareLoop]
    | cons mo2 orders2 => cases hlen
  | cons mo1 orders1 ih =>
    cases orders2 with
    | nil => cases hlen
    | cons mo2 orders2 =>
      rw [compareLoop_cons,WeaklyBelow,weaker_iff,← compareLoop_neg]
      by_cases hincomparable : incomparable mo1 mo2 = true
      · have hne : mo1 ≠ mo2 := fun h => by
          rw [h,incomparable_self] at hincomparable
          cases hincomparable
        simp [hincomparable,hne]
      · rcases subResult_cases mo1 mo2 with hsub | hsub | hsub
        · have hne : mo1 ≠ mo2 := fun h => by
            rw [subResult_eq_zero.mpr h] at hsub
            cases hsub
          simpa [hincomparable,hsub,hne] using compareLoop_pos orders1 orders2
        · have heq := subResult_eq_zero.mp hsub
          subst heq
          simpa [hsub,incomparable_self,compareLoop_neg] using ih (Nat.succ.inj hlen)
        · have hne : mo1 ≠ mo2 := fun h => by
            rw [subResult_eq_zero.mpr h] at hsub
            cases hsub
          simp [hincomparable,hsub,hne]

/-- Ranked below: no larger, nowhere above, and not the same. -/
def Below (a b : Inference) : Prop :=
  a.size ≤ b.size ∧ a.orders ≠ b.orders ∧ WeaklyBelow a.orders b.orders

theorem compareTo_eq_neg_one {a b : Inference} : a.compareTo b = -1 ↔ a.Below b := by
  unfold compareTo Below
  rcases Nat.lt_trichotomy a.size b.size with hlt | heq | hgt
  · have hne : a.orders ≠ b.orders := fun h => Nat.ne_of_lt hlt (congrArg List.length h)
    rw [if_neg (Nat.ne_of_lt hlt),if_neg (Nat.lt_asymm hlt),compareLoop_neg]
    simp [hne,Nat.le_of_lt hlt]
  · rw [if_pos heq,compareLoop_zero_neg heq]
    simp [heq]
  · rw [if_neg (Nat.ne_of_gt hgt),if_pos hgt]
    simp [compareLoop_pos,Nat.not_le_of_lt hgt]

theorem order_of_size_le {infer : Inference} {w : ℕ} (h : infer.size ≤ w) :
    infer.order w = .relaxed := by
  rw [order,List.getElem?_eq_none h]
  rfl

theorem order_append_none (orders : List (Option MemoryOrder)) (n : ℕ) (infer : Inference) :
    order { infer with orders := orders ++ List.replicate n none } =
      order { infer with orders := orders } := by
  funext w
  unfold order
  rcases Nat.lt_or_ge w orders.length with hlt | hge
  · simp only [List.getElem?_append_left hlt]
  · simp only [List.getElem?_append_right hge,List.getElem?_eq_none hge,List.getElem?_replicate]
    split <;> rfl

theorem order_set_relaxed {orders : List (Option MemoryOrder)} {i : ℕ} (infer : Inference)
    (h : orders[i]? = some none) :
    order { infer with orders := orders.set i (some .relaxed) } =
      order { infer with orders := orders } := by
  funext w
  unfold order
  by_cases hw : i = w
  · subst hw
    simp only [List.getElem?_set_self (List.getElem?_eq_some_iff.mp h).1,h]
    rfl
  · simp only [List.getElem?_set_ne hw]

/-- Looking up a wildcard changes the representation and not the assignment. -/
theorem lookup_order {infer infer' : Inference} {idx : ℕ} (h : infer.lookup idx = .ok infer') :
    infer'.order = infer.order ∧ infer'.leaf = infer.leaf := by
  unfold lookup at h
  split at h
  · cases h
    exact ⟨rfl,rfl⟩
  · obtain ⟨_,-,h⟩ := bind_eq_ok.mp h
    cases h
    exact ⟨order_append_none _ _ infer,rfl⟩

theorem inspectModelAction_order {infer infer' : Inference} {w : ℕ}
    (h : infer.inspectModelAction w = .ok infer') :
    infer'.order = infer.order ∧ infer'.leaf = infer.leaf := by
  obtain ⟨found,hfound,h⟩ := bind_eq_ok.mp h
  obtain ⟨horder,hleaf⟩ := lookup_order hfound
  split at h
  · rename_i hnone
    cases h
    exact ⟨(order_set_relaxed found hnone).trans horder,hleaf⟩
  · cases h
    exact ⟨horder,hleaf⟩

end Inference
end CdsChecker
