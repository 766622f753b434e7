import CdsChecker.InferenceCompare
import Mathlib.Order.Lattice
import Mathlib.Order.Basic

/-! The pointwise order of the assignments, and where `compareTo` agrees with it. -/
namespace CdsChecker

namespace MemoryOrder

/-- Acquire and release are not comparable. -/
instance : LE MemoryOrder where
  le mo1 mo2 := mo1 = mo2 ∨ mo1.toNat < mo2.toNat ∧ ¬ (mo1 = .acquire ∧ mo2 = .release)

instance : DecidableLE MemoryOrder := fun mo1 mo2 =>
  inferInstanceAs (Decidable
    (mo1 = mo2 ∨ mo1.toNat < mo2.toNat ∧ ¬ (mo1 = .acquire ∧ mo2 = .release)))

/-- The weakest order at least as strong as both. -/
def join : MemoryOrder → MemoryOrder → MemoryOrder
  | acquire,release => acqRel
  | release,acquire => acqRel
  | mo1,mo2 => if mo1.toNat < mo2.toNat then mo2 else mo1

instance : SemilatticeSup MemoryOrder where
  le_refl mo := .inl rfl
  le_trans a b c hab hbc := by
    revert hab hbc
    cases a <;> cases b <;> cases c <;> decide
  le_antisymm a b hab hba := by
    revert hab hba
    cases a <;> cases b <;> decide
  sup := join
  le_sup_left a b := by cases a <;> cases b <;> decide
  le_sup_right a b := by cases a <;> cases b <;> decide
  sup_le a b c hac hbc := by
    revert hac hbc
    cases a <;> cases b <;> cases c <;> decide

instance : OrderBot MemoryOrder where
  bot := .relaxed
  bot_le mo := by cases mo <;> decide

theorem relaxed_le (mo : MemoryOrder) : .relaxed ≤ mo := bot_le

theorem relaxed_lt {mo : MemoryOrder} : .relaxed < mo ↔ mo ≠ .relaxed := bot_lt_iff_ne_bot

instance : DecidableLT MemoryOrder := fun a b => decidable_of_iff
    (a ≤ b ∧ ¬ b ≤ a) lt_iff_le_not_ge.symm

end MemoryOrder

namespace Inference

theorem order_le_iff {a b : Inference} : a.order ≤ b.order ↔
    ∀ w < a.size, a.order w ≤ b.order w := by
  refine ⟨fun h w _ => h w,fun h w => ?_⟩
  rcases Nat.lt_or_ge w a.size with hlt | hge
  · exact h w hlt
  · rw [order_of_size_le hge]
    exact MemoryOrder.relaxed_le _

instance (a b : Inference) : Decidable (a.order ≤ b.order) := decidable_of_iff _ order_le_iff.symm

instance (a b : Inference) : Decidable (a.order < b.order) :=
  decidable_of_iff _ lt_iff_le_not_ge.symm

instance (a b : Inference) : Decidable (a.order = b.order) :=
  decidable_of_iff _ le_antisymm_iff.symm

/-- 0 for equal, 1 for stronger, -1 for weaker, 2 for incomparable. -/
def compareMemoryOrder (mo1 mo2 : Option MemoryOrder) : ℤ :=
  let mo1 := mo1.getD .relaxed
  let mo2 := mo2.getD .relaxed
  if mo1 = mo2 then 0
  else match mo1 with
    | .relaxed => -1
    | .acquire => if mo2 = .relaxed then 1 else if mo2 = .release then 2 else -1
    | .release => if mo2 = .relaxed then 1 else if mo2 = .acquire then 2 else -1
    | .acqRel => if mo2 = .seqCst then -1 else 1
    | .seqCst => 1

section compareMemoryOrder

variable (mo1 mo2 : Option MemoryOrder)

theorem compareMemoryOrder_eq_zero :
    compareMemoryOrder mo1 mo2 = 0 ↔ mo1.getD .relaxed = mo2.getD .relaxed := by
  unfold compareMemoryOrder
  cases mo1.getD .relaxed <;> cases mo2.getD .relaxed <;> decide

theorem compareMemoryOrder_eq_one :
    compareMemoryOrder mo1 mo2 = 1 ↔ mo2.getD .relaxed < mo1.getD .relaxed := by
  unfold compareMemoryOrder
  cases mo1.getD .relaxed <;> cases mo2.getD .relaxed <;> decide

theorem compareMemoryOrder_eq_neg_one :
    compareMemoryOrder mo1 mo2 = -1 ↔ mo1.getD .relaxed < mo2.getD .relaxed := by
  unfold compareMemoryOrder
  cases mo1.getD .relaxed <;> cases mo2.getD .relaxed <;> decide

theorem compareMemoryOrder_ge :
    (compareMemoryOrder mo1 mo2 = 0 ∨ compareMemoryOrder mo1 mo2 = 1) ↔
      mo2.getD .relaxed ≤ mo1.getD .relaxed := by
  rw [compareMemoryOrder_eq_zero,compareMemoryOrder_eq_one,le_iff_eq_or_lt,eq_comm]

theorem compareMemoryOrder_le :
    (compareMemoryOrder mo1 mo2 = 0 ∨ compareMemoryOrder mo1 mo2 = -1) ↔
      mo1.getD .relaxed ≤ mo2.getD .relaxed := by
  rw [compareMemoryOrder_eq_zero,compareMemoryOrder_eq_neg_one,le_iff_eq_or_lt]

end compareMemoryOrder

/-- `compareMemoryOrder` at one wildcard, unset where there is no slot. -/
def compareSlot (this infer : Inference) (w : ℕ) : ℤ :=
  compareMemoryOrder (this.orders[w]?).join (infer.orders[w]?).join

/-- What the comparison is to return, slot by slot. -/
structure ComparesPointwise (this infer : Inference) : Prop where
  equal : this.compareTo infer = 0 ↔ ∀ w, this.compareSlot infer w = 0
  stronger : this.compareTo infer = 1 ↔ (∃ w, this.compareSlot infer w ≠ 0) ∧
    ∀ w, this.compareSlot infer w = 0 ∨ this.compareSlot infer w = 1
  weaker : this.compareTo infer = -1 ↔ (∃ w, this.compareSlot infer w ≠ 0) ∧
    ∀ w, this.compareSlot infer w = 0 ∨ this.compareSlot infer w = -1
  incomparable : this.compareTo infer = -2 ↔
    (¬ ∀ w, this.compareSlot infer w = 0 ∨ this.compareSlot infer w = 1) ∧
    ¬ ∀ w, this.compareSlot infer w = 0 ∨ this.compareSlot infer w = -1

section pointwise

variable {a b : Inference}

theorem compareSlot_eq_zero : (∀ w, a.compareSlot b w = 0) ↔ a.order = b.order := by
  rw [funext_iff]
  exact forall_congr' fun w => compareMemoryOrder_eq_zero _ _

theorem compareSlot_ge :
    (∀ w, a.compareSlot b w = 0 ∨ a.compareSlot b w = 1) ↔ b.order ≤ a.order :=
  forall_congr' fun _ => compareMemoryOrder_ge _ _

theorem compareSlot_le :
    (∀ w, a.compareSlot b w = 0 ∨ a.compareSlot b w = -1) ↔ a.order ≤ b.order :=
  forall_congr' fun _ => compareMemoryOrder_le _ _

theorem comparesPointwise_iff : a.ComparesPointwise b ↔
    (a.compareTo b = 0 ↔ a.order = b.order) ∧ (a.compareTo b = 1 ↔ b.order < a.order) ∧
    (a.compareTo b = -1 ↔ a.order < b.order) ∧
    (a.compareTo b = -2 ↔ ¬ b.order ≤ a.order ∧ ¬ a.order ≤ b.order) := by
  have hne : (∃ w, a.compareSlot b w ≠ 0) ↔ a.order ≠ b.order := by
    rw [Ne,← compareSlot_eq_zero,not_forall]
  have hgt : a.order ≠ b.order ∧ b.order ≤ a.order ↔ b.order < a.order := by
    rw [lt_iff_le_and_ne,and_comm,ne_comm]
  have hlt : a.order ≠ b.order ∧ a.order ≤ b.order ↔ a.order < b.order := by
    rw [lt_iff_le_and_ne,and_comm]
  constructor
  · intro ⟨h0,h1,h2,h3⟩
    rw [compareSlot_eq_zero] at h0
    rw [hne,compareSlot_ge,hgt] at h1
    rw [hne,compareSlot_le,hlt] at h2
    rw [compareSlot_ge,compareSlot_le] at h3
    exact ⟨h0,h1,h2,h3⟩
  · intro ⟨h0,h1,h2,h3⟩
    apply ComparesPointwise.mk
    · rwa [compareSlot_eq_zero]
    · rwa [hne,compareSlot_ge,hgt]
    · rwa [hne,compareSlot_le,hlt]
    · rwa [compareSlot_ge,compareSlot_le]

end pointwise

/-- Acquire against release. -/
def Clash (a b : Inference) : Prop := ∃ (w : ℕ) (mo1 mo2 : MemoryOrder),
  a.orders[w]? = some (some mo1) ∧ b.orders[w]? = some (some mo2) ∧ ¬ mo1 ≤ mo2 ∧ ¬ mo2 ≤ mo1

/-- A slot that is set in both and stronger in the first. -/
def Exceeds (a b : Inference) : Prop := ∃ (w : ℕ) (mo1 mo2 : MemoryOrder),
  a.orders[w]? = some (some mo1) ∧ b.orders[w]? = some (some mo2) ∧ mo2 < mo1

/-- A slot stronger than relaxed against an unset one. -/
def ExceedsUnset (a b : Inference) : Prop := ∃ (w : ℕ) (mo : MemoryOrder),
  a.orders[w]? = some (some mo) ∧ b.orders[w]? = some none ∧ mo ≠ .relaxed

/-- A slot stronger than relaxed behind the last slot of the other. -/
def ExceedsBeyond (a b : Inference) : Prop := ∃ (w : ℕ) (mo : MemoryOrder),
  a.orders[w]? = some (some mo) ∧ b.orders[w]? = none ∧ mo ≠ .relaxed

/-- An unset slot against a set one. -/
def UnsetAgainst (a b : Inference) : Prop := ∃ (w : ℕ) (mo : MemoryOrder),
  a.orders[w]? = some none ∧ b.orders[w]? = some (some mo)

def RelaxedAgainstUnset (a b : Inference) : Prop := ∃ w : ℕ,
  a.orders[w]? = some (some .relaxed) ∧ b.orders[w]? = some none

/-- What makes the loop call the first one stronger. -/
def ReadsStronger (a b : Inference) : Prop :=
  b.size < a.size ∨ a.Exceeds b ∨ a.UnsetAgainst b ∨ a.RelaxedAgainstUnset b

/-- What makes the loop call the first one weaker. -/
def ReadsWeaker (a b : Inference) : Prop := a.size < b.size ∨ b.Exceeds a ∨ a.ExceedsUnset b

/-- Where the first one is stronger. -/
def SomewhereStronger (a b : Inference) : Prop :=
  a.ExceedsBeyond b ∨ a.Exceeds b ∨ a.ExceedsUnset b

/-- What unset and missing slots make the loop see, and what they stand for, is the same. -/
def Aligned (a b : Inference) : Prop := a.Clash b ∨
  (a.ReadsStronger b ↔ a.SomewhereStronger b) ∧ (a.ReadsWeaker b ↔ b.SomewhereStronger a)

/-- The result of a comparison that met an incomparable slot, a stronger one or a weaker one. -/
inductive Verdict (clash stronger weaker : Prop) : ℤ → Prop
  | incomparable (h : clash ∨ stronger ∧ weaker) : Verdict clash stronger weaker (-2)
  | stronger (hclash : ¬ clash) (hstronger : stronger) (hweaker : ¬ weaker) :
    Verdict clash stronger weaker 1
  | weaker (hclash : ¬ clash) (hstronger : ¬ stronger) (hweaker : weaker) :
    Verdict clash stronger weaker (-1)
  | equal (hclash : ¬ clash) (hstronger : ¬ stronger) (hweaker : ¬ weaker) :
    Verdict clash stronger weaker 0

namespace Verdict

variable {clash clash' stronger weaker stronger' weaker' : Prop} {result : ℤ}

/-- Where there is no clash, only that counts. -/
theorem congr (h : Verdict clash stronger weaker result) (hclash : clash ↔ clash')
    (hstronger : ¬ clash → (stronger ↔ stronger')) (hweaker : ¬ clash → (weaker ↔ weaker')) :
    Verdict clash' stronger' weaker' result := by
  by_cases hc : clash
  · cases h with
    | incomparable _ => exact .incomparable (.inl (hclash.mp hc))
    | stronger h => exact absurd hc h
    | weaker h => exact absurd hc h
    | equal h => exact absurd hc h
  · rwa [← hclash,← hstronger hc,← hweaker hc]

/-- Two reasons for the same result. -/
theorem iff_aligned (h : Verdict clash stronger weaker result) :
    Verdict clash stronger' weaker' result ↔
      clash ∨ (stronger ↔ stronger') ∧ (weaker ↔ weaker') := by
  constructor
  · intro h'
    cases h <;> cases h' <;> tauto
  · rintro (hclash | ⟨hstronger,hweaker⟩)
    · exact h.congr Iff.rfl (absurd hclash) (absurd hclash)
    · exact h.congr Iff.rfl (fun _ => hstronger) (fun _ => hweaker)

/-- The four results. -/
theorem iff_values : Verdict clash stronger weaker result ↔
    (result = 0 ↔ (¬ clash ∧ ¬ stronger) ∧ ¬ clash ∧ ¬ weaker) ∧
    (result = 1 ↔ (¬ clash ∧ ¬ weaker) ∧ ¬ (¬ clash ∧ ¬ stronger)) ∧
    (result = -1 ↔ (¬ clash ∧ ¬ stronger) ∧ ¬ (¬ clash ∧ ¬ weaker)) ∧
    (result = -2 ↔ ¬ (¬ clash ∧ ¬ weaker) ∧ ¬ (¬ clash ∧ ¬ stronger)) := by
  constructor
  · intro h
    cases h with
    | incomparable h =>
      rcases h with h | ⟨h,h'⟩ <;> simp [*]
    | stronger h h' h'' => simp [*]
    | weaker h h' h'' => simp [*]
    | equal h h' h'' => simp [*]
  · intro ⟨h0,h1,h2,h3⟩
    by_cases hc : clash
    · rw [h3.mpr (by simp [hc])]
      exact .incomparable (.inl hc)
    · by_cases hs : stronger <;> by_cases hw : weaker
      · rw [h3.mpr (by simp [hs,hw])]
        exact .incomparable (.inr ⟨hs,hw⟩)
      · rw [h1.mpr (by simp [hc,hs,hw])]
        exact .stronger hc hs hw
      · rw [h2.mpr (by simp [hc,hs,hw])]
        exact .weaker hc hs hw
      · rw [h0.mpr (by simp [hc,hs,hw])]
        exact .equal hc hs hw

end Verdict

/-- Some slot of both lists is ranked so. -/
def Meets (P : Option MemoryOrder → Option MemoryOrder → Prop)
    (orders1 orders2 : List (Option MemoryOrder)) : Prop :=
  ∃ (w : ℕ) (mo1 mo2 : Option MemoryOrder), orders1[w]? = some mo1 ∧ orders2[w]? = some mo2 ∧
  P mo1 mo2

theorem meets_cons {P : Option MemoryOrder → Option MemoryOrder → Prop}
    {mo1 mo2 : Option MemoryOrder} {orders1 orders2 : List (Option MemoryOrder)} :
    Meets P (mo1 :: orders1) (mo2 :: orders2) ↔ P mo1 mo2 ∨ Meets P orders1 orders2 := by
  constructor
  · rintro ⟨w,mo1',mo2',h1,h2,h⟩
    cases w with
    | zero =>
      cases h1
      cases h2
      exact .inl h
    | succ w => exact .inr ⟨w,mo1',mo2',h1,h2,h⟩
  · rintro (h | ⟨w,mo1',mo2',h1,h2,h⟩)
    · exact ⟨0,mo1,mo2,rfl,rfl,h⟩
    · exact ⟨w + 1,mo1',mo2',h1,h2,h⟩

theorem not_meets_nil_left {P : Option MemoryOrder → Option MemoryOrder → Prop}
    {orders : List (Option MemoryOrder)} : ¬ Meets P [] orders := by
  rintro ⟨w,mo1,mo2,h1,_⟩
  simp at h1

theorem not_meets_nil_right {P : Option MemoryOrder → Option MemoryOrder → Prop}
    {orders : List (Option MemoryOrder)} : ¬ Meets P orders [] := by
  rintro ⟨w,mo1,mo2,_,h2,_⟩
  simp at h2

/-- A loop that meets no slots returns what it began with. -/
theorem verdict_self {clash stronger weaker : Prop} {result : ℤ}
    (hresult : result = 1 ∨ result = 0 ∨ result = -1) (hclash : ¬ clash) (hstronger : ¬ stronger)
    (hweaker : ¬ weaker) : Verdict clash (result = 1 ∨ stronger) (result = -1 ∨ weaker) result := by
  rcases hresult with rfl | rfl | rfl
  · exact .stronger hclash (.inl rfl) (by simp [hweaker])
  · exact .equal hclash (by simp [hstronger]) (by simp [hweaker])
  · exact .weaker hclash (by simp [hstronger]) (.inl rfl)

section turn

variable {sub result : ℤ} (hsub : sub = 1 ∨ sub = 0 ∨ sub = -1)
  (hresult : result = 1 ∨ result = 0 ∨ result = -1)
include hsub hresult

theorem conflict_iff : (0 < sub ∧ result < 0) ∨ (sub < 0 ∧ 0 < result) ↔
    sub = 1 ∧ result = -1 ∨ sub = -1 ∧ result = 1 := by omega

theorem next_range : (if sub ≠ 0 then sub else result) = 1 ∨ (if sub ≠ 0 then sub else result) = 0 ∨
    (if sub ≠ 0 then sub else result) = -1 := by
  split
  · exact hsub
  · exact hresult

theorem next_eq_one (h : ¬ (sub = 1 ∧ result = -1 ∨ sub = -1 ∧ result = 1)) :
    (if sub ≠ 0 then sub else result) = 1 ↔ result = 1 ∨ sub = 1 := by
  split <;> omega

theorem next_eq_neg_one (h : ¬ (sub = 1 ∧ result = -1 ∨ sub = -1 ∧ result = 1)) :
    (if sub ≠ 0 then sub else result) = -1 ↔ result = -1 ∨ sub = -1 := by
  split <;> omega

end turn

/-- What the loop returns, all of its turns together. -/
theorem compareLoop_verdict (orders1 orders2 : List (Option MemoryOrder)) (result : ℤ)
    (hresult : result = 1 ∨ result = 0 ∨ result = -1) :
    Verdict (Meets (fun mo1 mo2 => incomparable mo1 mo2 = true) orders1 orders2)
      (result = 1 ∨ Meets (fun mo1 mo2 => subResult mo1 mo2 = 1) orders1 orders2)
      (result = -1 ∨ Meets (fun mo1 mo2 => subResult mo1 mo2 = -1) orders1 orders2)
      (compareLoop orders1 orders2 result) := by
  induction orders1 generalizing orders2 result with
  | nil =>
    exact verdict_self hresult not_meets_nil_left not_meets_nil_left not_meets_nil_left
  | cons mo1 orders1 ih =>
    cases orders2 with
    | nil => exact verdict_self hresult not_meets_nil_right not_meets_nil_right not_meets_nil_right
    | cons mo2 orders2 =>
      have hsub := subResult_cases mo1 mo2
      rw [compareLoop_cons,meets_cons,meets_cons,meets_cons]
      by_cases hincomparable : incomparable mo1 mo2 = true
      · rw [if_pos hincomparable]
        exact .incomparable (.inl (.inl hincomparable))
      · rw [if_neg hincomparable]
        by_cases hconflict : (0 < subResult mo1 mo2 ∧ result < 0) ∨
          (subResult mo1 mo2 < 0 ∧ 0 < result)
        · rw [if_pos hconflict]
          rw [conflict_iff hsub hresult] at hconflict
          apply Verdict.incomparable
          tauto
        · rw [if_neg hconflict]
          rw [conflict_iff hsub hresult] at hconflict
          apply (ih orders2 _ (next_range hsub hresult)).congr
          · simp only [hincomparable,Bool.false_eq_true,false_or]
          · intro _
            rw [next_eq_one hsub hresult hconflict,or_assoc]
          · intro _
            rw [next_eq_neg_one hsub hresult hconflict,or_assoc]

theorem meets_incomparable {a b : Inference} :
    Meets (fun mo1 mo2 => incomparable mo1 mo2 = true) a.orders b.orders ↔ a.Clash b := by
  have hslot : ∀ mo1 mo2 : MemoryOrder, incomparable (some mo1) (some mo2) = true ↔
      ¬ mo1 ≤ mo2 ∧ ¬ mo2 ≤ mo1 := by
    intro mo1 mo2
    cases mo1 <;> cases mo2 <;> decide
  constructor
  · rintro ⟨w,mo1,mo2,h1,h2,h⟩
    cases mo1 with
    | none => cases h
    | some mo1 =>
      cases mo2 with
      | none => cases mo1 <;> cases h
      | some mo2 => exact ⟨w,mo1,mo2,h1,h2,(hslot mo1 mo2).mp h⟩
  · rintro ⟨w,mo1,mo2,h1,h2,h⟩
    exact ⟨w,some mo1,some mo2,h1,h2,(hslot mo1 mo2).mpr h⟩

theorem meets_stronger {a b : Inference} (hclash : ¬ a.Clash b) :
    Meets (fun mo1 mo2 => subResult mo1 mo2 = 1) a.orders b.orders ↔
      a.Exceeds b ∨ a.UnsetAgainst b ∨ a.RelaxedAgainstUnset b := by
  have hslot : ∀ mo1 mo2 : MemoryOrder, subResult (some mo1) (some mo2) = 1 →
      mo2 < mo1 ∨ ¬ mo1 ≤ mo2 ∧ ¬ mo2 ≤ mo1 := by
    intro mo1 mo2
    cases mo1 <;> cases mo2 <;> decide
  have hexceeds : ∀ mo1 mo2 : MemoryOrder, mo2 < mo1 → subResult (some mo1) (some mo2) = 1 := by
    intro mo1 mo2
    cases mo1 <;> cases mo2 <;> decide
  constructor
  · rintro ⟨w,mo1,mo2,h1,h2,h⟩
    cases mo1 with
    | none =>
      cases mo2 with
      | none => cases h
      | some mo2 => exact .inr (.inl ⟨w,mo2,h1,h2⟩)
    | some mo1 =>
      cases mo2 with
      | none =>
        have hrelaxed : mo1 = .relaxed := by
          revert h
          cases mo1 <;> decide
        exact .inr (.inr ⟨w,hrelaxed ▸ h1,h2⟩)
      | some mo2 =>
        rcases hslot mo1 mo2 h with hlt | hnot
        · exact .inl ⟨w,mo1,mo2,h1,h2,hlt⟩
        · exact absurd ⟨w,mo1,mo2,h1,h2,hnot⟩ hclash
  · rintro (⟨w,mo1,mo2,h1,h2,h⟩ | ⟨w,mo,h1,h2⟩ | ⟨w,h1,h2⟩)
    · exact ⟨w,some mo1,some mo2,h1,h2,hexceeds mo1 mo2 h⟩
    · exact ⟨w,none,some mo,h1,h2,rfl⟩
    · exact ⟨w,some .relaxed,none,h1,h2,rfl⟩

theorem meets_weaker {a b : Inference} (hclash : ¬ a.Clash b) :
    Meets (fun mo1 mo2 => subResult mo1 mo2 = -1) a.orders b.orders ↔
      b.Exceeds a ∨ a.ExceedsUnset b := by
  have hslot : ∀ mo1 mo2 : MemoryOrder, subResult (some mo1) (some mo2) = -1 →
      mo1 < mo2 ∨ ¬ mo1 ≤ mo2 ∧ ¬ mo2 ≤ mo1 := by
    intro mo1 mo2
    cases mo1 <;> cases mo2 <;> decide
  have hexceeds : ∀ mo1 mo2 : MemoryOrder, mo1 < mo2 → subResult (some mo1) (some mo2) = -1 := by
    intro mo1 mo2
    cases mo1 <;> cases mo2 <;> decide
  constructor
  · rintro ⟨w,mo1,mo2,h1,h2,h⟩
    cases mo1 with
    | none => cases mo2 <;> cases h
    | some mo1 =>
      cases mo2 with
      | none =>
        have hrelaxed : mo1 ≠ .relaxed := by
          revert h
          cases mo1 <;> decide
        exact .inr ⟨w,mo1,h1,h2,hrelaxed⟩
      | some mo2 =>
        rcases hslot mo1 mo2 h with hlt | hnot
        · exact .inl ⟨w,mo2,mo1,h2,h1,hlt⟩
        · exact absurd ⟨w,mo1,mo2,h1,h2,hnot⟩ hclash
  · rintro (⟨w,mo2,mo1,h2,h1,h⟩ | ⟨w,mo,h1,h2,h⟩)
    · exact ⟨w,some mo1,some mo2,h1,h2,hexceeds mo1 mo2 h⟩
    · refine ⟨w,some mo,none,h1,h2,?_⟩
      simp only [subResult,if_neg h]

/-- What `compareTo` returns. -/
theorem compareTo_verdict (a b : Inference) :
    Verdict (a.Clash b) (a.ReadsStronger b) (a.ReadsWeaker b) (a.compareTo b) := by
  unfold compareTo
  apply (compareLoop_verdict a.orders b.orders (if a.size = b.size then 0
    else if b.size < a.size then 1 else -1) (by split_ifs <;> simp)).congr meets_incomparable
  · intro hclash
    rw [meets_incomparable] at hclash
    have hsize : (if a.size = b.size then (0 : ℤ) else if b.size < a.size then 1 else -1) = 1 ↔
        b.size < a.size := by
      split_ifs <;> simp <;> omega
    rw [meets_stronger hclash,hsize,ReadsStronger]
  · intro hclash
    rw [meets_incomparable] at hclash
    have hsize : (if a.size = b.size then (0 : ℤ) else if b.size < a.size then 1 else -1) = -1 ↔
        a.size < b.size := by
      split_ifs <;> simp <;> omega
    rw [meets_weaker hclash,hsize,ReadsWeaker]

theorem order_eq_of_getElem? {a : Inference} {w : ℕ} {mo : Option MemoryOrder}
    (h : a.orders[w]? = some mo) : a.order w = mo.getD .relaxed := by
  rw [order,h]
  rfl

theorem order_eq_of_none {a : Inference} {w : ℕ} (h : a.orders[w]? = none) :
    a.order w = .relaxed := by
  rw [order,h]
  rfl

theorem somewhereStronger_iff {a b : Inference} :
    a.SomewhereStronger b ↔ ∃ w, b.order w < a.order w := by
  constructor
  · rintro (⟨w,mo,h1,h2,h⟩ | ⟨w,mo1,mo2,h1,h2,h⟩ | ⟨w,mo,h1,h2,h⟩)
    · refine ⟨w,?_⟩
      rw [order_eq_of_getElem? h1,order_eq_of_none h2]
      exact MemoryOrder.relaxed_lt.mpr h
    · refine ⟨w,?_⟩
      rw [order_eq_of_getElem? h1,order_eq_of_getElem? h2]
      exact h
    · refine ⟨w,?_⟩
      rw [order_eq_of_getElem? h1,order_eq_of_getElem? h2]
      exact MemoryOrder.relaxed_lt.mpr h
  · intro ⟨w,h⟩
    obtain ⟨mo,h1⟩ : ∃ mo, a.orders[w]? = some (some mo) := by
      match h1 : a.orders[w]? with
      | some (some mo) => exact ⟨mo,rfl⟩
      | some none =>
        rw [order_eq_of_getElem? h1] at h
        exact absurd h (not_lt_bot (a := b.order w))
      | none =>
        rw [order_eq_of_none h1] at h
        exact absurd h (not_lt_bot (a := b.order w))
    have hne : mo ≠ .relaxed := by
      rintro rfl
      rw [order_eq_of_getElem? h1] at h
      exact absurd h (not_lt_bot (a := b.order w))
    rw [order_eq_of_getElem? h1] at h
    match h2 : b.orders[w]? with
    | some (some mo2) =>
      rw [order_eq_of_getElem? h2] at h
      exact .inr (.inl ⟨w,mo,mo2,h1,h2,h⟩)
    | some none => exact .inr (.inr ⟨w,mo,h1,h2,hne⟩)
    | none => exact .inl ⟨w,mo,h1,h2,hne⟩

theorem clash_iff {a b : Inference} :
    a.Clash b ↔ ∃ w, ¬ a.order w ≤ b.order w ∧ ¬ b.order w ≤ a.order w := by
  constructor
  · rintro ⟨w,mo1,mo2,h1,h2,h⟩
    refine ⟨w,?_⟩
    rw [order_eq_of_getElem? h1,order_eq_of_getElem? h2]
    exact h
  · rintro ⟨w,h⟩
    have hset : ∀ {x y : Inference}, ¬ x.order w ≤ y.order w →
        ∃ mo, x.orders[w]? = some (some mo) := by
      intro x y hle
      match hx : x.orders[w]? with
      | some (some mo) => exact ⟨mo,rfl⟩
      | some none =>
        rw [order_eq_of_getElem? hx] at hle
        exact absurd (MemoryOrder.relaxed_le _) hle
      | none =>
        rw [order_eq_of_none hx] at hle
        exact absurd (MemoryOrder.relaxed_le _) hle
    obtain ⟨mo1,h1⟩ := hset h.1
    obtain ⟨mo2,h2⟩ := hset h.2
    rw [order_eq_of_getElem? h1,order_eq_of_getElem? h2] at h
    exact ⟨w,mo1,mo2,h1,h2,h⟩

/-- A result that is right is a verdict on the assignments. -/
theorem comparesPointwise_iff_verdict {a b : Inference} : a.ComparesPointwise b ↔
    Verdict (a.Clash b) (a.SomewhereStronger b) (b.SomewhereStronger a) (a.compareTo b) := by
  have hle : ∀ {x y : Inference}, x.order ≤ y.order ↔ ¬ x.Clash y ∧ ¬ x.SomewhereStronger y := by
    intro x y
    rw [clash_iff,somewhereStronger_iff,not_exists,not_exists,← forall_and,Pi.le_def]
    apply forall_congr'
    intro w
    rw [lt_iff_le_not_ge]
    by_cases hxy : x.order w ≤ y.order w
    · simp [hxy]
    · simp [hxy]
  have hclash : b.Clash a ↔ a.Clash b := by
    rw [clash_iff,clash_iff]
    exact exists_congr fun w => and_comm
  have hab := hle (x := a) (y := b)
  have hba := hle (x := b) (y := a)
  rw [hclash] at hba
  have heq : a.order = b.order ↔ a.order ≤ b.order ∧ b.order ≤ a.order := le_antisymm_iff
  rw [comparesPointwise_iff,heq,lt_iff_le_not_ge,lt_iff_le_not_ge,hab,hba,Verdict.iff_values]

/-- `compareTo` ranks two assignments as it should exactly when what it sees agrees with them,
and where it does so both ways round and at every two of three, it is an order. -/
theorem compareTo_pointwise_iff_aligned (a b c : Inference) :
    (a.Aligned b ↔ a.ComparesPointwise b) ∧
    (a.Aligned b → b.Aligned a →
      (a.compareTo b = 0 ↔ b.compareTo a = 0) ∧ (a.compareTo b = 1 ↔ b.compareTo a = -1)) ∧
    (a.Aligned b → b.Aligned c → a.Aligned c →
      (a.compareTo b = 0 ∨ a.compareTo b = 1) → (b.compareTo c = 0 ∨ b.compareTo c = 1) →
      a.compareTo c = 0 ∨ a.compareTo c = 1) := by
  have haligned : ∀ a b : Inference, a.Aligned b ↔ a.ComparesPointwise b := by
    intro a b
    rw [comparesPointwise_iff_verdict,(compareTo_verdict a b).iff_aligned,Aligned]
  have hge : ∀ {a b : Inference}, a.Aligned b →
      ((a.compareTo b = 0 ∨ a.compareTo b = 1) ↔ b.order ≤ a.order) := by
    intro a b h
    obtain ⟨h0,h1,-,-⟩ := comparesPointwise_iff.mp ((haligned a b).mp h)
    rw [h0,h1,le_iff_eq_or_lt,eq_comm]
  refine ⟨haligned a b,fun hab hba => ?_,fun hab hbc hac h h' => ?_⟩
  · obtain ⟨h0,h1,-,-⟩ := comparesPointwise_iff.mp ((haligned a b).mp hab)
    obtain ⟨h0',-,h2',-⟩ := comparesPointwise_iff.mp ((haligned b a).mp hba)
    rw [h0,h0',h1,h2',eq_comm]
    exact ⟨Iff.rfl,Iff.rfl⟩
  · rw [hge hac]
    exact ((hge hbc).mp h').trans ((hge hab).mp h)

/-- Acquire against an unset wildcard is called weaker. -/
theorem acquire_unset_not_pointwise : ¬ ∀ a b : Inference, a.ComparesPointwise b := by
  intro hclaim
  have hweaker := (hclaim { orders := [some .acquire,none,none,none] }
    { orders := [none,none,none,none] }).weaker.mp rfl
  exact absurd (hweaker.2 0) (by decide)

end Inference
end CdsChecker
