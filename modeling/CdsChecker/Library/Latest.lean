import Mathlib.Data.List.Basic
import Mathlib.Tactic

/-! The latest element that satisfies a predicate, by a rank. -/
namespace CdsChecker

variable {α : Type} (rank : α → ℕ)

/-- No element satisfies the predicate, or this one does and has the greatest rank. -/
def IsLatest (p : α → Prop) : Option α → Prop
  | none => ∀ a, ¬ p a
  | some a => p a ∧ ∀ b, p b → rank b ≤ rank a

/-- The later of the two. -/
def later (latest : Option α) (a : α) : Option α :=
  if latest.all fun b => rank b < rank a then some a else latest

variable {rank} {p q : α → Prop} {r : Option α}

theorem IsLatest.congr (h : IsLatest rank p r) (hpq : ∀ a, p a ↔ q a) : IsLatest rank q r := by
  obtain rfl : p = q := funext fun a => propext (hpq a)
  exact h

theorem IsLatest.later (h : IsLatest rank p r) (a : α) :
    IsLatest rank (fun b => p b ∨ b = a) (later rank r a) := by
  cases r with
  | none =>
    have hnew : CdsChecker.later rank none a = some a := rfl
    rw [hnew]
    refine ⟨.inr rfl,fun b hb => ?_⟩
    rcases hb with hb | rfl
    · exact absurd hb (h b)
    · exact le_rfl
  | some l =>
    obtain ⟨hl,hmax⟩ := h
    by_cases hlt : rank l < rank a
    · have hnew : CdsChecker.later rank (some l) a = some a := if_pos (by simpa using hlt)
      rw [hnew]
      refine ⟨.inr rfl,fun b hb => ?_⟩
      rcases hb with hb | rfl
      · exact (hmax b hb).trans (Nat.le_of_lt hlt)
      · exact le_rfl
    · have hold : CdsChecker.later rank (some l) a = some l := if_neg (by simpa using hlt)
      rw [hold]
      refine ⟨.inl hl,fun b hb => ?_⟩
      rcases hb with hb | rfl
      · exact hmax b hb
      · exact Nat.not_lt.mp hlt

/-- More elements, each with a later one among the old. -/
theorem IsLatest.weaken (h : IsLatest rank p r) (hpq : ∀ a, p a → q a)
    (hlater : ∀ a, q a → ∃ b, p b ∧ rank a ≤ rank b) : IsLatest rank q r := by
  cases r with
  | none =>
    intro a ha
    obtain ⟨b,hb,-⟩ := hlater a ha
    exact h b hb
  | some m =>
    refine ⟨hpq m h.1,fun a ha => ?_⟩
    obtain ⟨b,hb,hle⟩ := hlater a ha
    exact hle.trans (h.2 b hb)

/-- The latest element stays the latest of fewer elements exactly when each that is left out has
a later one among them. -/
theorem IsLatest.strengthen_iff (h : IsLatest rank q r) (hpq : ∀ a, p a → q a)
    (hrank : ∀ a b, q a → q b → rank a = rank b → a = b) :
    IsLatest rank p r ↔ ∀ a, q a → ¬ p a → ∃ b, p b ∧ rank a < rank b := by
  cases r with
  | none => exact iff_of_true (fun a ha => h a (hpq a ha)) fun a ha => absurd ha (h a)
  | some m =>
    constructor
    · intro hm a ha hna
      refine ⟨m,hm.1,Nat.lt_of_le_of_ne (h.2 a ha) fun heq => ?_⟩
      obtain rfl := hrank a m ha h.1 heq
      exact hna hm.1
    · intro hlater
      refine ⟨?_,fun b hb => h.2 b (hpq b hb)⟩
      by_contra hm
      obtain ⟨b,hb,hlt⟩ := hlater m h.1 hm
      exact absurd (h.2 b (hpq b hb)) (Nat.not_le.mpr hlt)

/-- The first match from the back of a list whose matches are sorted. -/
theorem isLatest_find?_reverse {l : List α} {m : α → Bool}
    (h : l.Pairwise fun a b => m a = true → m b = true → rank a ≤ rank b) :
    IsLatest rank (fun a => a ∈ l ∧ m a = true) (l.reverse.find? m) := by
  cases hfind : l.reverse.find? m with
  | none =>
    rintro a ⟨ha,hm⟩
    exact List.find?_eq_none.mp hfind a (List.mem_reverse.mpr ha) hm
  | some a =>
    obtain ⟨hm,post,pre,hsplit,hpost⟩ := List.find?_eq_some_iff_append.mp hfind
    have hl : l = pre.reverse ++ a :: post.reverse := by
      rw [← List.reverse_reverse l,hsplit]
      simp
    refine ⟨⟨by simp [hl],hm⟩,?_⟩
    rintro b ⟨hb,hmb⟩
    rw [hl] at h hb
    rw [List.mem_append,List.mem_cons,List.mem_reverse,List.mem_reverse] at hb
    rcases hb with hb | rfl | hb
    · exact (List.pairwise_append.mp h).2.2 b (List.mem_reverse.mpr hb) a (by simp) hmb hm
    · exact le_rfl
    · have hfalse := hpost b hb
      rw [hmb] at hfalse
      cases hfalse

end CdsChecker
