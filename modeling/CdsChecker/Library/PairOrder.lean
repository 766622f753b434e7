import Mathlib.Data.List.Sublists
import Mathlib.Tactic

/-! Two elements of a list, the one before the other: `[x,y]` is a sublist. -/
namespace CdsChecker

variable {α : Type} {x y a b : α} {l l' : List α}

theorem pair_sublist_cons :
    [x,y].Sublist (a :: l) ↔ x = a ∧ y ∈ l ∨ [x,y].Sublist l := by
  constructor
  · intro h
    cases h with
    | cons _ h => exact .inr h
    | cons_cons _ h => exact .inl ⟨rfl,List.singleton_sublist.mp h⟩
  · rintro (⟨rfl,hy⟩ | h)
    · exact (List.singleton_sublist.mpr hy).cons_cons _
    · exact h.cons _

theorem pair_sublist_append :
    [x,y].Sublist (l ++ [b]) ↔ [x,y].Sublist l ∨ x ∈ l ∧ y = b := by
  induction l with
  | nil => simp
  | cons a l ih =>
    rw [List.cons_append,pair_sublist_cons,pair_sublist_cons,ih]
    simp only [List.mem_append,List.mem_cons]
    tauto

/-- Of two elements of a list one is before the other. -/
theorem pair_sublist_or (hx : x ∈ l) (hy : y ∈ l) (hne : x ≠ y) :
    [x,y].Sublist l ∨ [y,x].Sublist l := by
  induction l with
  | nil => cases hx
  | cons a l ih =>
    rw [pair_sublist_cons,pair_sublist_cons]
    rcases List.mem_cons.mp hx with rfl | hxl
    · rcases List.mem_cons.mp hy with rfl | hyl
      · exact absurd rfl hne
      · exact .inl (.inl ⟨rfl,hyl⟩)
    · rcases List.mem_cons.mp hy with rfl | hyl
      · exact .inr (.inl ⟨rfl,hxl⟩)
      · rcases ih hxl hyl with h | h
        · exact .inl (.inr h)
        · exact .inr (.inr h)

theorem pair_sublist_asymm (hnodup : l.Nodup)
    (h : [x,y].Sublist l) : ¬[y,x].Sublist l := by
  induction l with
  | nil => cases h
  | cons a l ih =>
    obtain ⟨ha,hl⟩ := List.nodup_cons.mp hnodup
    intro hback
    rcases pair_sublist_cons.mp h with ⟨rfl,hy⟩ | hin
    · rcases pair_sublist_cons.mp hback with ⟨rfl,-⟩ | hback
      · exact ha hy
      · exact ha (hback.subset (List.mem_cons_of_mem _ (List.mem_cons_self ..)))
    · rcases pair_sublist_cons.mp hback with ⟨rfl,-⟩ | hback
      · exact ha (hin.subset (List.mem_cons_of_mem _ (List.mem_cons_self ..)))
      · exact ih hl hin hback

/-- What is before an element is in the part before it. -/
theorem mem_of_pair_sublist (hnodup : (l ++ y :: l').Nodup) (h : [x,y].Sublist (l ++ y :: l')) :
    x ∈ l := by
  induction l with
  | nil =>
    rw [List.nil_append] at h hnodup
    rcases pair_sublist_cons.mp h with ⟨-,hy⟩ | h
    · exact absurd hy (List.nodup_cons.mp hnodup).1
    · exact absurd (h.subset (by simp)) (List.nodup_cons.mp hnodup).1
  | cons a l ih =>
    rw [List.cons_append] at h hnodup
    rcases pair_sublist_cons.mp h with ⟨rfl,-⟩ | h
    · exact List.mem_cons_self ..
    · exact List.mem_cons_of_mem _ (ih (List.nodup_cons.mp hnodup).2 h)

end CdsChecker
