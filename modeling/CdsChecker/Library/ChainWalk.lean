import Mathlib.Data.Set.Card
import Mathlib.Logic.Relation
import Mathlib.Tactic

/-! A walk along a partial function until it comes to an element that stops it. -/
namespace CdsChecker

open Relation

variable {α : Type} (next : α → Option α) (stop : α → Prop)

/-- A turn that does not end the walk. -/
def Passes (x y : α) : Prop := next x = some y ∧ ¬stop y

/-- The walk from `x` stops at `z`. -/
inductive Reaches : α → α → Prop
  | found {x y : α} : next x = some y → stop y → Reaches x y
  | pass {x y z : α} : Passes next stop x y → Reaches y z → Reaches x z

variable {next stop} {x y z z' : α}

theorem Passes.eq (h : Passes next stop x y) (h' : Passes next stop x z) : y = z :=
  Option.some.inj (h.1.symm.trans h'.1)

theorem Reaches.tail (h : Reaches next stop x z) (hpass : Passes next stop x y) :
    Reaches next stop y z := by
  cases h with
  | found hnext hstop =>
    have heq := Option.some.inj (hpass.1.symm.trans hnext)
    exact absurd (heq ▸ hstop) hpass.2
  | pass hpass' hrest => exact hpass'.eq hpass ▸ hrest

theorem Reaches.tails (h : Reaches next stop x z) (hpasses : ReflTransGen (Passes next stop) x y) :
    Reaches next stop y z := by
  induction hpasses with
  | refl => exact h
  | tail _ hpass ih => exact ih.tail hpass

theorem Reaches.unique (h : Reaches next stop x z) (h' : Reaches next stop x z') : z = z' := by
  induction h with
  | found hnext hstop =>
    cases h' with
    | found hnext' hstop' => exact Option.some.inj (hnext.symm.trans hnext')
    | pass hpass' _ =>
      have heq := Option.some.inj (hnext.symm.trans hpass'.1)
      exact absurd (heq ▸ hstop) hpass'.2
  | pass hpass _ ih => exact ih (h'.tail hpass)

theorem Reaches.last (h : Reaches next stop x z) :
    ∃ y, ReflTransGen (Passes next stop) x y ∧ next y = some z ∧ stop z := by
  induction h with
  | found hnext hstop => exact ⟨_,.refl,hnext,hstop⟩
  | pass hpass _ ih =>
    obtain ⟨y,hpath,hlast⟩ := ih
    exact ⟨y,.head hpass hpath,hlast⟩

theorem Reaches.next_ne_none (h : Reaches next stop x z) : next x ≠ none := by
  cases h with
  | found hnext _ => exact fun hnone => by rw [hnone] at hnext; cases hnext
  | pass hpass _ => exact fun hnone => by rw [hpass.1] at hnone; cases hnone

/-- A walk that stops does not come round. -/
theorem Reaches.not_cycle (h : Reaches next stop x z) : ¬TransGen (Passes next stop) x x := by
  induction h with
  | found hnext hstop =>
    intro hcycle
    obtain ⟨y,hpass,-⟩ := TransGen.head'_iff.mp hcycle
    have heq := Option.some.inj (hnext.symm.trans hpass.1)
    exact absurd (heq ▸ hstop) hpass.2
  | pass hpass _ ih =>
    intro hcycle
    obtain ⟨y,hpass',hrest⟩ := TransGen.head'_iff.mp hcycle
    obtain rfl := hpass.eq hpass'
    exact ih (TransGen.tail' hrest hpass)

/-- In a finite set a walk that meets no dead end and does not come round stops. -/
theorem exists_reaches {s : Set α} (hfinite : s.Finite)
    (hclosed : ∀ x ∈ s, ∀ y, next x = some y → y ∈ s) (hx : x ∈ s)
    (hnone : ∀ y, ReflTransGen (Passes next stop) x y → next y ≠ none)
    (hcycle : ∀ y, ReflTransGen (Passes next stop) x y → ¬TransGen (Passes next stop) y y) :
    ∃ z, Reaches next stop x z := by
  have hmem : ∀ y, ReflTransGen (Passes next stop) x y → y ∈ s := by
    intro y hpath
    induction hpath with
    | refl => exact hx
    | tail _ hpass ih => exact hclosed _ ih _ hpass.1
  -- what is still ahead of the walk gets less
  let ahead : α → Set α := fun y => { w | TransGen (Passes next stop) y w }
  have hfin : ∀ y, ReflTransGen (Passes next stop) x y → (ahead y).Finite := by
    intro y hpath
    exact hfinite.subset fun w hw => hmem w (hpath.trans hw.to_reflTransGen)
  suffices hrest : ∀ n y, ReflTransGen (Passes next stop) x y → (ahead y).ncard ≤ n →
      ∃ z, Reaches next stop y z from hrest _ x .refl (Nat.le_refl _)
  intro n
  induction n with
  | zero =>
    intro y hpath hcard
    obtain ⟨w,hw⟩ := Option.ne_none_iff_exists'.mp (hnone y hpath)
    by_cases hstop : stop w
    · exact ⟨w,.found hw hstop⟩
    · have hin : w ∈ ahead y := .single ⟨hw,hstop⟩
      have hempty := (Set.ncard_eq_zero (hfin y hpath)).mp (Nat.le_zero.mp hcard)
      rw [hempty] at hin
      cases hin
  | succ n ih =>
    intro y hpath hcard
    obtain ⟨w,hw⟩ := Option.ne_none_iff_exists'.mp (hnone y hpath)
    by_cases hstop : stop w
    · exact ⟨w,.found hw hstop⟩
    · have hpass : Passes next stop y w := ⟨hw,hstop⟩
      have hpath' := hpath.tail hpass
      have hlt : (ahead w).ncard < (ahead y).ncard := by
        refine Set.ncard_lt_ncard (Set.ssubset_iff_of_subset ?_ |>.mpr ⟨w,.single hpass,?_⟩)
          (hfin y hpath)
        · intro v hv
          exact .head hpass hv
        · exact hcycle w hpath'
      obtain ⟨z,hz⟩ := ih w hpath' (by omega)
      exact ⟨z,.pass hpass hz⟩

/-- The walk stops exactly where it meets no dead end and does not come round. -/
theorem reaches_iff {s : Set α} (hfinite : s.Finite)
    (hclosed : ∀ x ∈ s, ∀ y, next x = some y → y ∈ s) (hx : x ∈ s) :
    (∃ z, Reaches next stop x z) ↔ ∀ y, ReflTransGen (Passes next stop) x y →
      next y ≠ none ∧ ¬TransGen (Passes next stop) y y := by
  constructor
  · rintro ⟨z,hz⟩ y hpath
    exact ⟨(hz.tails hpath).next_ne_none,(hz.tails hpath).not_cycle⟩
  · intro h
    exact exists_reaches hfinite hclosed hx (fun y hpath => (h y hpath).1) fun y hpath =>
      (h y hpath).2

end CdsChecker
