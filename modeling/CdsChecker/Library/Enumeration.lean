import Mathlib.Data.Set.Card

/-! Enumerations whose options arrive while they run: an option is handed out once, and an
enumerator that takes its options out of a finite set comes to an end. -/

namespace Enumeration

variable {S V : Type*}

/-- The options handed out, and those ahead, make up what was supplied. -/
structure Balanced (supplied : V → Prop) (visited : List V) (ahead : V → Prop) : Prop where
  nodup : visited.Nodup
  total : ∀ v, supplied v ↔ v ∈ visited ∨ ahead v
  disjoint : ∀ v ∈ visited, ¬ ahead v

/-- What a step of an enumerator does to the options ahead: it takes one out, or there is none. -/
def Takes (ahead ahead' : V → Prop) : Option V → Prop
  | some v => ahead v ∧ ∀ w, ahead' w ↔ ahead w ∧ w ≠ v
  | none => ∀ w, ¬ ahead w ∧ ¬ ahead' w

variable {supplied supplied' ahead ahead' ahead₁ : V → Prop} {visited : List V}

theorem Takes.of_same {o : Option V} (h : ∀ w, ahead₁ w ↔ ahead w) (ht : Takes ahead₁ ahead' o) :
    Takes ahead ahead' o := by
  have heq : ahead₁ = ahead := funext fun w => propext (h w)
  rw [← heq]
  exact ht

namespace Balanced

theorem start (ahead : V → Prop) : Balanced ahead [] ahead where
  nodup := List.nodup_nil
  total := by simp
  disjoint := by simp

theorem congr (h : Balanced supplied visited ahead) (hs : ∀ v, supplied' v ↔ supplied v)
    (ha : ∀ v, ahead' v ↔ ahead v) : Balanced supplied' visited ahead' where
  nodup := h.nodup
  total := fun v => by rw [hs,ha,h.total]
  disjoint := fun v hv => by rw [ha]; exact h.disjoint v hv

/-- A new option is ahead. -/
theorem supply {v : V} (h : Balanced supplied visited ahead) (hv : ¬ supplied v)
    (hs : ∀ w, supplied' w ↔ supplied w ∨ w = v) (ha : ∀ w, ahead' w ↔ ahead w ∨ w = v) :
    Balanced supplied' visited ahead' where
  nodup := h.nodup
  total := fun w => by rw [hs,ha,h.total,or_assoc]
  disjoint := by
    intro w hw
    rw [ha,not_or]
    refine ⟨h.disjoint w hw,?_⟩
    intro heq
    exact hv ((h.total v).mpr (.inl (heq ▸ hw)))

theorem take {v : V} (h : Balanced supplied visited ahead) (ht : Takes ahead ahead' (some v)) :
    Balanced supplied (visited ++ [v]) ahead' where
  nodup := by
    rw [List.nodup_append_comm]
    exact List.nodup_cons.mpr ⟨fun hv => h.disjoint v hv ht.1,h.nodup⟩
  total := by
    intro w
    rw [h.total,ht.2,List.mem_append,List.mem_singleton]
    by_cases hw : w = v
    · simp [hw,ht.1]
    · simp [hw]
  disjoint := by
    intro w hw
    rw [ht.2]
    rcases List.mem_append.mp hw with hw | hw
    · exact fun ha => h.disjoint w hw ha.1
    · exact fun ha => ha.2 (List.mem_singleton.mp hw)

/-- With nothing ahead, all that was supplied has been handed out. -/
theorem complete (h : Balanced supplied visited ahead) (hnone : ∀ v, ¬ ahead v) (v : V) :
    supplied v ↔ v ∈ visited := by
  rw [h.total,or_iff_left (hnone v)]

end Balanced

/-- An enumerator with finitely many options ahead ends. -/
theorem exists_end (advance : S → S × Option V) (inv : S → Prop) (ahead : S → V → Prop)
    (hinv : ∀ s, inv s → inv (advance s).1)
    (htakes : ∀ s, inv s → Takes (ahead s) (ahead (advance s).1) (advance s).2) (s : S)
    (hs : inv s) (hfin : {v | ahead s v}.Finite) :
    ∃ m, (advance ((fun s => (advance s).1)^[m] s)).2 = none := by
  induction hcard : {v | ahead s v}.ncard generalizing s with
  | zero =>
    refine ⟨0,?_⟩
    have hempty := (Set.ncard_eq_zero hfin).mp hcard
    cases hout : (advance s).2 with
    | none => exact hout
    | some v =>
      have ht := htakes s hs
      rw [hout] at ht
      have hmem : v ∈ {v | ahead s v} := ht.1
      rw [hempty] at hmem
      exact absurd hmem (Set.notMem_empty v)
  | succ k ih =>
    have ht := htakes s hs
    cases hout : (advance s).2 with
    | none => exact ⟨0,hout⟩
    | some v =>
      rw [hout] at ht
      have hdiff : {w | ahead (advance s).1 w} = {w | ahead s w} \ {v} := by
        ext w
        exact ht.2 w
      have hcard' : {w | ahead (advance s).1 w}.ncard = k := by
        rw [hdiff,Set.ncard_sdiff_singleton_of_mem (by exact ht.1),hcard]
        omega
      obtain ⟨m,hm⟩ := ih (advance s).1 (hinv s hs) (hdiff ▸ hfin.sdiff) hcard'
      exact ⟨m + 1,hm⟩

end Enumeration
