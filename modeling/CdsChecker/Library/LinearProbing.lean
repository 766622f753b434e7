import Mathlib.Data.Nat.Find
import Mathlib.Data.Nat.ModEq
import Mathlib.Logic.Function.Basic
import Mathlib.Tactic

/-! A map in a circular table: each key is in the first free slot from its home on, at the time when
it was put there. -/
namespace CdsChecker

variable {K V : Type}

/-- The slots hold the map: no key is in two of them, and none is free between a key's home and its
slot. -/
structure Probed (cap : ℕ) (home : K → ℕ) (slots : ℕ → Option (K × V)) (m : K → Option V) :
    Prop where
  once : ∀ i < cap, ∀ j < cap, ∀ k v w, slots i = some (k,v) → slots j = some (k,w) → i = j
  reach : ∀ i < cap, ∀ k v, slots i = some (k,v) → ∃ d, i = (home k + d) % cap ∧
    ∀ d' < d, slots ((home k + d') % cap) ≠ none
  content : ∀ k v, m k = some v ↔ ∃ i < cap, slots i = some (k,v)

/-- The search for the key from its home on ends here: at a free slot or at the key. -/
structure FirstStop (cap : ℕ) (home : K → ℕ) (slots : ℕ → Option (K × V)) (k : K) (d : ℕ) :
    Prop where
  stop : slots ((home k + d) % cap) = none ∨ ∃ v, slots ((home k + d) % cap) = some (k,v)
  before : ∀ d' < d, ∃ k' v, slots ((home k + d') % cap) = some (k',v) ∧ k' ≠ k

variable {cap : ℕ} {home : K → ℕ} {slots : ℕ → Option (K × V)} {m : K → Option V} {k : K} {d : ℕ}

/-- Where a slot is free the search ends within one round. -/
theorem exists_firstStop (home : K → ℕ) (k : K) (h : ∃ e < cap, slots e = none) :
    ∃ d < cap, FirstStop cap home slots k d := by
  classical
  obtain ⟨e,he,hfree⟩ := h
  have hpos : 0 < cap := Nat.zero_lt_of_lt he
  let p : ℕ → Prop := fun d =>
    slots ((home k + d) % cap) = none ∨ ∃ v, slots ((home k + d) % cap) = some (k,v)
  obtain ⟨d,hd,hstop⟩ : ∃ d < cap, p d := by
    refine ⟨(e + (cap - home k % cap)) % cap,Nat.mod_lt _ hpos,.inl ?_⟩
    have hhome : home k % cap < cap := Nat.mod_lt _ hpos
    have hround : (home k + (e + (cap - home k % cap)) % cap) % cap = e := by
      have hsum : home k % cap + (e + (cap - home k % cap)) = e + cap := by omega
      rw [Nat.add_mod_mod,← Nat.mod_add_mod,hsum,Nat.add_mod_right,Nat.mod_eq_of_lt he]
    rw [hround,hfree]
  have hex : ∃ d, p d := ⟨d,hstop⟩
  refine ⟨Nat.find hex,Nat.lt_of_le_of_lt (Nat.find_min' hex hstop) hd,Nat.find_spec hex,
    fun d' hd' => ?_⟩
  have hnot := Nat.find_min hex hd'
  cases hslot : slots ((home k + d') % cap) with
  | none => exact absurd (.inl hslot) hnot
  | some kv =>
    obtain ⟨k',v⟩ := kv
    refine ⟨k',v,rfl,?_⟩
    rintro rfl
    exact hnot (.inr ⟨v,hslot⟩)

namespace Probed

theorem of_found (h : Probed cap home slots m) (hpos : 0 < cap) {v : V}
    (hslot : slots ((home k + d) % cap) = some (k,v)) : m k = some v :=
  (h.content k v).mpr ⟨_,Nat.mod_lt _ hpos,hslot⟩

/-- A search that ends at a free slot would have come past the key. -/
theorem of_free (h : Probed cap home slots m) (hstop : FirstStop cap home slots k d)
    (hslot : slots ((home k + d) % cap) = none) :
    m k = none := by
  cases hm : m k with
  | none => rfl
  | some v =>
    obtain ⟨i,hi,hkey⟩ := (h.content k v).mp hm
    obtain ⟨d₀,rfl,hpath⟩ := h.reach i hi k v hkey
    rcases Nat.lt_trichotomy d d₀ with hlt | rfl | hgt
    · exact absurd hslot (hpath d hlt)
    · rw [hslot] at hkey
      cases hkey
    · obtain ⟨k',w,hother,hne⟩ := hstop.before d₀ hgt
      rw [hkey] at hother
      cases hother
      exact absurd rfl hne

/-- The key is put into the free slot. -/
theorem insert [DecidableEq K] (h : Probed cap home slots m) (hpos : 0 < cap)
    (hstop : FirstStop cap home slots k d) (hslot : slots ((home k + d) % cap) = none) (v : V) :
    Probed cap home (Function.update slots ((home k + d) % cap) (some (k,v)))
      (Function.update m k (some v)) := by
  have hnone := h.of_free hstop hslot
  have habsent : ∀ i < cap, ∀ w, slots i ≠ some (k,w) := by
    intro i hi w hkey
    rw [(h.content k w).mpr ⟨i,hi,hkey⟩] at hnone
    cases hnone
  set pos := (home k + d) % cap with hpos'
  have hlt : pos < cap := Nat.mod_lt _ hpos
  have hkeep : ∀ i, slots i ≠ none → Function.update slots pos (some (k,v)) i ≠ none := by
    intro i hi
    by_cases hip : i = pos
    · simp [hip]
    · rwa [Function.update_of_ne hip]
  apply Probed.mk
  · intro i hi j hj k' u w hiu hjw
    by_cases hip : i = pos
    · by_cases hjp : j = pos
      · rw [hip,hjp]
      · rw [hip,Function.update_self] at hiu
        cases hiu
        rw [Function.update_of_ne hjp] at hjw
        exact absurd hjw (habsent j hj w)
    · rw [Function.update_of_ne hip] at hiu
      by_cases hjp : j = pos
      · rw [hjp,Function.update_self] at hjw
        cases hjw
        exact absurd hiu (habsent i hi u)
      · rw [Function.update_of_ne hjp] at hjw
        exact h.once i hi j hj k' u w hiu hjw
  · intro i hi k' u hiu
    by_cases hip : i = pos
    · rw [hip,Function.update_self] at hiu
      cases hiu
      refine ⟨d,hip,fun d' hd' => hkeep _ ?_⟩
      obtain ⟨k',w,hother,-⟩ := hstop.before d' hd'
      rw [hother]
      exact Option.some_ne_none _
    · rw [Function.update_of_ne hip] at hiu
      obtain ⟨d₀,hd₀,hpath⟩ := h.reach i hi k' u hiu
      exact ⟨d₀,hd₀,fun d' hd' => hkeep _ (hpath d' hd')⟩
  · intro k' u
    by_cases hk : k' = k
    · subst hk
      rw [Function.update_self]
      constructor
      · intro heq
        cases heq
        exact ⟨pos,hlt,Function.update_self ..⟩
      · rintro ⟨i,hi,hiu⟩
        by_cases hip : i = pos
        · rw [hip,Function.update_self] at hiu
          cases hiu
          rfl
        · rw [Function.update_of_ne hip] at hiu
          exact absurd hiu (habsent i hi u)
    · rw [Function.update_of_ne hk,h.content k' u]
      constructor
      · rintro ⟨i,hi,hiu⟩
        refine ⟨i,hi,?_⟩
        rwa [Function.update_of_ne]
        rintro rfl
        rw [hslot] at hiu
        cases hiu
      · rintro ⟨i,hi,hiu⟩
        by_cases hip : i = pos
        · rw [hip,Function.update_self] at hiu
          cases hiu
          exact absurd rfl hk
        · rw [Function.update_of_ne hip] at hiu
          exact ⟨i,hi,hiu⟩

/-- The key has a slot, which gets another value. -/
theorem overwrite [DecidableEq K] (h : Probed cap home slots m) (hpos : 0 < cap) {u : V}
    (hslot : slots ((home k + d) % cap) = some (k,u)) (v : V) :
    Probed cap home (Function.update slots ((home k + d) % cap) (some (k,v)))
      (Function.update m k (some v)) := by
  set pos := (home k + d) % cap with hpos'
  have hlt : pos < cap := Nat.mod_lt _ hpos
  have hkeep : ∀ i, slots i ≠ none → Function.update slots pos (some (k,v)) i ≠ none := by
    intro i hi
    by_cases hip : i = pos
    · simp [hip]
    · rwa [Function.update_of_ne hip]
  -- the same keys are in the same slots
  have hback : ∀ i k' w, Function.update slots pos (some (k,v)) i = some (k',w) →
      ∃ w', slots i = some (k',w') ∧ (i ≠ pos → w' = w) := by
    intro i k' w hi
    by_cases hip : i = pos
    · rw [hip,Function.update_self] at hi
      cases hi
      exact ⟨u,hip ▸ hslot,fun hne => absurd hip hne⟩
    · rw [Function.update_of_ne hip] at hi
      exact ⟨w,hi,fun _ => rfl⟩
  apply Probed.mk
  · intro i hi j hj k' x y hix hjy
    obtain ⟨x',hix',-⟩ := hback i k' x hix
    obtain ⟨y',hjy',-⟩ := hback j k' y hjy
    exact h.once i hi j hj k' x' y' hix' hjy'
  · intro i hi k' x hix
    obtain ⟨x',hix',-⟩ := hback i k' x hix
    obtain ⟨d₀,hd₀,hpath⟩ := h.reach i hi k' x' hix'
    exact ⟨d₀,hd₀,fun d' hd' => hkeep _ (hpath d' hd')⟩
  · intro k' x
    by_cases hk : k' = k
    · subst hk
      rw [Function.update_self]
      constructor
      · intro heq
        cases heq
        exact ⟨pos,hlt,Function.update_self ..⟩
      · rintro ⟨i,hi,hix⟩
        obtain ⟨x',hix',-⟩ := hback i k' x hix
        have hip := h.once i hi pos hlt k' x' u hix' hslot
        rw [hip,Function.update_self] at hix
        cases hix
        rfl
    · rw [Function.update_of_ne hk,h.content k' x]
      constructor
      · rintro ⟨i,hi,hix⟩
        refine ⟨i,hi,?_⟩
        rwa [Function.update_of_ne]
        rintro rfl
        rw [hslot] at hix
        cases hix
        exact hk rfl
      · rintro ⟨i,hi,hix⟩
        obtain ⟨x',hix',hsame⟩ := hback i k' x hix
        refine ⟨i,hi,?_⟩
        by_cases hip : i = pos
        · rw [hip,hslot] at hix'
          cases hix'
          exact absurd rfl hk
        · rw [hix',hsame hip]

end Probed

/-- The number of slots that are not free. -/
def occupied (cap : ℕ) (slots : ℕ → Option (K × V)) : ℕ :=
  ((Finset.range cap).filter fun i => (slots i).isSome).card

theorem occupied_mono {n : ℕ} (hle : n ≤ cap) (slots : ℕ → Option (K × V)) :
    occupied n slots ≤ occupied cap slots := by
  apply Finset.card_le_card
  exact Finset.filter_subset_filter _ (Finset.range_subset_range.mpr hle)

theorem exists_free (h : occupied cap slots < cap) : ∃ e < cap, slots e = none := by
  by_contra hall
  push Not at hall
  have hfull : (Finset.range cap).filter (fun i => (slots i).isSome) = Finset.range cap :=
    Finset.filter_true_of_mem fun i hi =>
      Option.isSome_iff_ne_none.mpr (hall i (Finset.mem_range.mp hi))
  rw [occupied,hfull,Finset.card_range] at h
  exact Nat.lt_irrefl _ h

theorem occupied_succ (cap : ℕ) (slots : ℕ → Option (K × V)) :
    occupied (cap + 1) slots = occupied cap slots + if (slots cap).isSome then 1 else 0 := by
  rw [occupied,Finset.range_add_one,Finset.filter_insert]
  split
  · rw [Finset.card_insert_of_notMem (by simp)]
    rfl
  · rfl

theorem occupied_insert {pos : ℕ} (hpos : pos < cap) (hslot : slots pos = none) (x : K × V) :
    occupied cap (Function.update slots pos (some x)) = occupied cap slots + 1 := by
  have hnew : (Finset.range cap).filter (fun i => (Function.update slots pos (some x) i).isSome) =
      insert pos ((Finset.range cap).filter fun i => (slots i).isSome) := by
    ext i
    by_cases hi : i = pos
    · simp [hi,hpos]
    · simp [hi]
  rw [occupied,hnew,Finset.card_insert_of_notMem (by simp [hslot])]
  rfl

theorem occupied_overwrite (cap : ℕ) {pos : ℕ} {y : K × V} (hslot : slots pos = some y)
    (x : K × V) :
    occupied cap (Function.update slots pos (some x)) = occupied cap slots := by
  rw [occupied,occupied]
  congr 1
  apply Finset.filter_congr
  intro i _
  by_cases hi : i = pos
  · simp [hi,hslot]
  · rw [Function.update_of_ne hi]

theorem occupied_empty (cap : ℕ) : occupied cap (fun _ => (none : Option (K × V))) = 0 := by
  simp [occupied]

/-- The empty table. -/
theorem probed_empty : Probed cap home (fun _ => none) (fun _ => (none : Option V)) :=
  ⟨fun _ _ _ _ _ _ _ h => (by cases h),fun _ _ _ _ h => (by cases h),fun _ _ => by simp⟩

end CdsChecker
