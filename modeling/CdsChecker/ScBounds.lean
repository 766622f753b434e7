import CdsChecker.ScAnalysis
import CdsChecker.RunSteps

/-! When the lists of writes have room for every action of a trace. -/
namespace CdsChecker
namespace SCAnalysis

/-- The length of the lists of a location after some actions: one more than the last thread. -/
def bound (e : Execution) (acts : List ActionId) (l : Location) : ℕ :=
  acts.foldl (fun n act =>
    if (e.acts act).location = l then max n ((e.acts act).tid + 1) else n) 0

/-- No action is by the thread just behind the lists of its location. -/
def InBounds (e : Execution) (actions : List ActionId) : Prop :=
  ∀ pre act post, actions = pre ++ act :: post →
    (e.acts act).tid ≠ bound e pre (e.acts act).location

theorem bound_concat (e : Execution) (acts : List ActionId) (act : ActionId) (l : Location) :
    bound e (acts ++ [act]) l =
      if (e.acts act).location = l then max (bound e acts l) ((e.acts act).tid + 1)
      else bound e acts l := by
  simp only [bound,List.foldl_append,List.foldl_cons,List.foldl_nil]

theorem inBounds_concat {e : Execution} {acts : List ActionId} {act : ActionId} :
    InBounds e (acts ++ [act]) ↔
      InBounds e acts ∧ (e.acts act).tid ≠ bound e acts (e.acts act).location := by
  constructor
  · intro h
    constructor
    · intro pre b post hsplit
      exact h pre b (post ++ [act]) (by simp [hsplit])
    · exact h acts act [] rfl
  · intro ⟨h,hlast⟩ pre b post hsplit
    rcases List.eq_nil_or_concat post with rfl | ⟨post,c,rfl⟩
    · obtain ⟨rfl,hb⟩ := List.append_inj' hsplit rfl
      cases hb
      exact hlast
    · rw [List.concat_eq_append,← List.cons_append,← List.append_assoc] at hsplit
      exact h pre b post (List.append_inj' hsplit rfl).1

theorem length_resize {α : Type} (l : List α) (size : ℕ) (fill : α) :
    (resize l size fill).length = size := by
  simp only [resize,List.length_append,List.length_take,List.length_replicate]
  omega

theorem deref_eq_ok {α : Type} {x : Option α} {a : α} : deref x = .ok a ↔ x = some a := by
  cases x <;> simp [deref]

/-- The access is behind the end exactly where the lists are as long as the thread's number. -/
theorem addWrite_length {e : Execution} {s s' : SCAnalysis} {act : ActionId}
    (h : s.addWrite e act = .ok s') :
    (e.acts act).tid ≠ (s.writeMap (e.acts act).location).length ∧
      ∀ l, (s'.writeMap l).length = if (e.acts act).location = l
        then max (s.writeMap l).length ((e.acts act).tid + 1) else (s.writeMap l).length := by
  obtain ⟨found,hfound,h⟩ := bind_eq_ok.mp h
  rw [deref_eq_ok] at hfound
  have hlt := (List.getElem?_eq_some_iff.mp hfound).1
  obtain rfl := Except.ok.inj h
  have hother : ∀ l, (e.acts act).location ≠ l → ∀ lists : List (Option (List ActionId)),
      Function.update s.writeMap (e.acts act).location lists l = s.writeMap l :=
    fun l hl lists => Function.update_of_ne (Ne.symm hl) _ _
  by_cases hshort : (s.writeMap (e.acts act).location).length < (e.acts act).tid
  · refine ⟨Nat.ne_of_gt hshort,fun l => ?_⟩
    by_cases hl : (e.acts act).location = l
    · subst hl
      simp only [hshort,↓reduceIte,Function.update_self,List.length_set,length_resize]
      omega
    · simp only [hl,↓reduceIte,hother l hl]
  · rw [if_neg hshort] at hlt
    refine ⟨Nat.ne_of_lt hlt,fun l => ?_⟩
    by_cases hl : (e.acts act).location = l
    · subst hl
      simp only [hshort,↓reduceIte,Function.update_self,List.length_set]
      omega
    · simp only [hl,↓reduceIte,hother l hl]

theorem merge_writeMap {e : Execution} {s : SCAnalysis} {act act2 : ActionId}
    {r : SCAnalysis × Bool} (h : s.merge e act act2 = .ok r) : r.1.writeMap = s.writeMap := by
  unfold merge at h
  cases hcv2 : s.cvmap act2 with
  | none =>
    rw [hcv2] at h
    cases h
    rfl
  | some cv2 =>
    simp only [hcv2] at h
    split at h
    · cases h
      rfl
    · obtain ⟨cv,-,h⟩ := bind_eq_ok.mp h
      split at h
      · cases h
        rfl
      · split at h
        · cases h
          rfl
        · split at h <;> cases h <;> rfl

theorem ensureCV_writeMap (e : Execution) (s : SCAnalysis) (act : ActionId) :
    (s.ensureCV e act).writeMap = s.writeMap := by
  unfold ensureCV
  split <;> rfl

theorem growThreads_writeMap (s : SCAnalysis) (t : ThreadId) :
    (s.growThreads t).writeMap = s.writeMap := by
  unfold growThreads
  split <;> rfl

theorem addLast_writeMap (e : Execution) (s : SCAnalysis) (act : ActionId) :
    (s.addLast e act).writeMap = s.writeMap := by
  unfold addLast
  split <;> rfl

theorem addRf_writeMap {e : Execution} {s s' : SCAnalysis} {act : ActionId}
    (h : s.addRf e act = .ok s') : s'.writeMap = s.writeMap := by
  unfold addRf at h
  split at h
  · obtain ⟨write,-,h⟩ := bind_eq_ok.mp h
    split at h
    · obtain ⟨⟨t,_⟩,ht,h⟩ := bind_eq_ok.mp h
      cases h
      exact (merge_writeMap ht).trans (ensureCV_writeMap e s write)
    · cases h
      rfl
  · cases h
    rfl

theorem addStart_writeMap (e : Execution) (s : SCAnalysis) (act : ActionId) :
    (s.addStart e act).writeMap = s.writeMap := by
  unfold addStart
  split
  · split <;> rfl
  · rfl

theorem addJoin_writeMap {e : Execution} {s s' : SCAnalysis} {act : ActionId}
    (h : s.addJoin e act = .ok s') : s'.writeMap = s.writeMap := by
  unfold addJoin at h
  split at h
  · cases h
    rfl
  · obtain ⟨finish,-,h⟩ := bind_eq_ok.mp h
    cases h
    rfl

theorem buildFast_length {e : Execution} {s s' : SCAnalysis} {act : ActionId}
    (h : buildFast e s act = .ok s') :
    (e.acts act).tid ≠ (s.writeMap (e.acts act).location).length ∧
      ∀ l, (s'.writeMap l).length = if (e.acts act).location = l
        then max (s.writeMap l).length ((e.acts act).tid + 1) else (s.writeMap l).length := by
  obtain ⟨s₁,hwrite,h⟩ := bind_eq_ok.mp h
  obtain ⟨s₂,hrf,h⟩ := bind_eq_ok.mp h
  obtain ⟨s₃,hjoin,h⟩ := bind_eq_ok.mp h
  cases h
  have hlen := addWrite_length hwrite
  rw [growThreads_writeMap,ensureCV_writeMap] at hlen
  have hsame : (s₃.pushBack (e.acts act).tid act).writeMap = s₁.writeMap := by
    change s₃.writeMap = s₁.writeMap
    rw [addJoin_writeMap hjoin,addStart_writeMap,addRf_writeMap hrf,addLast_writeMap]
  exact ⟨hlen.1,fun l => by rw [hsame,hlen.2 l]⟩

theorem foldlM_concat_ok {α β : Type} {f : β → α → Result β} {l : List α} {a : α} {b r : β} :
    (l ++ [a]).foldlM f b = .ok r ↔ ∃ c, l.foldlM f b = .ok c ∧ f c a = .ok r := by
  rw [List.foldlM_append,bind_eq_ok]
  simp

/-- Lists that were built had room for every action. -/
theorem buildFast_inBounds {e : Execution} {s s' : SCAnalysis} {acts : List ActionId}
    (hempty : ∀ l, s.writeMap l = []) (h : acts.foldlM (buildFast e) s = .ok s') :
    InBounds e acts ∧ ∀ l, (s'.writeMap l).length = bound e acts l := by
  induction acts using List.reverseRecOn generalizing s' with
  | nil =>
    cases h
    exact ⟨fun pre act post hsplit => by simp at hsplit,fun l => by simp [hempty l,bound]⟩
  | append_singleton acts act ih =>
    obtain ⟨t,ht,hact⟩ := foldlM_concat_ok.mp h
    obtain ⟨hin,hlen⟩ := ih ht
    obtain ⟨hne,hlen'⟩ := buildFast_length hact
    rw [hlen] at hne
    refine ⟨inBounds_concat.mpr ⟨hin,hne⟩,fun l => ?_⟩
    rw [hlen' l,hlen l,bound_concat]

theorem analyze_inBounds {e : Execution} {n : ℕ} {actions : List ActionId} {s : SCAnalysis}
    {list : List ActionId} (h : analyze e n actions {} = .ok (s,list)) : InBounds e actions := by
  obtain ⟨_,hgen,-⟩ := bind_eq_ok.mp h
  obtain ⟨_,hbuild,-⟩ := bind_eq_ok.mp hgen
  exact (buildFast_inBounds (fun _ => rfl) hbuild).1

end SCAnalysis
end CdsChecker
