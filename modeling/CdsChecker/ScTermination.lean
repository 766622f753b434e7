import CdsChecker.CompleteTrace

/-! The passes of the generator come to an end: a pass that counts as a change makes a clock grow,
or takes back the permission for any edge, and the clocks have a bound. -/
namespace CdsChecker
namespace SCGenerator

open SCAnalysis

/-- The actions whose clock vectors a pass over the list touches or reads. -/
def relevant (e : Execution) (list : List ActionId) : List ActionId :=
  list ++ list.flatMap (fun a => (e.objThrdMap (e.acts a).location).flatten) ++
    list.filterMap fun a => e.threads[(e.acts a).tid]?.bind Thread.creation

/-- Clocks up to a bound, of a number of threads. -/
def Fits (n bound : ℕ) (cv : ClockVector) : Prop :=
  ∀ u, cv.getClock u ≤ bound ∧ (n ≤ u → cv.getClock u = 0)

theorem Fits.merge {n bound : ℕ} {cv cv' : ClockVector} (h : Fits n bound cv)
    (h' : Fits n bound cv') :
    Fits n bound (cv.merge cv').1 := by
  intro u
  rw [ClockVector.getClock_merge]
  refine ⟨max_le (h u).1 (h' u).1,fun hu => ?_⟩
  rw [(h u).2 hu,(h' u).2 hu]
  rfl

theorem Fits.mono {n n' bound bound' : ℕ} {cv : ClockVector} (h : Fits n bound cv) (hn : n ≤ n')
    (hbound : bound ≤ bound') : Fits n' bound' cv :=
  fun u => ⟨(h u).1.trans hbound,fun hu => (h u).2 (hn.trans hu)⟩

theorem fits_self (cv : ClockVector) : Fits cv.numThreads cv.clock.sum cv := by
  intro u
  refine ⟨?_,ClockVector.getClock_of_le⟩
  by_cases hu : u < cv.numThreads
  · rw [ClockVector.getClock,List.getD_eq_getElem?_getD,List.getElem?_eq_getElem hu,
      Option.getD_some]
    exact List.le_sum_of_mem (List.getElem_mem hu)
  · rw [ClockVector.getClock_of_le (Nat.le_of_not_lt hu)]
    exact Nat.zero_le _

/-- Finitely many clock vectors have a common bound. -/
theorem exists_fits (cvs : List ClockVector) : ∃ n bound, ∀ cv ∈ cvs, Fits n bound cv := by
  induction cvs with
  | nil => exact ⟨0,0,by simp⟩
  | cons cv cvs ih =>
    obtain ⟨n,bound,h⟩ := ih
    refine ⟨max cv.numThreads n,max cv.clock.sum bound,?_⟩
    refine List.forall_mem_cons.mpr ⟨?_,fun cv' hcv' => ?_⟩
    · exact (fits_self cv).mono (le_max_left _ _) (le_max_left _ _)
    · exact (h cv' hcv').mono (le_max_right _ _) (le_max_right _ _)

/-! ### Clocks that grow -/

section Growth

variable (rel list : List ActionId) (n bound : ℕ)

/-- The clock vectors at hand are within the bounds. -/
def Bounded (s : SCAnalysis) : Prop := ∀ a ∈ rel, ∀ cv, s.cvmap a = some cv → Fits n bound cv

/-- A clock grew. -/
def Grown (s s' : SCAnalysis) : Prop := ∃ a ∈ rel, ∃ u < n, s.clock a u < s'.clock a u

/-- Every action of the trace has a clock vector. -/
def Full (s : SCAnalysis) : Prop := ∀ a ∈ list, (s.cvmap a).isSome

/-- What a part of a pass does: with each state, whether it counts as changed. -/
structure Moves (r r' : SCAnalysis × Bool) : Prop where
  bounded : Bounded rel n bound r'.1
  fastVersion : r'.1.fastVersion = r.1.fastVersion
  known : ∀ a, (r.1.cvmap a).isSome → (r'.1.cvmap a).isSome
  clocks : ∀ a u, r.1.clock a u ≤ r'.1.clock a u
  allowed : r'.1.allowNonSC = true → r.1.allowNonSC = true
  lost : r.1.allowNonSC = true → r'.1.allowNonSC = false → Grown rel n r.1 r'.1
  changed : Full list r.1 → r'.2 = true → r.2 = true ∨ Grown rel n r.1 r'.1

variable {rel list n bound} {r r' r'' : SCAnalysis × Bool} {s s' : SCAnalysis}

theorem Moves.refl (h : Bounded rel n bound r.1) : Moves rel list n bound r r :=
  ⟨h,rfl,fun _ h => h,fun _ _ => le_rfl,fun h => h,
    fun h h' => absurd (h.symm.trans h') Bool.noConfusion,fun _ h => .inl h⟩

theorem Moves.trans (h : Moves rel list n bound r r') (h' : Moves rel list n bound r' r'') :
    Moves rel list n bound r r'' := by
  have hfirst : Grown rel n r.1 r'.1 → Grown rel n r.1 r''.1 := fun ⟨a,ha,u,hu,hlt⟩ =>
    ⟨a,ha,u,hu,Nat.lt_of_lt_of_le hlt (h'.clocks a u)⟩
  have hsecond : Grown rel n r'.1 r''.1 → Grown rel n r.1 r''.1 := fun ⟨a,ha,u,hu,hlt⟩ =>
    ⟨a,ha,u,hu,Nat.lt_of_le_of_lt (h.clocks a u) hlt⟩
  apply Moves.mk
  · exact h'.bounded
  · exact h'.fastVersion.trans h.fastVersion
  · exact fun a ha => h'.known a (h.known a ha)
  · exact fun a u => (h.clocks a u).trans (h'.clocks a u)
  · exact fun ha => h.allowed (h'.allowed ha)
  · intro ha hb
    cases hmid : r'.1.allowNonSC with
    | false => exact hfirst (h.lost ha hmid)
    | true => exact hsecond (h'.lost hmid hb)
  · intro hfull hc
    rcases h'.changed (fun a ha => h.known a (hfull a ha)) hc with hc | hgrown
    · exact (h.changed hfull hc).imp_right hfirst
    · exact .inr (hsecond hgrown)

/-- A change that is already noted, or is not noted at all. -/
theorem Moves.ignore {c c' d d' : Bool} (h : Moves rel list n bound (s,c) (s',c'))
    (hd : d' = true → d = true) : Moves rel list n bound (s,d) (s',d') :=
  { h with changed := fun _ hc => .inl (hd hc) }

/-- A change on top of an older one. -/
theorem Moves.or {c : Bool} (h : Moves rel list n bound (s,false) (s',c)) (d : Bool) :
    Moves rel list n bound (s,d) (s',d || c) := by
  refine { h with changed := fun hfull hc => ?_ }
  rcases (Bool.or_eq_true _ _).mp hc with hd | hc
  · exact .inl hd
  · exact .inr ((h.changed hfull hc).resolve_left Bool.false_ne_true)

/-- How far the clocks can still grow. -/
def potential (rel : List ActionId) (n bound : ℕ) (s : SCAnalysis) : ℕ :=
  ∑ a ∈ rel.toFinset, ∑ u ∈ Finset.range n, (bound - s.clock a u)

theorem Moves.potential_le (h : Moves rel list n bound r r') :
    potential rel n bound r'.1 ≤ potential rel n bound r.1 :=
  Finset.sum_le_sum fun a _ => Finset.sum_le_sum fun u _ => Nat.sub_le_sub_left (h.clocks a u) _

theorem Moves.potential_lt (h : Moves rel list n bound r r') (hgrown : Grown rel n r.1 r'.1) :
    potential rel n bound r'.1 < potential rel n bound r.1 := by
  obtain ⟨a,ha,u,hu,hlt⟩ := hgrown
  have hle : r'.1.clock a u ≤ bound := by
    rw [clock]
    cases hcv : r'.1.cvmap a with
    | none => exact Nat.zero_le _
    | some cv => exact (h.bounded a ha cv hcv u).1
  have hrow : ∑ u ∈ Finset.range n, (bound - r'.1.clock a u) <
      ∑ u ∈ Finset.range n, (bound - r.1.clock a u) :=
    Finset.sum_lt_sum (fun u _ => Nat.sub_le_sub_left (h.clocks a u) _)
      ⟨u,Finset.mem_range.mpr hu,by omega⟩
  exact Finset.sum_lt_sum (fun a _ => Finset.sum_le_sum fun u _ =>
    Nat.sub_le_sub_left (h.clocks a u) _) ⟨a,List.mem_toFinset.mpr ha,hrow⟩

theorem Moves.of_cvmap {s s' : SCAnalysis} {act : ActionId} {cv' : ClockVector} {c : Bool}
    (hb : Bounded rel n bound s) (hact : act ∈ rel) (hfits : Fits n bound cv')
    (hcvmap : s'.cvmap = Function.update s.cvmap act (some cv'))
    (hfast : s'.fastVersion = s.fastVersion) (hle : ∀ u, s.clock act u ≤ cv'.getClock u)
    (hallowed : s'.allowNonSC = true → s.allowNonSC = true)
    (hlost : s.allowNonSC = true → s'.allowNonSC = false → ∃ u, s.clock act u < cv'.getClock u)
    (hchanged : Full list s → c = true → ∃ u, s.clock act u < cv'.getClock u) :
    Moves rel list n bound (s,false) (s',c) := by
  have hself : ∀ u, s'.clock act u = cv'.getClock u := fun u => by simp [clock,hcvmap]
  have hother : ∀ a, a ≠ act → ∀ u, s'.clock a u = s.clock a u := fun a ha u => by
    simp [clock,hcvmap,ha]
  have hgrown : (∃ u, s.clock act u < cv'.getClock u) → Grown rel n s s' := by
    rintro ⟨u,hu⟩
    refine ⟨act,hact,u,?_,by rwa [hself]⟩
    by_contra hge
    rw [(hfits u).2 (Nat.le_of_not_lt hge)] at hu
    exact absurd hu (Nat.not_lt_zero _)
  apply Moves.mk
  · intro a ha cv hcv
    by_cases haa : a = act
    · rw [hcvmap,haa,Function.update_self,Option.some.injEq] at hcv
      exact hcv ▸ hfits
    · rw [hcvmap,Function.update_of_ne haa] at hcv
      exact hb a ha cv hcv
  · exact hfast
  · intro a ha
    by_cases haa : a = act
    · simp [hcvmap,haa]
    · simpa [hcvmap,haa] using ha
  · intro a u
    by_cases haa : a = act
    · rw [haa,hself]
      exact hle u
    · rw [hother a haa]
  · exact hallowed
  · exact fun h h' => hgrown (hlost h h')
  · exact fun hfull hc => .inr (hgrown (hchanged hfull hc))

/-- A merge makes clocks grow, if it says so where there is something to merge. -/
theorem merge_moves {e : Execution} {act act2 : ActionId} (hb : Bounded rel n bound s)
    (hact : act ∈ rel) (hact2 : act2 ∈ rel) (hsome : (s.cvmap act).isSome) :
    ∃ s' b, s.merge e act act2 = .ok (s',b) ∧
      Moves rel list n bound (s,false) (s',(s.cvmap act2).isSome && b) := by
  obtain ⟨cv,hcv⟩ := Option.isSome_iff_exists.mp hsome
  rw [SCAnalysis.merge]
  cases hcv2 : s.cvmap act2 with
  | none => exact ⟨s,true,rfl,.refl hb⟩
  | some cv2 =>
    simp only [Option.isSome_some,Bool.true_and]
    split
    · exact ⟨_,false,rfl,{ Moves.refl hb with }⟩
    have hfits : Fits n bound (cv.merge cv2).1 := (hb act hact cv hcv).merge
      (hb act2 hact2 cv2 hcv2)
    have hclock : ∀ u, s.clock act u = cv.getClock u := fun u => by simp [clock,hcv]
    have hle : ∀ u, s.clock act u ≤ (cv.merge cv2).1.getClock u := fun u => by
      rw [hclock,ClockVector.getClock_merge]
      exact le_max_left _ _
    have hgrown : (cv.merge cv2).2 = true → ∃ u, s.clock act u < (cv.merge cv2).1.getClock u := by
      intro hmerged
      obtain ⟨u,hu⟩ := (ClockVector.merge_changed cv cv2).mp hmerged
      refine ⟨u,?_⟩
      rw [hclock,ClockVector.getClock_merge]
      exact lt_max_of_lt_right hu
    rw [hcv]
    change ∃ s' b, (if s.fastVersion = true then _ else _) = _ ∧ _
    split
    · refine ⟨_,_,rfl,?_⟩
      exact Moves.of_cvmap hb hact hfits rfl rfl hle id
        (fun h h' => absurd (h.symm.trans h') Bool.noConfusion) fun _ => hgrown
    split
    · rename_i hallow
      refine ⟨_,_,rfl,?_⟩
      exact Moves.of_cvmap hb hact hfits rfl rfl hle (fun _ => hallow)
        (fun _ h => hgrown (by simpa using h)) fun _ => hgrown
    split
    · refine ⟨_,_,rfl,?_⟩
      exact Moves.of_cvmap hb hact hfits rfl rfl hle id
        (fun h h' => absurd (h.symm.trans h') Bool.noConfusion) fun _ => hgrown
    · exact ⟨s,false,rfl,.refl hb⟩

/-- A merge that does not count. -/
theorem merge_ignore {e : Execution} {act act2 : ActionId} (hb : Bounded rel n bound s)
    (hact : act ∈ rel) (hact2 : act2 ∈ rel) (hsome : (s.cvmap act).isSome) (c : Bool) :
    ∃ s' b, s.merge e act act2 = .ok (s',b) ∧ Moves rel list n bound (s,c) (s',c) := by
  obtain ⟨s',b,hmerge,hmoves⟩ : ∃ s' b, s.merge e act act2 = .ok (s',b) ∧
      Moves rel list n bound (s,false) (s',(s.cvmap act2).isSome && b) :=
    merge_moves hb hact hact2 hsome
  exact ⟨s',b,hmerge,hmoves.ignore id⟩

/-- A merge with an action that has a clock vector after the first pass. -/
theorem merge_note {e : Execution} {act act2 : ActionId} (hb : Bounded rel n bound s)
    (hact : act ∈ rel) (hact2 : act2 ∈ rel) (hsome : (s.cvmap act).isSome)
    (hknown : act2 ∈ list ∨ (s.cvmap act2).isSome) : ∃ s' b, s.merge e act act2 = .ok (s',b) ∧
      ∀ c d : Bool, (d = true → c = true ∨ b = true) → Moves rel list n bound (s,c) (s',d) := by
  obtain ⟨s',b,hmerge,hmoves⟩ : ∃ s' b, s.merge e act act2 = .ok (s',b) ∧
      Moves rel list n bound (s,false) (s',(s.cvmap act2).isSome && b) :=
    merge_moves hb hact hact2 hsome
  refine ⟨s',b,hmerge,fun c d hd => ?_⟩
  refine { hmoves with changed := fun hfull hd' => (hd hd').imp_right fun hb' => ?_ }
  have hcv : (s.cvmap act2).isSome := hknown.elim (hfull act2) id
  refine (hmoves.changed hfull ?_).resolve_left Bool.false_ne_true
  simp [hcv,hb']

end Growth

/-! ### Reads -/

section Reads

variable {e : Execution} {n bound : ℕ} {read write : ActionId}

/-- What happens in a pass over the trace. -/
abbrev Turns (e : Execution) (n bound : ℕ) (r r' : SCAnalysis × Bool) : Prop :=
  Moves (relevant e e.actionTrace) e.actionTrace n bound r r'

theorem mem_relevant {a : ActionId} (h : a ∈ e.actionTrace) : a ∈ relevant e e.actionTrace :=
  List.mem_append_left _ (List.mem_append_left _ h)

theorem mem_relevant_of_obj {a w : ActionId} {t : ThreadId} (h : a ∈ e.actionTrace)
    (hw : w ∈ (e.objThrdMap (e.acts a).location).getD t []) : w ∈ relevant e e.actionTrace := by
  refine List.mem_append_left _ (List.mem_append_right _ (List.mem_flatMap.mpr ⟨a,h,?_⟩))
  rw [List.getD_eq_getElem?_getD] at hw
  cases hl : (e.objThrdMap (e.acts a).location)[t]? with
  | none => simp [hl] at hw
  | some l =>
    rw [hl,Option.getD_some] at hw
    exact List.mem_flatten.mpr ⟨l,List.mem_of_getElem? hl,hw⟩

theorem mergeRead_moves {s : SCAnalysis} {write2 : ActionId}
    (hb : Bounded (relevant e e.actionTrace) n bound s) (hwrite : write ∈ e.actionTrace)
    (hmem : write2 ∈ relevant e e.actionTrace) (hsome : (s.cvmap write2).isSome) :
    ∃ s' b, mergeRead e s write write2 = .ok (s',b) ∧
      ∀ c d : Bool, (d = true → c = true ∨ b = true) → Turns e n bound (s,c) (s',d) := by
  rw [mergeRead]
  cases hcv : s.cvmap write with
  | none =>
    refine ⟨s,true,rfl,fun c d _ => ?_⟩
    have hrefl : Turns e n bound (s,c) (s,c) := .refl hb
    refine { hrefl with changed := fun hfull => ?_ }
    have hsome := hfull write hwrite
    simp [hcv] at hsome
  | some cv =>
    exact merge_note hb (mem_relevant hwrite) hmem (by simp [hcv]) (.inr hsome)

theorem fastAfter_moves {s : SCAnalysis} {write2 : ActionId} {changed : Bool}
    (hb : Bounded (relevant e e.actionTrace) n bound s) (hread : read ∈ e.actionTrace)
    (hmem : write2 ∈ relevant e e.actionTrace) (hsome : (s.cvmap write2).isSome) :
    ∃ r', fastAfter e read write write2 s changed = .ok r' ∧ Turns e n bound (s,changed) r' := by
  rw [fastAfter]
  split
  · obtain ⟨s₁,b,hmerge,hmoves⟩ := merge_note hb hmem (mem_relevant hread) hsome (.inl hread)
    refine ⟨(s₁,changed || b),bind_eq_ok.mpr ⟨_,hmerge,rfl⟩,hmoves _ _ fun h => ?_⟩
    exact (Bool.or_eq_true _ _).mp h
  · exact ⟨(s,changed),rfl,.refl hb⟩

/-- A write that is looked at has a clock vector. -/
theorem isSome_of_not_skipped {s : SCAnalysis} {write2 : ActionId} {a b c : Bool}
    (h : ¬ (a || b || c || (s.cvmap write2).isNone) = true) : (s.cvmap write2).isSome := by
  cases hcv : s.cvmap write2 with
  | none => simp [hcv] at h
  | some cv => rfl

theorem fastWrites_moves (hread : read ∈ e.actionTrace) (hwrite : write ∈ e.actionTrace)
    {ws : List ActionId} (hws : ∀ w ∈ ws, w ∈ relevant e e.actionTrace) {r : SCAnalysis × Bool}
    (hb : Bounded (relevant e e.actionTrace) n bound r.1) :
    ∃ r', fastWrites e read write ws r = .ok r' ∧ Turns e n bound r r' := by
  induction ws generalizing r with
  | nil => exact ⟨r,rfl,.refl hb⟩
  | cons write2 rest ih =>
    obtain ⟨s,changed⟩ := r
    obtain ⟨hmem,hrest⟩ := List.forall_mem_cons.mp hws
    rw [fastWrites]
    split
    · exact ih hrest hb
    rename_i hskip
    have hsome := isSome_of_not_skipped hskip
    obtain ⟨⟨s₁,c₁⟩,hafter,hmoves⟩ : ∃ r', fastAfter e read write write2 s changed = .ok r' ∧
        Turns e n bound (s,changed) r' := fastAfter_moves hb hread hmem hsome
    by_cases hknows : knows e (s₁.cvmap read) write2 = true
    · obtain ⟨s₂,b,hmerge,hmoves₂⟩ := mergeRead_moves hmoves.bounded hwrite hmem
        (hmoves.known write2 hsome)
      refine ⟨(s₂,c₁ || b),bind_eq_ok.mpr ⟨_,hafter,?_⟩,hmoves.trans (hmoves₂ _ _ fun h => ?_)⟩
      · exact (if_pos hknows).trans (bind_eq_ok.mpr ⟨_,hmerge,rfl⟩)
      · exact (Bool.or_eq_true _ _).mp h
    · obtain ⟨r',hrec,hmoves'⟩ := ih hrest hmoves.bounded
      exact ⟨r',bind_eq_ok.mpr ⟨_,hafter,(if_neg hknows).trans hrec⟩,hmoves.trans hmoves'⟩

theorem fastThreads_moves (hread : read ∈ e.actionTrace) (hwrite : write ∈ e.actionTrace)
    (tids : List ThreadId) {r : SCAnalysis × Bool}
    (hb : Bounded (relevant e e.actionTrace) n bound r.1) :
    ∃ r', fastThreads e read write tids r = .ok r' ∧ Turns e n bound r r' := by
  induction tids generalizing r with
  | nil => exact ⟨r,rfl,.refl hb⟩
  | cons tid tids ih =>
    obtain ⟨r₁,h₁,hmoves₁⟩ : ∃ r₁, fastWrites e read write
        ((e.objThrdMap (e.acts read).location).getD tid []).reverse r = .ok r₁ ∧
          Turns e n bound r r₁ :=
      fastWrites_moves hread hwrite
        (fun w hw => mem_relevant_of_obj hread (List.mem_reverse.mp hw)) hb
    obtain ⟨r₂,h₂,hmoves₂⟩ := ih hmoves₁.bounded
    exact ⟨r₂,bind_eq_ok.mpr ⟨_,h₁,h₂⟩,hmoves₁.trans hmoves₂⟩

/-- A read of the trace, which has a clock vector when it is processed. -/
theorem processReadFast_moves {s : SCAnalysis} (hb : Bounded (relevant e e.actionTrace) n bound s)
    (hread : read ∈ e.actionTrace) (hwrite : write ∈ e.actionTrace)
    (hrf : (e.acts read).readsFrom = some write) (hsome : (s.cvmap read).isSome) :
    ∃ r', processReadFast e s read = .ok r' ∧ Turns e n bound (s,false) r' := by
  obtain ⟨s₁,b,hmerge,hmoves⟩ := merge_note (e := e) hb (mem_relevant hread) (mem_relevant hwrite)
    hsome (.inl hwrite)
  have hfirst : Turns e n bound (s,false) (s₁,b && e.before read write) := by
    apply hmoves
    intro h
    exact .inr ((Bool.and_eq_true _ _).mp h).1
  obtain ⟨r',hthreads,hmoves'⟩ := fastThreads_moves hread hwrite (List.range (s₁.maxthreads + 1))
    hfirst.bounded
  refine ⟨r',?_,hfirst.trans hmoves'⟩
  rw [processReadFast,hrf]
  exact bind_eq_ok.mpr ⟨_,hmerge,hthreads⟩

/-! The slow version does less. -/

theorem slowAfter_moves {s : SCAnalysis} {write2 : ActionId} {changed : Bool} (future : Bool)
    (hb : Bounded (relevant e e.actionTrace) n bound s) (hread : read ∈ e.actionTrace)
    (hmem : write2 ∈ relevant e e.actionTrace) (hsome : (s.cvmap write2).isSome) :
    ∃ s' c f, slowAfter e read write write2 s changed future = .ok (s',c,f) ∧
      Turns e n bound (s,changed) (s',c) := by
  rw [slowAfter]
  split
  · obtain ⟨s₁,b,hmerge,hmoves⟩ := merge_note hb hmem (mem_relevant hread) hsome (.inl hread)
    refine ⟨_,_,_,bind_eq_ok.mpr ⟨_,hmerge,rfl⟩,hmoves _ _ fun h => ?_⟩
    exact (Bool.or_eq_true _ _).mp h
  · exact ⟨s,changed,future,rfl,.refl hb⟩

theorem slowBefore_moves {s : SCAnalysis} {write2 : ActionId} {changed : Bool} (future : Bool)
    (hb : Bounded (relevant e e.actionTrace) n bound s) (hwrite : write ∈ e.actionTrace)
    (hmem : write2 ∈ relevant e e.actionTrace) (hsome : (s.cvmap write2).isSome) :
    ∃ s' c f, slowBefore e write write2 s changed future = .ok (s',c,f) ∧
      Turns e n bound (s,changed) (s',c) := by
  rw [slowBefore]
  split
  · obtain ⟨s₁,b,hmerge,hmoves⟩ := mergeRead_moves hb hwrite hmem hsome
    refine ⟨_,_,_,bind_eq_ok.mpr ⟨_,hmerge,rfl⟩,hmoves _ _ fun h => ?_⟩
    exact (Bool.or_eq_true _ _).mp h
  · exact ⟨s,changed,future,rfl,.refl hb⟩

theorem slowWrites_moves (hread : read ∈ e.actionTrace) (hwrite : write ∈ e.actionTrace)
    {ws : List ActionId} (hws : ∀ w ∈ ws, w ∈ relevant e e.actionTrace) {s : SCAnalysis}
    {changed future : Bool} (hb : Bounded (relevant e e.actionTrace) n bound s) :
    ∃ s' c f, slowWrites e read write ws (s,changed,future) = .ok (s',c,f) ∧
      Turns e n bound (s,changed) (s',c) := by
  induction ws generalizing s changed future with
  | nil => exact ⟨s,changed,future,rfl,.refl hb⟩
  | cons write2 rest ih =>
    obtain ⟨hmem,hrest⟩ := List.forall_mem_cons.mp hws
    rw [slowWrites]
    split
    · exact ih hrest hb
    rename_i hskip
    have hsome := isSome_of_not_skipped hskip
    obtain ⟨s₁,c₁,f₁,hafter,hmoves⟩ : ∃ s' c f, slowAfter e read write write2 s changed future =
        .ok (s',c,f) ∧ Turns e n bound (s,changed) (s',c) :=
        slowAfter_moves future hb hread hmem hsome
    by_cases hknows : knows e (s₁.cvmap read) write2 = true
    · obtain ⟨s₂,c₂,f₂,hbefore,hmoves₂⟩ := slowBefore_moves f₁ hmoves.bounded hwrite hmem
        (hmoves.known write2 hsome)
      exact ⟨s₂,c₂,f₂,bind_eq_ok.mpr ⟨_,hafter,(if_pos hknows).trans hbefore⟩,hmoves.trans hmoves₂⟩
    · obtain ⟨s₂,c₂,f₂,hrec,hmoves₂⟩ := ih hrest hmoves.bounded
      exact ⟨s₂,c₂,f₂,bind_eq_ok.mpr ⟨_,hafter,(if_neg hknows).trans hrec⟩,hmoves.trans hmoves₂⟩

theorem slowThreads_moves (hread : read ∈ e.actionTrace) (hwrite : write ∈ e.actionTrace)
    (tids : List ThreadId) {s : SCAnalysis} {changed future : Bool}
    (hb : Bounded (relevant e e.actionTrace) n bound s) :
    ∃ s' c f, slowThreads e read write tids (s,changed,future) = .ok (s',c,f) ∧
      Turns e n bound (s,changed) (s',c) := by
  induction tids generalizing s changed future with
  | nil => exact ⟨s,changed,future,rfl,.refl hb⟩
  | cons tid tids ih =>
    obtain ⟨s₁,c₁,f₁,h₁,hmoves₁⟩ : ∃ s' c f, slowWrites e read write
        ((e.objThrdMap (e.acts read).location).getD tid []).reverse (s,changed,future) =
          .ok (s',c,f) ∧ Turns e n bound (s,changed) (s',c) :=
      slowWrites_moves hread hwrite
        (fun w hw => mem_relevant_of_obj hread (List.mem_reverse.mp hw)) hb
    obtain ⟨s₂,c₂,f₂,h₂,hmoves₂⟩ := ih hmoves₁.bounded
    exact ⟨s₂,c₂,f₂,bind_eq_ok.mpr ⟨_,h₁,h₂⟩,hmoves₁.trans hmoves₂⟩

theorem processAnnotatedReadSlow_moves {s : SCAnalysis} (future : Bool)
    (hb : Bounded (relevant e e.actionTrace) n bound s) (hread : read ∈ e.actionTrace)
    (hwrite : write ∈ e.actionTrace) (hrf : (e.acts read).readsFrom = some write)
    (hsome : (s.cvmap read).isSome) :
    ∃ s' c f, processAnnotatedReadSlow e s read future = .ok (s',c,f) ∧
      Turns e n bound (s,false) (s',c) := by
  rw [processAnnotatedReadSlow,hrf]
  change ∃ s' c f, (if (e.before write read || !future) = true then _ else _) = _ ∧ _
  split
  · obtain ⟨s₁,b,hmerge,hmoves⟩ := merge_note (e := e) hb (mem_relevant hread) (mem_relevant hwrite)
      hsome (.inl hwrite)
    refine ⟨_,_,_,bind_eq_ok.mpr ⟨_,hmerge,rfl⟩,hmoves _ _ fun h => ?_⟩
    exact .inr ((Bool.and_eq_true _ _).mp h).1
  · exact ⟨s,false,future,rfl,.refl hb⟩

theorem processReadSlow_moves {s : SCAnalysis} (future : Bool)
    (hb : Bounded (relevant e e.actionTrace) n bound s) (hread : read ∈ e.actionTrace)
    (hwrite : write ∈ e.actionTrace) (hrf : (e.acts read).readsFrom = some write)
    (hsome : (s.cvmap read).isSome) :
    ∃ s' c f, processReadSlow e s read future = .ok (s',c,f) ∧
      Turns e n bound (s,false) (s',c) := by
  obtain ⟨s₁,c₁,f₁,h₁,hmoves₁⟩ := processAnnotatedReadSlow_moves future hb hread hwrite hrf hsome
  obtain ⟨s₂,c₂,f₂,h₂,hmoves₂⟩ : ∃ s' c f, slowThreads e read write
      (List.range (s.maxthreads + 1)) (s₁,c₁,f₁) = .ok (s',c,f) ∧ Turns e n bound (s₁,c₁) (s',c) :=
    slowThreads_moves hread hwrite _ hmoves₁.bounded
  refine ⟨s₂,c₂,f₂,?_,hmoves₁.trans hmoves₂⟩
  rw [processReadSlow,hrf]
  exact bind_eq_ok.mpr ⟨_,rfl,bind_eq_ok.mpr ⟨_,h₁,h₂⟩⟩

theorem processRead_moves (annotated : ActionId → Bool) {s : SCAnalysis} (future : Bool)
    (h : CompleteTrace e) (hb : Bounded (relevant e e.actionTrace) n bound s)
    (hmem : read ∈ e.actionTrace) (hread : (e.acts read).isRead = true)
    (hsome : (s.cvmap read).isSome) : ∃ s' c f,
      processRead e annotated s read future = .ok (s',c,f) ∧ Turns e n bound (s,false) (s',c) := by
  obtain ⟨-,write,hwrite,hrf⟩ := h.reads read hmem hread
  rw [processRead]
  split
  · obtain ⟨⟨s₁,c₁⟩,h₁,hmoves⟩ := processReadFast_moves hb hmem hwrite hrf hsome
    exact ⟨s₁,c₁,future,bind_eq_ok.mpr ⟨_,h₁,rfl⟩,hmoves⟩
  split
  · exact processAnnotatedReadSlow_moves future hb hmem hwrite hrf hsome
  · exact processReadSlow_moves future hb hmem hwrite hrf hsome

/-! ### Passes -/

/-- The bounds leave room for the clock vectors that a pass begins with. -/
def Roomy (e : Execution) (n bound : ℕ) : Prop := ∀ a ∈ e.actionTrace,
  Fits n bound (ClockVector.create (some (e.acts a).cv) (e.acts a).tid (e.acts a).seqNumber)

/-- The last actions of the threads are in reach. -/
def LastIn (e : Execution) (lastAct : ThreadId → Option ActionId) : Prop :=
  ∀ t a, lastAct t = some a → a ∈ relevant e e.actionTrace

theorem ensureCV_moves {s : SCAnalysis} {act : ActionId} (hroom : Roomy e n bound)
    (hb : Bounded (relevant e e.actionTrace) n bound s) (hact : act ∈ e.actionTrace) (c : Bool) :
    Turns e n bound (s,c) (ensureCV e s act,c) ∧ ((ensureCV e s act).cvmap act).isSome := by
  rw [ensureCV]
  split
  · rename_i hsome
    exact ⟨.refl hb,hsome⟩
  · rename_i hnone
    have hzero : ∀ u, s.clock act u = 0 := fun u => by
      rw [Option.not_isSome_iff_eq_none] at hnone
      rw [clock,hnone]
      rfl
    have hmoves : Turns e n bound (s,false) ({ s with
        cvmap := Function.update s.cvmap act
          (some (ClockVector.create (some (e.acts act).cv) (e.acts act).tid
            (e.acts act).seqNumber)) },false) := by
      refine Moves.of_cvmap hb (mem_relevant hact) (hroom act hact) rfl rfl (fun u => ?_) id
        (fun h h' => absurd (h.symm.trans h') Bool.noConfusion)
        fun _ h => absurd h Bool.false_ne_true
      rw [hzero]
      exact Nat.zero_le _
    exact ⟨hmoves.ignore id,by simp⟩

theorem mergeLast_moves {s : SCAnalysis} {act : ActionId} {lastact : Option ActionId}
    (hb : Bounded (relevant e e.actionTrace) n bound s) (hact : act ∈ e.actionTrace)
    (hlast : ∀ a, lastact = some a → a ∈ relevant e e.actionTrace) (hsome : (s.cvmap act).isSome)
    (c : Bool) : ∃ s', mergeLast e s act lastact = .ok s' ∧ Turns e n bound (s,c) (s',c) := by
  cases lastact with
  | none => exact ⟨s,rfl,.refl hb⟩
  | some lastact =>
    obtain ⟨s',b,hmerge,hmoves⟩ := merge_ignore (e := e) hb (mem_relevant hact)
      (hlast lastact rfl) hsome c
    exact ⟨s',bind_eq_ok.mpr ⟨_,hmerge,rfl⟩,hmoves⟩

theorem mergeFinish_moves {s : SCAnalysis} {act : ActionId} (h : CompleteTrace e)
    (hb : Bounded (relevant e e.actionTrace) n bound s) (hact : act ∈ e.actionTrace)
    (hsome : (s.cvmap act).isSome) (c : Bool) :
    ∃ r', mergeFinish e s act c = .ok r' ∧ Turns e n bound (s,c) r' := by
  rw [mergeFinish]
  cases hjoin : (e.acts act).getThreadOperand with
  | none => exact ⟨(s,c),rfl,.refl hb⟩
  | some u =>
    obtain ⟨finish,hmem,hfinish⟩ := h.finish hact hjoin
    obtain ⟨s',b,hmerge,hmoves⟩ := merge_note (e := e) hb (mem_relevant hact) (mem_relevant hmem)
      hsome (.inl hmem)
    refine ⟨(s',c || b),?_,hmoves _ _ fun hc => (Bool.or_eq_true _ _).mp hc⟩
    change (deref (e.getLastAction u) >>= _) = _
    rw [hfinish]
    exact bind_eq_ok.mpr ⟨_,rfl,bind_eq_ok.mpr ⟨_,hmerge,rfl⟩⟩

theorem passAct_moves (annotated : ActionId → Bool) (h : CompleteTrace e) (hroom : Roomy e n bound)
    {p : Pass} {act : ActionId} (hact : act ∈ e.actionTrace)
    (hb : Bounded (relevant e e.actionTrace) n bound p.s) (hlast : LastIn e p.lastAct) :
    ∃ p', passAct e annotated p act = .ok p' ∧
      Turns e n bound (p.s,p.changed) (p'.s,p'.changed) ∧ (p'.s.cvmap act).isSome ∧
      LastIn e p'.lastAct := by
  obtain ⟨hensure,hsome⟩ := ensureCV_moves (c := p.changed) hroom hb hact
  let lastact :=
    if (e.acts act).isThreadStart then e.threads[(e.acts act).tid]?.bind Thread.creation
    else p.lastAct (e.acts act).tid
  have hlastact : ∀ a, lastact = some a → a ∈ relevant e e.actionTrace := by
    intro a ha
    simp only [lastact] at ha
    split at ha
    · exact List.mem_append_right _ (List.mem_filterMap.mpr ⟨act,hact,ha⟩)
    · exact hlast _ a ha
  obtain ⟨s₁,h₁,hmoves₁⟩ := mergeLast_moves hensure.bounded hact hlastact hsome p.changed
  obtain ⟨⟨s₂,c₂⟩,h₂,hmoves₂⟩ := mergeFinish_moves h hmoves₁.bounded hact
    (hmoves₁.known act hsome) p.changed
  have hsome₂ := hmoves₂.known act (hmoves₁.known act hsome)
  have hmoves := (hensure.trans hmoves₁).trans hmoves₂
  have hlast' : LastIn e (Function.update p.lastAct (e.acts act).tid (some act)) := by
    intro t a ha
    by_cases ht : t = (e.acts act).tid
    · rw [ht,Function.update_self,Option.some.injEq] at ha
      exact ha ▸ mem_relevant hact
    · rw [Function.update_of_ne ht] at ha
      exact hlast t a ha
  have hpass : ∀ p', (if (e.acts act).isRead then do
        let read ← processRead e annotated s₂ act p.updateFuture
        pure (Pass.mk read.1 (Function.update p.lastAct (e.acts act).tid (some act))
          (c₂ || read.2.1)
          read.2.2)
      else pure (Pass.mk s₂ (Function.update p.lastAct (e.acts act).tid (some act)) c₂
        p.updateFuture)) = .ok p' → passAct e annotated p act = .ok p' := fun p' hp =>
    bind_eq_ok.mpr ⟨s₁,h₁,bind_eq_ok.mpr ⟨(s₂,c₂),h₂,hp⟩⟩
  cases hread : (e.acts act).isRead with
  | false =>
    rw [hread] at hpass
    exact ⟨_,hpass _ rfl,hmoves,hsome₂,hlast'⟩
  | true =>
    obtain ⟨s₃,c₃,f₃,h₃,hmoves₃⟩ := processRead_moves annotated p.updateFuture h hmoves₂.bounded
      hact
      hread hsome₂
    rw [hread] at hpass
    exact ⟨_,hpass _ (bind_eq_ok.mpr ⟨_,h₃,rfl⟩),hmoves.trans (hmoves₃.or c₂),
      hmoves₃.known act hsome₂,hlast'⟩

theorem pass_moves (annotated : ActionId → Bool) (h : CompleteTrace e) (hroom : Roomy e n bound)
    {list : List ActionId} (hlist : ∀ a ∈ list, a ∈ e.actionTrace) {p : Pass}
    (hb : Bounded (relevant e e.actionTrace) n bound p.s) (hlast : LastIn e p.lastAct) :
    ∃ p', list.foldlM (passAct e annotated) p = .ok p' ∧
      Turns e n bound (p.s,p.changed) (p'.s,p'.changed) ∧ (∀ a ∈ list, (p'.s.cvmap a).isSome) ∧
      LastIn e p'.lastAct := by
  induction list generalizing p with
  | nil => exact ⟨p,rfl,.refl hb,by simp,hlast⟩
  | cons act list ih =>
    obtain ⟨hact,hrest⟩ := List.forall_mem_cons.mp hlist
    obtain ⟨p₁,h₁,hmoves₁,hsome,hlast₁⟩ := passAct_moves annotated h hroom hact hb hlast
    obtain ⟨p₂,h₂,hmoves₂,hall,hlast₂⟩ := ih hrest hmoves₁.bounded hlast₁
    refine ⟨p₂,?_,hmoves₁.trans hmoves₂,?_,hlast₂⟩
    · rw [List.foldlM_cons]
      exact bind_eq_ok.mpr ⟨p₁,h₁,h₂⟩
    · exact List.forall_mem_cons.mpr ⟨hmoves₂.known act hsome,hall⟩

/-! ### The loop -/

/-- Room for the clocks, and the permission that is still to be given. -/
def fuel (e : Execution) (n bound : ℕ) (s : SCAnalysis) : ℕ :=
  2 * potential (relevant e e.actionTrace) n bound s + if s.allowNonSC then 0 else 1

theorem fuel_allow {s : SCAnalysis} : fuel e n bound { s with allowNonSC := true } =
    2 * potential (relevant e e.actionTrace) n bound s := by
  simp [fuel,potential,clock]

theorem computeLoop_succ {annotated : ActionId → Bool} {list : List ActionId} {k : ℕ} {first : Bool}
    {lastAct : ThreadId → Option ActionId} {s : SCAnalysis} {p : Pass}
    (hpass : list.foldlM (passAct e annotated) ⟨s,lastAct,first,false⟩ = .ok p) :
    computeLoop e annotated list (k + 1) first lastAct s =
      if p.changed then computeLoop e annotated list k false (fun _ => none) p.s
      else if p.s.fastVersion then .ok p.s
      else if !p.s.allowNonSC then
        computeLoop e annotated list k false p.lastAct { p.s with allowNonSC := true }
      else .ok p.s := by
  rw [computeLoop,hpass]
  rfl

theorem lastIn_none : LastIn e fun _ => none := by
  intro t a ha
  cases ha

/-- Every pass but the last takes fuel. -/
theorem computeLoop_ok (annotated : ActionId → Bool) (h : CompleteTrace e) (hroom : Roomy e n bound)
    (k : ℕ) {s : SCAnalysis} {lastAct : ThreadId → Option ActionId}
    (hfull : Full e.actionTrace s) (hb : Bounded (relevant e e.actionTrace) n bound s)
    (hlast : LastIn e lastAct) (hk : fuel e n bound s < k) :
    ∃ s', computeLoop e annotated e.actionTrace k false lastAct s = .ok s' := by
  induction k generalizing s lastAct with
  | zero => exact absurd hk (Nat.not_lt_zero _)
  | succ k ih =>
    obtain ⟨p,hpass,hmoves,hall,hlast'⟩ := pass_moves annotated h hroom (fun a ha => ha)
      (p := ⟨s,lastAct,false,false⟩) hb hlast
    have hle : potential (relevant e e.actionTrace) n bound p.s ≤ _ := hmoves.potential_le
    rw [computeLoop_succ hpass]
    split
    · -- a clock grew
      rename_i hchanged
      have hgrown := (hmoves.changed hfull hchanged).resolve_left Bool.false_ne_true
      have hlt := hmoves.potential_lt hgrown
      apply ih hall hmoves.bounded lastIn_none
      simp only [fuel] at hk hlt ⊢
      split <;> omega
    split
    · exact ⟨p.s,rfl⟩
    split
    · rename_i hallow
      have hrest : fuel e n bound { p.s with allowNonSC := true } < k := by
        rw [fuel_allow]
        cases hbefore : s.allowNonSC with
        | false =>
          simp only [fuel,hbefore,Bool.false_eq_true,↓reduceIte] at hk hle ⊢
          omega
        | true =>
          -- the permission was taken back by a merge
          have hlt := hmoves.potential_lt (hmoves.lost hbefore (by simpa using hallow))
          simp only [fuel,hbefore,↓reduceIte] at hk hlt ⊢
          omega
      exact ih hall hmoves.bounded hlast' hrest
    · exact ⟨p.s,rfl⟩

/-- The passes end whatever the clock vectors are at first, whichever reads are annotated. -/
theorem computeCV_terminates (h : CompleteTrace e) (annotated : ActionId → Bool) (s : SCAnalysis) :
    ∃ n s', computeCV e annotated n e.actionTrace s = .ok s' := by
  obtain ⟨n,bound,hfits⟩ := exists_fits
    ((relevant e e.actionTrace).filterMap s.cvmap ++ e.actionTrace.map fun a =>
      ClockVector.create (some (e.acts a).cv) (e.acts a).tid (e.acts a).seqNumber)
  have hroom : Roomy e n bound := fun a ha =>
    hfits _ (List.mem_append_right _ (List.mem_map.mpr ⟨a,ha,rfl⟩))
  have hb : Bounded (relevant e e.actionTrace) n bound s := fun a ha cv hcv =>
    hfits cv (List.mem_append_left _ (List.mem_filterMap.mpr ⟨a,ha,hcv⟩))
  -- all actions have clock vectors after the first pass
  obtain ⟨p,hpass,hmoves,hall,hlast⟩ := pass_moves annotated h hroom (fun a ha => ha)
    (p := ⟨s,fun _ => none,true,false⟩) hb lastIn_none
  let k := 2 * potential (relevant e e.actionTrace) n bound p.s + 2
  suffices hloop : ∃ s',
      computeLoop e annotated e.actionTrace (k + 1) true (fun _ => none) s = .ok s'
    from ⟨k + 1,hloop⟩
  rw [computeLoop_succ hpass]
  split
  · apply computeLoop_ok annotated h hroom k hall hmoves.bounded lastIn_none
    rw [fuel]
    split <;> omega
  split
  · exact ⟨p.s,rfl⟩
  split
  · have hrest : fuel e n bound { p.s with allowNonSC := true } < k := by
      rw [fuel_allow]
      omega
    exact computeLoop_ok annotated h hroom k hall hmoves.bounded hlast hrest
  · exact ⟨p.s,rfl⟩

end Reads

theorem computeCV_terminates_handedOver : ∃ c, Config.Reachable {} c ∧ ∀ annotated s,
    ∃ n s', computeCV c.exec annotated n c.exec.actionTrace s = .ok s' := by
  obtain ⟨c,hc,hcomplete,-⟩ := handedOver_complete
  exact ⟨c,hc,computeCV_terminates hcomplete⟩

end SCGenerator
end CdsChecker
