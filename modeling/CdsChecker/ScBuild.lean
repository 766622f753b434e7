import CdsChecker.ScFrame
import CdsChecker.ScOrder

/-! The lists of writes when the vectors are built, from any state. -/
namespace CdsChecker
namespace SCAnalysis

variable {e : Execution} {s s' : SCAnalysis} {act : ActionId}

/-- The writes of a thread to a location. -/
def writes (s : SCAnalysis) (l : Location) (t : ThreadId) : List ActionId :=
  ((s.writeMap l).getD t none).getD []

/-- What an action refers to is there: the write it reads from, the end of a thread it joins. -/
def Ready (e : Execution) (act : ActionId) : Prop :=
  ((e.acts act).isRead = true → ∃ w, (e.acts act).readsFrom = some w) ∧
    ∀ u, (e.acts act).getThreadOperand = some u → ∃ f, e.getLastAction u = some f

theorem merge_ok {act2 : ActionId} (h : (s.cvmap act).isSome) :
    ∃ r, s.merge e act act2 = .ok r := by
  obtain ⟨cv,hcv⟩ := Option.isSome_iff_exists.mp h
  unfold merge
  cases hcv2 : s.cvmap act2 with
  | none => exact ⟨_,rfl⟩
  | some cv2 =>
    simp only
    split
    · exact ⟨_,rfl⟩
    rw [hcv]
    change ∃ r, (if s.fastVersion = true then _ else _) = _
    split
    · exact ⟨_,rfl⟩
    split
    · exact ⟨_,rfl⟩
    split <;> exact ⟨_,rfl⟩

theorem ensureCV_known (e : Execution) (s : SCAnalysis) (act : ActionId) :
    ((s.ensureCV e act).cvmap act).isSome ∧
      ∀ a, (s.cvmap a).isSome → ((s.ensureCV e act).cvmap a).isSome := by
  unfold ensureCV
  split
  · rename_i hsome
    exact ⟨hsome,fun a ha => ha⟩
  · exact ⟨by simp,isSome_update s act _⟩

theorem growThreads_cvmap (s : SCAnalysis) (t : ThreadId) : (s.growThreads t).cvmap = s.cvmap := by
  unfold growThreads
  split <;> rfl

theorem addLast_cvmap (e : Execution) (s : SCAnalysis) (act : ActionId) :
    (s.addLast e act).cvmap = s.cvmap := by
  unfold addLast
  split <;> rfl

/-- The vectors of an action are built where it is ready and the lists have room. -/
theorem buildFast_ok (hready : Ready e act)
    (hne : (e.acts act).tid ≠ (s.writeMap (e.acts act).location).length) :
    ∃ s', buildFast e s act = .ok s' := by
  rw [← ensureCV_writeMap e s act,← growThreads_writeMap _ (e.acts act).tid] at hne
  obtain ⟨lists,hwrite⟩ := addWrite_ok hne
  let t : SCAnalysis := (s.ensureCV e act).growThreads (e.acts act).tid
  let u : SCAnalysis :=
    { t with writeMap := Function.update t.writeMap (e.acts act).location lists }
  have hknown : ((u.addLast e act).cvmap act).isSome := by
    rw [addLast_cvmap]
    change (t.cvmap act).isSome
    rw [growThreads_cvmap]
    exact (ensureCV_known e s act).1
  have hrf : ∃ v, (u.addLast e act).addRf e act = .ok v := by
    rw [addRf]
    split
    · rename_i hread
      obtain ⟨w,hw⟩ := hready.1 hread
      rw [hw]
      change ∃ v, (if (e.acts w).seqNumber ≠ 0 then _ else _) = _
      split
      · obtain ⟨r,hr⟩ : ∃ r, ((u.addLast e act).ensureCV e w).merge e act w = .ok r :=
          merge_ok ((ensureCV_known e (u.addLast e act) w).2 act hknown)
        exact ⟨_,bind_eq_ok.mpr ⟨r,hr,rfl⟩⟩
      · exact ⟨_,rfl⟩
    · exact ⟨_,rfl⟩
  obtain ⟨v,hv⟩ := hrf
  have hjoin : ∃ x, (v.addStart e act).addJoin e act = .ok x := by
    unfold addJoin
    split
    · exact ⟨_,rfl⟩
    · rename_i u hu
      obtain ⟨f,hf⟩ := hready.2 u hu
      exact ⟨_,bind_eq_ok.mpr ⟨f,deref_eq_ok.mpr hf,rfl⟩⟩
  obtain ⟨x,hx⟩ := hjoin
  exact ⟨_,bind_eq_ok.mpr ⟨_,hwrite,bind_eq_ok.mpr ⟨_,hv,bind_eq_ok.mpr ⟨_,hx,rfl⟩⟩⟩⟩

theorem buildFast_ready (h : buildFast e s act = .ok s') : Ready e act := by
  obtain ⟨t,-,h⟩ := bind_eq_ok.mp h
  obtain ⟨u,hrf,h⟩ := bind_eq_ok.mp h
  obtain ⟨v,hjoin,-⟩ := bind_eq_ok.mp h
  constructor
  · intro hread
    unfold addRf at hrf
    rw [if_pos hread] at hrf
    obtain ⟨w,hw,-⟩ := bind_eq_ok.mp hrf
    exact ⟨w,deref_eq_ok.mp hw⟩
  · intro t ht
    unfold addJoin at hjoin
    rw [ht] at hjoin
    obtain ⟨f,hf,-⟩ := bind_eq_ok.mp hjoin
    exact ⟨f,deref_eq_ok.mp hf⟩

/-- A vector that grows has nothing new in it. -/
theorem getD_grown {α : Type} (l : List (Option α)) (size i : ℕ) :
    (if l.length < size then resize l (size + 1) none else l).getD i none = l.getD i none := by
  split
  · rename_i hlt
    rw [resize,List.take_of_length_le (by omega),List.getD_eq_getElem?_getD,
      List.getD_eq_getElem?_getD]
    by_cases hi : i < l.length
    · rw [List.getElem?_append_left hi]
    · rw [List.getElem?_append_right (Nat.le_of_not_lt hi),List.getElem?_replicate,
        List.getElem?_eq_none (Nat.le_of_not_lt hi)]
      split <;> rfl
  · rfl

theorem addWrite_writes (h : s.addWrite e act = .ok s') (l : Location) (t : ThreadId) :
    s'.writes l t = s.writes l t ++
      if (e.acts act).location = l ∧ (e.acts act).tid = t ∧ (e.acts act).isWrite = true then [act]
      else [] := by
  obtain ⟨found,hfound,h⟩ := bind_eq_ok.mp h
  rw [deref_eq_ok] at hfound
  obtain rfl := Except.ok.inj h
  by_cases hl : (e.acts act).location = l
  · subst hl
    have hsame := getD_grown (s.writeMap (e.acts act).location) (e.acts act).tid
    have hlt := (List.getElem?_eq_some_iff.mp hfound).1
    have hold : found = (s.writeMap (e.acts act).location).getD (e.acts act).tid none := by
      rw [← hsame,List.getD_eq_getElem?_getD,hfound,Option.getD_some]
    simp only [writes,Function.update_self]
    rw [List.getD_eq_getElem?_getD,List.getElem?_set]
    by_cases ht : (e.acts act).tid = t
    · rw [if_pos ht,if_pos hlt,← ht,← hold]
      cases (e.acts act).isWrite <;> simp
    · rw [if_neg ht,← List.getD_eq_getElem?_getD,hsame]
      simp [ht]
  · simp [writes,Function.update_of_ne (Ne.symm hl),hl]

/-- The lists of writes grow by the action, if it is a write. -/
theorem buildFast_writes (h : buildFast e s act = .ok s') (l : Location) (t : ThreadId) :
    s'.writes l t = s.writes l t ++
      if (e.acts act).location = l ∧ (e.acts act).tid = t ∧ (e.acts act).isWrite = true then [act]
      else [] := by
  obtain ⟨s₁,hwrite,h⟩ := bind_eq_ok.mp h
  obtain ⟨s₂,hrf,h⟩ := bind_eq_ok.mp h
  obtain ⟨s₃,hjoin,h⟩ := bind_eq_ok.mp h
  cases h
  have hsame : (s₃.pushBack (e.acts act).tid act).writeMap = s₁.writeMap := by
    change s₃.writeMap = s₁.writeMap
    rw [addJoin_writeMap hjoin,addStart_writeMap,addRf_writeMap hrf,addLast_writeMap]
  have hlists := addWrite_writes hwrite l t
  have hbefore : ((s.ensureCV e act).growThreads (e.acts act).tid).writes l t = s.writes l t := by
    rw [writes,growThreads_writeMap,ensureCV_writeMap,writes]
  rw [← hbefore,← hlists,writes,hsame,writes]

/-- The writes of an action list to a location by a thread. -/
def writesIn (e : Execution) (acts : List ActionId) (l : Location) (t : ThreadId) : List ActionId :=
  acts.filter fun a => (e.acts a).location = l && (e.acts a).tid = t && (e.acts a).isWrite

theorem buildVectors_writes {acts : List ActionId} (h : acts.foldlM (buildFast e) s = .ok s')
    (l : Location) (t : ThreadId) : s'.writes l t = s.writes l t ++ writesIn e acts l t := by
  induction acts generalizing s with
  | nil =>
    cases h
    simp [writesIn]
  | cons act acts ih =>
    rw [List.foldlM_cons] at h
    obtain ⟨s₁,hact,h⟩ := bind_eq_ok.mp h
    rw [ih h,buildFast_writes hact,List.append_assoc,writesIn,writesIn,List.filter_cons]
    simp only [Bool.and_eq_true,decide_eq_true_eq,and_assoc]
    split <;> rfl

/-! ### Lists that were built -/

/-- What building the vectors of a list leaves behind, and only another location's or another
list's building changes. -/
structure Settled (e : Execution) (acts : List ActionId) (s : SCAnalysis) : Prop where
  ready : ∀ a ∈ acts, Ready e a
  room : ∀ a ∈ acts, (e.acts a).tid < (s.writeMap (e.acts a).location).length
  written : ∀ a ∈ acts, (e.acts a).isWrite = true →
    a ∈ s.writes (e.acts a).location (e.acts a).tid

/-- The threads' lists hold actions of the list. -/
def HoldsOnly (acts : List ActionId) (s : SCAnalysis) : Prop :=
  ∀ l ∈ s.threadlists, ∀ a ∈ l, a ∈ acts

theorem Settled.of_writeMap {acts : List ActionId} (h : Settled e acts s)
    (hsame : s'.writeMap = s.writeMap) : Settled e acts s' := by
  refine ⟨h.ready,?_,?_⟩
  · rw [hsame]
    exact h.room
  · intro a ha hwrite
    rw [writes,hsame]
    exact h.written a ha hwrite

theorem HoldsOnly.of_threadlists {acts : List ActionId} (h : HoldsOnly acts s)
    (hsame : s'.threadlists = s.threadlists) : HoldsOnly acts s' := by
  rw [HoldsOnly,hsame]
  exact h

/-- An action leaves its thread. -/
theorem HoldsOnly.take {acts : List ActionId} (h : HoldsOnly acts s) (t : ThreadId) :
    HoldsOnly acts { s with threadlists := s.threadlists.modify t List.tail } := by
  intro l hl a ha
  obtain ⟨i,hi⟩ := List.mem_iff_getElem?.mp hl
  rw [List.getElem?_modify] at hi
  cases hold : s.threadlists[i]? with
  | none => simp [hold] at hi
  | some old =>
    apply h old (List.mem_of_getElem? hold)
    rw [hold] at hi
    simp only [Option.map_eq_map,Option.map_some,Option.some.injEq] at hi
    subst hi
    split at ha
    · exact List.mem_of_mem_tail ha
    · exact ha

theorem HoldsOnly.reset {acts : List ActionId} (h : HoldsOnly acts s) :
    HoldsOnly acts (reset acts s) := by
  intro l hl a ha
  obtain ⟨i,hi⟩ := List.mem_iff_getElem?.mp hl
  rw [SCAnalysis.reset,List.getElem?_mapIdx] at hi
  cases hold : s.threadlists[i]? with
  | none => simp [hold] at hi
  | some old =>
    rw [hold,Option.map_some,Option.some.injEq] at hi
    subst hi
    split at ha
    · cases ha
    · exact h old (List.mem_of_getElem? hold) a ha

/-- The edges of an action change neither the threads' lists nor the mode. -/
structure SameThreads (s s' : SCAnalysis) : Prop where
  threadlists : s'.threadlists = s.threadlists
  maxthreads : s'.maxthreads = s.maxthreads
  fastVersion : s'.fastVersion = s.fastVersion

theorem Frame.sameThreads (h : Frame s s') : SameThreads s s' :=
    ⟨h.threadlists,h.maxthreads,h.fastVersion⟩

theorem addWrite_sameThreads (h : s.addWrite e act = .ok s') : SameThreads s s' := by
  obtain ⟨found,-,h⟩ := bind_eq_ok.mp h
  cases h
  exact ⟨rfl,rfl,rfl⟩

theorem addLast_sameThreads (e : Execution) (s : SCAnalysis) (act : ActionId) :
    SameThreads s (s.addLast e act) := by
  unfold addLast
  split <;> exact ⟨rfl,rfl,rfl⟩

theorem ensureCV_sameThreads (e : Execution) (s : SCAnalysis) (act : ActionId) :
    SameThreads s (s.ensureCV e act) := by
  unfold ensureCV
  split <;> exact ⟨rfl,rfl,rfl⟩

theorem addRf_sameThreads (h : s.addRf e act = .ok s') : SameThreads s s' := by
  unfold addRf at h
  split at h
  · obtain ⟨write,-,h⟩ := bind_eq_ok.mp h
    split at h
    · obtain ⟨⟨t,_⟩,ht,h⟩ := bind_eq_ok.mp h
      cases h
      have hensure := ensureCV_sameThreads e s write
      have hmerge := (merge_frame ht).sameThreads
      exact ⟨hmerge.threadlists.trans hensure.threadlists,
        hmerge.maxthreads.trans hensure.maxthreads,hmerge.fastVersion.trans hensure.fastVersion⟩
    · cases h
      exact ⟨rfl,rfl,rfl⟩
  · cases h
    exact ⟨rfl,rfl,rfl⟩

theorem addStart_sameThreads (e : Execution) (s : SCAnalysis) (act : ActionId) :
    SameThreads s (s.addStart e act) := by
  unfold addStart
  split
  · split <;> exact ⟨rfl,rfl,rfl⟩
  · exact ⟨rfl,rfl,rfl⟩

theorem addJoin_sameThreads (h : s.addJoin e act = .ok s') : SameThreads s s' := by
  unfold addJoin at h
  split at h
  · cases h
    exact ⟨rfl,rfl,rfl⟩
  · obtain ⟨finish,-,h⟩ := bind_eq_ok.mp h
    cases h
    exact ⟨rfl,rfl,rfl⟩

/-- An action joins its thread's list. -/
theorem buildFast_threads (h : buildFast e s act = .ok s') :
    s'.fastVersion = s.fastVersion ∧
    s'.maxthreads = (s.growThreads (e.acts act).tid).maxthreads ∧
    s'.threadlists =
      (s.growThreads (e.acts act).tid).threadlists.modify (e.acts act).tid fun l => l ++ [act] := by
  obtain ⟨s₁,hwrite,h⟩ := bind_eq_ok.mp h
  obtain ⟨s₂,hrf,h⟩ := bind_eq_ok.mp h
  obtain ⟨s₃,hjoin,h⟩ := bind_eq_ok.mp h
  cases h
  have hensure := ensureCV_sameThreads e s act
  have h₁ := addWrite_sameThreads hwrite
  have h₂ := addLast_sameThreads e s₁ act
  have h₃ := addRf_sameThreads hrf
  have h₄ := addStart_sameThreads e s₂ act
  have h₅ := addJoin_sameThreads hjoin
  have hgrow : ((s.ensureCV e act).growThreads (e.acts act).tid).threadlists =
      (s.growThreads (e.acts act).tid).threadlists := by
    unfold ensureCV growThreads
    split <;> split <;> rfl
  have hmax : ((s.ensureCV e act).growThreads (e.acts act).tid).maxthreads =
      (s.growThreads (e.acts act).tid).maxthreads := by
    unfold ensureCV growThreads
    split <;> split <;> rfl
  have hmode : ((s.ensureCV e act).growThreads (e.acts act).tid).fastVersion = s.fastVersion := by
    rw [← hensure.fastVersion]
    unfold growThreads
    split <;> rfl
  refine ⟨?_,?_,?_⟩
  · exact h₅.fastVersion.trans (h₄.fastVersion.trans (h₃.fastVersion.trans
      (h₂.fastVersion.trans (h₁.fastVersion.trans hmode))))
  · exact h₅.maxthreads.trans (h₄.maxthreads.trans (h₃.maxthreads.trans
      (h₂.maxthreads.trans (h₁.maxthreads.trans hmax))))
  · rw [← hgrow]
    change s₃.threadlists.modify _ _ = _
    rw [h₅.threadlists,h₄.threadlists,h₃.threadlists,h₂.threadlists,h₁.threadlists]

/-- There is a list for each thread. -/
def ListsThreads (s : SCAnalysis) : Prop := s.maxthreads < s.threadlists.length

theorem ListsThreads.growThreads (h : ListsThreads s) (t : ThreadId) :
    ListsThreads (s.growThreads t) ∧ t < (s.growThreads t).threadlists.length := by
  rw [ListsThreads] at h ⊢
  unfold SCAnalysis.growThreads
  split
  · dsimp only
    rw [length_resize]
    exact ⟨Nat.lt_succ_self t,Nat.lt_succ_self t⟩
  · rename_i hge
    exact ⟨h,Nat.lt_of_le_of_lt (Nat.le_of_not_lt hge) h⟩

theorem ListsThreads.buildFast (h : ListsThreads s) (hbuild : buildFast e s act = .ok s') :
    ListsThreads s' := by
  obtain ⟨-,hmax,hlists⟩ := buildFast_threads hbuild
  rw [ListsThreads,hmax,hlists,List.length_modify]
  exact (h.growThreads _).1

theorem ListsThreads.buildVectors (h : ListsThreads s) {part : List ActionId}
    (hbuild : part.foldlM (SCAnalysis.buildFast e) s = .ok s') : ListsThreads s' := by
  induction part generalizing s with
  | nil =>
    cases hbuild
    exact h
  | cons act part ih =>
    rw [List.foldlM_cons] at hbuild
    obtain ⟨s₁,h₁,hbuild⟩ := bind_eq_ok.mp hbuild
    exact ih (h.buildFast h₁) hbuild

theorem mem_resize {l : List (List ActionId)} {size : ℕ} {x : List ActionId} {a : ActionId}
    (hx : x ∈ resize l size []) (ha : a ∈ x) : x ∈ l := by
  rw [resize,List.mem_append] at hx
  rcases hx with hx | hx
  · exact List.mem_of_mem_take hx
  · rw [List.eq_of_mem_replicate hx] at ha
    cases ha

theorem HoldsOnly.growThreads {acts : List ActionId} (h : HoldsOnly acts s) (t : ThreadId) :
    HoldsOnly acts (s.growThreads t) := by
  unfold SCAnalysis.growThreads
  split
  · exact fun l hl a ha => h l (mem_resize hl ha) a ha
  · exact h

theorem HoldsOnly.push {acts : List ActionId} (h : HoldsOnly acts s) (hact : act ∈ acts)
    (t : ThreadId) : HoldsOnly acts (s.pushBack t act) := by
  intro l hl a ha
  obtain ⟨i,hi⟩ := List.mem_iff_getElem?.mp hl
  rw [pushBack,List.getElem?_modify] at hi
  cases hold : s.threadlists[i]? with
  | none => simp [hold] at hi
  | some old =>
    have hmem := h old (List.mem_of_getElem? hold)
    rw [hold] at hi
    simp only [Option.map_eq_map,Option.map_some,Option.some.injEq] at hi
    subst hi
    split at ha
    · rcases List.mem_append.mp ha with ha | ha
      · exact hmem a ha
      · rwa [List.mem_singleton.mp ha]
    · exact hmem a ha

theorem HoldsOnly.buildFast {acts : List ActionId} (h : HoldsOnly acts s) (hact : act ∈ acts)
    (hbuild : buildFast e s act = .ok s') : HoldsOnly acts s' := by
  have hpush := (h.growThreads (e.acts act).tid).push hact (e.acts act).tid
  exact hpush.of_threadlists (buildFast_threads hbuild).2.2

theorem buildVectors_holdsOnly {acts : List ActionId} (h : HoldsOnly acts s) {part : List ActionId}
    (hpart : ∀ a ∈ part, a ∈ acts) (hbuild : part.foldlM (buildFast e) s = .ok s') :
    HoldsOnly acts s' ∧ s'.fastVersion = s.fastVersion := by
  induction part generalizing s with
  | nil =>
    cases hbuild
    exact ⟨h,rfl⟩
  | cons act part ih =>
    obtain ⟨hact,hrest⟩ := List.forall_mem_cons.mp hpart
    rw [List.foldlM_cons] at hbuild
    obtain ⟨s₁,h₁,hbuild⟩ := bind_eq_ok.mp hbuild
    obtain ⟨hholds,hfast⟩ := ih (h.buildFast hact h₁) hrest hbuild
    exact ⟨hholds,hfast.trans (buildFast_threads h₁).1⟩

/-- The lists of writes never get shorter. -/
theorem buildVectors_length {part : List ActionId} (hbuild : part.foldlM (buildFast e) s = .ok s') :
    (∀ l, (s.writeMap l).length ≤ (s'.writeMap l).length) ∧
      ∀ a ∈ part, Ready e a ∧ (e.acts a).tid < (s'.writeMap (e.acts a).location).length := by
  induction part generalizing s with
  | nil =>
    cases hbuild
    exact ⟨fun _ => le_rfl,by simp⟩
  | cons act part ih =>
    rw [List.foldlM_cons] at hbuild
    obtain ⟨s₁,h₁,hbuild⟩ := bind_eq_ok.mp hbuild
    obtain ⟨hmono,hall⟩ := ih hbuild
    have hlen := (buildFast_length h₁).2
    constructor
    · intro l
      refine le_trans ?_ (hmono l)
      rw [hlen l]
      split
      · exact le_max_left _ _
      · exact le_rfl
    · refine List.forall_mem_cons.mpr ⟨⟨buildFast_ready h₁,?_⟩,hall⟩
      refine Nat.lt_of_lt_of_le ?_ (hmono _)
      rw [hlen,if_pos rfl]
      exact Nat.lt_of_lt_of_le (Nat.lt_succ_self _) (le_max_right _ _)

theorem build_settled {acts : List ActionId} (hbuild : acts.foldlM (buildFast e) s = .ok s') :
    Settled e acts s' := by
  have hlen := (buildVectors_length hbuild).2
  refine ⟨fun a ha => (hlen a ha).1,fun a ha => (hlen a ha).2,fun a ha hwrite => ?_⟩
  rw [buildVectors_writes hbuild]
  apply List.mem_append_right
  rw [writesIn,List.mem_filter]
  exact ⟨ha,by simp [hwrite]⟩

/-- A list whose vectors were built can be built again. -/
theorem Settled.rebuild {acts : List ActionId} (h : Settled e acts s) {part : List ActionId}
    (hpart : ∀ a ∈ part, a ∈ acts) : ∃ s', part.foldlM (buildFast e) s = .ok s' := by
  induction part generalizing s with
  | nil => exact ⟨s,rfl⟩
  | cons act part ih =>
    obtain ⟨hact,hrest⟩ := List.forall_mem_cons.mp hpart
    obtain ⟨s₁,h₁⟩ := buildFast_ok (h.ready act hact) (Nat.ne_of_lt (h.room act hact))
    have hsettled : Settled e acts s₁ := by
      refine ⟨h.ready,fun a ha => ?_,fun a ha hwrite => ?_⟩
      · refine Nat.lt_of_lt_of_le (h.room a ha) ?_
        rw [(buildFast_length h₁).2]
        split
        · exact le_max_left _ _
        · exact le_rfl
      · rw [buildFast_writes h₁]
        exact List.mem_append_left _ (h.written a ha hwrite)
    obtain ⟨s',h'⟩ := ih hsettled hrest
    refine ⟨s',?_⟩
    rw [List.foldlM_cons]
    exact bind_eq_ok.mpr ⟨s₁,h₁,h'⟩

end SCAnalysis
end CdsChecker
