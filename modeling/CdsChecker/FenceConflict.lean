import CdsChecker.FenceRecord
import CdsChecker.Library.Latest

/-! The fences that a store can conflict with: a load before an acquire fence of another thread
may read from the store once the two are explored in the other order. -/
namespace CdsChecker

/-- What the backward scan keeps for each thread: its last acquire fence and its first load. -/
structure FenceScan where
  acquireFences : List (Option ActionId)
  priorLoads : List (Option ActionId)
  foundAcquireFences : Bool

namespace Execution

def isOtherFence (e : Execution) (act a : ActionId) : Bool :=
  !(e.acts act).sameThread (e.acts a) && ((e.acts a).isAcquire && (e.acts a).isFence)

def isOtherLoad (e : Execution) (act a : ActionId) : Bool :=
  !(e.acts act).sameThread (e.acts a) && ((e.acts a).isRead && (e.acts act).sameVar (e.acts a))

/-- One action of the scan; `none` where the function returns `NULL`. -/
def scanAction (e : Execution) (act prev : ActionId) (s : FenceScan) : Option FenceScan :=
  if (e.acts act).sameThread (e.acts prev) then some s
  else
    let tid := (e.acts prev).tid
    let isLoad := (e.acts prev).isRead && (e.acts act).sameVar (e.acts prev)
    if isLoad && (e.acts prev).isAcquire && !s.foundAcquireFences then none
    else
      let s :=
        if isLoad && !(e.acts prev).isAcquire then
          { s with priorLoads := s.priorLoads.set tid (some prev) }
        else s
      some
        (if (e.acts prev).isAcquire && (e.acts prev).isFence &&
        s.acquireFences[tid]?.join.isNone then
          { s with
            acquireFences := s.acquireFences.set tid (some prev)
            foundAcquireFences := true }
        else s)

def scanTrace (e : Execution) (act : ActionId) : List ActionId → FenceScan → Option FenceScan
  | [],s => some s
  | prev :: rest,s => (e.scanAction act prev s).bind (e.scanTrace act rest)

def latestBacktrack (e : Execution) :
    List (Option ActionId × Option ActionId) → Option ActionId → Option ActionId
  | [],latest => latest
  | (some fence,some _) :: rest,latest =>
    e.latestBacktrack rest (if latest.all (e.before · fence) then some fence else latest)
  | _ :: rest,latest => e.latestBacktrack rest latest

/-- `get_last_fence_conflict`. -/
def getLastFenceConflict (e : Execution) (act : ActionId) : Result (Option ActionId) :=
  if !(e.acts act).isWrite then .ok none
  else
    match (if (e.acts act).isRelease then some act else e.getLastFenceRelease (e.acts act).tid) with
    | none => .ok none
    | some lastRelease => do
      let list := e.actionTrace.reverse.dropWhile fun a => a ≠ lastRelease
      assert (!list.isEmpty)
      let empty : List (Option ActionId) := List.replicate e.getNumThreads none
      match e.scanTrace act list ⟨empty,empty,false⟩ with
      | none => pure none
      | some s => pure (e.latestBacktrack (s.acquireFences.zip s.priorLoads) none)

/-! ### The scan -/

/-- What has been found in the actions that are passed, from the newest on. -/
structure Found (e : Execution) (act : ActionId) (passed : List ActionId) (s : FenceScan) :
    Prop where
  fences : ∀ t, s.acquireFences[t]?.join =
    passed.find? fun a => (e.acts a).tid == t && e.isOtherFence act a
  loads : ∀ t, s.priorLoads[t]?.join.isSome = passed.any fun a =>
    (e.acts a).tid == t && (e.isOtherLoad act a && !(e.acts a).isAcquire)
  found : s.foundAcquireFences = passed.any (e.isOtherFence act)
  sizes : s.acquireFences.length = e.getNumThreads ∧ s.priorLoads.length = e.getNumThreads

variable {e : Execution} {act : ActionId}

theorem found_nil : e.Found act []
    ⟨List.replicate e.getNumThreads none,List.replicate e.getNumThreads none,false⟩ where
  fences t := by
    rw [List.getElem?_replicate]
    split <;> rfl
  loads t := by
    rw [List.getElem?_replicate]
    split <;> rfl
  found := rfl
  sizes := ⟨List.length_replicate,List.length_replicate⟩

theorem getElem?_set_join {l : List (Option ActionId)} {i : ℕ} (hi : i < l.length) (a : ActionId)
    (t : ℕ) : (l.set i (some a))[t]?.join = if t = i then some a else l[t]?.join := by
  by_cases ht : t = i
  · subst ht
    rw [if_pos rfl,List.getElem?_set_self hi]
    rfl
  · rw [if_neg ht,List.getElem?_set_ne (Ne.symm ht)]

/-- An action of the store's own thread. -/
theorem Found.own {passed : List ActionId} {s : FenceScan} (h : e.Found act passed s)
    {prev : ActionId} (hsame : (e.acts act).sameThread (e.acts prev) = true) :
    e.Found act (passed ++ [prev]) s where
  fences t := by
    rw [h.fences t,List.find?_append,List.find?_singleton]
    simp [isOtherFence,hsame]
  loads t := by
    rw [h.loads t,List.any_append,List.any_cons,List.any_nil]
    simp [isOtherLoad,hsame]
  found := by
    rw [h.found,List.any_append,List.any_cons,List.any_nil]
    simp [isOtherFence,hsame]
  sizes := h.sizes

theorem Found.action {passed : List ActionId} {s : FenceScan} (h : e.Found act passed s)
    {prev : ActionId} (hthread : (e.acts prev).tid < e.getNumThreads)
    (hcover : (e.isOtherLoad act prev && (e.acts prev).isAcquire) = true →
      ∃ f ∈ passed, e.isOtherFence act f = true) :
    ∃ s', e.scanAction act prev s = some s' ∧ e.Found act (passed ++ [prev]) s' := by
  unfold scanAction
  by_cases hsame : (e.acts act).sameThread (e.acts prev) = true
  · rw [if_pos hsame]
    exact ⟨s,rfl,h.own hsame⟩
  rw [if_neg hsame]
  dsimp only
  set isLoad := (e.acts prev).isRead && (e.acts act).sameVar (e.acts prev) with hisLoad
  have hload : e.isOtherLoad act prev = isLoad := by simp [isOtherLoad,hsame,hisLoad]
  have hfence : e.isOtherFence act prev = ((e.acts prev).isAcquire && (e.acts prev).isFence) := by
    simp [isOtherFence,hsame]
  have hgo : ¬ (isLoad && (e.acts prev).isAcquire && !s.foundAcquireFences) = true := by
    intro hstop
    obtain ⟨hacq,hnone⟩ := Bool.and_eq_true_iff.mp hstop
    obtain ⟨f,hf,hisFence⟩ := hcover (by rw [hload]; exact hacq)
    rw [h.found,List.any_eq_true.mpr ⟨f,hf,hisFence⟩] at hnone
    cases hnone
  rw [if_neg hgo]
  refine ⟨_,rfl,?_⟩
  -- the loads first: they do not change what is known of the fences
  set s₁ : FenceScan := if (isLoad && !(e.acts prev).isAcquire) = true then
      { s with priorLoads := s.priorLoads.set (e.acts prev).tid (some prev) }
    else s with hs₁
  have hkeep : s₁.acquireFences = s.acquireFences ∧ s₁.foundAcquireFences = s.foundAcquireFences ∧
      s₁.priorLoads.length = s.priorLoads.length := by
    rw [hs₁]
    split
    · exact ⟨rfl,rfl,List.length_set⟩
    · exact ⟨rfl,rfl,rfl⟩
  have hloads : ∀ t, s₁.priorLoads[t]?.join.isSome = (passed ++ [prev]).any fun a =>
      (e.acts a).tid == t && (e.isOtherLoad act a && !(e.acts a).isAcquire) := by
    intro t
    rw [List.any_append,← h.loads t,List.any_cons,List.any_nil,Bool.or_false,hload,hs₁]
    split
    · rename_i hnew
      rw [getElem?_set_join (h.sizes.2 ▸ hthread),hnew,Bool.and_true]
      by_cases ht : t = (e.acts prev).tid
      · simp [ht]
      · simp [ht,Ne.symm ht]
    · rename_i hold
      simp [Bool.not_eq_true _ ▸ hold]
  have hfences : ∀ t, s.acquireFences[t]?.join = passed.find? fun a =>
    (e.acts a).tid == t && e.isOtherFence act a := h.fences
  split
  · rename_i hnew
    rw [Bool.and_eq_true,← hfence,hkeep.1,Option.isNone_iff_eq_none,h.fences] at hnew
    refine ⟨fun t => ?_,hloads,?_,?_⟩
    · change (s₁.acquireFences.set _ _)[t]?.join = _
      rw [hkeep.1,getElem?_set_join (h.sizes.1 ▸ hthread),List.find?_append,List.find?_singleton,
        ← h.fences t]
      by_cases ht : t = (e.acts prev).tid
      · rw [if_pos ht,h.fences t,ht,hnew.2]
        simp [hnew.1]
      · rw [if_neg ht]
        simp [Ne.symm ht]
    · rw [List.any_append,List.any_cons,hnew.1]
      simp
    · refine ⟨?_,hkeep.2.2.trans h.sizes.2⟩
      rw [List.length_set,hkeep.1]
      exact h.sizes.1
  · rename_i hold
    rw [Bool.and_eq_true,← hfence,hkeep.1,Option.isNone_iff_eq_none,h.fences] at hold
    -- the last fence of the thread is known already
    have hknown : e.isOtherFence act prev = true →
        ∃ f, passed.find? (fun a => (e.acts a).tid == (e.acts prev).tid && e.isOtherFence act a) =
          some f := fun hisFence =>
      Option.ne_none_iff_exists'.mp fun hnone => hold ⟨hisFence,hnone⟩
    refine ⟨fun t => ?_,hloads,?_,?_⟩
    · rw [hkeep.1,h.fences t,List.find?_append,List.find?_singleton]
      split
      · rename_i hmatch
        obtain ⟨ht,hisFence⟩ := Bool.and_eq_true_iff.mp hmatch
        obtain ⟨f,hf⟩ := hknown hisFence
        rw [beq_iff_eq.mp ht] at hf
        rw [hf]
        rfl
      · rw [Option.or_none]
    · rw [hkeep.2.1,h.found,List.any_append,List.any_cons,List.any_nil,Bool.or_false]
      cases hisFence : e.isOtherFence act prev with
      | false => rw [Bool.or_false]
      | true =>
        obtain ⟨f,hf⟩ := hknown hisFence
        have hmem := List.mem_of_find?_eq_some hf
        have hprop := List.find?_some hf
        rw [List.any_eq_true.mpr ⟨f,hmem,(Bool.and_eq_true_iff.mp hprop).2⟩]
        rfl
    · rw [hkeep.1]
      exact ⟨h.sizes.1,hkeep.2.2.trans h.sizes.2⟩

/-- Each acquire load has a fence of another thread before it in the list. -/
theorem Found.trace {passed list : List ActionId} {s : FenceScan} (h : e.Found act passed s)
    (hthreads : ∀ a ∈ list, (e.acts a).tid < e.getNumThreads)
    (hcover : ∀ pre a post, list = pre ++ a :: post →
      (e.isOtherLoad act a && (e.acts a).isAcquire) = true →
        ∃ f ∈ passed ++ pre, e.isOtherFence act f = true) :
    ∃ s', e.scanTrace act list s = some s' ∧ e.Found act (passed ++ list) s' := by
  induction list generalizing passed s with
  | nil => exact ⟨s,rfl,(List.append_nil passed).symm ▸ h⟩
  | cons prev rest ih =>
    obtain ⟨s₁,hs₁,h₁⟩ := h.action (hthreads prev List.mem_cons_self) fun hload => by
      simpa using hcover [] prev rest rfl hload
    obtain ⟨s₂,hs₂,h₂⟩ := ih h₁ (fun a ha => hthreads a (List.mem_cons_of_mem _ ha))
      fun pre a post hsplit hload => by
        simpa using hcover (prev :: pre) a post (by rw [hsplit]; rfl) hload
    refine ⟨s₂,?_,?_⟩
    · rw [scanTrace,hs₁]
      exact hs₂
    · simpa using h₂

/-! ### The latest fence -/

theorem latestBacktrack_isLatest {pairs : List (Option ActionId × Option ActionId)}
    {p : ActionId → Prop} {latest : Option ActionId}
    (h : IsLatest (fun a => (e.acts a).seqNumber) p latest) :
    IsLatest (fun a => (e.acts a).seqNumber) (fun f => p f ∨ ∃ l, (some f,some l) ∈ pairs)
      (e.latestBacktrack pairs latest) := by
  induction pairs generalizing p latest with
  | nil => exact h.congr fun f => by simp
  | cons pair rest ih =>
    rcases pair with ⟨_ | f,_ | l⟩
    · exact (ih h).congr fun g => by simp
    · exact (ih h).congr fun g => by simp
    · exact (ih h).congr fun g => by simp
    · refine (ih (h.later f)).congr fun g => ?_
      simp only [List.mem_cons,Prod.mk.injEq,Option.some.injEq,or_assoc]
      refine or_congr_right ⟨?_,?_⟩
      · rintro (rfl | ⟨l',hl'⟩)
        · exact ⟨l,.inl ⟨rfl,rfl⟩⟩
        · exact ⟨l',.inr hl'⟩
      · rintro ⟨l',⟨rfl,-⟩ | hl'⟩
        · exact .inl rfl
        · exact .inr ⟨l',hl'⟩

/-! ### The trace before the release -/

/-- The release of a store: itself, or the last release fence of its thread. -/
def ReleaseOf (e : Execution) (act r : ActionId) : Prop :=
  if (e.acts act).isRelease = true then r = act
  else r ∈ e.actionTrace ∧ e.isReleaseFence (e.acts act).tid r = true ∧
    ∀ g ∈ e.actionTrace, e.isReleaseFence (e.acts act).tid g = true →
      (e.acts g).seqNumber ≤ (e.acts r).seqNumber

/-- An acquire fence of another thread before the release. -/
structure FenceBefore (e : Execution) (act r f : ActionId) : Prop where
  mem : f ∈ e.actionTrace
  fence : e.isOtherFence act f = true
  before : (e.acts f).seqNumber < (e.acts r).seqNumber

/-- A load of the store's location by another thread, before an action. -/
structure LoadBefore (e : Execution) (act a l : ActionId) : Prop where
  mem : l ∈ e.actionTrace
  load : e.isOtherLoad act l = true
  before : (e.acts l).seqNumber < (e.acts a).seqNumber

/-- A load that is not an acquire, of the thread of a fence. -/
def PriorLoad (e : Execution) (act a f l : ActionId) : Prop :=
  e.LoadBefore act a l ∧ (e.acts l).isAcquire = false ∧ (e.acts l).tid = (e.acts f).tid

/-- The load is sequenced before the fence. -/
def Conflicting (e : Execution) (act r f : ActionId) : Prop :=
  e.FenceBefore act r f ∧ ∃ l, e.PriorLoad act f f l

/-- All loads of the fence's thread come after the fence. -/
structure OnlyAfter (e : Execution) (act r f : ActionId) : Prop where
  fence : e.FenceBefore act r f
  load : ∃ l, e.PriorLoad act r f l
  after : ¬∃ l, e.PriorLoad act f f l

/-- No acquire load lies between the last acquire fence before the release and the release. -/
def NoAcquireLoad (e : Execution) (act r : ActionId) : Prop :=
  ∀ l, e.LoadBefore act r l → (e.acts l).isAcquire = true →
    ∃ f, e.FenceBefore act r f ∧ (e.acts l).seqNumber < (e.acts f).seqNumber

theorem Fenced.fence_user (hf : e.Fenced) {a : ActionId} (ha : a ∈ e.actionTrace)
    (hfence : e.isOtherFence act a = true) : (e.acts a).tid ≠ 0 := by
  intro htid
  simp [isOtherFence,ModelAction.isFence,(hf.uninit a ha htid).1] at hfence

theorem Fenced.load_user (hf : e.Fenced) {a : ActionId} (ha : a ∈ e.actionTrace)
    (hload : e.isOtherLoad act a = true) : (e.acts a).tid ≠ 0 := by
  intro htid
  simp [isOtherLoad,ModelAction.isRead,(hf.uninit a ha htid).1] at hload

/-- The release is an action of the store's thread. -/
theorem ReleaseOf.spec (hf : e.Fenced) {r : ActionId} (h : e.ReleaseOf act r)
    (hact : act ∈ e.actionTrace) :
    r ∈ e.actionTrace ∧ (e.acts r).tid = (e.acts act).tid ∧ (e.acts r).tid ≠ 0 := by
  unfold ReleaseOf at h
  split at h
  · rename_i hrelease
    subst h
    refine ⟨hact,rfl,fun htid => ?_⟩
    simp [ModelAction.isRelease,(hf.uninit r hact htid).2] at hrelease
  · obtain ⟨hmem,hfence,-⟩ := h
    obtain ⟨htid,hisFence⟩ := Bool.and_eq_true_iff.mp hfence
    refine ⟨hmem,beq_iff_eq.mp htid,fun hzero => ?_⟩
    simp [ModelAction.isFence,(hf.uninit r hmem hzero).1] at hisFence

/-- The function finds the release. -/
theorem ReleaseOf.eq (hr : e.Recorded) (hf : e.Fenced) {r : ActionId} (h : e.ReleaseOf act r)
    (hact : act ∈ e.actionTrace) :
    (if (e.acts act).isRelease then some act else e.getLastFenceRelease (e.acts act).tid) =
      some r := by
  obtain ⟨hmem,-,hne⟩ := h.spec hf hact
  unfold ReleaseOf at h
  split at h
  · rename_i hrelease
    rw [if_pos hrelease,h]
  rename_i hrelease
  rw [if_neg hrelease,hf.release]
  obtain ⟨-,hfence,hmax⟩ := h
  have huser : ∀ g ∈ e.actionTrace, e.isReleaseFence (e.acts act).tid g = true →
      (e.acts g).tid ≠ 0 := by
    intro g hg hisFence hzero
    simp [isReleaseFence,ModelAction.isFence,(hf.uninit g hg hzero).1] at hisFence
  have hlatest : IsLatest (fun a => (e.acts a).seqNumber)
      (fun a => a ∈ e.actionTrace ∧ e.isReleaseFence (e.acts act).tid a = true)
      (e.actionTrace.reverse.find? (e.isReleaseFence (e.acts act).tid)) := by
    refine isLatest_find?_reverse (hr.sorted.imp_of_mem fun ha hb hlt hma hmb => ?_)
    exact Nat.le_of_lt (hlt (huser _ ha hma) (huser _ hb hmb))
  cases hfind : e.actionTrace.reverse.find? (e.isReleaseFence (e.acts act).tid) with
  | none =>
    rw [hfind] at hlatest
    exact absurd ⟨hmem,hfence⟩ (hlatest r)
  | some g =>
    rw [hfind] at hlatest
    obtain ⟨⟨hg,hgfence⟩,hgmax⟩ := hlatest
    rw [hr.seqNumber_injective hg hmem (huser g hg hgfence) hne
      (Nat.le_antisymm (hmax g hg hgfence) (hgmax r ⟨hmem,hfence⟩))]

/-! ### The conflict -/

/-- The fences that the function compares: those whose thread has a load. -/
def Candidate (e : Execution) (act r f : ActionId) : Prop :=
  e.FenceBefore act r f ∧ ∃ l, e.PriorLoad act r f l

theorem Conflicting.candidate {r f : ActionId} (h : e.Conflicting act r f) :
    e.Candidate act r f := by
  obtain ⟨hfence,l,hload,hacquire,htid⟩ := h
  exact ⟨hfence,l,⟨hload.mem,hload.load,hload.before.trans hfence.before⟩,hacquire,htid⟩

section

variable {older newer : List ActionId} {r : ActionId}

theorem mem_of_split (hsplit : e.actionTrace = older ++ r :: newer) {a : ActionId}
    (ha : a ∈ older ++ [r]) : a ∈ e.actionTrace := by
  have hl : older ++ r :: newer = older ++ [r] ++ newer := by simp
  rw [hsplit,hl]
  exact List.mem_append_left _ ha

/-- The actions of other threads before the release. -/
theorem Recorded.mem_older (hr : e.Recorded) (hsplit : e.actionTrace = older ++ r :: newer)
    (htid : (e.acts r).tid = (e.acts act).tid) (hne : (e.acts r).tid ≠ 0) {a : ActionId}
    (hna : (e.acts a).tid ≠ 0) (hother : (!(e.acts act).sameThread (e.acts a)) = true) :
    a ∈ older ++ [r] ↔ a ∈ e.actionTrace ∧ (e.acts a).seqNumber < (e.acts r).seqNumber := by
  have hsorted := hr.sorted
  rw [hsplit,List.pairwise_append,List.pairwise_cons] at hsorted
  obtain ⟨-,⟨hnewer,-⟩,holder⟩ := hsorted
  have har : a ≠ r := by
    rintro rfl
    have hsame : (e.acts act).sameThread (e.acts a) = true := beq_iff_eq.mpr htid.symm
    rw [hsame] at hother
    cases hother
  rw [hsplit,List.mem_append,List.mem_singleton,List.mem_append,List.mem_cons]
  constructor
  · rintro (ha | ha)
    · exact ⟨.inl ha,holder a ha r List.mem_cons_self hna hne⟩
    · exact absurd ha har
  · rintro ⟨ha | ha | ha,hlt⟩
    · exact .inl ha
    · exact .inr ha
    · exact absurd hlt (Nat.lt_asymm (hnewer a ha hne hna))

theorem mem_fence (hr : e.Recorded) (hf : e.Fenced) (hsplit : e.actionTrace = older ++ r :: newer)
    (htid : (e.acts r).tid = (e.acts act).tid) (hne : (e.acts r).tid ≠ 0) {f : ActionId} :
    f ∈ older ++ [r] ∧ e.isOtherFence act f = true ↔ e.FenceBefore act r f := by
  constructor
  · rintro ⟨hmem,hfence⟩
    have huser := hf.fence_user (mem_of_split hsplit hmem) hfence
    obtain ⟨htrace,hlt⟩ :=
      (hr.mem_older hsplit htid hne huser (Bool.and_eq_true_iff.mp hfence).1).mp hmem
    exact ⟨htrace,hfence,hlt⟩
  · rintro ⟨htrace,hfence,hlt⟩
    have huser := hf.fence_user htrace hfence
    exact ⟨(hr.mem_older hsplit htid hne huser (Bool.and_eq_true_iff.mp hfence).1).mpr
      ⟨htrace,hlt⟩,hfence⟩

theorem mem_load (hr : e.Recorded) (hf : e.Fenced) (hsplit : e.actionTrace = older ++ r :: newer)
    (htid : (e.acts r).tid = (e.acts act).tid) (hne : (e.acts r).tid ≠ 0) {l : ActionId} :
    l ∈ older ++ [r] ∧ e.isOtherLoad act l = true ↔ e.LoadBefore act r l := by
  constructor
  · rintro ⟨hmem,hload⟩
    have huser := hf.load_user (mem_of_split hsplit hmem) hload
    obtain ⟨htrace,hlt⟩ :=
      (hr.mem_older hsplit htid hne huser (Bool.and_eq_true_iff.mp hload).1).mp hmem
    exact ⟨htrace,hload,hlt⟩
  · rintro ⟨htrace,hload,hlt⟩
    have huser := hf.load_user htrace hload
    exact ⟨(hr.mem_older hsplit htid hne huser (Bool.and_eq_true_iff.mp hload).1).mpr
      ⟨htrace,hlt⟩,hload⟩

theorem Recorded.older_sorted (hr : e.Recorded) (hsplit : e.actionTrace = older ++ r :: newer) :
    (older ++ [r]).Pairwise fun a b =>
      (e.acts a).tid ≠ 0 → (e.acts b).tid ≠ 0 → (e.acts a).seqNumber < (e.acts b).seqNumber :=
  hr.sorted.sublist (by rw [hsplit]; simp)

/-- The scan starts with the release. -/
theorem Recorded.passed (hr : e.Recorded) (hsplit : e.actionTrace = older ++ r :: newer)
    (hne : (e.acts r).tid ≠ 0) :
    (e.actionTrace.reverse.dropWhile fun a => a ≠ r) = (older ++ [r]).reverse := by
  have hsorted := hr.sorted
  rw [hsplit,List.pairwise_append,List.pairwise_cons] at hsorted
  obtain ⟨-,⟨hnewer,-⟩,-⟩ := hsorted
  rw [hsplit,List.reverse_append,List.reverse_cons,List.append_assoc,List.dropWhile_append_of_pos]
  · simp
  · intro a ha
    rw [decide_eq_true_eq]
    rintro rfl
    exact Nat.lt_irrefl _ (hnewer a (List.mem_reverse.mp ha) hne hne)

theorem scanTrace_found (hr : e.Recorded) (hf : e.Fenced)
    (hsplit : e.actionTrace = older ++ r :: newer) (htid : (e.acts r).tid = (e.acts act).tid)
    (hne : (e.acts r).tid ≠ 0) (hcover : e.NoAcquireLoad act r) : ∃ s,
      e.scanTrace act (older ++ [r]).reverse
        ⟨List.replicate e.getNumThreads none,List.replicate e.getNumThreads none,false⟩ = some s ∧
      e.Found act (older ++ [r]).reverse s := by
  refine found_nil.trace
    (fun a ha => (hr.old a (mem_of_split hsplit (List.mem_reverse.mp ha))).2.2) ?_
  intro pre a post hpre hload
  obtain ⟨hother,hacquire⟩ := Bool.and_eq_true_iff.mp hload
  have hpassed : older ++ [r] = post.reverse ++ a :: pre.reverse := by
    rw [← List.reverse_reverse (older ++ [r]),hpre]
    simp
  have ha : a ∈ older ++ [r] := by simp [hpassed]
  have hbefore := (mem_load hr hf hsplit htid hne).mp ⟨ha,hother⟩
  obtain ⟨f,hfence,hlt⟩ := hcover a hbefore hacquire
  obtain ⟨hfmem,hisFence⟩ := (mem_fence hr hf hsplit htid hne).mpr hfence
  refine ⟨f,?_,hisFence⟩
  -- a fence after the load is met before it
  have hsorted' := hr.older_sorted hsplit
  rw [hpassed,List.pairwise_append] at hsorted'
  rw [hpassed,List.mem_append,List.mem_cons,List.mem_reverse,List.mem_reverse] at hfmem
  rcases hfmem with hfmem | rfl | hfmem
  · have hgt := hsorted'.2.2 f (List.mem_reverse.mpr hfmem) a List.mem_cons_self
      (hf.fence_user hfence.mem hisFence) (hf.load_user hbefore.mem hother)
    exact absurd hlt (Nat.lt_asymm hgt)
  · exact absurd hlt (Nat.lt_irrefl _)
  · exact hfmem

theorem Found.latest {s : FenceScan} (h : e.Found act (older ++ [r]).reverse s) (hr : e.Recorded)
    (hf : e.Fenced) (hsplit : e.actionTrace = older ++ r :: newer)
    (htid : (e.acts r).tid = (e.acts act).tid) (hne : (e.acts r).tid ≠ 0) :
    IsLatest (fun a => (e.acts a).seqNumber) (e.Candidate act r)
      (e.latestBacktrack (s.acquireFences.zip s.priorLoads) none) := by
  have hbase : IsLatest (fun a => (e.acts a).seqNumber)
      (fun f => False ∨ ∃ l, (some f,some l) ∈ s.acquireFences.zip s.priorLoads)
      (e.latestBacktrack (s.acquireFences.zip s.priorLoads) none) :=
    latestBacktrack_isLatest fun _ => id
  have hloads : ∀ t, (∃ l, s.priorLoads[t]? = some (some l)) ↔
      ∃ l, e.LoadBefore act r l ∧ (e.acts l).isAcquire = false ∧ (e.acts l).tid = t := by
    intro t
    have hload : (∃ l, s.priorLoads[t]? = some (some l)) ↔ s.priorLoads[t]?.join.isSome = true := by
      rw [Option.isSome_iff_exists]
      simp only [Option.join_eq_some_iff]
    rw [hload,h.loads t,List.any_eq_true]
    constructor
    · rintro ⟨l,hl,hmatch⟩
      simp only [Bool.and_eq_true,beq_iff_eq,Bool.not_eq_true'] at hmatch
      exact ⟨l,(mem_load hr hf hsplit htid hne).mp ⟨List.mem_reverse.mp hl,hmatch.2.1⟩,
        hmatch.2.2,hmatch.1⟩
    · rintro ⟨l,hl,hacquire,ht⟩
      obtain ⟨hmem,hother⟩ := (mem_load hr hf hsplit htid hne).mpr hl
      exact ⟨l,List.mem_reverse.mpr hmem,by simp [hother,hacquire,ht]⟩
  have hfences : ∀ t, IsLatest (fun a => (e.acts a).seqNumber)
      (fun f => e.FenceBefore act r f ∧ (e.acts f).tid = t) s.acquireFences[t]?.join := by
    intro t
    rw [h.fences t]
    refine (isLatest_find?_reverse ?_).congr fun f => ?_
    · refine (hr.older_sorted hsplit).imp_of_mem fun ha hb hlt hma hmb => ?_
      rw [Bool.and_eq_true] at hma hmb
      exact Nat.le_of_lt (hlt (hf.fence_user (mem_of_split hsplit ha) hma.2)
        (hf.fence_user (mem_of_split hsplit hb) hmb.2))
    · rw [Bool.and_eq_true,beq_iff_eq,and_comm (a := (e.acts f).tid = t),← and_assoc,
        mem_fence hr hf hsplit htid hne]
  refine hbase.weaken ?_ ?_
  · rintro f (hfalse | ⟨l,hpair⟩)
    · exact hfalse.elim
    obtain ⟨t,ht⟩ := List.mem_iff_getElem?.mp hpair
    obtain ⟨hfence,hload⟩ := List.getElem?_zip_eq_some.mp ht
    have hlatest := hfences t
    rw [hfence] at hlatest
    obtain ⟨⟨hbefore,hft⟩,-⟩ := hlatest
    obtain ⟨l',hl',hacquire,hlt⟩ := (hloads t).mp ⟨l,hload⟩
    exact ⟨hbefore,l',hl',hacquire,hlt.trans hft.symm⟩
  · rintro f ⟨hfence,l,hl,hacquire,hlt⟩
    obtain ⟨l',hload⟩ := (hloads (e.acts f).tid).mpr ⟨l,hl,hacquire,hlt⟩
    have hlatest := hfences (e.acts f).tid
    cases hlast : s.acquireFences[(e.acts f).tid]?.join with
    | none =>
      rw [hlast] at hlatest
      exact absurd ⟨hfence,rfl⟩ (hlatest f)
    | some g =>
      rw [hlast] at hlatest
      refine ⟨g,.inr ⟨l',?_⟩,hlatest.2 f ⟨hfence,rfl⟩⟩
      exact List.mem_iff_getElem?.mpr
        ⟨_,List.getElem?_zip_eq_some.mpr ⟨Option.join_eq_some_iff.mp hlast,hload⟩⟩

end

/-- The function returns the latest fence of a thread that has a load, before it or after. -/
theorem getLastFenceConflict_candidate (hr : e.Recorded) (hf : e.Fenced)
    (hact : act ∈ e.actionTrace) (hwrite : (e.acts act).isWrite = true) {r : ActionId}
    (hrelease : e.ReleaseOf act r) (hcover : e.NoAcquireLoad act r) :
    ∃ conflict, e.getLastFenceConflict act = .ok conflict ∧
      IsLatest (fun a => (e.acts a).seqNumber) (e.Candidate act r) conflict := by
  obtain ⟨hmem,htid,hne⟩ := hrelease.spec hf hact
  obtain ⟨older,newer,hsplit,-,-⟩ := hr.split hmem hne
  obtain ⟨s,hs,hfound⟩ := scanTrace_found hr hf hsplit htid hne hcover
  refine ⟨_,?_,hfound.latest hr hf hsplit htid hne⟩
  unfold getLastFenceConflict
  rw [hwrite,hrelease.eq hr hf hact]
  have hlist := hr.passed hsplit hne
  dsimp only
  rw [hlist,hs]
  simp [assert]

/-- The function finds the latest conflicting fence. -/
def FindsConflict (e : Execution) (act r : ActionId) : Prop :=
  ∃ conflict, e.getLastFenceConflict act = .ok conflict ∧
    IsLatest (fun a => (e.acts a).seqNumber) (e.Conflicting act r) conflict

/-- Exactly when no fence whose loads come only after it is the latest. -/
theorem getLastFenceConflict_iff {params : ExecutionParams} {c : Config}
    (h : Config.Reachable params c) (hact : act ∈ c.exec.actionTrace)
    (hwrite : (c.exec.acts act).isWrite = true) {r : ActionId} (hrelease : c.exec.ReleaseOf act r)
    (hcover : c.exec.NoAcquireLoad act r) :
    c.exec.FindsConflict act r ↔ ∀ f, c.exec.OnlyAfter act r f →
      ∃ g, c.exec.Conflicting act r g ∧ (c.exec.acts f).seqNumber < (c.exec.acts g).seqNumber := by
  have hr := h.recorded
  have hf := h.fenced
  obtain ⟨conflict,hok,hlatest⟩ := getLastFenceConflict_candidate hr hf hact hwrite hrelease hcover
  have hunique : c.exec.FindsConflict act r ↔
      IsLatest (fun a => (c.exec.acts a).seqNumber) (c.exec.Conflicting act r) conflict := by
    constructor
    · rintro ⟨conflict',hok',hlatest'⟩
      cases hok.symm.trans hok'
      exact hlatest'
    · exact fun hlatest' => ⟨conflict,hok,hlatest'⟩
  rw [hunique,hlatest.strengthen_iff (fun f hf => hf.candidate) fun f g hfc hgc heq =>
    hr.seqNumber_injective hfc.1.mem hgc.1.mem (hf.fence_user hfc.1.mem hfc.1.fence)
      (hf.fence_user hgc.1.mem hgc.1.fence) heq]
  constructor
  · intro hlater f honly
    exact hlater f ⟨honly.fence,honly.load⟩ fun hconf => honly.after hconf.2
  · intro hlater f hcand hconf
    exact hlater f ⟨hcand.1,hcand.2,fun hload => hconf ⟨hcand.1,hload⟩⟩

open Input in
/-- A thread that loads a location before its acquire fence and after it, or after it only, and
the store that releases the location. -/
def fencedLoad (before : Bool) : List Input :=
  [ofThread .threadStart 1,go 1 {},store .relaxed 10 0,go 1 {},ofObject .threadCreate 100,go 1 {},
    store .release 10 1,ofThread .threadStart 2,go 2 {}] ++
  (if before then [load .relaxed 10,go 2 { readFrom := .past 1 }] else []) ++
  [.act .atomicFence .acquire .fence valueNone,go 2 {},load .relaxed 10,
    go 2 { readFrom := .past 1 },ofThread .threadFinish 2,go 1 {}]

theorem fencedLoad_run (before : Bool) (act fence : ActionId)
    (hplay : (Config.play {} (fencedLoad before) Config.init).any (fun c => decide
      (act ∈ c.exec.actionTrace ∧ (c.exec.acts act).isWrite = true ∧
        (c.exec.acts act).isRelease = true ∧
        c.exec.actionTrace.all (fun l => !(c.exec.isOtherLoad act l && (c.exec.acts l).isAcquire)) ∧
        (c.exec.getLastFenceConflict act).toOption = some (some fence) ∧
        c.exec.actionTrace.any (fun l => c.exec.isOtherLoad act l &&
          (c.exec.acts l).seqNumber < (c.exec.acts fence).seqNumber) = before)) = true) :
    ∃ c, Config.Reachable {} c ∧ act ∈ c.exec.actionTrace ∧ (c.exec.acts act).isWrite = true ∧
      c.exec.ReleaseOf act act ∧ c.exec.NoAcquireLoad act act ∧
      c.exec.getLastFenceConflict act = .ok (some fence) ∧
      (before = false → ¬∃ l, c.exec.LoadBefore act fence l) := by
  obtain ⟨c,hc,hdecide⟩ := Config.exists_play {} _ _ hplay
  obtain ⟨hact,hwrite,hrelease,hacquire,hconflict,hloads⟩ := of_decide_eq_true hdecide
  refine ⟨c,hc,hact,hwrite,(if_pos hrelease).mpr rfl,fun l hl hacq => ?_,?_,fun hnone => ?_⟩
  · have hl' := List.all_eq_true.mp hacquire l hl.mem
    rw [hl.load,hacq] at hl'
    cases hl'
  · cases hok : c.exec.getLastFenceConflict act with
    | error f => rw [hok] at hconflict; cases hconflict
    | ok res =>
      rw [hok] at hconflict
      rw [Option.some.inj hconflict]
  · rintro ⟨l,hl⟩
    rw [hnone] at hloads
    have hl' := List.any_eq_false.mp hloads l hl.mem
    rw [hl.load,Bool.true_and,decide_eq_true_eq] at hl'
    exact hl' hl.before

/-- The load comes only after the fence, and the fence is returned. -/
theorem fencedLoad_misplaced : ∃ c, Config.Reachable {} c ∧ ∃ act r, act ∈ c.exec.actionTrace ∧
    (c.exec.acts act).isWrite = true ∧ c.exec.ReleaseOf act r ∧ c.exec.NoAcquireLoad act r ∧
    ¬c.exec.FindsConflict act r := by
  obtain ⟨c,hc,hact,hwrite,hrelease,hcover,hconflict,hnone⟩ :=
    fencedLoad_run false 7 5 (by decide +kernel)
  refine ⟨c,hc,7,7,hact,hwrite,hrelease,hcover,?_⟩
  rintro ⟨conflict,hok,hlatest⟩
  cases hconflict.symm.trans hok
  obtain ⟨-,l,hload,-⟩ := hlatest.1
  exact hnone rfl ⟨l,hload⟩

theorem getLastFenceConflict_iff_fencedLoad : ∃ c, Config.Reachable {} c ∧
    (c.exec.FindsConflict 8 8 ↔ ∀ f, c.exec.OnlyAfter 8 8 f →
      ∃ g, c.exec.Conflicting 8 8 g ∧ (c.exec.acts f).seqNumber < (c.exec.acts g).seqNumber) := by
  obtain ⟨c,hc,hact,hwrite,hrelease,hcover,-⟩ := fencedLoad_run true 8 6 (by decide +kernel)
  exact ⟨c,hc,getLastFenceConflict_iff hc hact hwrite hrelease hcover⟩

end Execution
end CdsChecker
