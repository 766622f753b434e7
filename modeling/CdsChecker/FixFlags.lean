import CdsChecker.FixCandidates
import CdsChecker.InferenceSearch

/-! Whether the flag of `addFixes` says that a new inference has been added. -/
namespace CdsChecker
namespace InferenceSet

/-- These inferences are new in the set, and wait as candidates. -/
structure Adds (s s' : InferenceSet) (ids : List ℕ) : Prop where
  discovered : s'.discoveredSet = s.discoveredSet ++ ids
  waiting : ∀ id ∈ ids, id ∈ s'.candidates
  kept : ∀ id ∈ s.candidates, id ∈ s'.candidates

def Added (s s' : InferenceSet) : Prop := ∃ ids, ids ≠ [] ∧ s.Adds s' ids

/-- One of the candidates, without the pruned ones, has not been discovered. -/
def Fresh (s : InferenceSet) (cur : ℕ) (cands : List Inference) : Prop :=
  ∃ infer, s.infers[cur]? = some infer ∧ ∃ c ∈ pruneCandidates cands infer,
    (s.addCurInference cur).hasBeenDiscovered c = false

variable {s s' s'' : InferenceSet} {ids ids' : List ℕ} {cur : ℕ} {cands : List Inference}
  {infer : Inference}

theorem Adds.added_iff (h : s.Adds s' ids) : s.Added s' ↔ ids ≠ [] := by
  constructor
  · rintro ⟨ids',hne,h'⟩ rfl
    have heq := h.discovered.symm.trans h'.discovered
    rw [List.append_nil] at heq
    exact hne (List.self_eq_append_right.mp heq)
  · exact fun hne => ⟨ids,hne,h⟩

theorem Adds.trans (h : s.Adds s' ids) (h' : s'.Adds s'' ids') : s.Adds s'' (ids ++ ids') where
  discovered := by rw [h'.discovered,h.discovered,List.append_assoc]
  waiting id hid := (List.mem_append.mp hid).elim (fun hid => h'.kept id (h.waiting id hid))
    (h'.waiting id)
  kept id hid := h'.kept id (h.kept id hid)

theorem hasBeenDiscovered_congr (hinfers : s'.infers = s.infers)
    (hdiscovered : s'.discoveredSet = s.discoveredSet) (c : Inference) :
    s'.hasBeenDiscovered c = s.hasBeenDiscovered c := by
  unfold hasBeenDiscovered objects
  rw [hinfers,hdiscovered]

/-- The loop accepts a candidate if it does not know one of them at its beginning. -/
theorem addAll_adds (s : InferenceSet) (cands : List Inference) :
    ∃ ids, s.Adds (s.addAll cands).1 ids ∧ ((s.addAll cands).2 = true ↔ ids ≠ []) ∧
      (ids ≠ [] ↔ ∃ c ∈ cands, s.hasBeenDiscovered c = false) ∧
      (ids = [] → (s.addAll cands).1.infers = s.infers) := by
  induction cands generalizing s with
  | nil => exact ⟨[],⟨by simp [addAll],by simp,fun id hid => hid⟩,
      by simp [addAll],by simp,fun _ => rfl⟩
  | cons c cands ih =>
    rw [addAll]
    by_cases hknown : s.hasBeenDiscovered c = true
    · have hadd : s.addInference c =
          ({ s with notAddedAtFirstPlace := s.notAddedAtFirstPlace + 1 },false) := if_pos hknown
      obtain ⟨ids,hadds,hflag,hfresh,hinfers⟩ := ih { s with
        notAddedAtFirstPlace := s.notAddedAtFirstPlace + 1 }
      have hsame : ∀ c, { s with
          notAddedAtFirstPlace := s.notAddedAtFirstPlace + 1 }.hasBeenDiscovered c =
          s.hasBeenDiscovered c := hasBeenDiscovered_congr rfl rfl
      simp only [hsame] at hfresh
      rw [hadd]
      refine ⟨ids,⟨hadds.discovered,hadds.waiting,hadds.kept⟩,by simpa using hflag,?_,hinfers⟩
      rw [hfresh,List.exists_mem_cons_iff,hknown]
      simp only [Bool.true_eq_false,false_or]
    · rw [Bool.not_eq_true] at hknown
      have hadd : s.addInference c = ({ s with
          infers := s.infers ++ [{ c with leaf := true }]
          candidates := s.candidates ++ [s.infers.length]
          discoveredSet := s.discoveredSet ++ [s.infers.length] },true) := by
        rw [addInference,if_neg (by simp [hknown])]
      obtain ⟨ids,hadds,-,-⟩ := ih { s with
          infers := s.infers ++ [{ c with leaf := true }]
          candidates := s.candidates ++ [s.infers.length]
          discoveredSet := s.discoveredSet ++ [s.infers.length] }
      have hfirst : s.Adds { s with
          infers := s.infers ++ [{ c with leaf := true }]
          candidates := s.candidates ++ [s.infers.length]
          discoveredSet := s.discoveredSet ++ [s.infers.length] } [s.infers.length] :=
        ⟨rfl,fun id hid => List.mem_append_right _ hid,fun id hid => List.mem_append_left _ hid⟩
      rw [hadd]
      refine ⟨s.infers.length :: ids,hfirst.trans hadds,by simp,?_,by simp⟩
      exact iff_of_true (List.cons_ne_nil _ _) ⟨c,List.mem_cons_self ..,hknown⟩

/-- The flag of `addCandidates`. -/
theorem addCandidates_adds (hcur : s.infers[cur]? = some infer) (cands : List Inference) :
    ∃ s' added ids, s.addCandidates cur cands = .ok (s',added) ∧ s.Adds s' ids ∧
      (added = true ↔ ids ≠ []) ∧ (ids ≠ [] ↔ s.Fresh cur cands) ∧
      (∃ infer', s'.infers[cur]? = some infer') ∧
      (ids = [] → s'.infers = (s.addCurInference cur).infers) := by
  obtain ⟨ids,hadds,hflag,hfresh,hinfers⟩ :=
    (s.addCurInference cur).addAll_adds (pruneCandidates cands infer)
  have hlength : cur < ((s.addCurInference cur).addAll
    (pruneCandidates cands infer)).1.infers.length := by
    refine Nat.lt_of_lt_of_le ?_ (addAll_grows (s.addCurInference cur) _).1
    rw [addCurInference,List.length_modify]
    exact (List.getElem?_eq_some_iff.mp hcur).1
  refine ⟨_,_,ids,by rw [addCandidates,hcur],?_,hflag,?_,
    ⟨_,List.getElem?_eq_getElem hlength⟩,hinfers⟩
  · exact ⟨hadds.discovered,hadds.waiting,fun id hid => hadds.kept id (List.mem_append_left _ hid)⟩
  · rw [hfresh]
    constructor
    · exact fun h => ⟨infer,hcur,h⟩
    · rintro ⟨infer',hcur',h⟩
      obtain rfl := Option.some.inj (hcur.symm.trans hcur')
      exact h

/-- After a call that has added nothing the same candidates are fresh. -/
theorem fresh_congr (hcur : s.infers[cur]? = some infer)
    (hinfers : s'.infers = (s.addCurInference cur).infers)
    (hdiscovered : s'.discoveredSet = s.discoveredSet) : s'.Fresh cur cands ↔
    s.Fresh cur cands := by
  have hcur' : s'.infers[cur]? = some { infer with leaf := false } := by
    rw [hinfers,addCurInference,List.getElem?_modify_eq,hcur]
    rfl
  have hprune : pruneCandidates cands { infer with leaf := false } = pruneCandidates cands infer :=
    rfl
  have htwice : (s'.addCurInference cur).infers = (s.addCurInference cur).infers := by
    rw [addCurInference,hinfers,addCurInference]
    dsimp only
    apply List.ext_getElem?
    intro i
    rw [List.getElem?_modify,List.getElem?_modify]
    split <;> cases s.infers[i]? <;> rfl
  have hknown : ∀ c, (s'.addCurInference cur).hasBeenDiscovered c =
      (s.addCurInference cur).hasBeenDiscovered c := hasBeenDiscovered_congr htwice hdiscovered
  unfold Fresh
  simp only [hcur,hcur',Option.some.injEq,exists_eq_left',hprune,hknown]

end InferenceSet

namespace SCFence

variable {x : SCFence} {curInfer : Inference} {list l : List ActionId} {cur : ℕ} {s : InferenceSet}
  {act1 act2 read write : ActionId}

/-! ### The searches for paths -/

theorem getRfSbPaths_mono {e : Execution} {threadlists paths : List (List ActionId)} {n m : ℕ}
    (h : getRfSbPaths e threadlists n act1 act2 = .ok paths) (hnm : n ≤ m) :
    getRfSbPaths e threadlists m act1 act2 = .ok paths := by
  unfold getRfSbPaths at h ⊢
  obtain ⟨list1,h1,h⟩ := bind_eq_ok.mp h
  obtain ⟨list2,h2,h⟩ := bind_eq_ok.mp h
  rw [h1,h2]
  change (if (list1.isEmpty || list2.isEmpty) = true then _ else _) = _
  split at h
  · rename_i hempty
    rw [if_pos hempty]
    exact h
  · rename_i hempty
    rw [if_neg hempty]
    exact StackSearch.loop_mono _ _ h hnm

/-- From some number of turns on all searches in the trace end. -/
theorem exists_searches (h : CompleteTrace x.e) : ∃ n, ∀ m, n ≤ m →
    { x with turns := m }.Searches := by
  have hpair : ∀ act1 act2, ∃ n, act1 ∈ x.e.actionTrace → act2 ∈ x.e.actionTrace →
      ∃ paths, getRfSbPaths x.e x.dupThreadlists n act1 act2 = .ok paths ∧
        ∀ path ∈ paths, RfSbPath x.e act1 act2 path := by
    intro act1 act2
    by_cases hmem : act1 ∈ x.e.actionTrace ∧ act2 ∈ x.e.actionTrace
    · obtain ⟨n,paths,hpaths,-,hall⟩ := getRfSbPaths_exact h hmem.1 hmem.2
      exact ⟨n,fun _ _ => ⟨paths,hpaths,fun path => (hall path).mp⟩⟩
    · exact ⟨0,fun h1 h2 => absurd ⟨h1,h2⟩ hmem⟩
  choose turns hturns using hpair
  let pairs := x.e.actionTrace.toFinset ×ˢ x.e.actionTrace.toFinset
  refine ⟨pairs.sup fun p => turns p.1 p.2,fun m hm act1 h1 act2 h2 => ?_⟩
  obtain ⟨paths,hpaths,hall⟩ := hturns act1 act2 h1 h2
  have hmem : (act1,act2) ∈ pairs := by
    rw [Finset.mem_product]
    exact ⟨List.mem_toFinset.mpr h1,List.mem_toFinset.mpr h2⟩
  have hle : turns act1 act2 ≤ pairs.sup fun p => turns p.1 p.2 :=
    Finset.le_sup (f := fun p : ActionId × ActionId => turns p.1 p.2) hmem
  exact ⟨paths,getRfSbPaths_mono hpaths (hle.trans hm),hall⟩

variable (x)

/-- The paths that the search finds. -/
def pathsOf (act1 act2 : ActionId) : List (List ActionId) := (x.paths act1 act2).toOption.getD []

variable {x}

theorem Searches.paths_eq (hs : x.Searches) (h₁ : act1 ∈ x.e.actionTrace)
    (h₂ : act2 ∈ x.e.actionTrace) : x.paths act1 act2 = .ok (x.pathsOf act1 act2) ∧
      ∀ path ∈ x.pathsOf act1 act2, RfSbPath x.e act1 act2 path := by
  obtain ⟨paths,hpaths,hall⟩ := hs act1 h₁ act2 h₂
  rw [pathsOf,hpaths]
  exact ⟨rfl,hall⟩

/-! ### Attempts, one after the other -/

variable (x)

/-- The paths between the actions lead to a new inference. -/
def Brings (s : InferenceSet) (cur : ℕ) (curInfer : Inference) (act1 act2 : ActionId)
    (paths : List (List ActionId)) : Prop :=
  ∃ cands, x.imposeSync curInfer act1 act2 paths [] = .ok cands ∧ s.Fresh cur cands

/-- Each attempt up to one that adds something. -/
def runAttempts (cur : ℕ) (curInfer : Inference) :
    List (ActionId × ActionId) → Fixing → Result (Fixing × Bool)
  | [],f => .ok (f,false)
  | p :: attempts,f => do
    let (f,added) ← x.impose cur curInfer p.1 p.2 (x.pathsOf p.1 p.2) f
    if added then pure (f,true) else runAttempts cur curInfer attempts f

/-- The writes of an uninitialized read that it could synchronize with. -/
def attemptsOf (uninitRead : ActionId) (list : List ActionId) : List (ActionId × ActionId) :=
  (list.filter fun write => (x.e.acts write).sameVar (x.e.acts uninitRead) &&
    !(x.pathsOf write uninitRead).isEmpty).map fun write => (write,uninitRead)

def isUninitRead (act : ActionId) : Bool :=
  decide (0 < (x.e.acts act).seqNumber) && (x.e.acts act).isRead &&
    (x.e.acts act).readsFrom.any fun write => (x.e.acts write).isUninitialized

def uninitAttempts (list l : List ActionId) : List (ActionId × ActionId) :=
  l.flatMap fun uninitRead =>
    if x.isUninitRead uninitRead then x.attemptsOf uninitRead list else []

/-- Two writes of a location with many reads between them and no order, but paths. -/
def implicitMOAttempts : List ActionId → List (ActionId × ActionId)
  | [] => []
  | write2 :: rest =>
    ((if (x.e.acts write2).isWrite then rest.find? (x.sameWrite write2) else none).toList.filter
      fun write1 => (decide (x.implicitMOReadBound < x.readCnt write2 rest) &&
        !x.e.moGraph.checkReachable (.action write1) (.action write2)) &&
          !(x.pathsOf write1 write2).isEmpty).map (fun write1 => (write1,write2)) ++
      implicitMOAttempts rest

/-- The first attempt brings a new inference, or is the only one. -/
def Settled (s : InferenceSet) (cur : ℕ) (curInfer : Inference)
    (attempts : List (ActionId × ActionId)) : Prop :=
  ∀ p rest, attempts = p :: rest →
    rest = [] ∨ x.Brings s cur curInfer p.1 p.2 (x.pathsOf p.1 p.2)

variable {x}

theorem runAttempts_append {attempts attempts' : List (ActionId × ActionId)} (f : Fixing) :
    x.runAttempts cur curInfer (attempts ++ attempts') f =
      x.runAttempts cur curInfer attempts f >>= fun r =>
        if r.2 then pure (r.1,true) else x.runAttempts cur curInfer attempts' r.1 := by
  induction attempts generalizing f with
  | nil => rfl
  | cons p attempts ih =>
    rw [List.cons_append,runAttempts,runAttempts]
    cases x.impose cur curInfer p.1 p.2 (x.pathsOf p.1 p.2) f with
    | error err => rfl
    | ok r =>
      obtain ⟨f',added⟩ := r
      cases added with
      | true => rfl
      | false => exact ih f'

theorem fixUninitRead_eq (hs : x.Searches) (hr : read ∈ x.e.actionTrace)
    (hl : ∀ a ∈ l, a ∈ x.e.actionTrace) (f : Fixing) :
    x.fixUninitRead cur curInfer read l f = x.runAttempts cur curInfer (x.attemptsOf read l) f := by
  induction l generalizing f with
  | nil => rfl
  | cons write l ih =>
    obtain ⟨hw,hrest⟩ := List.forall_mem_cons.mp hl
    have ih := ih hrest
    have hpaths := (hs.paths_eq hw hr).1
    rw [fixUninitRead,attemptsOf,List.filter_cons]
    cases hvar : (x.e.acts write).sameVar (x.e.acts read) with
    | false =>
      rw [if_neg (by simp),if_neg (by simp)]
      exact ih f
    | true =>
      rw [if_pos rfl,hpaths]
      change (if (x.pathsOf write read).isEmpty = true then _ else _) = _
      cases hempty : (x.pathsOf write read).isEmpty with
      | true =>
        rw [if_pos rfl,if_neg (by simp)]
        exact ih f
      | false =>
        rw [if_neg (by simp),if_pos (by simp),List.map_cons,runAttempts]
        refine congrArg _ (funext fun r => ?_)
        obtain ⟨f',added⟩ := r
        cases added with
        | true => rfl
        | false => exact ih f'

theorem Ready.buggyLoop_eq (h : Ready x list curInfer) (hs : x.Searches)
    (hl : ∀ a ∈ l, a ∈ x.e.actionTrace) (f : Fixing) :
    x.buggyLoop list cur curInfer l f =
      x.runAttempts cur curInfer (x.uninitAttempts list l) f := by
  induction l generalizing f with
  | nil => rfl
  | cons read l ih =>
    obtain ⟨hr,hrest⟩ := List.forall_mem_cons.mp hl
    have ih := ih hrest
    rw [buggyLoop,uninitAttempts,List.flatMap_cons,isUninitRead]
    cases hread : decide (0 < (x.e.acts read).seqNumber) && (x.e.acts read).isRead with
    | false =>
      rw [if_neg (by simp),if_neg (by simp)]
      exact ih f
    | true =>
      obtain ⟨w,hrf,hw⟩ := h.source hr (Bool.and_eq_true_iff.mp hread).2
      rw [if_pos rfl,hrf]
      change (if (x.e.acts w).isUninitialized = true then _ else _) = _
      simp only [Option.any_some,Bool.true_and]
      split
      · rw [runAttempts_append,fixUninitRead_eq hs hr fun a ha => h.perm.subset ha]
        refine congrArg _ (funext fun r => ?_)
        obtain ⟨f',added⟩ := r
        cases added with
        | true => rfl
        | false => exact ih f'
      · exact ih f

theorem implicitMOLoop_eq (hs : x.Searches) (hl : ∀ a ∈ l, a ∈ x.e.actionTrace) (f : Fixing) :
    x.implicitMOLoop cur curInfer l f =
      x.runAttempts cur curInfer (x.implicitMOAttempts l) f := by
  induction l generalizing f with
  | nil => rfl
  | cons write2 l ih =>
    obtain ⟨hw2,hrest⟩ := List.forall_mem_cons.mp hl
    have ih := ih hrest
    rw [implicitMOLoop,implicitMOAttempts]
    cases hprev : (if (x.e.acts write2).isWrite then l.find? (x.sameWrite write2) else none) with
    | none => exact ih f
    | some write1 =>
      have hw1 : write1 ∈ x.e.actionTrace := by
        split at hprev
        · exact hrest write1 (List.mem_of_find?_eq_some hprev)
        · cases hprev
      have hpaths := (hs.paths_eq hw1 hw2).1
      dsimp only
      rw [Option.toList_some,List.filter_singleton]
      cases hcond : decide (x.implicitMOReadBound < x.readCnt write2 l) &&
          !x.e.moGraph.checkReachable (.action write1) (.action write2) with
      | false =>
        rw [if_neg (by simp)]
        exact ih f
      | true =>
        rw [if_pos rfl,hpaths]
        change (if (x.pathsOf write1 write2).isEmpty = true then _ else _) = _
        cases hempty : (x.pathsOf write1 write2).isEmpty with
        | true =>
          rw [if_pos rfl]
          exact ih f
        | false =>
          rw [if_neg (by simp)]
          change _ = x.runAttempts cur curInfer ((write1,write2) :: x.implicitMOAttempts l) f
          rw [runAttempts]
          refine congrArg _ (funext fun r => ?_)
          obtain ⟨f',added⟩ := r
          cases added with
          | true => rfl
          | false => exact ih f'

/-- The first attempt works on a list that is there, and deletes it. -/
theorem Ready.impose_first (h : Ready x list curInfer) (hs : x.Searches)
    (hcur : s.infers[cur]? = some curInfer) (h₁ : act1 ∈ x.e.actionTrace)
    (h₂ : act2 ∈ x.e.actionTrace) : ∃ s' added,
      x.impose cur curInfer act1 act2 (x.pathsOf act1 act2) { inferenceSet := s } =
        .ok (⟨s',none⟩,added) ∧ (added = true ↔ s.Added s') ∧
      (added = true ↔ x.Brings s cur curInfer act1 act2 (x.pathsOf act1 act2)) := by
  obtain ⟨cands,hcands,-⟩ := h.imposeSync (hs.paths_eq h₁ h₂).2 act1 act2 (List.forall_mem_nil _)
  obtain ⟨s',added,ids,hadd,hadds,hflag,hfresh,-,-⟩ := InferenceSet.addCandidates_adds hcur cands
  refine ⟨s',added,?_,hflag.trans hadds.added_iff.symm,hflag.trans (hfresh.trans ?_)⟩
  · change (x.imposeSync curInfer act1 act2 (x.pathsOf act1 act2) [] >>= _) = _
    rw [hcands]
    change (s.addCandidates cur cands >>= _) = _
    rw [hadd]
    rfl
  · constructor
    · exact fun hfresh => ⟨cands,hcands,hfresh⟩
    · rintro ⟨cands',hcands',hfresh⟩
      rw [hcands] at hcands'
      obtain rfl := Except.ok.inj hcands'
      exact hfresh

/-- A second attempt comes upon the deleted list. -/
theorem Ready.runAttempts_iff (h : Ready x list curInfer) (hs : x.Searches)
    (hcur : s.infers[cur]? = some curInfer) {attempts : List (ActionId × ActionId)}
    (hmem : ∀ p ∈ attempts, p.1 ∈ x.e.actionTrace ∧ p.2 ∈ x.e.actionTrace) :
    (∃ f added, x.runAttempts cur curInfer attempts { inferenceSet := s } = .ok (f,added) ∧
      (added = true ↔ s.Added f.inferenceSet)) ↔ x.Settled s cur curInfer attempts := by
  cases attempts with
  | nil =>
    refine iff_of_true ⟨_,_,rfl,?_⟩ (by rintro p rest hnil; cases hnil)
    have hsame : s.Adds s [] := ⟨by simp,by simp,fun id hid => hid⟩
    rw [hsame.added_iff]
    simp
  | cons p rest =>
    obtain ⟨hp,-⟩ := List.forall_mem_cons.mp hmem
    obtain ⟨s',added,himpose,hadded,hbrings⟩ := h.impose_first hs hcur hp.1 hp.2
    have hsettled : x.Settled s cur curInfer (p :: rest) ↔ rest = [] ∨ added = true := by
      rw [hbrings]
      exact ⟨fun hset => hset p rest rfl,fun hor p' rest' heq => by cases heq; exact hor⟩
    rw [hsettled,runAttempts,himpose]
    cases added with
    | true => exact iff_of_true ⟨_,true,rfl,hadded⟩ (Or.inr rfl)
    | false =>
      cases rest with
      | nil => exact iff_of_true ⟨_,false,rfl,hadded⟩ (Or.inl rfl)
      | cons p' rest =>
        refine iff_of_false ?_ (by simp)
        rintro ⟨f,added,hok,-⟩
        cases hok

/-! ### The flag of `addFixes` -/

variable (x)

/-- The routine returns, and its flag says whether an inference has been added. -/
def Truthful (list : List ActionId) (type : FixType) (s : Current) : Prop :=
  ∃ s' added, x.addFixes list type s = .ok (s',added) ∧
    (added = true ↔ s.inferenceSet.Added s'.inferenceSet)

/-- Both accesses of a race have their neighbours, and the paths bring nothing new. -/
def RaceUnfixed (list : List ActionId) (s : InferenceSet) (cur : ℕ) (curInfer : Inference) : Prop :=
  ∀ act1 act2, x.checkDataRace list = some (act1,act2) → ∃ next1 prev2 next2 prev1,
    x.sbNextAction act1 = .ok next1 ∧ x.sbPrevAction act2 = .ok prev2 ∧
    x.sbNextAction act2 = .ok next2 ∧ x.sbPrevAction act1 = .ok prev1 ∧
    (x.pathsOf next1 prev2 ≠ [] →
      ¬x.Brings s cur curInfer act1 act2 (x.pathsOf next1 prev2) ∧
      (x.pathsOf next2 prev1 ≠ [] → ¬x.Brings s cur curInfer act2 act1 (x.pathsOf next2 prev1)))

def Holds (list : List ActionId) (s : InferenceSet) (cur : ℕ) (curInfer : Inference) :
    FixType → Prop
  | .nonSC => True
  | .buggyExecution => x.Settled s cur curInfer (x.uninitAttempts list list.reverse)
  | .implicitMO => x.Settled s cur curInfer (x.implicitMOAttempts list.reverse)
  | .dataRace => x.RaceUnfixed list s cur curInfer

variable {x}

theorem added_nil (s : InferenceSet) : ¬s.Added s := by
  have hsame : s.Adds s [] := ⟨by simp,by simp,fun id hid => hid⟩
  rw [hsame.added_iff]
  simp

theorem Gives.addCandidates {r : Result (List Inference)} (h : Gives r)
    (hcur : s.infers[cur]? = some curInfer) :
    ∃ s' added, (r >>= fun candidates => s.addCandidates cur candidates) = .ok (s',added) ∧
      (added = true ↔ s.Added s') := by
  obtain ⟨cands,rfl,-⟩ := h
  obtain ⟨s',added,ids,hadd,hadds,hflag,-⟩ := InferenceSet.addCandidates_adds hcur cands
  exact ⟨s',added,hadd,hflag.trans hadds.added_iff.symm⟩

theorem Ready.nonSC (h : Ready x list curInfer) (hs : x.Searches)
    (hcur : s.infers[cur]? = some curInfer) : ∃ s' added,
      x.addFixesNonSC list cur curInfer s = .ok (s',added) ∧ (added = true ↔ s.Added s') := by
  unfold addFixesNonSC
  dsimp only
  split
  · exact ⟨s,false,rfl,iff_of_false (by simp) (added_nil s)⟩
  · rename_i read hread
    have hbad : read ∈ x.badReads list x.lastwrmap := by
      have hcond := List.find?_some hread
      simp only [Bool.and_eq_true,List.contains_iff_mem] at hcond
      exact hcond.1.2
    obtain ⟨hmem,hisRead⟩ := mem_badReads hbad
    have hr := h.perm.subset hmem
    obtain ⟨w,hrf,hw⟩ := h.source hr hisRead
    rw [hrf]
    change ∃ s' added, (if (list.takeWhile (· != read)).contains w = true then
      x.getFixesFromPatternA list curInfer read w >>= fun candidates =>
      s.addCandidates cur candidates
      else x.getFixesFromPatternB curInfer read w >>= fun candidates =>
        s.addCandidates cur candidates) = .ok (s',added) ∧ _
    split
    · rename_i hold
      exact Gives.addCandidates (h.patternA hs hbad hrf (List.contains_iff_mem.mp hold)) hcur
    · exact Gives.addCandidates (h.patternB hs hr hw) hcur

theorem sbNextAction_mem {act : ActionId} (ha : act1 ∈ x.e.actionTrace)
    (h : x.sbNextAction act1 = .ok act) : act ∈ x.e.actionTrace := by
  obtain ⟨l,hl,-,hin⟩ := thread_eq ha
  rw [sbNextAction,hl] at h
  change deref (l.dropWhile (· != act1)).tail.head? = _ at h
  cases hact : (l.dropWhile (· != act1)).tail.head? with
  | none =>
    rw [hact] at h
    cases h
  | some a =>
    rw [hact] at h
    cases h
    exact hin _ ((List.dropWhile_suffix _).subset (List.tail_subset _ (List.mem_of_mem_head? hact)))

theorem sbPrevAction_mem {act : ActionId} (ha : act1 ∈ x.e.actionTrace)
    (h : x.sbPrevAction act1 = .ok act) : act ∈ x.e.actionTrace := by
  obtain ⟨l,hl,-,hin⟩ := thread_eq ha
  rw [sbPrevAction,hl] at h
  change deref (l.takeWhile (· != act1)).getLast? = _ at h
  cases hact : (l.takeWhile (· != act1)).getLast? with
  | none =>
    rw [hact] at h
    cases h
  | some a =>
    rw [hact] at h
    cases h
    exact hin _ ((List.takeWhile_prefix _).subset (List.mem_of_getLast? hact))

theorem mem_opList {ops : List ActionId} {a : ActionId} (hops : ops ∈ x.opList list)
    (ha : a ∈ ops) :
    a ∈ list := by
  induction list using List.reverseRecOn generalizing ops with
  | nil => cases hops
  | append_singleton list act ih =>
    rw [opList,List.foldl_append] at hops
    change ops ∈ (if _ then x.opList list else _) at hops
    have hold : ∀ ops' ∈ x.opList list, a ∈ ops' → a ∈ list ++ [act] := fun ops' hops' ha' =>
      List.mem_append_left _ (ih hops' ha')
    split at hops
    · exact hold ops hops ha
    · dsimp only at hops
      split at hops
      · obtain ⟨ops',hops',rfl⟩ := List.mem_map.mp hops
        split at ha
        · rcases List.mem_append.mp ha with ha | ha
          · exact hold ops' hops' ha
          · exact List.mem_append_right _ ha
        · exact hold ops' hops' ha
      · rcases List.mem_append.mp hops with hops | hops
        · exact hold ops hops ha
        · rw [List.mem_singleton.mp hops] at ha
          exact List.mem_append_right _ ha

theorem firstRace_mem {ops : List ActionId} (h : x.firstRace ops = some (act1,act2)) :
    act1 ∈ ops ∧ act2 ∈ ops := by
  induction ops with
  | nil => cases h
  | cons a ops ih =>
    rw [firstRace] at h
    split at h
    · rename_i b hb
      cases h
      exact ⟨List.mem_cons_self ..,List.mem_cons_of_mem _ (List.mem_of_find?_eq_some hb)⟩
    · exact ⟨List.mem_cons_of_mem _ (ih h).1,List.mem_cons_of_mem _ (ih h).2⟩

theorem Ready.race_mem (h : Ready x list curInfer)
    (hrace : x.checkDataRace list = some (act1,act2)) :
    act1 ∈ x.e.actionTrace ∧ act2 ∈ x.e.actionTrace := by
  obtain ⟨ops,hops,hfirst⟩ := List.exists_of_findSome?_eq_some hrace
  obtain ⟨h₁,h₂⟩ := firstRace_mem hfirst
  exact ⟨h.perm.subset (mem_opList hops h₁),h.perm.subset (mem_opList hops h₂)⟩

/-- The flag of the outer block is never set. -/
theorem Ready.raceFixes (h : Ready x list curInfer) (hs : x.Searches)
    (hcur : s.infers[cur]? = some curInfer) (hrace : x.checkDataRace list = some (act1,act2))
    {next1 prev2 next2 prev1 : ActionId} (hnext1 : x.sbNextAction act1 = .ok next1)
    (hprev2 : x.sbPrevAction act2 = .ok prev2) (hnext2 : x.sbNextAction act2 = .ok next2)
    (hprev1 : x.sbPrevAction act1 = .ok prev1) :
    ∃ s', x.addFixesDataRace list cur curInfer s = .ok (s',false) ∧ (¬s.Added s' ↔
      (x.pathsOf next1 prev2 ≠ [] →
        ¬x.Brings s cur curInfer act1 act2 (x.pathsOf next1 prev2) ∧
        (x.pathsOf next2 prev1 ≠ [] →
          ¬x.Brings s cur curInfer act2 act1 (x.pathsOf next2 prev1)))) := by
  obtain ⟨h₁,h₂⟩ := h.race_mem hrace
  obtain ⟨hpaths1,hall1⟩ := hs.paths_eq (sbNextAction_mem h₁ hnext1) (sbPrevAction_mem h₂ hprev2)
  obtain ⟨hpaths2,hall2⟩ := hs.paths_eq (sbNextAction_mem h₂ hnext2) (sbPrevAction_mem h₁ hprev1)
  set paths1 := x.pathsOf next1 prev2
  set paths2 := x.pathsOf next2 prev1
  obtain ⟨cands1,hcands1,-⟩ := h.imposeSync hall1 act1 act2 (List.forall_mem_nil _)
  obtain ⟨cands2,hcands2,-⟩ := h.imposeSync hall2 act2 act1 (List.forall_mem_nil _)
  have hbrings1 : x.Brings s cur curInfer act1 act2 paths1 ↔ s.Fresh cur cands1 := by
    unfold Brings
    simp [hcands1]
  have hbrings2 : x.Brings s cur curInfer act2 act1 paths2 ↔ s.Fresh cur cands2 := by
    unfold Brings
    simp [hcands2]
  obtain ⟨s₁,added₁,ids₁,hadd₁,hadds₁,-,hfresh₁,⟨infer₁,hcur₁⟩,hinfers₁⟩ :=
    InferenceSet.addCandidates_adds hcur cands1
  obtain ⟨s₂,added₂,ids₂,hadd₂,hadds₂,-,hfresh₂,-,-⟩ := InferenceSet.addCandidates_adds hcur₁ cands2
  have hrun : x.addFixesDataRace list cur curInfer s =
      if paths1.isEmpty then .ok (s,false)
      else if paths2.isEmpty then .ok (s₁,false) else .ok (s₂,false) := by
    rw [addFixesDataRace,hrace]
    dsimp only
    rw [hnext1,hprev2,hnext2,hprev1]
    change (x.paths next1 prev2 >>= _) = _
    rw [hpaths1]
    change (x.paths next2 prev1 >>= _) = _
    rw [hpaths2]
    change (if paths1.isEmpty = true then _ else _) = _
    refine if_congr Iff.rfl rfl ?_
    rw [hcands1]
    change (s.addCandidates cur cands1 >>= _) = _
    rw [hadd₁]
    change (if paths2.isEmpty = true then _ else _) = _
    refine if_congr Iff.rfl rfl ?_
    rw [hcands2]
    change (s₁.addCandidates cur cands2 >>= _) = _
    rw [hadd₂]
    rfl
  rw [hrun,hbrings1,hbrings2]
  by_cases hempty1 : paths1 = []
  · rw [hempty1]
    exact ⟨s,rfl,iff_of_true (added_nil s) (by simp)⟩
  · rw [if_neg (by simpa using hempty1)]
    by_cases hempty2 : paths2 = []
    · rw [hempty2]
      refine ⟨s₁,rfl,?_⟩
      rw [hadds₁.added_iff,hfresh₁]
      simp [hempty1]
    · rw [if_neg (by simpa using hempty2)]
      refine ⟨s₂,rfl,?_⟩
      rw [(hadds₁.trans hadds₂).added_iff]
      simp only [ne_eq,hempty1,hempty2,not_false_eq_true,forall_const,not_not,
        List.append_eq_nil_iff]
      rw [← hfresh₁,not_not]
      refine and_congr_right fun hids => ?_
      have hdiscovered : s₁.discoveredSet = s.discoveredSet := by
        rw [hadds₁.discovered,hids,List.append_nil]
      rw [← InferenceSet.fresh_congr hcur (hinfers₁ hids) hdiscovered,← hfresh₂,not_not]

theorem Ready.dataRace_iff (h : Ready x list curInfer) (hs : x.Searches)
    (hcur : s.infers[cur]? = some curInfer) :
    (∃ s' added, x.addFixesDataRace list cur curInfer s = .ok (s',added) ∧
      (added = true ↔ s.Added s')) ↔ x.RaceUnfixed list s cur curInfer := by
  cases hrace : x.checkDataRace list with
  | none =>
    refine iff_of_true ⟨s,false,?_,iff_of_false (by simp) (added_nil s)⟩ ?_
    · rw [addFixesDataRace,hrace]
    · intro act1 act2 hsome
      rw [hrace] at hsome
      cases hsome
  | some race =>
    obtain ⟨act1,act2⟩ := race
    constructor
    · rintro ⟨s',added,hok,hflag⟩ act1' act2' hrace'
      rw [hrace] at hrace'
      cases hrace'
      have hok' := hok
      rw [addFixesDataRace,hrace] at hok
      dsimp only at hok
      obtain ⟨next1,hnext1,hok⟩ := bind_eq_ok.mp hok
      obtain ⟨prev2,hprev2,hok⟩ := bind_eq_ok.mp hok
      obtain ⟨next2,hnext2,hok⟩ := bind_eq_ok.mp hok
      obtain ⟨prev1,hprev1,-⟩ := bind_eq_ok.mp hok
      obtain ⟨s'',hok'',hiff⟩ := h.raceFixes hs hcur hrace hnext1 hprev2 hnext2 hprev1
      rw [hok''] at hok'
      cases hok'
      exact ⟨next1,prev2,next2,prev1,hnext1,hprev2,hnext2,hprev1,
        hiff.mp fun hadded => Bool.false_ne_true (hflag.mpr hadded)⟩
    · intro hunfixed
      obtain ⟨next1,prev2,next2,prev1,hnext1,hprev2,hnext2,hprev1,hnot⟩ := hunfixed act1 act2 hrace
      obtain ⟨s',hok,hiff⟩ := h.raceFixes hs hcur hrace hnext1 hprev2 hnext2 hprev1
      exact ⟨s',false,hok,iff_of_false Bool.false_ne_true (hiff.mpr hnot)⟩

/-- A routine that the switch calls. -/
theorem truthful_iff {type : FixType} {c : Current} (hcur : c.inferenceSet.infers[c.curInference]? =
    some curInfer) (hfix : curInfer.shouldFix = true) {r : Result (InferenceSet × Bool)}
    (hr : r = match type with
      | .buggyExecution => x.addFixesBuggyExecution list c.curInference curInfer c.inferenceSet
      | .implicitMO => x.addFixesImplicitMO list c.curInference curInfer c.inferenceSet
      | .nonSC => x.addFixesNonSC list c.curInference curInfer c.inferenceSet
      | .dataRace => x.addFixesDataRace list c.curInference curInfer c.inferenceSet) :
    x.Truthful list type c ↔ ∃ s' added, r = .ok (s',added) ∧
      (added = true ↔ c.inferenceSet.Added s') := by
  have hrun : x.addFixes list type c = r >>= fun p => .ok ({ c with
      inferenceSet := p.1
      hasFixes := c.hasFixes || (p.2 && c.buggy) },p.2) := by
    subst hr
    rw [addFixes,hcur]
    change (if (!curInfer.shouldFix) = true then _ else _) = _
    rw [hfix,if_neg (by simp)]
    cases type <;> rfl
  rw [Truthful,hrun]
  cases r with
  | error err =>
    exact iff_of_false (by rintro ⟨s',added,h,-⟩; cases h) (by rintro ⟨s',added,h,-⟩; cases h)
  | ok p =>
    constructor
    · rintro ⟨s',added,h,hflag⟩
      cases h
      exact ⟨p.1,p.2,rfl,hflag⟩
    · rintro ⟨s',added,h,hflag⟩
      cases h
      exact ⟨_,_,rfl,hflag⟩

/-- The flag of a loop over attempts. -/
theorem Ready.loop_iff (h : Ready x list curInfer) (hs : x.Searches)
    (hcur : s.infers[cur]? = some curInfer) {attempts : List (ActionId × ActionId)}
    (hmem : ∀ p ∈ attempts, p.1 ∈ x.e.actionTrace ∧ p.2 ∈ x.e.actionTrace)
    {r : Result (InferenceSet × Bool)} (hr : r = do
      let (f,added) ← x.runAttempts cur curInfer attempts { inferenceSet := s }
      pure (f.inferenceSet,added)) :
    (∃ s' added, r = .ok (s',added) ∧ (added = true ↔ s.Added s')) ↔
      x.Settled s cur curInfer attempts := by
  rw [← h.runAttempts_iff hs hcur hmem,hr]
  cases x.runAttempts cur curInfer attempts { inferenceSet := s } with
  | error err =>
    exact iff_of_false (by rintro ⟨s',added,h,-⟩; cases h) (by rintro ⟨f,added,h,-⟩; cases h)
  | ok p =>
    constructor
    · rintro ⟨s',added,h,hflag⟩
      cases h
      exact ⟨p.1,p.2,rfl,hflag⟩
    · rintro ⟨f,added,h,hflag⟩
      cases h
      exact ⟨_,_,rfl,hflag⟩

theorem mem_uninitAttempts (hlist : ∀ a ∈ list, a ∈ x.e.actionTrace)
    (hl : ∀ a ∈ l, a ∈ x.e.actionTrace) {p : ActionId × ActionId}
    (hp : p ∈ x.uninitAttempts list l) :
    p.1 ∈ x.e.actionTrace ∧ p.2 ∈ x.e.actionTrace := by
  obtain ⟨r,hr,hp⟩ := List.mem_flatMap.mp hp
  split at hp
  · obtain ⟨w,hw,rfl⟩ := List.mem_map.mp hp
    exact ⟨hlist w (List.mem_filter.mp hw).1,hl r hr⟩
  · cases hp

theorem mem_implicitMOAttempts (hl : ∀ a ∈ l, a ∈ x.e.actionTrace) {p : ActionId × ActionId}
    (hp : p ∈ x.implicitMOAttempts l) : p.1 ∈ x.e.actionTrace ∧ p.2 ∈ x.e.actionTrace := by
  induction l with
  | nil => cases hp
  | cons write2 l ih =>
    obtain ⟨hw2,hrest⟩ := List.forall_mem_cons.mp hl
    rw [implicitMOAttempts] at hp
    rcases List.mem_append.mp hp with hp | hp
    · obtain ⟨write1,hw1,rfl⟩ := List.mem_map.mp hp
      have hfind := Option.mem_toList.mp (List.mem_filter.mp hw1).1
      split at hfind
      · exact ⟨hrest write1 (List.mem_of_find?_eq_some hfind),hw2⟩
      · cases hfind
    · exact ih hrest hp

theorem Ready.truthful (h : Ready x list curInfer) (hs : x.Searches) (type : FixType) {c : Current}
    (hcur : c.inferenceSet.infers[c.curInference]? = some curInfer)
    (hfix : curInfer.shouldFix = true) :
    x.Truthful list type c ↔ x.Holds list c.inferenceSet c.curInference curInfer type := by
  have hlist : ∀ a ∈ list, a ∈ x.e.actionTrace := fun a ha => h.perm.subset ha
  have hrev : ∀ a ∈ list.reverse, a ∈ x.e.actionTrace :=
    fun a ha => hlist a (List.mem_reverse.mp ha)
  rw [truthful_iff hcur hfix rfl]
  cases type with
  | nonSC => exact iff_of_true (h.nonSC hs hcur) trivial
  | dataRace => exact h.dataRace_iff hs hcur
  | buggyExecution =>
    refine h.loop_iff hs hcur (fun p hp => mem_uninitAttempts hlist hrev hp) ?_
    rw [← h.buggyLoop_eq hs hrev]
    rfl
  | implicitMO =>
    refine h.loop_iff hs hcur (fun p hp => mem_implicitMOAttempts hrev hp) ?_
    rw [← implicitMOLoop_eq hs hrev]
    rfl

/-- The flag is right for the non-SC fixes, for the two loops unless an attempt that adds nothing
is followed by another one, and for a data race if nothing is found. -/
theorem addFixes_truthful_iff (h : Ready x list curInfer) {c : Current}
    (hcur : c.inferenceSet.infers[c.curInference]? = some curInfer)
    (hfix : curInfer.shouldFix = true) : ∃ n, ∀ m, n ≤ m → ∀ type,
      ({ x with turns := m }.Truthful list type c ↔
        { x with turns := m }.Holds list c.inferenceSet c.curInference curInfer type) := by
  obtain ⟨n,hn⟩ := exists_searches h.complete
  refine ⟨n,fun m hm type => ?_⟩
  have hready : Ready { x with turns := m } list curInfer :=
    ⟨h.complete,h.sources,h.perm,h.nodup,h.sized,h.wildcards⟩
  exact hready.truthful (hn m hm) type hcur hfix

open Input in
/-- Two stores and a flag, and a thread that sees the flag and reads the value before the stores. -/
def handedOverLate : List Input :=
  [ofThread .threadStart 1,go 1 {},ofObject .threadCreate 100,go 1 {},store .relaxed 20 1,
    ofThread .threadStart 2,go 2 {},load .relaxed 10,go 1 {},store .relaxed 20 2,go 1 {},
    store .relaxed 10 1,go 1 {},ofThread .threadFinish 1,go 2 { readFrom := .past 6 },
    load .relaxed 20,go 2 { readFrom := .past 4 },ofThread .threadFinish 2,go 1 {},go 2 {}]

def lateFence (originalMo : ActionId → OriginalMo) (e : Execution) : SCFence where
  e := e
  originalMo := originalMo
  annotatedReadSet := fun _ => false
  lastwrmap := fun _ => none
  implicitMOReadBound := 0
  turns := 20

/-- The accesses of the flag are wildcards, the others are normal ones. -/
def flagMo (act : ActionId) : OriginalMo :=
  if act = 6 then .wildcard 1 (by decide) else if act = 8 then .wildcard 2 (by decide)
  else if act = 3 ∨ act = 5 ∨ act = 9 then .normal else .order .relaxed

def relaxedInference : Inference := { orders := [some .relaxed,some .relaxed,none,none] }

def firstCurrent : Current where
  inferenceSet := { infers := [relaxedInference] }
  curInference := 0

/-- The discovered set and the candidates behind the call, and the flag. -/
def outcome (x : SCFence) (type : FixType) : Option (List ℕ × List ℕ × Bool) :=
  (x.addFixes x.e.actionTrace type firstCurrent).toOption.map fun r =>
    (r.1.inferenceSet.discoveredSet,r.1.inferenceSet.candidates,r.2)

theorem handedOverLate_run : ∃ c, Config.Reachable {} c ∧ CompleteTrace c.exec ∧
    c.exec.actionTrace = [7,4,0,1,2,3,5,6,8,9,10,11] ∧
    (∀ r ∈ c.exec.actionTrace, (c.exec.acts r).isRead = true →
      ∀ w ∈ c.exec.actionTrace, (c.exec.acts r).readsFrom = some w →
        (c.exec.acts w).isWrite = true ∧ (c.exec.acts w).location = (c.exec.acts r).location) ∧
    outcome (lateFence flagMo c.exec) .dataRace = some ([1],[0,1],false) ∧
    outcome (lateFence (fun _ => .order .relaxed) c.exec) .buggyExecution = none := by
  obtain ⟨c,hc,hplay⟩ := Config.exists_play {} handedOverLate
    (fun c => (∀ a ∈ c.exec.actionTrace, (c.exec.acts a).isRead = true →
      (c.exec.acts a).tid ≠ 0 ∧ ∃ w ∈ c.exec.actionTrace, (c.exec.acts a).readsFrom = some w) ∧
      c.exec.actionTrace = [7,4,0,1,2,3,5,6,8,9,10,11] ∧
      (∀ r ∈ c.exec.actionTrace, (c.exec.acts r).isRead = true →
        ∀ w ∈ c.exec.actionTrace, (c.exec.acts r).readsFrom = some w →
          (c.exec.acts w).isWrite = true ∧ (c.exec.acts w).location = (c.exec.acts r).location) ∧
      outcome (lateFence flagMo c.exec) .dataRace = some ([1],[0,1],false) ∧
      outcome (lateFence (fun _ => .order .relaxed) c.exec) .buggyExecution = none)
    (by decide +kernel)
  obtain ⟨hreads,hrest⟩ := of_decide_eq_true hplay
  exact ⟨c,hc,⟨hc.recorded,hreads⟩,hrest⟩

theorem handedOverLate_ready {c : Config} (hcomplete : CompleteTrace c.exec)
    (htrace : c.exec.actionTrace = [7,4,0,1,2,3,5,6,8,9,10,11])
    (hsources : ∀ r ∈ c.exec.actionTrace, (c.exec.acts r).isRead = true →
      ∀ w ∈ c.exec.actionTrace, (c.exec.acts r).readsFrom = some w →
        (c.exec.acts w).isWrite = true ∧ (c.exec.acts w).location = (c.exec.acts r).location) :
    Ready (lateFence flagMo c.exec) c.exec.actionTrace relaxedInference where
  complete := hcomplete
  sources r hr hread w hrf := by
    obtain ⟨-,w',hw',hrf'⟩ := hcomplete.reads r hr hread
    obtain rfl := Option.some.inj (hrf'.symm.trans hrf)
    exact hsources r hr hread w' hw' hrf
  perm := .refl _
  nodup := by
    rw [htrace]
    decide
  sized := by decide
  wildcards a _ id pos hwild := by
    change flagMo a = _ at hwild
    unfold flagMo at hwild
    split at hwild
    · cases hwild
      decide
    · split at hwild
      · cases hwild
        decide
      · split at hwild <;> cases hwild

/-- The race is fixed, but the flag is false; and the second store is tried with the list that is
gone. -/
theorem raceFix_unreported : ∃ c, Config.Reachable {} c ∧
    Ready (lateFence flagMo c.exec) c.exec.actionTrace relaxedInference ∧
    ¬(lateFence flagMo c.exec).Truthful c.exec.actionTrace .dataRace firstCurrent ∧
    ¬(lateFence (fun _ => .order .relaxed) c.exec).Truthful c.exec.actionTrace .buggyExecution
      firstCurrent := by
  obtain ⟨c,hc,hcomplete,htrace,hsources,hrace,hbuggy⟩ := handedOverLate_run
  refine ⟨c,hc,handedOverLate_ready hcomplete htrace hsources,?_,?_⟩
  · rintro ⟨s',added,hok,hflag⟩
    change Option.map _ ((lateFence flagMo c.exec).addFixes c.exec.actionTrace _ _).toOption =
      _ at hrace
    rw [hok] at hrace
    obtain ⟨hset,hcandidates,rfl⟩ : s'.inferenceSet.discoveredSet = [1] ∧
        s'.inferenceSet.candidates = [0,1] ∧ added = false := by
      simpa [Except.toOption] using hrace
    have hadds : firstCurrent.inferenceSet.Adds s'.inferenceSet [1] := by
      refine ⟨hset,?_,?_⟩
      · rw [hcandidates]
        decide
      · exact fun id hid => absurd hid List.not_mem_nil
    exact Bool.false_ne_true (hflag.mpr (hadds.added_iff.mpr (by decide)))
  · rintro ⟨s',added,hok,-⟩
    change Option.map _ ((lateFence _ c.exec).addFixes c.exec.actionTrace _ _).toOption =
      _ at hbuggy
    rw [hok] at hbuggy
    cases hbuggy

theorem addFixes_truthful_iff_handedOverLate :
    ∃ c, Config.Reachable {} c ∧ ∃ n, ∀ m, n ≤ m → ∀ type,
    ({ lateFence flagMo c.exec with turns := m }.Truthful c.exec.actionTrace type firstCurrent ↔
      { lateFence flagMo c.exec with turns := m }.Holds c.exec.actionTrace
        firstCurrent.inferenceSet 0 relaxedInference type) := by
  obtain ⟨c,hc,hcomplete,htrace,hsources,-⟩ := handedOverLate_run
  exact ⟨c,hc,addFixes_truthful_iff (handedOverLate_ready hcomplete htrace hsources) rfl rfl⟩

end SCFence
end CdsChecker
