import CdsChecker.FenceFixes

/-! The candidates of a fix are computed without a failure. -/
namespace CdsChecker

/-- Within the wildcards that there can be. -/
def PatchUnit.Bounded (unit : PatchUnit) : Prop :=
  ∀ id, unit.wildcard = some id → id ≤ MAX_WILDCARD_NUM

def Patch.Bounded (patch : Patch) : Prop := ∀ unit ∈ patch, unit.Bounded

/-- A list of candidates. -/
def Gives (r : Result (List Inference)) : Prop := ∃ l, r = .ok l ∧ ∀ infer ∈ l, infer.Sized

theorem Gives.pure {l : List Inference} (h : ∀ infer ∈ l, infer.Sized) : Gives (.ok l) := ⟨l,rfl,h⟩

theorem Gives.bind {r : Result (List Inference)} {f : List Inference → Result (List Inference)}
    (h : Gives r) (hf : ∀ l, (∀ infer ∈ l, infer.Sized) → Gives (f l)) : Gives (r >>= f) := by
  obtain ⟨l,rfl,hl⟩ := h
  exact hf l hl

namespace Inference

theorem strengthen_total {infer : Inference} {unit : PatchUnit} (h : infer.Sized)
    (hunit : unit.Bounded) : ∃ infer' res, infer.strengthen unit = .ok (infer',res) ∧
    infer'.Sized := by
  cases hw : unit.wildcard with
  | none => exact ⟨infer,-1,by rw [strengthen,hw],h⟩
  | some id =>
    obtain ⟨infer',res,hok,hsized,-⟩ := strengthen_ok h ⟨id,hw,hunit id hw⟩
    exact ⟨infer',res,hok,hsized⟩

theorem applyUnits_total {patch : Patch} (hpatch : patch.Bounded) {infer : Inference}
    (h : infer.Sized) (updated : Bool) :
    ∃ infer' updated', applyUnits patch infer updated = .ok (infer',updated') ∧ infer'.Sized := by
  induction patch generalizing infer updated with
  | nil => exact ⟨infer,updated,rfl,h⟩
  | cons unit patch ih =>
    obtain ⟨hunit,hrest⟩ := List.forall_mem_cons.mp hpatch
    obtain ⟨next,res,hnext,hsized⟩ := strengthen_total h hunit
    rw [applyUnits,hnext]
    change ∃ infer' updated', (if res = -1 then Pure.pure (next,updated)
      else applyUnits patch next (updated || res == 1)) = .ok (infer',updated') ∧ infer'.Sized
    split
    · exact ⟨next,updated,rfl,hsized⟩
    · exact ih hrest hsized _

theorem tryPatches_total {patches : List Patch} (hpatches : ∀ patch ∈ patches, patch.Bounded)
    {infer : Inference} (h : infer.Sized) : Gives (infer.tryPatches patches) := by
  induction patches with
  | nil => exact .pure (by simp)
  | cons patch patches ih =>
    obtain ⟨hpatch,hrest⟩ := List.forall_mem_cons.mp hpatches
    have hcopy : Sized { orders := infer.orders } := h
    obtain ⟨next,updated,hnext,hsized⟩ := applyUnits_total hpatch hcopy false
    obtain ⟨l,hl,hall⟩ := ih hrest
    rw [tryPatches,copy_ok h]
    change Gives (applyUnits patch _ false >>= _)
    rw [hnext]
    change Gives (infer.tryPatches patches >>= _)
    rw [hl]
    refine .pure ?_
    split
    · exact List.forall_mem_cons.mpr ⟨hsized,hall⟩
    · exact hall

end Inference

theorem tryAll_total {patches : List Patch} (hpatches : ∀ patch ∈ patches, patch.Bounded)
    {list : List Inference} (h : ∀ infer ∈ list, infer.Sized) : Gives (tryAll patches list) := by
  induction list with
  | nil => exact .pure (by simp)
  | cons infer list ih =>
    obtain ⟨hinfer,hrest⟩ := List.forall_mem_cons.mp h
    rw [tryAll]
    refine (Inference.tryPatches_total hpatches hinfer).bind fun newInfers hnew => ?_
    refine (ih hrest).bind fun newList hlist => .pure fun x hx => ?_
    exact (List.mem_append.mp hx).elim (hnew x) (hlist x)

theorem applyPatch_total {patches : List Patch} (hpatches : ∀ patch ∈ patches, patch.Bounded)
    {list : List Inference} (h : ∀ infer ∈ list, infer.Sized) {curInfer : Inference}
    (hcur : curInfer.Sized) : Gives (applyPatch list curInfer patches) := by
  unfold applyPatch
  split
  · exact Inference.tryPatches_total hpatches hcur
  · exact tryAll_total hpatches h

namespace SCFence

variable {x : SCFence} {curInfer : Inference} {list : List ActionId}
  {act1 act2 read write : ActionId}

/-- A trace in which reads read writes of their location, in the order that the generator has found
for it, and a current inference that has the wildcards of the trace. -/
structure Ready (x : SCFence) (list : List ActionId) (curInfer : Inference) : Prop where
  complete : CompleteTrace x.e
  sources : ∀ r ∈ x.e.actionTrace, (x.e.acts r).isRead = true →
    ∀ w, (x.e.acts r).readsFrom = some w →
    (x.e.acts w).isWrite = true ∧ (x.e.acts w).location = (x.e.acts r).location
  perm : list.Perm x.e.actionTrace
  nodup : list.Nodup
  sized : curInfer.Sized
  wildcards : ∀ a ∈ x.e.actionTrace, ∀ id pos, x.originalMo a = .wildcard id pos →
    id ≤ MAX_WILDCARD_NUM

/-- The searches for paths end. -/
def Searches (x : SCFence) : Prop :=
  ∀ act1 ∈ x.e.actionTrace, ∀ act2 ∈ x.e.actionTrace, ∃ paths, x.paths act1 act2 = .ok paths ∧
    ∀ path ∈ paths, RfSbPath x.e act1 act2 path

/-! ### Patches -/

theorem Ready.unit (h : Ready x list curInfer) {a : ActionId} (ha : a ∈ x.e.actionTrace)
    (mo : MemoryOrder) : ((x.originalMo a).unit mo).Bounded := by
  intro id hid
  cases ho : x.originalMo a with
  | wildcard id' pos =>
    rw [ho] at hid
    cases hid
    exact h.wildcards a ha _ pos ho
  | order mo' =>
    rw [ho] at hid
    cases hid
  | normal =>
    rw [ho] at hid
    cases hid

theorem Ready.newPatch (h : Ready x list curInfer) (h₁ : act1 ∈ x.e.actionTrace)
    (h₂ : act2 ∈ x.e.actionTrace) (mo1 mo2 : MemoryOrder) :
    ∀ patch ∈ x.newPatch act1 mo1 act2 mo2, patch.Bounded := by
  unfold SCFence.newPatch
  split
  · intro patch hpatch
    rw [List.mem_singleton.mp hpatch]
    intro unit hunit
    rcases List.mem_pair.mp hunit with rfl | rfl
    · exact h.unit h₁ mo1
    · exact h.unit h₂ mo2
  · simp

theorem Ready.fencePatches (h : Ready x list curInfer) (hr : read ∈ x.e.actionTrace)
    (hw : write ∈ x.e.actionTrace) {acqFences relFences : List ActionId}
    (hacq : ∀ a ∈ acqFences, a ∈ x.e.actionTrace) (hrel : ∀ a ∈ relFences, a ∈ x.e.actionTrace) :
    ∀ patch ∈ x.fencePatches read write acqFences relFences, patch.Bounded := by
  intro patch hpatch
  unfold SCFence.fencePatches at hpatch
  dsimp only at hpatch
  split at hpatch
  · rcases List.mem_append.mp hpatch with hpatch | hpatch
    · obtain ⟨fence,hfence,hpatch⟩ := List.mem_flatMap.mp hpatch
      exact h.newPatch (hacq fence hfence) hw _ _ patch hpatch
    · obtain ⟨fence,hfence,hpatch⟩ := List.mem_flatMap.mp hpatch
      exact h.newPatch (hrel fence hfence) hr _ _ patch hpatch
  · obtain ⟨relFence,hrelFence,hpatch⟩ := List.mem_flatMap.mp hpatch
    obtain ⟨acqFence,hacqFence,hpatch⟩ := List.mem_flatMap.mp hpatch
    exact h.newPatch (hrel relFence hrelFence) (hacq acqFence hacqFence) _ _ patch hpatch

/-- The list of a thread has its action. -/
theorem thread_eq (ha : act1 ∈ x.e.actionTrace) : ∃ l, x.thread act1 = .ok l ∧ act1 ∈ l ∧
    ∀ a ∈ l, a ∈ x.e.actionTrace := by
  refine ⟨x.e.actionTrace.filter fun a => (x.e.acts a).tid = (x.e.acts act1).tid,?_,?_,?_⟩
  · rw [thread,dupThreadlists,SCGenerator.dupThreadlists_get ha]
    rfl
  · exact List.mem_filter.mpr ⟨ha,by simp⟩
  · exact fun a ha => (List.mem_filter.mp ha).1

theorem head?_dropWhile {l : List ActionId} {a : ActionId} (h : a ∈ l) :
    (l.dropWhile (· != a)).head? = some a := by
  induction l with
  | nil => cases h
  | cons b l ih =>
    by_cases hb : b = a
    · subst hb
      simp
    · rw [List.dropWhile_cons_of_pos (by simpa using hb)]
      exact ih ((List.mem_cons.mp h).resolve_left fun hab => hb hab.symm)

theorem dropWhile_ne_append {pre post : List ActionId} {a : ActionId} (h : a ∉ pre) :
    (pre ++ a :: post).dropWhile (· != a) = a :: post := by
  induction pre with
  | nil => simp
  | cons b pre ih =>
    rw [List.mem_cons,not_or] at h
    obtain ⟨hb,hpre⟩ := h
    rw [List.cons_append,List.dropWhile_cons_of_pos (by simpa using Ne.symm hb)]
    exact ih hpre

theorem mem_of_mem_window {l : List ActionId} {p q r : ActionId → Bool} {a : ActionId}
    (h : a ∈ ((l.dropWhile p).takeWhile q).filter r) : a ∈ l :=
  (List.dropWhile_suffix p).subset ((List.takeWhile_prefix q).subset (List.mem_filter.mp h).1)

/-- The patches for a read and the write it reads. -/
theorem Ready.getAcqRel (h : Ready x list curInfer) (hr : read ∈ x.e.actionTrace)
    (hw : write ∈ x.e.actionTrace) (readBound writeBound : ActionId) :
    ∃ patches, x.getAcqRel read readBound write writeBound = .ok patches ∧
      ∀ patch ∈ patches, patch.Bounded := by
  obtain ⟨readThrd,hreadThrd,hmem,hin⟩ := thread_eq hr
  obtain ⟨writeThrd,hwriteThrd,hmem',hin'⟩ := thread_eq hw
  have hread := head?_dropWhile hmem
  have hwrite := head?_dropWhile (List.mem_reverse.mpr hmem')
  set acqFences := ((readThrd.dropWhile (· != read)).takeWhile (· != readBound)).filter
    fun act => (x.e.acts act).isFence with hacq
  set relFences := ((writeThrd.reverse.dropWhile (· != write)).takeWhile (· != writeBound)).filter
    fun act => (x.e.acts act).isFence with hrel
  have hok : x.getAcqRel read readBound write writeBound =
      .ok (if (x.fencePatches read write acqFences relFences).isEmpty then
        x.newPatch read .acquire write .release
      else x.fencePatches read write acqFences relFences) := by
    rw [SCFence.getAcqRel,hreadThrd,hwriteThrd]
    change (deref (readThrd.dropWhile (· != read)).head? >>= _) = _
    rw [hread]
    change (deref (writeThrd.reverse.dropWhile (· != write)).head? >>= _) = _
    rw [hwrite]
    rfl
  refine ⟨_,hok,fun patch hpatch => ?_⟩
  split at hpatch
  · exact h.newPatch hr hw _ _ patch hpatch
  · refine h.fencePatches hr hw ?_ ?_ patch hpatch
    · exact fun a ha => hin a (mem_of_mem_window ha)
    · exact fun a ha => hin' a (List.mem_reverse.mp (mem_of_mem_window ha))

theorem Ready.source (h : Ready x list curInfer) (hr : read ∈ x.e.actionTrace)
    (hread : (x.e.acts read).isRead = true) :
    ∃ w, (x.e.acts read).readsFrom = some w ∧ w ∈ x.e.actionTrace := by
  obtain ⟨-,w,hw,hrf⟩ := h.complete.reads read hr hread
  exact ⟨w,hrf,hw⟩

theorem Ready.imposeReads (h : Ready x list curInfer) {path : List ActionId}
    (hpath : ∀ r ∈ path, r ∈ x.e.actionTrace ∧ (x.e.acts r).isRead = true)
    {cands : List Inference} (hcands : ∀ infer ∈ cands, infer.Sized) :
    Gives (x.imposeReads curInfer act1 act2 path cands) := by
  induction path generalizing cands with
  | nil => exact .pure hcands
  | cons read path ih =>
    obtain ⟨⟨hr,hread⟩,hrest⟩ := List.forall_mem_cons.mp hpath
    obtain ⟨w,hrf,hw⟩ := h.source hr hread
    obtain ⟨patches,hpatches,hbounded⟩ := h.getAcqRel hr hw act2 (path.head?.getD act1)
    rw [SCFence.imposeReads,hrf]
    change Gives (x.getAcqRel _ _ _ _ >>= _)
    rw [hpatches]
    change Gives (if patches.isEmpty = true then _ else _)
    split
    · exact .pure hcands
    · exact (applyPatch_total hbounded hcands h.sized).bind fun l hl => ih hrest hl

theorem Ready.imposeSyncPath (h : Ready x list curInfer) {path : List ActionId}
    (hpath : RfSbPath x.e act1 act2 path) (beginAct endAct : ActionId) :
    Gives (x.imposeSyncPath curInfer path beginAct endAct) := by
  unfold SCFence.imposeSyncPath
  split
  · obtain ⟨front,relHead,hfront,hrf,-⟩ := hpath.first
    obtain ⟨lastRead,hlast,-⟩ := hpath.last
    obtain ⟨hf,hread⟩ := hpath.reads front (List.mem_of_mem_head? hfront)
    obtain ⟨w,hrf',hw⟩ := h.source hf hread
    have hl := (hpath.reads lastRead (List.mem_of_getLast? hlast)).1
    obtain ⟨patches,hpatches,hbounded⟩ := h.getAcqRel hl hw endAct beginAct
    rw [hfront]
    change Gives (deref (x.e.acts front).readsFrom >>= _)
    rw [hrf']
    change Gives (deref path.getLast? >>= _)
    rw [hlast]
    change Gives (x.getAcqRel _ _ _ _ >>= _)
    rw [hpatches]
    change Gives (if patches.isEmpty = true then _ else _)
    split
    · exact .pure (by simp)
    · exact applyPatch_total hbounded (by simp) h.sized
  · exact h.imposeReads hpath.reads (by simp)

theorem Ready.imposeSync (h : Ready x list curInfer) {paths : List (List ActionId)}
    (hpaths : ∀ path ∈ paths, RfSbPath x.e act1 act2 path) (beginAct endAct : ActionId)
    {inferList : List Inference} (hlist : ∀ infer ∈ inferList, infer.Sized) :
    Gives (x.imposeSync curInfer beginAct endAct paths inferList) := by
  induction paths generalizing inferList with
  | nil => exact .pure hlist
  | cons path paths ih =>
    obtain ⟨hpath,hrest⟩ := List.forall_mem_cons.mp hpaths
    rw [SCFence.imposeSync]
    refine (h.imposeSyncPath hpath beginAct endAct).bind fun cands hcands =>
      ih hrest fun infer hinfer => ?_
    exact (List.mem_append.mp hinfer).elim (hlist infer) (hcands infer)

theorem fencePairs_mem {fences : List ActionId} {p : ActionId × ActionId}
    (h : p ∈ fencePairs fences) :
    p.1 ∈ fences ∧ p.2 ∈ fences := by
  induction fences with
  | nil => cases h
  | cons fence fences ih =>
    rcases List.mem_append.mp h with h | h
    · obtain ⟨fence2,hfence2,rfl⟩ := List.mem_map.mp h
      exact ⟨List.mem_cons_self ..,List.mem_cons_of_mem _ hfence2⟩
    · exact ⟨List.mem_cons_of_mem _ (ih h).1,List.mem_cons_of_mem _ (ih h).2⟩

theorem Ready.scPatches (h : Ready x list curInfer) (h₁ : act1 ∈ x.e.actionTrace)
    (h₂ : act2 ∈ x.e.actionTrace) {fences : List ActionId}
    (hfences : ∀ a ∈ fences, a ∈ x.e.actionTrace) :
    ∀ patch ∈ x.scPatches curInfer act1 act2 fences, patch.Bounded := by
  intro patch hpatch
  unfold SCFence.scPatches at hpatch
  rcases List.mem_append.mp hpatch with hpatch | hpatch
  · obtain ⟨p,hp,hpatch⟩ := List.mem_flatMap.mp hpatch
    have hmem := fencePairs_mem hp
    exact h.newPatch (hfences _ hmem.1) (hfences _ hmem.2) _ _ patch hpatch
  · split at hpatch
    · cases hpatch
    · rcases List.mem_append.mp hpatch with hpatch | hpatch
      · obtain ⟨fence,hfence,hpatch⟩ := List.mem_flatMap.mp hpatch
        rcases List.mem_append.mp hpatch with hpatch | hpatch
        · exact h.newPatch h₁ (hfences fence hfence) _ _ patch hpatch
        · exact h.newPatch h₂ (hfences fence hfence) _ _ patch hpatch
      · exact h.newPatch h₁ h₂ _ _ patch hpatch

theorem Ready.imposeSC (h : Ready x list curInfer) (h₁ : act1 ∈ x.e.actionTrace)
    (h₂ : act2 ∈ x.e.actionTrace) {inferList : List Inference}
    (hlist : ∀ infer ∈ inferList, infer.Sized) :
    Gives (x.imposeSC list curInfer act1 act2 inferList) := by
  have hfences : ∀ a ∈ ((list.dropWhile (· != act1)).tail.takeWhile (· != act2)).filter
      (fun fence => (x.e.acts fence).isFence && (x.originalMo fence).isWildcard),
      a ∈ x.e.actionTrace := by
    intro a ha
    have hmem := (List.takeWhile_prefix _).subset (List.mem_filter.mp ha).1
    exact h.perm.subset ((List.dropWhile_suffix _).subset (List.tail_subset _ hmem))
  have hbounded := h.scPatches h₁ h₂ hfences
  rw [SCFence.imposeSC,head?_dropWhile (h.perm.symm.subset h₁)]
  change Gives (if (x.scPatches curInfer act1 act2 _).isEmpty = true then _ else _)
  split
  · exact .pure hlist
  · exact applyPatch_total hbounded hlist h.sized

/-! ### Patterns -/

theorem Ready.imposeBetween (h : Ready x list curInfer) (hs : x.Searches)
    (h₁ : act1 ∈ x.e.actionTrace) (h₂ : act2 ∈ x.e.actionTrace) {inferList : List Inference}
    (hlist : ∀ infer ∈ inferList, infer.Sized) :
    Gives (x.imposeBetween list curInfer act1 act2 inferList) := by
  obtain ⟨paths,hpaths,hall⟩ := hs act1 h₁ act2 h₂
  rw [SCFence.imposeBetween,hpaths]
  change Gives (if paths.isEmpty = true then _ else _)
  split
  · exact h.imposeSC h₁ h₂ hlist
  · exact h.imposeSync hall _ _ hlist

theorem Ready.fixWrite2 (h : Ready x list curInfer) (hs : x.Searches) (hr : read ∈ x.e.actionTrace)
    (hw : write ∈ x.e.actionTrace) {write2 : ActionId} (hw2 : write2 ∈ x.e.actionTrace) :
    Gives (x.fixWrite2 list curInfer read write write2) := by
  obtain ⟨paths2,hpaths2,hall⟩ := hs write2 hw2 read hr
  have hrest : ∀ (isWritesMO : Bool) tmp, (∀ infer ∈ tmp, infer.Sized) →
      Gives (if x.e.happensBefore write2 read then .ok tmp else do
        let paths2 ← x.paths write2 read
        if paths2.isEmpty then do
          let tmp ← x.imposeSC list curInfer write2 read tmp
          if isWritesMO then x.imposeBetween list curInfer write write2 tmp else pure tmp
        else x.imposeSync curInfer write2 read paths2 tmp) := by
    intro isWritesMO tmp htmp
    split
    · exact .pure htmp
    · rw [hpaths2]
      change Gives (if paths2.isEmpty = true then _ else _)
      split
      · refine (h.imposeSC hw2 hr htmp).bind fun tmp htmp => ?_
        split
        · exact h.imposeBetween hs hw hw2 htmp
        · exact .pure htmp
      · exact h.imposeSync hall _ _ htmp
  unfold SCFence.fixWrite2
  dsimp only
  split
  · exact hrest _ [] (by simp)
  · exact (h.imposeBetween hs hw hw2 (by simp)).bind fun tmp htmp => hrest _ tmp htmp

theorem Ready.fixWrite2s (h : Ready x list curInfer) (hs : x.Searches) (hr : read ∈ x.e.actionTrace)
    (hw : write ∈ x.e.actionTrace) {write2s : List ActionId}
    (hw2s : ∀ a ∈ write2s, a ∈ x.e.actionTrace) :
    Gives (x.fixWrite2s list curInfer read write write2s) := by
  induction write2s with
  | nil => exact .pure (by simp)
  | cons write2 write2s ih =>
    obtain ⟨hw2,hrest⟩ := List.forall_mem_cons.mp hw2s
    rw [SCFence.fixWrite2s]
    refine (h.fixWrite2 hs hr hw hw2).bind fun tmp htmp => ?_
    refine (ih hrest).bind fun candidates hcandidates => .pure fun infer hinfer => ?_
    exact (List.mem_append.mp hinfer).elim (htmp infer) (hcandidates infer)

theorem Ready.patternB (h : Ready x list curInfer) (hs : x.Searches) (hr : read ∈ x.e.actionTrace)
    (hw : write ∈ x.e.actionTrace) : Gives (x.getFixesFromPatternB curInfer read write) := by
  obtain ⟨paths1,hpaths1,hall1⟩ := hs read hr write hw
  obtain ⟨paths2,hpaths2,hall2⟩ := hs write hw read hr
  have hrest : ∀ res, (∀ infer ∈ res, infer.Sized) → Gives (do
      let paths2 ← x.paths write read
      let candidates ← x.imposeSync curInfer write read paths2 []
      pure (res ++ candidates)) := by
    intro res hres
    rw [hpaths2]
    refine (h.imposeSync hall2 _ _ (by simp)).bind fun candidates hcandidates => ?_
    exact .pure fun infer hinfer => (List.mem_append.mp hinfer).elim (hres infer)
      (hcandidates infer)
  rw [getFixesFromPatternB,hpaths1]
  change Gives (if paths1.isEmpty = true then _ else _)
  split
  · exact hrest [] (by simp)
  · exact (h.imposeSync hall1 _ _ (by simp)).bind hrest

/-! ### Reads of old values -/

variable {l : List ActionId} {lastwrmap : Location → Option ActionId}

theorem mem_badReads (h : read ∈ x.badReads l lastwrmap) :
    read ∈ l ∧ (x.e.acts read).isRead = true := by
  induction l generalizing lastwrmap with
  | nil => cases h
  | cons act l ih =>
    rw [badReads] at h
    split at h
    · rename_i hbad
      rcases List.mem_cons.mp h with rfl | h
      · simp only [Bool.and_eq_true] at hbad
        exact ⟨List.mem_cons_self ..,hbad.1.1⟩
      · exact ⟨List.mem_cons_of_mem _ (ih h).1,(ih h).2⟩
    · exact ⟨List.mem_cons_of_mem _ (ih h).1,(ih h).2⟩

/-- A read directly behind the write it reads is no bad one. -/
theorem not_bad_of_adjacent {pre post : List ActionId} (hl : l = pre ++ write :: read :: post)
    (hnodup : l.Nodup) (hrf : (x.e.acts read).readsFrom = some write)
    (hwrite : (x.e.acts write).isWrite = true)
    (hloc : (x.e.acts write).location = (x.e.acts read).location) :
    read ∉ x.badReads l lastwrmap := by
  intro h
  induction pre generalizing l lastwrmap with
  | nil =>
    subst hl
    obtain ⟨hwr,hnodup⟩ := List.nodup_cons.mp hnodup
    have hread := (List.nodup_cons.mp hnodup).1
    have hne : read ≠ write := fun heq => hwr (heq ▸ List.mem_cons_self ..)
    rw [List.nil_append,badReads,badReads] at h
    simp only [hwrite,if_pos,hloc,hrf,Function.update_self,bne_self_eq_false,Bool.and_false,
      Bool.false_eq_true,if_false] at h
    split at h
    · rcases List.mem_cons.mp h with h | h
      · exact hne h
      · exact hread (mem_badReads h).1
    · exact hread (mem_badReads h).1
  | cons act pre ih =>
    subst hl
    rw [List.cons_append] at h hnodup
    obtain ⟨hact,hnodup⟩ := List.nodup_cons.mp hnodup
    have hne : read ≠ act := by
      rintro rfl
      exact hact (by simp)
    rw [badReads] at h
    split at h
    · exact ih rfl hnodup ((List.mem_cons.mp h).resolve_left hne)
    · exact ih rfl hnodup h

theorem Ready.patternA (h : Ready x list curInfer) (hs : x.Searches)
    (hbad : read ∈ x.badReads list x.lastwrmap) (hrf : (x.e.acts read).readsFrom = some write)
    (hold : write ∈ list.takeWhile (· != read)) :
    Gives (x.getFixesFromPatternA list curInfer read write) := by
  have hnodup := h.nodup
  obtain ⟨hmem,hread⟩ := mem_badReads hbad
  have hr := h.perm.subset hmem
  obtain ⟨hwrite,hloc⟩ := h.sources read hr hread write hrf
  have hw : write ∈ x.e.actionTrace := h.perm.subset ((List.takeWhile_prefix _).subset hold)
  obtain ⟨acts,hacts,hsub⟩ : ∃ acts, between list read write = .ok acts ∧ ∀ a ∈ acts, a ∈ list := by
    obtain ⟨pre,mid,hsplit⟩ := List.append_of_mem hold
    obtain ⟨post,hpost⟩ : ∃ post, list.dropWhile (· != read) = read :: post :=
      List.head?_eq_some_iff.mp (head?_dropWhile hmem)
    have hlist : list = pre ++ write :: (mid ++ read :: post) := by
      rw [← List.takeWhile_append_dropWhile (p := (· != read)) (l := list),hsplit,hpost]
      simp
    have hpre : write ∉ pre := by
      rw [hlist] at hnodup
      exact fun hmem => (List.nodup_append.mp hnodup).2.2 write hmem write
        (List.mem_cons_self ..) rfl
    cases mid with
    | nil => exact absurd hbad (not_bad_of_adjacent hlist hnodup hrf hwrite hloc)
    | cons act mid =>
      refine ⟨act :: (mid ++ read :: post).takeWhile (· != read),?_,fun a ha => ?_⟩
      · rw [between,hlist,dropWhile_ne_append hpre]
        simp
      · rw [hlist]
        rcases List.mem_cons.mp ha with rfl | ha
        · simp
        · have hin := (List.takeWhile_prefix _).subset ha
          exact List.mem_append_right _ (List.mem_cons_of_mem _ (List.mem_cons_of_mem _ hin))
  rw [getFixesFromPatternA,hacts]
  exact h.fixWrite2s hs hr hw fun a ha => h.perm.subset (hsub a (List.mem_filter.mp ha).1)

end SCFence
end CdsChecker
