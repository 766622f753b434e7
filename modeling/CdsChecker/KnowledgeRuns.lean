import CdsChecker.FenceRecord
import CdsChecker.KnowledgeSteps

/-! Happens-before all along a run: the clock vectors are exact in every reachable configuration. -/
namespace CdsChecker
namespace Execution

open VectorClocks Relation

variable {e e' : Execution} {q : ActionId}

/-! ### New actions -/

theorem addActionToLists_rest {params : ExecutionParams} {act : ActionId}
    (h : e.addActionToLists params act = .ok e') :
    (∀ a, e'.numActs ≤ a → e'.acts a = e.acts a) ∧
      (∀ a, e.numActs ≤ a → a < e'.numActs → (e'.acts a).lastFenceRelease = none) ∧
      e'.pendingRelSeqs = e.pendingRelSeqs := by
  obtain ⟨_,_,h⟩ := bind_eq_ok.mp h
  dsimp only at h
  set e₁ := if ((e.objMap (e.acts act).location).isEmpty && (e.acts act).isAtomicVar) = true then
      ((e.pushed act).getUninitializedAction params (e.acts act).location).1.pushUninit
        (e.acts act).location e.numActs
    else e.pushed act with he₁
  have hfirst : (∀ a, e₁.numActs ≤ a → e₁.acts a = e.acts a) ∧
      (∀ a, e.numActs ≤ a → a < e₁.numActs → (e₁.acts a).lastFenceRelease = none) ∧
      e₁.pendingRelSeqs = e.pendingRelSeqs := by
    rw [he₁]
    split
    · refine ⟨fun a ha => ?_,fun a ha ha' => ?_,rfl⟩
      · have hne : a ≠ e.numActs := (Nat.lt_of_succ_le ha).ne'
        simp [pushUninit,getUninitializedAction,pushed,pushObj,pushObjThrd,hne]
      · obtain rfl : a = e.numActs := Nat.le_antisymm (Nat.lt_succ_iff.mp ha') ha
        simp [pushUninit,getUninitializedAction,pushed,pushObj,pushObjThrd,ModelAction.createCv]
    · exact ⟨fun _ _ => rfl,fun a ha ha' => absurd ha' (not_lt.mpr ha),rfl⟩
  set e₂ := if ((e.acts act).isFence && (e.acts act).isRelease) = true then
      { e₁ with thrdLastFenceRelease := e₁.setLast e₁.thrdLastFenceRelease act }
    else e₁ with he₂
  have hsame : e₂.acts = e₁.acts ∧ e₂.numActs = e₁.numActs ∧
    e₂.pendingRelSeqs = e₁.pendingRelSeqs := by
    rw [he₂]
    split <;> exact ⟨rfl,rfl,rfl⟩
  have hsecond : (∀ a, e₂.numActs ≤ a → e₂.acts a = e.acts a) ∧
      (∀ a, e.numActs ≤ a → a < e₂.numActs → (e₂.acts a).lastFenceRelease = none) ∧
      e₂.pendingRelSeqs = e.pendingRelSeqs := by
    rw [hsame.1,hsame.2.1,hsame.2.2]
    exact hfirst
  by_cases hwait : (e.acts act).isWait = true
  · rw [if_pos hwait] at h
    obtain ⟨_,_,h⟩ := bind_eq_ok.mp h
    obtain rfl : _ = e' := Except.ok.inj h
    exact hsecond
  · rw [if_neg hwait] at h
    obtain rfl : e₂ = e' := Except.ok.inj h
    exact hsecond

theorem Recorded.numbered (h : e.Recorded) {a : ActionId} (ha : a ∈ e.actionTrace)
    (hne : (e.acts a).tid ≠ 0) : 0 < (e.acts a).seqNumber := by
  obtain ⟨us,rest,hsplit,hus,hrest,-⟩ := h.parts
  rw [hsplit,List.mem_append] at ha
  rcases ha with ha | ha
  · exact absurd (hus a ha) hne
  · exact (hrest a ha).2

/-- The new action knows what its parent knows, and nobody knows of it yet. -/
theorem enters_newAction {act : ModelAction} (hc : e.Clocked) (hv : e.Valid) (hr : e.Recorded)
    (hs : e.Started) (hl : e.Listed) (huser : act.tid ≠ 0) :
    Enters e.clocks e.numActs act.tid (e.usedSequenceNumbers + 1) (e.getParentAction act.tid) where
  free := (hc.free e.numActs le_rfl).2.2.1
  newest b := by
    refine Nat.lt_succ_of_le ?_
    rcases Nat.eq_zero_or_pos (e.acts b).seqNumber with hzero | hpos
    · exact hzero.trans_le (Nat.zero_le _)
    · exact (hr.old b (hc.listed b hpos)).2.1
  earlier a htid hpos := by
    have htid : (e.acts a).tid = act.tid := htid
    have hmem := hc.listed a hpos
    obtain ⟨p,hp⟩ := Option.ne_none_iff_exists'.mp (htid ▸ hs.acted a hmem (htid ▸ huser))
    refine ⟨p,by rw [getParentAction,hp],?_⟩
    have hpt := (hv.last act.tid p huser hp).2.1
    have hle := hl.last act.tid p huser hp a hmem htid
    have hown := hc.sound.own p
    change (e.acts a).seqNumber ≤ (e.acts p).cv.getClock (e.acts a).tid
    rw [htid,← hpt]
    exact hle.trans_eq hown.symm

/-- The new action is last in the trace, and all that is new beside it are uninitialized actions. -/
structure Arrives (e e' : Execution) (act : ModelAction) : Prop where
  self : e'.acts e.numActs = (e.newAction act).1.acts e.numActs
  same : ∀ a, a < e.numActs ∨ e'.numActs ≤ a → e'.acts a = e.acts a
  uninit : ∀ a, e.numActs < a → a < e'.numActs → (e'.acts a).order = .relaxed ∧
    (e'.acts a).lastFenceRelease = none ∧ (e'.acts a).tid = 0 ∧ (e'.acts a).seqNumber = 0 ∧
    (e'.acts a).cv = ClockVector.create none 0 0
  numActs : e.numActs < e'.numActs
  actionTrace : ∃ us, e'.actionTrace = us ++ e.actionTrace ++ [e.numActs] ∧
    ∀ u ∈ us, e.numActs < u ∧ u < e'.numActs
  threads : e'.threads = e.threads
  pending : e'.pendingRelSeqs = e.pendingRelSeqs
  synchronized : e'.synchronized = e.synchronized
  bad : e'.badSynchronization = e.badSynchronization

theorem addActionToLists_arrives {params : ExecutionParams} {act : ModelAction}
    (hadd : (e.newAction act).1.addActionToLists params e.numActs = .ok e')
    (hthread : act.tid < e.threads.length) : Arrives e e' act := by
  have htid : ((e.newAction act).1.acts e.numActs).tid < (e.newAction act).1.getNumThreads := by
    rw [newAction_act]
    exact hthread
  have hadded := addActionToLists_added hadd htid
  have hrelaxed := (addActionToLists_fence hadd (Nat.lt_succ_self _) htid).2
  obtain ⟨hfree,hfences,hpending⟩ := addActionToLists_rest hadd
  refine ⟨hadded.acts e.numActs (Nat.lt_succ_self _),fun a ha => ?_,fun a ha ha' => ?_,
    Nat.lt_of_succ_le hadded.numActs,hadded.actionTrace,hadded.threads,hpending,
    hadded.synchronized,hadded.badSynchronization⟩
  · rcases ha with ha | ha
    · exact (hadded.acts a (Nat.lt_succ_of_lt ha)).trans (newAction_acts e act ha.ne)
    · exact (hfree a ha).trans (newAction_acts e act (lt_of_lt_of_le hadded.numActs ha).ne')
  · obtain ⟨-,htid,hseq,hcv⟩ := hadded.uninit a ha ha'
    exact ⟨hrelaxed a ha ha',hfences a ha ha',htid,hseq,hcv⟩

namespace Arrives

variable {act : ModelAction}

theorem self_eq (h : Arrives e e' act) : (e'.acts e.numActs).tid = act.tid ∧
    (e'.acts e.numActs).seqNumber = e.usedSequenceNumbers + 1 ∧
    (e'.acts e.numActs).lastFenceRelease = e.getLastFenceRelease act.tid ∧
    ∀ t, (e'.acts e.numActs).cv.getClock t = if t = act.tid then e.usedSequenceNumbers + 1
      else ((e.getParentAction act.tid).map fun p => (e.acts p).cv.getClock t).getD 0 := by
  rw [h.self,newAction_act]
  refine ⟨rfl,rfl,rfl,fun t => ?_⟩
  rw [ClockVector.getClock_create,Option.map_map,Option.map_map]
  rfl

/-- Any other action is as before, or it has no number. -/
theorem other (h : Arrives e e' act) {a : ActionId} (ha : a ≠ e.numActs) :
    e'.acts a = e.acts a ∨ e.numActs < a ∧ a < e'.numActs := by
  rcases Nat.lt_or_ge a e'.numActs with hlt | hge
  · rcases Nat.lt_or_ge a e.numActs with hlt' | hge'
    · exact .inl (h.same a (.inl hlt'))
    · exact .inr ⟨lt_of_le_of_ne hge' (Ne.symm ha),hlt⟩
  · exact .inl (h.same a (.inr hge))

theorem numbers (h : Arrives e e' act) (hc : e.Clocked) {a : ActionId} (ha : a ≠ e.numActs) :
    (e'.acts a).tid = (e.acts a).tid ∧ (e'.acts a).seqNumber = (e.acts a).seqNumber ∧
      ∀ t, (e'.acts a).cv.getClock t = (e.acts a).cv.getClock t := by
  rcases h.other ha with hsame | ⟨hgt,hlt⟩
  · rw [hsame]
    exact ⟨rfl,rfl,fun _ => rfl⟩
  · obtain ⟨-,-,htid,hseq,hcv⟩ := h.uninit a hgt hlt
    obtain ⟨-,htid',hseq',hclock⟩ := hc.free a hgt.le
    refine ⟨htid.trans htid'.symm,hseq.trans hseq'.symm,fun t => ?_⟩
    rw [hcv,hclock,ClockVector.getClock_create]
    simp

theorem clocks (h : Arrives e e' act) (hc : e.Clocked) : e'.clocks =
    enter e.clocks e.numActs act.tid (e.usedSequenceNumbers + 1) (e.getParentAction act.tid) := by
  obtain ⟨htid,hseq,-,hclock⟩ := h.self_eq
  unfold Execution.clocks enter
  rw [Clocks.mk.injEq]
  refine ⟨?_,?_,?_⟩ <;> funext a <;> by_cases ha : a = e.numActs
  · rw [ha,Function.update_self,htid]
  · rw [Function.update_of_ne ha,(h.numbers hc ha).1]
  · rw [ha,Function.update_self,hseq]
  · rw [Function.update_of_ne ha,(h.numbers hc ha).2.1]
  · rw [ha,Function.update_self]
    funext t
    exact hclock t
  · rw [Function.update_of_ne ha]
    funext t
    exact (h.numbers hc ha).2.2 t

theorem mem_actionTrace (h : Arrives e e' act) {a : ActionId} (ha : a ∈ e'.actionTrace) :
    a = e.numActs ∨ a ∈ e.actionTrace ∨ e.numActs < a ∧ a < e'.numActs := by
  obtain ⟨us,htrace,hus⟩ := h.actionTrace
  rw [htrace,List.mem_append,List.mem_append,List.mem_singleton] at ha
  rcases ha with (ha | ha) | ha
  · exact .inr (.inr (hus a ha))
  · exact .inr (.inl ha)
  · exact .inl ha

theorem mem_of_mem (h : Arrives e e' act) {a : ActionId} (ha : a ∈ e.actionTrace) :
    a ∈ e'.actionTrace := by
  obtain ⟨us,htrace,-⟩ := h.actionTrace
  simp [htrace,ha]

theorem self_mem (h : Arrives e e' act) : e.numActs ∈ e'.actionTrace := by
  obtain ⟨us,htrace,-⟩ := h.actionTrace
  simp [htrace]

theorem creationOf (h : Arrives e e' act) (t : ThreadId) : e'.creationOf t = e.creationOf t := by
  rw [Execution.creationOf,h.threads]
  rfl

theorem hbEdge (h : Arrives e e' act) (hc : e.Clocked) (hr : e.Recorded) {a b : ActionId}
    (hab : e.HbEdge a b) : e'.HbEdge a b := by
  have hsame : ∀ a ∈ e.actionTrace, e'.acts a = e.acts a := fun a ha =>
    h.same a (.inl (hc.old a ha))
  cases hab with
  | program ha hb htid hseq =>
    refine .program (h.mem_of_mem ha) (h.mem_of_mem hb) ?_ ?_
    · rw [hsame a ha,hsame b hb,htid]
    · rw [hsame a ha,hsame b hb]
      exact hseq
  | create hcreate hb hfirst =>
    refine .create ?_ (h.mem_of_mem hb) fun b' hb' htid => ?_
    · rw [h.creationOf,hsame b hb]
      exact hcreate
    · rw [hsame b hb] at htid ⊢
      rcases h.mem_actionTrace hb' with rfl | hb' | ⟨hgt,hlt⟩
      · rw [h.self_eq.2.1]
        exact ((hr.old b hb).2.1).trans (Nat.le_succ _)
      · rw [hsame b' hb'] at htid ⊢
        exact hfirst b' hb' htid
      · rw [(h.uninit b' hgt hlt).2.2.1] at htid
        refine Nat.le_of_not_lt fun hpos => ?_
        exact hc.user b (Nat.zero_lt_of_lt hpos) htid.symm
  | synchronized hab => exact .synchronized (h.synchronized ▸ hab)

/-- The parent is the last action of the thread, or the one that has created it. -/
theorem parentEdge (h : Arrives e e' act) (hc : e.Clocked) (hv : e.Valid) (hr : e.Recorded)
    (hs : e.Started) (huser : act.tid ≠ 0) {p : ActionId}
    (hp : e.getParentAction act.tid = some p) : e'.HbEdge p e.numActs := by
  obtain ⟨htid,hseq,-,-⟩ := h.self_eq
  unfold getParentAction at hp
  split at hp
  · rename_i p' hlast
    obtain rfl := Option.some.inj hp
    have hmem := hr.last act.tid p' huser hlast
    refine .program (h.mem_of_mem hmem) h.self_mem ?_ ?_
    · rw [h.same p' (.inl (hc.old p' hmem)),htid]
      exact (hv.last act.tid p' huser hlast).2.1
    · rw [h.same p' (.inl (hc.old p' hmem)),hseq]
      exact Nat.lt_succ_of_le (hr.old p' hmem).2.1
  · rename_i hlast
    refine .create ?_ h.self_mem fun b hb hb' => ?_
    · rw [htid,h.creationOf]
      exact hp
    · rw [htid] at hb'
      rcases h.mem_actionTrace hb with rfl | hb | ⟨hgt,hlt⟩
      · exact le_rfl
      · rw [h.same b (.inl (hc.old b hb))] at hb'
        exact absurd hlast (hb' ▸ hs.acted b hb (hb' ▸ huser))
      · exact absurd ((h.uninit b hgt hlt).2.2.1.symm.trans hb') (Ne.symm huser)

/-- An action with a number before is there with it now. -/
theorem pos (h : Arrives e e' act) (hc : e.Clocked) {a : ActionId}
    (ha : 0 < (e.acts a).seqNumber) : 0 < (e'.acts a).seqNumber := by
  rw [h.same a (.inl (hc.lt_of_pos ha))]
  exact ha

theorem fences (h : Arrives e e' act) (hc : e.Clocked) (hr : e.Recorded) (hf : e.Fenced)
    (huser : act.tid ≠ 0) (a f : ActionId) (hlast : (e'.acts a).lastFenceRelease = some f) :
    0 < (e'.acts f).seqNumber := by
  by_cases ha : a = e.numActs
  · rw [ha,h.self_eq.2.2.1,hf.release] at hlast
    have hmem := List.mem_reverse.mp (List.mem_of_find?_eq_some hlast)
    have hfence := List.find?_some hlast
    rw [isReleaseFence,Bool.and_eq_true,beq_iff_eq] at hfence
    exact h.pos hc (hr.numbered hmem (hfence.1 ▸ huser))
  · rcases h.other ha with hsame | ⟨hgt,hlt⟩
    · rw [hsame] at hlast
      exact h.pos hc (hc.fences a f hlast)
    · rw [(h.uninit a hgt hlt).2.1] at hlast
      cases hlast

/-- What creates the thread of an action is known to it. -/
theorem created (h : Arrives e e' act) (hc : e.Clocked) (hv : e.Valid) (hr : e.Recorded)
    (hs : e.Started) (hl : e.Listed) (huser : act.tid ≠ 0) (b c : ActionId)
    (hb : 0 < (e'.acts b).seqNumber) (hcreate : e'.creationOf (e'.acts b).tid = some c) :
    Knows e'.clocks c b := by
  have henters := enters_newAction hc hv hr hs hl huser
  rw [h.clocks hc]
  rw [h.creationOf] at hcreate
  by_cases hbn : b = e.numActs
  · subst hbn
    rw [h.self_eq.1] at hcreate
    obtain ⟨th,hth,hcreation⟩ := Option.bind_eq_some_iff.mp hcreate
    have hcn : c ≠ e.numActs := (hc.old c (hr.created act.tid th c hth huser hcreation).1).ne
    have hparent : ∃ p, e.getParentAction act.tid = some p ∧ Knows e.clocks c p := by
      unfold getParentAction
      split
      · rename_i p hlast
        have hmem := hr.last act.tid p huser hlast
        have htid := (hv.last act.tid p huser hlast).2.1
        refine ⟨p,rfl,hc.created p c (hr.numbered hmem (htid ▸ huser)) ?_⟩
        rw [htid]
        exact hcreate
      · exact ⟨c,hcreate,hc.sound.knows_self c⟩
    obtain ⟨p,hp,hknows⟩ := hparent
    have hle := enter_know_parent hc.sound henters hp (e.clocks.tid c)
    unfold Knows
    rw [enter_seq_of_ne hcn,enter_tid_of_ne hcn]
    exact hknows.trans hle
  · obtain ⟨htid,hseq,-⟩ := h.numbers hc hbn
    rw [hseq] at hb
    rw [htid] at hcreate
    obtain ⟨th,hth,hcreation⟩ := Option.bind_eq_some_iff.mp hcreate
    have hmem := (hr.created _ th c hth (hc.user b hb) hcreation).1
    exact (knows_enter_of_ne (hc.old c hmem).ne hbn).mpr (hc.created b c hb hcreate)

theorem clocked (h : Arrives e e' act) (hc : e.Clocked) (hv : e.Valid) (hr : e.Recorded)
    (hs : e.Started) (hl : e.Listed) (hf : e.Fenced) (huser : act.tid ≠ 0) : e'.Clocked := by
  have henters := enters_newAction hc hv hr hs hl huser
  obtain ⟨htid,hseq,-,-⟩ := h.self_eq
  obtain ⟨us,htrace,hus⟩ := h.actionTrace
  constructor
  · rw [h.clocks hc]
    exact hc.sound.enter henters
  · intro a ha
    by_cases han : a = e.numActs
    · rw [han,htid]
      exact huser
    · rw [(h.numbers hc han).2.1] at ha
      rw [(h.numbers hc han).1]
      exact hc.user a ha
  · intro a ha
    by_cases han : a = e.numActs
    · exact han ▸ h.self_mem
    · rw [(h.numbers hc han).2.1] at ha
      exact h.mem_of_mem (hc.listed a ha)
  · intro a ha
    rcases h.mem_actionTrace ha with rfl | ha | ⟨-,hlt⟩
    · exact h.numActs
    · exact (hc.old a ha).trans h.numActs
    · exact hlt
  · rw [htrace,List.append_assoc]
    refine List.pairwise_append.mpr
      ⟨?_,List.pairwise_append.mpr ⟨?_,List.pairwise_singleton _ _,?_⟩,?_⟩
    · exact List.pairwise_of_forall_mem_list fun a ha b _ hne =>
        absurd (h.uninit a (hus a ha).1 (hus a ha).2).2.2.1 hne
    · refine hc.sorted.imp_of_mem fun ha hb hab => ?_
      rw [h.same _ (.inl (hc.old _ ha)),h.same _ (.inl (hc.old _ hb))]
      exact hab
    · intro a ha b hb _
      rw [List.mem_singleton.mp hb,htid,hseq,h.same a (.inl (hc.old a ha))]
      exact ⟨huser,Nat.lt_succ_of_le (hr.old a ha).2.1⟩
    · exact fun a ha b _ hne => absurd (h.uninit a (hus a ha).1 (hus a ha).2).2.2.1 hne
  · intro a ha
    rw [h.same a (.inr ha)]
    exact hc.free a (h.numActs.le.trans ha)
  · intro a ha
    by_cases han : a = e.numActs
    · rw [han,hseq] at ha
      cases ha
    · rcases h.other han with hsame | ⟨hgt,hlt⟩
      · rw [hsame] at ha ⊢
        exact hc.relaxed a ha
      · exact (h.uninit a hgt hlt).1
  · exact h.fences hc hr hf huser
  · intro s hs' r hr'
    rw [h.pending] at hs'
    exact h.pos hc (hc.releases s hs' r hr')
  · intro x hx
    rw [h.synchronized] at hx
    obtain ⟨hlt,hknows⟩ := hc.known x hx
    refine ⟨hlt.trans h.numActs,?_⟩
    rw [h.clocks hc]
    by_cases hx₂ : x.2 = e.numActs
    · -- a free action knows nothing with a number
      have hzero : e.clocks.seq x.1 = 0 := by
        have hfree := hc.sound.know_zero henters.free (e.clocks.tid x.1)
        rw [Knows,hx₂,hfree] at hknows
        exact Nat.le_zero.mp hknows
      unfold Knows
      rw [enter_seq_of_ne hlt.ne,hzero]
      exact Nat.zero_le _
    · exact (knows_enter_of_ne hlt.ne hx₂).mpr hknows
  · exact (h.creationOf 0).trans hc.root
  · exact h.created hc hv hr hs hl huser
  · rw [h.clocks hc]
    exact hc.backed.enter henters.free (fun a b hab => h.hbEdge hc hr hab)
      fun p hp => h.parentEdge hc hv hr hs huser hp

end Arrives

theorem Arrives.informed {act : ModelAction} (h : Arrives e e' act) (hi : e.Informed) (hv : e.Valid)
    (hr : e.Recorded) (hs : e.Started) (hl : e.Listed) (hf : e.Fenced) (huser : act.tid ≠ 0) :
    e'.Informed ∧ e'.Unknown e.numActs := by
  have henters := enters_newAction hi.toClocked hv hr hs hl huser
  have hclocks := h.clocks hi.toClocked
  refine ⟨⟨h.clocked hi.toClocked hv hr hs hl hf huser,?_⟩,fun b hb => ?_⟩
  · rw [hclocks]
    exact hi.closed.enter hi.sound henters
  · rw [hclocks] at hb
    by_contra hne
    exact not_knows_enter hi.sound henters hne hb

/-! ### The start of a step -/

/-- What is known of the actions with a number stays known. -/
structure Advances (e e' : Execution) : Prop where
  same : ∀ a, 0 < (e.acts a).seqNumber → (e'.acts a).tid = (e.acts a).tid ∧
    (e'.acts a).seqNumber = (e.acts a).seqNumber ∧
    ∀ t, (e.acts a).cv.getClock t ≤ (e'.acts a).cv.getClock t
  bad : e.badSynchronization = true → e'.badSynchronization = true

theorem Advances.refl (e : Execution) : Advances e e :=
  ⟨fun _ _ => ⟨rfl,rfl,fun _ => le_rfl⟩,id⟩

theorem Advances.trans {e'' : Execution} (h : Advances e e') (h' : Advances e' e'') :
    Advances e e'' where
  same a ha := by
    obtain ⟨htid,hseq,hclock⟩ := h.same a ha
    obtain ⟨htid',hseq',hclock'⟩ := h'.same a (hseq ▸ ha)
    exact ⟨htid'.trans htid,hseq'.trans hseq,fun t => (hclock t).trans (hclock' t)⟩
  bad := fun hb => h'.bad (h.bad hb)

theorem Gains.advances (h : Gains e e') : Advances e e' :=
  ⟨fun a _ => ⟨h.tid a,h.seqNumber a,h.know a⟩,h.bad⟩

theorem Quiet.advances (h : Quiet e e') : Advances e e' := h.grows.toGains.advances

theorem Advances.knows (h : Advances e e') {a b : ActionId} (ha : 0 < (e.acts a).seqNumber)
    (hb : 0 < (e.acts b).seqNumber) (hab : Knows e.clocks a b) : Knows e'.clocks a b := by
  obtain ⟨htid,hseq,-⟩ := h.same a ha
  have hle := hab.trans ((h.same b hb).2.2 _)
  unfold Knows
  change (e'.acts a).seqNumber ≤ (e'.acts b).cv.getClock (e'.acts a).tid
  rw [hseq,htid]
  exact hle

theorem Arrives.advances {act : ModelAction} (h : Arrives e e' act) (hc : e.Clocked) :
    Advances e e' where
  same a ha := by
    rw [h.same a (.inl (hc.lt_of_pos ha))]
    exact ⟨rfl,rfl,fun _ => le_rfl⟩
  bad := fun hb => h.bad.trans hb

/-- The second part of an RMW. -/
theorem processRmw_informed {act : ModelAction} {last : ActionId} (h : e.Informed)
    (hact : (act.isRmwc || act.isRmw) = true)
    (hread : ∀ a, e.getLastAction act.tid = some a → (e.acts a).isRmwr = true)
    (hnumbered : ∀ a, e.getLastAction act.tid = some a → 0 < (e.acts a).seqNumber)
    (hrmw : e.processRmw act = .ok (e',last)) :
    e'.Informed ∧ Gains e e' ∧ (e'.acts last).isRead = true := by
  unfold processRmw at hrmw
  split at hrmw
  · cases hrmw
  rename_i lastread hlast
  dsimp only at hrmw
  set e₁ := e.modifyAct lastread fun a => a.processRmw act with he₁
  have hself : e₁.acts lastread = (e.acts lastread).processRmw act := by
    simp [he₁,modifyAct]
  have hother : ∀ a, a ≠ lastread → e₁.acts a = e.acts a := fun a ha => by
    simp [he₁,modifyAct,ha]
  have hplaces := ModelAction.Places.processRmw hact (hread lastread hlast)
  have hrest : ((e.acts lastread).processRmw act).cv = (e.acts lastread).cv ∧
      ((e.acts lastread).processRmw act).lastFenceRelease = (e.acts lastread).lastFenceRelease ∧
      ((e.acts lastread).processRmw act).isRead = true := by
    unfold ModelAction.processRmw
    cases hc : act.isRmwc with
    | true => exact ⟨rfl,rfl,rfl⟩
    | false =>
      have hr : act.isRmw = true := by simpa [hc] using hact
      rw [if_neg (by simp),if_pos hr]
      exact ⟨rfl,rfl,rfl⟩
  have hclocks : e₁.clocks = e.clocks := by
    unfold Execution.clocks
    rw [Clocks.mk.injEq]
    refine ⟨?_,?_,?_⟩ <;> funext a <;> by_cases ha : a = lastread
    · rw [ha,hself,hplaces.tid]
    · rw [hother a ha]
    · rw [ha,hself,hplaces.seqNumber]
    · rw [hother a ha]
    · rw [ha,hself,hrest.1]
    · rw [hother a ha]
  have hinformed : e₁.Informed := by
    refine ⟨h.toClocked.same hclocks rfl rfl rfl (fun _ => rfl) rfl (fun a ha => ?_) fun a => ?_,
      hclocks ▸ h.closed⟩
    · rw [hother a fun hal => (hnumbered lastread hlast).ne' (hal ▸ ha)]
      exact ⟨rfl,rfl⟩
    · by_cases ha : a = lastread
      · rw [ha,hself,hrest.2.1]
      · rw [hother a ha]
  have hgains : Gains e e₁ := by
    refine ⟨fun a => congrFun (congrArg Clocks.tid hclocks) a,
      fun a => congrFun (congrArg Clocks.seq hclocks) a,fun a t => ?_,id⟩
    exact (congrFun (congrFun (congrArg Clocks.know hclocks) a) t).ge
  have hisread : (e₁.acts lastread).isRead = true := by
    rw [hself]
    exact hrest.2.2
  split at hrmw
  · obtain ⟨rfl,rfl⟩ : e₁ = e' ∧ lastread = last := by simpa using hrmw
    exact ⟨hinformed,hgains,hisread⟩
  · split at hrmw
    · cases hrmw
    · obtain ⟨g,_,hrmw⟩ := bind_eq_ok.mp hrmw
      obtain ⟨rfl,rfl⟩ : _ = e' ∧ lastread = last := by simpa using hrmw
      have hquiet : Quiet e₁ ({ e₁ with moGraph := g } : Execution).commitChanges :=
        ⟨rfl,rfl,rfl,rfl,id,fun _ => rfl,rfl,fun _ => .refl _⟩
      exact ⟨hinformed.quiet hquiet,hgains.trans hquiet.grows.toGains,hisread⟩

theorem checkRead_quiet {newlyExplored : Bool} {source : ReadSource}
    (h : e.checkRead q newlyExplored source = some e') : Quiet e e' := by
  obtain ⟨⟨built,past,promises⟩,hbuilt,h⟩ := Option.bind_eq_some_iff.mp h
  obtain ⟨_,_,h⟩ := Option.bind_eq_some_iff.mp h
  obtain rfl : _ = e' := Option.some.inj h
  split
  · exact buildMayReadFrom_quiet (toOption_eq_some.mp hbuilt)
  · exact .refl e

/-- A step starts with an action that nobody knows of, or completes a read. -/
theorem beginAction_informed {params : ExecutionParams} {act : ModelAction} {newlyExplored : Bool}
    {node : Choices} (hbegin : e.beginAction params act newlyExplored node = some (e',q))
    (h : e.Informed) (hv : e.Valid) (hr : e.Recorded) (hs : e.Started) (hl : e.Listed)
    (hf : e.Fenced) (huser : act.tid ≠ 0) (hthread : act.tid < e.threads.length)
    (hrmwr : (act.isRmwc || act.isRmw) = true → ∀ a, e.getLastAction act.tid = some a →
      (e.acts a).isRmwr = true) : e'.Informed ∧ Advances e e' ∧
      ((act.isRmwc || act.isRmw) = true ∧ (e'.acts q).isRead = true ∨
        (act.isRmwc || act.isRmw) = false ∧ e'.Unknown q) := by
  obtain ⟨⟨e₁,curr₁⟩,hinit,hbegin⟩ := Option.bind_eq_some_iff.mp hbegin
  have hinit := toOption_eq_some.mp hinit
  obtain ⟨_,_,hbegin⟩ := Option.bind_eq_some_iff.mp hbegin
  unfold initializeCurrAction at hinit
  by_cases hsecond : (act.isRmwc || act.isRmw) = true
  · rw [if_pos hsecond] at hinit
    rw [if_pos hsecond] at hbegin
    obtain ⟨rfl,rfl⟩ : e₁ = e' ∧ curr₁ = q := by simpa using hbegin
    obtain ⟨hinformed,hgains,hread⟩ := processRmw_informed h hsecond (hrmwr hsecond)
      (fun a ha => hr.numbered (hr.last _ a huser ha) ((hv.last _ a huser ha).2.1 ▸ huser)) hinit
    exact ⟨hinformed,hgains.advances,.inl ⟨hsecond,hread⟩⟩
  · rw [if_neg hsecond] at hinit
    rw [if_neg hsecond] at hbegin
    obtain ⟨rfl,rfl⟩ : (e.newAction act).1 = e₁ ∧ e.numActs = curr₁ := by
      simpa [newAction] using hinit
    obtain ⟨_,_,hbegin⟩ := Option.bind_eq_some_iff.mp hbegin
    obtain ⟨e₂,hadd,hbegin⟩ := Option.bind_eq_some_iff.mp hbegin
    have harrives := addActionToLists_arrives (toOption_eq_some.mp hadd) hthread
    obtain ⟨hinformed,hunknown⟩ := harrives.informed h hv hr hs hl hf huser
    have hadvances := harrives.advances h.toClocked
    split at hbegin
    · obtain ⟨e₃,hread,hbegin⟩ := Option.bind_eq_some_iff.mp hbegin
      obtain ⟨rfl,rfl⟩ : e₃ = e' ∧ e.numActs = q := by simpa using hbegin
      have hquiet := checkRead_quiet hread
      exact ⟨hinformed.quiet hquiet,hadvances.trans hquiet.advances,
        .inr ⟨Bool.not_eq_true _ ▸ hsecond,hunknown.quiet hquiet⟩⟩
    · obtain ⟨rfl,rfl⟩ : e₂ = e' ∧ e.numActs = q := by simpa using hbegin
      exact ⟨hinformed,hadvances,.inr ⟨Bool.not_eq_true _ ▸ hsecond,hunknown⟩⟩

theorem informed_init : Execution.init.Informed := by
  have hnone : ∀ a t, (Execution.init.acts a).cv.getClock t = 0 := fun _ _ => rfl
  have hnever : ∀ a, ¬ 0 < (Execution.init.acts a).seqNumber := fun _ h => by cases h
  refine ⟨?_,fun a _ _ t => (hnone a t).le⟩
  constructor
  · exact ⟨fun _ => rfl,fun a t => (hnone a t).le⟩
  · exact fun a ha => absurd ha (hnever a)
  · exact fun a ha => absurd ha (hnever a)
  · simp [Execution.init]
  · exact List.Pairwise.nil
  · exact fun a _ => ⟨rfl,rfl,rfl,hnone a⟩
  · exact fun _ _ => rfl
  · intro _ _ h
    cases h
  · simp [Execution.init]
  · simp [Execution.init]
  · rfl
  · exact fun b _ hb => absurd hb (hnever b)
  · exact fun b t hb => absurd (hnone b t) (Nat.ne_of_gt hb)

end Execution
namespace Config

open Execution VectorClocks Relation

variable {params : ExecutionParams} {c c' : Config}

/-- Everything that is known is passed on. Nobody knows of the current action before it is
processed, but for the second part of an RMW. -/
structure Informed (c : Config) : Prop where
  exec : c.exec.Informed
  first : ∀ curr node queue, c.phase = .work curr false node queue →
    WorkItem.checkCurrAction ∈ queue → c.exec.Unknown curr
  second : ∀ curr node queue, c.phase = .work curr true node queue →
    WorkItem.checkCurrAction ∈ queue → (c.exec.acts curr).isRead = true

theorem Informed.of_exec {e : Execution} {phase : Phase} {next : Option ThreadId} (he : e.Informed)
    (hphase : ∀ curr secondPartOfRmw node queue, phase ≠ .work curr secondPartOfRmw node queue) :
    (⟨e,phase,next⟩ : Config).Informed :=
  ⟨he,fun curr node queue h => absurd h (hphase curr false node queue),
    fun curr node queue h => absurd h (hphase curr true node queue)⟩

/-- What a change needs to know of a configuration. -/
structure Sane (c : Config) : Prop where
  valid : c.Valid
  recorded : c.Recorded
  promises : c.exec.PromisesValid
  ordered : c.Ordered
  started : c.exec.Started
  fenced : c.exec.Fenced

theorem sane_init : init.Sane :=
  ⟨valid_init,recorded_init,⟨List.nodup_nil,by simp [init,Execution.init],fun _ => rfl⟩,
    ordered_init,started_init,fenced_init⟩

theorem Change.sane (h : Change params c c') (hs : c.Sane) : c'.Sane :=
  ⟨h.valid hs.valid,h.recorded hs.valid hs.recorded,h.promisesValid hs.valid hs.promises,
    h.ordered hs.valid hs.recorded hs.promises hs.ordered,
    h.started hs.valid hs.recorded hs.started,h.fenced hs.valid hs.recorded hs.fenced⟩

theorem checkCurr_informed {curr : ActionId} {secondPartOfRmw : Bool} {node : Choices}
    {queue items : List WorkItem} {e : Execution} (hs : c.Sane) (hi : c.Informed)
    (hphase : c.phase = .work curr secondPartOfRmw node (.checkCurrAction :: queue))
    (he : c.exec.checkCurrAction curr secondPartOfRmw node = .ok (e,items)) :
    e.Informed ∧ Gains c.exec e ∧ ((c.exec.acts curr).isRelseqFixup = false → Grows c.exec e) := by
  have hrecorded := hs.recorded
  refine checkCurrAction_informed hs.valid.exec hi.exec (fun hfirst => ?_) (fun hsecond => ?_)
    (fun a ha => (hrecorded.exec.old a ha).2.2) (fun u hu f hf => ?_) he
  · subst hfirst
    exact hi.first _ _ _ hphase List.mem_cons_self
  · subst hsecond
    exact hi.second _ _ _ hphase List.mem_cons_self
  · have hmem := hrecorded.curr _ _ _ _ hphase
    obtain ⟨th,hth,hcomplete⟩ := isComplete_iff.mp (hrecorded.exec.joined curr hmem u hu).1
    exact (hs.valid.exec.last u f (hrecorded.exec.completed u th hth hcomplete).1 hf).1

theorem Change.informed_work {curr : ActionId} {secondPartOfRmw : Bool} {node : Choices}
    {item : WorkItem} {queue items : List WorkItem} {e : Execution} (hs : c.Sane) (hi : c.Informed)
    (hphase : c.phase = .work curr secondPartOfRmw node (item :: queue))
    (he : c.exec.processWork curr secondPartOfRmw node item = .ok (e,items)) :
    e.Informed ∧ Advances c.exec e := by
  cases item with
  | checkCurrAction =>
    obtain ⟨hinformed,hgains,-⟩ := checkCurr_informed hs hi hphase he
    exact ⟨hinformed,hgains.advances⟩
  | checkReleaseSeq location =>
    exact (resolveReleaseSequences_informed hi.exec he).imp id Gains.advances
  | checkMoEdges act =>
    have hquiet := checkMoEdges_quiet he
    exact ⟨hi.exec.quiet hquiet,hquiet.advances⟩

theorem finishStep_quiet (params : ExecutionParams) (e : Execution) (curr : ActionId) :
    Quiet e (finishStep params e curr).exec := by
  have hremove := removeStopped_quiet e (e.acts curr).tid
  have hassert : ∀ e : Execution, Quiet e e.setAssert := fun e =>
    ⟨rfl,rfl,rfl,rfl,id,fun _ => rfl,rfl,fun _ => .refl _⟩
  unfold finishStep
  dsimp only
  split
  · exact hremove
  split
  · exact hremove.trans (hassert _)
  · split <;> exact hremove

/-- What a change does: it leaves the clocks alone, or works off an entry of the queue, or begins an
action. -/
theorem Change.quiet_cases (h : Change params c c') :
    (Quiet c.exec c'.exec ∧ ∀ curr secondPartOfRmw node queue,
      c'.phase = .work curr secondPartOfRmw node queue → WorkItem.checkCurrAction ∉ queue) ∨
    (∃ curr secondPartOfRmw node item queue items e,
      c.phase = .work curr secondPartOfRmw node (item :: queue) ∧ c.exec.asserted = false ∧
      c.exec.processWork curr secondPartOfRmw node item = .ok (e,items) ∧
      c' = { c with exec := e,phase := .work curr secondPartOfRmw node (queue ++ items) }) ∨
    ∃ t newlyExplored node e act curr, c.phase = .schedule ∧
      c.exec.takePending params t = some (e,act) ∧
      e.beginAction params act newlyExplored node = some (c'.exec,curr) ∧
      c'.phase = .work curr (act.isRmwc || act.isRmw) node [.checkCurrAction] := by
  cases h with
  | constructMutex i address parent hphase hneeds hparent =>
    exact .inl ⟨⟨rfl,rfl,rfl,rfl,id,fun _ => rfl,rfl,fun _ => .refl _⟩,by simp [hphase]⟩
  | reportBug hphase hdone => exact .inl ⟨assertBug_quiet c.exec,hdone⟩
  | act i type order location value e hphase hneeds htyped hfollows he =>
    exact .inl ⟨switchFromMaster_quiet he,by simp⟩
  | skip i hphase hneeds hi => exact .inl ⟨.refl _,by simp⟩
  | sleepDisabled i e hphase hneeds hi he =>
    refine .inl ⟨sleepDisabled_quiet he,fun curr secondPartOfRmw node queue => ?_⟩
    split <;> simp
  | detect i deadlock hphase hdeadlock =>
    refine .inl ⟨?_,by simp⟩
    split
    · exact assertBug_quiet c.exec
    · exact .refl _
  | work curr secondPartOfRmw node item queue items e hphase hasserted he =>
    exact .inr (.inl ⟨curr,secondPartOfRmw,node,item,queue,items,e,hphase,hasserted,he,rfl⟩)
  | finish curr secondPartOfRmw node queue hphase hdone =>
    refine .inl ⟨finishStep_quiet params c.exec curr,fun curr' second node' queue' hwork => ?_⟩
    have hends := finishStep_phase params c.exec curr
    rcases hends with h | h <;> cases h.symm.trans hwork
  | takeStep t newlyExplored node e e' act curr hphase hnext hpending hbegin =>
    exact .inr (.inr ⟨t,newlyExplored,node,e,act,curr,hphase,hpending,hbegin,rfl⟩)

theorem Change.informed (h : Change params c c') (hs : c.Sane) (hi : c.Informed) :
    c'.Informed ∧ Advances c.exec c'.exec := by
  rcases h.quiet_cases with ⟨hquiet,hphase⟩ |
    ⟨curr,secondPartOfRmw,node,item,queue,items,e,hphase,-,he,rfl⟩ |
    ⟨t,newlyExplored,node,e,act,curr,hphase,hpending,hbegin,hphase'⟩
  · refine ⟨⟨hi.exec.quiet hquiet,fun curr node queue hwork hmem => ?_,
      fun curr node queue hwork hmem => ?_⟩,hquiet.advances⟩ <;>
      exact absurd hmem (hphase _ _ _ _ hwork)
  · obtain ⟨hinformed,hadvances⟩ := Change.informed_work hs hi hphase he
    have hrest : WorkItem.checkCurrAction ∉ queue ++ items := by
      have hitems := processWork_items he
      have hqueue := (hs.valid.curr _ _ _ _ hphase).2.2
      rcases hqueue with hqueue | hqueue
      · obtain ⟨-,rfl⟩ := List.cons.inj hqueue
        exact hitems
      · simp only [List.mem_cons,not_or] at hqueue
        simp [hqueue.2,hitems]
    refine ⟨⟨hinformed,fun curr' node' queue' hwork hmem => ?_,
      fun curr' node' queue' hwork hmem => ?_⟩,hadvances⟩ <;>
    · cases hwork
      exact absurd hmem hrest
  · obtain ⟨th,hth,hact,-,rfl,-⟩ := takePending_spec hpending
    have hp := hs.valid.exec.pending t th act hth hact
    set taken := c.exec.modifyThread t fun th => { th with pending := none } with htaken
    have hquiet : Quiet c.exec taken := modifyThread_quiet c.exec t fun _ => rfl
    have hthread : taken.threads[t]? = some { th with pending := none } :=
      getElem?_modify_eq_some.mpr ⟨th,hth,by simp⟩
    have hrecorded : taken.Recorded :=
      hs.recorded.exec.setState t _ (fun _ => rfl) fun th' _ => ⟨id,.inl⟩
    have hsame : SameMemory c.exec taken := { SameMemory.refl c.exec with flagged := id }
    have hlisted : taken.Listed := hs.ordered.exec.listed.samePlaces hsame.keepsOrder.samePlaces
    have hfenced : taken.Fenced := hs.fenced.step rfl rfl fun a => .refl _
    obtain ⟨hinformed,hadvances,hcurr⟩ := beginAction_informed hbegin (hi.exec.quiet hquiet)
      (hs.valid.exec.take t) hrecorded (hs.started.take t) hlisted hfenced (hp.tid ▸ hp.user)
      (hp.tid ▸ (List.getElem?_eq_some_iff.mp hthread).1) fun hrmw a ha => hp.rmwr hrmw a
      (hp.tid ▸ ha)
    refine ⟨⟨hinformed,fun curr' node' queue' hwork _ => ?_,
      fun curr' node' queue' hwork _ => ?_⟩,hquiet.advances.trans hadvances⟩
    · obtain ⟨rfl,hfirst,-⟩ := Phase.work.inj (hphase'.symm.trans hwork)
      rcases hcurr with ⟨hsecond,-⟩ | ⟨-,hunknown⟩
      · cases hsecond.symm.trans hfirst
      · exact hunknown
    · obtain ⟨rfl,hsecond,-⟩ := Phase.work.inj (hphase'.symm.trans hwork)
      rcases hcurr with ⟨-,hread⟩ | ⟨hfirst,-⟩
      · exact hread
      · cases hsecond.symm.trans hfirst

theorem informed_init : init.Informed := .of_exec Execution.informed_init (by simp)

theorem Reachable.informed (h : Reachable params c) : c.Sane ∧ c.Informed :=
  reachable_induction (p := fun c => c.Sane ∧ c.Informed) ⟨sane_init,informed_init⟩
    (fun _ _ hc hchange => ⟨hchange.sane hc.1,(hchange.informed hc.1 hc.2).1⟩) h

/-- Happens-before is the reflexive-transitive closure of program order, of the creation of threads
and of the pairs for which `synchronize` has returned true so far. -/
theorem Reachable.happensBefore_iff (h : Reachable params c) {a b : ActionId}
    (ha : a ∈ c.exec.actionTrace) (huninit : (c.exec.acts a).type ≠ .atomicUninit) :
    c.exec.happensBefore a b = true ↔ ReflTransGen c.exec.HbEdge a b := by
  obtain ⟨hs,hi⟩ := h.informed
  have hc := hi.exec.toClocked
  have hrecorded := hs.recorded.exec
  have huser : (c.exec.acts a).tid ≠ 0 := fun htid => huninit (hs.fenced.uninit a ha htid).1
  have hpos := hrecorded.numbered ha huser
  rw [← knows_iff_happensBefore hpos]
  refine knows_iff_reaches hc.sound hi.exec.closed hc.backed (fun x y hxy => ?_) hpos
    fun y htid hle => ?_
  · cases hxy with
    | program hx hy htid hseq =>
      have hown := hc.sound.own y
      change (c.exec.acts x).seqNumber ≤ (c.exec.acts y).cv.getClock (c.exec.acts x).tid
      rw [htid]
      exact hseq.le.trans_eq hown.symm
    | create hcreate hy hfirst =>
      refine hc.created y x (hrecorded.numbered hy fun htid => ?_) hcreate
      rw [htid,hc.root] at hcreate
      cases hcreate
    | synchronized hxy => exact (hc.known (x,y) hxy).2
  · have hy := hc.listed y (hpos.trans_le hle)
    have htid : (c.exec.acts a).tid = (c.exec.acts y).tid := htid
    rcases Nat.eq_or_lt_of_le hle with heq | hlt
    · rw [hrecorded.seqNumber_injective ha hy huser (htid ▸ huser) heq]
    · exact .single (.program ha hy htid hlt)

open Input in
/-- An acquire load reads from a release sequence that is certain only when all other threads have
completed, after the load's own thread. -/
def lateAcquire : List Input :=
  [ofThread .threadStart 1,go 1 {},store .relaxed 10 0,go 1 {},ofObject .threadCreate 100,go 1 {},
    ofObject .threadCreate 101,ofThread .threadStart 2,go 2 {},load .acquire 10,go 1 {},
    store .release 10 1,ofThread .threadStart 3,go 3 {},ofThread .threadFinish 3,go 1 {},
    store .relaxed 10 2,go 1 {},ofThread .threadFinish 1,go 2 { readFrom := .past 8 },
    ofThread .threadFinish 2,go 3 {},go 2 {}]

theorem happensBefore_iff_lateAcquire : ∃ c, Reachable {} c ∧ c.exec.synchronized = [(9,11),(7,9)] ∧
    ReflTransGen c.exec.HbEdge 7 11 := by
  obtain ⟨c,hc,hplay⟩ := exists_play {} lateAcquire
    (fun c => decide (c.exec.synchronized = [(9,11),(7,9)] ∧ 7 ∈ c.exec.actionTrace ∧
      (c.exec.acts 7).type ≠ .atomicUninit ∧ c.exec.happensBefore 7 11 = true)) (by decide +kernel)
  obtain ⟨hsync,hmem,huser,hbefore⟩ := of_decide_eq_true hplay
  exact ⟨c,hc,hsync,(Reachable.happensBefore_iff hc hmem huser).mp hbefore⟩

end Config
end CdsChecker
