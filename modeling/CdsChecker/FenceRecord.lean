import CdsChecker.TraceRecord

/-! The last release fence of a thread: the one that the execution keeps is the last in the
trace. -/
namespace CdsChecker

open Execution

/-- The same action, as far as release fences go. -/
structure ModelAction.SameFence (a b : ModelAction) : Prop where
  tid : b.tid = a.tid
  fence : (b.isFence && b.isRelease) = (a.isFence && a.isRelease)
  uninit : a.type = .atomicUninit → b.type = .atomicUninit ∧ b.order = a.order

namespace ModelAction.SameFence

theorem of_keeps {a b : ModelAction} (h : a.Keeps b) : a.SameFence b where
  tid := h.tid
  fence := by simp only [isFence,isRelease,h.type,h.order]
  uninit ha := ⟨h.type.trans ha,h.order⟩

theorem refl (a : ModelAction) : a.SameFence a := ⟨rfl,rfl,fun h => ⟨h,rfl⟩⟩

/-- The second part of an RMW is not a fence. -/
theorem processRmw {a act : ModelAction} (hact : (act.isRmwc || act.isRmw) = true)
    (ha : a.isRmwr = true) : a.SameFence (a.processRmw act) := by
  have htype : a.type = .atomicRmwr := beq_iff_eq.mp ha
  have hnew : (a.processRmw act).type = .atomicRead ∨ (a.processRmw act).type = .atomicRmw := by
    unfold ModelAction.processRmw
    cases hc : act.isRmwc with
    | true => exact .inl rfl
    | false =>
      have hr : act.isRmw = true := by simpa [hc] using hact
      simp [hr]
  have hold : a.isFence = false := by simp [isFence,htype]
  have hfence : (a.processRmw act).isFence = false := by
    rcases hnew with hnew | hnew <;> simp [isFence,hnew]
  refine ⟨(ModelAction.Places.processRmw hact ha).tid,?_,fun huninit => ?_⟩
  · rw [hold,hfence]
    rfl
  · rw [htype] at huninit
    cases huninit

end ModelAction.SameFence

namespace Execution

def isReleaseFence (e : Execution) (t : ThreadId) (a : ActionId) : Bool :=
  (e.acts a).tid == t && ((e.acts a).isFence && (e.acts a).isRelease)

/-- Only actions that initialize are the model thread's, and the release fence that is kept for
a thread is its last one in the trace. -/
structure Fenced (e : Execution) : Prop where
  uninit : ∀ a ∈ e.actionTrace, (e.acts a).tid = 0 →
    (e.acts a).type = .atomicUninit ∧ (e.acts a).order = .relaxed
  release : ∀ t, e.getLastFenceRelease t = e.actionTrace.reverse.find? (e.isReleaseFence t)

variable {e e' : Execution}

theorem Fenced.step (h : e.Fenced) (htrace : e'.actionTrace = e.actionTrace)
    (hlast : e'.thrdLastFenceRelease = e.thrdLastFenceRelease)
    (hacts : ∀ a, (e.acts a).SameFence (e'.acts a)) : e'.Fenced where
  uninit a ha htid := by
    rw [htrace] at ha
    rw [(hacts a).tid] at htid
    obtain ⟨htype,horder⟩ := h.uninit a ha htid
    obtain ⟨htype',horder'⟩ := (hacts a).uninit htype
    exact ⟨htype',horder'.trans horder⟩
  release t := by
    have hfence : e'.isReleaseFence t = e.isReleaseFence t := by
      funext a
      rw [isReleaseFence,(hacts a).tid,(hacts a).fence]
      rfl
    rw [getLastFenceRelease,hlast,htrace,hfence]
    exact h.release t

theorem Fenced.frame (h : e.Fenced) (hframe : MemFrame e e') : e'.Fenced :=
  h.step hframe.actionTrace hframe.thrdLastFenceRelease fun a => .of_keeps (hframe.act a).keeps

theorem CurrEffect.thrdLastFenceRelease {curr : ActionId} {misc : ℕ}
    (h : CurrEffect e curr misc e') : e'.thrdLastFenceRelease = e.thrdLastFenceRelease := by
  cases h with
  | memory _ _ _ hframe => exact hframe.thrdLastFenceRelease
  | create _ hframe => exact hframe.thrdLastFenceRelease
  | finish _ hwoken hframe =>
    exact hframe.thrdLastFenceRelease.trans hwoken.frame.thrdLastFenceRelease
  | grab m _ _ _ hframe => exact hframe.thrdLastFenceRelease
  | trylockFails m _ _ _ hframe => exact hframe.thrdLastFenceRelease
  | release m _ _ hwoken hframe =>
    exact hframe.thrdLastFenceRelease.trans hwoken.frame.thrdLastFenceRelease
  | wait m _ _ _ hwoken _ hframe =>
    exact hframe.thrdLastFenceRelease.trans hwoken.frame.thrdLastFenceRelease
  | notifyAll _ hwoken hframe =>
    exact hframe.thrdLastFenceRelease.trans hwoken.frame.thrdLastFenceRelease
  | notifyOne w _ _ hwoken hframe =>
    exact hframe.thrdLastFenceRelease.trans hwoken.frame.thrdLastFenceRelease

theorem CurrEffect.fenced {curr : ActionId} {misc : ℕ} (h : CurrEffect e curr misc e')
    (hf : e.Fenced) : e'.Fenced :=
  hf.step h.lists.actionTrace h.thrdLastFenceRelease fun a => .of_keeps (h.act a)

theorem Fenced.slept {params : ExecutionParams} {ts : List ThreadId} (h : e.Fenced)
    (hs : Slept params ts e e') : e'.Fenced := by
  refine Fenced.frame ?_ hs.frame
  exact h.step rfl rfl fun a => .refl _

/-- A release fence is kept for its thread. An action that initializes is relaxed. -/
theorem addActionToLists_fence {params : ExecutionParams} {act : ActionId}
    (h : e.addActionToLists params act = .ok e') (hlt : act < e.numActs)
    (htid : (e.acts act).tid < e.getNumThreads) :
    (∀ t, e'.getLastFenceRelease t =
      if e.isReleaseFence t act = true then some act else e.getLastFenceRelease t) ∧
      ∀ a, e.numActs ≤ a → a < e'.numActs → (e'.acts a).order = .relaxed := by
  obtain ⟨_,_,h⟩ := bind_eq_ok.mp h
  dsimp only at h
  set e₁ := if ((e.objMap (e.acts act).location).isEmpty && (e.acts act).isAtomicVar) = true then
      ((e.pushed act).getUninitializedAction params (e.acts act).location).1.pushUninit
        (e.acts act).location e.numActs
    else e.pushed act with he₁
  have hkept : e₁.thrdLastFenceRelease = e.thrdLastFenceRelease ∧ e₁.threads = e.threads ∧
      e₁.acts act = e.acts act := by
    rw [he₁]
    split
    · refine ⟨rfl,rfl,?_⟩
      simp [pushUninit,getUninitializedAction,pushed,pushObj,pushObjThrd,Nat.ne_of_lt hlt]
    · exact ⟨rfl,rfl,rfl⟩
  have hnew : ∀ a, e.numActs ≤ a → a < e₁.numActs → (e₁.acts a).order = .relaxed := by
    intro a ha ha'
    rw [he₁] at ha' ⊢
    split at ha'
    · rename_i hfirst
      obtain rfl : a = e.numActs := Nat.le_antisymm (Nat.lt_succ_iff.mp ha') ha
      rw [if_pos hfirst]
      simp [pushUninit,getUninitializedAction,pushed,pushObj,pushObjThrd,ModelAction.createCv]
    · exact absurd ha (Nat.not_le.mpr ha')
  set e₂ := if ((e.acts act).isFence && (e.acts act).isRelease) = true then
      { e₁ with thrdLastFenceRelease := e₁.setLast e₁.thrdLastFenceRelease act }
    else e₁ with he₂
  have hsame : e₂.numActs = e₁.numActs ∧ e₂.acts = e₁.acts := by
    rw [he₂]
    split <;> exact ⟨rfl,rfl⟩
  have hlast : ∀ t, e₂.getLastFenceRelease t =
      if e.isReleaseFence t act = true then some act else e.getLastFenceRelease t := by
    intro t
    rw [he₂]
    by_cases hfence : ((e.acts act).isFence && (e.acts act).isRelease) = true
    · rw [if_pos hfence]
      have hroom : (e₁.acts act).tid < e₁.getNumThreads := by
        rw [hkept.2.2,getNumThreads,hkept.2.1]
        exact htid
      refine (setLast_join t hroom).trans ?_
      rw [hkept.1,hkept.2.2]
      by_cases ht : t = (e.acts act).tid
      · rw [if_pos ht,if_pos (by simp [isReleaseFence,ht,hfence])]
      · rw [if_neg ht,if_neg (by simp [isReleaseFence,Ne.symm ht])]
        rfl
    · rw [if_neg hfence,if_neg (by simp only [isReleaseFence,hfence]; simp),getLastFenceRelease,
        hkept.1]
      rfl
  have hrest : ∀ a, e.numActs ≤ a → a < e₂.numActs → (e₂.acts a).order = .relaxed := by
    rw [hsame.1,hsame.2]
    exact hnew
  by_cases hwait : (e.acts act).isWait = true
  · rw [if_pos hwait] at h
    obtain ⟨_,_,h⟩ := bind_eq_ok.mp h
    obtain rfl : _ = e' := Except.ok.inj h
    exact ⟨hlast,hrest⟩
  · rw [if_neg hwait] at h
    obtain rfl : e₂ = e' := Except.ok.inj h
    exact ⟨hlast,hrest⟩

/-- A new action. -/
theorem Fenced.add {act : ModelAction} {extra : Location → List ActionId} (h : e.Fenced)
    (hr : e.Recorded) (hadded : Added (e.newAction act).1 e' e.numActs extra) (huser : act.tid ≠ 0)
    (hlast : ∀ t, e'.getLastFenceRelease t =
      if (e.newAction act).1.isReleaseFence t e.numActs = true then some e.numActs
      else (e.newAction act).1.getLastFenceRelease t)
    (horder : ∀ a, (e.newAction act).1.numActs ≤ a → a < e'.numActs →
      (e'.acts a).order = .relaxed) : e'.Fenced := by
  have hkeep : ∀ a ∈ e.actionTrace, e'.acts a = e.acts a := fun a ha =>
    have hlt := (hr.old a ha).1
    (hadded.acts a (hlt.trans (Nat.lt_succ_self _))).trans (newAction_acts e act (Nat.ne_of_lt hlt))
  have hnew := hadded.acts e.numActs (Nat.lt_succ_self _)
  obtain ⟨us,htrace,hus⟩ := hadded.actionTrace
  have htrace : e'.actionTrace = us ++ e.actionTrace ++ [e.numActs] := htrace
  have huninit : ∀ u ∈ us, (e'.acts u).type = .atomicUninit ∧ (e'.acts u).order = .relaxed :=
    fun u hu => ⟨(hadded.uninit u (hus u hu).1 (hus u hu).2).1,horder u (hus u hu).1 (hus u hu).2⟩
  apply Fenced.mk
  · intro a ha htid
    rw [htrace,List.mem_append,List.mem_append,List.mem_singleton] at ha
    rcases ha with (ha | ha) | rfl
    · exact huninit a ha
    · rw [hkeep a ha] at htid ⊢
      exact h.uninit a ha htid
    · rw [hnew,newAction_act] at htid
      exact absurd htid huser
  · intro t
    have hself : e'.isReleaseFence t e.numActs =
      (e.newAction act).1.isReleaseFence t e.numActs := by
      rw [isReleaseFence,hnew]
      rfl
    have hnone : us.reverse.find? (e'.isReleaseFence t) = none := by
      refine List.find?_eq_none.mpr fun u hu => ?_
      have htype := (huninit u (List.mem_reverse.mp hu)).1
      simp [isReleaseFence,ModelAction.isFence,htype]
    have hold : e.actionTrace.reverse.find? (e'.isReleaseFence t) =
        e.actionTrace.reverse.find? (e.isReleaseFence t) := by
      refine List.find?_congr fun a ha => ?_
      rw [isReleaseFence,hkeep a (List.mem_reverse.mp ha)]
      rfl
    rw [hlast t,htrace,List.reverse_append,List.reverse_singleton,List.singleton_append,
      List.find?_cons,hself]
    cases (e.newAction act).1.isReleaseFence t e.numActs with
    | true => rfl
    | false =>
      rw [List.reverse_append,List.find?_append,hold,hnone,← h.release t,Option.or_none]
      rfl

/-- The start of a step. -/
theorem beginAction_fenced {params : ExecutionParams} {act : ModelAction} {newlyExplored : Bool}
    {node : Choices} {curr : ActionId}
    (h : e.beginAction params act newlyExplored node = some (e',curr)) (hf : e.Fenced)
    (hr : e.Recorded) (huser : act.tid ≠ 0) (hthread : act.tid < e.threads.length)
    (hrmwr : (act.isRmwc || act.isRmw) = true → ∀ a, e.getLastAction act.tid = some a →
      (e.acts a).isRmwr = true) : e'.Fenced := by
  obtain ⟨⟨e₁,curr₁⟩,hinit,h⟩ := Option.bind_eq_some_iff.mp h
  have hinit := toOption_eq_some.mp hinit
  obtain ⟨_,_,h⟩ := Option.bind_eq_some_iff.mp h
  unfold initializeCurrAction at hinit
  by_cases hsecond : (act.isRmwc || act.isRmw) = true
  · rw [if_pos hsecond] at hinit
    rw [if_pos hsecond] at h
    obtain ⟨rfl,rfl⟩ : e₁ = e' ∧ curr₁ = curr := by simpa using h
    obtain ⟨hlast,hsteps⟩ := processRmw_steps hinit
    refine Fenced.frame ?_ (MemSteps.frame hsteps)
    refine hf.step rfl rfl fun a => ?_
    by_cases ha : a = curr₁
    · subst ha
      simpa [modifyAct] using ModelAction.SameFence.processRmw hsecond (hrmwr hsecond _ hlast)
    · simpa [modifyAct,ha] using ModelAction.SameFence.refl (e.acts a)
  · rw [if_neg hsecond] at hinit
    rw [if_neg hsecond] at h
    obtain ⟨rfl,rfl⟩ : (e.newAction act).1 = e₁ ∧ e.numActs = curr₁ := by
      simpa [newAction] using hinit
    obtain ⟨_,_,h⟩ := Option.bind_eq_some_iff.mp h
    obtain ⟨e₂,hadd,h⟩ := Option.bind_eq_some_iff.mp h
    have hadd := toOption_eq_some.mp hadd
    have htid : ((e.newAction act).1.acts e.numActs).tid < (e.newAction act).1.getNumThreads := by
      rw [newAction_act]
      exact hthread
    have hadded := addActionToLists_added hadd htid
    obtain ⟨hlast,horder⟩ := addActionToLists_fence hadd (Nat.lt_succ_self _) htid
    have hfenced : e₂.Fenced := hf.add hr hadded huser hlast horder
    split at h
    · obtain ⟨e₃,hread,h⟩ := Option.bind_eq_some_iff.mp h
      obtain ⟨rfl,rfl⟩ : e₃ = e' ∧ e.numActs = curr := by simpa using h
      exact hfenced.frame (MemSteps.frame (checkRead_steps hread))
    · obtain ⟨rfl,rfl⟩ : e₂ = e' ∧ e.numActs = curr := by simpa using h
      exact hfenced

theorem fenced_init : Execution.init.Fenced where
  uninit := by simp [Execution.init]
  release t := by simp [Execution.init,getLastFenceRelease]

end Execution
namespace Config

variable {params : ExecutionParams} {c c' : Config}

theorem Change.fenced (h : Change params c c') (hv : c.Valid) (hr : c.Recorded)
    (hf : c.exec.Fenced) : c'.exec.Fenced := by
  cases h with
  | constructMutex => exact hf.step rfl rfl fun a => .refl _
  | reportBug => exact hf.frame c.exec.assertBug_frame
  | act i type order location value e hphase hneeds htyped hfollows he =>
    obtain ⟨-,rfl⟩ := switchFromMaster_spec he
    exact hf.step rfl rfl fun a => .refl _
  | skip => exact hf
  | sleepDisabled i e hphase hneeds hi he => exact hf.slept (sleepDisabled_slept he)
  | detect i deadlock hphase hdeadlock =>
    dsimp only
    split
    · exact hf.frame c.exec.assertBug_frame
    · exact hf
  | work curr secondPartOfRmw node item queue items e hphase hasserted he =>
    rcases processWork_cases he with ⟨_,heffect⟩ | ⟨_,hsteps⟩
    · exact heffect.fenced hf
    · exact hf.frame (MemSteps.frame hsteps)
  | finish curr secondPartOfRmw node queue hphase hdone =>
    have hremove := c.exec.removeStopped_frame (c.exec.acts curr).tid
    have henabled : { c.exec with
        enabled := (c.exec.removeStopped (c.exec.acts curr).tid).enabled }.Fenced :=
      hf.step rfl rfl fun a => .refl _
    exact (henabled.frame hremove).frame (finishStep_frame params c.exec curr)
  | takeStep t newlyExplored node e e' act curr hphase hnext hpending hbegin =>
    obtain ⟨th,hth,hact,hready,rfl,henabled⟩ := takePending_spec hpending
    have hp := hv.exec.pending t th act hth hact
    have hthread : (c.exec.modifyThread t fun th => { th with pending := none }).threads[t]? =
        some { th with pending := none } := getElem?_modify_eq_some.mpr ⟨th,hth,by simp⟩
    have htaken : (c.exec.modifyThread t fun th => { th with pending := none }).Fenced :=
      hf.step rfl rfl fun a => .refl _
    have hrecorded : (c.exec.modifyThread t fun th => { th with pending := none }).Recorded :=
      hr.exec.setState t _ (fun _ => rfl) fun th' _ => ⟨id,.inl⟩
    exact beginAction_fenced hbegin htaken hrecorded (hp.tid ▸ hp.user)
      (hp.tid ▸ (List.getElem?_eq_some_iff.mp hthread).1)
      fun hrmw a ha => hp.rmwr hrmw a (hp.tid ▸ ha)

theorem Reachable.fenced (h : Reachable params c) : c.exec.Fenced := by
  have hall : (c.Valid ∧ c.Recorded) ∧ c.exec.Fenced :=
    reachable_induction (p := fun c => (c.Valid ∧ c.Recorded) ∧ c.exec.Fenced)
      ⟨⟨valid_init,recorded_init⟩,fenced_init⟩
      (fun _ _ hc hchange => ⟨⟨hchange.valid hc.1.1,hchange.recorded hc.1.1 hc.1.2⟩,
        hchange.fenced hc.1.1 hc.1.2 hc.2⟩) h
  exact hall.2

end Config
end CdsChecker
