import CdsChecker.TraceRecord

/-! The first and the last action of a thread: its start, and its finish once it has completed. -/
namespace CdsChecker

open Execution

/-- The same action, as far as starts and finishes go. -/
structure ModelAction.SameEnds (a b : ModelAction) : Prop where
  tid : b.tid = a.tid
  seqNumber : b.seqNumber = a.seqNumber
  start : b.isThreadStart = a.isThreadStart
  finish : a.type = .threadFinish → b.type = .threadFinish

theorem ModelAction.SameEnds.of_keeps {a b : ModelAction} (h : a.Keeps b) : a.SameEnds b :=
  ⟨h.tid,h.seqNumber,by rw [isThreadStart,isThreadStart,h.type],fun ha => h.type.trans ha⟩

theorem ModelAction.SameEnds.refl (a : ModelAction) : a.SameEnds a := ⟨rfl,rfl,rfl,id⟩

/-- The second part of an RMW is neither. -/
theorem ModelAction.SameEnds.processRmw {a act : ModelAction}
    (hact : (act.isRmwc || act.isRmw) = true)
    (ha : a.isRmwr = true) : a.SameEnds (a.processRmw act) := by
  have hplaces := ModelAction.Places.processRmw hact ha
  have htype : a.type = .atomicRmwr := beq_iff_eq.mp ha
  refine ⟨hplaces.tid,hplaces.seqNumber,?_,fun hfinish => ?_⟩
  · have hnew : (a.processRmw act).type = .atomicRead ∨ (a.processRmw act).type = .atomicRmw := by
      unfold ModelAction.processRmw
      cases hc : act.isRmwc with
      | true => exact .inl rfl
      | false =>
        have hr : act.isRmw = true := by simpa [hc] using hact
        simp [hr]
    rw [isThreadStart,isThreadStart,htype]
    rcases hnew with hnew | hnew <;> rw [hnew] <;> rfl
  · rw [htype] at hfinish
    cases hfinish

namespace Execution

/-- A start is the first action of its thread, and the last one of a completed thread is its
finish. A thread that is about to start has not acted. -/
structure Started (e : Execution) : Prop where
  first : ∀ a ∈ e.actionTrace, (e.acts a).isThreadStart = true → (e.acts a).tid ≠ 0 ∧
    ∀ b ∈ e.actionTrace, (e.acts b).tid = (e.acts a).tid →
      (e.acts a).seqNumber ≤ (e.acts b).seqNumber
  acted : ∀ a ∈ e.actionTrace, (e.acts a).tid ≠ 0 → e.getLastAction (e.acts a).tid ≠ none
  pending : ∀ t act, t ≠ 0 → e.pendingOf t = some act → act.isThreadStart = true →
    e.getLastAction t = none
  finished : ∀ (t : ThreadId) (th : Thread) f, e.threads[t]? = some th → th.state = .completed →
    e.getLastAction t = some f → (e.acts f).type = .threadFinish

variable {e e' : Execution}

theorem Started.step (h : e.Started) (hlists : SameLists e e')
    (hacts : ∀ a, (e.acts a).SameEnds (e'.acts a))
    (hpending : ∀ t act, t ≠ 0 → e'.pendingOf t = some act → act.isThreadStart = true →
      e.getLastAction t = none)
    (hfinished : ∀ (t : ThreadId) (th' : Thread), e'.threads[t]? = some th' →
      th'.state = .completed → (∃ th, e.threads[t]? = some th ∧ th.state = .completed) ∨
        ∃ f, e.getLastAction t = some f ∧ (e.acts f).type = .threadFinish) : e'.Started where
  first a ha hstart := by
    rw [hlists.actionTrace] at ha ⊢
    rw [(hacts a).start] at hstart
    obtain ⟨hne,hfirst⟩ := h.first a ha hstart
    rw [(hacts a).tid,(hacts a).seqNumber]
    refine ⟨hne,fun b hb htid => ?_⟩
    rw [(hacts b).tid] at htid
    rw [(hacts b).seqNumber]
    exact hfirst b hb htid
  acted a ha hne := by
    rw [hlists.actionTrace] at ha
    rw [(hacts a).tid] at hne ⊢
    rw [hlists.getLastAction]
    exact h.acted a ha hne
  pending t act ht hact hstart := by
    rw [hlists.getLastAction]
    exact hpending t act ht hact hstart
  finished t th' f hth' hstate hf := by
    rw [hlists.getLastAction] at hf
    apply (hacts f).finish
    rcases hfinished t th' hth' hstate with ⟨th,hth,hold⟩ | ⟨f',hf',htype⟩
    · exact h.finished t th f hth hold hf
    · cases hf.symm.trans hf'
      exact htype

/-- The same threads, up to what is not about to start or completed. -/
theorem Started.of_threads (h : e.Started) (hlists : SameLists e e')
    (hacts : ∀ a, (e.acts a).SameEnds (e'.acts a)) (hthreads : e'.threads = e.threads) :
    e'.Started := by
  refine h.step hlists hacts (fun t act ht hact hstart => ?_) fun t th' hth' hstate => ?_
  · rw [pendingOf,hthreads] at hact
    exact h.pending t act ht hact hstart
  · rw [hthreads] at hth'
    exact .inl ⟨th',hth',hstate⟩

theorem Started.frame (h : e.Started) (hframe : MemFrame e e') : e'.Started :=
  h.of_threads hframe.lists (fun a => .of_keeps (hframe.act a).keeps) hframe.threads

/-- A thread that completes does so with its finish. -/
theorem CurrEffect.completes {curr : ActionId} {misc : ℕ} (h : CurrEffect e curr misc e')
    {t : ThreadId} {th' : Thread} (hth' : e'.threads[t]? = some th')
    (hstate : th'.state = .completed) :
    (∃ th, e.threads[t]? = some th ∧ th.state = .completed) ∨
      t = (e.acts curr).tid ∧ (e.acts curr).type = .threadFinish := by
  have hwoken : ∀ {e₁ : Execution} {s : Set ThreadId} {th₁ : Thread}, Woken e e₁ s →
      e₁.threads[t]? = some th₁ → th₁.state = .completed →
        ∃ th, e.threads[t]? = some th ∧ th.state = .completed := by
    intro e₁ s th₁ hw hth₁ hst
    by_cases ht : t ∈ s
    · obtain ⟨th,-,-,-,hnew⟩ := hw.woken t ht
      cases hnew.symm.trans hth₁
      cases hst
    · exact ⟨th₁,(hw.other t ht).symm.trans hth₁,hst⟩
  cases h with
  | memory _ _ _ hframe => exact .inl ⟨th',hframe.threads ▸ hth',hstate⟩
  | create _ hframe =>
    rw [hframe.threads] at hth'
    have hth' : (e.threads ++ [{ parent := some (e.acts curr).tid,creation := some curr }])[t]? =
        some th' := hth'
    by_cases hlt : t < e.threads.length
    · exact .inl ⟨th',(List.getElem?_append_left hlt).symm.trans hth',hstate⟩
    · rw [List.getElem?_append_right (Nat.le_of_not_lt hlt),List.getElem?_singleton] at hth'
      split at hth'
      · cases hth'
        cases hstate
      · cases hth'
  | finish htype hw hframe =>
    rw [hframe.threads] at hth'
    obtain ⟨th₁,hth₁,rfl⟩ := getElem?_modify_eq_some.mp hth'
    by_cases ht : (e.acts curr).tid = t
    · exact .inr ⟨ht.symm,htype⟩
    · rw [if_neg ht] at hstate
      exact .inl (hwoken hw hth₁ hstate)
  | grab m _ _ _ hframe => exact .inl ⟨th',hframe.threads ▸ hth',hstate⟩
  | trylockFails m _ _ _ hframe => exact .inl ⟨th',hframe.threads ▸ hth',hstate⟩
  | release m _ _ hw hframe => exact .inl (hwoken hw (hframe.threads ▸ hth') hstate)
  | wait m _ _ _ hw _ hframe =>
    rw [hframe.threads] at hth'
    obtain ⟨th₁,hth₁,rfl⟩ := getElem?_modify_eq_some.mp hth'
    by_cases ht : (e.acts curr).tid = t
    · rw [if_pos ht] at hstate
      cases hstate
    · rw [if_neg ht] at hstate
      exact .inl (hwoken hw hth₁ hstate)
  | notifyAll _ hw hframe => exact .inl (hwoken hw (hframe.threads ▸ hth') hstate)
  | notifyOne w _ _ hw hframe => exact .inl (hwoken hw (hframe.threads ▸ hth') hstate)

theorem CurrEffect.started {curr : ActionId} {misc : ℕ} (h : CurrEffect e curr misc e')
    (hs : e.Started) (hcurr : e.ValidCurr curr) : e'.Started := by
  refine hs.step h.lists (fun a => .of_keeps (h.act a)) (fun t act ht hact hstart => ?_)
    fun t th' hth' hstate => ?_
  · rw [h.pendingOf] at hact
    exact hs.pending t act ht hact hstart
  · rcases h.completes hth' hstate with hold | ⟨rfl,htype⟩
    · exact .inl hold
    · exact .inr ⟨curr,hcurr.last,htype⟩

theorem Started.slept {params : ExecutionParams} {ts : List ThreadId} (h : e.Started)
    (hs : Slept params ts e e') : e'.Started := by
  obtain ⟨s,hthreads,hstates⟩ := hs.threads
  refine Started.frame ?_ hs.frame
  refine h.step ⟨rfl,rfl,rfl,rfl,rfl⟩ (fun a => .refl _) (fun t act ht hact hstart => ?_)
    fun t th' hth' hstate => ?_
  · have hact' : (e'.threads[t]?.bind Thread.pending) = some act := hact
    rw [hthreads t] at hact'
    cases hth : e.threads[t]? with
    | none => simp [hth] at hact'
    | some th =>
      rw [hth] at hact'
      refine h.pending t act ht ?_ hstart
      rw [pendingOf,hth]
      exact hact'
  · have hth' : e'.threads[t]? = some th' := hth'
    rw [hthreads t] at hth'
    obtain ⟨th,hth,rfl⟩ := Option.map_eq_some_iff.mp hth'
    refine .inl ⟨th,hth,?_⟩
    rcases hstates t th hth with hst | ⟨-,hst⟩
    · exact hst.symm.trans hstate
    · exact absurd (hst.symm.trans hstate) (by decide)

/-- Only a thread that has not acted can start. -/
theorem follows_start {act : ModelAction} (h : e.follows act = true)
    (hstart : act.isThreadStart = true) : e.getLastAction act.tid = none := by
  cases hlast : e.getLastAction act.tid with
  | none => rfl
  | some last =>
    have htype : act.type = .threadStart := beq_iff_eq.mp hstart
    rw [follows,hlast] at h
    simp only [Option.map_some] at h
    split at h
    · simp [ModelAction.isRmw,ModelAction.isRmwc,htype] at h
    · split at h
      · simp [ModelAction.isLock,htype] at h
      · simp [hstart] at h

/-- A new action: a start is the first of its thread. -/
theorem Started.add {act : ModelAction} {extra : Location → List ActionId} (h : e.Started)
    (hr : e.Recorded) (hadded : Added (e.newAction act).1 e' e.numActs extra) (huser : act.tid ≠ 0)
    (halive : e.isComplete act.tid = false)
    (hstart : act.isThreadStart = true → e.getLastAction act.tid = none)
    (hidle : e.pendingOf act.tid = none) : e'.Started := by
  have hthreads : e'.threads = e.threads := hadded.threads
  have hkeep : ∀ a ∈ e.actionTrace, e'.acts a = e.acts a := fun a ha =>
    have hlt := (hr.old a ha).1
    (hadded.acts a (hlt.trans (Nat.lt_succ_self _))).trans (newAction_acts e act (Nat.ne_of_lt hlt))
  have hnew := (hadded.acts e.numActs (Nat.lt_succ_self _)).trans (newAction_act e act)
  have hlast : ∀ t : ThreadId, t ≠ 0 →
      e'.getLastAction t = if t = act.tid then some e.numActs else e.getLastAction t := by
    intro t ht
    rcases hadded.lastAction t with ⟨hzero,_⟩ | hlast
    · exact absurd hzero ht
    · rw [hlast,newAction_act]
      rfl
  obtain ⟨us,htrace,hus⟩ := hadded.actionTrace
  have hmem : ∀ a, a ∈ e'.actionTrace → ((e'.acts a).type = .atomicUninit ∧ (e'.acts a).tid = 0) ∨
      a ∈ e.actionTrace ∨ a = e.numActs := by
    intro a ha
    rw [htrace] at ha
    simp only [List.mem_append,List.mem_singleton] at ha
    rcases ha with (ha | ha) | ha
    · obtain ⟨htype,htid,-⟩ := hadded.uninit a (hus a ha).1 (hus a ha).2
      exact .inl ⟨htype,htid⟩
    · exact .inr (.inl ha)
    · exact .inr (.inr ha)
  have hseq : ∀ a ∈ e.actionTrace, (e'.acts a).seqNumber ≤ (e'.acts e.numActs).seqNumber := by
    intro a ha
    rw [hkeep a ha,hnew]
    exact Nat.le_succ_of_le (hr.old a ha).2.1
  apply Started.mk
  · intro a ha hisStart
    rcases hmem a ha with ⟨htype,-⟩ | ha | rfl
    · simp [ModelAction.isThreadStart,htype] at hisStart
    · rw [hkeep a ha] at hisStart ⊢
      obtain ⟨hne,hfirst⟩ := h.first a ha hisStart
      refine ⟨hne,fun b hb htid => ?_⟩
      rcases hmem b hb with ⟨-,hzero⟩ | hb | rfl
      · exact absurd (htid.symm.trans hzero) hne
      · rw [hkeep b hb] at htid ⊢
        exact hfirst b hb htid
      · rw [← hkeep a ha]
        exact hseq a ha
    · have htid : (e'.acts e.numActs).tid = act.tid := by rw [hnew]
      have hisStart : act.isThreadStart = true := by
        rw [hnew] at hisStart
        exact hisStart
      refine ⟨htid ▸ huser,fun b hb hbtid => ?_⟩
      rcases hmem b hb with ⟨-,hzero⟩ | hb | rfl
      · exact absurd (hzero.symm.trans (hbtid.trans htid)).symm huser
      · rw [hkeep b hb,htid] at hbtid
        have hacted := h.acted b hb (hbtid ▸ huser)
        rw [hbtid] at hacted
        exact absurd (hstart hisStart) hacted
      · exact le_rfl
  · intro a ha hne
    rw [hlast _ hne]
    split
    · exact Option.some_ne_none _
    · rename_i hother
      rcases hmem a ha with ⟨-,hzero⟩ | ha | rfl
      · exact absurd hzero hne
      · rw [hkeep a ha] at hne ⊢
        exact h.acted a ha hne
      · exact absurd (by rw [hnew]) hother
  · intro t act' ht hact' hisStart
    rw [pendingOf,hthreads] at hact'
    have hother : t ≠ act.tid := by
      intro heq
      rw [← heq] at hidle
      cases hidle.symm.trans hact'
    rw [hlast t ht,if_neg hother]
    exact h.pending t act' ht hact' hisStart
  · intro t th f hth hstate hf
    rw [hthreads] at hth
    have hcomplete : e.isComplete t = true := isComplete_iff.mpr ⟨th,hth,hstate⟩
    have hne := (hr.completed t th hth hstate).1
    have hother : t ≠ act.tid := by
      intro ht
      rw [← ht,hcomplete] at halive
      cases halive
    rw [hlast t hne,if_neg hother] at hf
    rw [hkeep f (hr.last t f hne hf)]
    exact h.finished t th f hth hstate hf

theorem beginAction_started {params : ExecutionParams} {act : ModelAction} {newlyExplored : Bool}
    {node : Choices} {curr : ActionId}
    (h : e.beginAction params act newlyExplored node = some (e',curr)) (hs : e.Started)
    (hr : e.Recorded) (huser : act.tid ≠ 0) (hthread : act.tid < e.threads.length)
    (halive : e.isComplete act.tid = false)
    (hstart : act.isThreadStart = true → e.getLastAction act.tid = none)
    (hidle : e.pendingOf act.tid = none)
    (hrmwr : (act.isRmwc || act.isRmw) = true → ∀ a, e.getLastAction act.tid = some a →
      (e.acts a).isRmwr = true) : e'.Started := by
  cases beginAction_begun h hthread with
  | secondPart hsecond hlast hsteps =>
    refine Started.frame ?_ (MemSteps.frame hsteps)
    refine hs.of_threads ⟨rfl,rfl,rfl,rfl,rfl⟩ (fun a => ?_) rfl
    by_cases ha : a = curr
    · subst ha
      simpa [modifyAct] using ModelAction.SameEnds.processRmw hsecond (hrmwr hsecond _ hlast)
    · simpa [modifyAct,ha] using ModelAction.SameEnds.refl (e.acts a)
  | new hfirst hadded hsteps =>
    exact (hs.add hr hadded huser halive hstart hidle).frame (MemSteps.frame hsteps)

/-- A thread takes its pending action. -/
theorem Started.take (h : e.Started) (t : ThreadId) :
    (e.modifyThread t fun th => { th with pending := none }).Started := by
  refine h.step ⟨rfl,rfl,rfl,rfl,rfl⟩ (fun a => .refl _) (fun u act hu hact hstart => ?_)
    fun u th' hth' hstate => ?_
  · obtain ⟨th',hth',hpending⟩ := Option.bind_eq_some_iff.mp hact
    obtain ⟨th,hth,rfl⟩ := getElem?_modify_eq_some.mp hth'
    split at hpending
    · cases hpending
    · refine h.pending u act hu ?_ hstart
      rw [pendingOf,hth]
      exact hpending
  · obtain ⟨th,hth,rfl⟩ := getElem?_modify_eq_some.mp hth'
    refine .inl ⟨th,hth,?_⟩
    split at hstate <;> exact hstate

theorem started_init : Execution.init.Started where
  first := by simp [Execution.init]
  acted := by simp [Execution.init]
  pending t act _ hact := by
    rcases t with _ | _ | t <;> cases hact
  finished t th f hth hstate := by
    rcases t with _ | _ | t <;> cases hth <;> cases hstate

end Execution
namespace Config

variable {params : ExecutionParams} {c c' : Config}

theorem Change.started (h : Change params c c') (hv : c.Valid) (hr : c.Recorded)
    (hs : c.exec.Started) : c'.exec.Started := by
  cases h with
  | constructMutex => exact hs.of_threads ⟨rfl,rfl,rfl,rfl,rfl⟩ (fun a => .refl _) rfl
  | reportBug => exact hs.frame c.exec.assertBug_frame
  | act i type order location value e hphase hneeds htyped hfollows he =>
    obtain ⟨-,rfl⟩ := switchFromMaster_spec he
    refine hs.step ⟨rfl,rfl,rfl,rfl,rfl⟩ (fun a => .refl _) (fun t act ht hact hstart => ?_)
      fun t th' hth' hstate => ?_
    · obtain ⟨th',hth',hpending⟩ := Option.bind_eq_some_iff.mp hact
      obtain ⟨th,hth,rfl⟩ := getElem?_modify_eq_some.mp hth'
      by_cases hit : i = t
      · subst hit
        rw [if_pos rfl] at hpending
        cases hpending
        exact follows_start hfollows hstart
      · rw [if_neg hit] at hpending
        refine hs.pending t act ht ?_ hstart
        rw [pendingOf,hth]
        exact hpending
    · obtain ⟨th,hth,rfl⟩ := getElem?_modify_eq_some.mp hth'
      split at hstate
      · cases hstate
      · exact .inl ⟨th,hth,hstate⟩
  | skip => exact hs
  | sleepDisabled i e hphase hneeds hi he => exact hs.slept (sleepDisabled_slept he)
  | detect i deadlock hphase hdeadlock =>
    dsimp only
    split
    · exact hs.frame c.exec.assertBug_frame
    · exact hs
  | work curr secondPartOfRmw node item queue items e hphase hasserted he =>
    have hcurr := (hv.curr _ _ _ _ hphase).1
    rcases processWork_cases he with ⟨_,heffect⟩ | ⟨_,hsteps⟩
    · exact heffect.started hs hcurr
    · exact hs.frame (MemSteps.frame hsteps)
  | finish curr secondPartOfRmw node queue hphase hdone =>
    have hremove := c.exec.removeStopped_frame (c.exec.acts curr).tid
    have henabled : { c.exec with
        enabled := (c.exec.removeStopped (c.exec.acts curr).tid).enabled }.Started :=
      hs.of_threads ⟨rfl,rfl,rfl,rfl,rfl⟩ (fun a => .refl _) rfl
    exact (henabled.frame hremove).frame (finishStep_frame params c.exec curr)
  | takeStep t newlyExplored node e e' act curr hphase hnext hpending hbegin =>
    obtain ⟨th,hth,hact,hready,rfl,henabled⟩ := takePending_spec hpending
    have hp := hv.exec.pending t th act hth hact
    have hthread : (c.exec.modifyThread t fun th => { th with pending := none }).threads[t]? =
        some { th with pending := none } := getElem?_modify_eq_some.mpr ⟨th,hth,by simp⟩
    have htaken : (c.exec.modifyThread t fun th => { th with pending := none }).Started := hs.take t
    have hrecorded : (c.exec.modifyThread t fun th => { th with pending := none }).Recorded :=
      hr.exec.setState t _ (fun _ => rfl) fun th' _ => ⟨id,.inl⟩
    have halive : (c.exec.modifyThread t fun th => { th with pending := none }).isComplete act.tid =
        false := by
      rw [isComplete,hp.tid,hthread]
      simp [hready]
    refine beginAction_started hbegin htaken hrecorded (hp.tid ▸ hp.user)
      (hp.tid ▸ (List.getElem?_eq_some_iff.mp hthread).1) halive (fun hstart => ?_) ?_
      fun hrmw a ha => hp.rmwr hrmw a (hp.tid ▸ ha)
    · rw [hp.tid]
      refine hs.pending t act hp.user ?_ hstart
      rw [pendingOf,hth]
      exact hact
    · rw [hp.tid,pendingOf,hthread]
      rfl

theorem Reachable.started (h : Reachable params c) : c.exec.Started := by
  have hall : (c.Valid ∧ c.Recorded) ∧ c.exec.Started :=
    reachable_induction (p := fun c => (c.Valid ∧ c.Recorded) ∧ c.exec.Started)
      ⟨⟨valid_init,recorded_init⟩,started_init⟩
      (fun _ _ hc hchange => ⟨⟨hchange.valid hc.1.1,hchange.recorded hc.1.1 hc.1.2⟩,
        hchange.started hc.1.1 hc.1.2 hc.2⟩) h
  exact hall.2

end Config
end CdsChecker
