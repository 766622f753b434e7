import CdsChecker.ReadSources
import CdsChecker.Library.Latest

/-! What the actions remember of release fences: each the last one of its thread before it. -/
namespace CdsChecker

/-- The same action, as far as the release fences before it go. -/
structure ModelAction.Remembers (a b : ModelAction) : Prop extends a.SameFence b where
  seqNumber : b.seqNumber = a.seqNumber
  lastFenceRelease : b.lastFenceRelease = a.lastFenceRelease

namespace ModelAction.Remembers

theorem refl (a : ModelAction) : a.Remembers a := ⟨.refl a,rfl,rfl⟩

theorem of_same {a b : ModelAction} (h : a.Same b) : a.Remembers b :=
  ⟨.of_keeps h.keeps,h.seqNumber,h.lastFenceRelease⟩

theorem of_trylock {a b : ModelAction} {result : Bool} (htrylock : a.isTrylock = true)
    (h : (a.setTryLock result).Same b) : a.Remembers b :=
  ⟨.of_keeps ((a.setTryLock_keeps result htrylock).trans h.keeps),h.seqNumber,h.lastFenceRelease⟩

end ModelAction.Remembers
namespace Execution

/-- Each action remembers the last release fence of its thread before it, and the lists are in
execution order. -/
structure Fencing (e : Execution) : Prop where
  fence : ∀ a ∈ e.actionTrace, ∀ f, (e.acts a).lastFenceRelease = some f →
    f ∈ e.actionTrace ∧ e.isReleaseFence (e.acts a).tid f = true ∧
      (e.acts f).seqNumber < (e.acts a).seqNumber
  newest : ∀ a ∈ e.actionTrace, ∀ f ∈ e.actionTrace,
    e.isReleaseFence (e.acts a).tid f = true → (e.acts f).seqNumber < (e.acts a).seqNumber →
      ∃ g, (e.acts a).lastFenceRelease = some g ∧ (e.acts f).seqNumber ≤ (e.acts g).seqNumber
  sorted : ∀ l t, (e.objThrd l t).Pairwise fun a b =>
    (e.acts a).seqNumber ≤ (e.acts b).seqNumber

variable {e e' : Execution} {curr : ActionId}

theorem Fencing.step (h : e.Fencing) (htrace : e'.actionTrace = e.actionTrace)
    (hlists : e'.objThrdMap = e.objThrdMap) (hacts : ∀ a, (e.acts a).Remembers (e'.acts a)) :
    e'.Fencing := by
  have hfence : ∀ t, e'.isReleaseFence t = e.isReleaseFence t := fun t => by
    funext a
    rw [isReleaseFence,(hacts a).tid,(hacts a).fence]
    rfl
  constructor
  · intro a ha f hf
    rw [htrace] at ha
    rw [(hacts a).lastFenceRelease] at hf
    rw [htrace,(hacts a).tid,hfence,(hacts f).seqNumber,(hacts a).seqNumber]
    exact h.fence a ha f hf
  · intro a ha f hf
    rw [htrace] at ha hf
    rw [(hacts a).tid,hfence,(hacts f).seqNumber,(hacts a).seqNumber,(hacts a).lastFenceRelease]
    intro hrelease hlt
    obtain ⟨g,hg,hle⟩ := h.newest a ha f hf hrelease hlt
    exact ⟨g,hg,hle.trans_eq (hacts g).seqNumber.symm⟩
  · intro l t
    have hlist : e'.objThrd l t = e.objThrd l t := by
      rw [objThrd,hlists]
      rfl
    rw [hlist]
    refine (h.sorted l t).imp fun {a b} hab => ?_
    rw [(hacts a).seqNumber,(hacts b).seqNumber]
    exact hab

theorem Fencing.frame (h : e.Fencing) (hframe : MemFrame e e') : e'.Fencing :=
  h.step hframe.actionTrace hframe.objThrdMap fun a => .of_same (hframe.act a)

theorem Fencing.woken {s : Set ThreadId} (h : e.Fencing) (hw : Woken e e' s) : e'.Fencing :=
  h.step hw.frame.actionTrace (by rw [hw.rest]) fun a => by
    rw [hw.rest]
    exact .refl _

theorem Fencing.modifyAct {f : ModelAction → ModelAction} (h : e.Fencing)
    (hf : (e.acts curr).Remembers (f (e.acts curr))) : (e.modifyAct curr f).Fencing :=
  h.step rfl rfl fun a => by
    by_cases ha : a = curr
    · subst ha
      simpa [Execution.modifyAct] using hf
    · simpa [Execution.modifyAct,ha] using ModelAction.Remembers.refl (e.acts a)

theorem CurrEffect.fencing {misc : ℕ} (h : CurrEffect e curr misc e') (hf : e.Fencing) :
    e'.Fencing := by
  cases h with
  | memory _ _ _ hframe => exact hf.frame hframe
  | create _ hframe =>
    refine Fencing.frame ?_ hframe
    exact hf.step rfl rfl fun a => .refl _
  | finish _ hwoken hframe =>
    refine Fencing.frame ?_ hframe
    exact (hf.woken hwoken).step rfl rfl fun a => .refl _
  | grab m htype _ _ hframe =>
    refine Fencing.frame ?_ hframe
    have hgrabbed : (e.acts curr).Remembers
        (if (e.acts curr).isTrylock then (e.acts curr).setTryLock true else e.acts curr) := by
      split
      · exact .of_trylock ‹_› (.refl _)
      · exact .refl _
    exact (hf.modifyAct hgrabbed).step rfl rfl fun a => .refl _
  | trylockFails m htype _ _ hframe =>
    have htrylock : (e.acts curr).isTrylock = true := by simp [ModelAction.isTrylock,htype]
    exact (hf.modifyAct (.of_trylock htrylock (.refl _))).frame hframe
  | release m _ _ hwoken hframe =>
    refine Fencing.frame ?_ hframe
    exact (hf.woken hwoken).step rfl rfl fun a => .refl _
  | wait m _ _ _ hwoken _ hframe =>
    refine Fencing.frame ?_ hframe
    exact (hf.woken hwoken).step rfl rfl fun a => .refl _
  | notifyAll _ hwoken hframe =>
    refine Fencing.frame ?_ hframe
    exact (hf.woken hwoken).step rfl rfl fun a => .refl _
  | notifyOne w _ _ hwoken hframe =>
    refine Fencing.frame ?_ hframe
    exact (hf.woken hwoken).step rfl rfl fun a => .refl _

theorem isReleaseFence_of_relaxed {a : ActionId} {t : ThreadId}
    (h : (e.acts a).order = .relaxed) : e.isReleaseFence t a = false := by
  simp [isReleaseFence,ModelAction.isRelease,h]

theorem Fenced.latest (h : e.Fenced) (hr : e.Recorded) (t : ThreadId) :
    IsLatest (fun a => (e.acts a).seqNumber)
      (fun a => a ∈ e.actionTrace ∧ e.isReleaseFence t a = true)
      (e.actionTrace.reverse.find? (e.isReleaseFence t)) := by
  have huser : ∀ g ∈ e.actionTrace, e.isReleaseFence t g = true → (e.acts g).tid ≠ 0 := by
    intro g hg hfence hzero
    simp [isReleaseFence,ModelAction.isFence,(h.uninit g hg hzero).1] at hfence
  refine isLatest_find?_reverse (hr.sorted.imp_of_mem fun ha hb hlt hma hmb => ?_)
  exact Nat.le_of_lt (hlt (huser _ ha hma) (huser _ hb hmb))

/-- A new action remembers the release fence that its thread had last. -/
theorem Fencing.arrive {act : ModelAction} {extra : Location → List ActionId} (h : e.Fencing)
    (hr : e.Recorded) (hl : e.Listed) (hf : e.Fenced) (harrives : Arrives e e' act)
    (hentered : Entered (e.newAction act).1 e' e.numActs extra)
    (hextra : ∀ l, ∀ a ∈ extra l, a = e.numActs) : e'.Fencing := by
  obtain ⟨htid,hseq,hlast,-⟩ := harrives.self_eq
  have hkeep : ∀ a ∈ e.actionTrace, e'.acts a = e.acts a := fun a ha =>
    harrives.same a (.inl (hr.old a ha).1)
  have holder : ∀ a ∈ e.actionTrace, (e'.acts a).seqNumber ≤ e.usedSequenceNumbers := by
    intro a ha
    rw [hkeep a ha]
    exact (hr.old a ha).2.1
  have hfence : ∀ a ∈ e.actionTrace, ∀ t, e'.isReleaseFence t a = e.isReleaseFence t a :=
    fun a ha t => by
      rw [isReleaseFence,hkeep a ha]
      rfl
  constructor
  · intro a ha f hf'
    rcases harrives.mem_actionTrace ha with rfl | ha | ⟨hgt,hlt⟩
    · rw [hlast,hf.release] at hf'
      have hmem := List.mem_reverse.mp (List.mem_of_find?_eq_some hf')
      rw [htid,hseq,hfence f hmem]
      exact ⟨harrives.mem_of_mem hmem,List.find?_some hf',Nat.lt_succ_of_le (holder f hmem)⟩
    · rw [hkeep a ha] at hf' ⊢
      obtain ⟨hmem,hrelease,hlt⟩ := h.fence a ha f hf'
      rw [hfence f hmem,hkeep f hmem]
      exact ⟨harrives.mem_of_mem hmem,hrelease,hlt⟩
    · rw [(harrives.uninit a hgt hlt).2.1] at hf'
      cases hf'
  · intro a ha f hmem hrelease hlt
    have hfmem : f ∈ e.actionTrace := by
      rcases harrives.mem_actionTrace hmem with rfl | hmem | ⟨hgt,hlt'⟩
      · rcases harrives.mem_actionTrace ha with rfl | ha | ⟨hgt,hlt'⟩
        · exact absurd hlt (Nat.lt_irrefl _)
        · rw [hseq] at hlt
          exact absurd ((holder a ha).trans_lt (Nat.lt_succ_self _)) (Nat.lt_asymm hlt)
        · rw [(harrives.uninit a hgt hlt').2.2.2.1] at hlt
          cases hlt
      · exact hmem
      · rw [isReleaseFence_of_relaxed (harrives.uninit f hgt hlt').1] at hrelease
        cases hrelease
    rw [hfence f hfmem] at hrelease
    rw [hkeep f hfmem] at hlt ⊢
    rcases harrives.mem_actionTrace ha with rfl | ha | ⟨hgt,hlt'⟩
    · rw [htid] at hrelease
      have hlatest := hf.latest hr act.tid
      rw [← hf.release,← hlast] at hlatest
      cases hg : (e'.acts e.numActs).lastFenceRelease with
      | none =>
        rw [hg] at hlatest
        exact absurd ⟨hfmem,hrelease⟩ (hlatest f)
      | some g =>
        rw [hg] at hlatest
        refine ⟨g,rfl,?_⟩
        rw [hkeep g hlatest.1.1]
        exact hlatest.2 f ⟨hfmem,hrelease⟩
    · rw [hkeep a ha] at hrelease hlt ⊢
      obtain ⟨g,hg,hle⟩ := h.newest a ha f hfmem hrelease hlt
      rw [hg]
      exact ⟨g,rfl,hle.trans_eq (congrArg _ (hkeep g (h.fence a ha g hg).1).symm)⟩
    · rw [(harrives.uninit a hgt hlt').2.2.2.1] at hlt
      cases hlt
  · intro l t
    have hold : (e.newAction act).1.objThrd l t = e.objThrd l t := rfl
    have hzero : ∀ l t, ∀ a ∈ (if ((e.newAction act).1.isFirst e.numActs = true ∧
        ((e.newAction act).1.acts e.numActs).location = l) ∧ t = 0 then
          [(e.newAction act).1.numActs] else []), (e'.acts a).seqNumber = 0 := by
      intro l t a ha
      split at ha
      · rename_i hfirst
        rw [List.mem_singleton.mp ha]
        have hmem : (e.newAction act).1.numActs ∈ e'.actionTrace := by
          rw [hentered.actionTrace,if_pos hfirst.1.1]
          simp
        have hnum : (e.newAction act).1.numActs = e.numActs + 1 := rfl
        rw [hnum] at hmem ⊢
        rcases harrives.mem_actionTrace hmem with heq | hmem | ⟨hgt,hlt⟩
        · exact absurd heq (Nat.succ_ne_self _)
        · exact absurd (hr.old _ hmem).1 (Nat.not_lt.mpr (Nat.le_succ _))
        · exact (harrives.uninit _ hgt hlt).2.2.2.1
      · cases ha
    rw [hentered.objThrd,hold]
    refine List.pairwise_append.mpr ⟨List.pairwise_append.mpr ⟨?_,?_,?_⟩,?_,?_⟩
    · split
      · exact List.pairwise_singleton _ _
      · exact List.Pairwise.nil
    · refine (h.sorted l t).imp_of_mem fun {a b} ha hb hab => ?_
      rw [hkeep a (hl.mem l t a ha).1,hkeep b (hl.mem l t b hb).1]
      exact hab
    · intro a ha b hb
      rw [hzero l t a ha]
      exact Nat.zero_le _
    · split
      · refine List.pairwise_of_forall_mem_list fun a ha b hb => ?_
        rw [hextra l a ha,hextra l b hb]
      · exact List.Pairwise.nil
    · intro a ha b hb
      split at hb
      · rw [hextra l b hb,hseq]
        rcases List.mem_append.mp ha with ha | ha
        · rw [hzero l t a ha]
          exact Nat.zero_le _
        · exact (holder a (hl.mem l t a ha).1).trans (Nat.le_succ _)
      · cases hb

/-- The start of a step. -/
theorem beginAction_fencing {params : ExecutionParams} {act : ModelAction} {newlyExplored : Bool}
    {node : Choices} (h : e.beginAction params act newlyExplored node = some (e',curr))
    (hfencing : e.Fencing) (hf : e.Fenced) (hl : e.Listed) (hr : e.Recorded)
    (hthread : act.tid < e.threads.length)
    (hrmwr : (act.isRmwc || act.isRmw) = true → ∀ a, e.getLastAction act.tid = some a →
      (e.acts a).isRmwr = true) : e'.Fencing := by
  obtain ⟨⟨e₁,curr₁⟩,hinit,h⟩ := Option.bind_eq_some_iff.mp h
  have hinit := toOption_eq_some.mp hinit
  obtain ⟨_,_,h⟩ := Option.bind_eq_some_iff.mp h
  unfold initializeCurrAction at hinit
  by_cases hsecond : (act.isRmwc || act.isRmw) = true
  · rw [if_pos hsecond] at hinit
    rw [if_pos hsecond] at h
    obtain ⟨rfl,rfl⟩ : e₁ = e' ∧ curr₁ = curr := by simpa using h
    obtain ⟨hlast,hsteps⟩ := processRmw_steps hinit
    refine Fencing.frame (hfencing.modifyAct ⟨?_,?_,?_⟩) (MemSteps.frame hsteps)
    · exact .processRmw hsecond (hrmwr hsecond _ hlast)
    · exact (ModelAction.Places.processRmw hsecond (hrmwr hsecond _ hlast)).seqNumber
    · unfold ModelAction.processRmw
      split <;> [rfl;(split <;> rfl)]
  · rw [if_neg hsecond] at hinit
    rw [if_neg hsecond] at h
    obtain ⟨rfl,rfl⟩ : (e.newAction act).1 = e₁ ∧ e.numActs = curr₁ := by
      simpa [newAction] using hinit
    obtain ⟨_,_,h⟩ := Option.bind_eq_some_iff.mp h
    obtain ⟨e₂,hadd,h⟩ := Option.bind_eq_some_iff.mp h
    have hadd := toOption_eq_some.mp hadd
    have htid : ((e.newAction act).1.acts e.numActs).tid < (e.newAction act).1.getNumThreads := by
      rw [newAction_act]
      exact hthread
    have hdone : e₂.Fencing := by
      refine hfencing.arrive hr hl hf (addActionToLists_arrives hadd hthread)
        (addActionToLists_entered hadd htid (Nat.lt_succ_self _)) fun l a ha => ?_
      simp only [ownLocation,waitLocation,List.mem_append] at ha
      rcases ha with ha | ha <;>
      · split at ha
        · exact List.mem_singleton.mp ha
        · cases ha
    split at h
    · obtain ⟨e₃,hread,h⟩ := Option.bind_eq_some_iff.mp h
      obtain ⟨rfl,rfl⟩ : e₃ = e' ∧ e.numActs = curr := by simpa using h
      exact hdone.frame (MemSteps.frame (checkRead_steps hread))
    · obtain ⟨rfl,rfl⟩ : e₂ = e' ∧ e.numActs = curr := by simpa using h
      exact hdone

theorem fencing_init : Execution.init.Fencing :=
  ⟨by simp [Execution.init],by simp [Execution.init],fun l t => by simp [objThrd,Execution.init]⟩

end Execution
namespace Config

open Execution

variable {params : ExecutionParams} {c c' : Config}

theorem Change.fencing (h : Change params c c') (hs : c.Sane) (hf : c.exec.Fencing) :
    c'.exec.Fencing := by
  cases h with
  | constructMutex => exact hf.step rfl rfl fun a => .refl _
  | reportBug => exact hf.frame c.exec.assertBug_frame
  | act i type order location value e hphase hneeds htyped hfollows he =>
    obtain ⟨-,rfl⟩ := switchFromMaster_spec he
    exact hf.step rfl rfl fun a => .refl _
  | skip => exact hf
  | sleepDisabled i e hphase hneeds hi he =>
    refine Fencing.frame ?_ (sleepDisabled_slept he).frame
    exact hf.step rfl rfl fun a => .refl _
  | detect i deadlock hphase hdeadlock =>
    dsimp only
    split
    · exact hf.frame c.exec.assertBug_frame
    · exact hf
  | work curr secondPartOfRmw node item queue items e hphase hasserted he =>
    rcases processWork_cases he with ⟨_,heffect⟩ | ⟨_,hsteps⟩
    · exact heffect.fencing hf
    · exact hf.frame (MemSteps.frame hsteps)
  | finish curr secondPartOfRmw node queue hphase hdone =>
    have hremove := c.exec.removeStopped_frame (c.exec.acts curr).tid
    have henabled : { c.exec with
        enabled := (c.exec.removeStopped (c.exec.acts curr).tid).enabled }.Fencing :=
      hf.step rfl rfl fun a => .refl _
    exact (henabled.frame hremove).frame (finishStep_frame params c.exec curr)
  | takeStep t newlyExplored node e e' act curr hphase hnext hpending hbegin =>
    obtain ⟨th,hth,hact,hready,rfl,henabled⟩ := takePending_spec hpending
    have hp := hs.valid.exec.pending t th act hth hact
    have hthread : (c.exec.modifyThread t fun th => { th with pending := none }).threads[t]? =
        some { th with pending := none } := getElem?_modify_eq_some.mpr ⟨th,hth,by simp⟩
    have hrecorded : (c.exec.modifyThread t fun th => { th with pending := none }).Recorded :=
      hs.recorded.exec.setState t _ (fun _ => rfl) fun th' _ => ⟨id,.inl⟩
    have hsame : SameMemory c.exec (c.exec.modifyThread t fun th => { th with pending := none }) :=
      { SameMemory.refl c.exec with flagged := id }
    exact beginAction_fencing hbegin (hf.step rfl rfl fun a => .refl _)
      (hs.fenced.step rfl rfl fun a => .refl _)
      (hs.ordered.exec.listed.samePlaces hsame.keepsOrder.samePlaces) hrecorded
      (hp.tid ▸ (List.getElem?_eq_some_iff.mp hthread).1)
      fun hrmw a ha => hp.rmwr hrmw a (hp.tid ▸ ha)

theorem Reachable.fencing (h : Reachable params c) : c.exec.Fencing :=
  reachable_invariant (p := fun c => c.exec.Fencing) fencing_init
    (fun _ _ hc hf hchange => hchange.fencing hc.informed.1 hf) h

end Config
end CdsChecker
