import CdsChecker.MemorySteps

/-! What the elementary changes of `MemorySteps` leave as it is: the threads, the mutexes, the lists
of actions, and everything about an action but what it reads and its clock vector, which grows. -/
namespace CdsChecker

/-- Every clock is at least as far. -/
structure ClockVector.Le (cv cv' : ClockVector) : Prop where
  numThreads : cv.numThreads ≤ cv'.numThreads
  clock : ∀ t, cv.getClock t ≤ cv'.getClock t

namespace ClockVector

theorem Le.refl (cv : ClockVector) : cv.Le cv := ⟨le_rfl,fun _ => le_rfl⟩

theorem Le.trans {a b c : ClockVector} (h : a.Le b) (h' : b.Le c) : a.Le c :=
  ⟨h.numThreads.trans h'.numThreads,fun t => (h.clock t).trans (h'.clock t)⟩

@[simp] theorem numThreads_merge (cv cv' : ClockVector) :
    (cv.merge cv').1.numThreads = max cv.numThreads cv'.numThreads := by
  simp [merge,numThreads]

theorem le_merge_left (cv cv' : ClockVector) : cv.Le (cv.merge cv').1 :=
  ⟨by simp,fun t => by simp⟩

theorem le_merge_right (cv cv' : ClockVector) : cv'.Le (cv.merge cv').1 :=
  ⟨by simp,fun t => by simp⟩

theorem Le.synchronizedSince {cv cv' : ClockVector} {t : ThreadId} {seq : ℕ} (h : cv.Le cv')
    (hs : cv.synchronizedSince t seq = true) : cv'.synchronizedSince t seq = true := by
  simp only [ClockVector.synchronizedSince,Bool.and_eq_true,decide_eq_true_eq] at hs ⊢
  exact ⟨hs.1.trans_le h.numThreads,hs.2.trans (h.clock t)⟩

end ClockVector

/-- The same action, up to what it reads and what it knows. -/
structure ModelAction.Same (a b : ModelAction) : Prop where
  type : b.type = a.type
  order : b.order = a.order
  location : b.location = a.location
  value : b.value = a.value
  tid : b.tid = a.tid
  lastFenceRelease : b.lastFenceRelease = a.lastFenceRelease
  seqNumber : b.seqNumber = a.seqNumber
  cv : a.cv.Le b.cv

namespace ModelAction.Same

theorem refl (a : ModelAction) : a.Same a := ⟨rfl,rfl,rfl,rfl,rfl,rfl,rfl,.refl _⟩

theorem trans {a b c : ModelAction} (h : a.Same b) (h' : b.Same c) : a.Same c :=
  ⟨h'.type.trans h.type,h'.order.trans h.order,h'.location.trans h.location,
    h'.value.trans h.value,h'.tid.trans h.tid,h'.lastFenceRelease.trans h.lastFenceRelease,
    h'.seqNumber.trans h.seqNumber,h.cv.trans h'.cv⟩

theorem setReadFrom (a : ModelAction) (rf : ActionId) : a.Same (a.setReadFrom rf) :=
  ⟨rfl,rfl,rfl,rfl,rfl,rfl,rfl,.refl _⟩

theorem setReadFromPromise (a : ModelAction) (p : PromiseId) : a.Same (a.setReadFromPromise p) :=
  ⟨rfl,rfl,rfl,rfl,rfl,rfl,rfl,.refl _⟩

theorem synchronizeWith (a act : ModelAction) : a.Same (a.synchronizeWith act).1 := by
  rw [ModelAction.synchronizeWith]
  split
  · exact refl a
  · exact ⟨rfl,rfl,rfl,rfl,rfl,rfl,rfl,ClockVector.le_merge_left _ _⟩

end ModelAction.Same

/-- What an action keeps while it is processed; the value of a trylock tells its outcome. -/
structure ModelAction.Keeps (a b : ModelAction) : Prop where
  type : b.type = a.type
  order : b.order = a.order
  location : b.location = a.location
  value : a.isTrylock = false → b.value = a.value
  tid : b.tid = a.tid
  seqNumber : b.seqNumber = a.seqNumber
  cv : a.cv.Le b.cv

theorem ModelAction.Same.keeps {a b : ModelAction} (h : a.Same b) : a.Keeps b :=
  ⟨h.type,h.order,h.location,fun _ => h.value,h.tid,h.seqNumber,h.cv⟩

theorem ModelAction.Keeps.trans {a b c : ModelAction} (h : a.Keeps b) (h' : b.Keeps c) :
    a.Keeps c where
  type := h'.type.trans h.type
  order := h'.order.trans h.order
  location := h'.location.trans h.location
  value ha := by
    have hb : b.isTrylock = false := by
      unfold isTrylock at ha ⊢
      rw [h.type]
      exact ha
    exact (h'.value hb).trans (h.value ha)
  tid := h'.tid.trans h.tid
  seqNumber := h'.seqNumber.trans h.seqNumber
  cv := h.cv.trans h'.cv

theorem ModelAction.setTryLock_keeps {a : ModelAction} (b : Bool) (h : a.isTrylock = true) :
    a.Keeps (a.setTryLock b) :=
  ⟨rfl,rfl,rfl,fun hf => absurd h (by simp [hf]),rfl,rfl,.refl _⟩

namespace Execution

structure MemFrame (e e' : Execution) : Prop where
  threads : e'.threads = e.threads
  enabled : e'.enabled = e.enabled
  mutexes : e'.mutexes = e.mutexes
  condvarWaitersMap : e'.condvarWaitersMap = e.condvarWaitersMap
  numActs : e'.numActs = e.numActs
  actionTrace : e'.actionTrace = e.actionTrace
  objMap : e'.objMap = e.objMap
  objThrdMap : e'.objThrdMap = e.objThrdMap
  thrdLastAction : e'.thrdLastAction = e.thrdLastAction
  thrdLastFenceRelease : e'.thrdLastFenceRelease = e.thrdLastFenceRelease
  usedSequenceNumbers : e'.usedSequenceNumbers = e.usedSequenceNumbers
  act : ∀ a, (e.acts a).Same (e'.acts a)

namespace MemFrame

variable {e e' e'' : Execution}

theorem refl (e : Execution) : MemFrame e e :=
  ⟨rfl,rfl,rfl,rfl,rfl,rfl,rfl,rfl,rfl,rfl,rfl,fun _ => .refl _⟩

theorem trans (h : MemFrame e e') (h' : MemFrame e' e'') : MemFrame e e'' where
  threads := h'.threads.trans h.threads
  enabled := h'.enabled.trans h.enabled
  mutexes := h'.mutexes.trans h.mutexes
  condvarWaitersMap := h'.condvarWaitersMap.trans h.condvarWaitersMap
  numActs := h'.numActs.trans h.numActs
  actionTrace := h'.actionTrace.trans h.actionTrace
  objMap := h'.objMap.trans h.objMap
  objThrdMap := h'.objThrdMap.trans h.objThrdMap
  thrdLastAction := h'.thrdLastAction.trans h.thrdLastAction
  thrdLastFenceRelease := h'.thrdLastFenceRelease.trans h.thrdLastFenceRelease
  usedSequenceNumbers := h'.usedSequenceNumbers.trans h.usedSequenceNumbers
  act a := (h.act a).trans (h'.act a)

end MemFrame

theorem modifyAct_same (e : Execution) (b : ActionId) {f : ModelAction → ModelAction}
    (hf : (e.acts b).Same (f (e.acts b))) (a : ActionId) :
    (e.acts a).Same ((e.modifyAct b f).acts a) := by
  by_cases hab : a = b
  · subst hab
    simpa [modifyAct] using hf
  · simpa [modifyAct,hab] using ModelAction.Same.refl (e.acts a)

theorem modifyAct_frame (e : Execution) (b : ActionId) {f : ModelAction → ModelAction}
    (hf : (e.acts b).Same (f (e.acts b))) : MemFrame e (e.modifyAct b f) :=
  ⟨rfl,rfl,rfl,rfl,rfl,rfl,rfl,rfl,rfl,rfl,rfl,e.modifyAct_same b hf⟩

theorem eliminateThread_frame (e : Execution) (p : PromiseId) (t : ThreadId) :
    MemFrame e (e.eliminateThread p t).1 :=
  ⟨rfl,rfl,rfl,rfl,rfl,rfl,rfl,rfl,rfl,rfl,rfl,fun _ => .refl _⟩

theorem setFailed_frame (e : Execution) (failed : Bool) :
    MemFrame e { e with failedPromise := failed } :=
  ⟨rfl,rfl,rfl,rfl,rfl,rfl,rfl,rfl,rfl,rfl,rfl,fun _ => .refl _⟩

theorem checkPromisesLoop_frame (tid : ThreadId) (oldCv : Option ClockVector)
    (mergeCv : ClockVector) (ps : List PromiseId) (e : Execution) :
    MemFrame e (checkPromisesLoop tid oldCv mergeCv ps e) := by
  induction ps generalizing e with
  | nil => exact .refl e
  | cons p ps ih =>
    rw [checkPromisesLoop]
    split
    · have hframe := e.eliminateThread_frame p tid
      split
      · rename_i e₁ h
        rw [h] at hframe
        exact hframe.trans (e₁.setFailed_frame true)
      · rename_i e₁ h
        rw [h] at hframe
        exact hframe.trans (ih e₁)
    · exact ih e

theorem checkPromises_frame (e : Execution) (tid : ThreadId) (oldCv : Option ClockVector)
    (mergeCv : ClockVector) : MemFrame e (e.checkPromises tid oldCv mergeCv) :=
  checkPromisesLoop_frame tid oldCv mergeCv e.promises e

theorem synchronizeCall_frame (e : Execution) (first second : ActionId) :
    MemFrame e (e.synchronizeCall first second).1 := by
  rw [synchronizeCall]
  split
  · exact ⟨rfl,rfl,rfl,rfl,rfl,rfl,rfl,rfl,rfl,rfl,rfl,fun _ => .refl _⟩
  · set e₁ := e.checkPromises (e.acts first).tid (some (e.acts second).cv) (e.acts first).cv
    have hcheck : MemFrame e e₁ := e.checkPromises_frame _ _ _
    have hsync : MemFrame e₁ (e₁.synchronizeWith second first).1 :=
      e₁.modifyAct_frame second
        (f := fun _ => ((e₁.acts second).synchronizeWith (e₁.acts first)).1)
        (ModelAction.Same.synchronizeWith _ _)
    dsimp only
    split
    · rename_i e₂ h
      rw [h] at hsync
      exact (hcheck.trans hsync).trans
        ⟨rfl,rfl,rfl,rfl,rfl,rfl,rfl,rfl,rfl,rfl,rfl,fun _ => .refl _⟩
    · rename_i e₂ h
      rw [h] at hsync
      exact hcheck.trans hsync

theorem synchronize_frame (e : Execution) (first second : ActionId) :
    MemFrame e (e.synchronize first second).1 :=
  (e.synchronizeCall_frame first second).trans
    ⟨rfl,rfl,rfl,rfl,rfl,rfl,rfl,rfl,rfl,rfl,rfl,fun _ => .refl _⟩

theorem MemStep.frame {curr : ActionId} {e e' : Execution} (h : MemStep curr e e') :
    MemFrame e e' := by
  cases h with
  | synchronize first second => exact e.synchronize_frame first second
  | readFrom act rf _ => exact e.modifyAct_frame act (ModelAction.Same.setReadFrom _ rf)
  | readFromPromise p => exact e.modifyAct_frame curr (ModelAction.Same.setReadFromPromise _ p)
  | _ => exact ⟨rfl,rfl,rfl,rfl,rfl,rfl,rfl,rfl,rfl,rfl,rfl,fun _ => .refl _⟩

theorem MemSteps.frame {curr : ActionId} {e e' : Execution} (h : MemSteps curr e e') :
    MemFrame e e' := by
  induction h with
  | refl => exact .refl e
  | tail _ hstep ih => exact ih.trans hstep.frame

end Execution
end CdsChecker
