import CdsChecker.Wakeups

/-! What the actions on threads and mutexes do to the threads, the mutexes and the waiting lists. -/
namespace CdsChecker
namespace Execution

/-! ### Synchronization -/

theorem checkPromisesLoop_acts (tid : ThreadId) (oldCv : Option ClockVector)
    (mergeCv : ClockVector) (ps : List PromiseId) (e : Execution) :
    (checkPromisesLoop tid oldCv mergeCv ps e).acts = e.acts := by
  induction ps generalizing e with
  | nil => rfl
  | cons p ps ih =>
    rw [checkPromisesLoop]
    split
    · have hacts : (e.eliminateThread p tid).1.acts = e.acts := rfl
      split
      · rename_i e₁ h
        rw [h] at hacts
        exact hacts
      · rename_i e₁ h
        rw [h] at hacts
        exact (ih e₁).trans hacts
    · exact ih e

theorem checkPromises_acts (e : Execution) (tid : ThreadId) (oldCv : Option ClockVector)
    (mergeCv : ClockVector) : (e.checkPromises tid oldCv mergeCv).acts = e.acts :=
  checkPromisesLoop_acts tid oldCv mergeCv e.promises e

/-- A call succeeds unless the second action comes first, and then merges the clock vectors. -/
theorem synchronize_acts (e : Execution) (first second : ActionId) :
    (e.synchronize first second).1.acts =
      if e.before second first then e.acts
      else Function.update e.acts second
        { e.acts second with cv := ((e.acts second).cv.merge (e.acts first).cv).1 } := by
  rw [synchronize]
  dsimp only
  rw [synchronizeCall]
  by_cases hb : e.before second first = true
  · simp [hb]
  · have hb' : (e.acts second).before (e.acts first) = false := by simpa [before] using hb
    have hacts := e.checkPromises_acts (e.acts first).tid (some (e.acts second).cv)
      (e.acts first).cv
    simp [hb,synchronizeWith,ModelAction.synchronizeWith,hacts,hb',modifyAct]

theorem synchronize_of_before {e : Execution} {first second : ActionId}
    (h : e.before second first = true) : (e.synchronize first second).1 = { e with
      badSynchronization := true
      syncCalls := ⟨first,second,e.promiseView,e.promiseView⟩ :: e.syncCalls } := by
  rw [synchronize]
  dsimp only
  rw [synchronizeCall,if_pos h]
  rfl

theorem checkPromisesLoop_rest (tid : ThreadId) (oldCv : Option ClockVector)
    (mergeCv : ClockVector) (ps : List PromiseId) (e : Execution) :
    checkPromisesLoop tid oldCv mergeCv ps e = { e with
      proms := (checkPromisesLoop tid oldCv mergeCv ps e).proms
      failedPromise := (checkPromisesLoop tid oldCv mergeCv ps e).failedPromise } := by
  induction ps generalizing e with
  | nil => rfl
  | cons p ps ih =>
    rw [checkPromisesLoop]
    split
    · split
      · rename_i e₁ h
        obtain rfl : _ = e₁ := congrArg Prod.fst h
        rfl
      · rename_i e₁ h
        obtain rfl : _ = e₁ := congrArg Prod.fst h
        exact ih _
    · exact ih e

theorem synchronize_of_not_before {e : Execution} {first second : ActionId}
    (h : e.before second first = false) :
    (e.synchronize first second).1 = { e with
      acts := Function.update e.acts second
        { e.acts second with cv := ((e.acts second).cv.merge (e.acts first).cv).1 }
      proms := (e.checkPromises (e.acts first).tid (some (e.acts second).cv)
        (e.acts first).cv).proms
      failedPromise := (e.checkPromises (e.acts first).tid (some (e.acts second).cv)
        (e.acts first).cv).failedPromise
      synchronized := (first,second) :: e.synchronized
      syncCalls := ⟨first,second,e.promiseView,
        { e.promiseView with
          acts := Function.update e.acts second
            { e.acts second with cv := ((e.acts second).cv.merge (e.acts first).cv).1 }
          proms := (e.checkPromises (e.acts first).tid (some (e.acts second).cv)
            (e.acts first).cv).proms }⟩ :: e.syncCalls } := by
  have hrest := checkPromisesLoop_rest (e.acts first).tid (some (e.acts second).cv)
    (e.acts first).cv e.promises e
  have hb : (e.acts second).before (e.acts first) = false := by simpa [before] using h
  have hne : ¬ e.before second first = true := by simp [h]
  rw [synchronize]
  dsimp only
  rw [synchronizeCall,if_neg hne]
  dsimp only
  unfold checkPromises
  rw [hrest]
  simp only [synchronizeWith,ModelAction.synchronizeWith,hb,Bool.false_eq_true,if_false,
    modifyAct,promiseView]

theorem synchronize_snd (e : Execution) (first second : ActionId) :
    (e.synchronize first second).2 = !e.before second first := by
  rw [synchronize]
  dsimp only
  rw [synchronizeCall]
  by_cases hb : e.before second first = true
  · simp [hb]
  · have hb' : (e.acts second).before (e.acts first) = false := by simpa [before] using hb
    have hacts := e.checkPromises_acts (e.acts first).tid (some (e.acts second).cv)
      (e.acts first).cv
    simp [hb,synchronizeWith,ModelAction.synchronizeWith,hacts,hb']

theorem synchronize_cv {e : Execution} {first second : ActionId}
    (h : e.before second first = false) :
    (e.acts first).cv.Le ((e.synchronize first second).1.acts second).cv := by
  rw [synchronize_acts,h]
  simpa using ClockVector.le_merge_right (e.acts second).cv (e.acts first).cv

/-! ### Mutexes -/

theorem assertBug_frame (e : Execution) : MemFrame e e.assertBug := by
  rw [assertBug]
  split
  · exact ⟨rfl,rfl,rfl,rfl,rfl,rfl,rfl,rfl,rfl,rfl,rfl,fun _ => .refl _⟩
  · exact ⟨rfl,rfl,rfl,rfl,rfl,rfl,rfl,rfl,rfl,rfl,rfl,fun _ => .refl _⟩

theorem assertBug_acts (e : Execution) : e.assertBug.acts = e.acts := by
  rw [assertBug]
  split <;> rfl

theorem MemFrame.setLocked {e e' : Execution} (h : MemFrame e e') (m : Location)
    (holder : Option ThreadId) : MemFrame (e.setLocked m holder) (e'.setLocked m holder) where
  threads := h.threads
  enabled := h.enabled
  mutexes := by simp [Execution.setLocked,h.mutexes]
  condvarWaitersMap := h.condvarWaitersMap
  numActs := h.numActs
  actionTrace := h.actionTrace
  objMap := h.objMap
  objThrdMap := h.objThrdMap
  thrdLastAction := h.thrdLastAction
  thrdLastFenceRelease := h.thrdLastFenceRelease
  usedSequenceNumbers := h.usedSequenceNumbers
  act := h.act

theorem grabLock_frame (e : Execution) (curr : ActionId) (m : Location) :
    MemFrame (e.setLocked m (some (e.acts curr).tid)) (e.grabLock curr m).1 := by
  rw [grabLock]
  set e₁ := if (e.acts curr).cv.getClock (e.mutexes m).allocTid ≤ (e.mutexes m).allocClock then
    e.assertBug else e with he₁
  have hframe : MemFrame e e₁ := by
    rw [he₁]
    split
    · exact e.assertBug_frame
    · exact .refl e
  have hlocked := hframe.setLocked m (some (e.acts curr).tid)
  rw [(hframe.act curr).tid]
  split
  · exact hlocked.trans (synchronize_frame _ _ curr)
  · exact hlocked

theorem getLastUnlock_congr {e e' : Execution} {curr : ActionId} (hobj : e'.objMap = e.objMap)
    (htype : ∀ a, (e'.acts a).type = (e.acts a).type)
    (hlocation : (e'.acts curr).location = (e.acts curr).location) :
    e'.getLastUnlock curr = e.getLastUnlock curr := by
  unfold getLastUnlock ModelAction.isUnlock ModelAction.isWait
  simp only [hobj,htype,hlocation]

/-- The lock knows what the previous unlock knows. -/
theorem grabLock_cv {e : Execution} {curr unlock : ActionId} {m : Location}
    (h : e.getLastUnlock curr = some unlock) (hb : e.before curr unlock = false) :
    (e.acts unlock).cv.Le (((e.grabLock curr m).1).acts curr).cv := by
  rw [grabLock]
  set e₁ := if (e.acts curr).cv.getClock (e.mutexes m).allocTid ≤ (e.mutexes m).allocClock then
    e.assertBug else e with he₁
  have hacts : (e₁.setLocked m (some (e₁.acts curr).tid)).acts = e.acts := by
    rw [he₁]
    split
    · exact e.assertBug_acts
    · rfl
  have hobj : e₁.objMap = e.objMap := by
    rw [he₁]
    split
    · exact e.assertBug_frame.objMap
    · rfl
  set e₂ := e₁.setLocked m (some (e₁.acts curr).tid)
  have hlast : e₂.getLastUnlock curr = some unlock := by
    rw [← h]
    exact getLastUnlock_congr hobj (fun a => by rw [hacts]) (by rw [hacts])
  have hb₂ : e₂.before curr unlock = false := by rw [before,hacts]; exact hb
  have hcv := synchronize_cv hb₂
  rw [hlast]
  rwa [hacts] at hcv

/-- The threads that a wakeup loop of the given thread finds. -/
def waiters (e : Execution) (test : ModelAction → Bool) (on : ThreadId) : List ThreadId :=
  (List.range e.getNumThreads).filter fun t => e.waitsWith test on t

/-- Put to sleep: disabled and blocked. -/
def slept (e : Execution) (t : ThreadId) : Execution :=
  { e with
    enabled := Function.update e.enabled t false
    threads := e.threads.modify t fun th => { th with state := .blocked } }

theorem setEnabled_false_frame (e : Execution) (t : ThreadId) :
    MemFrame { e with enabled := Function.update e.enabled t false } (e.setEnabled t false) := by
  unfold setEnabled checkPromisesThreadDisabled
  simp only [Bool.false_eq_true,if_false]
  split
  · exact ⟨rfl,rfl,rfl,rfl,rfl,rfl,rfl,rfl,rfl,rfl,rfl,fun _ => .refl _⟩
  · exact .refl _

theorem MemFrame.modifyThread {e e' : Execution} (h : MemFrame e e') (t : ThreadId)
    (f : Thread → Thread) : MemFrame (e.modifyThread t f) (e'.modifyThread t f) :=
  { h with threads := congrArg (List.modify · t f) h.threads }

theorem sleep_spec {e e' : Execution} {t : ThreadId} (h : e.sleep t = .ok e') :
    (∃ th, e.threads[t]? = some th ∧ th.state ≠ .completed) ∧ MemFrame (e.slept t) e' := by
  have hframe := e.setEnabled_false_frame t
  unfold sleep at h
  obtain ⟨halive,rfl⟩ := (setState_eq_ok (show ThreadState.blocked ≠ .completed by decide)).mp h
  rw [hframe.threads] at halive
  exact ⟨halive,hframe.modifyThread t _⟩

/-! ### The current action -/

/-- The effect of the current action on threads, mutexes and waiting lists. -/
inductive CurrEffect (e : Execution) (curr : ActionId) (misc : ℕ) : Execution → Prop
  | memory {e' : Execution} (hmutex : (e.acts curr).isMutexOp = false)
      (hcreate : (e.acts curr).type ≠ .threadCreate) (hfinish : (e.acts curr).type ≠ .threadFinish)
      (hframe : MemFrame e e') : CurrEffect e curr misc e'
  | create {e' : Execution} (htype : (e.acts curr).type = .threadCreate)
      (hframe : MemFrame { e with
        threads := e.threads ++ [{ parent := some (e.acts curr).tid,creation := some curr }]
        enabled := Function.update e.enabled e.threads.length true } e') :
      CurrEffect e curr misc e'
  | finish {e₁ e' : Execution} (htype : (e.acts curr).type = .threadFinish)
      (hwoken : Woken e e₁ {t | t ∈ e.waiters ModelAction.isThreadJoin (e.acts curr).tid})
      (hframe : MemFrame
        (e₁.modifyThread (e.acts curr).tid fun th => { th with state := .completed }) e') :
      CurrEffect e curr misc e'
  | grab {e' : Execution} (m : Location)
      (htype : (e.acts curr).type = .atomicLock ∨
        (e.acts curr).type = .atomicTrylock ∧ (e.mutexes m).locked = none)
      (hm : (e.acts curr).getMutex = some m)
      (hsync : ∀ u, e.getLastUnlock curr = some u → e.before curr u = false →
        (e.acts u).cv.Le (e'.acts curr).cv)
      (hframe : MemFrame
        ((e.modifyAct curr fun a => if a.isTrylock then a.setTryLock true else a).setLocked m
          (some (e.acts curr).tid)) e') : CurrEffect e curr misc e'
  | trylockFails {e' : Execution} (m : Location) (htype : (e.acts curr).type = .atomicTrylock)
      (hm : (e.acts curr).getMutex = some m) (hlocked : (e.mutexes m).locked ≠ none)
      (hframe : MemFrame (e.modifyAct curr fun a => a.setTryLock false) e') :
      CurrEffect e curr misc e'
  | release {e₁ e' : Execution} (m : Location)
      (htype : (e.acts curr).type = .atomicUnlock ∨ (e.acts curr).type = .atomicWait ∧ misc ≠ 0)
      (hm : (e.acts curr).getMutex = some m)
      (hwoken : Woken e e₁ {t | t ∈ e.waiters ModelAction.isLock (e.acts curr).tid})
      (hframe : MemFrame (e₁.setLocked m none) e') : CurrEffect e curr misc e'
  | wait {e₁ e' : Execution} (m : Location) (htype : (e.acts curr).type = .atomicWait)
      (hmisc : misc = 0) (hm : (e.acts curr).getMutex = some m)
      (hwoken : Woken e e₁ {t | t ∈ e.waiters ModelAction.isLock (e.acts curr).tid})
      (halive : ∃ th, e₁.threads[(e.acts curr).tid]? = some th ∧ th.state ≠ .completed)
      (hframe : MemFrame (((e₁.setLocked m none).setWaiters (e.acts curr).location
        (e.condvarWaitersMap (e.acts curr).location ++ [curr])).slept (e.acts curr).tid) e') :
      CurrEffect e curr misc e'
  | notifyAll {e₁ e' : Execution} (htype : (e.acts curr).type = .atomicNotifyAll)
      (hwoken : Woken e e₁
        {t | ∃ w ∈ e.condvarWaitersMap (e.acts curr).location, (e.acts w).tid = t})
      (hframe : MemFrame (e₁.setWaiters (e.acts curr).location []) e') :
      CurrEffect e curr misc e'
  | notifyOne {e₁ e' : Execution} (w : ActionId) (htype : (e.acts curr).type = .atomicNotifyOne)
      (hw : (e.condvarWaitersMap (e.acts curr).location)[misc]? = some w)
      (hwoken : Woken e e₁ {(e.acts w).tid})
      (hframe : MemFrame (e₁.setWaiters (e.acts curr).location
        ((e.condvarWaitersMap (e.acts curr).location).eraseIdx misc)) e') :
      CurrEffect e curr misc e'

theorem mutexOf_eq_ok {e : Execution} {curr : ActionId} {m : Location} :
    e.mutexOf curr = .ok m ↔ (e.acts curr).getMutex = some m := by
  unfold mutexOf
  cases (e.acts curr).getMutex <;> simp

theorem releaseLock_eq_ok {e e' : Execution} {curr : ActionId} {m : Location} :
    e.releaseLock curr m = .ok e' ↔
      ∃ e₁, wakeThreads (e.waiters ModelAction.isLock (e.acts curr).tid) e = .ok e₁ ∧
        e₁.setLocked m none = e' := by
  rw [releaseLock,bind_eq_ok,wakeWaiting_eq]
  simp [waiters]

theorem modifyAct_eq_self {e : Execution} {a : ActionId} {f : ModelAction → ModelAction}
    (h : f (e.acts a) = e.acts a) : e.modifyAct a f = e := by
  simp [modifyAct,h]

theorem trylock_effect {e e' : Execution} {curr : ActionId} {misc : ℕ} {b : Bool}
    (htype : (e.acts curr).type = .atomicTrylock) (h : e.processMutex curr misc = .ok (e',b)) :
    CurrEffect e curr misc e' := by
  have htry : (e.acts curr).isTrylock = true := by simp [ModelAction.isTrylock,htype]
  simp only [processMutex,htype] at h
  obtain ⟨m,hm,h⟩ := bind_eq_ok.mp h
  have hm := mutexOf_eq_ok.mp hm
  cases hlocked : (e.mutexes m).locked with
  | some t =>
    simp only [hlocked,Option.isNone_some,Bool.false_eq_true,if_false,pure_eq_ok] at h
    cases h
    exact .trylockFails m htype hm (by simp [hlocked]) (.refl _)
  | none =>
    simp only [hlocked,Option.isNone_none,if_true,pure_eq_ok] at h
    set e₁ := e.modifyAct curr fun a => a.setTryLock true with he₁
    have hsame : (e.modifyAct curr fun a => if a.isTrylock then a.setTryLock true else a) = e₁ := by
      simp [he₁,modifyAct,htry]
    have hother : ∀ a, (e₁.acts a).type = (e.acts a).type ∧ (e₁.acts a).cv = (e.acts a).cv ∧
        (e₁.acts a).seqNumber = (e.acts a).seqNumber ∧
        (e₁.acts a).location = (e.acts a).location ∧ (e₁.acts a).tid = (e.acts a).tid := by
      intro a
      by_cases ha : a = curr
      · simp [he₁,modifyAct,ha,ModelAction.setTryLock]
      · simp [he₁,modifyAct,ha]
    obtain rfl : (e₁.grabLock curr m).1 = e' := congrArg Prod.fst h
    refine .grab m (.inr ⟨htype,hlocked⟩) hm ?_ ?_
    · intro u hu hb
      have hu₁ : e₁.getLastUnlock curr = some u := by
        rw [← hu]
        exact getLastUnlock_congr rfl (fun a => (hother a).1) (hother curr).2.2.2.1
      have hb₁ : e₁.before curr u = false := by
        rw [before,ModelAction.before,(hother curr).2.2.1,(hother u).2.2.1]
        exact hb
      have hcv := grabLock_cv (m := m) hu₁ hb₁
      rwa [(hother u).2.1] at hcv
    · rw [hsame,← (hother curr).2.2.2.2]
      exact e₁.grabLock_frame curr m

theorem lock_effect {e e' : Execution} {curr : ActionId} {misc : ℕ} {b : Bool}
    (htype : (e.acts curr).type = .atomicLock) (h : e.processMutex curr misc = .ok (e',b)) :
    CurrEffect e curr misc e' := by
  simp only [processMutex,htype] at h
  obtain ⟨m,hm,h⟩ := bind_eq_ok.mp h
  obtain rfl : (e.grabLock curr m).1 = e' := congrArg Prod.fst (Except.ok.inj h)
  have hsame : (e.modifyAct curr fun a => if a.isTrylock then a.setTryLock true else a) = e :=
    modifyAct_eq_self (by simp [ModelAction.isTrylock,htype])
  refine .grab m (.inl htype) (mutexOf_eq_ok.mp hm) (fun u hu hb => grabLock_cv hu hb) ?_
  rw [hsame]
  exact e.grabLock_frame curr m

theorem unlock_effect {e e' : Execution} {curr : ActionId} {misc : ℕ} {b : Bool}
    (htype : (e.acts curr).type = .atomicUnlock) (h : e.processMutex curr misc = .ok (e',b)) :
    CurrEffect e curr misc e' := by
  simp only [processMutex,htype] at h
  obtain ⟨m,hm,h⟩ := bind_eq_ok.mp h
  obtain ⟨e₁,hrelease,h⟩ := bind_eq_ok.mp h
  obtain ⟨e₂,hwake,rfl⟩ := releaseLock_eq_ok.mp hrelease
  obtain rfl : _ = e' := congrArg Prod.fst (Except.ok.inj h)
  exact .release m (.inl htype) (mutexOf_eq_ok.mp hm) (wakeThreads_woken hwake) (.refl _)

theorem wait_effect {e e' : Execution} {curr : ActionId} {misc : ℕ} {b : Bool}
    (htype : (e.acts curr).type = .atomicWait) (h : e.processMutex curr misc = .ok (e',b)) :
    CurrEffect e curr misc e' := by
  simp only [processMutex,htype] at h
  obtain ⟨m,hm,h⟩ := bind_eq_ok.mp h
  obtain ⟨e₁,hrelease,h⟩ := bind_eq_ok.mp h
  obtain ⟨e₂,hwake,rfl⟩ := releaseLock_eq_ok.mp hrelease
  obtain ⟨e₃,hsleep,h⟩ := bind_eq_ok.mp h
  obtain rfl : e₃ = e' := congrArg Prod.fst (Except.ok.inj h)
  have hwoken := wakeThreads_woken hwake
  have hacts : (e₂.setLocked m none).acts = e.acts := hwoken.acts
  have hwaiters : (e₂.setLocked m none).condvarWaitersMap = e.condvarWaitersMap :=
    hwoken.condvarWaitersMap
  unfold sleepWaiting at hsleep
  by_cases hmisc : misc = 0
  · rw [if_pos hmisc] at hsleep
    obtain ⟨halive,hframe⟩ := sleep_spec hsleep
    rw [hacts] at halive
    rw [hacts,hwaiters] at hframe
    exact .wait m htype hmisc (mutexOf_eq_ok.mp hm) hwoken halive hframe
  · rw [if_neg hmisc] at hsleep
    cases hsleep
    exact .release m (.inr ⟨htype,hmisc⟩) (mutexOf_eq_ok.mp hm) hwoken (.refl _)

theorem notifyAll_effect {e e' : Execution} {curr : ActionId} {misc : ℕ} {b : Bool}
    (htype : (e.acts curr).type = .atomicNotifyAll) (h : e.processMutex curr misc = .ok (e',b)) :
    CurrEffect e curr misc e' := by
  simp only [processMutex,htype] at h
  obtain ⟨e₁,hall,h⟩ := bind_eq_ok.mp h
  obtain ⟨e₂,hwake,hset⟩ := bind_eq_ok.mp hall
  obtain rfl : e₂.setWaiters (e.acts curr).location [] = e₁ := Except.ok.inj hset
  obtain rfl : _ = e' := congrArg Prod.fst (Except.ok.inj h)
  rw [wakeAll_eq] at hwake
  exact .notifyAll htype ((wakeThreads_woken hwake).congr (by ext; simp)) (.refl _)

theorem notifyOne_effect {e e' : Execution} {curr : ActionId} {misc : ℕ} {b : Bool}
    (htype : (e.acts curr).type = .atomicNotifyOne) (h : e.processMutex curr misc = .ok (e',b)) :
    CurrEffect e curr misc e' := by
  simp only [processMutex,htype] at h
  obtain ⟨e₁,hone,h⟩ := bind_eq_ok.mp h
  obtain rfl : _ = e' := congrArg Prod.fst (Except.ok.inj h)
  cases hw : (e.condvarWaitersMap (e.acts curr).location)[misc]? with
  | none => simp [notifyOne,hw] at hone
  | some w =>
    simp only [notifyOne,hw] at hone
    obtain ⟨e₂,hwake,hset⟩ := bind_eq_ok.mp hone
    obtain rfl : _ = e₁ := Except.ok.inj hset
    have hwoken := wake_woken hwake
    rw [hwoken.condvarWaitersMap]
    exact .notifyOne w htype hw hwoken (.refl _)

theorem processMutex_effect {e e' : Execution} {curr : ActionId} {misc : ℕ} {b : Bool}
    (h : e.processMutex curr misc = .ok (e',b)) : CurrEffect e curr misc e' := by
  cases htype : (e.acts curr).type with
  | atomicTrylock => exact trylock_effect htype h
  | atomicLock => exact lock_effect htype h
  | atomicUnlock => exact unlock_effect htype h
  | atomicWait => exact wait_effect htype h
  | atomicNotifyAll => exact notifyAll_effect htype h
  | atomicNotifyOne => exact notifyOne_effect htype h
  | _ => simp [processMutex,htype] at h

/-! ### Threads -/

theorem eliminateAll_frame (tid : ThreadId) (ps : List PromiseId) (e : Execution) :
    MemFrame e (eliminateAll tid ps e) := by
  induction ps generalizing e with
  | nil => exact .refl e
  | cons p ps ih =>
    rw [eliminateAll]
    have hframe := e.eliminateThread_frame p tid
    split
    · rename_i e₁ h
      rw [h] at hframe
      exact (hframe.trans (e₁.setFailed_frame true)).trans (ih _)
    · rename_i e₁ h
      rw [h] at hframe
      exact hframe.trans (ih e₁)

theorem finish_effect {e e' : Execution} {curr : ActionId} {misc : ℕ}
    (htype : (e.acts curr).type = .threadFinish) (h : e.finishThread curr = .ok e') :
    CurrEffect e curr misc e' := by
  obtain ⟨e₁,hwake,h⟩ := bind_eq_ok.mp h
  obtain ⟨_,_,h⟩ := bind_eq_ok.mp h
  obtain rfl : _ = e' := Except.ok.inj h
  rw [wakeWaiting_eq] at hwake
  exact .finish htype (wakeThreads_woken hwake) (eliminateAll_frame _ _ _)

theorem processThreadAction_effect {e e' : Execution} {curr : ActionId} {misc : ℕ} {b : Bool}
    (hmutex : (e.acts curr).isMutexOp = false)
    (h : e.processThreadAction curr = .ok (e',b)) : CurrEffect e curr misc e' := by
  cases htype : (e.acts curr).type with
  | threadCreate =>
    simp only [processThreadAction,htype] at h
    obtain rfl : e.createThread curr = e' := congrArg Prod.fst (Except.ok.inj h)
    exact .create htype ⟨rfl,rfl,rfl,rfl,rfl,rfl,rfl,rfl,rfl,rfl,rfl,fun _ => .refl _⟩
  | threadFinish =>
    simp only [processThreadAction,htype] at h
    obtain ⟨e₁,hfinish,h⟩ := bind_eq_ok.mp h
    obtain rfl : e₁ = e' := congrArg Prod.fst (Except.ok.inj h)
    exact finish_effect htype hfinish
  | threadJoin =>
    simp only [processThreadAction,htype] at h
    obtain ⟨e₁,hjoin,h⟩ := bind_eq_ok.mp h
    obtain rfl : e₁ = e' := congrArg Prod.fst (Except.ok.inj h)
    unfold joinThread at hjoin
    split at hjoin
    · cases hjoin
      exact .memory hmutex (by simp [htype]) (by simp [htype]) (e.synchronize_frame _ curr)
    · cases hjoin
  | threadStart =>
    simp only [processThreadAction,htype] at h
    obtain rfl : _ = e' := congrArg Prod.fst (Except.ok.inj h)
    exact .memory hmutex (by simp [htype]) (by simp [htype]) (e.checkPromises_frame _ _ _)
  | _ =>
    simp only [processThreadAction,htype] at h
    obtain rfl : e = e' := congrArg Prod.fst (Except.ok.inj h)
    exact .memory hmutex (by simp [htype]) (by simp [htype]) (.refl e)

theorem CurrEffect.frame {e e₁ e₂ : Execution} {curr : ActionId} {misc : ℕ}
    (h : CurrEffect e curr misc e₁) (hframe : MemFrame e₁ e₂) : CurrEffect e curr misc e₂ := by
  cases h with
  | memory hmutex hcreate hfinish h => exact .memory hmutex hcreate hfinish (h.trans hframe)
  | create htype h => exact .create htype (h.trans hframe)
  | finish htype hwoken h => exact .finish htype hwoken (h.trans hframe)
  | grab m htype hm hsync h =>
    exact .grab m htype hm (fun u hu hb => (hsync u hu hb).trans (hframe.act curr).cv)
      (h.trans hframe)
  | trylockFails m htype hm hlocked h => exact .trylockFails m htype hm hlocked (h.trans hframe)
  | release m htype hm hwoken h => exact .release m htype hm hwoken (h.trans hframe)
  | wait m htype hmisc hm hwoken halive h =>
    exact .wait m htype hmisc hm hwoken halive (h.trans hframe)
  | notifyAll htype hwoken h => exact .notifyAll htype hwoken (h.trans hframe)
  | notifyOne w htype hw hwoken h => exact .notifyOne w htype hw hwoken (h.trans hframe)

theorem CurrEffect.act_other {e e' : Execution} {curr : ActionId} {misc : ℕ}
    (h : CurrEffect e curr misc e') {a : ActionId} (ha : a ≠ curr) :
    (e.acts a).Same (e'.acts a) := by
  have hset : ∀ f : ModelAction → ModelAction, (e.modifyAct curr f).acts a = e.acts a :=
    fun f => by simp [modifyAct,ha]
  cases h with
  | memory _ _ _ hframe => exact hframe.act a
  | create _ hframe => exact hframe.act a
  | finish _ hwoken hframe => exact hwoken.acts ▸ hframe.act a
  | grab m _ _ _ hframe => exact hset _ ▸ hframe.act a
  | trylockFails m _ _ _ hframe => exact hset _ ▸ hframe.act a
  | release m _ _ hwoken hframe => exact hwoken.acts ▸ hframe.act a
  | wait m _ _ _ hwoken _ hframe => exact hwoken.acts ▸ hframe.act a
  | notifyAll _ hwoken hframe => exact hwoken.acts ▸ hframe.act a
  | notifyOne w _ _ hwoken hframe => exact hwoken.acts ▸ hframe.act a

theorem CurrEffect.act_curr {e e' : Execution} {curr : ActionId} {misc : ℕ}
    (h : CurrEffect e curr misc e') : (e.acts curr).Keeps (e'.acts curr) := by
  have hset : ∀ f : ModelAction → ModelAction, (e.modifyAct curr f).acts curr = f (e.acts curr) :=
    fun f => by simp [modifyAct]
  cases h with
  | memory _ _ _ hframe => exact (hframe.act curr).keeps
  | create _ hframe => exact (hframe.act curr).keeps
  | finish _ hwoken hframe => exact (hwoken.acts ▸ hframe.act curr).keeps
  | grab m _ _ _ hframe =>
    have hcurr := (hset _ ▸ hframe.act curr).keeps
    by_cases htry : (e.acts curr).isTrylock = true
    · rw [if_pos htry] at hcurr
      exact (ModelAction.setTryLock_keeps true htry).trans hcurr
    · rwa [if_neg htry] at hcurr
  | trylockFails m htype _ _ hframe =>
    have htry : (e.acts curr).isTrylock = true := by simp [ModelAction.isTrylock,htype]
    exact (ModelAction.setTryLock_keeps false htry).trans (hset _ ▸ hframe.act curr).keeps
  | release m _ _ hwoken hframe => exact (hwoken.acts ▸ hframe.act curr).keeps
  | wait m _ _ _ hwoken _ hframe => exact (hwoken.acts ▸ hframe.act curr).keeps
  | notifyAll _ hwoken hframe => exact (hwoken.acts ▸ hframe.act curr).keeps
  | notifyOne w _ _ hwoken hframe => exact (hwoken.acts ▸ hframe.act curr).keeps

/-- Only the value of a trylock changes. -/
theorem CurrEffect.act {e e' : Execution} {curr : ActionId} {misc : ℕ}
    (h : CurrEffect e curr misc e') (a : ActionId) : (e.acts a).Keeps (e'.acts a) := by
  by_cases ha : a = curr
  · exact ha ▸ h.act_curr
  · exact (h.act_other ha).keeps

/-- The lists of actions do not change. -/
structure SameLists (e e' : Execution) : Prop where
  numActs : e'.numActs = e.numActs
  actionTrace : e'.actionTrace = e.actionTrace
  objMap : e'.objMap = e.objMap
  thrdLastAction : e'.thrdLastAction = e.thrdLastAction
  usedSequenceNumbers : e'.usedSequenceNumbers = e.usedSequenceNumbers

theorem SameLists.trans {e e' e'' : Execution} (h : SameLists e e') (h' : SameLists e' e'') :
    SameLists e e'' where
  numActs := h'.numActs.trans h.numActs
  actionTrace := h'.actionTrace.trans h.actionTrace
  objMap := h'.objMap.trans h.objMap
  thrdLastAction := h'.thrdLastAction.trans h.thrdLastAction
  usedSequenceNumbers := h'.usedSequenceNumbers.trans h.usedSequenceNumbers

theorem SameLists.getLastAction {e e' : Execution} (h : SameLists e e') (t : ThreadId) :
    e'.getLastAction t = e.getLastAction t := by
  rw [Execution.getLastAction,h.thrdLastAction]
  rfl

theorem MemFrame.lists {e e' : Execution} (h : MemFrame e e') : SameLists e e' :=
  ⟨h.numActs,h.actionTrace,h.objMap,h.thrdLastAction,h.usedSequenceNumbers⟩

theorem Woken.lists {e e' : Execution} {s : Set ThreadId} (h : Woken e e' s) : SameLists e e' :=
  ⟨h.frame.numActs,h.frame.actionTrace,h.frame.objMap,h.frame.thrdLastAction,
    h.frame.usedSequenceNumbers⟩

theorem CurrEffect.lists {e e' : Execution} {curr : ActionId} {misc : ℕ}
    (h : CurrEffect e curr misc e') : SameLists e e' := by
  cases h with
  | memory _ _ _ hframe => exact hframe.lists
  | create _ hframe => exact ⟨hframe.numActs,hframe.actionTrace,hframe.objMap,
      hframe.thrdLastAction,hframe.usedSequenceNumbers⟩
  | finish _ hwoken hframe => exact hwoken.lists.trans ⟨hframe.numActs,hframe.actionTrace,
      hframe.objMap,hframe.thrdLastAction,hframe.usedSequenceNumbers⟩
  | grab m _ _ _ hframe => exact ⟨hframe.numActs,hframe.actionTrace,hframe.objMap,
      hframe.thrdLastAction,hframe.usedSequenceNumbers⟩
  | trylockFails m _ _ _ hframe => exact ⟨hframe.numActs,hframe.actionTrace,hframe.objMap,
      hframe.thrdLastAction,hframe.usedSequenceNumbers⟩
  | release m _ _ hwoken hframe => exact hwoken.lists.trans ⟨hframe.numActs,hframe.actionTrace,
      hframe.objMap,hframe.thrdLastAction,hframe.usedSequenceNumbers⟩
  | wait m _ _ _ hwoken _ hframe => exact hwoken.lists.trans ⟨hframe.numActs,hframe.actionTrace,
      hframe.objMap,hframe.thrdLastAction,hframe.usedSequenceNumbers⟩
  | notifyAll _ hwoken hframe => exact hwoken.lists.trans ⟨hframe.numActs,hframe.actionTrace,
      hframe.objMap,hframe.thrdLastAction,hframe.usedSequenceNumbers⟩
  | notifyOne w _ _ hwoken hframe => exact hwoken.lists.trans ⟨hframe.numActs,hframe.actionTrace,
      hframe.objMap,hframe.thrdLastAction,hframe.usedSequenceNumbers⟩

/-- The pending action of a thread. -/
def pendingOf (e : Execution) (t : ThreadId) : Option ModelAction :=
  e.threads[t]?.bind Thread.pending

theorem MemFrame.pendingOf {e e' : Execution} (h : MemFrame e e') (t : ThreadId) :
    e'.pendingOf t = e.pendingOf t := by
  rw [Execution.pendingOf,h.threads]
  rfl

theorem pendingOf_setState (e : Execution) (t u : ThreadId) (s : ThreadState) :
    (e.modifyThread t fun th => { th with state := s }).pendingOf u = e.pendingOf u := by
  unfold Execution.pendingOf modifyThread
  rw [List.getElem?_modify]
  cases e.threads[u]? with
  | none => rfl
  | some th => by_cases htu : t = u <;> simp [htu]

/-- The current action leaves every pending action. -/
theorem CurrEffect.pendingOf {e e' : Execution} {curr : ActionId} {misc : ℕ}
    (h : CurrEffect e curr misc e') (t : ThreadId) : e'.pendingOf t = e.pendingOf t := by
  cases h with
  | memory _ _ _ hframe => exact hframe.pendingOf t
  | create _ hframe =>
    refine (hframe.pendingOf t).trans ?_
    unfold Execution.pendingOf
    by_cases hlt : t < e.threads.length
    · rw [List.getElem?_append_left hlt]
    · rw [List.getElem?_append_right (not_lt.mp hlt),List.getElem?_eq_none (not_lt.mp hlt)]
      cases t - e.threads.length <;> rfl
  | finish _ hwoken hframe =>
    exact ((hframe.pendingOf t).trans (pendingOf_setState _ _ _ _)).trans (hwoken.pending t)
  | grab m _ _ _ hframe => exact hframe.pendingOf t
  | trylockFails m _ _ _ hframe => exact hframe.pendingOf t
  | release m _ _ hwoken hframe => exact (hframe.pendingOf t).trans (hwoken.pending t)
  | wait m _ _ _ hwoken _ hframe =>
    exact ((hframe.pendingOf t).trans (pendingOf_setState _ _ _ _)).trans (hwoken.pending t)
  | notifyAll _ hwoken hframe => exact (hframe.pendingOf t).trans (hwoken.pending t)
  | notifyOne w _ _ hwoken hframe => exact (hframe.pendingOf t).trans (hwoken.pending t)

theorem isMutexOp_congr {a b : ModelAction} (h : b.type = a.type) : b.isMutexOp = a.isMutexOp := by
  unfold ModelAction.isMutexOp
  rw [h]

theorem processThreadAction_mutex {e : Execution} {curr : ActionId}
    (h : (e.acts curr).isMutexOp = true) : e.processThreadAction curr = .ok (e,false) := by
  unfold processThreadAction
  cases htype : (e.acts curr).type <;> simp [ModelAction.isMutexOp,htype] at h ⊢

theorem not_memory_of_mutex {a : ModelAction} (h : a.isMutexOp = true) :
    a.isRead = false ∧ a.isWrite = false ∧ a.isFence = false := by
  unfold ModelAction.isRead ModelAction.isWrite ModelAction.isFence
  cases htype : a.type <;> simp [ModelAction.isMutexOp,htype] at h ⊢

theorem checkCurrAction_effect {e e' : Execution} {curr : ActionId} {secondPartOfRmw : Bool}
    {node : Choices} {items : List WorkItem}
    (h : e.checkCurrAction curr secondPartOfRmw node = .ok (e',items)) :
    CurrEffect e curr node.misc e' := by
  obtain ⟨⟨e₁,_⟩,h₁,h⟩ := bind_eq_ok.mp h
  obtain ⟨⟨e₂,_⟩,h₂,h⟩ := ite_bind_eq_ok.mp h
  obtain ⟨⟨e₃,_,_⟩,h₃,h⟩ := ite_bind_eq_ok.mp h
  obtain ⟨⟨e₄,_⟩,h₄,h⟩ := ite_bind_eq_ok.mp h
  obtain ⟨⟨e₅,_⟩,h₅,h⟩ := ite_bind_eq_ok.mp h
  obtain ⟨⟨e₆,_⟩,h₆,h⟩ := ite_bind_eq_ok.mp h
  obtain rfl : e₆ = e' := congrArg Prod.fst (Except.ok.inj h)
  have hfixup : MemFrame e₅ e₆ := by
    split at h₆
    · exact (processRelseqFixup_steps h₆ : MemSteps curr e₅ e₆).frame
    · obtain rfl : e₅ = e₆ := congrArg Prod.fst (Except.ok.inj h₆)
      exact .refl e₅
  refine CurrEffect.frame ?_ hfixup
  by_cases hmutex : (e.acts curr).isMutexOp = true
  · -- the parts before the mutex operation do nothing
    obtain ⟨hread,hwrite,hfence⟩ := not_memory_of_mutex hmutex
    rw [processThreadAction_mutex hmutex] at h₁
    obtain rfl : e = e₁ := congrArg Prod.fst (Except.ok.inj h₁)
    simp only [hread,Bool.false_and,Bool.false_eq_true,if_false] at h₂
    obtain rfl : e = e₂ := congrArg Prod.fst (Except.ok.inj h₂)
    simp only [hwrite,Bool.false_eq_true,if_false] at h₃
    obtain rfl : e = e₃ := congrArg Prod.fst (Except.ok.inj h₃)
    simp only [hfence,Bool.false_eq_true,if_false] at h₄
    obtain rfl : e = e₄ := congrArg Prod.fst (Except.ok.inj h₄)
    rw [if_pos hmutex] at h₅
    exact processMutex_effect h₅
  · rw [Bool.not_eq_true] at hmutex
    have hthread : CurrEffect e curr node.misc e₁ := processThreadAction_effect hmutex h₁
    have hread : MemSteps curr e₁ e₂ := by
      split at h₂
      · exact processRead_steps h₂
      · obtain rfl : e₁ = e₂ := congrArg Prod.fst (Except.ok.inj h₂)
        exact .refl
    have hwrite : MemSteps curr e₂ e₃ := by
      split at h₃
      · exact processWrite_steps h₃
      · obtain rfl : e₂ = e₃ := congrArg Prod.fst (Except.ok.inj h₃)
        exact .refl
    have hfence : MemSteps curr e₃ e₄ := by
      split at h₄
      · exact processFence_steps h₄
      · obtain rfl : e₃ = e₄ := congrArg Prod.fst (Except.ok.inj h₄)
        exact .refl
    have hmemory := hthread.frame (MemSteps.frame ((hread.trans hwrite).trans hfence))
    rw [isMutexOp_congr (hmemory.act curr).type,hmutex] at h₅
    obtain rfl : e₄ = e₅ := congrArg Prod.fst (Except.ok.inj h₅)
    exact hmemory

end Execution
end CdsChecker
