import CdsChecker.Validity

/-! The elementary changes that the current action makes to the promises and to what the actions
know about each other. -/
namespace CdsChecker
namespace Execution

open Relation

/-- The same actions with the same clocks, and the same promises. -/
structure SameKnowledge (e e' : Execution) : Prop where
  type : ∀ a, (e'.acts a).type = (e.acts a).type
  tid : ∀ a, (e'.acts a).tid = (e.acts a).tid
  seqNumber : ∀ a, (e'.acts a).seqNumber = (e.acts a).seqNumber
  cv : ∀ a, (e'.acts a).cv = (e.acts a).cv
  numActs : e'.numActs = e.numActs
  actionTrace : e'.actionTrace = e.actionTrace
  objMap : e'.objMap = e.objMap
  thrdLastAction : e'.thrdLastAction = e.thrdLastAction
  usedSequenceNumbers : e'.usedSequenceNumbers = e.usedSequenceNumbers
  proms : e'.proms = e.proms
  numProms : e'.numProms = e.numProms
  promises : e'.promises = e.promises
  synchronized : e'.synchronized = e.synchronized
  syncCalls : e'.syncCalls = e.syncCalls
  badSynchronization : e'.badSynchronization = e.badSynchronization

theorem SameKnowledge.refl (e : Execution) : SameKnowledge e e :=
  ⟨fun _ => rfl,fun _ => rfl,fun _ => rfl,fun _ => rfl,rfl,rfl,rfl,rfl,rfl,rfl,rfl,rfl,
    rfl,rfl,rfl⟩

theorem SameKnowledge.trans {e e' e'' : Execution} (h : SameKnowledge e e')
    (h' : SameKnowledge e' e'') : SameKnowledge e e'' where
  type a := (h'.type a).trans (h.type a)
  tid a := (h'.tid a).trans (h.tid a)
  seqNumber a := (h'.seqNumber a).trans (h.seqNumber a)
  cv a := (h'.cv a).trans (h.cv a)
  numActs := h'.numActs.trans h.numActs
  actionTrace := h'.actionTrace.trans h.actionTrace
  objMap := h'.objMap.trans h.objMap
  thrdLastAction := h'.thrdLastAction.trans h.thrdLastAction
  usedSequenceNumbers := h'.usedSequenceNumbers.trans h.usedSequenceNumbers
  proms := h'.proms.trans h.proms
  numProms := h'.numProms.trans h.numProms
  promises := h'.promises.trans h.promises
  synchronized := h'.synchronized.trans h.synchronized
  syncCalls := h'.syncCalls.trans h.syncCalls
  badSynchronization := h'.badSynchronization.trans h.badSynchronization

/-- Some check has failed, or the execution is over. -/
def Flagged (e : Execution) : Prop :=
  e.noValidReads = true ∨ e.tooManyReads = true ∨ e.badSynchronization = true ∨
    e.badScRead = true ∨ e.hardFailedPromise = true ∨ e.asserted = true

/-- The same memory: threads, mutexes and waiting lists may change, and a check may fail. -/
structure SameMemory (e e' : Execution) : Prop extends SameKnowledge e e' where
  keeps : ∀ a, (e.acts a).Keeps (e'.acts a)
  readsFrom : ∀ a, (e'.acts a).readsFrom = (e.acts a).readsFrom
  readsFromPromise : ∀ a, (e'.acts a).readsFromPromise = (e.acts a).readsFromPromise
  objThrdMap : e'.objThrdMap = e.objThrdMap
  moGraph : e'.moGraph = e.moGraph
  moCalls : e'.moCalls = e.moCalls
  flagged : e.Flagged → e'.Flagged

theorem SameMemory.refl (e : Execution) : SameMemory e e :=
  { SameKnowledge.refl e with
    keeps := fun _ => (ModelAction.Same.refl _).keeps
    readsFrom := fun _ => rfl
    readsFromPromise := fun _ => rfl
    objThrdMap := rfl
    moGraph := rfl
    moCalls := rfl
    flagged := id }

theorem SameMemory.trans {e e' e'' : Execution} (h : SameMemory e e') (h' : SameMemory e' e'') :
    SameMemory e e'' :=
  { h.toSameKnowledge.trans h'.toSameKnowledge with
    keeps := fun a => (h.keeps a).trans (h'.keeps a)
    readsFrom := fun a => (h'.readsFrom a).trans (h.readsFrom a)
    readsFromPromise := fun a => (h'.readsFromPromise a).trans (h.readsFromPromise a)
    objThrdMap := h'.objThrdMap.trans h.objThrdMap
    moGraph := h'.moGraph.trans h.moGraph
    moCalls := h'.moCalls.trans h.moCalls
    flagged := fun hf => h'.flagged (h.flagged hf) }

theorem Woken.sameMemory {e e' : Execution} {s : Set ThreadId} (h : Woken e e' s) :
    SameMemory e e' := by
  have hsame : SameMemory e { e with enabled := e'.enabled,threads := e'.threads } :=
    { SameMemory.refl e with flagged := id }
  rwa [← h.rest] at hsame

theorem assertBug_sameMemory (e : Execution) : SameMemory e e.assertBug := by
  have hbug : SameMemory e { e with bugs := e.bugs + 1 } := { SameMemory.refl e with flagged := id }
  unfold assertBug
  dsimp only
  split
  · refine { hbug with flagged := fun _ => ?_ }
    exact .inr (.inr (.inr (.inr (.inr rfl))))
  · exact hbug

theorem assertBug_sameKnowledge (e : Execution) : SameKnowledge e e.assertBug :=
  e.assertBug_sameMemory.toSameKnowledge

theorem checkPromisesThreadDisabled_sameMemory (e : Execution) :
    SameMemory e e.checkPromisesThreadDisabled := by
  unfold checkPromisesThreadDisabled
  split
  · exact { SameMemory.refl e with flagged := id }
  · exact .refl e

theorem setEnabled_sameMemory (e : Execution) (t : ThreadId) (status : Bool) :
    SameMemory e (e.setEnabled t status) := by
  have hset : SameMemory e { e with enabled := Function.update e.enabled t status } :=
    { SameMemory.refl e with flagged := id }
  unfold setEnabled
  dsimp only
  split
  · exact hset
  · exact hset.trans (checkPromisesThreadDisabled_sameMemory _)

theorem setEnabled_sameKnowledge (e : Execution) (t : ThreadId) (status : Bool) :
    SameKnowledge e (e.setEnabled t status) :=
  (e.setEnabled_sameMemory t status).toSameKnowledge

theorem setState_sameMemory {e e' : Execution} {t : ThreadId} {s : ThreadState}
    (h : e.setState t s = .ok e') : SameMemory e e' := by
  obtain ⟨_,_,h⟩ := bind_eq_ok.mp h
  obtain rfl : _ = e' := Except.ok.inj h
  exact { SameMemory.refl e with flagged := id }

theorem sleep_sameMemory {e e' : Execution} {t : ThreadId} (h : e.sleep t = .ok e') :
    SameMemory e e' :=
  (e.setEnabled_sameMemory t false).trans (setState_sameMemory h)

/-! ### Threads and mutexes -/

/-- The elementary changes that threads and mutexes make. -/
inductive ThreadStep (curr : ActionId) (e : Execution) : Execution → Prop
  | calm {e' : Execution} (h : CalmStep e e') : ThreadStep curr e e'
  | other {e' : Execution} (h : SameMemory e e') : ThreadStep curr e e'
  | addThread (t : ThreadId) (hnew : e.getLastAction t = none) : ThreadStep curr e { e with
      proms := fun p =>
        if e.promises.contains p && (e.proms p).threadIsAvailable (e.acts curr).tid then
          (e.proms p).addThread t
        else e.proms p }

abbrev ThreadSteps (curr : ActionId) : Execution → Execution → Prop :=
    ReflTransGen (ThreadStep curr)

variable {curr : ActionId} {e e' : Execution}

theorem CalmSteps.threadSteps (h : CalmSteps e e') : ThreadSteps curr e e' := by
  induction h with
  | refl => exact .refl
  | tail _ hstep ih => exact ih.tail (.calm hstep)

theorem sleepDisabled_threadSteps {params : ExecutionParams} {ts : List ThreadId}
    (h : sleepDisabled params ts e = .ok e') : ThreadSteps curr e e' := by
  induction ts generalizing e with
  | nil =>
    obtain rfl : e = e' := Except.ok.inj h
    exact .refl
  | cons t ts ih =>
    rw [sleepDisabled] at h
    cases hact : e.threads[t]?.bind Thread.pending with
    | none =>
      simp only [hact,pure_bind] at h
      exact ih h
    | some act =>
      simp only [hact] at h
      by_cases hen : e.isEnabled t = true
      · rw [if_pos hen] at h
        have hcheck : CalmSteps e (e.checkActionEnabled params act).1 :=
          e.checkActionEnabled_calm params act
        cases hres : e.checkActionEnabled params act with
        | mk e₁ enabled =>
          rw [hres] at h hcheck
          refine (CalmSteps.threadSteps hcheck).trans ?_
          cases enabled with
          | true =>
            simp only [pure_bind] at h
            exact ih h
          | false =>
            obtain ⟨e₂,hsleep,h⟩ := bind_eq_ok.mp h
            exact .head (.other (sleep_sameMemory hsleep)) (ih h)
      · rw [if_neg hen] at h
        simp only [pure_bind] at h
        exact ih h

theorem createThread_threadSteps (hv : e.Valid) : ThreadSteps curr e (e.createThread curr) := by
  have hadd : SameMemory e { e with
      threads := e.threads ++ [{ parent := some (e.acts curr).tid,creation := some curr }]
      enabled := Function.update e.enabled e.threads.length true } :=
    { SameMemory.refl e with flagged := id }
  have hnew : e.getLastAction e.threads.length = none := by
    have huser : e.threads.length ≠ 0 := Nat.ne_zero_of_lt hv.main
    refine Option.eq_none_iff_forall_ne_some.mpr fun a ha => ?_
    exact absurd (hv.last _ a huser ha).2.2 (lt_irrefl _)
  exact .head (.other hadd) (.single (.addThread e.threads.length hnew))

theorem finishThread_threadSteps (h : e.finishThread curr = .ok e') : ThreadSteps curr e e' := by
  obtain ⟨e₁,hwake,h⟩ := bind_eq_ok.mp h
  obtain ⟨_,_,h⟩ := bind_eq_ok.mp h
  obtain rfl : _ = e' := Except.ok.inj h
  rw [wakeWaiting_eq] at hwake
  have hcomplete : SameMemory e₁
      (e₁.modifyThread (e.acts curr).tid fun th => { th with state := .completed }) :=
    { SameMemory.refl e₁ with flagged := id }
  exact .head (.other (wakeThreads_woken hwake).sameMemory)
    (.head (.other hcomplete) (CalmSteps.threadSteps (eliminateAll_calm _ _ _)))

theorem processThreadAction_threadSteps {b : Bool} (hv : e.Valid)
    (h : e.processThreadAction curr = .ok (e',b)) : ThreadSteps curr e e' := by
  unfold processThreadAction at h
  split at h
  · obtain rfl : e.createThread curr = e' := congrArg Prod.fst (Except.ok.inj h)
    exact createThread_threadSteps hv
  · obtain ⟨e₁,hjoin,h⟩ := bind_eq_ok.mp h
    obtain rfl : e₁ = e' := congrArg Prod.fst (Except.ok.inj h)
    unfold joinThread at hjoin
    split at hjoin
    · cases hjoin
      exact .single (.calm (.synchronize _ curr))
    · cases hjoin
  · obtain ⟨e₁,hfinish,h⟩ := bind_eq_ok.mp h
    obtain rfl : e₁ = e' := congrArg Prod.fst (Except.ok.inj h)
    exact finishThread_threadSteps hfinish
  · obtain rfl : _ = e' := congrArg Prod.fst (Except.ok.inj h)
    exact CalmSteps.threadSteps (checkPromisesLoop_calm _ _ _ _ e)
  · obtain rfl : e = e' := congrArg Prod.fst (Except.ok.inj h)
    exact .refl

theorem grabLock_threadSteps (e : Execution) (m : Location) :
    ThreadSteps curr e (e.grabLock curr m).1 := by
  rw [grabLock]
  set e₁ := if (e.acts curr).cv.getClock (e.mutexes m).allocTid ≤ (e.mutexes m).allocClock then
    e.assertBug else e with he₁
  have hsame : SameMemory e (e₁.setLocked m (some (e₁.acts curr).tid)) := by
    refine SameMemory.trans ?_ { SameMemory.refl e₁ with flagged := id }
    rw [he₁]
    split
    · exact e.assertBug_sameMemory
    · exact .refl e
  split
  · exact .head (.other hsame) (.single (.calm (.synchronize _ curr)))
  · exact .single (.other hsame)

theorem releaseLock_sameMemory {m : Location} (h : e.releaseLock curr m = .ok e') :
    SameMemory e e' := by
  obtain ⟨e₁,hwake,rfl⟩ := releaseLock_eq_ok.mp h
  exact (wakeThreads_woken hwake).sameMemory.trans
    { SameMemory.refl e₁ with flagged := id }

theorem setTryLock_sameMemory {e : Execution} {curr : ActionId} (b : Bool)
    (htry : (e.acts curr).isTrylock = true) :
    SameMemory e (e.modifyAct curr fun a => a.setTryLock b) := by
  have hact : ∀ a, (e.modifyAct curr fun a => a.setTryLock b).acts a = e.acts a ∨
      (e.acts a).isTrylock = true ∧
        (e.modifyAct curr fun a => a.setTryLock b).acts a = (e.acts a).setTryLock b := by
    intro a
    by_cases ha : a = curr
    · subst ha
      exact .inr ⟨htry,by simp [modifyAct]⟩
    · exact .inl (by simp [modifyAct,ha])
  have hkeeps : ∀ a, (e.acts a).Keeps ((e.modifyAct curr fun a => a.setTryLock b).acts a) := by
    intro a
    rcases hact a with h | ⟨h,ha⟩
    · exact h ▸ (ModelAction.Same.refl _).keeps
    · exact ha ▸ ModelAction.setTryLock_keeps b h
  exact {
    SameMemory.refl e with
    type := fun a => (hkeeps a).type
    tid := fun a => (hkeeps a).tid
    seqNumber := fun a => (hkeeps a).seqNumber
    cv := fun a => by rcases hact a with h | ⟨_,h⟩ <;> rw [h]; rfl
    keeps := hkeeps
    readsFrom := fun a => by rcases hact a with h | ⟨_,h⟩ <;> rw [h]; rfl
    readsFromPromise := fun a => by rcases hact a with h | ⟨_,h⟩ <;> rw [h]; rfl }

theorem processMutex_threadSteps {misc : ℕ} {b : Bool} (h : e.processMutex curr misc = .ok (e',b)) :
    ThreadSteps curr e e' := by
  cases htype : (e.acts curr).type with
  | atomicTrylock =>
    simp only [processMutex,htype] at h
    obtain ⟨m,_,h⟩ := bind_eq_ok.mp h
    have htry := setTryLock_sameMemory (e.mutexes m).locked.isNone
      (show (e.acts curr).isTrylock = true by simp [ModelAction.isTrylock,htype])
    split at h
    · obtain rfl : _ = e' := congrArg Prod.fst (Except.ok.inj h)
      exact .head (.other htry) (grabLock_threadSteps _ m)
    · obtain rfl : _ = e' := congrArg Prod.fst (Except.ok.inj h)
      exact .single (.other htry)
  | atomicLock =>
    simp only [processMutex,htype] at h
    obtain ⟨m,_,h⟩ := bind_eq_ok.mp h
    obtain rfl : _ = e' := congrArg Prod.fst (Except.ok.inj h)
    exact grabLock_threadSteps e m
  | atomicUnlock =>
    simp only [processMutex,htype] at h
    obtain ⟨m,_,h⟩ := bind_eq_ok.mp h
    obtain ⟨e₁,hrelease,h⟩ := bind_eq_ok.mp h
    obtain rfl : _ = e' := congrArg Prod.fst (Except.ok.inj h)
    exact .single (.other (releaseLock_sameMemory hrelease))
  | atomicWait =>
    simp only [processMutex,htype] at h
    obtain ⟨m,_,h⟩ := bind_eq_ok.mp h
    obtain ⟨e₁,hrelease,h⟩ := bind_eq_ok.mp h
    obtain ⟨e₂,hsleep,h⟩ := bind_eq_ok.mp h
    obtain rfl : _ = e' := congrArg Prod.fst (Except.ok.inj h)
    refine .head (.other (releaseLock_sameMemory hrelease)) (.single (.other ?_))
    unfold sleepWaiting at hsleep
    split at hsleep
    · have hset : SameMemory e₁ (e₁.setWaiters (e₁.acts curr).location
          (e₁.condvarWaitersMap (e₁.acts curr).location ++ [curr])) :=
        { SameMemory.refl e₁ with flagged := id }
      exact hset.trans (sleep_sameMemory hsleep)
    · obtain rfl : e₁ = e₂ := Except.ok.inj hsleep
      exact .refl e₁
  | atomicNotifyAll =>
    simp only [processMutex,htype] at h
    obtain ⟨e₁,hall,h⟩ := bind_eq_ok.mp h
    obtain rfl : _ = e' := congrArg Prod.fst (Except.ok.inj h)
    obtain ⟨e₂,hwake,hset⟩ := bind_eq_ok.mp hall
    obtain rfl : _ = e₁ := Except.ok.inj hset
    rw [wakeAll_eq] at hwake
    exact .head (.other (wakeThreads_woken hwake).sameMemory)
      (.single (.other { SameMemory.refl e₂ with flagged := id }))
  | atomicNotifyOne =>
    simp only [processMutex,htype] at h
    obtain ⟨e₁,hone,h⟩ := bind_eq_ok.mp h
    obtain rfl : _ = e' := congrArg Prod.fst (Except.ok.inj h)
    unfold notifyOne at hone
    dsimp only at hone
    split at hone
    · cases hone
    · obtain ⟨e₂,hwake,hset⟩ := bind_eq_ok.mp hone
      obtain rfl : _ = e₁ := Except.ok.inj hset
      exact .head (.other (wake_woken hwake).sameMemory)
        (.single (.other { SameMemory.refl e₂ with flagged := id }))
  | _ => simp [processMutex,htype] at h

/-! ### Elementary changes -/

inductive CurrStep (curr : ActionId) (e : Execution) : Execution → Prop
  | memory {e' : Execution} (h : MemStep curr e e') : CurrStep curr e e'
  | other {e' : Execution} (h : SameKnowledge e e') : CurrStep curr e e'
  | addThread (t : ThreadId) (hnew : e.getLastAction t = none) : CurrStep curr e { e with
      proms := fun p =>
        if e.promises.contains p && (e.proms p).threadIsAvailable (e.acts curr).tid then
          (e.proms p).addThread t
        else e.proms p }

abbrev CurrSteps (curr : ActionId) : Execution → Execution → Prop := ReflTransGen (CurrStep curr)

theorem MemSteps.currSteps (h : MemSteps curr e e') : CurrSteps curr e e' := by
  induction h with
  | refl => exact .refl
  | tail _ hstep ih => exact ih.tail (.memory hstep)

theorem ThreadSteps.currSteps (h : ThreadSteps curr e e') : CurrSteps curr e e' := by
  induction h with
  | refl => exact .refl
  | tail _ hstep ih =>
    cases hstep with
    | calm h => exact ih.trans (MemSteps.currSteps h.order.memSteps)
    | other h => exact ih.tail (.other h.toSameKnowledge)
    | addThread t hnew => exact ih.tail (.addThread t hnew)

theorem sleepDisabled_steps {params : ExecutionParams} {ts : List ThreadId}
    (h : sleepDisabled params ts e = .ok e') : CurrSteps curr e e' :=
  ThreadSteps.currSteps (sleepDisabled_threadSteps h)

theorem processThreadAction_steps {b : Bool} (hv : e.Valid)
    (h : e.processThreadAction curr = .ok (e',b)) : CurrSteps curr e e' :=
  ThreadSteps.currSteps (processThreadAction_threadSteps hv h)

theorem processMutex_steps {misc : ℕ} {b : Bool} (h : e.processMutex curr misc = .ok (e',b)) :
    CurrSteps curr e e' :=
  ThreadSteps.currSteps (processMutex_threadSteps h)

/-! ### The work queue -/

theorem checkCurrAction_steps {secondPartOfRmw : Bool} {node : Choices} {items : List WorkItem}
    (hv : e.Valid) (h : e.checkCurrAction curr secondPartOfRmw node = .ok (e',items)) :
    CurrSteps curr e e' := by
  obtain ⟨⟨e₁,_⟩,h₁,h⟩ := bind_eq_ok.mp h
  obtain ⟨⟨e₂,_⟩,h₂,h⟩ := ite_bind_eq_ok.mp h
  obtain ⟨⟨e₃,_,_⟩,h₃,h⟩ := ite_bind_eq_ok.mp h
  obtain ⟨⟨e₄,_⟩,h₄,h⟩ := ite_bind_eq_ok.mp h
  obtain ⟨⟨e₅,_⟩,h₅,h⟩ := ite_bind_eq_ok.mp h
  obtain ⟨⟨e₆,_⟩,h₆,h⟩ := ite_bind_eq_ok.mp h
  obtain rfl : e₆ = e' := congrArg Prod.fst (Except.ok.inj h)
  have hthread : CurrSteps curr e e₁ := processThreadAction_steps hv h₁
  have hread : MemSteps curr e₁ e₂ := by
    split at h₂
    · exact processRead_steps h₂
    · obtain rfl : e₁ = e₂ := congrArg Prod.fst (Except.ok.inj h₂)
      exact .refl
  have hwrite : MemSteps curr e₂ e₃ := by
    split at h₃
    · exact processWrite_steps h₃
    · obtain rfl : e₂ = e₃ := congrArg Prod.fst (Except.ok.inj h₃)
      exact .refl
  have hfence : MemSteps curr e₃ e₄ := by
    split at h₄
    · exact processFence_steps h₄
    · obtain rfl : e₃ = e₄ := congrArg Prod.fst (Except.ok.inj h₄)
      exact .refl
  have hmutex : CurrSteps curr e₄ e₅ := by
    split at h₅
    · exact processMutex_steps h₅
    · obtain rfl : e₄ = e₅ := congrArg Prod.fst (Except.ok.inj h₅)
      exact .refl
  have hfixup : MemSteps curr e₅ e₆ := by
    split at h₆
    · exact processRelseqFixup_steps h₆
    · obtain rfl : e₅ = e₆ := congrArg Prod.fst (Except.ok.inj h₆)
      exact .refl
  exact ((hthread.trans (MemSteps.currSteps ((hread.trans hwrite).trans hfence))).trans
    hmutex).trans
    (MemSteps.currSteps hfixup)

theorem processWork_steps {secondPartOfRmw : Bool} {node : Choices} {item : WorkItem}
    {items : List WorkItem} (hv : e.Valid)
    (h : e.processWork curr secondPartOfRmw node item = .ok (e',items)) : CurrSteps curr e e' := by
  cases item with
  | checkCurrAction => exact checkCurrAction_steps hv h
  | checkReleaseSeq location => exact MemSteps.currSteps (resolveReleaseSequences_steps h)
  | checkMoEdges act => exact MemSteps.currSteps (checkMoEdges_steps h)

end Execution
end CdsChecker
