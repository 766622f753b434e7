import CdsChecker.ActionEffects

/-! What a new action adds to the lists of the execution. -/
namespace CdsChecker

theorem getElem?_resizeUp {α : Type} (l : List α) (size : ℕ) (fill : α) {i : ℕ}
    (hi : i < l.length) : (resizeUp l size fill)[i]? = l[i]? := by
  rw [resizeUp,List.getElem?_append_left hi]

theorem length_resizeUp {α : Type} (l : List α) (size : ℕ) (fill : α) :
    (resizeUp l size fill).length = max l.length size := by
  rw [resizeUp,List.length_append,List.length_replicate]
  omega

theorem getElem?_resizeUp_join {α : Type} (l : List (Option α)) (size i : ℕ) :
    (resizeUp l size none)[i]?.join = l[i]?.join := by
  by_cases hi : i < l.length
  · rw [getElem?_resizeUp l size none hi]
  · rw [resizeUp,List.getElem?_append_right (not_lt.mp hi),List.getElem?_replicate,
      List.getElem?_eq_none (not_lt.mp hi)]
    split <;> rfl

namespace Execution

/-- The lists of a location that an action is in: its own, and that of a wait's mutex. -/
def onLocation (a : ModelAction) (l : Location) : Bool :=
  a.location == l || (a.isWait && Location.object a.value == l)

theorem setLast_room {e : Execution} {l : List (Option ActionId)} {act : ActionId}
    (h : (e.acts act).tid < e.getNumThreads) :
    (e.acts act).tid <
      (if l.length ≤ (e.acts act).tid then resizeUp l e.getNumThreads none else l).length := by
  split
  · rw [length_resizeUp]
    exact lt_max_of_lt_right h
  · rename_i hlt
    exact not_le.mp hlt

theorem setLast_join {e : Execution} {l : List (Option ActionId)} {act : ActionId} (t : ThreadId)
    (h : (e.acts act).tid < e.getNumThreads) :
    (e.setLast l act)[t]?.join = if t = (e.acts act).tid then some act else l[t]?.join := by
  unfold setLast
  dsimp only
  by_cases ht : t = (e.acts act).tid
  · rw [if_pos ht,ht,List.getElem?_set_self (setLast_room h)]
    rfl
  · rw [if_neg ht,List.getElem?_set_ne (Ne.symm ht)]
    split
    · exact getElem?_resizeUp_join l e.getNumThreads t
    · rfl

/-- What enters the lists with an action, and perhaps an uninitialized one: `extra` holds what
is new at the end of the list of a location. -/
structure Added (e e' : Execution) (act : ActionId) (extra : Location → List ActionId) :
    Prop where
  threads : e'.threads = e.threads
  enabled : e'.enabled = e.enabled
  mutexes : e'.mutexes = e.mutexes
  condvarWaitersMap : e'.condvarWaitersMap = e.condvarWaitersMap
  proms : e'.proms = e.proms
  numProms : e'.numProms = e.numProms
  promises : e'.promises = e.promises
  usedSequenceNumbers : e'.usedSequenceNumbers = e.usedSequenceNumbers
  syncCalls : e'.syncCalls = e.syncCalls
  synchronized : e'.synchronized = e.synchronized
  badSynchronization : e'.badSynchronization = e.badSynchronization
  numActs : e.numActs ≤ e'.numActs
  acts : ∀ a < e.numActs, e'.acts a = e.acts a
  uninit : ∀ a, e.numActs ≤ a → a < e'.numActs →
    (e'.acts a).type = .atomicUninit ∧ (e'.acts a).tid = 0 ∧ (e'.acts a).seqNumber = 0 ∧
      (e'.acts a).cv = ClockVector.create none 0 0
  actionTrace : ∃ us, e'.actionTrace = us ++ e.actionTrace ++ [act] ∧
    ∀ u ∈ us, e.numActs ≤ u ∧ u < e'.numActs
  objMap : ∀ l, ∃ us, (∀ u ∈ us, e.numActs ≤ u ∧ u < e'.numActs) ∧
    e'.objMap l = us ++ e.objMap l ++ extra l
  lastAction : ∀ t, (t = 0 ∧ ∃ u, e'.getLastAction t = some u ∧ e.numActs ≤ u ∧
      u < e'.numActs) ∨
    e'.getLastAction t = if t = (e.acts act).tid then some act else e.getLastAction t

/-- The action's own location. -/
def ownLocation (e : Execution) (act : ActionId) (l : Location) : List ActionId :=
  if (e.acts act).location = l then [act] else []

/-- The location of the mutex that a wait releases. -/
def waitLocation (e : Execution) (act : ActionId) (l : Location) : List ActionId :=
  if (e.acts act).isWait ∧ Location.object (e.acts act).value = l then [act] else []

/-- The action in its own lists. -/
def pushed (e : Execution) (act : ActionId) : Execution :=
  let e₁ := e.pushObj (e.acts act).location act
  let e₂ := { e₁ with actionTrace := e₁.actionTrace ++ [act] }.pushObjThrd (e.acts act).location act
  { e₂ with thrdLastAction := e₂.setLast e₂.thrdLastAction act }

theorem pushed_added {e : Execution} {act : ActionId} (htid : (e.acts act).tid < e.getNumThreads) :
    Added e (e.pushed act) act (e.ownLocation act) where
  threads := rfl
  enabled := rfl
  mutexes := rfl
  condvarWaitersMap := rfl
  proms := rfl
  numProms := rfl
  promises := rfl
  usedSequenceNumbers := rfl
  syncCalls := rfl
  synchronized := rfl
  badSynchronization := rfl
  numActs := le_rfl
  acts _ _ := rfl
  uninit a h h' := absurd h (not_le.mpr h')
  actionTrace := ⟨[],rfl,by simp⟩
  objMap l := by
    refine ⟨[],by simp,?_⟩
    by_cases hl : (e.acts act).location = l
    · simp [pushed,pushObj,pushObjThrd,ownLocation,hl]
    · simp [pushed,pushObj,pushObjThrd,ownLocation,hl,Ne.symm hl]
  lastAction t := .inr (setLast_join t htid)

theorem pushUninit_added {params : ExecutionParams} {e : Execution} {act : ActionId}
    (htid : (e.acts act).tid < e.getNumThreads) (loc : Location) :
    Added e (((e.pushed act).getUninitializedAction params loc).1.pushUninit loc e.numActs) act
      (e.ownLocation act) := by
  have hpushed := pushed_added htid
  exact {
    hpushed with
    numActs := Nat.le_succ _
    acts := fun a ha => by
      have hne : a ≠ e.numActs := ha.ne
      simp [pushUninit,getUninitializedAction,pushed,pushObj,pushObjThrd,hne]
    uninit := fun a ha ha' => by
      obtain rfl : a = e.numActs := Nat.le_antisymm (Nat.lt_succ_iff.mp ha') ha
      simp [pushUninit,getUninitializedAction,pushed,pushObj,pushObjThrd,
        ModelAction.createCv]
    actionTrace := ⟨[e.numActs],rfl,fun u hu => by
      obtain rfl := List.mem_singleton.mp hu
      exact ⟨le_rfl,Nat.lt_succ_self _⟩⟩
    objMap := fun l => by
      obtain ⟨us,hus,hl⟩ := hpushed.objMap l
      by_cases hloc : l = loc
      · refine ⟨e.numActs :: us,?_,?_⟩
        · intro u hu
          rcases List.mem_cons.mp hu with rfl | hu
          · exact ⟨le_rfl,Nat.lt_succ_self _⟩
          · exact ⟨(hus u hu).1,(hus u hu).2.trans (Nat.lt_succ_self _)⟩
        · change Function.update (e.pushed act).objMap loc
            (e.numActs :: (e.pushed act).objMap loc) l = _
          rw [← hloc,Function.update_self,hl]
          rfl
      · refine ⟨us,fun u hu => ⟨(hus u hu).1,(hus u hu).2.trans (Nat.lt_succ_self _)⟩,?_⟩
        change Function.update (e.pushed act).objMap loc
          (e.numActs :: (e.pushed act).objMap loc) l = _
        rw [Function.update_of_ne hloc]
        exact hl
    lastAction := fun t => by
      by_cases ht : t = 0
      · refine .inl ⟨ht,e.numActs,?_,le_rfl,Nat.lt_succ_self _⟩
        have hroom : 0 < (e.pushed act).thrdLastAction.length := by
          change 0 < (e.setLast e.thrdLastAction act).length
          unfold setLast
          dsimp only
          rw [List.length_set]
          exact Nat.zero_lt_of_lt (setLast_room htid)
        rw [ht]
        unfold getLastAction pushUninit getUninitializedAction
        dsimp only
        rw [List.getElem?_set_self hroom]
        rfl
      · refine .inr (Eq.trans ?_ (setLast_join t htid))
        unfold getLastAction pushUninit getUninitializedAction
        dsimp only
        rw [List.getElem?_set_ne (Ne.symm ht)]
        rfl }

theorem Added.wait {e e' : Execution} {act : ActionId} {extra : Location → List ActionId}
    (h : Added e e' act extra) (m : Location) :
    Added e ((e'.pushObj m act).pushObjThrd m act) act
      (fun l => extra l ++ if m = l then [act] else []) where
  threads := h.threads
  enabled := h.enabled
  mutexes := h.mutexes
  condvarWaitersMap := h.condvarWaitersMap
  proms := h.proms
  numProms := h.numProms
  promises := h.promises
  usedSequenceNumbers := h.usedSequenceNumbers
  syncCalls := h.syncCalls
  synchronized := h.synchronized
  badSynchronization := h.badSynchronization
  numActs := h.numActs
  acts := h.acts
  uninit := h.uninit
  actionTrace := h.actionTrace
  objMap l := by
    obtain ⟨us,hus,hl⟩ := h.objMap l
    refine ⟨us,hus,?_⟩
    by_cases hm : m = l
    · simp [pushObj,pushObjThrd,hm,hl]
    · simp [pushObj,pushObjThrd,hm,Ne.symm hm,hl]
  lastAction := h.lastAction

theorem addActionToLists_added {params : ExecutionParams} {e e' : Execution} {act : ActionId}
    (h : e.addActionToLists params act = .ok e') (htid : (e.acts act).tid < e.getNumThreads) :
    Added e e' act fun l => e.ownLocation act l ++ e.waitLocation act l := by
  obtain ⟨_,_,h⟩ := bind_eq_ok.mp h
  dsimp only at h
  set e₁ := if ((e.objMap (e.acts act).location).isEmpty && (e.acts act).isAtomicVar) = true then
      ((e.pushed act).getUninitializedAction params (e.acts act).location).1.pushUninit
        (e.acts act).location e.numActs
    else e.pushed act with he₁
  have hadded : Added e e₁ act (e.ownLocation act) := by
    rw [he₁]
    split
    · exact pushUninit_added htid _
    · exact pushed_added htid
  have hfence : ∀ l, Added e { e₁ with thrdLastFenceRelease := l } act (e.ownLocation act) :=
    fun l => { hadded with }
  set e₂ := if ((e.acts act).isFence && (e.acts act).isRelease) = true then
      { e₁ with thrdLastFenceRelease := e₁.setLast e₁.thrdLastFenceRelease act }
    else e₁ with he₂
  have hadded₂ : Added e e₂ act (e.ownLocation act) := by
    rw [he₂]
    split
    · exact hfence _
    · exact hadded
  by_cases hwait : (e.acts act).isWait = true
  · rw [if_pos hwait] at h
    obtain ⟨_,_,h⟩ := bind_eq_ok.mp h
    obtain rfl : _ = e' := Except.ok.inj h
    have hextra : e.waitLocation act =
        fun l => if Location.object (e.acts act).value = l then [act] else [] := by
      funext l
      simp [waitLocation,hwait]
    rw [hextra]
    exact hadded₂.wait (.object (e.acts act).value)
  · rw [if_neg hwait] at h
    obtain rfl : e₂ = e' := Except.ok.inj h
    have hextra : (fun l => e.ownLocation act l ++ e.waitLocation act l) = e.ownLocation act := by
      funext l
      simp [waitLocation,hwait]
    rw [hextra]
    exact hadded₂

/-! ### The start of a step -/

/-- How an action begins: the second part of an RMW completes the last action of its thread,
any other action is new. -/
inductive Begun (e : Execution) (act : ModelAction) : Execution → ActionId → Prop
  | secondPart {curr : ActionId} {e' : Execution} (hsecond : (act.isRmwc || act.isRmw) = true)
      (hlast : e.getLastAction act.tid = some curr)
      (hsteps : MemSteps curr (e.modifyAct curr fun a => a.processRmw act) e') :
      Begun e act e' curr
  | new {e₁ e' : Execution} (hfirst : (act.isRmwc || act.isRmw) = false)
      (hadded : Added (e.newAction act).1 e₁ e.numActs fun l =>
        (e.newAction act).1.ownLocation e.numActs l ++ (e.newAction act).1.waitLocation e.numActs l)
      (hsteps : MemSteps e.numActs e₁ e') : Begun e act e' e.numActs

theorem processRmw_steps {e e' : Execution} {act : ModelAction} {curr : ActionId}
    (h : e.processRmw act = .ok (e',curr)) :
    e.getLastAction act.tid = some curr ∧
      MemSteps curr (e.modifyAct curr fun a => a.processRmw act) e' := by
  unfold processRmw at h
  cases hlast : e.getLastAction act.tid with
  | none => simp [hlast] at h
  | some lastread =>
    simp only [hlast] at h
    split at h
    · cases h
      exact ⟨rfl,.refl⟩
    · split at h
      · cases h
      · obtain ⟨g,_,h⟩ := bind_eq_ok.mp h
        cases h
        exact ⟨rfl,.head (.order g) commitChanges_steps⟩

theorem checkRead_steps {e e' : Execution} {curr : ActionId} {newlyExplored : Bool}
    {source : ReadSource} (h : e.checkRead curr newlyExplored source = some e') :
    MemSteps curr e e' := by
  obtain ⟨⟨built,past,promises⟩,hbuilt,h⟩ := Option.bind_eq_some_iff.mp h
  obtain ⟨_,_,h⟩ := Option.bind_eq_some_iff.mp h
  obtain rfl : _ = e' := Option.some.inj h
  split
  · exact buildMayReadFrom_steps (toOption_eq_some.mp hbuilt)
  · exact .refl

theorem newAction_acts (e : Execution) (act : ModelAction) {a : ActionId} (ha : a ≠ e.numActs) :
    (e.newAction act).1.acts a = e.acts a := by
  simp [newAction,ha]

theorem newAction_act (e : Execution) (act : ModelAction) :
    (e.newAction act).1.acts e.numActs = { act with
      seqNumber := e.usedSequenceNumbers + 1
      lastFenceRelease := e.getLastFenceRelease act.tid
      cv := ClockVector.create (((e.getParentAction act.tid).map e.acts).map ModelAction.cv)
        act.tid (e.usedSequenceNumbers + 1) } := by
  simp [newAction,ModelAction.createCv]

theorem beginAction_begun {params : ExecutionParams} {e e' : Execution} {act : ModelAction}
    {newlyExplored : Bool} {node : Choices} {curr : ActionId}
    (h : e.beginAction params act newlyExplored node = some (e',curr))
    (htid : act.tid < e.getNumThreads) : Begun e act e' curr := by
  obtain ⟨⟨e₁,curr₁⟩,hinit,h⟩ := Option.bind_eq_some_iff.mp h
  have hinit := toOption_eq_some.mp hinit
  obtain ⟨_,_,h⟩ := Option.bind_eq_some_iff.mp h
  unfold initializeCurrAction at hinit
  by_cases hsecond : (act.isRmwc || act.isRmw) = true
  · rw [if_pos hsecond] at hinit
    rw [if_pos hsecond] at h
    obtain ⟨rfl,rfl⟩ : e₁ = e' ∧ curr₁ = curr := by simpa using h
    obtain ⟨hlast,hsteps⟩ := processRmw_steps hinit
    exact .secondPart hsecond hlast hsteps
  · rw [if_neg hsecond] at hinit
    rw [if_neg hsecond] at h
    obtain ⟨rfl,rfl⟩ : (e.newAction act).1 = e₁ ∧ e.numActs = curr₁ := by
      simpa [newAction] using hinit
    obtain ⟨_,_,h⟩ := Option.bind_eq_some_iff.mp h
    obtain ⟨e₂,hadd,h⟩ := Option.bind_eq_some_iff.mp h
    have hadded := addActionToLists_added (toOption_eq_some.mp hadd)
      (by rw [newAction_act]; exact htid)
    split at h
    · obtain ⟨e₃,hread,h⟩ := Option.bind_eq_some_iff.mp h
      obtain ⟨rfl,rfl⟩ : e₃ = e' ∧ e.numActs = curr := by simpa using h
      exact .new (Bool.not_eq_true _ ▸ hsecond) hadded (checkRead_steps hread)
    · obtain ⟨rfl,rfl⟩ : e₂ = e' ∧ e.numActs = curr := by simpa using h
      exact .new (Bool.not_eq_true _ ▸ hsecond) hadded .refl

end Execution
end CdsChecker
