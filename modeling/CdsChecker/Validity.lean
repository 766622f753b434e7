import CdsChecker.RunLoopSteps

/-! What every reachable configuration satisfies about its threads, mutexes and waiting lists. -/
namespace CdsChecker
namespace Execution

/-- A thread with a pending action, and what the action is about. -/
structure ValidPending (e : Execution) (t : ThreadId) (th : Thread) (act : ModelAction) : Prop where
  tid : act.tid = t
  user : t ≠ 0
  alive : th.state ≠ .completed
  operand : ∀ u, act.getThreadOperand = some u → u < e.threads.length
  relock : ∀ a, e.getLastAction t = some a → (e.acts a).isWait = true → act.isLock = true
  rmwr : (act.isRmwc || act.isRmw) = true → ∀ a, e.getLastAction t = some a →
    (e.acts a).isRmwr = true

structure ValidWaiter (e : Execution) (l : Location) (w : ActionId) : Prop where
  lt : w < e.numActs
  type : (e.acts w).type = .atomicWait
  location : (e.acts w).location = l
  user : (e.acts w).tid ≠ 0
  thread : (e.acts w).tid < e.threads.length

structure Valid (e : Execution) : Prop where
  model : ∀ t th, e.threads[t]? = some th → (th.modelThread = true ↔ t = 0)
  main : 1 < e.threads.length
  pending : ∀ t th act, e.threads[t]? = some th → th.pending = some act → e.ValidPending t th act
  holder : ∀ m t, (e.mutexes m).locked = some t → t < e.threads.length
  last : ∀ t a, t ≠ 0 → e.getLastAction t = some a →
    a < e.numActs ∧ (e.acts a).tid = t ∧ t < e.threads.length
  waiter : ∀ l, ∀ w ∈ e.condvarWaitersMap l, e.ValidWaiter l w
  creation : ∀ (t : ThreadId) (th : Thread) (a : ActionId), e.threads[t]? = some th →
    th.creation = some a → a < e.numActs ∧ (e.acts a).type = .threadCreate

/-- A thread may drop its pending action, and does not complete with one. -/
structure KeepsThread (th th' : Thread) : Prop where
  model : th'.modelThread = th.modelThread
  creation : th'.creation = th.creation
  pending : th'.pending = none ∨
    th'.pending = th.pending ∧ (th.state ≠ .completed → th'.state ≠ .completed)

/-- The invariant reads only part of an execution. -/
theorem Valid.of_similar {e e' : Execution} (h : e.Valid)
    (hthreads : ∀ (t : ThreadId) (th' : Thread), e'.threads[t]? = some th' →
      ∃ th, e.threads[t]? = some th ∧ KeepsThread th th')
    (hlength : e'.threads.length = e.threads.length)
    (hholder : ∀ m t, (e'.mutexes m).locked = some t → t < e.threads.length)
    (hlast : ∀ t, e'.getLastAction t = e.getLastAction t) (hnum : e'.numActs = e.numActs)
    (hacts : ∀ a, (e'.acts a).isWait = (e.acts a).isWait ∧ (e'.acts a).tid = (e.acts a).tid ∧
      (e'.acts a).location = (e.acts a).location)
    (hcreate : ∀ a, (e.acts a).type = .threadCreate → (e'.acts a).type = .threadCreate)
    (hrmwr : ∀ (t : ThreadId) (th' : Thread) a, e'.threads[t]? = some th' → th'.pending ≠ none →
      e.getLastAction t = some a → (e'.acts a).isRmwr = (e.acts a).isRmwr)
    (hwaiter : ∀ l, ∀ w ∈ e'.condvarWaitersMap l, e.ValidWaiter l w) : e'.Valid where
  model t th' hth' := by
    obtain ⟨th,hth,hkeeps⟩ := hthreads t th' hth'
    rw [hkeeps.model]
    exact h.model t th hth
  main := hlength ▸ h.main
  pending t th' act hth' hact := by
    obtain ⟨th,hth,hkeeps⟩ := hthreads t th' hth'
    rcases hkeeps.pending with hnone | ⟨hsame,halive⟩
    · rw [hnone] at hact
      cases hact
    · have hp := h.pending t th act hth (hsame ▸ hact)
      refine ⟨hp.tid,hp.user,halive hp.alive,fun u hu => hlength ▸ hp.operand u hu,?_,?_⟩
      · intro a ha hwait
        rw [hlast] at ha
        rw [(hacts a).1] at hwait
        exact hp.relock a ha hwait
      · intro hrmw a ha
        rw [hlast] at ha
        rw [hrmwr t th' a hth' (by simp [hact]) ha]
        exact hp.rmwr hrmw a ha
  holder m t hm := hlength ▸ hholder m t hm
  last t a ht ha := by
    rw [hlast] at ha
    obtain ⟨hlt,htid,hthread⟩ := h.last t a ht ha
    exact ⟨hnum ▸ hlt,(hacts a).2.1.trans htid,hlength ▸ hthread⟩
  waiter l w hw := by
    have hv := hwaiter l w hw
    have hwait : (e'.acts w).isWait = true := (hacts w).1.trans
      (by simp [ModelAction.isWait,hv.type])
    exact ⟨hnum ▸ hv.lt,by simpa [ModelAction.isWait] using hwait,
      (hacts w).2.2.trans hv.location,(hacts w).2.1 ▸ hv.user,(hacts w).2.1 ▸ hlength ▸ hv.thread⟩
  creation t th' a hth' ha := by
    obtain ⟨th,hth,hkeeps⟩ := hthreads t th' hth'
    rw [hkeeps.creation] at ha
    obtain ⟨hlt,htype⟩ := h.creation t th a hth ha
    exact ⟨hnum ▸ hlt,hcreate a htype⟩

theorem Valid.of_same {e e' : Execution} (h : e.Valid)
    (hthreads : ∀ (t : ThreadId) (th' : Thread), e'.threads[t]? = some th' →
      ∃ th, e.threads[t]? = some th ∧ KeepsThread th th')
    (hlength : e'.threads.length = e.threads.length)
    (hholder : ∀ m t, (e'.mutexes m).locked = some t → t < e.threads.length)
    (hlast : ∀ t, e'.getLastAction t = e.getLastAction t) (hnum : e'.numActs = e.numActs)
    (hacts : ∀ a, (e'.acts a).type = (e.acts a).type ∧ (e'.acts a).tid = (e.acts a).tid ∧
      (e'.acts a).location = (e.acts a).location)
    (hwaiter : ∀ l, ∀ w ∈ e'.condvarWaitersMap l, e.ValidWaiter l w) : e'.Valid := by
  refine h.of_similar hthreads hlength hholder hlast hnum (fun a => ?_)
    (fun a => (hacts a).1 ▸ id) (fun t th' a _ _ _ => ?_) hwaiter
  · refine ⟨?_,(hacts a).2⟩
    unfold ModelAction.isWait
    rw [(hacts a).1]
  · unfold ModelAction.isRmwr
    rw [(hacts a).1]

theorem MemFrame.getLastAction {e e' : Execution} (h : MemFrame e e') (t : ThreadId) :
    e'.getLastAction t = e.getLastAction t := by
  rw [Execution.getLastAction,h.thrdLastAction]
  rfl

theorem Valid.frame {e e' : Execution} (h : e.Valid) (hframe : MemFrame e e') : e'.Valid := by
  refine h.of_same (fun t th hth => ?_) (by rw [hframe.threads]) ?_ hframe.getLastAction
    hframe.numActs (fun a => ⟨(hframe.act a).type,(hframe.act a).tid,(hframe.act a).location⟩) ?_
  · rw [hframe.threads] at hth
    exact ⟨th,hth,rfl,rfl,.inr ⟨rfl,id⟩⟩
  · rw [hframe.mutexes]
    exact h.holder
  · rw [hframe.condvarWaitersMap]
    exact h.waiter

theorem Valid.woken {e e' : Execution} {s : Set ThreadId} (h : e.Valid) (hw : Woken e e' s) :
    e'.Valid := by
  have hlast := congrArg Execution.thrdLastAction hw.rest
  have hnum := congrArg Execution.numActs hw.rest
  refine h.of_same (fun t th' hth' => ?_) hw.length ?_ (fun t => ?_) hnum
    (fun a => by rw [hw.acts]; exact ⟨rfl,rfl,rfl⟩) ?_
  · by_cases ht : t ∈ s
    · obtain ⟨th,hth,_,_,hnew⟩ := hw.woken t ht
      obtain rfl := Option.some.inj (hnew.symm.trans hth')
      exact ⟨th,hth,rfl,rfl,.inr ⟨rfl,fun _ => by simp⟩⟩
    · exact ⟨th',(hw.other t ht).symm.trans hth',rfl,rfl,.inr ⟨rfl,id⟩⟩
  · rw [hw.mutexes]
    exact h.holder
  · rw [getLastAction,hlast]
    rfl
  · rw [hw.condvarWaitersMap]
    exact h.waiter

theorem Valid.setLocked {e : Execution} (h : e.Valid) (m : Location) (holder : Option ThreadId)
    (hlt : ∀ t, holder = some t → t < e.threads.length) : (e.setLocked m holder).Valid := by
  refine h.of_same (fun t th' hth' => ⟨th',hth',rfl,rfl,.inr ⟨rfl,id⟩⟩) rfl (fun m' t hm' => ?_)
    (fun _ => rfl) rfl (fun _ => ⟨rfl,rfl,rfl⟩) h.waiter
  by_cases hmm : m' = m
  · subst hmm
    exact hlt t (by simpa [Execution.setLocked] using hm')
  · exact h.holder m' t (by simpa [Execution.setLocked,hmm] using hm')

theorem Valid.setWaiters {e : Execution} (h : e.Valid) (l : Location) (ws : List ActionId)
    (hws : ∀ w ∈ ws, e.ValidWaiter l w) : (e.setWaiters l ws).Valid := by
  refine h.of_same (fun t th' hth' => ⟨th',hth',rfl,rfl,.inr ⟨rfl,id⟩⟩) rfl h.holder
    (fun _ => rfl) rfl (fun _ => ⟨rfl,rfl,rfl⟩) (fun l' w hw => ?_)
  by_cases hl : l' = l
  · subst hl
    exact hws w (by simpa [Execution.setWaiters] using hw)
  · exact h.waiter l' w (by simpa [Execution.setWaiters,hl] using hw)

theorem Valid.setTryLock {e : Execution} (h : e.Valid) (curr : ActionId)
    (f : ModelAction → ModelAction)
    (hf : ∀ a : ModelAction, (f a).type = a.type ∧ (f a).tid = a.tid ∧
    (f a).location = a.location) :
    (e.modifyAct curr f).Valid := by
  refine h.of_same (fun t th' hth' => ⟨th',hth',rfl,rfl,.inr ⟨rfl,id⟩⟩) rfl h.holder
    (fun _ => rfl) rfl (fun a => ?_) h.waiter
  by_cases ha : a = curr
  · subst ha
    simpa [modifyAct] using hf (e.acts a)
  · simp [modifyAct,ha]

/-- A thread changes its state, but does not complete with a pending action. -/
theorem Valid.setState {e : Execution} (h : e.Valid) (t : ThreadId) (s : ThreadState)
    (hs : s = .completed → e.threads[t]?.bind Thread.pending = none) :
    (e.modifyThread t fun th => { th with state := s }).Valid := by
  refine h.of_same (fun u th' hth' => ?_) (by simp [modifyThread]) h.holder
    (fun _ => rfl) rfl (fun _ => ⟨rfl,rfl,rfl⟩) h.waiter
  obtain ⟨th,hth,rfl⟩ := getElem?_modify_eq_some.mp hth'
  refine ⟨th,hth,?_⟩
  by_cases htu : t = u
  · subst htu
    rw [if_pos rfl]
    by_cases hsc : s = .completed
    · refine ⟨rfl,rfl,.inl ?_⟩
      have hnone := hs hsc
      rw [hth] at hnone
      exact hnone
    · exact ⟨rfl,rfl,.inr ⟨rfl,fun _ => hsc⟩⟩
  · rw [if_neg htu]
    exact ⟨rfl,rfl,.inr ⟨rfl,id⟩⟩

theorem Valid.setEnabled {e : Execution} (h : e.Valid) (enabled : ThreadId → Bool) :
    { e with enabled := enabled }.Valid :=
  h.of_same (fun _ th' hth' => ⟨th',hth',rfl,rfl,.inr ⟨rfl,id⟩⟩) rfl h.holder (fun _ => rfl) rfl
    (fun _ => ⟨rfl,rfl,rfl⟩) h.waiter

theorem Valid.slept {e : Execution} (h : e.Valid) (t : ThreadId) : (e.slept t).Valid :=
  (h.setEnabled (Function.update e.enabled t false)).setState t .blocked (by simp)

theorem Valid.addThread {e : Execution} (h : e.Valid) (th : Thread)
    (hmodel : th.modelThread = false)
    (hpending : th.pending = none)
    (hcreation : ∀ a, th.creation = some a → a < e.numActs ∧ (e.acts a).type = .threadCreate) :
    { e with threads := e.threads ++ [th] }.Valid := by
  have hmain := h.main
  have hold : ∀ (t : ThreadId) (th' : Thread), (e.threads ++ [th])[t]? = some th' →
      e.threads[t]? = some th' ∨ t = e.threads.length ∧ th' = th := by
    intro t th' hth'
    by_cases hlt : t < e.threads.length
    · rw [List.getElem?_append_left hlt] at hth'
      exact .inl hth'
    · rw [List.getElem?_append_right (not_lt.mp hlt)] at hth'
      obtain ⟨hidx,hval⟩ := List.getElem?_eq_some_iff.mp hth'
      have hzero : t - e.threads.length = 0 := by simpa using hidx
      refine .inr ⟨Nat.le_antisymm (Nat.sub_eq_zero_iff_le.mp hzero) (not_lt.mp hlt),?_⟩
      rw [← hval]
      simp
  have hlen : (e.threads ++ [th]).length = e.threads.length + 1 := by simp
  constructor
  · intro t th' hth'
    rcases hold t th' hth' with hth | ⟨rfl,rfl⟩
    · exact h.model t th' hth
    · rw [hmodel]
      constructor
      · intro hf
        cases hf
      · intro hzero
        rw [hzero] at hmain
        cases hmain
  · exact hlen ▸ hmain.trans (Nat.lt_succ_self _)
  · intro t th' act hth' hact
    rcases hold t th' hth' with hth | ⟨_,rfl⟩
    · have hp := h.pending t th' act hth hact
      exact ⟨hp.tid,hp.user,hp.alive,
        fun u hu => hlen ▸ (hp.operand u hu).trans (Nat.lt_succ_self _),hp.relock,hp.rmwr⟩
    · rw [hpending] at hact
      cases hact
  · exact fun m t hm => hlen ▸ (h.holder m t hm).trans (Nat.lt_succ_self _)
  · intro t a ht ha
    obtain ⟨hlt,htid,hthread⟩ := h.last t a ht ha
    exact ⟨hlt,htid,hlen ▸ hthread.trans (Nat.lt_succ_self _)⟩
  · intro l w hw
    have hv := h.waiter l w hw
    exact ⟨hv.lt,hv.type,hv.location,hv.user,hlen ▸ hv.thread.trans (Nat.lt_succ_self _)⟩
  · intro t th' a hth' ha
    rcases hold t th' hth' with hth | ⟨_,rfl⟩
    · exact h.creation t th' a hth ha
    · exact hcreation a ha

/-- The action that is processed: the last one of its thread, which has no other one pending. The
thread that it creates has not begun. -/
structure ValidCurr (e : Execution) (curr : ActionId) : Prop where
  lt : curr < e.numActs
  user : (e.acts curr).tid ≠ 0
  last : e.getLastAction (e.acts curr).tid = some curr
  idle : e.threads[(e.acts curr).tid]?.bind Thread.pending = none
  created : ∀ (t : ThreadId) (th : Thread), e.threads[t]? = some th → th.creation = some curr →
    t ≠ 0 ∧ e.getLastAction t = none

theorem CurrEffect.valid {e e' : Execution} {curr : ActionId} {misc : ℕ}
    (h : CurrEffect e curr misc e') (hv : e.Valid) (hcurr : e.ValidCurr curr) : e'.Valid := by
  have hthread : (e.acts curr).tid < e.threads.length := (hv.last _ _ hcurr.user hcurr.last).2.2
  have hwaiters : ∀ {e₁ : Execution} {s : Set ThreadId}, Woken e e₁ s →
      ∀ l w, e.ValidWaiter l w → e₁.ValidWaiter l w := by
    intro e₁ s hw l w hvw
    have hnum := congrArg Execution.numActs hw.rest
    have hacts := hw.acts
    refine ⟨hvw.lt.trans_eq hnum.symm,?_,?_,?_,?_⟩
    · rw [hacts]; exact hvw.type
    · rw [hacts]; exact hvw.location
    · rw [hacts]; exact hvw.user
    · rw [hacts,hw.length]; exact hvw.thread
  cases h with
  | memory _ _ _ hframe => exact hv.frame hframe
  | create htype hframe =>
    refine Valid.frame ((hv.addThread _ rfl rfl fun a ha => ?_).setEnabled _) hframe
    obtain rfl := Option.some.inj ha
    exact ⟨hcurr.lt,htype⟩
  | finish _ hwoken hframe =>
    refine ((hv.woken hwoken).setState _ .completed fun _ => ?_).frame hframe
    exact (hwoken.pending _).trans hcurr.idle
  | grab m _ _ _ hframe =>
    refine Valid.frame ?_ hframe
    refine (hv.setTryLock curr _ fun a => ?_).setLocked m _ fun t ht => ?_
    · split <;> exact ⟨rfl,rfl,rfl⟩
    · obtain rfl := Option.some.inj ht
      exact hthread
  | trylockFails m _ _ _ hframe =>
    exact (hv.setTryLock curr (ModelAction.setTryLock · false) fun a => ⟨rfl,rfl,rfl⟩).frame hframe
  | release m _ _ hwoken hframe =>
    exact ((hv.woken hwoken).setLocked m none (by simp)).frame hframe
  | wait m htype _ _ hwoken _ hframe =>
    refine Valid.frame ?_ hframe
    refine (((hv.woken hwoken).setWaiters _ _ fun w hw => ?_).setLocked m none (by simp)).slept _
    rcases List.mem_append.mp hw with hw | hw
    · exact hwaiters hwoken _ _ (hv.waiter _ _ hw)
    · obtain rfl := List.mem_singleton.mp hw
      exact hwaiters hwoken _ _ ⟨hcurr.lt,htype,rfl,hcurr.user,hthread⟩
  | notifyAll _ hwoken hframe =>
    exact ((hv.woken hwoken).setWaiters _ [] (by simp)).frame hframe
  | notifyOne w _ _ hwoken hframe =>
    refine ((hv.woken hwoken).setWaiters _ _ fun w' hw' => ?_).frame hframe
    exact hwaiters hwoken _ _ (hv.waiter _ _ (List.mem_of_mem_eraseIdx hw'))

/-- A thread keeps the action that created it; there is at most one new thread. -/
theorem Woken.creation {e e' : Execution} {s : Set ThreadId} (h : Woken e e' s) {t : ThreadId}
    {th' : Thread} (hth' : e'.threads[t]? = some th') :
    ∃ th, e.threads[t]? = some th ∧ th'.creation = th.creation := by
  by_cases ht : t ∈ s
  · obtain ⟨th,hth,_,_,hnew⟩ := h.woken t ht
    obtain rfl := Option.some.inj (hnew.symm.trans hth')
    exact ⟨th,hth,rfl⟩
  · exact ⟨th',(h.other t ht).symm.trans hth',rfl⟩

theorem creation_setState {e : Execution} {t u : ThreadId} {s : ThreadState} {th' : Thread}
    (hth' : (e.modifyThread u fun th => { th with state := s }).threads[t]? = some th') :
    ∃ th, e.threads[t]? = some th ∧ th'.creation = th.creation := by
  obtain ⟨th,hth,rfl⟩ := getElem?_modify_eq_some.mp hth'
  refine ⟨th,hth,?_⟩
  split <;> rfl

theorem CurrEffect.creation {e e' : Execution} {curr : ActionId} {misc : ℕ}
    (h : CurrEffect e curr misc e') {t : ThreadId} {th' : Thread}
    (hth' : e'.threads[t]? = some th') :
    (∃ th, e.threads[t]? = some th ∧ th'.creation = th.creation) ∨ t = e.threads.length := by
  cases h with
  | memory _ _ _ hframe =>
    rw [hframe.threads] at hth'
    exact .inl ⟨th',hth',rfl⟩
  | create _ hframe =>
    rw [hframe.threads] at hth'
    by_cases hlt : t < e.threads.length
    · rw [List.getElem?_append_left hlt] at hth'
      exact .inl ⟨th',hth',rfl⟩
    · have hle := (List.getElem?_eq_some_iff.mp hth').1
      rw [List.length_append,List.length_singleton] at hle
      exact .inr (Nat.le_antisymm (Nat.lt_succ_iff.mp hle) (not_lt.mp hlt))
  | finish _ hwoken hframe =>
    rw [hframe.threads] at hth'
    obtain ⟨th₁,hth₁,hc⟩ := creation_setState hth'
    obtain ⟨th,hth,hc'⟩ := hwoken.creation hth₁
    exact .inl ⟨th,hth,hc.trans hc'⟩
  | grab m _ _ _ hframe =>
    rw [hframe.threads] at hth'
    exact .inl ⟨th',hth',rfl⟩
  | trylockFails m _ _ _ hframe =>
    rw [hframe.threads] at hth'
    exact .inl ⟨th',hth',rfl⟩
  | release m _ _ hwoken hframe =>
    rw [hframe.threads] at hth'
    exact .inl (hwoken.creation hth')
  | wait m _ _ _ hwoken _ hframe =>
    rw [hframe.threads] at hth'
    obtain ⟨th₁,hth₁,hc⟩ := creation_setState hth'
    obtain ⟨th,hth,hc'⟩ := hwoken.creation hth₁
    exact .inl ⟨th,hth,hc.trans hc'⟩
  | notifyAll _ hwoken hframe =>
    rw [hframe.threads] at hth'
    exact .inl (hwoken.creation hth')
  | notifyOne w _ _ hwoken hframe =>
    rw [hframe.threads] at hth'
    exact .inl (hwoken.creation hth')

theorem ValidCurr.frame {e e' : Execution} {curr : ActionId} (h : e.ValidCurr curr)
    (hframe : MemFrame e e') : e'.ValidCurr curr where
  lt := hframe.numActs ▸ h.lt
  user := (hframe.act curr).tid ▸ h.user
  last := by
    rw [(hframe.act curr).tid,hframe.getLastAction]
    exact h.last
  idle := by
    rw [(hframe.act curr).tid]
    exact (hframe.pendingOf _).trans h.idle
  created t th hth hcreation := by
    rw [hframe.threads] at hth
    rw [hframe.getLastAction]
    exact h.created t th hth hcreation

theorem CurrEffect.validCurr {e e' : Execution} {curr : ActionId} {misc : ℕ}
    (h : CurrEffect e curr misc e') (hv : e.Valid) (hcurr : e.ValidCurr curr) :
    e'.ValidCurr curr where
  lt := h.lists.numActs ▸ hcurr.lt
  user := h.act_curr.tid ▸ hcurr.user
  last := by
    rw [h.act_curr.tid,h.lists.getLastAction]
    exact hcurr.last
  idle := by
    rw [h.act_curr.tid]
    exact (h.pendingOf _).trans hcurr.idle
  created t th' hth' hcreation := by
    rw [h.lists.getLastAction]
    rcases h.creation hth' with ⟨th,hth,hsame⟩ | rfl
    · exact hcurr.created t th hth (hsame ▸ hcreation)
    · have hmain := hv.main
      have hne : e.threads.length ≠ 0 := by omega
      refine ⟨hne,Option.eq_none_iff_forall_ne_some.mpr fun a ha => ?_⟩
      exact absurd (hv.last _ a hne ha).2.2 (lt_irrefl _)

/-! ### The work queue -/

theorem propagateLoop_items {acquire : ActionId} {l : List ActionId} {e e' : Execution}
    {items : List WorkItem} (h : propagateLoop acquire l e = .ok (e',items)) :
    WorkItem.checkCurrAction ∉ items := by
  induction l generalizing e e' items with
  | nil => cases h
  | cons act rest ih =>
    rw [propagateLoop] at h
    split at h
    · cases h
      simp
    · split at h
      · obtain ⟨⟨e₁,items₁⟩,h₁,h⟩ := bind_eq_ok.mp h
        obtain rfl : _ = items := congrArg Prod.snd (Except.ok.inj h)
        simpa using ih h₁
      · exact ih h

theorem propagateClockvector_items {acquire : ActionId} {e e' : Execution} {items : List WorkItem}
    (h : e.propagateClockvector acquire = .ok (e',items)) : WorkItem.checkCurrAction ∉ items := by
  obtain ⟨⟨e₁,items₁⟩,h₁,h⟩ := bind_eq_ok.mp h
  obtain rfl : _ = items := congrArg Prod.snd (Except.ok.inj h)
  simpa using propagateLoop_items h₁

theorem readersReadFrom_items {write : ActionId} {l : List ActionId} {e e' : Execution}
    {items : List WorkItem} (h : readersReadFrom write l e = .ok (e',items)) :
    WorkItem.checkCurrAction ∉ items := by
  induction l generalizing e e' items with
  | nil =>
    cases h
    simp
  | cons read reads ih =>
    obtain ⟨⟨e₁,updated⟩,_,h⟩ := bind_eq_ok.mp h
    obtain ⟨⟨e₂,items₁⟩,h₁,h⟩ := ite_bind_eq_ok.mp h
    obtain ⟨⟨e₃,more⟩,h₂,h⟩ := bind_eq_ok.mp h
    obtain rfl : _ = items := congrArg Prod.snd (Except.ok.inj h)
    have hfirst : WorkItem.checkCurrAction ∉ items₁ := by
      split at h₁
      · exact propagateClockvector_items h₁
      · obtain rfl : [] = items₁ := congrArg Prod.snd (Except.ok.inj h₁)
        simp
    simpa using ⟨hfirst,ih h₂⟩

theorem processWrite_items {curr : ActionId} {node : Choices} {e e' : Execution} {b : Bool}
    {items : List WorkItem} (h : e.processWrite curr node = .ok (e',b,items)) :
    WorkItem.checkCurrAction ∉ items := by
  obtain ⟨⟨e₁,_⟩,_,h⟩ := bind_eq_ok.mp h
  obtain ⟨⟨e₂,_,items₁⟩,hkeep,h⟩ := bind_eq_ok.mp h
  obtain ⟨e₃,_,h⟩ := bind_eq_ok.mp h
  obtain rfl : items₁ = items := congrArg (Prod.snd ∘ Prod.snd) (Except.ok.inj h)
  unfold keepPromise at hkeep
  split at hkeep
  · cases hkeep
    simp
  · split at hkeep
    · cases hkeep
      simp
    · obtain ⟨⟨e₄,items₂⟩,hresolve,hkeep⟩ := bind_eq_ok.mp hkeep
      obtain rfl : items₂ = items₁ := congrArg (Prod.snd ∘ Prod.snd) (Except.ok.inj hkeep)
      obtain ⟨⟨e₅,items₃⟩,hreaders,hresolve⟩ := bind_eq_ok.mp hresolve
      obtain ⟨_,_,hresolve⟩ := bind_eq_ok.mp hresolve
      obtain ⟨_,_,hresolve⟩ := bind_eq_ok.mp hresolve
      obtain ⟨_,_,hresolve⟩ := bind_eq_ok.mp hresolve
      obtain rfl : items₃ = items₂ := congrArg Prod.snd (Except.ok.inj hresolve)
      exact readersReadFrom_items hreaders

theorem processRelseqFixup_items {write : Option ActionId} {e e' : Execution}
    {items : List WorkItem} (h : e.processRelseqFixup write = .ok (e',items)) :
    WorkItem.checkCurrAction ∉ items := by
  unfold processRelseqFixup at h
  split at h
  · cases h
  · split at h
    · obtain ⟨_,_,h⟩ := bind_eq_ok.mp h
      split at h
      · split at h
        · cases h
          simp
        · exact propagateClockvector_items h
      · obtain ⟨_,_,h⟩ := bind_eq_ok.mp h
        obtain ⟨_,_,h⟩ := bind_eq_ok.mp h
        cases h
        simp
    · cases h

theorem resolveLoop_items {location : Option Location} {l : List ReleaseSeq} {updated : Bool}
    {e e' : Execution} {kept : List ReleaseSeq} {items : List WorkItem}
    (h : resolveLoop location l updated e = .ok (e',kept,items)) :
    WorkItem.checkCurrAction ∉ items := by
  induction l generalizing updated e e' kept items with
  | nil =>
    cases h
    simp
  | cons pending rest ih =>
    rw [resolveLoop] at h
    split at h
    · obtain ⟨⟨e₁,kept₁,items₁⟩,h₁,h⟩ := bind_eq_ok.mp h
      obtain rfl : items₁ = items := congrArg (Prod.snd ∘ Prod.snd) (Except.ok.inj h)
      exact ih h₁
    · obtain ⟨⟨heads,complete,sequence⟩,_,h⟩ := bind_eq_ok.mp h
      dsimp only at h
      obtain ⟨⟨e₂,items₂⟩,h₂,h⟩ := ite_bind_eq_ok.mp h
      obtain ⟨⟨e₃,kept₃,items₃⟩,h₃,h⟩ := bind_eq_ok.mp h
      obtain rfl : _ = items := congrArg (Prod.snd ∘ Prod.snd) (Except.ok.inj h)
      have hfirst : WorkItem.checkCurrAction ∉ items₂ := by
        split at h₂
        · exact propagateClockvector_items h₂
        · obtain rfl : [] = items₂ := congrArg Prod.snd (Except.ok.inj h₂)
          simp
      simpa using ⟨hfirst,ih h₃⟩

/-- The current action itself is worked on only once. -/
theorem processWork_items {e e' : Execution} {curr : ActionId} {secondPartOfRmw : Bool}
    {node : Choices} {item : WorkItem} {items : List WorkItem}
    (h : e.processWork curr secondPartOfRmw node item = .ok (e',items)) :
    WorkItem.checkCurrAction ∉ items := by
  cases item with
  | checkCurrAction =>
    obtain ⟨⟨e₁,thread⟩,_,h⟩ := bind_eq_ok.mp h
    obtain ⟨⟨e₂,read⟩,_,h⟩ := ite_bind_eq_ok.mp h
    obtain ⟨⟨e₃,write,items₁⟩,h₃,h⟩ := ite_bind_eq_ok.mp h
    obtain ⟨⟨e₄,fence⟩,_,h⟩ := ite_bind_eq_ok.mp h
    obtain ⟨⟨e₅,mutex⟩,_,h⟩ := ite_bind_eq_ok.mp h
    obtain ⟨⟨e₆,fixups⟩,h₆,h⟩ := ite_bind_eq_ok.mp h
    obtain rfl : _ = items := congrArg Prod.snd (Except.ok.inj h)
    have hwrite : WorkItem.checkCurrAction ∉ items₁ := by
      split at h₃
      · exact processWrite_items h₃
      · obtain rfl : [] = items₁ := congrArg (Prod.snd ∘ Prod.snd) (Except.ok.inj h₃)
        simp
    have hfixups : WorkItem.checkCurrAction ∉ fixups := by
      split at h₆
      · exact processRelseqFixup_items h₆
      · obtain rfl : [] = fixups := congrArg Prod.snd (Except.ok.inj h₆)
        simp
    simp only [List.mem_append,not_or]
    refine ⟨⟨hwrite,hfixups⟩,?_⟩
    split
    · simp
    · split <;> simp
  | checkReleaseSeq location =>
    obtain ⟨⟨e₁,kept,items₁⟩,h₁,h⟩ := bind_eq_ok.mp h
    obtain rfl : items₁ = items := congrArg Prod.snd (Except.ok.inj h)
    exact resolveLoop_items h₁
  | checkMoEdges act =>
    obtain ⟨⟨e₁,read⟩,_,h⟩ := ite_bind_eq_ok.mp h
    obtain ⟨⟨e₂,write⟩,_,h⟩ := ite_bind_eq_ok.mp h
    obtain rfl : _ = items := congrArg Prod.snd (Except.ok.inj h)
    split <;> simp

/-- The work is for the current action itself or for what it affects. -/
theorem processWork_cases {e e' : Execution} {curr : ActionId} {secondPartOfRmw : Bool}
    {node : Choices} {item : WorkItem} {items : List WorkItem}
    (h : e.processWork curr secondPartOfRmw node item = .ok (e',items)) :
    (item = .checkCurrAction ∧ CurrEffect e curr node.misc e') ∨
      (item ≠ .checkCurrAction ∧ MemSteps curr e e') := by
  cases item with
  | checkCurrAction => exact .inl ⟨rfl,checkCurrAction_effect h⟩
  | checkReleaseSeq location => exact .inr ⟨by simp,resolveReleaseSequences_steps h⟩
  | checkMoEdges act => exact .inr ⟨by simp,checkMoEdges_steps h⟩

theorem Valid.constructMutex {e : Execution} (h : e.Valid) (m : Location) (state : MutexState)
    (hfree : state.locked = none) :
    { e with mutexes := Function.update e.mutexes m state }.Valid := by
  refine h.of_same (fun t th' hth' => ⟨th',hth',rfl,rfl,.inr ⟨rfl,id⟩⟩) rfl (fun m' t hm' => ?_)
    (fun _ => rfl) rfl (fun _ => ⟨rfl,rfl,rfl⟩) h.waiter
  by_cases hmm : m' = m
  · subst hmm
    simp [hfree] at hm'
  · exact h.holder m' t (by simpa [hmm] using hm')

theorem length_eq_of_getElem? {α : Type} {l l' : List α} {f : ℕ → α → α}
    (h : ∀ i, l'[i]? = l[i]?.map (f i)) : l'.length = l.length := by
  have hiff : ∀ i, l'.length ≤ i ↔ l.length ≤ i := by
    intro i
    rw [← List.getElem?_eq_none_iff,h,Option.map_eq_none_iff,List.getElem?_eq_none_iff]
  exact le_antisymm ((hiff _).mpr le_rfl) ((hiff _).mp le_rfl)

theorem Valid.slept_all {params : ExecutionParams} {ts : List ThreadId} {e e' : Execution}
    (h : e.Valid) (hs : Slept params ts e e') : e'.Valid := by
  obtain ⟨s,hthreads,hstate⟩ := hs.threads
  refine h.of_same (fun t th' hth' => ?_) ?_ ?_ (fun t => hs.frame.getLastAction t)
    hs.frame.numActs (fun a => ⟨(hs.frame.act a).type,(hs.frame.act a).tid,
      (hs.frame.act a).location⟩) ?_
  · rw [hthreads t] at hth'
    obtain ⟨th,hth,rfl⟩ := Option.map_eq_some_iff.mp hth'
    refine ⟨th,hth,rfl,rfl,.inr ⟨rfl,fun halive => ?_⟩⟩
    rcases hstate t th hth with hsame | ⟨_,hblocked⟩
    · exact hsame ▸ halive
    · simp [Thread.withState,hblocked]
  · exact length_eq_of_getElem? hthreads
  · intro m t hm
    exact h.holder m t (by rw [← hm,show e'.mutexes = e.mutexes from hs.frame.mutexes])
  · intro l w hw
    exact h.waiter l w (by
      rwa [show e'.condvarWaitersMap = e.condvarWaitersMap from hs.frame.condvarWaitersMap] at hw)

/-- A user thread that has to run. -/
theorem needsStash_thread {e : Execution} {i : ThreadId} (h : e.needsStash i = true) :
    ∃ th, e.threads[i]? = some th ∧ th.modelThread = false ∧ th.state ≠ .completed ∧
      th.pending = none := by
  unfold needsStash at h
  cases hth : e.threads[i]? with
  | none => simp [hth] at h
  | some th =>
    simp only [hth,Option.any_some,Bool.and_eq_true,Bool.not_eq_true',bne_iff_ne,ne_eq,
      Option.isNone_iff_eq_none] at h
    exact ⟨th,rfl,h.1.1,h.1.2,h.2⟩

theorem wellTyped_operand {e : Execution} {act : ModelAction} (h : e.wellTyped act = true)
    {u : ThreadId} (hu : act.getThreadOperand = some u) : u < e.threads.length := by
  unfold ModelAction.getThreadOperand at hu
  split at hu
  · rename_i id htype hlocation
    obtain rfl := Option.some.inj hu
    simp only [wellTyped,htype,hlocation,Bool.and_eq_true,decide_eq_true_eq] at h
    exact h.2.2
  · cases hu

theorem follows_wait {e : Execution} {act : ModelAction} (h : e.follows act = true) {a : ActionId}
    (ha : e.getLastAction act.tid = some a) (hwait : (e.acts a).isWait = true) :
    act.isLock = true ∧ act.location = .object (e.acts a).value := by
  have hrmwr : (e.acts a).isRmwr = false := by
    unfold ModelAction.isWait at hwait
    unfold ModelAction.isRmwr
    rw [beq_iff_eq.mp hwait]
    rfl
  unfold follows at h
  rw [ha] at h
  simpa [hwait,hrmwr] using h

theorem follows_rmw {e : Execution} {act : ModelAction} (h : e.follows act = true)
    (hrmw : (act.isRmwc || act.isRmw) = true) {a : ActionId}
    (ha : e.getLastAction act.tid = some a) : (e.acts a).isRmwr = true := by
  by_contra hrmwr
  unfold follows at h
  rw [ha] at h
  simp only [Option.map_some,hrmwr,Bool.false_eq_true,if_false] at h
  split at h
  · simp only [Bool.and_eq_true,ModelAction.isLock,beq_iff_eq] at h
    simp [ModelAction.isRmwc,ModelAction.isRmw,h.1] at hrmw
  · simp only [Bool.not_eq_true',Bool.or_eq_false_iff] at h
    simp [h.1.2,h.2] at hrmw

theorem Valid.switchFromMaster {e e' : Execution} {act : ModelAction} (h : e.Valid)
    (hneeds : e.needsStash act.tid = true) (htyped : e.wellTyped act = true)
    (hfollows : e.follows act = true) (he : e.switchFromMaster act = .ok e') : e'.Valid := by
  obtain ⟨⟨th₀,hth₀,hstate₀⟩,rfl⟩ := switchFromMaster_spec he
  obtain ⟨th₁,hth₁,hmodel,_,_⟩ := needsStash_thread hneeds
  obtain rfl := Option.some.inj (hth₀.symm.trans hth₁)
  have huser : act.tid ≠ 0 := fun hzero => by simp [(h.model _ _ hth₀).mpr hzero] at hmodel
  have hlen :
      (e.threads.modify act.tid fun th => { th with state := .ready,pending := some act }).length =
      e.threads.length := by simp
  constructor
  · intro t th' hth'
    obtain ⟨th,hth,rfl⟩ := getElem?_modify_eq_some.mp hth'
    rw [← h.model t th hth]
    split <;> rfl
  · exact hlen ▸ h.main
  · intro t th' act' hth' hact'
    obtain ⟨th,hth,rfl⟩ := getElem?_modify_eq_some.mp hth'
    by_cases ht : act.tid = t
    · subst ht
      rw [if_pos rfl] at hact' ⊢
      obtain rfl := Option.some.inj hact'
      refine ⟨rfl,huser,by simp,fun u hu => hlen ▸ wellTyped_operand htyped hu,?_,?_⟩
      · exact fun a ha hwait => (follows_wait hfollows ha hwait).1
      · exact fun hrmw a ha => follows_rmw hfollows hrmw ha
    · rw [if_neg ht] at hact' ⊢
      have hp := h.pending t th act' hth hact'
      exact ⟨hp.tid,hp.user,hp.alive,fun u hu => hlen ▸ hp.operand u hu,hp.relock,hp.rmwr⟩
  · exact fun m t hm => hlen ▸ h.holder m t hm
  · intro t a ht ha
    obtain ⟨hlt,htid,hthread⟩ := h.last t a ht ha
    exact ⟨hlt,htid,hlen ▸ hthread⟩
  · intro l w hw
    have hv := h.waiter l w hw
    exact ⟨hv.lt,hv.type,hv.location,hv.user,hlen ▸ hv.thread⟩
  · intro t th' a hth' ha
    obtain ⟨th,hth,rfl⟩ := getElem?_modify_eq_some.mp hth'
    refine h.creation t th a hth ?_
    rw [← ha]
    split <;> rfl

/-- A thread gives its pending action away. -/
theorem Valid.take {e : Execution} (h : e.Valid) (t : ThreadId) :
    (e.modifyThread t fun th => { th with pending := none }).Valid := by
  refine h.of_same (fun u th' hth' => ?_) (by simp [modifyThread]) h.holder
    (fun _ => rfl) rfl (fun _ => ⟨rfl,rfl,rfl⟩) h.waiter
  obtain ⟨th,hth,rfl⟩ := getElem?_modify_eq_some.mp hth'
  refine ⟨th,hth,?_⟩
  by_cases htu : t = u
  · rw [if_pos htu]
    exact ⟨rfl,rfl,.inl rfl⟩
  · rw [if_neg htu]
    exact ⟨rfl,rfl,.inr ⟨rfl,id⟩⟩

/-- The read of an RMW becomes the RMW, or a read. -/
theorem processRmw_similar {a act : ModelAction} (hact : (act.isRmwc || act.isRmw) = true)
    (ha : a.isRmwr = true) :
    (a.processRmw act).isWait = a.isWait ∧ (a.processRmw act).tid = a.tid ∧
      (a.processRmw act).location = a.location ∧ (a.processRmw act).seqNumber = a.seqNumber ∧
      (a.processRmw act).cv = a.cv ∧ (a.processRmw act).isMutexOp = false := by
  have hwait : a.isWait = false := by
    unfold ModelAction.isRmwr at ha
    unfold ModelAction.isWait
    rw [beq_iff_eq.mp ha]
    rfl
  unfold ModelAction.processRmw
  cases hc : act.isRmwc with
  | true => simp [ModelAction.isWait,ModelAction.isMutexOp] at hwait ⊢; exact hwait
  | false =>
    have hr : act.isRmw = true := by simpa [hc] using hact
    simp [hr,ModelAction.isWait,ModelAction.isMutexOp] at hwait ⊢
    exact hwait

/-- A new action is the last one of its thread. -/
theorem Added.valid {e e' : Execution} {act : ModelAction} {extra : Location → List ActionId}
    (h : Added (e.newAction act).1 e' e.numActs extra) (hv : e.Valid)
    (hidle : e.pendingOf act.tid = none) (huser : act.tid ≠ 0)
    (hthread : act.tid < e.threads.length) : e'.Valid ∧ e'.ValidCurr e.numActs := by
  have hnum : e.numActs < e'.numActs := h.numActs
  have hthreads : e'.threads = e.threads := h.threads
  have hold : ∀ a < e.numActs, e'.acts a = e.acts a := fun a ha =>
    (h.acts a (ha.trans (Nat.lt_succ_self _))).trans (newAction_acts e act ha.ne)
  have hact := h.acts e.numActs (Nat.lt_succ_self _)
  have htid : (e'.acts e.numActs).tid = act.tid := by rw [hact,newAction_act]
  have hlast : ∀ t : ThreadId, t ≠ 0 →
      e'.getLastAction t = if t = act.tid then some e.numActs else e.getLastAction t := by
    intro t ht
    rcases h.lastAction t with ⟨hzero,_⟩ | hlast
    · exact absurd hzero ht
    · rw [hlast,newAction_act]
      rfl
  refine ⟨⟨?_,hthreads ▸ hv.main,?_,?_,?_,?_,?_⟩,⟨hnum,htid ▸ huser,?_,?_,?_⟩⟩
  · rw [hthreads]
    exact hv.model
  · intro t th act' hth hact'
    rw [hthreads] at hth
    have hp := hv.pending t th act' hth hact'
    have hne : t ≠ act.tid := by
      rintro rfl
      rw [Execution.pendingOf,hth] at hidle
      exact absurd (hact'.symm.trans hidle) (by simp)
    have hsame : e'.getLastAction t = e.getLastAction t := by rw [hlast t hp.user,if_neg hne]
    refine ⟨hp.tid,hp.user,hp.alive,hthreads ▸ hp.operand,fun a ha => ?_,fun hrmw a ha => ?_⟩
    · rw [hsame] at ha
      rw [hold a (hv.last t a hp.user ha).1]
      exact hp.relock a ha
    · rw [hsame] at ha
      rw [hold a (hv.last t a hp.user ha).1]
      exact hp.rmwr hrmw a ha
  · rw [h.mutexes,hthreads]
    exact hv.holder
  · intro t a ht ha
    rw [hlast t ht] at ha
    split at ha
    · rename_i heq
      obtain rfl := Option.some.inj ha
      exact ⟨hnum,htid.trans heq.symm,hthreads ▸ heq ▸ hthread⟩
    · obtain ⟨hlt,htid',hlt'⟩ := hv.last t a ht ha
      exact ⟨hlt.trans hnum,by rwa [hold a hlt],hthreads ▸ hlt'⟩
  · intro l w hw
    rw [show e'.condvarWaitersMap = e.condvarWaitersMap from h.condvarWaitersMap] at hw
    have hvw := hv.waiter l w hw
    have hsame := hold w hvw.lt
    exact ⟨hvw.lt.trans hnum,hsame ▸ hvw.type,hsame ▸ hvw.location,hsame ▸ hvw.user,
      hthreads ▸ hsame ▸ hvw.thread⟩
  · intro t th a hth ha
    rw [hthreads] at hth
    obtain ⟨hlt,htype⟩ := hv.creation t th a hth ha
    exact ⟨hlt.trans hnum,by rwa [hold a hlt]⟩
  · rw [htid,hlast _ huser,if_pos rfl]
  · rw [htid,hthreads]
    exact hidle
  · intro t th hth ha
    rw [hthreads] at hth
    exact absurd (hv.creation t th _ hth ha).1 (lt_irrefl _)

theorem Begun.valid {e e' : Execution} {act : ModelAction} {curr : ActionId}
    (h : Begun e act e' curr) (hv : e.Valid) (hidle : e.pendingOf act.tid = none)
    (huser : act.tid ≠ 0) (hthread : act.tid < e.threads.length)
    (hrmwr : (act.isRmwc || act.isRmw) = true → ∀ a, e.getLastAction act.tid = some a →
      (e.acts a).isRmwr = true) : e'.Valid ∧ e'.ValidCurr curr ∧ (e'.acts curr).tid = act.tid := by
  cases h with
  | secondPart hsecond hlast hsteps =>
    have hframe := MemSteps.frame hsteps
    obtain ⟨hlt,htid,_⟩ := hv.last _ _ huser hlast
    have hread := hrmwr hsecond curr hlast
    have hsim := processRmw_similar hsecond hread
    have hact : (e.modifyAct curr fun a => a.processRmw act).acts curr =
        (e.acts curr).processRmw act := by simp [modifyAct]
    have hother : ∀ a, a ≠ curr →
        (e.modifyAct curr fun a => a.processRmw act).acts a = e.acts a :=
      fun a ha => by simp [modifyAct,ha]
    have hvalid : (e.modifyAct curr fun a => a.processRmw act).Valid := by
      refine hv.of_similar (fun t th' hth' => ⟨th',hth',rfl,rfl,.inr ⟨rfl,id⟩⟩) rfl hv.holder
        (fun _ => rfl) rfl (fun a => ?_) (fun a ha => ?_) (fun t th' a hth' hp ha => ?_) hv.waiter
      · by_cases hac : a = curr
        · rw [hac,hact]
          exact ⟨hsim.1,hsim.2.1,hsim.2.2.1⟩
        · rw [hother a hac]
          exact ⟨rfl,rfl,rfl⟩
      · rw [hother a]
        · exact ha
        · rintro rfl
          simp [ModelAction.isRmwr,ha] at hread
      · rw [hother a]
        rintro rfl
        -- the thread of the RMW has given its pending action away
        obtain ⟨act',hact'⟩ := Option.ne_none_iff_exists'.mp hp
        obtain rfl : act.tid = t := htid.symm.trans
          (hv.last t a (hv.pending t th' act' hth' hact').user ha).2.1
        have hth : e.threads[act.tid]? = some th' := hth'
        rw [Execution.pendingOf,hth] at hidle
        exact hp hidle
    have htid' : ((e.modifyAct curr fun a => a.processRmw act).acts curr).tid = act.tid := by
      rw [hact,hsim.2.1,htid]
    have hcurr : (e.modifyAct curr fun a => a.processRmw act).ValidCurr curr := by
      refine ⟨hlt,htid' ▸ huser,?_,?_,fun t th hth ha => ?_⟩
      · rw [htid']
        exact hlast
      · rw [htid']
        exact hidle
      · simp [ModelAction.isRmwr,(hv.creation t th curr hth ha).2] at hread
    exact ⟨hvalid.frame hframe,ValidCurr.frame hcurr hframe,(hframe.act curr).tid.trans htid'⟩
  | new hfirst hadded hsteps =>
    have hframe := MemSteps.frame hsteps
    have hnew := newAction_act e act
    obtain ⟨hvalid,hcurr⟩ := hadded.valid hv hidle huser hthread
    have htid' := congrArg ModelAction.tid ((hadded.acts _ (Nat.lt_succ_self _)).trans hnew)
    exact ⟨hvalid.frame hframe,ValidCurr.frame hcurr hframe,(hframe.act _).tid.trans htid'⟩

end Execution

namespace Config

open Execution

/-- The thread that goes next is in the middle of an RMW, or has not begun. -/
structure Valid (c : Config) : Prop where
  exec : c.exec.Valid
  next : ∀ t, c.next = some t →
    t ≠ 0 ∧ ∀ a, c.exec.getLastAction t = some a → (c.exec.acts a).isRmwr = true
  curr : ∀ curr secondPartOfRmw node queue, c.phase = .work curr secondPartOfRmw node queue →
    c.exec.ValidCurr curr ∧ c.next = none ∧
      (queue = [.checkCurrAction] ∨ WorkItem.checkCurrAction ∉ queue)

variable {params : ExecutionParams} {c c' : Config}

theorem valid_init : init.Valid := by
  refine ⟨⟨fun t th hth => ?_,by decide,fun t th act hth hact => ?_,?_,?_,?_,?_⟩,?_,?_⟩
  · match t,hth with
    | 0,hth => cases hth; decide
    | 1,hth => cases hth; decide
  · match t,hth with
    | 0,hth => cases hth; cases hact
    | 1,hth => cases hth; cases hact
  · intro m t hm
    cases hm
  · intro t a _ ha
    simp [init,Execution.init,getLastAction] at ha
  · intro l w hw
    cases hw
  · intro t th a hth ha
    match t,hth with
    | 0,hth => cases hth; cases ha
    | 1,hth => cases hth; cases ha
  · intro t ht
    obtain rfl := Option.some.inj ht
    refine ⟨one_ne_zero,fun a ha => ?_⟩
    simp [init,Execution.init,getLastAction] at ha
  · intro curr secondPartOfRmw node queue hphase
    cases hphase

/-- A step that leaves the phases of the work queue out. -/
theorem Valid.of_exec {e : Execution} {phase : Phase} (h : c.Valid) (hv : e.Valid)
    (hlast : ∀ t, e.getLastAction t = c.exec.getLastAction t)
    (hrmwr : ∀ a, (e.acts a).isRmwr = (c.exec.acts a).isRmwr)
    (hphase : ∀ curr secondPartOfRmw node queue, phase ≠ .work curr secondPartOfRmw node queue) :
    ({ c with exec := e,phase := phase } : Config).Valid where
  exec := hv
  next t ht := by
    refine ⟨(h.next t ht).1,fun a ha => ?_⟩
    rw [hrmwr]
    exact (h.next t ht).2 a ((hlast t).symm.trans ha)
  curr curr secondPartOfRmw node queue hwork :=
    absurd hwork (hphase curr secondPartOfRmw node queue)

theorem MemFrame.isRmwr {e e' : Execution} (h : MemFrame e e') (a : ActionId) :
    (e'.acts a).isRmwr = (e.acts a).isRmwr := by
  unfold ModelAction.isRmwr
  rw [(h.act a).type]

theorem Valid.frame {e : Execution} (h : c.Valid) (hframe : MemFrame c.exec e) :
    ({ c with exec := e } : Config).Valid where
  exec := h.exec.frame hframe
  next t ht := by
    refine ⟨(h.next t ht).1,fun a ha => ?_⟩
    rw [MemFrame.isRmwr hframe]
    exact (h.next t ht).2 a ((hframe.getLastAction t).symm.trans ha)
  curr curr secondPartOfRmw node queue hwork := by
    obtain ⟨hcurr,hnext,hqueue⟩ := h.curr curr secondPartOfRmw node queue hwork
    exact ⟨ValidCurr.frame hcurr hframe,hnext,hqueue⟩

/-- The thread that goes next is in the middle of an RMW, or has just been created. -/
theorem actionSelectNextThread_next {e : Execution} {curr : ActionId} {t : ThreadId}
    (hcurr : e.ValidCurr curr) (ht : e.actionSelectNextThread curr = some t) :
    t ≠ 0 ∧ ∀ a, e.getLastAction t = some a → (e.acts a).isRmwr = true := by
  unfold actionSelectNextThread at ht
  split at ht
  · rename_i hrmwr
    obtain rfl := Option.some.inj ht
    refine ⟨hcurr.user,fun a ha => ?_⟩
    obtain rfl := Option.some.inj (hcurr.last.symm.trans ha)
    exact hrmwr
  · split at ht
    · obtain ⟨hlt,hcreation,_⟩ := List.findIdx?_eq_some_iff_getElem.mp ht
      obtain ⟨huser,hnone⟩ := hcurr.created t _ (List.getElem?_eq_getElem hlt)
        (of_decide_eq_true hcreation)
      refine ⟨huser,fun a ha => ?_⟩
      rw [hnone] at ha
      cases ha
    · cases ht

theorem finishStep_next (params : ExecutionParams) (e : Execution) (curr : ActionId) :
    (finishStep params e curr).next =
      (e.removeStopped (e.acts curr).tid).actionSelectNextThread curr := by
  unfold finishStep
  dsimp only
  split
  · rfl
  · split
    · rfl
    · split <;> rfl

theorem Valid.finishStep {curr : ActionId} {e : Execution} (hv : e.Valid)
    (hcurr : e.ValidCurr curr) :
    (Config.finishStep params e curr).Valid := by
  have hremove := e.removeStopped_frame (e.acts curr).tid
  have hframe := finishStep_frame params e curr
  have hcurr₀ : ValidCurr { e with enabled := (e.removeStopped (e.acts curr).tid).enabled } curr :=
    ⟨hcurr.lt,hcurr.user,hcurr.last,hcurr.idle,hcurr.created⟩
  have hcurr₁ := hcurr₀.frame hremove
  constructor
  · exact ((hv.setEnabled _).frame hremove).frame hframe
  · intro t ht
    rw [finishStep_next] at ht
    obtain ⟨huser,hlast⟩ := actionSelectNextThread_next hcurr₁ ht
    refine ⟨huser,fun a ha => ?_⟩
    rw [MemFrame.isRmwr hframe]
    exact hlast a ((hframe.getLastAction t).symm.trans ha)
  · intro curr' secondPartOfRmw node queue hphase
    rcases finishStep_phase params e curr with h | h <;> simp [h] at hphase

theorem Change.valid (h : Change params c c') (hv : c.Valid) : c'.Valid := by
  cases h with
  | constructMutex i address parent hphase hneeds hparent =>
    refine hv.of_exec (hv.exec.constructMutex _ _ rfl) (fun _ => rfl) (fun _ => rfl) ?_
    simp [hphase]
  | reportBug hphase hdone => exact hv.frame c.exec.assertBug_frame
  | act i type order location value e hphase hneeds htyped hfollows he =>
    have hexec := hv.exec.switchFromMaster hneeds htyped hfollows he
    obtain ⟨_,rfl⟩ := switchFromMaster_spec he
    exact hv.of_exec hexec (fun _ => rfl) (fun _ => rfl) (by simp)
  | skip i hphase hneeds hi => exact hv.of_exec hv.exec (fun _ => rfl) (fun _ => rfl) (by simp)
  | sleepDisabled i e hphase hneeds hi he =>
    have hslept := sleepDisabled_slept he
    have hrmwr := MemFrame.isRmwr hslept.frame
    refine hv.of_exec (hv.exec.slept_all hslept) hslept.frame.getLastAction hrmwr ?_
    intro curr secondPartOfRmw node queue
    split <;> simp
  | detect i deadlock hphase hdeadlock =>
    have hframe : MemFrame c.exec (if deadlock then c.exec.assertBug else c.exec) := by
      split
      · exact c.exec.assertBug_frame
      · exact .refl _
    exact hv.of_exec (hv.exec.frame hframe) hframe.getLastAction (MemFrame.isRmwr hframe) (by simp)
  | work curr secondPartOfRmw node item queue items e hphase hasserted he =>
    obtain ⟨hcurr,hnext,hqueue⟩ := hv.curr _ _ _ _ hphase
    have hitems := processWork_items he
    obtain ⟨hexec,hcurr'⟩ : e.Valid ∧ e.ValidCurr curr := by
      rcases processWork_cases he with ⟨_,heffect⟩ | ⟨_,hsteps⟩
      · exact ⟨heffect.valid hv.exec hcurr,heffect.validCurr hv.exec hcurr⟩
      · have hframe := MemSteps.frame hsteps
        exact ⟨hv.exec.frame hframe,ValidCurr.frame hcurr hframe⟩
    refine ⟨hexec,fun t ht => ?_,fun _ _ _ _ hwork => ?_⟩
    · cases hnext.symm.trans ht
    · cases hwork
      refine ⟨hcurr',hnext,.inr ?_⟩
      rcases hqueue with hq | hq
      · obtain ⟨rfl,rfl⟩ := List.cons.inj hq
        exact hitems
      · simp only [List.mem_cons,not_or] at hq
        simp [hq.2,hitems]
  | finish curr secondPartOfRmw node queue hphase hdone =>
    exact Valid.finishStep hv.exec (hv.curr _ _ _ _ hphase).1
  | takeStep t newlyExplored node e e' act curr hphase hnext hpending hbegin =>
    obtain ⟨th,hth,hact,_,rfl,_⟩ := takePending_spec hpending
    have hp := hv.exec.pending t th act hth hact
    have hthread : act.tid < c.exec.threads.length :=
      hp.tid ▸ (List.getElem?_eq_some_iff.mp hth).1
    have hlen : (c.exec.modifyThread t fun th => { th with pending := none }).threads.length =
        c.exec.threads.length := by simp [modifyThread]
    have hbegun := beginAction_begun hbegin (hthread.trans_eq hlen.symm)
    have hidle : (c.exec.modifyThread t fun th => { th with pending := none }).pendingOf act.tid =
        none := by
      rw [hp.tid]
      simp [pendingOf,modifyThread,hth]
    obtain ⟨hexec,hcurr,_⟩ := hbegun.valid (hv.exec.take t) hidle (hp.tid ▸ hp.user)
      (hthread.trans_eq hlen.symm) (fun hrmw a ha => hp.rmwr hrmw a (hp.tid ▸ ha))
    refine ⟨hexec,by simp,fun _ _ _ _ hwork => ?_⟩
    cases hwork
    exact ⟨hcurr,rfl,.inl rfl⟩

theorem Reachable.valid (h : Reachable params c) : c.Valid :=
  reachable_induction valid_init (fun _ _ hv hchange => hchange.valid hv) h

end Config
end CdsChecker
