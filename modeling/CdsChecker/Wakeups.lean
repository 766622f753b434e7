import CdsChecker.RunSteps
import CdsChecker.MemoryFrame

/-! Which threads an action wakes up. A wakeup enables a thread and makes it ready; nothing else
changes. -/
namespace CdsChecker
namespace Execution

/-- A thread that `wake` accepts. -/
def Wakeable (e : Execution) (t : ThreadId) : Prop :=
  ∃ th, e.threads[t]? = some th ∧ th.modelThread = false ∧ th.state ≠ .completed

/-- Exactly the threads of a set have been woken up. -/
structure Woken (e e' : Execution) (s : Set ThreadId) : Prop where
  rest : e' = { e with enabled := e'.enabled,threads := e'.threads }
  enabled : ∀ t, e'.enabled t = true ↔ e.enabled t = true ∨ t ∈ s
  woken : ∀ t ∈ s, ∃ th, e.threads[t]? = some th ∧ th.modelThread = false ∧
    th.state ≠ .completed ∧ e'.threads[t]? = some { th with state := .ready }
  other : ∀ t ∉ s, e'.threads[t]? = e.threads[t]?
  length : e'.threads.length = e.threads.length

namespace Woken

variable {e e' e'' : Execution} {s s' : Set ThreadId}

theorem empty (e : Execution) : Woken e e ∅ :=
  ⟨rfl,by simp,by simp,by simp,rfl⟩

theorem trans (h : Woken e e' s) (h' : Woken e' e'' s') : Woken e e'' (s ∪ s') where
  rest := by
    have hrest := h'.rest
    rw [h.rest] at hrest
    exact hrest
  enabled t := by simp [h'.enabled,h.enabled,or_assoc]
  woken t ht := by
    by_cases hs : t ∈ s
    · obtain ⟨th,hth,hmodel,hstate,hth'⟩ := h.woken t hs
      refine ⟨th,hth,hmodel,hstate,?_⟩
      by_cases hs' : t ∈ s'
      · obtain ⟨th',hold,_,_,hnew⟩ := h'.woken t hs'
        obtain rfl := Option.some.inj (hth'.symm.trans hold)
        exact hnew
      · exact (h'.other t hs').trans hth'
    · have hs' : t ∈ s' := ht.resolve_left hs
      obtain ⟨th,hth,hmodel,hstate,hth'⟩ := h'.woken t hs'
      exact ⟨th,(h.other t hs).symm.trans hth,hmodel,hstate,hth'⟩
  other t ht := by
    simp only [Set.mem_union,not_or] at ht
    exact (h'.other t ht.2).trans (h.other t ht.1)
  length := h'.length.trans h.length

theorem congr (h : Woken e e' s) (hs : s = s') : Woken e e' s' := hs ▸ h

theorem acts (h : Woken e e' s) : e'.acts = e.acts := by
  have hacts := congrArg Execution.acts h.rest
  exact hacts

theorem mutexes (h : Woken e e' s) : e'.mutexes = e.mutexes := by
  have hmutexes := congrArg Execution.mutexes h.rest
  exact hmutexes

theorem condvarWaitersMap (h : Woken e e' s) : e'.condvarWaitersMap = e.condvarWaitersMap := by
  have hwaiters := congrArg Execution.condvarWaitersMap h.rest
  exact hwaiters

theorem frame (h : Woken e e' s) :
    MemFrame { e with enabled := e'.enabled,threads := e'.threads } e' := by
  rw [← h.rest]
  exact .refl e'

theorem pending (h : Woken e e' s) (t : ThreadId) :
    e'.threads[t]?.bind Thread.pending = e.threads[t]?.bind Thread.pending := by
  by_cases ht : t ∈ s
  · obtain ⟨th,hth,_,_,hth'⟩ := h.woken t ht
    rw [hth,hth']
    rfl
  · rw [h.other t ht]

end Woken

/-! ### One wakeup -/

theorem setState_eq_ok {e e' : Execution} {t : ThreadId} {s : ThreadState} (hs : s ≠ .completed) :
    e.setState t s = .ok e' ↔
      (∃ th, e.threads[t]? = some th ∧ th.state ≠ .completed) ∧
        (e.modifyThread t fun th => { th with state := s }) = e' := by
  have hne : (s == ThreadState.completed) = false := by simpa using hs
  unfold setState
  rw [bind_eq_ok]
  simp only [assert_eq_ok,hne,Bool.false_or,pure_eq_ok]
  cases e.threads[t]? <;> simp

theorem wake_eq_ok {e e' : Execution} {t : ThreadId} :
    e.wake t = .ok e' ↔ e.Wakeable t ∧
      ((e.setEnabled t true).modifyThread t fun th => { th with state := .ready }) = e' := by
  unfold wake
  rw [bind_eq_ok]
  simp only [assert_eq_ok,setState_eq_ok (show ThreadState.ready ≠ .completed by decide),
    Wakeable]
  have hthreads : (e.setEnabled t true).threads = e.threads := rfl
  rw [hthreads]
  cases e.threads[t]? with
  | none => simp
  | some th => simp [and_assoc]

theorem wake_woken {e e' : Execution} {t : ThreadId} (h : e.wake t = .ok e') : Woken e e' {t} := by
  obtain ⟨⟨th,hth,hmodel,hstate⟩,rfl⟩ := wake_eq_ok.mp h
  constructor
  · rfl
  · intro u
    by_cases hu : u = t
    · simp [modifyThread,setEnabled,hu]
    · simp [modifyThread,setEnabled,hu]
  · rintro u rfl
    exact ⟨th,hth,hmodel,hstate,by simp [modifyThread,setEnabled,hth]⟩
  · intro u hu
    have hne : t ≠ u := fun h => hu h.symm
    simp [modifyThread,setEnabled,hne]
  · simp [modifyThread,setEnabled]

/-! ### Several wakeups -/

def wakeThreads : List ThreadId → Execution → Result Execution
  | [],e => .ok e
  | t :: ts,e => do
    let e ← e.wake t
    wakeThreads ts e

theorem wakeThreads_woken {ts : List ThreadId} {e e' : Execution}
    (h : wakeThreads ts e = .ok e') : Woken e e' {t | t ∈ ts} := by
  induction ts generalizing e with
  | nil =>
    obtain rfl : e = e' := by simpa [wakeThreads] using h
    simpa using Woken.empty e
  | cons t ts ih =>
    obtain ⟨e₁,h₁,h⟩ := bind_eq_ok.mp h
    exact ((wake_woken h₁).trans (ih h)).congr (by ext; simp)

/-- A thread that waits for another one, with a pending action of some kind. -/
def waitsWith (e : Execution) (test : ModelAction → Bool) (on t : ThreadId) : Bool :=
  e.threads[t]?.any fun th => e.waitingOn th = some on && th.pending.any test

theorem waitingOn_congr {e e' : Execution} {th th' : Thread} (hm : e'.mutexes = e.mutexes)
    (hp : th'.pending = th.pending) : e'.waitingOn th' = e.waitingOn th := by
  unfold waitingOn
  rw [hm,hp]

theorem Woken.waitsWith {e e' : Execution} {s : Set ThreadId} (h : Woken e e' s)
    (test : ModelAction → Bool) (on t : ThreadId) :
    e'.waitsWith test on t = e.waitsWith test on t := by
  unfold Execution.waitsWith
  by_cases ht : t ∈ s
  · obtain ⟨th,hth,_,_,hth'⟩ := h.woken t ht
    have hw : e'.waitingOn { th with state := .ready } = e.waitingOn th :=
      waitingOn_congr h.mutexes rfl
    simp [hth,hth',hw]
  · have hw : e'.waitingOn = e.waitingOn := funext fun th => waitingOn_congr h.mutexes rfl
    rw [h.other t ht,hw]

theorem wakeWaiting_eq (test : ModelAction → Bool) (on : ThreadId) (ts : List ThreadId)
    (e : Execution) :
    wakeWaiting test on ts e = wakeThreads (ts.filter fun t => e.waitsWith test on t) e := by
  induction ts generalizing e with
  | nil => rfl
  | cons t ts ih =>
    have hstep : wakeWaiting test on (t :: ts) e =
        (if e.waitsWith test on t then e.wake t else pure e) >>= wakeWaiting test on ts := by
      unfold waitsWith
      rw [wakeWaiting]
      cases hth : e.threads[t]? with
      | none => simp
      | some th =>
        by_cases hc : e.waitingOn th = some on ∧ th.pending.any test = true
        · simp [hc]
        · simp [hc]
    rw [hstep]
    by_cases hw : e.waitsWith test on t = true
    · rw [if_pos hw,List.filter_cons_of_pos hw,wakeThreads]
      cases he : e.wake t with
      | error f => rfl
      | ok e₁ =>
        have hsame : e₁.waitsWith test on = e.waitsWith test on :=
          funext fun u => (wake_woken he).waitsWith test on u
        have hih := ih e₁
        rw [hsame] at hih
        exact hih
    · rw [if_neg hw,List.filter_cons_of_neg hw,← ih]
      rfl

theorem wakeAll_eq (ws : List ActionId) (e : Execution) :
    wakeAll ws e = wakeThreads (ws.map fun w => (e.acts w).tid) e := by
  induction ws generalizing e with
  | nil => rfl
  | cons w ws ih =>
    rw [wakeAll,List.map_cons,wakeThreads]
    cases he : e.wake (e.acts w).tid with
    | error f => rfl
    | ok e₁ =>
      have hih := ih e₁
      rw [(wake_woken he).acts] at hih
      exact hih

end Execution
end CdsChecker
