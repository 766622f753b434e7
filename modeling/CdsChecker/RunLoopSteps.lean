import CdsChecker.NewActions

/-! What the small steps of the run loop leave: a thread that hands over its next action, the
enabled check, and the choice of a thread. -/
namespace CdsChecker

theorem modify_modify {α : Type} (l : List α) (i : ℕ) (f g : α → α) :
    (l.modify i f).modify i g = l.modify i fun x => g (f x) := by
  apply List.ext_getElem?
  intro j
  simp only [List.getElem?_modify]
  cases l[j]? with
  | none => rfl
  | some x => by_cases hij : i = j <;> simp [hij]

theorem getElem?_modify_eq_some {α : Type} {l : List α} {f : α → α} {i j : ℕ} {y : α} :
    (l.modify i f)[j]? = some y ↔ ∃ x, l[j]? = some x ∧ y = if i = j then f x else x := by
  rw [List.getElem?_modify]
  cases l[j]? with
  | none => simp
  | some x => simp [eq_comm]

def Thread.withState (th : Thread) (s : ThreadState) : Thread := { th with state := s }

namespace Execution

/-! ### Small steps of the run loop -/

theorem switchFromMaster_spec {e e' : Execution} {act : ModelAction}
    (h : e.switchFromMaster act = .ok e') :
    (∃ th, e.threads[act.tid]? = some th ∧ th.state ≠ .completed) ∧
      e' = e.modifyThread act.tid fun th => { th with state := .ready,pending := some act } := by
  obtain ⟨e₁,hrun,h⟩ := bind_eq_ok.mp h
  obtain ⟨e₂,hready,h⟩ := bind_eq_ok.mp h
  obtain ⟨halive,rfl⟩ := (setState_eq_ok (show ThreadState.running ≠ .completed by decide)).mp hrun
  obtain ⟨_,rfl⟩ := (setState_eq_ok (show ThreadState.ready ≠ .completed by decide)).mp hready
  obtain rfl : _ = e' := Except.ok.inj h
  refine ⟨halive,?_⟩
  simp only [modifyThread,modify_modify]

theorem blockingReaders_frame (blocker waiting : ThreadId) (p : PromiseId) (l : List ActionId)
    (e : Execution) : MemFrame e (blockingReaders blocker waiting p l e).1 := by
  induction l generalizing e with
  | nil => exact .refl e
  | cons reader rest ih =>
    rw [blockingReaders]
    split
    · exact ih e
    · have hframe := e.eliminateThread_frame p waiting
      split
      · rename_i e₁ h
        rw [h] at hframe
        exact (hframe.trans (e₁.setFailed_frame true)).trans (ih _)
      · rename_i e₁ h
        rw [h] at hframe
        exact hframe

theorem blockingPromises_frame (blocker waiting : ThreadId) (ps : List PromiseId)
    (e : Execution) : MemFrame e (blockingPromises blocker waiting ps e) := by
  induction ps generalizing e with
  | nil => exact .refl e
  | cons p ps ih =>
    rw [blockingPromises]
    split
    · exact ih e
    · have hframe := blockingReaders_frame blocker waiting p (e.proms p).readers e
      split
      · rename_i e₁ h
        rw [h] at hframe
        exact hframe
      · rename_i e₁ h
        rw [h] at hframe
        exact hframe.trans (ih e₁)

theorem checkActionEnabled_frame (params : ExecutionParams) (e : Execution) (act : ModelAction) :
    MemFrame e (e.checkActionEnabled params act).1 := by
  rw [checkActionEnabled]
  split
  · exact .refl e
  · split
    · split
      · exact .refl e
      · exact blockingPromises_frame _ _ _ e
    · exact .refl e

/-- Whether a lock would succeed, or a join would return. -/
theorem checkActionEnabled_snd (params : ExecutionParams) (e : Execution) (act : ModelAction) :
    (e.checkActionEnabled params act).2 =
      if act.isLock then (e.mutexes act.location).locked.isNone
      else (act.getThreadOperand.all e.isComplete &&
        (act.getThreadOperand.isSome || !(params.yieldblock && act.isYield))) := by
  rw [checkActionEnabled]
  split
  · rfl
  · cases act.getThreadOperand with
    | none => simp
    | some u => by_cases hu : e.isComplete u = true <;> simp [hu]

theorem checkActionEnabled_true {params : ExecutionParams} {e : Execution} {act : ModelAction}
    (h : (e.checkActionEnabled params act).2 = true) :
    (e.checkActionEnabled params act).1 = e := by
  rw [checkActionEnabled] at h ⊢
  split
  · rfl
  · rename_i hlock
    rw [if_neg hlock] at h
    cases hop : act.getThreadOperand with
    | none => rfl
    | some u =>
      simp only [hop] at h ⊢
      split
      · rfl
      · rename_i hu
        rw [if_neg hu] at h
        cases h

theorem takePending_spec {params : ExecutionParams} {e e' : Execution} {t : ThreadId}
    {act : ModelAction} (h : e.takePending params t = some (e',act)) :
    ∃ th, e.threads[t]? = some th ∧ th.pending = some act ∧ th.state = .ready ∧
      e' = (e.modifyThread t fun th => { th with pending := none }) ∧
      (e'.checkActionEnabled params act).2 = true := by
  obtain ⟨th,hth,h⟩ := Option.bind_eq_some_iff.mp h
  obtain ⟨act',hpending,h⟩ := Option.bind_eq_some_iff.mp h
  obtain ⟨_,hready,h⟩ := Option.bind_eq_some_iff.mp h
  obtain ⟨_,henabled,h⟩ := Option.bind_eq_some_iff.mp h
  obtain ⟨he,rfl⟩ := Prod.mk.inj (Option.some.inj h)
  have henabled := guard_eq_some.mp henabled
  have hsame := checkActionEnabled_true henabled
  have he' := hsame.symm.trans he
  rw [he'] at henabled
  exact ⟨th,hth,hpending,by simpa using guard_eq_some.mp hready,he'.symm,henabled⟩

/-- What the enabled check leaves: the threads it puts to sleep are disabled and blocked. -/
structure Slept (params : ExecutionParams) (ts : List ThreadId) (e e' : Execution) : Prop where
  frame : MemFrame { e with threads := e'.threads,enabled := e'.enabled } e'
  enabled : ∀ t, e'.enabled t = true ↔ e.enabled t = true ∧ (t ∈ ts → ∀ act,
    e.threads[t]?.bind Thread.pending = some act → (e.checkActionEnabled params act).2 = true)
  threads : ∃ s : ThreadId → ThreadState,
    (∀ t, e'.threads[t]? = e.threads[t]?.map (Thread.withState · (s t))) ∧
      ∀ t th, e.threads[t]? = some th →
        s t = th.state ∨ th.state ≠ .completed ∧ s t = .blocked

theorem Slept.refl (params : ExecutionParams) (e : Execution) : Slept params [] e e where
  frame := .refl e
  enabled := by simp
  threads := by
    refine ⟨fun t => (e.threads[t]?.map Thread.state).getD .ready,fun t => ?_,fun t th hth => ?_⟩
    · cases hth : e.threads[t]? with
      | none => rfl
      | some th => simp [Thread.withState,hth]
    · simp [hth]

theorem isComplete_congr {e e' : Execution} {s : ThreadId → ThreadState}
    (h : ∀ t, e'.threads[t]? = e.threads[t]?.map (Thread.withState · (s t)))
    (hs : ∀ t th, e.threads[t]? = some th → s t = th.state ∨ th.state ≠ .completed ∧
    s t = .blocked) :
    e'.isComplete = e.isComplete := by
  funext t
  unfold isComplete
  rw [h t]
  cases hth : e.threads[t]? with
  | none => rfl
  | some th =>
    rcases hs t th hth with hst | ⟨hne,hst⟩
    · simp [Thread.withState,hst]
    · simp [Thread.withState,hst,hne]

theorem checkActionEnabled_congr {e e' : Execution} (params : ExecutionParams)
    (hm : e'.mutexes = e.mutexes) (hc : e'.isComplete = e.isComplete) (act : ModelAction) :
    (e'.checkActionEnabled params act).2 = (e.checkActionEnabled params act).2 := by
  rw [checkActionEnabled_snd,checkActionEnabled_snd,hm,hc]

theorem Slept.check {params : ExecutionParams} {ts : List ThreadId} {e e' : Execution}
    (h : Slept params ts e e') (act : ModelAction) :
    (e'.checkActionEnabled params act).2 = (e.checkActionEnabled params act).2 := by
  obtain ⟨s,hthreads,hs⟩ := h.threads
  have hm : e'.mutexes = e.mutexes := h.frame.mutexes
  exact checkActionEnabled_congr params hm (isComplete_congr hthreads hs) act

theorem Slept.pending {params : ExecutionParams} {ts : List ThreadId} {e e' : Execution}
    (h : Slept params ts e e') (t : ThreadId) :
    e'.threads[t]?.bind Thread.pending = e.threads[t]?.bind Thread.pending := by
  obtain ⟨s,hthreads,_⟩ := h.threads
  rw [hthreads t]
  cases e.threads[t]? <;> rfl

theorem Slept.trans {params : ExecutionParams} {ts ts' : List ThreadId} {e e' e'' : Execution}
    (h : Slept params ts e e') (h' : Slept params ts' e' e'') :
    Slept params (ts ++ ts') e e'' where
  frame := by
    have hfirst : MemFrame { e with threads := e''.threads,enabled := e''.enabled }
        { e' with threads := e''.threads,enabled := e''.enabled } :=
      { h.frame with threads := rfl,enabled := rfl }
    exact hfirst.trans h'.frame
  enabled t := by
    rw [h'.enabled,h.enabled,h.pending]
    simp only [h.check,List.mem_append]
    constructor
    · rintro ⟨⟨hen,hts⟩,hts'⟩
      exact ⟨hen,fun hmem => hmem.elim hts hts'⟩
    · rintro ⟨hen,hts⟩
      exact ⟨⟨hen,fun hmem => hts (.inl hmem)⟩,fun hmem => hts (.inr hmem)⟩
  threads := by
    obtain ⟨s,hthreads,hs⟩ := h.threads
    obtain ⟨s',hthreads',hs'⟩ := h'.threads
    refine ⟨s',fun t => ?_,fun t th hth => ?_⟩
    · rw [hthreads',hthreads]
      cases e.threads[t]? <;> rfl
    · have hmid : e'.threads[t]? = some (th.withState (s t)) := by rw [hthreads,hth]; rfl
      rcases hs' t _ hmid with hst | ⟨hne,hst⟩
      · rw [hst]
        exact hs t th hth
      · rcases hs t th hth with hst' | ⟨hne',_⟩
        · exact .inr ⟨by rw [← hst']; exact hne,hst⟩
        · exact .inr ⟨hne',hst⟩

/-- A thread that stays as it is, since it is asleep already or its action is enabled. -/
theorem Slept.stay {params : ExecutionParams} {e : Execution} {t : ThreadId}
    (h : e.enabled t = true → ∀ act, e.threads[t]?.bind Thread.pending = some act →
      (e.checkActionEnabled params act).2 = true) : Slept params [t] e e where
  frame := .refl e
  enabled u := by
    constructor
    · intro hu
      refine ⟨hu,fun hmem => ?_⟩
      obtain rfl := List.mem_singleton.mp hmem
      exact h hu
    · exact fun hu => hu.1
  threads := (Slept.refl params e).threads

theorem Slept.sleep {params : ExecutionParams} {e e' : Execution} {t : ThreadId}
    {act : ModelAction} (hact : e.threads[t]?.bind Thread.pending = some act)
    (hcheck : (e.checkActionEnabled params act).2 = false)
    (h : (e.checkActionEnabled params act).1.sleep t = .ok e') : Slept params [t] e e' := by
  have hframe := e.checkActionEnabled_frame params act
  obtain ⟨⟨th,hth,hstate⟩,hslept⟩ := sleep_spec h
  rw [hframe.threads] at hth
  have henabled : e'.enabled = Function.update e.enabled t false := by
    rw [hslept.enabled,slept,hframe.enabled]
  have hthreads : e'.threads = e.threads.modify t fun th => { th with state := .blocked } := by
    rw [hslept.threads,slept,hframe.threads]
  constructor
  · have hmid : MemFrame { e with threads := e'.threads,enabled := e'.enabled }
        ((e.checkActionEnabled params act).1.slept t) :=
      { hframe with threads := hslept.threads.symm,enabled := hslept.enabled.symm }
    exact hmid.trans hslept
  · intro u
    rw [henabled]
    by_cases hu : u = t
    · subst hu
      simp only [Function.update_self,Bool.false_eq_true,false_iff,not_and,Classical.not_forall]
      exact fun _ => ⟨by simp,act,hact,by simp [hcheck]⟩
    · simp [hu]
  · refine ⟨fun u => if u = t then .blocked else (e.threads[u]?.map Thread.state).getD .ready,
      fun u => ?_,fun u thu hthu => ?_⟩
    · rw [hthreads,List.getElem?_modify]
      by_cases hu : u = t
      · subst hu
        rw [hth]
        simp [Thread.withState]
      · cases hthu : e.threads[u]? with
        | none => rfl
        | some thu => simp [hu,Ne.symm hu,Thread.withState,hthu]
    · by_cases hu : u = t
      · subst hu
        obtain rfl := Option.some.inj (hth.symm.trans hthu)
        exact .inr ⟨hstate,by simp⟩
      · exact .inl (by simp [hu,hthu])

theorem sleepDisabled_slept {params : ExecutionParams} {ts : List ThreadId} {e e' : Execution}
    (h : sleepDisabled params ts e = .ok e') : Slept params ts e e' := by
  induction ts generalizing e with
  | nil =>
    obtain rfl : e = e' := by simpa [sleepDisabled] using h
    exact .refl params e
  | cons t ts ih =>
    rw [sleepDisabled] at h
    cases hact : e.threads[t]?.bind Thread.pending with
    | none =>
      simp only [hact,pure_bind] at h
      exact (Slept.stay (by simp [hact])).trans (ih h)
    | some act =>
      simp only [hact] at h
      by_cases hen : e.isEnabled t = true
      · rw [if_pos hen] at h
        cases hcheck : e.checkActionEnabled params act with
        | mk e₁ enabled =>
          cases enabled with
          | true =>
            have hsame := checkActionEnabled_true (congrArg Prod.snd hcheck)
            rw [hcheck] at hsame h
            obtain rfl : e₁ = e := hsame
            simp only [pure_bind] at h
            refine (Slept.stay fun _ act' hact' => ?_).trans (ih h)
            obtain rfl := Option.some.inj (hact.symm.trans hact')
            rw [hcheck]
          | false =>
            rw [hcheck] at h
            obtain ⟨e₂,hsleep,h⟩ := bind_eq_ok.mp h
            exact (Slept.sleep hact (by rw [hcheck]) (by rw [hcheck]; exact hsleep)).trans (ih h)
      · rw [if_neg hen] at h
        simp only [pure_bind] at h
        exact (Slept.stay fun hen' => absurd hen' hen).trans (ih h)

theorem removeStopped_frame (e : Execution) (t : ThreadId) :
    MemFrame { e with enabled := (e.removeStopped t).enabled } (e.removeStopped t) := by
  unfold removeStopped
  split
  · have hframe := e.setEnabled_false_frame t
    exact { hframe with enabled := rfl }
  · exact .refl e

end Execution

namespace Config

open Execution

/-- What the end of a step leaves. -/
theorem finishStep_frame (params : ExecutionParams) (e : Execution) (curr : ActionId) :
    MemFrame (e.removeStopped (e.acts curr).tid) (finishStep params e curr).exec := by
  unfold finishStep
  dsimp only
  split
  · exact .refl _
  · split
    · exact ⟨rfl,rfl,rfl,rfl,rfl,rfl,rfl,rfl,rfl,rfl,rfl,fun _ => .refl _⟩
    · split <;> exact .refl _

theorem finishStep_phase (params : ExecutionParams) (e : Execution) (curr : ActionId) :
    (finishStep params e curr).phase = .ended ∨ (finishStep params e curr).phase = .stash 0 := by
  unfold finishStep
  dsimp only
  split
  · exact .inl rfl
  · split
    · exact .inl rfl
    · split
      · exact .inl rfl
      · exact .inr rfl

end Config
end CdsChecker
