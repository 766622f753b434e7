import CdsChecker.CurrSteps
import CdsChecker.Library.VectorClocks

/-! The parts of a step that leave the clocks of all actions alone. -/
namespace CdsChecker

/-- The same action, up to what it reads and knows. -/
structure ModelAction.Alike (a b : ModelAction) : Prop where
  type : b.type = a.type
  order : b.order = a.order
  lastFenceRelease : b.lastFenceRelease = a.lastFenceRelease

theorem ModelAction.Alike.refl (a : ModelAction) : a.Alike a := ⟨rfl,rfl,rfl⟩

theorem ModelAction.Alike.trans {a b c : ModelAction} (h : a.Alike b) (h' : b.Alike c) :
    a.Alike c :=
  ⟨h'.type.trans h.type,h'.order.trans h.order,h'.lastFenceRelease.trans h.lastFenceRelease⟩

namespace Execution

open VectorClocks

/-- What the actions know of each other. -/
def clocks (e : Execution) : Clocks ActionId ThreadId where
  tid a := (e.acts a).tid
  seq a := (e.acts a).seqNumber
  know a t := (e.acts a).cv.getClock t

def creationOf (e : Execution) (t : ThreadId) : Option ActionId :=
  e.threads[t]?.bind Thread.creation

/-- The same clocks, and the same pending sequences. -/
structure Quiet (e e' : Execution) : Prop where
  clocks : e'.clocks = e.clocks
  numActs : e'.numActs = e.numActs
  actionTrace : e'.actionTrace = e.actionTrace
  synchronized : e'.synchronized = e.synchronized
  bad : e.badSynchronization = true → e'.badSynchronization = true
  creation : ∀ t, e'.creationOf t = e.creationOf t
  pending : e'.pendingRelSeqs = e.pendingRelSeqs
  alike : ∀ a, (e.acts a).Alike (e'.acts a)

variable {e e' e'' : Execution}

namespace Quiet

theorem refl (e : Execution) : Quiet e e := ⟨rfl,rfl,rfl,rfl,id,fun _ => rfl,rfl,fun _ => .refl _⟩

theorem trans (h : Quiet e e') (h' : Quiet e' e'') : Quiet e e'' where
  clocks := h'.clocks.trans h.clocks
  numActs := h'.numActs.trans h.numActs
  actionTrace := h'.actionTrace.trans h.actionTrace
  synchronized := h'.synchronized.trans h.synchronized
  bad := fun hb => h'.bad (h.bad hb)
  creation t := (h'.creation t).trans (h.creation t)
  pending := h'.pending.trans h.pending
  alike a := (h.alike a).trans (h'.alike a)

/-- An action changes, but not its clock. -/
theorem modifyAct (e : Execution) (a : ActionId) (f : ModelAction → ModelAction)
    (htid : (f (e.acts a)).tid = (e.acts a).tid)
    (hseq : (f (e.acts a)).seqNumber = (e.acts a).seqNumber)
    (hcv : (f (e.acts a)).cv = (e.acts a).cv) (halike : (e.acts a).Alike (f (e.acts a))) :
    Quiet e (e.modifyAct a f) := by
  have hother : ∀ b, (e.acts b).Alike ((e.modifyAct a f).acts b) := by
    intro b
    by_cases hb : b = a
    · subst hb
      simpa [Execution.modifyAct] using halike
    · simpa [Execution.modifyAct,hb] using ModelAction.Alike.refl (e.acts b)
  refine ⟨?_,rfl,rfl,rfl,id,fun _ => rfl,rfl,hother⟩
  have hacts : ∀ b, ((e.modifyAct a f).acts b).tid = (e.acts b).tid ∧
      ((e.modifyAct a f).acts b).seqNumber = (e.acts b).seqNumber ∧
      ((e.modifyAct a f).acts b).cv = (e.acts b).cv := by
    intro b
    by_cases hb : b = a
    · subst hb
      simpa [Execution.modifyAct] using ⟨htid,hseq,hcv⟩
    · simp [Execution.modifyAct,hb]
  unfold Execution.clocks
  simp only [hacts]

theorem setFailed (e : Execution) (b : Bool) : Quiet e { e with failedPromise := b } :=
  ⟨rfl,rfl,rfl,rfl,id,fun _ => rfl,rfl,fun _ => .refl _⟩

theorem eliminateThread (e : Execution) (p : PromiseId) (t : ThreadId) :
    Quiet e (e.eliminateThread p t).1 :=
  ⟨rfl,rfl,rfl,rfl,id,fun _ => rfl,rfl,fun _ => .refl _⟩

end Quiet

/-! ### The modification order -/

theorem insertEdges_quiet {act : ActionId} {x : GraphObj} {edges : List MoEdge}
    {b : Bool} (h : e.insertEdges act x edges = .ok (e',b)) : Quiet e e' := by
  obtain ⟨⟨g,added⟩,-,h⟩ := bind_eq_ok.mp h
  obtain ⟨rfl,-⟩ : _ = e' ∧ _ := by simpa using h
  exact ⟨rfl,rfl,rfl,rfl,id,fun _ => rfl,rfl,fun _ => .refl _⟩

theorem rModificationOrder_quiet {act : ActionId} {rf : GraphObj} {b : Bool}
    (h : e.rModificationOrder act rf = .ok (e',b)) : Quiet e e' := by
  obtain ⟨edges,-,h⟩ := bind_eq_ok.mp h
  exact insertEdges_quiet h

theorem wModificationOrder_quiet {act : ActionId} {b : Bool}
    (h : e.wModificationOrder act = .ok (e',b)) : Quiet e e' := by
  obtain ⟨edges,-,h⟩ := bind_eq_ok.mp h
  exact insertEdges_quiet h

theorem startChanges_quiet (h : e.startChanges = .ok e') : Quiet e e' := by
  obtain ⟨g,-,h⟩ := bind_eq_ok.mp h
  obtain rfl : _ = e' := by simpa using h
  exact ⟨rfl,rfl,rfl,rfl,id,fun _ => rfl,rfl,fun _ => .refl _⟩

theorem commitChanges_quiet (e : Execution) : Quiet e e.commitChanges :=
  ⟨rfl,rfl,rfl,rfl,id,fun _ => rfl,rfl,fun _ => .refl _⟩

theorem tryRead_quiet {act : ActionId} {rf : GraphObj} {b : Bool}
    (h : e.tryRead act rf = .ok (e',b)) : Quiet e e' := by
  obtain ⟨e₁,h₁,h⟩ := bind_eq_ok.mp h
  obtain ⟨⟨e₂,_⟩,h₂,h⟩ := bind_eq_ok.mp h
  obtain ⟨rfl,-⟩ : _ = e' ∧ _ := by simpa using h
  have hrollback : Quiet e₂ e₂.rollbackChanges :=
    ⟨rfl,rfl,rfl,rfl,id,fun _ => rfl,rfl,fun _ => .refl _⟩
  exact ((startChanges_quiet h₁).trans (rModificationOrder_quiet h₂)).trans hrollback

theorem pastReads_quiet {act : ActionId} {lastScWrite : Option ActionId} {l l' : List ActionId}
    (h : pastReads act lastScWrite l e = .ok (e',l')) : Quiet e e' := by
  induction l generalizing e l' with
  | nil =>
    obtain ⟨rfl,-⟩ : e = e' ∧ _ := by simpa [pastReads] using h
    exact .refl e
  | cons a rest ih =>
    rw [pastReads] at h
    split at h
    · exact ih h
    · obtain ⟨⟨e₁,feasible⟩,h₁,h⟩ := ite_bind_eq_ok.mp h
      obtain ⟨⟨e₂,more⟩,h₂,h⟩ := ite_bind_eq_ok.mp h
      obtain ⟨rfl,-⟩ : e₂ = e' ∧ _ := by simpa using h
      have hfirst : Quiet e e₁ := by
        split at h₁
        · exact tryRead_quiet h₁
        · obtain ⟨rfl,-⟩ : e = e₁ ∧ _ := by simpa using h₁
          exact .refl e
      split at h₂
      · obtain ⟨rfl,-⟩ : e₁ = e₂ ∧ _ := by simpa using h₂
        exact hfirst
      · exact hfirst.trans (ih h₂)

theorem pastReadsThreads_quiet {act : ActionId} {lastScWrite : Option ActionId}
    {lists : List (List ActionId)} {l : List ActionId}
    (h : pastReadsThreads act lastScWrite lists e = .ok (e',l)) : Quiet e e' := by
  induction lists generalizing e l with
  | nil =>
    obtain ⟨rfl,-⟩ : e = e' ∧ _ := by simpa [pastReadsThreads] using h
    exact .refl e
  | cons list lists ih =>
    obtain ⟨⟨e₁,reads⟩,h₁,h⟩ := bind_eq_ok.mp h
    obtain ⟨⟨e₂,more⟩,h₂,h⟩ := bind_eq_ok.mp h
    obtain ⟨rfl,-⟩ : e₂ = e' ∧ _ := by simpa using h
    exact (pastReads_quiet h₁).trans (ih h₂)

theorem promiseReads_quiet {act : ActionId} {ps ps' : List PromiseId}
    (h : promiseReads act ps e = .ok (e',ps')) : Quiet e e' := by
  induction ps generalizing e ps' with
  | nil =>
    obtain ⟨rfl,-⟩ : e = e' ∧ _ := by simpa [promiseReads] using h
    exact .refl e
  | cons p ps ih =>
    obtain ⟨⟨e₁,feasible⟩,h₁,h⟩ := ite_bind_eq_ok.mp h
    obtain ⟨⟨e₂,more⟩,h₂,h⟩ := bind_eq_ok.mp h
    obtain ⟨rfl,-⟩ : e₂ = e' ∧ _ := by simpa using h
    have hfirst : Quiet e e₁ := by
      split at h₁
      · exact tryRead_quiet h₁
      · obtain ⟨rfl,-⟩ : e = e₁ ∧ _ := by simpa using h₁
        exact .refl e
    exact hfirst.trans (ih h₂)

theorem buildMayReadFrom_quiet {act : ActionId} {past : List ActionId} {promises : List PromiseId}
    (h : e.buildMayReadFrom act = .ok (e',past,promises)) : Quiet e e' := by
  obtain ⟨_,-,h⟩ := bind_eq_ok.mp h
  obtain ⟨⟨e₁,_⟩,h₁,h⟩ := bind_eq_ok.mp h
  obtain ⟨⟨e₂,_⟩,h₂,h⟩ := bind_eq_ok.mp h
  have hreads : Quiet e e₂ := (pastReadsThreads_quiet h₁).trans (promiseReads_quiet h₂)
  dsimp only at h
  split at h
  · obtain ⟨rfl,-⟩ : _ = e' ∧ _ := by simpa using h
    exact hreads.trans ⟨rfl,rfl,rfl,rfl,id,fun _ => rfl,rfl,fun _ => .refl _⟩
  · obtain ⟨rfl,-⟩ : e₂ = e' ∧ _ := by simpa using h
    exact hreads

/-! ### Promises -/

theorem checkPromise_quiet {write : ActionId} {p : PromiseId} {b : Bool}
    (h : e.checkPromise write p = .ok (e',b)) : Quiet e e' := by
  obtain ⟨⟨found,met⟩,-,h⟩ := bind_eq_ok.mp h
  obtain ⟨rfl,-⟩ : _ = e' ∧ _ := by simpa using h
  exact ⟨rfl,rfl,rfl,rfl,id,fun _ => rfl,rfl,fun _ => .refl _⟩

theorem moCheckPromise_quiet {act write : ActionId} {p : PromiseId} {b : Bool}
    (h : e.moCheckPromise act write p = .ok (e',b)) : Quiet e e' := by
  obtain ⟨⟨e₁,failed⟩,h₁,h⟩ := ite_bind_eq_ok.mp h
  have hfirst : Quiet e e₁ := by
    split at h₁
    · exact checkPromise_quiet h₁
    · obtain ⟨rfl,-⟩ : e = e₁ ∧ _ := by simpa using h₁
      exact .refl e
  dsimp only at h
  split at h
  · obtain ⟨rfl,-⟩ : e₁ = e' ∧ _ := by simpa using h
    exact hfirst
  · split at h
    · exact hfirst.trans (checkPromise_quiet h)
    · obtain ⟨rfl,-⟩ : e₁ = e' ∧ _ := by simpa using h
      exact hfirst

theorem moCheckPromisesLoop_quiet {act write : ActionId} {ps : List PromiseId}
    (h : moCheckPromisesLoop act write ps e = .ok e') : Quiet e e' := by
  induction ps generalizing e with
  | nil =>
    obtain rfl : e = e' := by simpa [moCheckPromisesLoop] using h
    exact .refl e
  | cons p ps ih =>
    rw [moCheckPromisesLoop] at h
    split at h
    · obtain ⟨⟨e₁,failed⟩,h₁,h⟩ := bind_eq_ok.mp h
      have hfirst : Quiet e e₁ := moCheckPromise_quiet h₁
      dsimp only at h
      split at h
      · obtain rfl : _ = e' := by simpa using h
        exact hfirst.trans ⟨rfl,rfl,rfl,rfl,id,fun _ => rfl,rfl,fun _ => .refl _⟩
      · exact hfirst.trans (ih h)
    · exact ih h

theorem moCheckPromises_quiet {act : ActionId} {b : Bool}
    (h : e.moCheckPromises act b = .ok e') : Quiet e e' := by
  unfold moCheckPromises at h
  split at h
  · exact moCheckPromisesLoop_quiet h
  · split at h
    · obtain rfl : e = e' := by simpa using h
      exact .refl e
    · cases h

theorem moCheckReads_quiet {l : List ActionId} (h : moCheckReads l e = .ok e') : Quiet e e' := by
  induction l generalizing e with
  | nil =>
    obtain rfl : e = e' := by simpa [moCheckReads] using h
    exact .refl e
  | cons read reads ih =>
    obtain ⟨e₁,h₁,h⟩ := bind_eq_ok.mp h
    exact (moCheckPromises_quiet h₁).trans (ih h)

theorem checkPromises_quiet (e : Execution) (tid : ThreadId) (oldCv : Option ClockVector)
    (mergeCv : ClockVector) : Quiet e (e.checkPromises tid oldCv mergeCv) := by
  unfold checkPromises
  rw [checkPromisesLoop_rest]
  exact ⟨rfl,rfl,rfl,rfl,id,fun _ => rfl,rfl,fun _ => .refl _⟩

theorem markStale_quiet (e : Execution) (stale : Bool) : Quiet e (e.markStale stale) := by
  unfold markStale
  split
  · exact ⟨rfl,rfl,rfl,rfl,id,fun _ => rfl,rfl,fun _ => .refl _⟩
  · exact .refl e

theorem recheckRead_quiet {act : ActionId} {b : Bool} (h : e.recheckRead act = .ok (e',b)) :
    Quiet e e' := by
  unfold recheckRead at h
  split at h
  · obtain ⟨⟨e₁,_⟩,h₁,h⟩ := bind_eq_ok.mp h
    obtain ⟨rfl,-⟩ : _ = e' ∧ _ := by simpa using h
    have hfirst : Quiet e e₁ := rModificationOrder_quiet h₁
    split
    · exact hfirst.trans ⟨rfl,rfl,rfl,rfl,id,fun _ => rfl,rfl,fun _ => .refl _⟩
    · exact hfirst
  · exact rModificationOrder_quiet h
  · obtain ⟨rfl,-⟩ : e = e' ∧ _ := by simpa using h
    exact .refl e

theorem checkMoEdges_quiet {act : ActionId} {items : List WorkItem}
    (h : e.checkMoEdges act = .ok (e',items)) : Quiet e e' := by
  obtain ⟨⟨e₁,_⟩,h₁,h⟩ := ite_bind_eq_ok.mp h
  obtain ⟨⟨e₂,_⟩,h₂,h⟩ := ite_bind_eq_ok.mp h
  obtain ⟨rfl,-⟩ : _ = e' ∧ _ := by simpa using h
  have hread : Quiet e e₁ := by
    split at h₁
    · exact recheckRead_quiet h₁
    · obtain ⟨rfl,-⟩ : e = e₁ ∧ _ := by simpa using h₁
      exact .refl e
  have hwrite : Quiet e₁ e₂ := by
    split at h₂
    · exact wModificationOrder_quiet h₂
    · obtain ⟨rfl,-⟩ : e₁ = e₂ ∧ _ := by simpa using h₂
      exact .refl e₁
  exact (hread.trans hwrite).trans (commitChanges_quiet e₂)

/-! ### Threads and mutexes -/

theorem assertBug_quiet (e : Execution) : Quiet e e.assertBug := by
  unfold assertBug
  dsimp only
  split <;> exact ⟨rfl,rfl,rfl,rfl,id,fun _ => rfl,rfl,fun _ => .refl _⟩

theorem checkPromisesThreadDisabled_quiet (e : Execution) :
    Quiet e e.checkPromisesThreadDisabled := by
  unfold checkPromisesThreadDisabled
  split
  · exact .setFailed e true
  · exact .refl e

theorem setEnabled_quiet (e : Execution) (t : ThreadId) (status : Bool) :
    Quiet e (e.setEnabled t status) := by
  have hset : Quiet e { e with enabled := Function.update e.enabled t status } :=
    ⟨rfl,rfl,rfl,rfl,id,fun _ => rfl,rfl,fun _ => .refl _⟩
  unfold setEnabled
  dsimp only
  split
  · exact hset
  · exact hset.trans (checkPromisesThreadDisabled_quiet _)

/-- A thread changes, but not its creation. -/
theorem modifyThread_quiet (e : Execution) (t : ThreadId) {f : Thread → Thread}
    (hf : ∀ th, (f th).creation = th.creation) : Quiet e (e.modifyThread t f) := by
  refine ⟨rfl,rfl,rfl,rfl,id,fun u => ?_,rfl,fun _ => .refl _⟩
  unfold creationOf modifyThread
  rw [List.getElem?_modify]
  cases e.threads[u]? with
  | none => rfl
  | some th =>
    by_cases htu : t = u
    · simpa [htu] using hf th
    · simp [htu]

theorem setState_quiet {t : ThreadId} {s : ThreadState} (h : e.setState t s = .ok e') :
    Quiet e e' := by
  obtain ⟨_,-,h⟩ := bind_eq_ok.mp h
  obtain rfl : _ = e' := Except.ok.inj h
  exact modifyThread_quiet e t fun _ => rfl

theorem sleep_quiet {t : ThreadId} (h : e.sleep t = .ok e') : Quiet e e' :=
  (setEnabled_quiet e t false).trans (setState_quiet h)

theorem wake_quiet {t : ThreadId} (h : e.wake t = .ok e') : Quiet e e' := by
  obtain ⟨_,-,h⟩ := bind_eq_ok.mp h
  exact (setEnabled_quiet e t true).trans (setState_quiet h)

theorem wakeWaiting_quiet {test : ModelAction → Bool} {on : ThreadId} {ts : List ThreadId}
    (h : wakeWaiting test on ts e = .ok e') : Quiet e e' := by
  induction ts generalizing e with
  | nil =>
    obtain rfl : e = e' := by simpa [wakeWaiting] using h
    exact .refl e
  | cons t ts ih =>
    rw [wakeWaiting] at h
    have hwake : ∀ {e₁ : Execution}, e.wake t = .ok e₁ → wakeWaiting test on ts e₁ = .ok e' →
        Quiet e e' := fun h₁ h₂ => (wake_quiet h₁).trans (ih h₂)
    split at h
    · split at h
      · obtain ⟨e₁,h₁,h₂⟩ := bind_eq_ok.mp h
        exact hwake h₁ h₂
      · exact ih h
    · exact ih h

theorem wakeAll_quiet {waiters : List ActionId} (h : wakeAll waiters e = .ok e') : Quiet e e' := by
  induction waiters generalizing e with
  | nil =>
    obtain rfl : e = e' := by simpa [wakeAll] using h
    exact .refl e
  | cons waiter waiters ih =>
    obtain ⟨e₁,h₁,h⟩ := bind_eq_ok.mp h
    exact (wake_quiet h₁).trans (ih h)

theorem setWaiters_quiet (e : Execution) (condvar : Location) (waiters : List ActionId) :
    Quiet e (e.setWaiters condvar waiters) :=
  ⟨rfl,rfl,rfl,rfl,id,fun _ => rfl,rfl,fun _ => .refl _⟩

theorem setLocked_quiet (e : Execution) (m : Location) (holder : Option ThreadId) :
    Quiet e (e.setLocked m holder) :=
  ⟨rfl,rfl,rfl,rfl,id,fun _ => rfl,rfl,fun _ => .refl _⟩

theorem releaseLock_quiet {act : ActionId} {m : Location} (h : e.releaseLock act m = .ok e') :
    Quiet e e' := by
  obtain ⟨e₁,h₁,h⟩ := bind_eq_ok.mp h
  obtain rfl : _ = e' := Except.ok.inj h
  exact (wakeWaiting_quiet h₁).trans (setLocked_quiet e₁ m none)

theorem eliminateAll_quiet (tid : ThreadId) (ps : List PromiseId) (e : Execution) :
    Quiet e (eliminateAll tid ps e) := by
  induction ps generalizing e with
  | nil => exact .refl e
  | cons p ps ih =>
    rw [eliminateAll]
    have hfirst := Quiet.eliminateThread e p tid
    split
    · rename_i e₁ h
      rw [h] at hfirst
      exact (hfirst.trans (.setFailed e₁ true)).trans (ih _)
    · rename_i e₁ h
      rw [h] at hfirst
      exact hfirst.trans (ih e₁)

theorem finishThread_quiet {act : ActionId} (h : e.finishThread act = .ok e') : Quiet e e' := by
  obtain ⟨e₁,h₁,h⟩ := bind_eq_ok.mp h
  obtain ⟨_,-,h⟩ := bind_eq_ok.mp h
  obtain rfl : _ = e' := Except.ok.inj h
  have hstate : Quiet e₁
    (e₁.modifyThread (e.acts act).tid fun th => { th with state := .completed }) :=
    modifyThread_quiet e₁ _ fun _ => rfl
  exact ((wakeWaiting_quiet h₁).trans hstate).trans (eliminateAll_quiet _ _ _)

/-! ### The run loop -/

theorem switchFromMaster_quiet {act : ModelAction} (h : e.switchFromMaster act = .ok e') :
    Quiet e e' := by
  obtain ⟨-,rfl⟩ := switchFromMaster_spec h
  exact modifyThread_quiet e _ fun _ => rfl

theorem removeStopped_quiet (e : Execution) (t : ThreadId) : Quiet e (e.removeStopped t) := by
  unfold removeStopped
  split
  · exact setEnabled_quiet e t false
  · exact .refl e

theorem blockingReaders_quiet (blocker waiting : ThreadId) (p : PromiseId) (l : List ActionId)
    (e : Execution) : Quiet e (blockingReaders blocker waiting p l e).1 := by
  induction l generalizing e with
  | nil => exact .refl e
  | cons reader rest ih =>
    rw [blockingReaders]
    split
    · exact ih e
    · have hfirst := Quiet.eliminateThread e p waiting
      split
      · rename_i e₁ h
        rw [h] at hfirst
        exact (hfirst.trans (.setFailed e₁ true)).trans (ih _)
      · rename_i e₁ h
        rw [h] at hfirst
        exact hfirst

theorem blockingPromises_quiet (blocker waiting : ThreadId) (ps : List PromiseId)
    (e : Execution) : Quiet e (blockingPromises blocker waiting ps e) := by
  induction ps generalizing e with
  | nil => exact .refl e
  | cons p ps ih =>
    rw [blockingPromises]
    split
    · exact ih e
    · have hfirst := blockingReaders_quiet blocker waiting p (e.proms p).readers e
      split
      · rename_i e₁ h
        rw [h] at hfirst
        exact hfirst
      · rename_i e₁ h
        rw [h] at hfirst
        exact hfirst.trans (ih e₁)

theorem checkActionEnabled_quiet (params : ExecutionParams) (e : Execution) (act : ModelAction) :
    Quiet e (e.checkActionEnabled params act).1 := by
  unfold checkActionEnabled
  split
  · exact .refl e
  · split
    · split
      · exact .refl e
      · exact blockingPromises_quiet _ _ _ e
    · exact .refl e

theorem sleepDisabled_quiet {params : ExecutionParams} {ts : List ThreadId}
    (h : sleepDisabled params ts e = .ok e') : Quiet e e' := by
  induction ts generalizing e with
  | nil =>
    obtain rfl : e = e' := by simpa [sleepDisabled] using h
    exact .refl e
  | cons t ts ih =>
    rw [sleepDisabled] at h
    split at h
    · rename_i act _
      split at h
      · have hcheck := checkActionEnabled_quiet params e act
        split at h
        · rename_i e₁ henabled
          rw [henabled] at hcheck
          exact hcheck.trans (ih h)
        · rename_i e₁ henabled
          rw [henabled] at hcheck
          obtain ⟨e₂,h₂,h⟩ := bind_eq_ok.mp h
          exact (hcheck.trans (sleep_quiet h₂)).trans (ih h)
      · exact ih h
    · exact ih h

end Execution
end CdsChecker
