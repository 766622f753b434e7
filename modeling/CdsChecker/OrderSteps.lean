import CdsChecker.CheckCurrentAction
import Mathlib.Logic.Relation

/-! The elementary changes that leave alone what the reads read, which promises are pending and who
waits for them. They may add to the modification order. -/
namespace CdsChecker
namespace Execution

open Relation

/-- The edges of a call of `r_modification_order` or `w_modification_order`. -/
def Scanned (e : Execution) (act : ActionId) (x : GraphObj) (edges : List MoEdge) : Prop :=
  e.readEdges act x = .ok edges ∨ x = .action act ∧ e.writeEdges act = .ok edges

inductive OrderStep (e : Execution) : Execution → Prop
  | synchronize (first second : ActionId) : OrderStep e (e.synchronize first second).1
  | insertEdges {act : ActionId} {x : GraphObj} {edges : List MoEdge} {e' : Execution} {b : Bool}
      (hedges : e.Scanned act x edges) (h : e.insertEdges act x edges = .ok (e',b)) :
      OrderStep e e'
  | startChanges {e' : Execution} (h : e.startChanges = .ok e') : OrderStep e e'
  | commitChanges : OrderStep e e.commitChanges
  | tryRead {act : ActionId} {rf : GraphObj} {e' : Execution} {b : Bool}
      (h : e.tryRead act rf = .ok (e',b)) : OrderStep e e'
  | addEdge {x y : GraphObj} {g : CycleGraph} {b : Bool} (h : e.moGraph.addEdge x y = .ok (g,b)) :
      OrderStep e { e with moGraph := g }
  | sequences (l : List ReleaseSeq) : OrderStep e { e with pendingRelSeqs := l }
  | eliminate (p : PromiseId) (t : ThreadId) : OrderStep e (e.eliminateThread p t).1
  | failPromise : OrderStep e { e with failedPromise := true }
  | hardFailPromise : OrderStep e { e with hardFailedPromise := true }
  | markStale : OrderStep e { e with tooManyReads := true }
  | noValidReads : OrderStep e { e with noValidReads := true }.setAssert
  | badScRead : OrderStep e { e with badScRead := true }

abbrev OrderSteps : Execution → Execution → Prop := ReflTransGen OrderStep

/-- Those that leave the modification order alone too. -/
inductive CalmStep (e : Execution) : Execution → Prop
  | synchronize (first second : ActionId) : CalmStep e (e.synchronize first second).1
  | sequences (l : List ReleaseSeq) : CalmStep e { e with pendingRelSeqs := l }
  | eliminate (p : PromiseId) (t : ThreadId) : CalmStep e (e.eliminateThread p t).1
  | failPromise : CalmStep e { e with failedPromise := true }
  | hardFailPromise : CalmStep e { e with hardFailedPromise := true }
  | markStale : CalmStep e { e with tooManyReads := true }

abbrev CalmSteps : Execution → Execution → Prop := ReflTransGen CalmStep

/-- Those that try the sources of a read. -/
inductive TryStep (e : Execution) : Execution → Prop
  | tryRead {act : ActionId} {rf : GraphObj} {e' : Execution} {b : Bool}
      (h : e.tryRead act rf = .ok (e',b)) : TryStep e e'
  | noValidReads : TryStep e { e with noValidReads := true }.setAssert

abbrev TrySteps : Execution → Execution → Prop := ReflTransGen TryStep

variable {e e' : Execution}

theorem CalmStep.order (h : CalmStep e e') : OrderStep e e' := by
  cases h with
  | synchronize first second => exact .synchronize first second
  | sequences l => exact .sequences l
  | eliminate p t => exact .eliminate p t
  | failPromise => exact .failPromise
  | hardFailPromise => exact .hardFailPromise
  | markStale => exact .markStale

theorem CalmSteps.order (h : CalmSteps e e') : OrderSteps e e' :=
  ReflTransGen.mono (fun _ _ => CalmStep.order) _ _ h

theorem TryStep.order (h : TryStep e e') : OrderStep e e' := by
  cases h with
  | tryRead h => exact .tryRead h
  | noValidReads => exact .noValidReads

theorem TrySteps.order (h : TrySteps e e') : OrderSteps e e' :=
  ReflTransGen.mono (fun _ _ => TryStep.order) _ _ h

/-! ### The modification order -/

theorem rModificationOrder_order {act : ActionId} {rf : GraphObj} {b : Bool}
    (h : e.rModificationOrder act rf = .ok (e',b)) : OrderSteps e e' := by
  obtain ⟨edges,hedges,h⟩ := bind_eq_ok.mp h
  exact .single (.insertEdges (.inl hedges) h)

theorem wModificationOrder_order {act : ActionId} {b : Bool}
    (h : e.wModificationOrder act = .ok (e',b)) : OrderSteps e e' := by
  obtain ⟨edges,hedges,h⟩ := bind_eq_ok.mp h
  exact .single (.insertEdges (.inr ⟨rfl,hedges⟩) h)

theorem startChanges_order (h : e.startChanges = .ok e') : OrderSteps e e' :=
  .single (.startChanges h)

theorem commitChanges_order : OrderSteps e e.commitChanges := .single .commitChanges

theorem tryRead_order {act : ActionId} {rf : GraphObj} {b : Bool}
    (h : e.tryRead act rf = .ok (e',b)) : OrderSteps e e' :=
  .single (.tryRead h)

theorem pastReads_tries {act : ActionId} {lastScWrite : Option ActionId} {l l' : List ActionId}
    (h : pastReads act lastScWrite l e = .ok (e',l')) : TrySteps e e' := by
  induction l generalizing e l' with
  | nil =>
    obtain ⟨rfl,_⟩ : e = e' ∧ _ := by simpa [pastReads] using h
    exact .refl
  | cons a rest ih =>
    rw [pastReads] at h
    split at h
    · exact ih h
    · obtain ⟨⟨e₁,feasible⟩,h₁,h⟩ := ite_bind_eq_ok.mp h
      obtain ⟨⟨e₂,more⟩,h₂,h⟩ := ite_bind_eq_ok.mp h
      obtain ⟨rfl,_⟩ : e₂ = e' ∧ _ := by simpa using h
      have hfirst : TrySteps e e₁ := by
        split at h₁
        · exact .single (.tryRead h₁)
        · obtain ⟨rfl,_⟩ : e = e₁ ∧ _ := by simpa using h₁
          exact .refl
      split at h₂
      · obtain ⟨rfl,_⟩ : e₁ = e₂ ∧ _ := by simpa using h₂
        exact hfirst
      · exact hfirst.trans (ih h₂)

theorem pastReadsThreads_tries {act : ActionId} {lastScWrite : Option ActionId}
    {lists : List (List ActionId)} {l : List ActionId}
    (h : pastReadsThreads act lastScWrite lists e = .ok (e',l)) : TrySteps e e' := by
  induction lists generalizing e l with
  | nil =>
    obtain ⟨rfl,_⟩ : e = e' ∧ _ := by simpa [pastReadsThreads] using h
    exact .refl
  | cons list lists ih =>
    obtain ⟨⟨e₁,reads⟩,h₁,h⟩ := bind_eq_ok.mp h
    obtain ⟨⟨e₂,more⟩,h₂,h⟩ := bind_eq_ok.mp h
    obtain ⟨rfl,_⟩ : e₂ = e' ∧ _ := by simpa using h
    exact (pastReads_tries h₁).trans (ih h₂)

theorem promiseReads_tries {act : ActionId} {ps ps' : List PromiseId}
    (h : promiseReads act ps e = .ok (e',ps')) : TrySteps e e' := by
  induction ps generalizing e ps' with
  | nil =>
    obtain ⟨rfl,_⟩ : e = e' ∧ _ := by simpa [promiseReads] using h
    exact .refl
  | cons p ps ih =>
    obtain ⟨⟨e₁,feasible⟩,h₁,h⟩ := ite_bind_eq_ok.mp h
    obtain ⟨⟨e₂,more⟩,h₂,h⟩ := bind_eq_ok.mp h
    obtain ⟨rfl,_⟩ : e₂ = e' ∧ _ := by simpa using h
    have hfirst : TrySteps e e₁ := by
      split at h₁
      · exact .single (.tryRead h₁)
      · obtain ⟨rfl,_⟩ : e = e₁ ∧ _ := by simpa using h₁
        exact .refl
    exact hfirst.trans (ih h₂)

theorem buildMayReadFrom_tries {act : ActionId} {past : List ActionId} {promises : List PromiseId}
    (h : e.buildMayReadFrom act = .ok (e',past,promises)) : TrySteps e e' := by
  obtain ⟨_,_,h⟩ := bind_eq_ok.mp h
  obtain ⟨⟨e₁,_⟩,h₁,h⟩ := bind_eq_ok.mp h
  obtain ⟨⟨e₂,_⟩,h₂,h⟩ := bind_eq_ok.mp h
  have hpast : TrySteps e e₁ := pastReadsThreads_tries h₁
  have hsteps := hpast.trans (promiseReads_tries h₂)
  dsimp only at h
  split at h
  · obtain ⟨rfl,_⟩ : _ = e' ∧ _ := by simpa using h
    exact hsteps.tail .noValidReads
  · obtain ⟨rfl,_⟩ : e₂ = e' ∧ _ := by simpa using h
    exact hsteps

theorem pastReadsThreads_order {act : ActionId} {lastScWrite : Option ActionId}
    {lists : List (List ActionId)} {l : List ActionId}
    (h : pastReadsThreads act lastScWrite lists e = .ok (e',l)) : OrderSteps e e' :=
  (pastReadsThreads_tries h).order

theorem buildMayReadFrom_order {act : ActionId} {past : List ActionId} {promises : List PromiseId}
    (h : e.buildMayReadFrom act = .ok (e',past,promises)) : OrderSteps e e' :=
  (buildMayReadFrom_tries h).order

/-! ### Promises -/

theorem eliminateAction_calm (p : PromiseId) (l : List ActionId) :
    CalmSteps e
      (e.modifyPromise p fun q => l.foldl (fun q a => (q.eliminateThread (e.acts a).tid).1) q) := by
  induction l using List.reverseRecOn with
  | nil =>
    have hsame : e.modifyPromise p (fun q => q) = e := by simp [modifyPromise]
    simpa [hsame] using (ReflTransGen.refl : CalmSteps e e)
  | append_singleton l a ih =>
    refine ih.tail ?_
    have hlast : CalmStep _ _ := .eliminate
      (e := e.modifyPromise p fun q => l.foldl (fun q a => (q.eliminateThread (e.acts a).tid).1) q)
      p (e.acts a).tid
    simpa [eliminateThread,modifyPromise] using hlast

theorem checkPromise_calm {write : ActionId} {p : PromiseId} {b : Bool}
    (h : e.checkPromise write p = .ok (e',b)) : CalmSteps e e' := by
  obtain ⟨⟨found,met⟩,_,h⟩ := bind_eq_ok.mp h
  obtain ⟨rfl,_⟩ : _ = e' ∧ _ := by simpa using h
  exact eliminateAction_calm p met

theorem moCheckPromise_calm {act write : ActionId} {p : PromiseId} {b : Bool}
    (h : e.moCheckPromise act write p = .ok (e',b)) : CalmSteps e e' := by
  obtain ⟨⟨e₁,failed⟩,h₁,h⟩ := ite_bind_eq_ok.mp h
  have hfirst : CalmSteps e e₁ := by
    split at h₁
    · exact checkPromise_calm h₁
    · obtain ⟨rfl,_⟩ : e = e₁ ∧ _ := by simpa using h₁
      exact .refl
  dsimp only at h
  split at h
  · obtain ⟨rfl,_⟩ : e₁ = e' ∧ _ := by simpa using h
    exact hfirst
  · split at h
    · exact hfirst.trans (checkPromise_calm h)
    · obtain ⟨rfl,_⟩ : e₁ = e' ∧ _ := by simpa using h
      exact hfirst

theorem moCheckPromisesLoop_calm {act write : ActionId} {ps : List PromiseId}
    (h : moCheckPromisesLoop act write ps e = .ok e') : CalmSteps e e' := by
  induction ps generalizing e with
  | nil =>
    obtain rfl : e = e' := by simpa [moCheckPromisesLoop] using h
    exact .refl
  | cons p ps ih =>
    rw [moCheckPromisesLoop] at h
    split at h
    · obtain ⟨⟨e₁,failed⟩,h₁,h⟩ := bind_eq_ok.mp h
      have hfirst : CalmSteps e e₁ := moCheckPromise_calm h₁
      dsimp only at h
      split at h
      · obtain rfl : _ = e' := by simpa using h
        exact hfirst.tail .hardFailPromise
      · exact hfirst.trans (ih h)
    · exact ih h

theorem moCheckPromises_calm {act : ActionId} {b : Bool}
    (h : e.moCheckPromises act b = .ok e') : CalmSteps e e' := by
  unfold moCheckPromises at h
  split at h
  · exact moCheckPromisesLoop_calm h
  · split at h
    · obtain rfl : e = e' := by simpa using h
      exact .refl
    · cases h

theorem moCheckPromises_order {act : ActionId} {b : Bool}
    (h : e.moCheckPromises act b = .ok e') : OrderSteps e e' :=
  CalmSteps.order (moCheckPromises_calm h)

theorem checkPromisesLoop_calm (tid : ThreadId) (oldCv : Option ClockVector)
    (mergeCv : ClockVector) (ps : List PromiseId) (e : Execution) :
    CalmSteps e (checkPromisesLoop tid oldCv mergeCv ps e) := by
  induction ps generalizing e with
  | nil => exact .refl
  | cons p ps ih =>
    rw [checkPromisesLoop]
    split
    · have hfirst : CalmStep e (e.eliminateThread p tid).1 := .eliminate p tid
      split
      · rename_i e₁ h
        rw [h] at hfirst
        exact .head hfirst (.single .failPromise)
      · rename_i e₁ h
        rw [h] at hfirst
        exact .head hfirst (ih e₁)
    · exact ih e

theorem eliminateAll_calm (tid : ThreadId) (ps : List PromiseId) (e : Execution) :
    CalmSteps e (eliminateAll tid ps e) := by
  induction ps generalizing e with
  | nil => exact .refl
  | cons p ps ih =>
    rw [eliminateAll]
    have hfirst : CalmStep e (e.eliminateThread p tid).1 := .eliminate p tid
    split
    · rename_i e₁ h
      rw [h] at hfirst
      exact .head hfirst (.head .failPromise (ih _))
    · rename_i e₁ h
      rw [h] at hfirst
      exact .head hfirst (ih e₁)

theorem blockingReaders_calm (blocker waiting : ThreadId) (p : PromiseId) (l : List ActionId)
    (e : Execution) : CalmSteps e (blockingReaders blocker waiting p l e).1 := by
  induction l generalizing e with
  | nil => exact .refl
  | cons reader rest ih =>
    rw [blockingReaders]
    split
    · exact ih e
    · have hfirst : CalmStep e (e.eliminateThread p waiting).1 := .eliminate p waiting
      split
      · rename_i e₁ h
        rw [h] at hfirst
        exact .head hfirst (.head .failPromise (ih _))
      · rename_i e₁ h
        rw [h] at hfirst
        exact .single hfirst

theorem blockingPromises_calm (blocker waiting : ThreadId) (ps : List PromiseId)
    (e : Execution) : CalmSteps e (blockingPromises blocker waiting ps e) := by
  induction ps generalizing e with
  | nil => exact .refl
  | cons p ps ih =>
    rw [blockingPromises]
    split
    · exact ih e
    · have hfirst : CalmSteps e (blockingReaders blocker waiting p (e.proms p).readers e).1 :=
        blockingReaders_calm blocker waiting p _ e
      split
      · rename_i e₁ h
        rw [h] at hfirst
        exact hfirst
      · rename_i e₁ h
        rw [h] at hfirst
        exact hfirst.trans (ih e₁)

theorem checkActionEnabled_calm (e : Execution) (params : ExecutionParams) (act : ModelAction) :
    CalmSteps e (e.checkActionEnabled params act).1 := by
  unfold checkActionEnabled
  split
  · exact .refl
  · split
    · split
      · exact .refl
      · exact blockingPromises_calm _ _ _ e
    · exact .refl

/-! ### Release sequences -/

theorem getReleaseSeqHeads_calm {acquire read : ActionId} {heads : List ActionId}
    (h : e.getReleaseSeqHeads acquire read = .ok (e',heads)) : CalmSteps e e' := by
  obtain ⟨⟨_,complete,_⟩,_,h⟩ := bind_eq_ok.mp h
  dsimp only at h
  split at h
  · obtain ⟨rfl,_⟩ : e = e' ∧ _ := by simpa using h
    exact .refl
  · obtain ⟨rfl,_⟩ : _ = e' ∧ _ := by simpa using h
    exact .single (.sequences _)

theorem getReleaseSeqHeads_order {acquire read : ActionId} {heads : List ActionId}
    (h : e.getReleaseSeqHeads acquire read = .ok (e',heads)) : OrderSteps e e' :=
  CalmSteps.order (getReleaseSeqHeads_calm h)

theorem synchronizeAll_calm (second : ActionId) (l : List ActionId) :
    CalmSteps e (e.synchronizeAll second l).1 := by
  induction l generalizing e with
  | nil => exact .refl
  | cons first rest ih => exact .head (.synchronize first second) ih

theorem synchronizeAll_order (second : ActionId) (l : List ActionId) :
    OrderSteps e (e.synchronizeAll second l).1 :=
  CalmSteps.order (synchronizeAll_calm second l)

theorem synchronizeNew_calm (acquire : ActionId) (l : List ActionId) :
    CalmSteps e (e.synchronizeNew acquire l).1 := by
  induction l generalizing e with
  | nil => exact .refl
  | cons head rest ih =>
    rw [synchronizeNew]
    split
    · exact ih
    · exact .head (.synchronize head acquire) ih

theorem propagateLoop_calm {acquire : ActionId} {l : List ActionId} {items : List WorkItem}
    (h : propagateLoop acquire l e = .ok (e',items)) : CalmSteps e e' := by
  induction l generalizing e items with
  | nil => cases h
  | cons act rest ih =>
    rw [propagateLoop] at h
    split at h
    · obtain ⟨rfl,_⟩ : e = e' ∧ _ := by simpa using h
      exact .refl
    · split at h
      · obtain ⟨⟨e₁,items'⟩,h₁,h⟩ := bind_eq_ok.mp h
        obtain ⟨rfl,_⟩ : e₁ = e' ∧ _ := by simpa using h
        exact .head (.synchronize acquire act) (ih h₁)
      · exact ih h

theorem propagateClockvector_calm {acquire : ActionId} {items : List WorkItem}
    (h : e.propagateClockvector acquire = .ok (e',items)) : CalmSteps e e' := by
  obtain ⟨⟨e₁,items'⟩,h₁,h⟩ := bind_eq_ok.mp h
  obtain ⟨rfl,_⟩ : e₁ = e' ∧ _ := by simpa using h
  exact propagateLoop_calm h₁

theorem propagateClockvector_order {acquire : ActionId} {items : List WorkItem}
    (h : e.propagateClockvector acquire = .ok (e',items)) : OrderSteps e e' :=
  CalmSteps.order (propagateClockvector_calm h)

theorem resolveLoop_calm {location : Option Location} {l kept : List ReleaseSeq} {updated : Bool}
    {items : List WorkItem} (h : resolveLoop location l updated e = .ok (e',kept,items)) :
    CalmSteps e e' := by
  induction l generalizing e updated kept items with
  | nil =>
    obtain ⟨rfl,_⟩ : e = e' ∧ _ := by simpa [resolveLoop] using h
    exact .refl
  | cons pending rest ih =>
    rw [resolveLoop] at h
    split at h
    · obtain ⟨⟨e₁,_,_⟩,h₁,h⟩ := bind_eq_ok.mp h
      obtain ⟨rfl,_⟩ : e₁ = e' ∧ _ := by simpa using h
      exact ih h₁
    · obtain ⟨⟨heads,complete,sequence⟩,_,h⟩ := bind_eq_ok.mp h
      obtain ⟨⟨e₁,items₁⟩,h₁,h⟩ := ite_bind_eq_ok.mp h
      obtain ⟨⟨e₂,_,_⟩,h₂,h⟩ := bind_eq_ok.mp h
      obtain ⟨rfl,_⟩ : e₂ = e' ∧ _ := by simpa using h
      have hnew : CalmSteps e (e.synchronizeNew pending.acquire heads).1 :=
        synchronizeNew_calm pending.acquire heads
      have hpropagate : CalmSteps (e.synchronizeNew pending.acquire heads).1 e₁ := by
        split at h₁
        · exact propagateClockvector_calm h₁
        · obtain ⟨rfl,_⟩ : _ = e₁ ∧ _ := by simpa using h₁
          exact .refl
      exact (hnew.trans hpropagate).trans (ih h₂)

theorem resolveReleaseSequences_calm {location : Option Location} {items : List WorkItem}
    (h : e.resolveReleaseSequences location = .ok (e',items)) : CalmSteps e e' := by
  obtain ⟨⟨e₁,kept,_⟩,h₁,h⟩ := bind_eq_ok.mp h
  obtain ⟨rfl,_⟩ : _ = e' ∧ _ := by simpa using h
  exact (resolveLoop_calm h₁).tail (.sequences kept)

theorem resolveReleaseSequences_order {location : Option Location} {items : List WorkItem}
    (h : e.resolveReleaseSequences location = .ok (e',items)) : OrderSteps e e' :=
  CalmSteps.order (resolveReleaseSequences_calm h)

/-! ### Reads and writes -/

theorem moCheckReads_calm {l : List ActionId} (h : moCheckReads l e = .ok e') :
    CalmSteps e e' := by
  induction l generalizing e with
  | nil =>
    obtain rfl : e = e' := by simpa [moCheckReads] using h
    exact .refl
  | cons read reads ih =>
    obtain ⟨e₁,h₁,h⟩ := bind_eq_ok.mp h
    exact (moCheckPromises_calm h₁).trans (ih h)

theorem moCheckReads_order {l : List ActionId} (h : moCheckReads l e = .ok e') :
    OrderSteps e e' :=
  CalmSteps.order (moCheckReads_calm h)

theorem markStale_calm (stale : Bool) : CalmSteps e (e.markStale stale) := by
  rw [markStale]
  split
  · exact .single .markStale
  · exact .refl

theorem markStale_order (stale : Bool) : OrderSteps e (e.markStale stale) :=
  CalmSteps.order (markStale_calm stale)

theorem fenceLoop_calm {act : ActionId} {l : List ActionId} {b : Bool}
    (h : fenceLoop act l e = .ok (e',b)) : CalmSteps e e' := by
  induction l generalizing e b with
  | nil =>
    obtain ⟨rfl,_⟩ : e = e' ∧ _ := by simpa [fenceLoop] using h
    exact .refl
  | cons a rest ih =>
    have hdone : ∀ {b'}, (Except.ok (e,b') : Result (Execution × Bool)) = .ok (e',b) →
        CalmSteps e e' := by
      intro b' hok
      obtain ⟨rfl,_⟩ : e = e' ∧ _ := by simpa using hok
      exact .refl
    rw [fenceLoop] at h
    split at h
    · exact ih h
    split at h
    · exact ih h
    split at h
    · exact hdone h
    split at h
    · exact hdone h
    split at h
    · exact ih h
    · obtain ⟨⟨e₁,heads⟩,h₁,h⟩ := bind_eq_ok.mp h
      obtain ⟨⟨e₂,_⟩,h₂,h⟩ := bind_eq_ok.mp h
      obtain ⟨rfl,_⟩ : e₂ = e' ∧ _ := by simpa using h
      exact ((getReleaseSeqHeads_calm h₁).trans (synchronizeAll_calm _ _)).trans (ih h₂)

theorem processFence_calm {act : ActionId} {b : Bool} (h : e.processFence act = .ok (e',b)) :
    CalmSteps e e' := by
  unfold processFence at h
  split at h
  · exact fenceLoop_calm h
  · obtain ⟨rfl,_⟩ : e = e' ∧ _ := by simpa using h
    exact .refl

theorem processFence_order {act : ActionId} {b : Bool} (h : e.processFence act = .ok (e',b)) :
    OrderSteps e e' :=
  CalmSteps.order (processFence_calm h)

/-! ### The other work of the queue -/

theorem processRelseqFixup_order {write : Option ActionId} {items : List WorkItem}
    (h : e.processRelseqFixup write = .ok (e',items)) : OrderSteps e e' := by
  unfold processRelseqFixup at h
  split at h
  · cases h
  · rename_i sequence _
    have hdrop : OrderSteps e { e with pendingRelSeqs := e.pendingRelSeqs.dropLast } :=
      .single (.sequences _)
    dsimp only at h
    split at h
    · rename_i rf release _ _
      obtain ⟨_,_,h⟩ := bind_eq_ok.mp h
      have hsync := hdrop.tail (.synchronize release sequence.acquire)
      split at h
      · split at h
        · rename_i hs
          obtain ⟨rfl,_⟩ : _ = e' ∧ _ := by simpa using h
          rwa [hs] at hsync
        · rename_i hs
          rw [hs] at hsync
          exact hsync.trans (propagateClockvector_order h)
      · obtain ⟨⟨g₁,_⟩,h₁,h⟩ := bind_eq_ok.mp h
        obtain ⟨⟨g₂,_⟩,h₂,h⟩ := bind_eq_ok.mp h
        obtain ⟨rfl,_⟩ : _ = e' ∧ _ := by simpa using h
        exact (hdrop.tail (.addEdge h₁)).tail
          (.addEdge (e := { e with
            pendingRelSeqs := e.pendingRelSeqs.dropLast
            moGraph := g₁ }) h₂)
    · cases h

theorem recheckRead_order {act : ActionId} {b : Bool} (h : e.recheckRead act = .ok (e',b)) :
    OrderSteps e e' := by
  unfold recheckRead at h
  split at h
  · obtain ⟨⟨e₁,_⟩,h₁,h⟩ := bind_eq_ok.mp h
    obtain ⟨rfl,_⟩ : _ = e' ∧ _ := by simpa using h
    have hfirst : OrderSteps e e₁ := rModificationOrder_order h₁
    split
    · exact hfirst.tail .badScRead
    · exact hfirst
  · exact rModificationOrder_order h
  · obtain ⟨rfl,_⟩ : e = e' ∧ _ := by simpa using h
    exact .refl

theorem checkMoEdges_order {act : ActionId} {items : List WorkItem}
    (h : e.checkMoEdges act = .ok (e',items)) : OrderSteps e e' := by
  obtain ⟨⟨e₁,_⟩,h₁,h⟩ := ite_bind_eq_ok.mp h
  obtain ⟨⟨e₂,_⟩,h₂,h⟩ := ite_bind_eq_ok.mp h
  obtain ⟨rfl,_⟩ : _ = e' ∧ _ := by simpa using h
  have hread : OrderSteps e e₁ := by
    split at h₁
    · exact recheckRead_order h₁
    · obtain ⟨rfl,_⟩ : e = e₁ ∧ _ := by simpa using h₁
      exact .refl
  have hwrite : OrderSteps e₁ e₂ := by
    split at h₂
    · exact wModificationOrder_order h₂
    · obtain ⟨rfl,_⟩ : e₁ = e₂ ∧ _ := by simpa using h₂
      exact .refl
  exact (hread.trans hwrite).trans commitChanges_order
end Execution
end CdsChecker
