import CdsChecker.OrderSteps

/-! The elementary changes that reads, writes, fences and release sequences make to an execution.
An invariant of these changes is an invariant of all functions of the work queue that are not about
threads or mutexes. -/
namespace CdsChecker
namespace Execution

open Relation

inductive MemStep (curr : ActionId) (e : Execution) : Execution → Prop
  | synchronize (first second : ActionId) : MemStep curr e (e.synchronize first second).1
  | order (g : CycleGraph) : MemStep curr e { e with moGraph := g }
  | call (g : CycleGraph) {act : ActionId} {x : GraphObj} {edges : List MoEdge}
      (hedges : e.Scanned act x edges) :
      MemStep curr e { e with moGraph := g,moCalls := e.moCall act x edges :: e.moCalls }
  | flags (failed hard tooMany noValid badSc asserted : Bool) (bugs : ℕ) :
      MemStep curr e { e with
        failedPromise := failed
        hardFailedPromise := hard
        tooManyReads := tooMany
        noValidReads := noValid
        badScRead := badSc
        asserted := asserted
        bugs := bugs }
  | sequences (l : List ReleaseSeq) : MemStep curr e { e with pendingRelSeqs := l }
  | eliminate (p : PromiseId) (t : ThreadId) : MemStep curr e (e.eliminateThread p t).1
  | readFrom (act rf : ActionId) (h : (e.acts rf).isWrite = true) :
      MemStep curr e (e.modifyAct act fun a => a.setReadFrom rf)
  | readFromPromise (p : PromiseId) : MemStep curr e
      (e.modifyAct curr fun a => a.setReadFromPromise p)
  | addReader (p : PromiseId) :
      MemStep curr e (e.modifyPromise p fun q => (q.addReader curr (e.acts curr).tid).1)
  | newPromise (fv : FutureValue) :
      MemStep curr e { e with
        proms := Function.update e.proms e.numProms (Promise.create curr (e.acts curr).tid fv)
        numProms := e.numProms + 1
        promises := e.promises ++ [e.numProms] }
  | keepPromise (i : ℕ) : MemStep curr e { e with promises := e.promises.eraseIdx i }

abbrev MemSteps (curr : ActionId) : Execution → Execution → Prop := ReflTransGen (MemStep curr)

variable {curr : ActionId} {e e' : Execution}

theorem OrderStep.memSteps (h : OrderStep e e') : MemSteps curr e e' := by
  cases h with
  | synchronize first second => exact .single (.synchronize first second)
  | insertEdges hedges h =>
    obtain ⟨⟨g,added⟩,_,h⟩ := bind_eq_ok.mp h
    obtain ⟨rfl,_⟩ : _ = e' ∧ _ := by simpa using h
    exact .single (.call g hedges)
  | startChanges h =>
    obtain ⟨g,_,h⟩ := bind_eq_ok.mp h
    obtain rfl : _ = e' := by simpa using h
    exact .single (.order g)
  | commitChanges => exact .single (.order _)
  | tryRead h =>
    obtain ⟨e₁,h₁,h⟩ := bind_eq_ok.mp h
    obtain ⟨⟨e₂,_⟩,h₂,h⟩ := bind_eq_ok.mp h
    obtain ⟨edges,hedges,h₂⟩ := bind_eq_ok.mp h₂
    obtain ⟨⟨g,_⟩,_,h₂⟩ := bind_eq_ok.mp h₂
    obtain ⟨g₁,_,h₁⟩ := bind_eq_ok.mp h₁
    obtain rfl : _ = e₁ := by simpa using h₁
    obtain ⟨rfl,_⟩ : _ = e₂ ∧ _ := by simpa using h₂
    obtain ⟨rfl,_⟩ : _ = e' ∧ _ := by simpa using h
    exact .head (.order g₁) (.head (.call g (.inl hedges)) (.single (.order _)))
  | addEdge h => exact .single (.order _)
  | sequences l => exact .single (.sequences l)
  | eliminate p t => exact .single (.eliminate p t)
  | failPromise => exact .single (.flags true _ _ _ _ _ _)
  | hardFailPromise => exact .single (.flags _ true _ _ _ _ _)
  | markStale => exact .single (.flags _ _ true _ _ _ _)
  | noValidReads => exact .single (.flags _ _ _ true _ true _)
  | badScRead => exact .single (.flags _ _ _ _ true _ _)

theorem OrderSteps.memSteps (h : OrderSteps e e') : MemSteps curr e e' := by
  induction h with
  | refl => exact .refl
  | tail _ hstep ih => exact ih.trans hstep.memSteps

/-! ### The modification order -/

theorem rModificationOrder_steps {act : ActionId} {rf : GraphObj} {b : Bool}
    (h : e.rModificationOrder act rf = .ok (e',b)) : MemSteps curr e e' :=
  OrderSteps.memSteps (rModificationOrder_order h)

theorem wModificationOrder_steps {act : ActionId} {b : Bool}
    (h : e.wModificationOrder act = .ok (e',b)) : MemSteps curr e e' :=
  OrderSteps.memSteps (wModificationOrder_order h)

theorem startChanges_steps (h : e.startChanges = .ok e') : MemSteps curr e e' :=
  OrderSteps.memSteps (startChanges_order h)

theorem commitChanges_steps : MemSteps curr e e.commitChanges :=
  OrderSteps.memSteps commitChanges_order

theorem buildMayReadFrom_steps {act : ActionId} {past : List ActionId} {promises : List PromiseId}
    (h : e.buildMayReadFrom act = .ok (e',past,promises)) : MemSteps curr e e' :=
  OrderSteps.memSteps (buildMayReadFrom_order h)

/-! ### Promises -/

theorem moCheckPromises_steps {act : ActionId} {b : Bool}
    (h : e.moCheckPromises act b = .ok e') : MemSteps curr e e' :=
  OrderSteps.memSteps (moCheckPromises_order h)

/-! ### Release sequences -/

theorem getReleaseSeqHeads_steps {acquire read : ActionId} {heads : List ActionId}
    (h : e.getReleaseSeqHeads acquire read = .ok (e',heads)) : MemSteps curr e e' :=
  OrderSteps.memSteps (getReleaseSeqHeads_order h)

theorem synchronizeAll_steps (second : ActionId) (l : List ActionId) :
    MemSteps curr e (e.synchronizeAll second l).1 :=
  OrderSteps.memSteps (synchronizeAll_order second l)

theorem propagateClockvector_steps {acquire : ActionId} {items : List WorkItem}
    (h : e.propagateClockvector acquire = .ok (e',items)) : MemSteps curr e e' :=
  OrderSteps.memSteps (propagateClockvector_order h)

theorem resolveReleaseSequences_steps {location : Option Location} {items : List WorkItem}
    (h : e.resolveReleaseSequences location = .ok (e',items)) : MemSteps curr e e' :=
  OrderSteps.memSteps (resolveReleaseSequences_order h)

/-! ### Reads and writes -/

theorem readFrom_steps {act rf : ActionId} {b : Bool} (h : e.readFrom act rf = .ok (e',b)) :
    MemSteps curr e e' := by
  obtain ⟨_,hrf,h⟩ := bind_eq_ok.mp h
  have hset : MemSteps curr e _ := .single (.readFrom act rf (assert_eq_ok.mp hrf))
  dsimp only at h
  split at h
  · obtain ⟨⟨e₁,heads⟩,h₁,h⟩ := bind_eq_ok.mp h
    obtain rfl : _ = e' := congrArg Prod.fst (Except.ok.inj h)
    exact (hset.trans (getReleaseSeqHeads_steps h₁)).trans (synchronizeAll_steps act heads)
  · obtain ⟨rfl,_⟩ : _ = e' ∧ _ := by simpa using h
    exact hset

theorem readersReadFrom_steps {write : ActionId} {l : List ActionId} {items : List WorkItem}
    (h : readersReadFrom write l e = .ok (e',items)) : MemSteps curr e e' := by
  induction l generalizing e items with
  | nil =>
    obtain ⟨rfl,_⟩ : e = e' ∧ _ := by simpa [readersReadFrom] using h
    exact .refl
  | cons read reads ih =>
    obtain ⟨⟨e₁,updated⟩,h₁,h⟩ := bind_eq_ok.mp h
    obtain ⟨⟨e₂,_⟩,h₂,h⟩ := ite_bind_eq_ok.mp h
    obtain ⟨⟨e₃,_⟩,h₃,h⟩ := bind_eq_ok.mp h
    obtain ⟨rfl,_⟩ : e₃ = e' ∧ _ := by simpa using h
    have hpropagate : MemSteps curr e₁ e₂ := by
      split at h₂
      · exact propagateClockvector_steps h₂
      · obtain ⟨rfl,_⟩ : e₁ = e₂ ∧ _ := by simpa using h₂
        exact .refl
    exact ((readFrom_steps h₁).trans hpropagate).trans (ih h₃)

theorem moCheckReads_steps {l : List ActionId} (h : moCheckReads l e = .ok e') :
    MemSteps curr e e' :=
  OrderSteps.memSteps (moCheckReads_order h)

theorem resolvePromise_steps {write : ActionId} {p : PromiseId} {items : List WorkItem}
    (h : e.resolvePromise write p = .ok (e',items)) : MemSteps curr e e' := by
  obtain ⟨⟨e₁,items₁⟩,h₁,h⟩ := bind_eq_ok.mp h
  obtain ⟨_,_,h⟩ := bind_eq_ok.mp h
  obtain ⟨⟨g,resolved⟩,_,h⟩ := bind_eq_ok.mp h
  obtain ⟨e₂,h₂,h⟩ := bind_eq_ok.mp h
  obtain ⟨rfl,_⟩ : e₂ = e' ∧ _ := by simpa using h
  have hmerge : MemSteps curr e₁ { e₁ with
      moGraph := g,hardFailedPromise := e₁.hardFailedPromise || !resolved } :=
    .tail (.single (.order g)) (.flags _ (e₁.hardFailedPromise || !resolved) _ _ _ _ _)
  exact ((readersReadFrom_steps h₁).trans hmerge).trans (moCheckReads_steps h₂)

theorem markStale_steps (stale : Bool) : MemSteps curr e (e.markStale stale) :=
  OrderSteps.memSteps (markStale_order stale)

theorem processRead_steps {node : Choices} {b : Bool}
    (h : e.processRead curr node = .ok (e',b)) : MemSteps curr e e' := by
  unfold processRead at h
  split at h
  · obtain ⟨e₁,h₁,h⟩ := bind_eq_ok.mp h
    obtain ⟨_,_,h⟩ := bind_eq_ok.mp h
    obtain ⟨⟨e₂,_⟩,h₂,h⟩ := bind_eq_ok.mp h
    obtain ⟨⟨e₃,_⟩,h₃,h⟩ := bind_eq_ok.mp h
    obtain ⟨e₄,h₄,h⟩ := bind_eq_ok.mp h
    obtain ⟨rfl,_⟩ : e₄ = e' ∧ _ := by simpa using h
    exact (((((startChanges_steps h₁).trans (markStale_steps _)).trans
      (rModificationOrder_steps h₂)).trans (readFrom_steps h₃)).trans commitChanges_steps).trans
      (moCheckPromises_steps h₄)
  · rename_i p _
    obtain ⟨e₁,h₁,h⟩ := bind_eq_ok.mp h
    obtain ⟨⟨e₂,_⟩,h₂,h⟩ := bind_eq_ok.mp h
    obtain ⟨rfl,_⟩ : _ = e' ∧ _ := by simpa using h
    have hadd : MemSteps curr e _ := .single (.addReader p)
    have hflag : MemSteps curr (e.modifyPromise p fun q => (q.addReader curr (e.acts curr).tid).1)
        (if ((e.proms p).addReader curr (e.acts curr).tid).2 = true then
          { e.modifyPromise p fun q => (q.addReader curr (e.acts curr).tid).1 with
            failedPromise := true }
        else e.modifyPromise p fun q => (q.addReader curr (e.acts curr).tid).1) := by
      split
      · exact .single (.flags true _ _ _ _ _ _)
      · exact .refl
    have hset := (hadd.trans hflag).tail (.readFromPromise p)
    exact (((hset.trans (startChanges_steps h₁)).trans (markStale_steps _)).trans
      (rModificationOrder_steps h₂)).trans commitChanges_steps
  · rename_i fv _
    obtain ⟨e₁,h₁,h⟩ := bind_eq_ok.mp h
    obtain ⟨⟨e₂,_⟩,h₂,h⟩ := bind_eq_ok.mp h
    obtain ⟨rfl,_⟩ : _ = e' ∧ _ := by simpa using h
    have hnew : MemSteps curr e _ := .tail (.single (.newPromise fv)) (.readFromPromise e.numProms)
    exact ((hnew.trans (startChanges_steps h₁)).trans (rModificationOrder_steps h₂)).trans
      commitChanges_steps

theorem keepPromise_steps {index : Option ℕ} {b : Bool} {items : List WorkItem}
    (h : e.keepPromise curr index = .ok (e',b,items)) : MemSteps curr e e' := by
  cases index with
  | none =>
    obtain ⟨rfl,_⟩ : e = e' ∧ _ := by simpa [keepPromise] using h
    exact .refl
  | some i =>
    cases hp : e.promises[i]? with
    | none =>
      obtain ⟨rfl,_⟩ : e = e' ∧ _ := by simpa [keepPromise,hp] using h
      exact .refl
    | some p =>
      simp only [keepPromise,hp] at h
      obtain ⟨⟨e₁,_⟩,h₁,h⟩ := bind_eq_ok.mp h
      obtain ⟨rfl,_⟩ : e₁ = e' ∧ _ := by simpa using h
      exact .head (.keepPromise i) (resolvePromise_steps h₁)

theorem processWrite_steps {node : Choices} {b : Bool} {items : List WorkItem}
    (h : e.processWrite curr node = .ok (e',b,items)) : MemSteps curr e e' := by
  obtain ⟨⟨e₁,_⟩,h₁,h⟩ := bind_eq_ok.mp h
  obtain ⟨⟨e₂,_,_⟩,h₂,h⟩ := bind_eq_ok.mp h
  obtain ⟨e₃,h₃,h⟩ := bind_eq_ok.mp h
  obtain ⟨rfl,_⟩ : e₃ = e' ∧ _ := by simpa using h
  exact (((wModificationOrder_steps h₁).trans (keepPromise_steps h₂)).trans
    commitChanges_steps).trans (moCheckPromises_steps h₃)

theorem processFence_steps {act : ActionId} {b : Bool} (h : e.processFence act = .ok (e',b)) :
    MemSteps curr e e' :=
  OrderSteps.memSteps (processFence_order h)

/-! ### The other work of the queue -/

theorem processRelseqFixup_steps {write : Option ActionId} {items : List WorkItem}
    (h : e.processRelseqFixup write = .ok (e',items)) : MemSteps curr e e' :=
  OrderSteps.memSteps (processRelseqFixup_order h)

theorem checkMoEdges_steps {act : ActionId} {items : List WorkItem}
    (h : e.checkMoEdges act = .ok (e',items)) : MemSteps curr e e' :=
  OrderSteps.memSteps (checkMoEdges_order h)
end Execution
end CdsChecker
