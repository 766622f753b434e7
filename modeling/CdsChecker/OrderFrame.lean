import CdsChecker.PromiseCounts
import CdsChecker.CycleGraphRuns

/-! What the changes of `OrderSteps` and of threads and mutexes keep: what is read, who waits for a
promise, and the order between writes, which only grows. -/
namespace CdsChecker
namespace CycleGraph

/-- At least as much is ordered. -/
structure Extends (g g' : CycleGraph) : Prop where
  wellFormed : g'.WellFormed
  edge : ∀ x y, g.order.edge x y → g'.order.edge x y
  cyclic : g.hasCycles = true → g'.hasCycles = true

variable {g g' g'' : CycleGraph}

theorem Extends.refl (h : g.WellFormed) : g.Extends g := ⟨h,fun _ _ => id,id⟩

theorem Extends.trans (h : g.Extends g') (h' : g'.Extends g'') : g.Extends g'' :=
  ⟨h'.wellFormed,fun x y hxy => h'.edge x y (h.edge x y hxy),fun hc => h'.cyclic (h.cyclic hc)⟩

theorem Extends.reach (h : g.Extends g') {x y : GraphObj}
    (hxy : Relation.ReflTransGen g.order.edge x y) : Relation.ReflTransGen g'.order.edge x y :=
  Relation.ReflTransGen.mono h.edge _ _ hxy

theorem addEdge_extends (h : g.WellFormed) {x y : GraphObj} {b : Bool}
    (hg : g.addEdge x y = .ok (g',b)) : g.Extends g' := by
  obtain ⟨hwf,_,ho⟩ := addEdge_spec h hg
  exact ⟨hwf,fun _ _ => ho.edge_mono,ho.cyclic_mono⟩

theorem addRMWEdge_extends (h : g.WellFormed) {x : GraphObj} {rmw : ActionId}
    (hg : g.addRMWEdge x rmw = .ok g') : g.Extends g' := by
  obtain ⟨⟨hwf,_,ho⟩,_⟩ := addRMWEdge_spec h hg
  exact ⟨hwf,fun _ _ => ho.edge_mono,ho.cyclic_mono⟩

theorem commitChanges_extends (h : g.WellFormed) : g.Extends g.commitChanges :=
  ⟨(Backed.commit h).base,fun x y hxy => by rwa [commitChanges_order],id⟩

theorem startChanges_extends (h : g.WellFormed) (hg : g.startChanges = .ok g') : g.Extends g' := by
  obtain ⟨_,_,_,rfl⟩ := startChanges_eq_ok.mp hg
  exact .refl h

end CycleGraph
namespace Execution

open Relation CycleGraph

variable {e e' e'' : Execution}

theorem addEdges_backed {b g g' : CycleGraph} {edges : List MoEdge} {added : Bool}
    (h : Backed b g) (hg : addEdges g edges = .ok (g',added)) : Backed b g' := by
  induction edges generalizing g added with
  | nil =>
    obtain ⟨rfl,_⟩ : g = g' ∧ _ := by simpa [addEdges] using hg
    exact h
  | cons edge edges ih =>
    obtain ⟨⟨g₁,_⟩,h₁,hg⟩ := bind_eq_ok.mp hg
    obtain ⟨⟨g₂,_⟩,h₂,hg⟩ := bind_eq_ok.mp hg
    obtain ⟨rfl,_⟩ : g₂ = g' ∧ _ := by simpa using hg
    have hedit : g.edit (.addEdge edge.source edge.target) = .ok g₁ := by
      simp only [edit,h₁]
      rfl
    exact ih (h.edit hedit).1 h₂

theorem addEdges_extends {g g' : CycleGraph} {edges : List MoEdge} {added : Bool}
    (h : g.WellFormed) (hg : addEdges g edges = .ok (g',added)) : g.Extends g' ∧
      ∀ edge ∈ edges, g'.order.edge edge.source edge.target := by
  induction edges generalizing g added with
  | nil =>
    obtain ⟨rfl,_⟩ : g = g' ∧ _ := by simpa [addEdges] using hg
    exact ⟨.refl h,by simp⟩
  | cons edge edges ih =>
    obtain ⟨⟨g₁,_⟩,h₁,hg⟩ := bind_eq_ok.mp hg
    obtain ⟨⟨g₂,_⟩,h₂,hg⟩ := bind_eq_ok.mp hg
    obtain ⟨rfl,_⟩ : g₂ = g' ∧ _ := by simpa using hg
    have hfirst := addEdge_extends h h₁
    obtain ⟨hrest,hedges⟩ := ih hfirst.wellFormed h₂
    refine ⟨hfirst.trans hrest,fun x hx => ?_⟩
    rcases List.mem_cons.mp hx with rfl | hx
    · exact hrest.edge _ _ (addEdge_spec h h₁).order.edge_new
    · exact hedges x hx

/-- Reads, promises and lists stay as they are; more may be ordered, and a check may fail. -/
structure KeepsOrder (e e' : Execution) : Prop where
  numActs : e'.numActs = e.numActs
  actionTrace : e'.actionTrace = e.actionTrace
  objMap : e'.objMap = e.objMap
  thrdLastAction : e'.thrdLastAction = e.thrdLastAction
  usedSequenceNumbers : e'.usedSequenceNumbers = e.usedSequenceNumbers
  objThrdMap : e'.objThrdMap = e.objThrdMap
  keeps : ∀ a, (e.acts a).Keeps (e'.acts a)
  readsFrom : ∀ a, (e'.acts a).readsFrom = (e.acts a).readsFrom
  readsFromPromise : ∀ a, (e'.acts a).readsFromPromise = (e.acts a).readsFromPromise
  promises : e'.promises = e.promises
  readers : ∀ p, (e'.proms p).readers = (e.proms p).readers
  graph : e.moGraph.WellFormed → e.moGraph.Extends e'.moGraph
  flagged : e.Flagged → e'.Flagged

namespace KeepsOrder

theorem refl (e : Execution) : KeepsOrder e e where
  numActs := rfl
  actionTrace := rfl
  objMap := rfl
  thrdLastAction := rfl
  usedSequenceNumbers := rfl
  objThrdMap := rfl
  keeps := fun _ => (ModelAction.Same.refl _).keeps
  readsFrom := fun _ => rfl
  readsFromPromise := fun _ => rfl
  promises := rfl
  readers := fun _ => rfl
  graph := .refl
  flagged := id

theorem trans (h : KeepsOrder e e') (h' : KeepsOrder e' e'') : KeepsOrder e e'' where
  numActs := h'.numActs.trans h.numActs
  actionTrace := h'.actionTrace.trans h.actionTrace
  objMap := h'.objMap.trans h.objMap
  thrdLastAction := h'.thrdLastAction.trans h.thrdLastAction
  usedSequenceNumbers := h'.usedSequenceNumbers.trans h.usedSequenceNumbers
  objThrdMap := h'.objThrdMap.trans h.objThrdMap
  keeps := fun a => (h.keeps a).trans (h'.keeps a)
  readsFrom := fun a => (h'.readsFrom a).trans (h.readsFrom a)
  readsFromPromise := fun a => (h'.readsFromPromise a).trans (h.readsFromPromise a)
  promises := h'.promises.trans h.promises
  readers := fun p => (h'.readers p).trans (h.readers p)
  graph := fun hg => (h.graph hg).trans (h'.graph (h.graph hg).wellFormed)
  flagged := fun hf => h'.flagged (h.flagged hf)

/-- Only the graph changes. -/
theorem of_graph {g : CycleGraph} {calls : List MoCall}
    (hg : e.moGraph.WellFormed → e.moGraph.Extends g) :
    KeepsOrder e { e with moGraph := g,moCalls := calls } :=
  { refl e with graph := hg }

end KeepsOrder

theorem checkPromisesLoop_readers (tid : ThreadId) (oldCv : Option ClockVector)
    (mergeCv : ClockVector) (ps : List PromiseId) (e : Execution) (p : PromiseId) :
    ((checkPromisesLoop tid oldCv mergeCv ps e).proms p).readers = (e.proms p).readers := by
  induction ps generalizing e with
  | nil => rfl
  | cons q ps ih =>
    have hfirst : ((e.eliminateThread q tid).1.proms p).readers = (e.proms p).readers := by
      by_cases hp : p = q
      · subst hp
        simp [Execution.eliminateThread,modifyPromise,Promise.readers_eliminateThread]
      · simp [Execution.eliminateThread,modifyPromise,hp]
    rw [checkPromisesLoop]
    split
    · split
      · rename_i e₁ h
        rw [h] at hfirst
        exact hfirst
      · rename_i e₁ h
        rw [h] at hfirst
        exact (ih e₁).trans hfirst
    · exact ih e

theorem synchronize_keepsOrder (e : Execution) (first second : ActionId) :
    KeepsOrder e (e.synchronize first second).1 := by
  have hframe := e.synchronize_frame first second
  cases hb : e.before second first with
  | true =>
    rw [synchronize_of_before hb]
    exact { KeepsOrder.refl e with flagged := fun _ => .inr (.inr (.inl rfl)) }
  | false =>
    rw [synchronize_of_not_before hb] at hframe ⊢
    refine { KeepsOrder.refl e with
      keeps := fun a => (hframe.act a).keeps,readsFrom := fun a => ?_,
      readsFromPromise := fun a => ?_,readers := fun p => ?_ }
    · by_cases ha : a = second
      · subst ha
        simp
      · simp [ha]
    · by_cases ha : a = second
      · subst ha
        simp
      · simp [ha]
    · exact checkPromisesLoop_readers _ _ _ _ e p

theorem CalmStep.moGraph (h : CalmStep e e') : e'.moGraph = e.moGraph := by
  cases h with
  | synchronize first second =>
    cases hb : e.before second first with
    | true => rw [synchronize_of_before hb]
    | false => rw [synchronize_of_not_before hb]
  | _ => rfl

theorem CalmSteps.moGraph (h : CalmSteps e e') : e'.moGraph = e.moGraph := by
  induction h with
  | refl => rfl
  | tail _ hstep ih => exact hstep.moGraph.trans ih

theorem eliminateThread_keepsOrder (e : Execution) (p : PromiseId) (t : ThreadId) :
    KeepsOrder e (e.eliminateThread p t).1 := by
  refine { KeepsOrder.refl e with readers := fun q => ?_ }
  by_cases hq : q = p
  · subst hq
    simp [Execution.eliminateThread,modifyPromise,Promise.readers_eliminateThread]
  · simp [Execution.eliminateThread,modifyPromise,hq]

theorem insertEdges_keepsOrder {act : ActionId} {x : GraphObj} {edges : List MoEdge}
    {b : Bool} (h : e.insertEdges act x edges = .ok (e',b)) : KeepsOrder e e' := by
  obtain ⟨⟨g,added⟩,hg,h⟩ := bind_eq_ok.mp h
  obtain ⟨rfl,_⟩ : _ = e' ∧ _ := by simpa using h
  exact .of_graph fun hwf => (addEdges_extends hwf hg).1

/-- What was tried is taken back. -/
theorem tryRead_backed {act : ActionId} {rf : GraphObj} {b : Bool}
    (h : e.tryRead act rf = .ok (e',b)) : ∃ g calls,
      e' = { e with moGraph := g.rollbackChanges,moCalls := calls } ∧
        (e.moGraph.WellFormed → Backed e.moGraph g) := by
  obtain ⟨e₁,h₁,h⟩ := bind_eq_ok.mp h
  obtain ⟨⟨e₂,_⟩,h₂,h⟩ := bind_eq_ok.mp h
  obtain ⟨rfl,_⟩ : e₂.rollbackChanges = e' ∧ _ := by simpa using h
  obtain ⟨g₁,hg₁,h₁⟩ := bind_eq_ok.mp h₁
  obtain rfl : { e with moGraph := g₁ } = e₁ := by simpa using h₁
  obtain ⟨hlog,hrmw,hold,rfl⟩ := startChanges_eq_ok.mp hg₁
  obtain ⟨edges,_,h₂⟩ := bind_eq_ok.mp h₂
  obtain ⟨⟨g₂,_⟩,hg₂,h₂⟩ := bind_eq_ok.mp h₂
  obtain ⟨rfl,_⟩ : _ = e₂ ∧ _ := by simpa using h₂
  exact ⟨g₂,_,rfl,fun hwf => addEdges_backed ⟨hwf,hwf,.refl _,hlog,hrmw,hold⟩ hg₂⟩

theorem tryRead_keepsOrder {act : ActionId} {rf : GraphObj} {b : Bool}
    (h : e.tryRead act rf = .ok (e',b)) : KeepsOrder e e' := by
  obtain ⟨g,calls,rfl,hbacked⟩ := tryRead_backed h
  refine .of_graph (g := g.rollbackChanges) fun hwf => ?_
  have hbacked := hbacked hwf
  refine ⟨hbacked.rollback.base,fun x y hxy => ?_,fun hc => ?_⟩
  · rwa [hbacked.rollback_order]
  · rwa [hbacked.rollback_hasCycles]

theorem OrderStep.keepsOrder (h : OrderStep e e') : KeepsOrder e e' := by
  cases h with
  | synchronize first second => exact e.synchronize_keepsOrder first second
  | insertEdges _ h => exact insertEdges_keepsOrder h
  | startChanges h =>
    obtain ⟨g,hg,h⟩ := bind_eq_ok.mp h
    obtain rfl : _ = e' := by simpa using h
    exact .of_graph fun hwf => startChanges_extends hwf hg
  | commitChanges => exact .of_graph commitChanges_extends
  | tryRead h => exact tryRead_keepsOrder h
  | addEdge h => exact .of_graph fun hwf => addEdge_extends hwf h
  | sequences l => exact { KeepsOrder.refl e with flagged := id }
  | eliminate p t => exact e.eliminateThread_keepsOrder p t
  | failPromise => exact { KeepsOrder.refl e with flagged := id }
  | hardFailPromise =>
    exact { KeepsOrder.refl e with flagged := fun _ => .inr (.inr (.inr (.inr (.inl rfl)))) }
  | markStale => exact { KeepsOrder.refl e with flagged := fun _ => .inr (.inl rfl) }
  | noValidReads => exact { KeepsOrder.refl e with flagged := fun _ => .inl rfl }
  | badScRead => exact { KeepsOrder.refl e with flagged := fun _ => .inr (.inr (.inr (.inl rfl))) }

theorem OrderSteps.keepsOrder (h : OrderSteps e e') : KeepsOrder e e' := by
  induction h with
  | refl => exact .refl e
  | tail _ hstep ih => exact ih.trans hstep.keepsOrder

theorem TrySteps.moGraph_order (h : TrySteps e e') (hwf : e.moGraph.WellFormed) :
    e'.moGraph.order = e.moGraph.order := by
  induction h with
  | refl => rfl
  | @tail e₁ e₂ hsteps hstep ih =>
    have hgraph : e.moGraph.Extends e₁.moGraph :=
      (OrderSteps.keepsOrder (TrySteps.order hsteps)).graph hwf
    refine Eq.trans ?_ ih
    cases hstep with
    | tryRead h =>
      obtain ⟨g,calls,rfl,hbacked⟩ := tryRead_backed h
      exact (hbacked hgraph.wellFormed).rollback_order
    | noValidReads => rfl

theorem SameMemory.keepsOrder (h : SameMemory e e') : KeepsOrder e e' where
  numActs := h.numActs
  actionTrace := h.actionTrace
  objMap := h.objMap
  thrdLastAction := h.thrdLastAction
  usedSequenceNumbers := h.usedSequenceNumbers
  objThrdMap := h.objThrdMap
  keeps := h.keeps
  readsFrom := h.readsFrom
  readsFromPromise := h.readsFromPromise
  promises := h.promises
  readers p := by rw [h.proms]
  graph hg := by
    rw [h.moGraph]
    exact .refl hg
  flagged := h.flagged

theorem ThreadSteps.keepsOrder {curr : ActionId} (h : ThreadSteps curr e e') : KeepsOrder e e' := by
  induction h with
  | refl => exact .refl e
  | tail _ hstep ih =>
    refine ih.trans ?_
    cases hstep with
    | calm h => exact h.order.keepsOrder
    | other h => exact h.keepsOrder
    | addThread t _ =>
      refine { KeepsOrder.refl _ with readers := fun p => ?_ }
      dsimp only
      split
      · exact Promise.readers_addThread _ t
      · rfl

theorem ThreadSteps.moGraph {curr : ActionId} (h : ThreadSteps curr e e') :
    e'.moGraph = e.moGraph := by
  induction h with
  | refl => rfl
  | tail _ hstep ih =>
    refine Eq.trans ?_ ih
    cases hstep with
    | calm h => exact h.moGraph
    | other h => exact h.moGraph
    | addThread t _ => rfl

end Execution
end CdsChecker
