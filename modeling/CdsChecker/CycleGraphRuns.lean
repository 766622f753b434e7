import CdsChecker.CycleGraphRollback

/-! Runs of insertions, commits and rollbacks, as runs over orders with a savepoint. -/
namespace CdsChecker
namespace CycleGraph

open Relation

/-! ### Insertions -/

/-- What an insertion does to the order. -/
def Edit.Orders (o : OrderGraph GraphObj) : Edit → OrderGraph GraphObj → Prop
  | .addEdge x y => OrderGraph.AddEdge o x y
  | .addRMWEdge x rmw => OrderGraph.AddNext o x (.action rmw)

/-- An RMW is added before anything reads from it or is ordered before it. -/
def Edit.Fresh (g : CycleGraph) : Edit → Prop
  | .addEdge _ _ => True
  | .addRMWEdge _ rmw =>
    ∀ n, g.actionToNode rmw = some n → g.getRMW n = none ∧ (g.node n).backEdges = []

def Edit.FreshIn (o : OrderGraph GraphObj) : Edit → Prop
  | .addEdge _ _ => True
  | .addRMWEdge _ rmw => o.next (.action rmw) = none ∧ ∀ x, ¬ o.edge x (.action rmw)

theorem Edit.Fresh.freshIn {g : CycleGraph} (h : g.WellFormed) {e : Edit} (he : e.Fresh g) :
    e.FreshIn g.order := by
  cases e with
  | addEdge => trivial
  | addRMWEdge x rmw =>
    cases hr : g.getNodeNoCreate (.action rmw) with
    | none =>
      refine ⟨by simp [order,OrderGraph.pull,hr],?_⟩
      rintro y ⟨_,n,_,hn,_⟩
      simp [hr] at hn
    | some n =>
      obtain ⟨hrmw,hback⟩ := he n hr
      refine ⟨(order_next_none h hr).mpr hrmw,?_⟩
      rintro y ⟨m,n',_,hn,hmn⟩
      obtain rfl := Option.some.inj (hr.symm.trans hn)
      have hm := (h.mem_backEdges m n).mpr hmn
      simp [hback] at hm

/-- An insertion into the graph refines one into the order. -/
theorem edit_spec {g g' : CycleGraph} {e : Edit} (h : g.WellFormed) (hg : g.edit e = .ok g') :
    Added g g' fun o o' => e.Orders o o' := by
  cases e with
  | addEdge x y =>
    simp only [edit,bind_eq_ok,pure_eq_ok] at hg
    obtain ⟨⟨g₁,new⟩,hadd,rfl⟩ := hg
    exact addEdge_spec h hadd
  | addRMWEdge x rmw => exact (addRMWEdge_spec h hg).1

theorem edit_total {g : CycleGraph} {e : Edit} (h : g.WellFormed) (hf : e.FreshIn g.order)
    {o : OrderGraph GraphObj} (ho : e.Orders g.order o) : ∃ g', g.edit e = .ok g' := by
  cases e with
  | addEdge x y =>
    obtain ⟨g',new,hg'⟩ := addEdge_total h ho
    exact ⟨g',by simp [edit,hg',bind,Except.bind,pure,Except.pure]⟩
  | addRMWEdge x rmw => exact addRMWEdge_total h hf.1 ho

theorem Edit.Orders.unique {o o₁ o₂ : OrderGraph GraphObj} {e : Edit} (h₁ : e.Orders o o₁)
    (h₂ : e.Orders o o₂) : o₁ = o₂ := by
  cases e with
  | addEdge => exact OrderGraph.AddEdge.unique h₁ h₂
  | addRMWEdge => exact OrderGraph.AddNext.unique h₁ h₂

/-! ### Changes with a savepoint -/

/-- `startChanges` only asserts. -/
def Change.saveOp : Change → Option (Savepoint.Op Edit)
  | .edit e => some (.change e)
  | .startChanges => none
  | .commitChanges => some .keep
  | .rollbackChanges => some .undo

/-- The insertions of a run that no rollback takes back. -/
def survivors (cs : List Change) : List Edit := Savepoint.survivors (cs.filterMap Change.saveOp)

/-- The RMW of every `addRMWEdge` is fresh when the call is made. -/
def FreshRun : CycleGraph → List Change → Prop
  | _,[] => True
  | g,c :: cs =>
    (∀ e, c = .edit e → e.Fresh g) ∧ ∀ g', g.change c = .ok g' → FreshRun g' cs

/-- One insertion of a fresh run. -/
def FreshOrders (o : OrderGraph GraphObj) (e : Edit) (o' : OrderGraph GraphObj) : Prop :=
  e.FreshIn o ∧ e.Orders o o'

theorem startChanges_eq_ok {g g' : CycleGraph} : g.startChanges = .ok g' ↔
    g.rollbackvector = [] ∧ g.rmwrollbackvector = [] ∧ g.oldCycles = g.hasCycles ∧ g = g' := by
  simp only [startChanges,bind_eq_ok,assert_eq_ok,pure_eq_ok,List.isEmpty_iff,beq_iff_eq]
  constructor
  · rintro ⟨_,h₁,_,h₂,_,h₃,h⟩
    exact ⟨h₁,h₂,h₃,h⟩
  · rintro ⟨h₁,h₂,h₃,h⟩
    exact ⟨(),h₁,(),h₂,(),h₃,h⟩

theorem startChanges_eq_error {g : CycleGraph} {e : Failure} :
    g.startChanges = .error e → e = .assertion := by
  simp only [startChanges,bind_eq_error,assert_eq_error,pure_ne_error]
  rintro (h | ⟨_,_,h | ⟨_,_,h | ⟨_,_,h⟩⟩⟩)
  · exact h.2
  · exact h.2
  · exact h.2
  · exact h.elim

namespace Backed

variable {b g g' : CycleGraph}

theorem edit (h : Backed b g) {e : Edit} (hg : g.edit e = .ok g') :
    Backed b g' ∧ e.Orders g.order g'.order := by
  obtain ⟨hwf,hgr,ho⟩ := edit_spec h.wellFormed hg
  exact ⟨⟨h.base,hwf,h.grows.trans hgr,h.rollbackvector,h.rmwrollbackvector,h.oldCycles⟩,ho⟩

theorem rollback (h : Backed b g) : Backed g.rollbackChanges g.rollbackChanges := by
  have hr := rollbackChanges_spec h.wellFormed
  exact ⟨hr.wellFormed,hr.wellFormed,.refl _,hr.rollbackvector,hr.rmwrollbackvector,
    hr.oldCycles.trans hr.hasCycles.symm⟩

end Backed

theorem commitChanges_order (g : CycleGraph) : g.commitChanges.order = g.order := by
  have hlook : g.commitChanges.getNodeNoCreate = g.getNodeNoCreate := by
    funext x; cases x <;> rfl
  rw [order,hlook]
  rfl

/-- A run of the graph refines a run of its order. -/
theorem run_refines {cs : List Change} {b g g' : CycleGraph} (h : Backed b g)
    (hf : FreshRun g cs) (hg : run change g cs = .ok g') :
    ∃ b', Backed b' g' ∧
      Savepoint.Run FreshOrders b.order g.order (cs.filterMap Change.saveOp) b'.order g'.order := by
  induction cs generalizing b g with
  | nil =>
    obtain rfl : g = g' := by simpa [run] using hg
    exact ⟨b,h,.nil _ _⟩
  | cons c cs ih =>
    simp only [run,bind_eq_ok] at hg
    obtain ⟨g₁,hc,hg⟩ := hg
    obtain ⟨hfc,hfr⟩ := hf
    have hfr₁ := hfr g₁ hc
    cases c with
    | edit e =>
      obtain ⟨h₁,ho⟩ := h.edit hc
      obtain ⟨b',hb',hrun⟩ := ih h₁ hfr₁ hg
      exact ⟨b',hb',.change ⟨(hfc e rfl).freshIn h.wellFormed,ho⟩ hrun⟩
    | startChanges =>
      obtain ⟨_,_,_,rfl⟩ := startChanges_eq_ok.mp hc
      exact ih h hfr₁ hg
    | commitChanges =>
      obtain rfl : g.commitChanges = g₁ := by simpa [change] using hc
      obtain ⟨b',hb',hrun⟩ := ih (Backed.commit h.wellFormed) hfr₁ hg
      rw [commitChanges_order] at hrun
      exact ⟨b',hb',.keep hrun⟩
    | rollbackChanges =>
      obtain rfl : g.rollbackChanges = g₁ := by simpa [change] using hc
      obtain ⟨b',hb',hrun⟩ := ih h.rollback hfr₁ hg
      rw [h.rollback_order] at hrun
      exact ⟨b',hb',.undo hrun⟩

/-- A run of insertions exists when the order has one. -/
theorem run_of_steps {es : List Edit} {g : CycleGraph} {o : OrderGraph GraphObj}
    (h : g.WellFormed) (hs : Savepoint.Steps FreshOrders g.order es o) :
    ∃ g', run CycleGraph.edit g es = .ok g' ∧ g'.WellFormed ∧ g'.order = o := by
  generalize ho : g.order = o₀ at hs
  induction hs generalizing g with
  | nil => exact ⟨g,rfl,h,ho⟩
  | cons ha _ ih =>
    subst ho
    obtain ⟨g₁,hg₁⟩ := edit_total h ha.1 ha.2
    obtain ⟨hwf,_,ho₁⟩ := edit_spec h hg₁
    obtain ⟨g',hg',hwf',ho'⟩ := ih hwf (ho₁.unique ha.2)
    exact ⟨g',by simp [run,hg₁,hg',bind,Except.bind],hwf',ho'⟩

end CycleGraph
end CdsChecker
