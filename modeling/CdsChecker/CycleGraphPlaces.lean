import CdsChecker.CycleGraphResolve
import CdsChecker.Library.OrderGraphPlaces

/-! Places in the modification order graph: what the operations insert stays at one place, when
their arguments do, and then the flag is right about cycles. -/
namespace CdsChecker
namespace CycleGraph

open Relation OrderGraph

variable {ν : Type} {place : GraphObj → Option ν} {g g' : CycleGraph}

theorem addEdge_within {x y : GraphObj} {b : Bool} (h : g.WellFormed)
    (hw : g.order.Within place) (hxy : SamePlace place x y) (hg : g.addEdge x y = .ok (g',b)) :
    g'.order.Within place := hw.addEdge hxy (addEdge_spec h hg).order

theorem addRMWEdge_within {x : GraphObj} {rmw : ActionId} (h : g.WellFormed)
    (hw : g.order.Within place) (hx : SamePlace place x (.action rmw))
    (hg : g.addRMWEdge x rmw = .ok g') : g'.order.Within place :=
  hw.addNext hx (addRMWEdge_spec h hg).1.order

/-- A vertex without a place has no constraints, so a new RMW closes no cycle unseen. -/
theorem addRMWEdge_acyclic {x : GraphObj} {rmw : ActionId} (h : g.WellFormed)
    (hw : g.order.Within place) (hnew : place (.action rmw) = none)
    (hac : g.hasCycles = false → Acyclic g.order.edge) (hg : g.addRMWEdge x rmw = .ok g') :
    g'.hasCycles = false → Acyclic g'.order.edge := by
  have hsound := (addRMWEdge_spec h hg).1.order.sound (fun y hy => ?_)
    (fun hc => hac (Bool.eq_false_iff.mpr hc))
  · exact fun hc => hsound (Bool.eq_false_iff.mp hc)
  · obtain ⟨l,-,hl⟩ := hw.edge y _ hy
    cases hnew.symm.trans hl

theorem addEdge_acyclic {x y : GraphObj} {b : Bool} (h : g.WellFormed)
    (hac : g.hasCycles = false → Acyclic g.order.edge) (hg : g.addEdge x y = .ok (g',b)) :
    g'.hasCycles = false → Acyclic g'.order.edge := fun hc =>
  (addEdge_spec h hg).order.sound (fun hc => hac (Bool.eq_false_iff.mpr hc))
    (Bool.eq_false_iff.mp hc)

/-! ### A promise that is kept -/

variable {writer : ActionId} {promise : PromiseId} {w p : NodeId} {tests : PromiseTests}

/-- The RMW of the write and that of the promise do not conflict. -/
theorem transferRMW_next (hp : Pair g writer w promise p)
    (hg : g.transferRMW w p = (g',true)) : g.order.next (.action writer) = none ∨
      g.order.next (.promise promise) = none ∨
        g.order.next (.action writer) = g.order.next (.promise promise) := by
  have hnext : ∀ {x n}, g.getNodeNoCreate x = some n →
      g.order.next x = (g.getRMW n).bind fun m => (g.node m).obj := fun hx => by
    simp [order,pull,hx,nodeOrder]
  rw [hnext hp.writer,hnext hp.promise]
  cases hr : g.getRMW p with
  | none => exact .inr (.inl rfl)
  | some r =>
    by_cases hw : g.getRMW w = some r
    · exact .inr (.inr (by rw [hw]))
    · cases hw' : g.getRMW w with
      | none => exact .inl rfl
      | some r' =>
        have hne : r' ≠ r := fun he => hw (he ▸ hw')
        simp [transferRMW,hr,hw',setRMW,hne] at hg

theorem resolvePromise_next (h : g.WellFormed)
    (hg : g.resolvePromise tests promise writer = .ok (g',true)) :
    g.order.next (.action writer) = none ∨ g.order.next (.promise promise) = none ∨
      g.order.next (.action writer) = g.order.next (.promise promise) := by
  obtain ⟨⟨w,p,hp⟩,-⟩ := resolvePromise_spec h hg
  have hp₀ : g.promiseToNode promise = some p := hp.promise
  have hw₀ : g.actionToNode writer = some w := hp.writer
  simp only [resolvePromise,hp₀,hw₀,mergeNodes,bind_eq_ok] at hg
  obtain ⟨_,_,_,_,hg⟩ := hg
  rw [(hp.isPromise h).2,hp.action h] at hg
  dsimp only at hg
  split at hg
  · simp at hg
  · cases ht : g.transferRMW w p with
    | mk g₁ ok =>
      cases ok with
      | true => exact transferRMW_next hp ht
      | false => simp [ht] at hg

theorem resolvePromise_hasCycles (h : g.WellFormed)
    (hg : g.resolvePromise tests promise writer = .ok (g',true)) : g'.hasCycles = false := by
  obtain ⟨-,-,hout⟩ := resolvePromise_spec h hg
  generalize hok : true = ok at hout
  cases hout with
  | refused => cases hok
  | cyclic => cases hok
  | merged => simpa using hok.symm

/-- What a kept promise leaves: the places and no cycle, nothing at the promise, and its RMW behind
the write. -/
theorem resolvePromise_within (h : g.WellFormed) (hw : g.order.Within place)
    (hwp : SamePlace place (.action writer) (.promise promise)) (hac : Acyclic g.order.edge)
    (hg : g.resolvePromise tests promise writer = .ok (g',true)) :
    g'.order.Within place ∧ Acyclic g'.order.edge ∧ g'.order.Isolated (.promise promise) ∧
      g'.order.next = ((g.order.adopt (.action writer) (.promise promise)).forget
        (.promise promise)).next := by
  obtain ⟨-,-,hout⟩ := resolvePromise_spec h hg
  generalize hok : true = ok at hout
  cases hout with
  | refused => cases hok
  | cyclic => cases hok
  | merged hm =>
    obtain ⟨o,hsteps,hiso,-,ho⟩ := hm.steps
    have hcyclic : ¬ o.cyclic := fun hc => by
      have hflag : g'.order.cyclic := by rwa [ho]
      have hflag : g'.hasCycles = true := hflag
      cases (resolvePromise_hasCycles h hg).symm.trans hflag
    have hacyclic : Acyclic o.edge := merge_sound hsteps (fun _ => hac) hcyclic
    rw [ho]
    refine ⟨((hw.adopt hwp).mergeSteps hwp hsteps).forget _,hacyclic,hiso,?_⟩
    simp only [forget,mergeSteps_next hsteps]

end CycleGraph
end CdsChecker
