import CdsChecker.CycleGraphResolve

/-! After `rollbackChanges` the graph is the one of the savepoint, and goes on answering like
it. Nodes allocated on the way stay, so an object may be known that was not before. -/
namespace CdsChecker
namespace CycleGraph

open Relation OrderGraph

/-! ### Logs -/

namespace Grows

variable {g g' : CycleGraph}

theorem order_edge_mono (h : Grows g g') {x y : GraphObj} (hxy : g.order.edge x y) :
    g'.order.edge x y := by
  obtain ⟨_,ext,_,hext⟩ := h.edges
  obtain ⟨m,n,hm,hn,hmn⟩ := hxy
  refine ⟨m,n,h.lookup x m hm,h.lookup y n hn,?_⟩
  change n ∈ (g'.node m).edges
  rw [(hext m).1]
  exact List.mem_append_left _ hmn

/-- The edge log stays empty just when no edge is new. -/
theorem edges_nil_iff (h : Grows g g') (hwf : g.WellFormed) (hwf' : g'.WellFormed) :
    g'.rollbackvector = [] ↔ g.rollbackvector = [] ∧ g'.order.edge = g.order.edge := by
  obtain ⟨log,ext,hlog,hext⟩ := h.edges
  rw [hlog,List.append_eq_nil_iff]
  refine and_congr_right fun _ => ⟨?_,fun heq => ?_⟩
  · rintro rfl
    have hsame : ∀ n, (g'.node n).edges = (g.node n).edges := by
      intro n
      have hnil : ext n = [] := List.eq_nil_of_length_eq_zero (by simpa using (hext n).2)
      rw [(hext n).1,hnil,List.append_nil]
    funext x y
    refine propext ⟨?_,h.order_edge_mono⟩
    rintro ⟨m,n,hm,hn,hmn⟩
    have hmn' : n ∈ (g.node m).edges := by
      rw [← hsame]; exact hmn
    obtain ⟨⟨x',hx'⟩,⟨y',hy'⟩⟩ := hwf.edge_live m n hmn'
    obtain rfl := hwf'.obj_unique hm (h.lookup x' m hx')
    obtain rfl := hwf'.obj_unique hn (h.lookup y' n hy')
    exact ⟨m,n,hx',hy',hmn'⟩
  · -- a logged node gained an edge, which the old order would have to know
    by_contra hne
    obtain ⟨m,hm⟩ := List.exists_mem_of_ne_nil log hne
    have hpos : 0 < (ext m).length := by
      rw [(hext m).2]; exact List.count_pos_iff.mpr hm
    obtain ⟨n,hn⟩ := List.exists_mem_of_length_pos hpos
    have hmn : n ∈ (g'.node m).edges := by
      rw [(hext m).1]; exact List.mem_append_right _ hn
    obtain ⟨⟨x,hx⟩,⟨y,hy⟩⟩ := hwf'.edge_live m n hmn
    have hxy : g.order.edge x y := by
      rw [← heq]; exact ⟨m,n,hx,hy,hmn⟩
    obtain ⟨m',n',hm',hn',hmn'⟩ := hxy
    obtain rfl := Option.some.inj (hx.symm.trans (h.lookup x m' hm'))
    obtain rfl := Option.some.inj (hy.symm.trans (h.lookup y n' hn'))
    have hnd := hwf'.edges_nodup m
    rw [(hext m).1,List.nodup_append] at hnd
    exact hnd.2.2 n hmn' n hn rfl

/-- The RMW log stays empty just when no RMW link is new. -/
theorem rmw_nil_iff (h : Grows g g') (hwf : g.WellFormed) (hwf' : g'.WellFormed) :
    g'.rmwrollbackvector = [] ↔ g.rmwrollbackvector = [] ∧ g'.order.next = g.order.next := by
  obtain ⟨log,hlog,hrmw⟩ := h.rmw
  rw [hlog,List.append_eq_nil_iff]
  refine and_congr_right fun _ => ⟨?_,fun heq => ?_⟩
  · rintro rfl
    have hsame : ∀ n, g'.getRMW n = g.getRMW n := fun n => (hrmw n).1 (by simp)
    funext x
    cases hx : g.getNodeNoCreate x with
    | some m =>
      have hx' := h.lookup x m hx
      cases hr : g.getRMW m with
      | none =>
        rw [(order_next_none hwf hx).mpr hr,(order_next_none hwf' hx').mpr (hsame m ▸ hr)]
      | some k =>
        obtain ⟨a,ha⟩ := hwf.rmw_action m k hr
        rw [(order_next_some hwf hx ha).mpr hr,
          (order_next_some hwf' hx' (h.lookup _ k ha)).mpr ((hsame m).trans hr)]
    | none =>
      have hold : g.order.next x = none := by simp [order,pull,hx]
      rw [hold]
      cases hx' : g'.getNodeNoCreate x with
      | none => simp [order,pull,hx']
      | some m =>
        have hm := h.fresh x m hx hx'
        refine (order_next_none hwf' hx').mpr ?_
        rw [hsame,getRMW,hwf.unused m hm]
  · by_contra hne
    obtain ⟨m,hm⟩ := List.exists_mem_of_ne_nil log hne
    obtain ⟨hnone,hsome,⟨x,hx⟩⟩ := (hrmw m).2 hm
    obtain ⟨k,hk⟩ := Option.isSome_iff_exists.mp hsome
    obtain ⟨a,ha⟩ := hwf'.rmw_action m k hk
    have hnext := (order_next_some hwf' hx ha).mpr hk
    rw [heq] at hnext
    cases hx₀ : g.getNodeNoCreate x with
    | none => simp [order,pull,hx₀] at hnext
    | some m' =>
      obtain rfl := Option.some.inj (hx.symm.trans (h.lookup x m' hx₀))
      rw [(order_next_none hwf hx₀).mpr hnone] at hnext
      cases hnext

end Grows

/-! ### Graphs that answer alike -/

/-- Two graphs with the same order, the same savepoint and the same open changes. -/
structure Alike (g g' : CycleGraph) : Prop where
  backed : ∃ b b', Backed b g ∧ Backed b' g' ∧ b.order = b'.order
  order : g.order = g'.order
  edges : g.rollbackvector = [] ↔ g'.rollbackvector = []
  rmw : g.rmwrollbackvector = [] ↔ g'.rmwrollbackvector = []

namespace Alike

variable {g g' : CycleGraph}

theorem symm (h : Alike g g') : Alike g' g := by
  obtain ⟨b,b',hb,hb',ho⟩ := h.backed
  exact ⟨⟨b',b,hb',hb,ho.symm⟩,h.order.symm,h.edges.symm,h.rmw.symm⟩

theorem wellFormed (h : Alike g g') : g.WellFormed := by
  obtain ⟨_,_,hb,_⟩ := h.backed
  exact hb.wellFormed

theorem hasCycles (h : Alike g g') : g.hasCycles = g'.hasCycles := by
  have hc : g.order.cyclic = g'.order.cyclic := by rw [h.order]
  exact Bool.eq_iff_iff.mpr (iff_of_eq hc)

theorem oldCycles (h : Alike g g') : g.oldCycles = g'.oldCycles := by
  obtain ⟨b,b',hb,hb',ho⟩ := h.backed
  have hc : b.order.cyclic = b'.order.cyclic := by rw [ho]
  rw [hb.grows.oldCycles,hb'.grows.oldCycles,hb.oldCycles,hb'.oldCycles]
  exact Bool.eq_iff_iff.mpr (iff_of_eq hc)

theorem checkReachable (h : Alike g g') {x y : GraphObj} (hxy : x ≠ y) :
    g.checkReachable x y = g'.checkReachable x y := by
  rw [Bool.eq_iff_iff,checkReachable_iff h.wellFormed hxy,
    checkReachable_iff h.symm.wellFormed hxy,h.order]

/-- Completed insertions keep graphs alike. -/
theorem of_edit {g₁ g₁' : CycleGraph} {e : Edit} (h : Alike g g') (hg : g.edit e = .ok g₁)
    (hg' : g'.edit e = .ok g₁') : Alike g₁ g₁' := by
  obtain ⟨b,b',hb,hb',ho⟩ := h.backed
  obtain ⟨hwf,hgr,hord⟩ := edit_spec hb.wellFormed hg
  obtain ⟨hwf',hgr',hord'⟩ := edit_spec hb'.wellFormed hg'
  have horder : g₁.order = g₁'.order := by
    rw [h.order] at hord
    exact hord.unique hord'
  refine ⟨⟨b,b',(hb.edit hg).1,(hb'.edit hg').1,ho⟩,horder,?_,?_⟩
  · rw [hgr.edges_nil_iff hb.wellFormed hwf,hgr'.edges_nil_iff hb'.wellFormed hwf',h.edges,
      horder,h.order]
  · rw [hgr.rmw_nil_iff hb.wellFormed hwf,hgr'.rmw_nil_iff hb'.wellFormed hwf',h.rmw,
      horder,h.order]

theorem edit_ok {g₁ : CycleGraph} {e : Edit} (h : Alike g g') (hg : g.edit e = .ok g₁) :
    ∃ g₁', g'.edit e = .ok g₁' := by
  have hord := (edit_spec h.wellFormed hg).order
  rw [h.order] at hord
  cases e with
  | addEdge x y => exact edit_total h.symm.wellFormed (e := .addEdge x y) trivial hord
  | addRMWEdge x rmw =>
    have hnone := (addRMWEdge_spec h.wellFormed hg).2
    rw [h.order] at hnone
    exact addRMWEdge_total h.symm.wellFormed hnone hord

/-- A change that returns for one returns for the other, alike again. -/
theorem change_ok {g₁ : CycleGraph} {c : Change} (h : Alike g g') (hg : g.change c = .ok g₁) :
    ∃ g₁', g'.change c = .ok g₁' ∧ Alike g₁ g₁' := by
  cases c with
  | edit e =>
    obtain ⟨g₁',hg'⟩ := h.edit_ok hg
    exact ⟨g₁',hg',h.of_edit hg hg'⟩
  | startChanges =>
    obtain ⟨he,hr,hc,rfl⟩ := startChanges_eq_ok.mp hg
    refine ⟨g',startChanges_eq_ok.mpr ⟨h.edges.mp he,h.rmw.mp hr,?_,rfl⟩,h⟩
    rw [← h.oldCycles,← h.hasCycles]
    exact hc
  | commitChanges =>
    obtain rfl : g.commitChanges = g₁ := by simpa [change] using hg
    have ho : g.commitChanges.order = g'.commitChanges.order := by
      rw [commitChanges_order,commitChanges_order,h.order]
    exact ⟨_,rfl,⟨_,_,.commit h.wellFormed,.commit h.symm.wellFormed,ho⟩,ho,by rfl,by rfl⟩
  | rollbackChanges =>
    obtain rfl : g.rollbackChanges = g₁ := by simpa [change] using hg
    obtain ⟨b,b',hb,hb',hord⟩ := h.backed
    have ho : g.rollbackChanges.order = g'.rollbackChanges.order := by
      rw [hb.rollback_order,hb'.rollback_order,hord]
    exact ⟨_,rfl,⟨_,_,hb.rollback,hb'.rollback,ho⟩,ho,by rfl,by rfl⟩

/-- Changes fail for both in the same way. -/
theorem change_error {c : Change} {e : Failure} (h : Alike g g') (hg : g.change c = .error e) :
    g'.change c = .error e := by
  cases hg' : g'.change c with
  | ok g₁' =>
    obtain ⟨g₁,hok,_⟩ := h.symm.change_ok hg'
    rw [hg] at hok
    cases hok
  | error e' =>
    cases c with
    | edit ed =>
      cases ed with
      | addEdge x y =>
        simp only [change,edit,bind_eq_error,pure_ne_error,and_false,exists_false,
          or_false] at hg hg'
        rw [addEdge_error hg,addEdge_error hg']
      | addRMWEdge x rmw =>
        rcases addRMWEdge_error h.wellFormed hg with ⟨rfl,hn⟩ | ⟨rfl,hn⟩ <;>
          rcases addRMWEdge_error h.symm.wellFormed hg' with ⟨rfl,hn'⟩ | ⟨rfl,hn'⟩
        · rfl
        · exact (hn' (h.order ▸ hn)).elim
        · exact (hn (h.order ▸ hn')).elim
        · rfl
    | startChanges => rw [startChanges_eq_error hg,startChanges_eq_error hg']
    | commitChanges => cases hg
    | rollbackChanges => cases hg

theorem run_ok {cs : List Change} {g₁ : CycleGraph} (h : Alike g g')
    (hg : run change g cs = .ok g₁) : ∃ g₁', run change g' cs = .ok g₁' ∧ Alike g₁ g₁' := by
  induction cs generalizing g g' with
  | nil =>
    obtain rfl : g = g₁ := by simpa [run] using hg
    exact ⟨g',rfl,h⟩
  | cons c cs ih =>
    simp only [run,bind_eq_ok] at hg
    obtain ⟨g₂,hc,hg⟩ := hg
    obtain ⟨g₂',hc',h₂⟩ := h.change_ok hc
    obtain ⟨g₁',hg',h₁⟩ := ih h₂ hg
    exact ⟨g₁',by simp [run,hc',hg',bind,Except.bind],h₁⟩

theorem run_error {cs : List Change} {e : Failure} (h : Alike g g')
    (hg : run change g cs = .error e) : run change g' cs = .error e := by
  induction cs generalizing g g' with
  | nil => simp [run] at hg
  | cons c cs ih =>
    rw [run,bind_eq_error] at hg ⊢
    rcases hg with hc | ⟨g₂,hc,hg⟩
    · exact Or.inl (h.change_error hc)
    · obtain ⟨g₂',hc',h₂⟩ := h.change_ok hc
      exact Or.inr ⟨g₂',hc',ih h₂ hg⟩

end Alike

/-! ### Rolling back -/

/-- Every node has the edges and the RMW link it had. -/
structure Restored (g g' : CycleGraph) : Prop where
  edges : ∀ n, (g'.node n).edges = (g.node n).edges
  backEdges : ∀ n m, m ∈ (g'.node n).backEdges ↔ m ∈ (g.node n).backEdges
  getRMW : ∀ n, g'.getRMW n = g.getRMW n
  hasCycles : g'.hasCycles = g.hasCycles

/-- Whatever is called next, both graphs fail or both return, with the same flag and the same
paths between distinct objects. -/
structure SameAnswers (g g' : CycleGraph) : Prop where
  error : ∀ cs e, run change g cs = .error e → run change g' cs = .error e
  ok : ∀ cs h, run change g cs = .ok h → ∃ h', run change g' cs = .ok h' ∧
    h'.checkForCycles = h.checkForCycles ∧
    ∀ x y, x ≠ y → h'.checkReachable x y = h.checkReachable x y

theorem run_append_ok {α : Type} {step : CycleGraph → α → Result CycleGraph} {l l' : List α}
    {g g' : CycleGraph} : run step g (l ++ l') = .ok g' ↔
      ∃ g₁, run step g l = .ok g₁ ∧ run step g₁ l' = .ok g' := by
  induction l generalizing g with
  | nil => simp [run]
  | cons a l ih =>
    simp only [List.cons_append,run,bind_eq_ok,ih]
    constructor
    · rintro ⟨g₂,h₂,g₁,h₁,h⟩
      exact ⟨g₁,⟨g₂,h₂,h₁⟩,h⟩
    · rintro ⟨g₁,⟨g₂,h₂,h₁⟩,h⟩
      exact ⟨g₂,h₂,g₁,h₁,h⟩

theorem Backed.run_edit {b g g' : CycleGraph} {es : List Edit} (h : Backed b g)
    (hg : run CycleGraph.edit g es = .ok g') : Backed b g' := by
  induction es generalizing g with
  | nil =>
    obtain rfl : g = g' := by simpa [run] using hg
    exact h
  | cons e es ih =>
    simp only [run,bind_eq_ok] at hg
    obtain ⟨g₁,he,hg⟩ := hg
    exact ih (h.edit he).1 hg

/-- A rollback takes the graph back to where the changes were started. -/
theorem rollbackChanges_restores {ops : List Op} {es : List Edit} {g g' : CycleGraph}
    (hrun : run op empty (ops ++ [.change .startChanges]) = .ok g)
    (hedits : run CycleGraph.edit g es = .ok g') :
    Restored g g'.rollbackChanges ∧ SameAnswers g g'.rollbackChanges := by
  obtain ⟨g₀,hrun₀,hstart⟩ := run_append_ok.mp hrun
  have hwf := run_wellFormed .empty hrun₀
  simp only [run,bind_eq_ok] at hstart
  obtain ⟨g₁,hstart,hg⟩ := hstart
  obtain ⟨he,hr,hc,rfl⟩ := startChanges_eq_ok.mp hstart
  obtain rfl : g₀ = g := by simpa using hg
  have hb : Backed g₀ g₀ := ⟨hwf,hwf,.refl _,he,hr,hc⟩
  have hb' := hb.run_edit hedits
  have hroll := rollbackChanges_spec hb'.wellFormed
  have halike : Alike g₀ g'.rollbackChanges :=
    ⟨⟨_,_,hb,hb'.rollback,hb'.rollback_order.symm⟩,hb'.rollback_order.symm,
      by simp [he,hroll.rollbackvector],by simp [hr,hroll.rmwrollbackvector]⟩
  refine ⟨⟨hb'.rollback_edges,fun n m => hb'.rollback_mem_backEdges m n,hb'.rollback_getRMW,
    hb'.rollback_hasCycles⟩,⟨fun cs e h => halike.run_error h,fun cs h hh => ?_⟩⟩
  obtain ⟨h',hh',hal⟩ := halike.run_ok hh
  exact ⟨h',hh',hal.hasCycles.symm,fun x y hxy => (hal.checkReachable hxy).symm⟩

theorem rollbackChanges_restores_edge : ∃ g g',
    run op empty [.change .startChanges] = .ok g ∧
      run CycleGraph.edit g [.addEdge (.action 0) (.action 1)] = .ok g' ∧
      Restored g g'.rollbackChanges ∧ SameAnswers g g'.rollbackChanges :=
  ⟨_,_,rfl,rfl,rollbackChanges_restores
    (show run op empty ([] ++ [.change .startChanges]) = .ok _ from rfl)
    (show run CycleGraph.edit _ [.addEdge (.action 0) (.action 1)] = .ok _ from rfl)⟩

/-- A node allocated for a tentative edge stays: its object then reaches itself. -/
theorem rollbackChanges_keeps_nodes :
    ¬ ∀ (ops : List Op) (es : List Edit) (g g' : CycleGraph),
      run op empty (ops ++ [.change .startChanges]) = .ok g →
      run CycleGraph.edit g es = .ok g' →
      ∀ x y, g'.rollbackChanges.checkReachable x y = g.checkReachable x y := by
  intro h
  have hself := h [] [.addEdge (.action 0) (.action 1)] _ _ rfl rfl (.action 0) (.action 0)
  revert hself
  decide

end CycleGraph
end CdsChecker
