import CdsChecker.CycleGraphInvariant
import CdsChecker.Library.OrderGraphPull

/-! The order between actions and promises that a graph stands for, and how the two
insertions of the interface refine insertions into that order. -/
namespace CdsChecker
namespace CycleGraph

open Relation

/-! ### Attaching an RMW -/

theorem modifyNode_wellFormed_rmw {g : CycleGraph} (h : g.WellFormed) {n : NodeId}
    {r : Option NodeId} (hn : r.isSome → n < g.numNodes)
    (hr : ∀ m, r = some m → ∃ a, g.getNodeNoCreate (.action a) = some m) :
    (g.modifyNode n fun v => { v with hasRMW := r }).WellFormed := by
  have hl : ∀ k, (g.modifyNode n fun v => { v with hasRMW := r }).Live k ↔ g.Live k := by
    simp [Live]
  have he : ∀ k, ((g.modifyNode n fun v => { v with hasRMW := r }).node k).edges =
      (g.node k).edges := by
    intro k; rw [modifyNode_node]; split <;> rfl
  have hb : ∀ k, ((g.modifyNode n fun v => { v with hasRMW := r }).node k).backEdges =
      (g.node k).backEdges := by
    intro k; rw [modifyNode_node]; split <;> rfl
  refine ⟨?_,?_,?_,fun k hk => ?_,fun x k hx => ?_,?_,fun k m hkm => ?_⟩
  · simpa only [he] using h.edges_nodup
  · simpa only [hb] using h.backEdges_nodup
  · simpa only [he,hb] using h.mem_backEdges
  · have hu := h.unused k hk
    rw [modifyNode_node]
    split
    · rename_i hkn
      cases r with
      | none => simp [hu]
      | some m => exact ((hn rfl).not_ge (hkn ▸ hk)).elim
    · exact hu
  · have hk := h.table x k (by simpa using hx)
    refine ⟨hk.1,?_⟩
    rw [modifyNode_node]
    split <;> exact hk.2
  · simpa only [he,hl] using h.edge_live
  · simp only [modifyNode_getNodeNoCreate]
    by_cases hkn : k = n
    · exact hr m (by simpa [getRMW,hkn] using hkm)
    · exact h.rmw_action k m (by simpa [getRMW,hkn] using hkm)

/-- The copying loop only adds edges out of `r`. -/
structure Transferred (g : CycleGraph) (r : NodeId) (l : List NodeId) (g' : CycleGraph) : Prop where
  wellFormed : g'.WellFormed
  tables : SameTables g g'
  grows : Grows g g'
  edge : ∀ x y, g'.nodeOrder.edge x y ↔ g.nodeOrder.edge x y ∨ (x = r ∧ y ∈ l ∧ y ≠ r)
  next : g'.nodeOrder.next = g.nodeOrder.next
  cyclic : g'.nodeOrder.cyclic = g.nodeOrder.cyclic

theorem transferEdges_spec {g : CycleGraph} (h : g.WellFormed) {r : NodeId} (hr : g.Live r)
    (l : List NodeId) (hl : ∀ t ∈ l, g.Live t) : Transferred g r l (g.transferEdges r l) := by
  induction l generalizing g with
  | nil => exact ⟨h,.refl g,.refl g,by simp [transferEdges],rfl,rfl⟩
  | cons t rest ih =>
    have hrest : ∀ t ∈ rest, g.Live t := fun t ht => hl t (List.mem_cons_of_mem _ ht)
    by_cases htr : t = r
    · obtain ⟨hwf,htab,hgr,he,hn,hc⟩ := ih h hr hrest
      simp only [transferEdges,if_pos htr]
      refine ⟨hwf,htab,hgr,fun x y => (he x y).trans ?_,hn,hc⟩
      simp only [List.mem_cons]
      grind
    · by_cases hold : t ∈ (g.node r).edges
      · obtain ⟨hwf,htab,hgr,he,hn,hc⟩ := ih h hr hrest
        simp only [transferEdges,if_neg htr,nodeAddEdge,if_pos hold]
        refine ⟨hwf,htab,hgr,fun x y => (he x y).trans ?_,hn,hc⟩
        have hrt : g.nodeOrder.edge r t := hold
        simp only [List.mem_cons]
        grind
      · have hlt : g.Live t := hl t List.mem_cons_self
        have hwf' : WellFormed { g.pushEdge r t with
            rollbackvector := g.rollbackvector ++ [r] } :=
          (pushEdge_wellFormed h hr hlt hold).congr rfl rfl (by intro x; cases x <;> rfl)
        have htab' : SameTables g { g.pushEdge r t with
            rollbackvector := g.rollbackvector ++ [r] } :=
          ⟨rfl,by intro x; cases x <;> rfl,pushEdge_obj g r t,rfl⟩
        have hgr' := pushEdge_grows g r t g.hasCycles
        obtain ⟨hwf,htab,hgr,he,hn,hc⟩ := ih hwf' ((htab'.live r).mpr hr)
          fun t ht => (htab'.live t).mpr (hrest t ht)
        have hpush : ∀ x y, y ∈ ((g.pushEdge r t).node x).edges ↔
            y ∈ (g.node x).edges ∨ (x = r ∧ y = t) := fun x y =>
          iff_of_eq (congrFun (congrFun (pushEdge_edge g r t) x) y)
        simp only [transferEdges,if_neg htr,nodeAddEdge,if_neg hold]
        refine ⟨hwf,htab'.trans htab,hgr'.trans hgr,fun x y => (he x y).trans ?_,?_,hc⟩
        · simp only [nodeOrder,hpush,List.mem_cons]
          grind
        · exact hn.trans (funext fun x => pushEdge_getRMW g r t x)

/-- The first statement of `addRMWEdge`. -/
structure Claimed (g : CycleGraph) (w r : NodeId) (g' : CycleGraph) : Prop where
  wellFormed : g'.WellFormed
  tables : SameTables g g'
  grows : Grows g g'
  order : g'.nodeOrder = g.nodeOrder.attach w r
  edges : ∀ n, (g'.node n).edges = (g.node n).edges

theorem claimRMW_spec {g : CycleGraph} (h : g.WellFormed) {w r : NodeId} (hw : g.Live w)
    {rmw : ActionId} (hr : g.getNodeNoCreate (.action rmw) = some r) : ∃ g', Claimed g w r g' ∧
      g.attachRMW w r = g'.transferEdges r (g.node w).edges := by
  cases hn : g.getRMW w with
  | some m =>
    have hn' : g.nodeOrder.next w = some m := hn
    have hlook : ∀ x, ({ g with hasCycles := true } : CycleGraph).getNodeNoCreate x =
        g.getNodeNoCreate x := by intro x; cases x <;> rfl
    refine ⟨{ g with hasCycles := true },⟨h.congr rfl rfl hlook,⟨rfl,hlook,fun _ => rfl,rfl⟩,
      (Grows.refl g).setCycles true,?_,fun _ => rfl⟩,by simp [attachRMW,setRMW,hn]⟩
    simp only [OrderGraph.attach,hn']
    ext <;> simp [nodeOrder,getRMW]
  | none =>
    have hn' : g.nodeOrder.next w = none := hn
    let g₁ : CycleGraph := { g.modifyNode w (fun v => { v with hasRMW := some r }) with
      rmwrollbackvector := g.rmwrollbackvector ++ [w] }
    have hnode : ∀ n, g₁.node n =
        if n = w then { g.node n with hasRMW := some r } else g.node n := fun n =>
      modifyNode_node g w n fun v => { v with hasRMW := some r }
    have hlook : ∀ x, g₁.getNodeNoCreate x = g.getNodeNoCreate x := by intro x; cases x <;> rfl
    have hedges : ∀ n, (g₁.node n).edges = (g.node n).edges := by
      intro n; rw [hnode]; split <;> rfl
    have hrmw : ∀ n, g₁.getRMW n = if n = w then some r else g.getRMW n := by
      intro n; simp only [getRMW,hnode]; split <;> rfl
    have hwf : g₁.WellFormed := (modifyNode_wellFormed_rmw h (r := some r) (fun _ => h.lt hw)
      fun m hm => Option.some.inj hm ▸ ⟨rmw,hr⟩).congr rfl rfl (by intro x; cases x <;> rfl)
    refine ⟨g₁,⟨hwf,⟨rfl,hlook,fun n => ?_,rfl⟩,⟨le_rfl,
      fun x n hx => (hlook x).trans hx,fun x n hx hn => by simp [hlook,hx] at hn,rfl,
      ⟨[],fun _ => [],(List.append_nil _).symm,by simp [hedges]⟩,
      ⟨[w],rfl,fun n => ⟨fun hnw => ?_,fun hnw => ?_⟩⟩⟩,?_,hedges⟩,
      by simp [g₁,attachRMW,setRMW,hn,modifyNode,setNode]⟩
    · rw [hnode]; split <;> rfl
    · rw [hrmw,if_neg (by simpa using hnw)]
    · obtain rfl : n = w := by simpa using hnw
      exact ⟨hn,by simp [hrmw],hw.imp fun x hx => (hlook x).trans hx⟩
    · simp only [OrderGraph.attach,hn']
      ext x y
      · simp [nodeOrder,hedges]
      · simp [nodeOrder,hrmw,Function.update_apply]
      · rfl

/-- Claiming the write and transferring its edges is the abstract `attach` and `transfer`. -/
theorem attachRMW_spec {g : CycleGraph} (h : g.WellFormed) {w r : NodeId} (hw : g.Live w)
    {rmw : ActionId} (hr : g.getNodeNoCreate (.action rmw) = some r) :
    (g.attachRMW w r).WellFormed ∧ SameTables g (g.attachRMW w r) ∧ Grows g (g.attachRMW w r) ∧
      (g.attachRMW w r).nodeOrder = (g.nodeOrder.attach w r).transfer w r := by
  obtain ⟨g₁,hc,hg⟩ := claimRMW_spec h hw hr
  have hlive : ∀ t ∈ (g.node w).edges, g₁.Live t := fun t ht =>
    (hc.tables.live t).mpr (h.edge_live w t ht).2
  have ht := transferEdges_spec hc.wellFormed ((hc.tables.live r).mpr ⟨_,hr⟩) _ hlive
  rw [hg]
  refine ⟨ht.wellFormed,hc.tables.trans ht.tables,hc.grows.trans ht.grows,?_⟩
  ext x y
  · rw [ht.edge,hc.order]
    simp [OrderGraph.transfer,nodeOrder]
  · rw [ht.next,hc.order]
    rfl
  · rw [ht.cyclic,hc.order]
    rfl

/-! ### The order between objects -/

theorem WellFormed.naming {g : CycleGraph} (h : g.WellFormed) :
    OrderGraph.Naming g.getNodeNoCreate (fun n => (g.node n).obj) g.nodeOrder where
  name_find := fun hx => (h.table _ _ hx).2
  edge_source := fun he => (h.edge_live _ _ he).1
  edge_target := fun he => (h.edge_live _ _ he).2
  next_target := fun hn => h.rmw_live hn

/-- What the graph says about actions and promises. An object without a node is unordered. -/
def order (g : CycleGraph) : OrderGraph GraphObj :=
  g.nodeOrder.pull g.getNodeNoCreate fun n => (g.node n).obj

theorem order_of_sameTables {g g' : CycleGraph} (h : SameTables g g') :
    g'.order = g'.nodeOrder.pull g.getNodeNoCreate fun n => (g.node n).obj := by
  have hf : g'.getNodeNoCreate = g.getNodeNoCreate := funext h.lookup
  have ho : (fun n => (g'.node n).obj) = fun n => (g.node n).obj := funext h.obj
  rw [order,hf,ho]

/-- Allocating a node orders nothing. -/
theorem getNode_order {g : CycleGraph} (h : g.WellFormed) (x : GraphObj) :
    (g.getNode x).1.order = g.order := by
  have hname := (getNode_wellFormed h x).naming
  have ho := getNode_nodeOrder h x
  rw [ho] at hname
  rw [order,ho]
  refine h.naming.pull_extend hname (getNode_grows h x).lookup fun a m ha hm => ?_
  rw [getNode_getNodeNoCreate] at hm
  by_cases hax : a = x
  · subst hax
    rw [getNode_of_none ha] at hm
    obtain rfl : g.numNodes = m := by simpa using hm
    simp [nodeOrder,getRMW,h.unused g.numNodes le_rfl]
  · simp [hax,ha] at hm

/-- Two distinct objects reach each other in the graph when the order says so. -/
theorem checkReachable_iff {g : CycleGraph} (h : g.WellFormed) {x y : GraphObj} (hxy : x ≠ y) :
    g.checkReachable x y = true ↔ ReflTransGen g.order.edge x y := by
  cases hx : g.getNodeNoCreate x with
  | none =>
    simp only [checkReachable,hx]
    refine ⟨by simp,fun hr => ?_⟩
    rcases ReflTransGen.cases_head hr with rfl | ⟨z,⟨m,n,hm,_⟩,_⟩
    · exact (hxy rfl).elim
    · simp [hx] at hm
  | some m =>
    cases hy : g.getNodeNoCreate y with
    | none =>
      simp only [checkReachable,hx,hy]
      refine ⟨by simp,fun hr => ?_⟩
      obtain ⟨n,hn,_⟩ := OrderGraph.pull_reach_find hx hr
      simp [hy] at hn
    | some n =>
      simp only [checkReachable,hx,hy]
      rw [checkReachableNode_iff h (h.table x m hx).1]
      exact (h.naming.reach_iff hx hy).symm

/-- The outcome of a completed insertion between objects. -/
structure Added (g g' : CycleGraph) (R : OrderGraph GraphObj → OrderGraph GraphObj → Prop) :
    Prop where
  wellFormed : g'.WellFormed
  grows : Grows g g'
  order : R g.order g'.order

/-- Two objects get their nodes. -/
theorem getNode_getNode {g : CycleGraph} (h : g.WellFormed) (x y : GraphObj) :
    ∃ g₁ m n, g.getNode x = ((g.getNode x).1,m) ∧ (g.getNode x).1.getNode y = (g₁,n) ∧
      g₁.WellFormed ∧ Grows g g₁ ∧ g₁.order = g.order ∧
      g₁.getNodeNoCreate x = some m ∧ g₁.getNodeNoCreate y = some n := by
  have hwf := getNode_wellFormed h x
  have hgr := getNode_grows hwf y
  refine ⟨((g.getNode x).1.getNode y).1,(g.getNode x).2,((g.getNode x).1.getNode y).2,rfl,rfl,
    getNode_wellFormed hwf y,(getNode_grows h x).trans hgr,?_,hgr.lookup x _ ?_,?_⟩
  · rw [getNode_order hwf,getNode_order h]
  · simp [getNode_getNodeNoCreate]
  · simp [getNode_getNodeNoCreate]

theorem addNodeEdge_order {g g' : CycleGraph} {x y : GraphObj} {m n : NodeId} {new : Bool}
    (h : g.WellFormed) (hx : g.getNodeNoCreate x = some m) (hy : g.getNodeNoCreate y = some n)
    (hg : g.addNodeEdge m n = .ok (g',new)) :
    Added g g' fun o o' => OrderGraph.AddEdge o x y o' := by
  obtain ⟨hwf,htab,hgr,_,_,ho⟩ := addNodeEdge_spec h ⟨x,hx⟩ ⟨y,hy⟩ hg
  refine ⟨hwf,hgr,?_⟩
  rw [order_of_sameTables htab]
  exact h.naming.addEdge hx hy ho

/-- `addEdge` orders its two objects. -/
theorem addEdge_spec {g g' : CycleGraph} {x y : GraphObj} {new : Bool} (h : g.WellFormed)
    (hg : g.addEdge x y = .ok (g',new)) :
    Added g g' fun o o' => OrderGraph.AddEdge o x y o' := by
  obtain ⟨g₁,m,n,hm,hn,hwf,hgr,ho,hx,hy⟩ := getNode_getNode h x y
  rw [addEdge,hm] at hg
  simp only [hn] at hg
  obtain ⟨hwf',hgr',ho'⟩ := addNodeEdge_order hwf hx hy hg
  exact ⟨hwf',hgr.trans hgr',ho ▸ ho'⟩

theorem addEdge_total {g : CycleGraph} {x y : GraphObj} (h : g.WellFormed)
    {o : OrderGraph GraphObj} (ha : OrderGraph.AddEdge g.order x y o) :
    ∃ g' new, g.addEdge x y = .ok (g',new) := by
  obtain ⟨g₁,m,n,hm,hn,hwf,_,ho,hx,hy⟩ := getNode_getNode h x y
  rw [← ho] at ha
  obtain ⟨_,hO⟩ := hwf.naming.exists_addEdge hx hy ha
  rw [addEdge,hm]
  simp only [hn]
  exact addNodeEdge_total hwf ⟨x,hx⟩ ⟨y,hy⟩ hO

theorem addEdge_error {g : CycleGraph} {x y : GraphObj} {e : Failure}
    (h : g.addEdge x y = .error e) : e = .diverges := addNodeEdge_error h

/-- The order's view of an RMW node nothing reads from. -/
theorem order_next_none {g : CycleGraph} (h : g.WellFormed) {x : GraphObj} {n : NodeId}
    (hx : g.getNodeNoCreate x = some n) : g.order.next x = none ↔ g.getRMW n = none :=
  h.naming.next_none hx

theorem order_next_some {g : CycleGraph} (h : g.WellFormed) {x y : GraphObj} {m n : NodeId}
    (hx : g.getNodeNoCreate x = some m) (hy : g.getNodeNoCreate y = some n) :
    g.order.next x = some y ↔ g.getRMW m = some n := h.naming.next_iff hx hy

/-- `addRMWEdge` makes the RMW the exclusive successor of what it reads from. -/
theorem addRMWEdge_spec {g g' : CycleGraph} {x : GraphObj} {rmw : ActionId} (h : g.WellFormed)
    (hg : g.addRMWEdge x rmw = .ok g') :
    Added g g' (fun o o' => OrderGraph.AddNext o x (.action rmw) o') ∧
      g.order.next (.action rmw) = none := by
  obtain ⟨g₁,m,n,hm,hn,hwf,hgr,ho,hx,hy⟩ := getNode_getNode h x (.action rmw)
  rw [addRMWEdge,hm] at hg
  simp only [hn,bind_eq_ok,assert_eq_ok,pure_eq_ok] at hg
  obtain ⟨_,hnone,⟨g₂,new⟩,hadd,rfl⟩ := hg
  obtain ⟨hwf₂,htab,hgr₂,ho₂⟩ := attachRMW_spec hwf ⟨x,hx⟩ hy
  obtain ⟨hwf₃,htab₃,hgr₃,_,_,ho₃⟩ := addNodeEdge_spec hwf₂ ((htab.live m).mpr ⟨x,hx⟩)
    ((htab.live n).mpr ⟨_,hy⟩) hadd
  rw [ho₂] at ho₃
  refine ⟨⟨hwf₃,(hgr.trans hgr₂).trans hgr₃,?_⟩,?_⟩
  · rw [order_of_sameTables (htab.trans htab₃),← ho]
    exact hwf.naming.addNext hx hy ho₃
  · rw [← ho]
    exact (order_next_none hwf hy).mpr (by simpa using hnone)

theorem addRMWEdge_total {g : CycleGraph} {x : GraphObj} {rmw : ActionId} (h : g.WellFormed)
    (hr : g.order.next (.action rmw) = none) {o : OrderGraph GraphObj}
    (ha : OrderGraph.AddNext g.order x (.action rmw) o) : ∃ g', g.addRMWEdge x rmw = .ok g' := by
  obtain ⟨g₁,m,n,hm,hn,hwf,_,ho,hx,hy⟩ := getNode_getNode h x (.action rmw)
  rw [← ho] at ha hr
  have hnone : g₁.getRMW n = none := (order_next_none hwf hy).mp hr
  obtain ⟨hwf₂,htab,_,ho₂⟩ := attachRMW_spec hwf ⟨x,hx⟩ hy
  obtain ⟨_,hO⟩ := hwf.naming.exists_addNext hx hy ha
  rw [OrderGraph.AddNext,← ho₂] at hO
  obtain ⟨g',new,hg'⟩ := addNodeEdge_total hwf₂ ((htab.live m).mpr ⟨x,hx⟩)
    ((htab.live n).mpr ⟨_,hy⟩) hO
  refine ⟨g',?_⟩
  rw [addRMWEdge,hm]
  simp only [hn,hnone,bind_eq_ok,assert_eq_ok,pure_eq_ok]
  exact ⟨(),by simp,_,hg',rfl⟩

/-- The failed assertion is that something reads from the RMW already. -/
theorem addRMWEdge_error {g : CycleGraph} {x : GraphObj} {rmw : ActionId} {e : Failure}
    (h : g.WellFormed) (hg : g.addRMWEdge x rmw = .error e) :
    (e = .diverges ∧ g.order.next (.action rmw) = none) ∨
      (e = .assertion ∧ g.order.next (.action rmw) ≠ none) := by
  obtain ⟨g₁,m,n,hm,hn,hwf,_,ho,hx,hy⟩ := getNode_getNode h x (.action rmw)
  have hnext := order_next_none hwf hy
  rw [ho] at hnext
  rw [addRMWEdge,hm] at hg
  simp only [hn,bind_eq_error,assert_eq_error,pure_ne_error] at hg
  rcases hg with ⟨hsome,rfl⟩ | ⟨_,hnone,hadd | ⟨_,_,h⟩⟩
  · right
    refine ⟨rfl,fun hr => ?_⟩
    rw [hnext.mp hr] at hsome
    cases hsome
  · left
    have hr : (g₁.getRMW n).isNone = true := assert_eq_ok.mp hnone
    exact ⟨addNodeEdge_error hadd,hnext.mpr (by simpa using hr)⟩
  · exact h.elim

end CycleGraph
end CdsChecker
