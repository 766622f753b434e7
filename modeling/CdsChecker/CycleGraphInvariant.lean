import CdsChecker.CycleGraph

/-! Well-formed graphs and what each graph operation does to the order they record. -/
namespace CdsChecker
namespace CycleGraph

open Relation

/-! ### Fields of a node after a primitive update -/

@[simp] theorem modifyNode_node (g : CycleGraph) (n m : NodeId) (f : CycleNode → CycleNode) :
    (g.modifyNode n f).node m = if m = n then f (g.node m) else g.node m := by
  by_cases h : m = n
  · subst h; simp [modifyNode,setNode]
  · simp [modifyNode,setNode,h]

@[simp] theorem modifyNode_getNodeNoCreate (g : CycleGraph) (n : NodeId)
    (f : CycleNode → CycleNode) (x : GraphObj) :
    (g.modifyNode n f).getNodeNoCreate x = g.getNodeNoCreate x := by cases x <;> rfl

@[simp] theorem pushEdge_edges (g : CycleGraph) (a b n : NodeId) :
    ((g.pushEdge a b).node n).edges =
      if n = a then (g.node n).edges ++ [b] else (g.node n).edges := by
  simp only [pushEdge,modifyNode_node]
  split <;> split <;> rfl

@[simp] theorem pushEdge_backEdges (g : CycleGraph) (a b n : NodeId) :
    ((g.pushEdge a b).node n).backEdges =
      if n = b then (g.node n).backEdges ++ [a] else (g.node n).backEdges := by
  simp only [pushEdge,modifyNode_node]
  split <;> split <;> rfl

@[simp] theorem pushEdge_getRMW (g : CycleGraph) (a b n : NodeId) :
    (g.pushEdge a b).getRMW n = g.getRMW n := by
  simp only [getRMW,pushEdge,modifyNode_node]
  split <;> split <;> rfl

@[simp] theorem pushEdge_obj (g : CycleGraph) (a b n : NodeId) :
    ((g.pushEdge a b).node n).obj = (g.node n).obj := by
  simp only [pushEdge,modifyNode_node]
  split <;> split <;> rfl

/-! ### Well-formed graphs -/

/-- A node in use: some object maps to it. -/
def Live (g : CycleGraph) (n : NodeId) : Prop := ∃ x, g.getNodeNoCreate x = some n

/-- Edge lists hold no duplicates and agree in both directions, edges join nodes in use, RMW
links lead to nodes of actions, and the lookup tables agree with the nodes' own fields. -/
structure WellFormed (g : CycleGraph) : Prop where
  edges_nodup : ∀ n, (g.node n).edges.Nodup
  backEdges_nodup : ∀ n, (g.node n).backEdges.Nodup
  mem_backEdges : ∀ m n, m ∈ (g.node n).backEdges ↔ n ∈ (g.node m).edges
  unused : ∀ n, g.numNodes ≤ n → g.node n = {}
  table : ∀ x n, g.getNodeNoCreate x = some n → n < g.numNodes ∧ (g.node n).obj = some x
  edge_live : ∀ m n, n ∈ (g.node m).edges → g.Live m ∧ g.Live n
  rmw_action : ∀ m n, g.getRMW m = some n → ∃ a, g.getNodeNoCreate (.action a) = some n

namespace WellFormed

variable {g : CycleGraph}

theorem lt (h : g.WellFormed) {n : NodeId} (hn : g.Live n) : n < g.numNodes := by
  obtain ⟨x,hx⟩ := hn
  exact (h.table x n hx).1

theorem rmw_live (h : g.WellFormed) {m n : NodeId} (hmn : g.getRMW m = some n) : g.Live n := by
  obtain ⟨a,ha⟩ := h.rmw_action m n hmn
  exact ⟨_,ha⟩

theorem edge_lt (h : g.WellFormed) {m n : NodeId} (hmn : n ∈ (g.node m).edges) :
    n < g.numNodes := h.lt (h.edge_live m n hmn).2

/-- Two objects never share a node. -/
theorem obj_unique (h : g.WellFormed) {x y : GraphObj} {n : NodeId}
    (hx : g.getNodeNoCreate x = some n) (hy : g.getNodeNoCreate y = some n) : x = y :=
  Option.some.inj ((h.table x n hx).2.symm.trans (h.table y n hy).2)

theorem empty : WellFormed empty where
  edges_nodup := by simp [CycleGraph.empty]
  backEdges_nodup := by simp [CycleGraph.empty]
  mem_backEdges := by simp [CycleGraph.empty]
  unused := by simp [CycleGraph.empty]
  table := by intro x n h; cases x <;> simp [CycleGraph.empty,getNodeNoCreate] at h
  edge_live := by simp [CycleGraph.empty]
  rmw_action := by simp [CycleGraph.empty,getRMW]

end WellFormed

/-- The order constraints a graph records between its nodes. -/
def nodeOrder (g : CycleGraph) : OrderGraph NodeId where
  edge := fun m n => n ∈ (g.node m).edges
  next := g.getRMW
  cyclic := g.hasCycles = true

/-- The search decides reachability. -/
theorem checkReachableNode_iff {g : CycleGraph} (h : g.WellFormed) {a b : NodeId}
    (ha : a < g.numNodes) :
    g.checkReachableNode a b = true ↔ ReflTransGen g.nodeOrder.edge a b := by
  have hU : ∀ x ∈ Finset.range g.numNodes, ∀ y ∈ (g.node x).edges, y ∈ Finset.range g.numNodes :=
    fun x _ y hy => Finset.mem_range.mpr (h.edge_lt hy)
  have hcard : (Finset.range g.numNodes).card < g.numNodes + 1 := by simp
  rw [checkReachableNode,Worklist.visit_found_iff hU (Finset.mem_range.mpr ha) hcard]
  constructor
  · rintro ⟨x,hx,hxb⟩
    rwa [← beq_iff_eq.mp hxb]
  · intro hab
    exact ⟨b,hab,by simp⟩

/-! ### Allocation -/

theorem getNode_of_some {g : CycleGraph} {x : GraphObj} {n : NodeId}
    (h : g.getNodeNoCreate x = some n) : g.getNode x = (g,n) := by
  simp [getNode,h]

theorem getNode_of_none {g : CycleGraph} {x : GraphObj} (h : g.getNodeNoCreate x = none) :
    g.getNode x =
      (({ g with numNodes := g.numNodes + 1 }.setNode g.numNodes (.ofObj x)).putNode x g.numNodes,
        g.numNodes) := by
  simp [getNode,h]

@[simp] theorem putNode_node (g : CycleGraph) (x : GraphObj) (n : NodeId) :
    (g.putNode x n).node = g.node := by cases x <;> rfl

@[simp] theorem putNode_numNodes (g : CycleGraph) (x : GraphObj) (n : NodeId) :
    (g.putNode x n).numNodes = g.numNodes := by cases x <;> rfl

theorem putNode_getNodeNoCreate (g : CycleGraph) (x y : GraphObj) (n : NodeId) :
    (g.putNode x n).getNodeNoCreate y = if y = x then some n else g.getNodeNoCreate y := by
  cases x <;> cases y <;> simp [putNode,getNodeNoCreate,Function.update_apply]

theorem ofObj_obj (x : GraphObj) : (CycleNode.ofObj x).obj = some x := by cases x <;> rfl

/-- The fields of a graph that allocation and insertion leave alone. -/
structure SameLog (g g' : CycleGraph) : Prop where
  hasCycles : g'.hasCycles = g.hasCycles
  oldCycles : g'.oldCycles = g.oldCycles
  rollbackvector : g'.rollbackvector = g.rollbackvector
  rmwrollbackvector : g'.rmwrollbackvector = g.rmwrollbackvector

theorem getNode_sameLog (g : CycleGraph) (x : GraphObj) : SameLog g (g.getNode x).1 := by
  cases h : g.getNodeNoCreate x with
  | some n => rw [getNode_of_some h]; exact ⟨rfl,rfl,rfl,rfl⟩
  | none => rw [getNode_of_none h]; cases x <;> exact ⟨rfl,rfl,rfl,rfl⟩

/-- An object's node is found afterwards, and other objects keep theirs. -/
theorem getNode_getNodeNoCreate (g : CycleGraph) (x y : GraphObj) :
    (g.getNode x).1.getNodeNoCreate y =
      if y = x then some (g.getNode x).2 else g.getNodeNoCreate y := by
  cases h : g.getNodeNoCreate x with
  | some n =>
    rw [getNode_of_some h]
    by_cases hy : y = x
    · subst hy; simp [h]
    · simp [hy]
  | none =>
    rw [getNode_of_none h,putNode_getNodeNoCreate]
    rfl

theorem getNode_lookup_mono (g : CycleGraph) (x : GraphObj) {y : GraphObj} {n : NodeId}
    (hy : g.getNodeNoCreate y = some n) : (g.getNode x).1.getNodeNoCreate y = some n := by
  rw [getNode_getNodeNoCreate]
  by_cases hyx : y = x
  · subst hyx; rw [getNode_of_some hy]; simp
  · simpa [hyx] using hy

theorem getNode_live_mono (g : CycleGraph) (x : GraphObj) {n : NodeId} (h : g.Live n) :
    (g.getNode x).1.Live n := h.imp fun _ => getNode_lookup_mono g x

/-- Allocation leaves every edge list and RMW link as it is. -/
theorem getNode_node (h : WellFormed g) (x : GraphObj) (n : NodeId) :
    ((g.getNode x).1.node n).edges = (g.node n).edges ∧
      ((g.getNode x).1.node n).backEdges = (g.node n).backEdges ∧
      (g.getNode x).1.getRMW n = g.getRMW n := by
  cases hx : g.getNodeNoCreate x with
  | some m => rw [getNode_of_some hx]; simp
  | none =>
    rw [getNode_of_none hx]
    by_cases hn : n = g.numNodes
    · subst hn
      have hu := h.unused _ le_rfl
      cases x <;> simp [getRMW,setNode,hu,CycleNode.ofObj]
    · simp [getRMW,setNode,hn]

theorem getNode_nodeOrder (h : WellFormed g) (x : GraphObj) :
    (g.getNode x).1.nodeOrder = g.nodeOrder := by
  ext m n
  · simp [nodeOrder,(getNode_node h x m).1]
  · simp [nodeOrder,(getNode_node h x m).2.2]
  · simp [nodeOrder,(getNode_sameLog g x).hasCycles]

theorem getNode_wellFormed (h : WellFormed g) (x : GraphObj) : (g.getNode x).1.WellFormed := by
  refine ⟨fun n => ?_,fun n => ?_,fun m n => ?_,fun n hn => ?_,fun y n hy => ?_,
    fun m n hmn => ?_,fun m n hmn => ?_⟩
  · rw [(getNode_node h x n).1]; exact h.edges_nodup n
  · rw [(getNode_node h x n).2.1]; exact h.backEdges_nodup n
  · rw [(getNode_node h x n).2.1,(getNode_node h x m).1]; exact h.mem_backEdges m n
  · cases hx : g.getNodeNoCreate x with
    | some k => rw [getNode_of_some hx] at hn ⊢; exact h.unused n hn
    | none =>
      rw [getNode_of_none hx] at hn ⊢
      have hlt : g.numNodes < n := by simpa [setNode] using hn
      simpa [setNode,hlt.ne'] using h.unused n hlt.le
  · cases hx : g.getNodeNoCreate x with
    | some k => rw [getNode_of_some hx] at hy ⊢; exact h.table y n hy
    | none =>
      rw [getNode_of_none hx] at hy ⊢
      rw [putNode_getNodeNoCreate] at hy
      by_cases hyx : y = x
      · subst hyx
        simp only [if_true,Option.some.injEq] at hy
        subst hy
        simp [setNode,ofObj_obj]
      · simp only [hyx,if_false] at hy
        have hn := h.table y n hy
        simp only [putNode_numNodes,putNode_node,setNode,Function.update_of_ne hn.1.ne]
        exact ⟨Nat.lt_succ_of_lt hn.1,hn.2⟩
  · rw [(getNode_node h x m).1] at hmn
    exact (h.edge_live m n hmn).imp (getNode_live_mono g x) (getNode_live_mono g x)
  · rw [(getNode_node h x m).2.2] at hmn
    obtain ⟨a,ha⟩ := h.rmw_action m n hmn
    exact ⟨a,getNode_lookup_mono g x ha⟩

/-! ### Growth

Between two commits a graph only grows: every edge and every RMW link that appears is
logged under the node that gained it. -/

structure Grows (g g' : CycleGraph) : Prop where
  numNodes : g.numNodes ≤ g'.numNodes
  lookup : ∀ x n, g.getNodeNoCreate x = some n → g'.getNodeNoCreate x = some n
  fresh : ∀ x n, g.getNodeNoCreate x = none → g'.getNodeNoCreate x = some n → g.numNodes ≤ n
  oldCycles : g'.oldCycles = g.oldCycles
  edges : ∃ (log : List NodeId) (ext : NodeId → List NodeId),
    g'.rollbackvector = g.rollbackvector ++ log ∧
      ∀ n, (g'.node n).edges = (g.node n).edges ++ ext n ∧ (ext n).length = log.count n
  rmw : ∃ log : List NodeId, g'.rmwrollbackvector = g.rmwrollbackvector ++ log ∧
    ∀ n, (n ∉ log → g'.getRMW n = g.getRMW n) ∧
      (n ∈ log → g.getRMW n = none ∧ (g'.getRMW n).isSome ∧ g'.Live n)

namespace Grows

variable {g g' g'' : CycleGraph}

/-- Nothing logged, nothing changed but the allocation of nodes. -/
theorem of_same (hnum : g.numNodes ≤ g'.numNodes)
    (hl : ∀ x n, g.getNodeNoCreate x = some n → g'.getNodeNoCreate x = some n)
    (hf : ∀ x n, g.getNodeNoCreate x = none → g'.getNodeNoCreate x = some n → g.numNodes ≤ n)
    (ho : g'.oldCycles = g.oldCycles) (he : ∀ n, (g'.node n).edges = (g.node n).edges)
    (hr : ∀ n, g'.getRMW n = g.getRMW n) (hlog : g'.rollbackvector = g.rollbackvector)
    (hrlog : g'.rmwrollbackvector = g.rmwrollbackvector) : Grows g g' where
  numNodes := hnum
  lookup := hl
  fresh := hf
  oldCycles := ho
  edges := ⟨[],fun _ => [],by simp [hlog],by simp [he]⟩
  rmw := ⟨[],by simp [hrlog],by simp [hr]⟩

theorem refl (g : CycleGraph) : Grows g g :=
  of_same le_rfl (fun _ _ h => h) (fun x n hx hx' => by simp [hx] at hx') rfl (fun _ => rfl)
    (fun _ => rfl) rfl rfl

theorem trans (h : Grows g g') (h' : Grows g' g'') : Grows g g'' where
  numNodes := h.numNodes.trans h'.numNodes
  lookup := fun x n hx => h'.lookup x n (h.lookup x n hx)
  fresh := by
    intro x n hx hn
    cases hx' : g'.getNodeNoCreate x with
    | none => exact h.numNodes.trans (h'.fresh x n hx' hn)
    | some m =>
      obtain rfl := Option.some.inj ((h'.lookup x m hx').symm.trans hn)
      exact h.fresh x m hx hx'
  oldCycles := h'.oldCycles.trans h.oldCycles
  edges := by
    obtain ⟨log,ext,hlog,hext⟩ := h.edges
    obtain ⟨log',ext',hlog',hext'⟩ := h'.edges
    refine ⟨log ++ log',fun n => ext n ++ ext' n,by simp [hlog,hlog'],fun n => ?_⟩
    simp [(hext n).1,(hext n).2,(hext' n).1,(hext' n).2]
  rmw := by
    obtain ⟨log,hlog,hrmw⟩ := h.rmw
    obtain ⟨log',hlog',hrmw'⟩ := h'.rmw
    refine ⟨log ++ log',by simp [hlog,hlog'],fun n => ⟨fun hn => ?_,fun hn => ?_⟩⟩
    · rw [List.mem_append,not_or] at hn
      rw [(hrmw' n).1 hn.2,(hrmw n).1 hn.1]
    · by_cases hn' : n ∈ log'
      · have hnone := ((hrmw' n).2 hn').1
        have hnl : n ∉ log := fun h => by simpa [hnone] using ((hrmw n).2 h).2.1
        exact ⟨(hrmw n).1 hnl ▸ hnone,((hrmw' n).2 hn').2⟩
      · have hnl : n ∈ log := (List.mem_append.mp hn).resolve_right hn'
        obtain ⟨hnone,hsome,hlive⟩ := (hrmw n).2 hnl
        exact ⟨hnone,(hrmw' n).1 hn' ▸ hsome,hlive.imp fun x hx => h'.lookup x n hx⟩

/-- The flag is not part of what grows. -/
theorem setCycles (h : Grows g g') (b : Bool) : Grows g { g' with hasCycles := b } := by
  have hlook : ∀ x, ({ g' with hasCycles := b } : CycleGraph).getNodeNoCreate x =
      g'.getNodeNoCreate x := by intro x; cases x <;> rfl
  refine ⟨h.numNodes,fun x n hx => (hlook x).trans (h.lookup x n hx),
    fun x n hx hn => h.fresh x n hx ((hlook x).symm.trans hn),h.oldCycles,h.edges,
    h.rmw.imp fun log hlog => ⟨hlog.1,fun n => ⟨(hlog.2 n).1,fun hn => ?_⟩⟩⟩
  obtain ⟨hnone,hsome,hlive⟩ := (hlog.2 n).2 hn
  exact ⟨hnone,hsome,hlive.imp fun x hx => (hlook x).trans hx⟩

theorem live (h : Grows g g') {n : NodeId} (hn : g.Live n) : g'.Live n :=
  hn.imp fun x hx => h.lookup x n hx

end Grows

theorem getNode_grows {g : CycleGraph} (h : g.WellFormed) (x : GraphObj) :
    Grows g (g.getNode x).1 := by
  have hlog := getNode_sameLog g x
  refine .of_same ?_ (fun y n hy => getNode_lookup_mono g x hy) (fun y n hy hn => ?_)
    hlog.oldCycles (fun n => (getNode_node h x n).1) (fun n => (getNode_node h x n).2.2)
    hlog.rollbackvector
    hlog.rmwrollbackvector
  · cases hx : g.getNodeNoCreate x with
    | some k => rw [getNode_of_some hx]
    | none => rw [getNode_of_none hx]; simp [setNode]
  · rw [getNode_getNodeNoCreate] at hn
    by_cases hyx : y = x
    · subst hyx
      rw [getNode_of_none hy] at hn
      exact (by simpa using hn : g.numNodes = n).le
    · simp [hyx,hy] at hn

/-- A new edge logged under its source. -/
theorem pushEdge_grows (g : CycleGraph) (a b : NodeId) (c : Bool) :
    Grows g { g.pushEdge a b with rollbackvector := g.rollbackvector ++ [a],hasCycles := c } where
  numNodes := le_rfl
  lookup := by intro x n hx; cases x <;> exact hx
  fresh := by
    intro x n hx hn
    have hlook : g.getNodeNoCreate x = some n := by cases x <;> exact hn
    simp [hx] at hlook
  oldCycles := rfl
  edges := by
    refine ⟨[a],fun n => if n = a then [b] else [],rfl,fun n => ?_⟩
    by_cases hn : n = a
    · subst hn; simp
    · simp [hn,Ne.symm hn]
  rmw := ⟨[],by simp [pushEdge,modifyNode,setNode],
    fun n => ⟨fun _ => pushEdge_getRMW g a b n,by simp⟩⟩

/-! ### Inserting an edge -/

theorem pushEdge_live (g : CycleGraph) (a b n : NodeId) :
    (g.pushEdge a b).Live n ↔ g.Live n := by
  simp [Live,pushEdge]

theorem pushEdge_edge (g : CycleGraph) (a b : NodeId) :
    (g.pushEdge a b).nodeOrder.edge = OrderGraph.insertEdge g.nodeOrder.edge a b := by
  funext m n
  by_cases hm : m = a <;> simp [nodeOrder,OrderGraph.insertEdge,hm]

theorem pushEdge_wellFormed {g : CycleGraph} (h : g.WellFormed) {a b : NodeId} (ha : g.Live a)
    (hb : g.Live b) (hab : b ∉ (g.node a).edges) : (g.pushEdge a b).WellFormed := by
  have hba : a ∉ (g.node b).backEdges := fun hm => hab ((h.mem_backEdges a b).mp hm)
  refine ⟨fun n => ?_,fun n => ?_,fun m n => ?_,fun n hn => ?_,fun x n hx => ?_,
    fun m n hmn => ?_,fun m n hmn => ?_⟩
  · by_cases hn : n = a
    · subst hn
      simpa [List.nodup_append] using ⟨h.edges_nodup n,fun x hx he => hab (he ▸ hx)⟩
    · simpa [hn] using h.edges_nodup n
  · by_cases hn : n = b
    · subst hn
      simpa [List.nodup_append] using ⟨h.backEdges_nodup n,fun x hx he => hba (he ▸ hx)⟩
    · simpa [hn] using h.backEdges_nodup n
  · have := h.mem_backEdges m n
    by_cases hm : m = a <;> by_cases hn : n = b <;> simp [hm,hn] <;> simp_all
  · have hna : n ≠ a := ((h.lt ha).trans_le hn).ne'
    have hnb : n ≠ b := ((h.lt hb).trans_le hn).ne'
    simpa [pushEdge,hna,hnb] using h.unused n hn
  · rw [pushEdge_obj]
    exact h.table x n (by simpa [pushEdge] using hx)
  · rw [pushEdge_live,pushEdge_live]
    have hmn : OrderGraph.insertEdge g.nodeOrder.edge a b m n := by
      rw [← pushEdge_edge]; exact hmn
    rcases hmn with hmn | ⟨rfl,rfl⟩
    · exact h.edge_live m n hmn
    · exact ⟨ha,hb⟩
  · obtain ⟨c,hc⟩ := h.rmw_action m n (by simpa using hmn)
    exact ⟨c,by simpa [pushEdge] using hc⟩

/-- Logging and the flag play no part in being well formed. -/
theorem WellFormed.congr {g g' : CycleGraph} (h : g.WellFormed) (hn : g'.node = g.node)
    (hnum : g'.numNodes = g.numNodes)
    (ht : ∀ x, g'.getNodeNoCreate x = g.getNodeNoCreate x) : g'.WellFormed := by
  have hl : ∀ n, g'.Live n ↔ g.Live n := by simp [Live,ht]
  refine ⟨?_,?_,?_,?_,?_,?_,?_⟩
  · rw [hn]; exact h.edges_nodup
  · rw [hn]; exact h.backEdges_nodup
  · rw [hn]; exact h.mem_backEdges
  · rw [hn,hnum]; exact h.unused
  · simp only [hn,hnum,ht]; exact h.table
  · simp only [hn,hl]; exact h.edge_live
  · simp only [getRMW,hn,ht]; exact h.rmw_action

theorem insertEdge_old {g : CycleGraph} {a b : NodeId} (h : b ∈ (g.node a).edges) :
    g.insertEdge a b = (g,false) := by
  simp [insertEdge,nodeAddEdge,h]

theorem insertEdge_new {g : CycleGraph} {a b : NodeId} (h : b ∉ (g.node a).edges) :
    g.insertEdge a b =
      ({ g.pushEdge a b with
          rollbackvector := g.rollbackvector ++ [a]
          hasCycles := g.hasCycles || (g.pushEdge a b).checkReachableNode b a },true) := by
  simp [insertEdge,nodeAddEdge,h,pushEdge,modifyNode,setNode]

/-- What an insertion never touches. -/
structure SameTables (g g' : CycleGraph) : Prop where
  numNodes : g'.numNodes = g.numNodes
  lookup : ∀ x, g'.getNodeNoCreate x = g.getNodeNoCreate x
  obj : ∀ n, (g'.node n).obj = (g.node n).obj
  oldCycles : g'.oldCycles = g.oldCycles

theorem SameTables.refl (g : CycleGraph) : SameTables g g := ⟨rfl,fun _ => rfl,fun _ => rfl,rfl⟩

theorem SameTables.trans {g g' g'' : CycleGraph} (h : SameTables g g') (h' : SameTables g' g'') :
    SameTables g g'' :=
  ⟨h'.numNodes.trans h.numNodes,fun x => (h'.lookup x).trans (h.lookup x),
    fun n => (h'.obj n).trans (h.obj n),h'.oldCycles.trans h.oldCycles⟩

theorem SameTables.live {g g' : CycleGraph} (h : SameTables g g') (n : NodeId) :
    g'.Live n ↔ g.Live n := by simp [Live,h.lookup]

theorem insertEdge_sameTables (g : CycleGraph) (a b : NodeId) :
    SameTables g (g.insertEdge a b).1 := by
  by_cases h : b ∈ (g.node a).edges
  · rw [insertEdge_old h]; exact .refl g
  · rw [insertEdge_new h]
    refine ⟨rfl,fun x => ?_,fun n => ?_,rfl⟩
    · cases x <;> rfl
    · exact pushEdge_obj g a b n

theorem insertEdge_getRMW (g : CycleGraph) (a b : NodeId) :
    (g.insertEdge a b).1.getRMW = g.getRMW := by
  by_cases h : b ∈ (g.node a).edges
  · rw [insertEdge_old h]
  · rw [insertEdge_new h]
    funext n
    exact pushEdge_getRMW g a b n

theorem insertEdge_backEdges (g : CycleGraph) {a b n : NodeId} (hn : n ≠ b) :
    ((g.insertEdge a b).1.node n).backEdges = (g.node n).backEdges := by
  by_cases h : b ∈ (g.node a).edges
  · rw [insertEdge_old h]
  · rw [insertEdge_new h]
    exact (pushEdge_backEdges g a b n).trans (if_neg hn)

theorem insertEdge_edges (g : CycleGraph) {a b n : NodeId} (hn : n ≠ a) :
    ((g.insertEdge a b).1.node n).edges = (g.node n).edges := by
  by_cases h : b ∈ (g.node a).edges
  · rw [insertEdge_old h]
  · rw [insertEdge_new h]
    exact (pushEdge_edges g a b n).trans (if_neg hn)

theorem insertEdge_grows (g : CycleGraph) (a b : NodeId) : Grows g (g.insertEdge a b).1 := by
  by_cases h : b ∈ (g.node a).edges
  · rw [insertEdge_old h]; exact .refl g
  · rw [insertEdge_new h]; exact pushEdge_grows g a b _

theorem insertEdge_wellFormed {g : CycleGraph} (h : g.WellFormed) {a b : NodeId} (ha : g.Live a)
    (hb : g.Live b) : (g.insertEdge a b).1.WellFormed := by
  by_cases hab : b ∈ (g.node a).edges
  · rw [insertEdge_old hab]; exact h
  · rw [insertEdge_new hab]
    exact (pushEdge_wellFormed h ha hb hab).congr rfl rfl (by intro x; cases x <;> rfl)

/-- An insertion records one constraint of the abstract order. -/
theorem insertEdge_nodeOrder {g : CycleGraph} (h : g.WellFormed) {a b : NodeId} (ha : g.Live a)
    (hb : g.Live b) : (g.insertEdge a b).1.nodeOrder = g.nodeOrder.push a b := by
  by_cases hab : b ∈ (g.node a).edges
  · rw [insertEdge_old hab,OrderGraph.push_of_edge hab]
  · rw [insertEdge_new hab]
    have hwf := pushEdge_wellFormed h ha hb hab
    have hreach : (g.pushEdge a b).checkReachableNode b a = true ↔
        ReflTransGen g.nodeOrder.edge b a := by
      rw [checkReachableNode_iff hwf (hwf.lt ((pushEdge_live g a b b).mpr hb)),pushEdge_edge,
        OrderGraph.reach_back_insertEdge_iff]
    ext m n
    · exact iff_of_eq (congrFun (congrFun (pushEdge_edge g a b) m) n)
    · exact iff_of_eq (congrArg (n ∈ ·) (pushEdge_getRMW g a b m))
    · simp only [nodeOrder,OrderGraph.push,Bool.or_eq_true,hreach,hab,not_false_eq_true,
        true_and]

/-! ### Following the RMW chain -/

theorem followRMW_eq_ok {g : CycleGraph} (h : g.WellFormed) {t r e : NodeId} (hr : g.Live r) :
    g.followRMW t r = .ok e ↔ OrderGraph.ChainEnd g.getRMW t r e := by
  have hU : ∀ x ∈ Finset.range g.numNodes, ∀ y, g.getRMW x = some y →
      y ∈ Finset.range g.numNodes :=
    fun x _ y hy => Finset.mem_range.mpr (h.lt (h.rmw_live hy))
  have hcard : (Finset.range g.numNodes).card ≤ g.numNodes + 1 := by simp
  rw [← OrderGraph.walk_eq_some_iff hU (Finset.mem_range.mpr (h.lt hr)) hcard,followRMW]
  cases OrderGraph.walk g.getRMW t (g.numNodes + 1) r <;> simp

theorem chainEnd_live {g : CycleGraph} (h : g.WellFormed) {t r e : NodeId} (hr : g.Live r)
    (he : OrderGraph.ChainEnd g.getRMW t r e) : g.Live e := by
  induction he with
  | stop => exact hr
  | last => exact hr
  | step _ hn _ ih => exact ih (h.rmw_live hn)

/-- What a completed `addNodeEdge` leaves behind. -/
structure EdgeAdded (g : CycleGraph) (a b : NodeId) (g' : CycleGraph) : Prop where
  wellFormed : g'.WellFormed
  tables : SameTables g g'
  grows : Grows g g'
  backEdges : ∀ n, n ≠ b → (g'.node n).backEdges = (g.node n).backEdges
  edges : ∀ n, n ≠ a → (∀ m, g.getRMW m ≠ some n) → (g'.node n).edges = (g.node n).edges
  order : OrderGraph.AddEdge g.nodeOrder a b g'.nodeOrder

/-- `addNodeEdge` refines the abstract insertion behind a chain of exclusive successors. -/
theorem addNodeEdge_spec {g g' : CycleGraph} (h : g.WellFormed) {a b : NodeId} {new : Bool}
    (ha : g.Live a) (hb : g.Live b) (hg : g.addNodeEdge a b = .ok (g',new)) :
    EdgeAdded g a b g' := by
  by_cases hab : b ∈ (g.node a).edges
  · obtain ⟨rfl,_⟩ : g = g' ∧ false = new := by simpa [addNodeEdge,insertEdge_old hab] using hg
    exact ⟨h,.refl g,.refl g,fun _ _ => rfl,fun _ _ _ => rfl,.old hab⟩
  · have hone := insertEdge_nodeOrder h ha hb
    have hwf := insertEdge_wellFormed h ha hb
    have htab := insertEdge_sameTables g a b
    have hrmw := insertEdge_getRMW g a b
    have hgrow := insertEdge_grows g a b
    have hback : ∀ n, n ≠ b → ((g.insertEdge a b).1.node n).backEdges = (g.node n).backEdges :=
      fun n hn => insertEdge_backEdges g hn
    have hedges : ∀ n, n ≠ a → (∀ m, g.getRMW m ≠ some n) →
        ((g.insertEdge a b).1.node n).edges = (g.node n).edges :=
      fun n hn _ => insertEdge_edges g hn
    have heq : g.insertEdge a b = ((g.insertEdge a b).1,true) := by rw [insertEdge_new hab]
    rw [addNodeEdge,heq] at hg
    simp only [hrmw] at hg
    cases hn : g.getRMW a with
    | none =>
      obtain ⟨rfl,_⟩ : (g.insertEdge a b).1 = g' ∧ true = new := by simpa [hn] using hg
      exact ⟨hwf,htab,hgrow,hback,hedges,hone ▸ .plain hab hn⟩
    | some r =>
      simp only [hn,bind_eq_ok] at hg
      obtain ⟨e,he,hg⟩ := hg
      have hr : g.Live r := h.rmw_live hn
      have hc : OrderGraph.ChainEnd g.getRMW b r e := by
        rw [← hrmw]
        exact (followRMW_eq_ok hwf ((htab.live r).mpr hr)).mp he
      by_cases heb : e = b
      · subst heb
        obtain ⟨rfl,_⟩ : (g.insertEdge a e).1 = g' ∧ true = new := by simpa using hg
        exact ⟨hwf,htab,hgrow,hback,hedges,hone ▸ .onChain hab hn hc⟩
      · obtain ⟨rfl,_⟩ : ((g.insertEdge a b).1.insertEdge e b).1 = g' ∧ true = new := by
          simpa [heb] using hg
        have hel : (g.insertEdge a b).1.Live e := (htab.live e).mpr (chainEnd_live h hr hc)
        have hbl : (g.insertEdge a b).1.Live b := (htab.live b).mpr hb
        refine ⟨insertEdge_wellFormed hwf hel hbl,
          htab.trans (insertEdge_sameTables _ e b),hgrow.trans (insertEdge_grows _ e b),
          fun n hnb => (insertEdge_backEdges _ hnb).trans (hback n hnb),fun n hna hnt => ?_,?_⟩
        · have hne : n ≠ e := by
            rintro rfl
            obtain ⟨m,hm⟩ := hc.target hn
            exact hnt m hm
          exact (insertEdge_edges _ hne).trans (hedges n hna hnt)
        · rw [insertEdge_nodeOrder hwf hel hbl,hone]
          exact .behind hab hn hc heb

/-- It returns whenever the walk along the chain ends. -/
theorem addNodeEdge_total {g : CycleGraph} (h : g.WellFormed) {a b : NodeId} (ha : g.Live a)
    (hb : g.Live b) {o : OrderGraph NodeId} (ho : OrderGraph.AddEdge g.nodeOrder a b o) :
    ∃ g' new, g.addNodeEdge a b = .ok (g',new) := by
  by_cases hab : b ∈ (g.node a).edges
  · exact ⟨g,false,by simp [addNodeEdge,insertEdge_old hab]⟩
  · have hwf := insertEdge_wellFormed h ha hb
    have htab := insertEdge_sameTables g a b
    have hrmw := insertEdge_getRMW g a b
    have heq : g.insertEdge a b = ((g.insertEdge a b).1,true) := by rw [insertEdge_new hab]
    rw [addNodeEdge,heq]
    simp only [hrmw]
    cases hn : g.getRMW a with
    | none => exact ⟨_,_,rfl⟩
    | some r =>
      have hr : (g.insertEdge a b).1.Live r := (htab.live r).mpr (h.rmw_live hn)
      have hok : ∀ e, OrderGraph.ChainEnd g.getRMW b r e →
          (g.insertEdge a b).1.followRMW b r = .ok e := by
        intro e he
        rw [followRMW_eq_ok hwf hr,hrmw]
        exact he
      cases ho with
      | old h => exact (hab h).elim
      | plain _ hn' => simp [nodeOrder,hn] at hn'
      | onChain _ hn' hc =>
        obtain rfl := Option.some.inj (hn.symm.trans hn')
        exact ⟨_,_,by simp only [hok b hc,bind,Except.bind,if_true]; rfl⟩
      | @behind r' e _ hn' hc he =>
        obtain rfl := Option.some.inj (hn.symm.trans hn')
        exact ⟨_,_,by simp only [hok e hc,bind,Except.bind,if_neg he]; rfl⟩

/-- It fails only by walking for ever. -/
theorem addNodeEdge_error {g : CycleGraph} {a b : NodeId} {e : Failure}
    (h : g.addNodeEdge a b = .error e) : e = .diverges := by
  by_cases hab : b ∈ (g.node a).edges
  · simp [addNodeEdge,insertEdge_old hab] at h
  · rw [addNodeEdge,insertEdge_new hab] at h
    dsimp only at h
    split at h
    · cases h
    · rw [bind_eq_error] at h
      rcases h with h | ⟨last,_,h⟩
      · rw [followRMW] at h
        split at h
        · cases h
        · exact (Except.error.inj h).symm
      · split at h <;> exact (pure_ne_error h).elim

end CycleGraph
end CdsChecker
