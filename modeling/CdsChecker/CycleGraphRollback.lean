import CdsChecker.CycleGraphOrder
import CdsChecker.Library.Savepoint

/-! Removing edges, and `rollbackChanges` as the return to a savepoint. -/
namespace CdsChecker
namespace CycleGraph

open Relation

/-! ### Removing one edge -/

/-- `g'` is `g` without the edge from `a` to `b`. -/
structure Unlinked (g : CycleGraph) (a b : NodeId) (g' : CycleGraph) : Prop where
  edges : ∀ n, (g'.node n).edges = if n = a then (g.node n).edges.erase b else (g.node n).edges
  backEdges : ∀ n, (g'.node n).backEdges =
    if n = b then (g.node n).backEdges.erase a else (g.node n).backEdges
  hasRMW : ∀ n, g'.getRMW n = g.getRMW n
  action : ∀ n, (g'.node n).action = (g.node n).action
  promise : ∀ n, (g'.node n).promise = (g.node n).promise
  numNodes : g'.numNodes = g.numNodes
  lookup : ∀ x, g'.getNodeNoCreate x = g.getNodeNoCreate x
  log : SameLog g g'

theorem removeEdge_none {g : CycleGraph} {n : NodeId} (h : (g.node n).edges = []) :
    g.removeEdge n = (g,none) := by simp [removeEdge,h]

/-- The newest edge goes. -/
theorem removeEdge_some {g : CycleGraph} (h : g.WellFormed) {n b : NodeId} {l : List NodeId}
    (hn : (g.node n).edges = l ++ [b]) :
    (g.removeEdge n).2 = some b ∧ Unlinked g n b (g.removeEdge n).1 := by
  have hlast : (g.node n).edges.getLast? = some b := by simp [hn]
  have hb : b ∉ l := by
    have hnd := h.edges_nodup n
    rw [hn,List.nodup_append] at hnd
    exact fun hbl => hnd.2.2 b hbl b (by simp) rfl
  have hdrop : (g.node n).edges.dropLast = (g.node n).edges.erase b := by
    simp [hn,List.erase_append_right _ hb]
  have hg : g.removeEdge n =
      ((g.modifyNode n fun v => { v with edges := v.edges.dropLast }).modifyNode b
        fun v => { v with backEdges := v.backEdges.erase n },some b) := by
    simp [removeEdge,hlast]
  rw [hg]
  refine ⟨rfl,⟨fun m => ?_,fun m => ?_,fun m => ?_,fun m => ?_,fun m => ?_,rfl,
    fun x => by simp,⟨rfl,rfl,rfl,rfl⟩⟩⟩ <;> simp only [getRMW,modifyNode_node]
  · by_cases hm : m = n
    · subst hm; split <;> simp [hdrop]
    · split <;> simp
  all_goals split <;> split <;> rfl

theorem removeBackEdge_none {g : CycleGraph} {n : NodeId} (h : (g.node n).backEdges = []) :
    g.removeBackEdge n = (g,none) := by simp [removeBackEdge,h]

theorem removeBackEdge_some {g : CycleGraph} (h : g.WellFormed) {n a : NodeId} {l : List NodeId}
    (hn : (g.node n).backEdges = l ++ [a]) :
    (g.removeBackEdge n).2 = some a ∧ Unlinked g a n (g.removeBackEdge n).1 := by
  have hlast : (g.node n).backEdges.getLast? = some a := by simp [hn]
  have ha : a ∉ l := by
    have hnd := h.backEdges_nodup n
    rw [hn,List.nodup_append] at hnd
    exact fun hal => hnd.2.2 a hal a (by simp) rfl
  have hdrop : (g.node n).backEdges.dropLast = (g.node n).backEdges.erase a := by
    simp [hn,List.erase_append_right _ ha]
  have hg : g.removeBackEdge n =
      ((g.modifyNode n fun v => { v with backEdges := v.backEdges.dropLast }).modifyNode a
        fun v => { v with edges := v.edges.erase n },some a) := by
    simp [removeBackEdge,hlast]
  rw [hg]
  refine ⟨rfl,⟨fun m => ?_,fun m => ?_,fun m => ?_,fun m => ?_,fun m => ?_,rfl,
    fun x => by simp,⟨rfl,rfl,rfl,rfl⟩⟩⟩ <;> simp only [getRMW,modifyNode_node]
  · split <;> split <;> rfl
  · by_cases hm : m = n
    · subst hm; split <;> simp [hdrop]
    · split <;> simp
  all_goals split <;> split <;> rfl

namespace Unlinked

variable {g g' : CycleGraph} {a b : NodeId}

theorem obj (u : Unlinked g a b g') (n : NodeId) : (g'.node n).obj = (g.node n).obj := by
  simp only [CycleNode.obj,u.action,u.promise]

theorem tables (u : Unlinked g a b g') : SameTables g g' :=
  ⟨u.numNodes,u.lookup,u.obj,u.log.oldCycles⟩

theorem mem_edges (h : g.WellFormed) (u : Unlinked g a b g') (m n : NodeId) :
    n ∈ (g'.node m).edges ↔ n ∈ (g.node m).edges ∧ ¬ (m = a ∧ n = b) := by
  rw [u.edges]
  by_cases hm : m = a
  · subst hm
    simp [(h.edges_nodup m).mem_erase_iff,and_comm]
  · simp [hm]

theorem mem_backEdges (h : g.WellFormed) (u : Unlinked g a b g') (m n : NodeId) :
    m ∈ (g'.node n).backEdges ↔ m ∈ (g.node n).backEdges ∧ ¬ (m = a ∧ n = b) := by
  rw [u.backEdges]
  by_cases hn : n = b
  · subst hn
    simp [(h.backEdges_nodup n).mem_erase_iff,and_comm]
  · simp [hn]

theorem wellFormed (h : g.WellFormed) (u : Unlinked g a b g') : g'.WellFormed where
  edges_nodup := by
    intro n
    rw [u.edges]
    split
    · exact (h.edges_nodup n).erase b
    · exact h.edges_nodup n
  backEdges_nodup := by
    intro n
    rw [u.backEdges]
    split
    · exact (h.backEdges_nodup n).erase a
    · exact h.backEdges_nodup n
  mem_backEdges := by
    intro m n
    rw [u.mem_edges h,u.mem_backEdges h,h.mem_backEdges]
  unused := by
    intro n hn
    have hu := h.unused n (u.numNodes ▸ hn)
    have he : (g'.node n).edges = [] := by rw [u.edges]; split <;> simp [hu]
    have hb : (g'.node n).backEdges = [] := by rw [u.backEdges]; split <;> simp [hu]
    have hr := u.hasRMW n
    have ha := u.action n
    have hp := u.promise n
    cases hv : g'.node n with
    | mk action promise edges backEdges hasRMW => simp_all [getRMW]
  table := by
    intro x n hx
    rw [u.lookup] at hx
    rw [u.numNodes,u.obj]
    exact h.table x n hx
  edge_live := by
    intro m n hmn
    rw [u.tables.live,u.tables.live]
    exact h.edge_live m n ((u.mem_edges h m n).mp hmn).1
  rmw_action := by
    intro m n hmn
    rw [u.hasRMW] at hmn
    simp only [u.lookup]
    exact h.rmw_action m n hmn

end Unlinked

/-- Removing an edge leaves the edge lists of other nodes alone. -/
theorem removeEdge_edges {g : CycleGraph} (h : g.WellFormed) (n m : NodeId) :
    ((g.removeEdge n).1.node m).edges =
      if m = n then (g.node m).edges.dropLast else (g.node m).edges := by
  rcases List.eq_nil_or_concat' (g.node n).edges with he | ⟨l,b,he⟩
  · rw [removeEdge_none he]
    split
    · simp_all
    · rfl
  · have hb : b ∉ l := by
      have hnd := h.edges_nodup n
      rw [he,List.nodup_append] at hnd
      exact fun hbl => hnd.2.2 b hbl b (by simp) rfl
    rw [(removeEdge_some h he).2.edges]
    by_cases hm : m = n
    · subst hm
      simp [he,List.erase_append_right _ hb]
    · simp [hm]

/-- What a removal, performed or not, keeps. -/
structure Pruned (g g' : CycleGraph) : Prop where
  wellFormed : g'.WellFormed
  tables : SameTables g g'
  log : SameLog g g'

theorem removeEdge_pruned {g : CycleGraph} (h : g.WellFormed) (n : NodeId) :
    Pruned g (g.removeEdge n).1 ∧ ∀ m, (g.removeEdge n).1.getRMW m = g.getRMW m := by
  rcases List.eq_nil_or_concat' (g.node n).edges with he | ⟨l,b,he⟩
  · rw [removeEdge_none he]
    exact ⟨⟨h,.refl g,⟨rfl,rfl,rfl,rfl⟩⟩,fun _ => rfl⟩
  · have hu := (removeEdge_some h he).2
    exact ⟨⟨hu.wellFormed h,hu.tables,hu.log⟩,hu.hasRMW⟩

theorem SameLog.trans {g g' g'' : CycleGraph} (h : SameLog g g') (h' : SameLog g' g'') :
    SameLog g g'' :=
  ⟨h'.hasCycles.trans h.hasCycles,h'.oldCycles.trans h.oldCycles,
    h'.rollbackvector.trans h.rollbackvector,h'.rmwrollbackvector.trans h.rmwrollbackvector⟩

theorem Pruned.trans {g g' g'' : CycleGraph} (h : Pruned g g') (h' : Pruned g' g'') :
    Pruned g g'' := ⟨h'.wellFormed,h.tables.trans h'.tables,h.log.trans h'.log⟩

/-! ### Undoing a log -/

/-- Undoing the edge log pops as many edges of a node as entries name it. -/
theorem removeEdges_spec {g : CycleGraph} (h : g.WellFormed) (log : List NodeId) :
    Pruned g (log.foldl (fun g n => (g.removeEdge n).1) g) ∧
      (∀ m, (log.foldl (fun g n => (g.removeEdge n).1) g).getRMW m = g.getRMW m) ∧
      ∀ m, ((log.foldl (fun g n => (g.removeEdge n).1) g).node m).edges =
        (g.node m).edges.take ((g.node m).edges.length - log.count m) := by
  induction log generalizing g with
  | nil => exact ⟨⟨h,.refl g,⟨rfl,rfl,rfl,rfl⟩⟩,fun _ => rfl,by simp⟩
  | cons n log ih =>
    obtain ⟨hp,hrmw⟩ := removeEdge_pruned h n
    obtain ⟨hp',hrmw',he⟩ := ih hp.wellFormed
    refine ⟨hp.trans hp',fun m => (hrmw' m).trans (hrmw m),fun m => (he m).trans ?_⟩
    rw [removeEdge_edges h]
    by_cases hm : m = n
    · subst hm
      simp only [if_true,List.dropLast_eq_take,List.take_take,List.length_take,List.count_cons_self]
      congr 1
      omega
    · simp [hm,Ne.symm hm]

theorem clearRMW_spec {g : CycleGraph} (h : g.WellFormed) (n : NodeId) :
    Pruned g (g.clearRMW n) ∧ (∀ m, (g.clearRMW n).getRMW m = if m = n then none else g.getRMW m) ∧
      ∀ m, ((g.clearRMW n).node m).edges = (g.node m).edges := by
  refine ⟨⟨modifyNode_wellFormed_rmw h (by simp) (by simp),⟨rfl,?_,?_,rfl⟩,⟨rfl,rfl,rfl,rfl⟩⟩,
    ?_,?_⟩
  · intro x; simp [clearRMW]
  · intro m; rw [clearRMW,modifyNode_node]; split <;> rfl
  · intro m; simp only [clearRMW,getRMW,modifyNode_node]; split <;> rfl
  · intro m; rw [clearRMW,modifyNode_node]; split <;> rfl

theorem clearRMWs_spec {g : CycleGraph} (h : g.WellFormed) (log : List NodeId) :
    Pruned g (log.foldl clearRMW g) ∧
      (∀ m, (log.foldl clearRMW g).getRMW m = if m ∈ log then none else g.getRMW m) ∧
      ∀ m, ((log.foldl clearRMW g).node m).edges = (g.node m).edges := by
  induction log generalizing g with
  | nil => exact ⟨⟨h,.refl g,⟨rfl,rfl,rfl,rfl⟩⟩,by simp,by simp⟩
  | cons n log ih =>
    obtain ⟨hp,hrmw,he⟩ := clearRMW_spec h n
    obtain ⟨hp',hrmw',he'⟩ := ih hp.wellFormed
    refine ⟨hp.trans hp',fun m => (hrmw' m).trans ?_,fun m => (he' m).trans (he m)⟩
    rw [hrmw]
    by_cases hm : m ∈ log <;> by_cases hmn : m = n <;> simp [hm,hmn]

/-- What the undo leaves. -/
structure RolledBack (g g' : CycleGraph) : Prop where
  wellFormed : g'.WellFormed
  lookup : ∀ x, g'.getNodeNoCreate x = g.getNodeNoCreate x
  obj : ∀ n, (g'.node n).obj = (g.node n).obj
  edges : ∀ n, (g'.node n).edges =
    (g.node n).edges.take ((g.node n).edges.length - g.rollbackvector.count n)
  getRMW : ∀ n, g'.getRMW n = if n ∈ g.rmwrollbackvector then none else g.getRMW n
  hasCycles : g'.hasCycles = g.oldCycles
  oldCycles : g'.oldCycles = g.oldCycles
  rollbackvector : g'.rollbackvector = []
  rmwrollbackvector : g'.rmwrollbackvector = []

theorem rollbackChanges_spec {g : CycleGraph} (h : g.WellFormed) :
    RolledBack g g.rollbackChanges := by
  obtain ⟨hp,hrmw,he⟩ := removeEdges_spec h g.rollbackvector
  obtain ⟨hp',hrmw',he'⟩ := clearRMWs_spec hp.wellFormed g.rmwrollbackvector
  have ht := hp.tables.trans hp'.tables
  have hlook : ∀ x, g.rollbackChanges.getNodeNoCreate x = g.getNodeNoCreate x := by
    intro x
    rw [← ht.lookup x]
    cases x <;> rfl
  refine ⟨hp'.wellFormed.congr rfl rfl (by intro x; cases x <;> rfl),hlook,ht.obj,
    fun n => (he' n).trans (he n),fun n => (hrmw' n).trans (by rw [hrmw]),rfl,ht.oldCycles,
    rfl,rfl⟩

/-! ### The savepoint -/

/-- `g` grew from `b`, the graph of the last commit. -/
structure Backed (b g : CycleGraph) : Prop where
  base : b.WellFormed
  wellFormed : g.WellFormed
  grows : Grows b g
  rollbackvector : b.rollbackvector = []
  rmwrollbackvector : b.rmwrollbackvector = []
  oldCycles : b.oldCycles = b.hasCycles

namespace Backed

variable {b g : CycleGraph}

theorem empty : Backed empty empty := ⟨.empty,.empty,.refl _,rfl,rfl,rfl⟩

theorem commit (h : g.WellFormed) : Backed g.commitChanges g.commitChanges := by
  have hwf : g.commitChanges.WellFormed := h.congr rfl rfl (by intro x; cases x <;> rfl)
  exact ⟨hwf,hwf,.refl _,rfl,rfl,rfl⟩

/-- Edge lists, RMW links and the flag are those of the savepoint again. -/
theorem rollback_edges (h : Backed b g) (n : NodeId) :
    (g.rollbackChanges.node n).edges = (b.node n).edges := by
  obtain ⟨log,ext,hlog,hext⟩ := h.grows.edges
  have hlog' : g.rollbackvector = log := by rw [hlog,h.rollbackvector,List.nil_append]
  rw [(rollbackChanges_spec h.wellFormed).edges,hlog',(hext n).1,← (hext n).2]
  simp

theorem rollback_getRMW (h : Backed b g) (n : NodeId) :
    g.rollbackChanges.getRMW n = b.getRMW n := by
  obtain ⟨log,hlog,hrmw⟩ := h.grows.rmw
  have hlog' : g.rmwrollbackvector = log := by rw [hlog,h.rmwrollbackvector,List.nil_append]
  rw [(rollbackChanges_spec h.wellFormed).getRMW,hlog']
  split
  · rename_i hn
    exact ((hrmw n).2 hn).1.symm
  · rename_i hn
    exact (hrmw n).1 hn

theorem rollback_hasCycles (h : Backed b g) : g.rollbackChanges.hasCycles = b.hasCycles := by
  rw [(rollbackChanges_spec h.wellFormed).hasCycles,h.grows.oldCycles,h.oldCycles]

theorem rollback_mem_backEdges (h : Backed b g) (m n : NodeId) :
    m ∈ (g.rollbackChanges.node n).backEdges ↔ m ∈ (b.node n).backEdges := by
  rw [(rollbackChanges_spec h.wellFormed).wellFormed.mem_backEdges,h.rollback_edges,
    h.base.mem_backEdges]

theorem rollback_nodeOrder (h : Backed b g) : g.rollbackChanges.nodeOrder = b.nodeOrder := by
  ext m n
  · simp [nodeOrder,h.rollback_edges]
  · simp [nodeOrder,h.rollback_getRMW]
  · simp [nodeOrder,h.rollback_hasCycles]

theorem rollback_lookup (h : Backed b g) (x : GraphObj) (n : NodeId)
    (hx : b.getNodeNoCreate x = some n) : g.rollbackChanges.getNodeNoCreate x = some n := by
  rw [(rollbackChanges_spec h.wellFormed).lookup]
  exact h.grows.lookup x n hx

/-- The savepoint's order between objects is back. -/
theorem rollback_order (h : Backed b g) : g.rollbackChanges.order = b.order := by
  have hr := rollbackChanges_spec h.wellFormed
  have hname := hr.wellFormed.naming
  rw [h.rollback_nodeOrder] at hname
  rw [order,h.rollback_nodeOrder]
  refine h.base.naming.pull_extend hname h.rollback_lookup fun x m hx hm => ?_
  rw [hr.lookup] at hm
  simp [nodeOrder,getRMW,h.base.unused m (h.grows.fresh x m hx hm)]

end Backed

end CycleGraph
end CdsChecker
