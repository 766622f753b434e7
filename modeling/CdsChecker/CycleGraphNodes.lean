import CdsChecker.CycleGraphMerge

/-! No operation of the graph takes the node of an action away. -/
namespace CdsChecker
namespace CycleGraph

def HasNode (g : CycleGraph) (a : ActionId) : Prop := ∃ n, g.actionToNode a = some n

variable {g g' : CycleGraph}

/-! ### Insertion -/

theorem getNode_hasNode (g : CycleGraph) (x : GraphObj) :
    (∀ a, g.HasNode a → (g.getNode x).1.HasNode a) ∧
      ∀ a, .action a = x → (g.getNode x).1.HasNode a := by
  unfold getNode
  split
  · rename_i n hn
    refine ⟨fun _ => id,?_⟩
    rintro a rfl
    exact ⟨n,hn⟩
  · cases x with
    | promise p => exact ⟨fun _ => id,by simp⟩
    | action b =>
      refine ⟨fun a ⟨n,hn⟩ => ?_,?_⟩
      · by_cases ha : a = b
        · exact ⟨g.numNodes,by simp [putNode,ha]⟩
        · exact ⟨n,by simpa [putNode,setNode,ha] using hn⟩
      · rintro a ⟨⟩
        exact ⟨g.numNodes,by simp [putNode]⟩

theorem insertEdge_actionToNode (g : CycleGraph) (m n : NodeId) :
    (g.insertEdge m n).1.actionToNode = g.actionToNode := by
  unfold insertEdge nodeAddEdge
  by_cases hmem : n ∈ (g.node m).edges
  · simp [hmem]
  · simp [hmem,pushEdge,modifyNode,setNode]

theorem addNodeEdge_actionToNode {m n : NodeId} {new : Bool}
    (h : g.addNodeEdge m n = .ok (g',new)) : g'.actionToNode = g.actionToNode := by
  have hfirst := insertEdge_actionToNode g m n
  unfold addNodeEdge at h
  split at h
  · obtain rfl : g = g' := congrArg Prod.fst (Except.ok.inj h)
    rfl
  · rename_i g₁ hg₁
    rw [hg₁] at hfirst
    split at h
    · obtain rfl : g₁ = g' := congrArg Prod.fst (Except.ok.inj h)
      exact hfirst
    · obtain ⟨last,_,h⟩ := bind_eq_ok.mp h
      split at h
      · obtain rfl : g₁ = g' := congrArg Prod.fst (Except.ok.inj h)
        exact hfirst
      · obtain rfl : (g₁.insertEdge last n).1 = g' := congrArg Prod.fst (Except.ok.inj h)
        exact (insertEdge_actionToNode g₁ last n).trans hfirst

theorem addEdge_hasNode {x y : GraphObj} {new : Bool} (h : g.addEdge x y = .ok (g',new)) :
    (∀ a, g.HasNode a → g'.HasNode a) ∧
      ∀ a, .action a = x ∨ .action a = y → g'.HasNode a := by
  obtain ⟨hkeepx,hx⟩ := g.getNode_hasNode x
  obtain ⟨hkeepy,hy⟩ := (g.getNode x).1.getNode_hasNode y
  have hnodes : ∀ a, ((g.getNode x).1.getNode y).1.HasNode a → g'.HasNode a := fun a ⟨n,hn⟩ =>
    ⟨n,(congrFun (addNodeEdge_actionToNode h) a).trans hn⟩
  refine ⟨fun a ha => hnodes a (hkeepy a (hkeepx a ha)),fun a ha => hnodes a ?_⟩
  rcases ha with ha | ha
  · exact hkeepy a (hx a ha)
  · exact hy a ha

theorem transferEdges_actionToNode (g : CycleGraph) (rmw : NodeId) (l : List NodeId) :
    (g.transferEdges rmw l).actionToNode = g.actionToNode := by
  induction l generalizing g with
  | nil => rfl
  | cons n rest ih =>
    rw [transferEdges]
    split
    · exact ih g
    · unfold nodeAddEdge
      by_cases hmem : n ∈ (g.node rmw).edges
      · simp only [hmem,if_true]
        exact ih g
      · simp only [hmem,if_false]
        rw [ih]
        rfl

theorem attachRMW_actionToNode (g : CycleGraph) (m n : NodeId) :
    (g.attachRMW m n).actionToNode = g.actionToNode := by
  unfold attachRMW setRMW
  rw [transferEdges_actionToNode]
  by_cases hrmw : (g.getRMW m).isSome = true
  · simp [hrmw]
  · simp [hrmw,modifyNode,setNode]

theorem addRMWEdge_hasNode {x : GraphObj} {rmw : ActionId} (h : g.addRMWEdge x rmw = .ok g') :
    (∀ a, g.HasNode a → g'.HasNode a) ∧ g'.HasNode rmw := by
  obtain ⟨_,_,h⟩ := bind_eq_ok.mp h
  obtain ⟨⟨g₁,_⟩,h₁,h⟩ := bind_eq_ok.mp h
  obtain rfl : g₁ = g' := Except.ok.inj h
  obtain ⟨hkeepx,-⟩ := g.getNode_hasNode x
  obtain ⟨hkeepr,hr⟩ := (g.getNode x).1.getNode_hasNode (.action rmw)
  have hnodes : ∀ a, ((g.getNode x).1.getNode (.action rmw)).1.HasNode a → g₁.HasNode a :=
    fun a ⟨n,hn⟩ => ⟨n,((congrFun (addNodeEdge_actionToNode h₁) a).trans
      (congrFun (attachRMW_actionToNode _ _ _) a)).trans hn⟩
  exact ⟨fun a ha => hnodes a (hkeepr a (hkeepx a ha)),hnodes rmw (hr rmw rfl)⟩

/-! ### Removal -/

theorem removeEdge_actionToNode (g : CycleGraph) (n : NodeId) :
    (g.removeEdge n).1.actionToNode = g.actionToNode := by
  unfold removeEdge
  split <;> rfl

theorem removeBackEdge_actionToNode (g : CycleGraph) (n : NodeId) :
    (g.removeBackEdge n).1.actionToNode = g.actionToNode := by
  unfold removeBackEdge
  split <;> rfl

theorem rollbackChanges_actionToNode (g : CycleGraph) :
    g.rollbackChanges.actionToNode = g.actionToNode := by
  have hedges : ∀ (l : List NodeId) (g : CycleGraph),
      (l.foldl (fun g n => (g.removeEdge n).1) g).actionToNode = g.actionToNode := fun l => by
    induction l with
    | nil => exact fun _ => rfl
    | cons n l ih => exact fun g => (ih _).trans (removeEdge_actionToNode g n)
  have hrmw : ∀ (l : List NodeId) (g : CycleGraph),
      (l.foldl clearRMW g).actionToNode = g.actionToNode := fun l => by
    induction l with
    | nil => exact fun _ => rfl
    | cons n l ih => exact fun g => ih _
  exact (hrmw _ _).trans (hedges _ _)

/-! ### Promises that are kept -/

theorem transferBackEdges_actionToNode {w p : NodeId} {n : ℕ} {ok : Bool}
    (h : transferBackEdges w p n g = .ok (g',ok)) : g'.actionToNode = g.actionToNode := by
  induction n generalizing g with
  | zero =>
    obtain rfl : g = g' := congrArg Prod.fst (Except.ok.inj h)
    rfl
  | succ n ih =>
    have hremove := removeBackEdge_actionToNode g p
    rw [transferBackEdges] at h
    split at h
    · rename_i g₁ hg₁
      rw [hg₁] at hremove
      obtain rfl : g₁ = g' := congrArg Prod.fst (Except.ok.inj h)
      exact hremove
    · rename_i g₁ back hg₁
      rw [hg₁] at hremove
      split at h
      · exact (ih h).trans hremove
      · obtain ⟨⟨g₂,_⟩,h₂,h⟩ := bind_eq_ok.mp h
        have hadd := (addNodeEdge_actionToNode h₂).trans hremove
        split at h
        · obtain rfl : g₂ = g' := congrArg Prod.fst (Except.ok.inj h)
          exact hadd
        · exact (ih h).trans hadd

theorem transferForwardEdges_actionToNode {w p : NodeId} {n : ℕ} {ok : Bool}
    (h : transferForwardEdges w p n g = .ok (g',ok)) : g'.actionToNode = g.actionToNode := by
  induction n generalizing g with
  | zero =>
    obtain rfl : g = g' := congrArg Prod.fst (Except.ok.inj h)
    rfl
  | succ n ih =>
    have hremove := removeEdge_actionToNode g p
    rw [transferForwardEdges] at h
    split at h
    · rename_i g₁ hg₁
      rw [hg₁] at hremove
      obtain rfl : g₁ = g' := congrArg Prod.fst (Except.ok.inj h)
      exact hremove
    · rename_i g₁ forward hg₁
      rw [hg₁] at hremove
      split at h
      · exact (ih h).trans hremove
      · obtain ⟨⟨g₂,_⟩,h₂,h⟩ := bind_eq_ok.mp h
        have hadd := (addNodeEdge_actionToNode h₂).trans hremove
        split at h
        · obtain rfl : g₂ = g' := congrArg Prod.fst (Except.ok.inj h)
          exact hadd
        · exact (ih h).trans hadd

theorem transferRMW_actionToNode (g : CycleGraph) (w p : NodeId) :
    (g.transferRMW w p).1.actionToNode = g.actionToNode := by
  unfold transferRMW setRMW
  split
  · rfl
  · split
    · rfl
    · by_cases hrmw : (g.getRMW w).isSome = true
      · simp [hrmw]
      · simp [hrmw,modifyNode,setNode]

theorem mergeNodes_actionToNode {tests : PromiseTests} {w p : NodeId} {ok : Bool}
    (h : mergeNodes tests g w p = .ok (g',ok)) : g'.actionToNode = g.actionToNode := by
  obtain ⟨_,_,h⟩ := bind_eq_ok.mp h
  obtain ⟨_,_,h⟩ := bind_eq_ok.mp h
  split at h
  · split at h
    · obtain rfl : g = g' := congrArg Prod.fst (Except.ok.inj h)
      rfl
    · have hrmw := g.transferRMW_actionToNode w p
      split at h
      · rename_i g₁ hg₁
        rw [hg₁] at hrmw
        obtain rfl : g₁ = g' := congrArg Prod.fst (Except.ok.inj h)
        exact hrmw
      · rename_i g₁ hg₁
        rw [hg₁] at hrmw
        obtain ⟨⟨g₂,_⟩,h₂,h⟩ := bind_eq_ok.mp h
        have hback := (transferBackEdges_actionToNode h₂).trans hrmw
        dsimp only at h
        split at h
        · obtain rfl : g₂ = g' := congrArg Prod.fst (Except.ok.inj h)
          exact hback
        · obtain ⟨⟨g₃,_⟩,h₃,h⟩ := bind_eq_ok.mp h
          have hforward := (transferForwardEdges_actionToNode h₃).trans hback
          dsimp only at h
          split at h
          · obtain rfl : g₃ = g' := congrArg Prod.fst (Except.ok.inj h)
            exact hforward
          · obtain ⟨g₄,h₄,h⟩ := bind_eq_ok.mp h
            obtain rfl : g₄ = g' := congrArg Prod.fst (Except.ok.inj h)
            obtain rfl := Except.ok.inj h₄
            exact hforward
  · cases h

theorem resolvePromise_hasNode {tests : PromiseTests} {p : PromiseId} {writer : ActionId}
    {ok : Bool} (h : g.resolvePromise tests p writer = .ok (g',ok)) (a : ActionId)
    (ha : g.HasNode a) : g'.HasNode a := by
  cases hw : g.actionToNode writer with
  | none => simp [resolvePromise_no_writer hw] at h
  | some w =>
    unfold resolvePromise at h
    split at h
    · cases h
    · rw [hw] at h
      rw [HasNode,mergeNodes_actionToNode h]
      exact ha

end CycleGraph
end CdsChecker
