import CdsChecker.CycleGraphRollback
import CdsChecker.Library.OrderGraphMerge

/-! Resolving a promise merges its node into the node of the write, step by step. -/
namespace CdsChecker
namespace CycleGraph

open Relation OrderGraph

theorem Unlinked.nodeOrder {g g' : CycleGraph} {a b : NodeId} (h : g.WellFormed)
    (u : Unlinked g a b g') : g'.nodeOrder = g.nodeOrder.unlink a b := by
  ext x y
  · exact u.mem_edges h x y
  · exact iff_of_eq (congrArg (· = _) (u.hasRMW x))
  · simp [CycleGraph.nodeOrder,unlink,u.log.hasCycles]

theorem Unlinked.order {g g' : CycleGraph} {x y : GraphObj} {m n : NodeId} (h : g.WellFormed)
    (u : Unlinked g m n g') (hx : g.getNodeNoCreate x = some m)
    (hy : g.getNodeNoCreate y = some n) : g'.order = g.order.unlink x y := by
  rw [order_of_sameTables u.tables,u.nodeOrder h]
  exact h.naming.pull_unlink hx hy

/-- The two nodes of a merge. -/
structure Pair (g : CycleGraph) (writer : ActionId) (w : NodeId) (promise : PromiseId)
    (p : NodeId) : Prop where
  writer : g.getNodeNoCreate (.action writer) = some w
  promise : g.getNodeNoCreate (.promise promise) = some p

namespace Pair

variable {g g' : CycleGraph} {writer : ActionId} {promise : PromiseId} {w p : NodeId}

theorem ne (h : Pair g writer w promise p) (hwf : g.WellFormed) : w ≠ p := by
  rintro rfl
  have heq := hwf.obj_unique h.writer h.promise
  cases heq

theorem not_target (h : Pair g writer w promise p) (hwf : g.WellFormed) (m : NodeId) :
    g.getRMW m ≠ some p := by
  intro hm
  obtain ⟨a,ha⟩ := hwf.rmw_action m p hm
  have heq := hwf.obj_unique ha h.promise
  cases heq

theorem congr (h : Pair g writer w promise p) (ht : SameTables g g') :
    Pair g' writer w promise p :=
  ⟨(ht.lookup _).trans h.writer,(ht.lookup _).trans h.promise⟩

theorem action (h : Pair g writer w promise p) (hwf : g.WellFormed) :
    (g.node w).action = some writer := by
  have ho := (hwf.table _ _ h.writer).2
  cases ha : (g.node w).action with
  | none => simp [CycleNode.obj,ha] at ho
  | some a => simpa [CycleNode.obj,ha] using ho

theorem isPromise (h : Pair g writer w promise p) (hwf : g.WellFormed) :
    (g.node p).action = none ∧ (g.node p).promise = some promise := by
  have ho := (hwf.table _ _ h.promise).2
  cases ha : (g.node p).action with
  | none => simpa [CycleNode.obj,ha] using ho
  | some a => simp [CycleNode.obj,ha] at ho

end Pair

/-! ### Transferring the RMW -/

/-- The RMW link that the write node takes over, when the two do not conflict. -/
structure Adopted (g : CycleGraph) (writer : ActionId) (promise : PromiseId) (p : NodeId)
    (g' : CycleGraph) : Prop where
  wellFormed : g'.WellFormed
  tables : SameTables g g'
  log : SameLog g g'
  order : g'.order = g.order.adopt (.action writer) (.promise promise)
  edges : (g'.node p).edges = (g.node p).edges
  backEdges : (g'.node p).backEdges = (g.node p).backEdges

theorem transferRMW_spec {g g' : CycleGraph} (h : g.WellFormed) {writer : ActionId}
    {promise : PromiseId} {w p : NodeId} (hp : Pair g writer w promise p) {ok : Bool}
    (hg : g.transferRMW w p = (g',ok)) :
    (ok = false ∧ g' = g) ∨ (ok = true ∧ Adopted g writer promise p g') := by
  have hadopt : g.order.adopt (.action writer) (.promise promise) =
      (g.nodeOrder.adopt w p).pull g.getNodeNoCreate fun n => (g.node n).obj :=
    (h.naming.pull_adopt hp.writer hp.promise).symm
  have hsame : g.nodeOrder.adopt w p = g.nodeOrder → Adopted g writer promise p g := by
    intro ha
    refine ⟨h,.refl g,⟨rfl,rfl,rfl,rfl⟩,?_,rfl,rfl⟩
    rw [hadopt,ha]
    rfl
  cases hr : g.getRMW p with
  | none =>
    obtain ⟨rfl,rfl⟩ : g = g' ∧ true = ok := by simpa [transferRMW,hr] using hg
    exact Or.inr ⟨rfl,hsame (adopt_of_none hr)⟩
  | some r =>
    by_cases hw : g.getRMW w = some r
    · obtain ⟨rfl,rfl⟩ : g = g' ∧ true = ok := by simpa [transferRMW,hr,hw] using hg
      exact Or.inr ⟨rfl,hsame (adopt_of_some hw)⟩
    · cases hw' : g.getRMW w with
      | some r' =>
        have hne : r' ≠ r := fun he => hw (he ▸ hw')
        obtain ⟨rfl,rfl⟩ : g = g' ∧ false = ok := by
          simpa [transferRMW,hr,hw',setRMW,hne] using hg
        exact Or.inl ⟨rfl,rfl⟩
      | none =>
        obtain ⟨rfl,rfl⟩ : (g.modifyNode w fun v => { v with hasRMW := some r }) = g' ∧
            true = ok := by
          simpa [transferRMW,hr,hw',setRMW] using hg
        have hlive := h.rmw_action p r hr
        have hr' : (g.node p).hasRMW = some r := hr
        have htab : SameTables g (g.modifyNode w fun v => { v with hasRMW := some r }) := by
          refine ⟨rfl,fun x => by simp,fun n => ?_,rfl⟩
          rw [modifyNode_node]; split <;> rfl
        refine Or.inr ⟨rfl,modifyNode_wellFormed_rmw h (fun _ => h.lt ⟨_,hp.writer⟩)
          fun m hm => Option.some.inj hm ▸ hlive,htab,⟨rfl,rfl,rfl,rfl⟩,?_,?_,?_⟩
        · rw [order_of_sameTables htab,hadopt]
          congr 1
          ext a b
          · simp only [adopt,nodeOrder,modifyNode_node]
            split <;> rfl
          · rw [adopt_next_of_none hw']
            by_cases ha : a = w
            · subst ha; simp [nodeOrder,getRMW,hr']
            · simp [nodeOrder,getRMW,ha]
          · rfl
        · rw [modifyNode_node]; split <;> rfl
        · rw [modifyNode_node]; split <;> rfl

/-! ### Moving the edges -/

/-- A stage of the merge. -/
structure Moved (g : CycleGraph) (writer : ActionId) (promise : PromiseId) (g' : CycleGraph) :
    Prop where
  wellFormed : g'.WellFormed
  tables : SameTables g g'
  steps : ReflTransGen (MergeStep (.action writer) (.promise promise)) g.order g'.order

theorem Moved.refl {g : CycleGraph} (h : g.WellFormed) (writer : ActionId) (promise : PromiseId) :
    Moved g writer promise g := ⟨h,.refl g,.refl⟩

theorem Moved.trans {g g' g'' : CycleGraph} {writer : ActionId} {promise : PromiseId}
    (h : Moved g writer promise g') (h' : Moved g' writer promise g'') :
    Moved g writer promise g'' :=
  ⟨h'.wellFormed,h.tables.trans h'.tables,h.steps.trans h'.steps⟩

section Stages

variable {writer : ActionId} {promise : PromiseId} {w p : NodeId}

/-- Every back edge of the promise node moves, unless a cycle stops the loop. -/
theorem transferBackEdges_spec {n : ℕ} {g g' : CycleGraph} {ok : Bool} (h : g.WellFormed)
    (hp : Pair g writer w promise p) (hn : (g.node p).backEdges.length ≤ n)
    (hg : transferBackEdges w p n g = .ok (g',ok)) :
    Moved g writer promise g' ∧ (ok = true → (g'.node p).backEdges = []) ∧
      (ok = false → g'.hasCycles = true) := by
  induction n generalizing g with
  | zero =>
    obtain ⟨rfl,rfl⟩ : g = g' ∧ true = ok := by simpa [transferBackEdges] using hg
    exact ⟨.refl h _ _,fun _ => by simpa using hn,by simp⟩
  | succ n ih =>
    rcases List.eq_nil_or_concat' (g.node p).backEdges with he | ⟨l,back,he⟩
    · obtain ⟨rfl,rfl⟩ : g = g' ∧ true = ok := by
        simpa [transferBackEdges,removeBackEdge_none he] using hg
      exact ⟨.refl h _ _,fun _ => he,by simp⟩
    · obtain ⟨hret,hu⟩ := removeBackEdge_some h he
      have heq : g.removeBackEdge p = ((g.removeBackEdge p).1,some back) := by rw [← hret]
      have hwf := hu.wellFormed h
      have hp₁ := hp.congr hu.tables
      have hlen : ((g.removeBackEdge p).1.node p).backEdges.length ≤ n := by
        have hb := hu.backEdges p
        rw [if_pos rfl,he] at hb
        have hnd := h.backEdges_nodup p
        rw [he,List.nodup_append] at hnd
        have hback : back ∉ l := fun hm => hnd.2.2 back hm back (by simp) rfl
        rw [hb,List.erase_append_right _ hback]
        simpa [he] using hn
      rw [transferBackEdges,heq] at hg
      dsimp only at hg
      split at hg
      · rename_i hbw
        subst hbw
        have hmove : Moved g writer promise (g.removeBackEdge p).1 := by
          refine ⟨hwf,hu.tables,.single ?_⟩
          rw [hu.order h hp.writer hp.promise]
          exact .dropIn _
        obtain ⟨hm,hres⟩ := ih hwf hp₁ hlen hg
        exact ⟨hmove.trans hm,hres⟩
      · rename_i hbw
        rw [bind_eq_ok] at hg
        obtain ⟨⟨g₂,new⟩,hadd,hg⟩ := hg
        have hedge : p ∈ (g.node back).edges := (h.mem_backEdges back p).mp (by simp [he])
        obtain ⟨x,hx⟩ := (h.edge_live back p hedge).1
        have hx₁ := (hu.lookup x).trans hx
        have hE := addNodeEdge_spec hwf ⟨x,hx₁⟩ ⟨_,hp₁.writer⟩ hadd
        have hO := (addNodeEdge_order hwf hx₁ hp₁.writer hadd).order
        rw [hu.order h hx hp.promise] at hO
        have hmove : Moved g writer promise g₂ :=
          ⟨hE.wellFormed,hu.tables.trans hE.tables,.single
          (.moveIn ⟨back,p,hx,hp.promise,hedge⟩ hO)⟩
        have hlen₂ : (g₂.node p).backEdges.length ≤ n := by
          rw [hE.backEdges p (hp.ne h).symm]
          exact hlen
        dsimp only at hg
        split at hg
        · rename_i hc
          obtain ⟨rfl,rfl⟩ : g₂ = g' ∧ false = ok := by simpa using hg
          exact ⟨hmove,by simp,fun _ => hc⟩
        · obtain ⟨hm,hres⟩ := ih hE.wellFormed (hp₁.congr hE.tables) hlen₂ hg
          exact ⟨hmove.trans hm,hres⟩

/-- Every forward edge moves too, and no new back edge appears meanwhile. -/
theorem transferForwardEdges_spec {n : ℕ} {g g' : CycleGraph} {ok : Bool} (h : g.WellFormed)
    (hp : Pair g writer w promise p) (hback : (g.node p).backEdges = [])
    (hn : (g.node p).edges.length ≤ n) (hg : transferForwardEdges w p n g = .ok (g',ok)) :
    Moved g writer promise g' ∧
      (ok = true → (g'.node p).edges = [] ∧ (g'.node p).backEdges = []) ∧
      (ok = false → g'.hasCycles = true) := by
  induction n generalizing g with
  | zero =>
    obtain ⟨rfl,rfl⟩ : g = g' ∧ true = ok := by simpa [transferForwardEdges] using hg
    exact ⟨.refl h _ _,fun _ => ⟨by simpa using hn,hback⟩,by simp⟩
  | succ n ih =>
    rcases List.eq_nil_or_concat' (g.node p).edges with he | ⟨l,forward,he⟩
    · obtain ⟨rfl,rfl⟩ : g = g' ∧ true = ok := by
        simpa [transferForwardEdges,removeEdge_none he] using hg
      exact ⟨.refl h _ _,fun _ => ⟨he,hback⟩,by simp⟩
    · obtain ⟨hret,hu⟩ := removeEdge_some h he
      have heq : g.removeEdge p = ((g.removeEdge p).1,some forward) := by rw [← hret]
      have hwf := hu.wellFormed h
      have hp₁ := hp.congr hu.tables
      have hedge : forward ∈ (g.node p).edges := by simp [he]
      have hfp : p ≠ forward := by
        rintro rfl
        have hm := (h.mem_backEdges p p).mpr hedge
        simp [hback] at hm
      have hback₁ : ((g.removeEdge p).1.node p).backEdges = [] := by
        rw [hu.backEdges p,if_neg hfp,hback]
      have hlen : ((g.removeEdge p).1.node p).edges.length ≤ n := by
        rw [removeEdge_edges h,if_pos rfl,he]
        simpa [he] using hn
      rw [transferForwardEdges,heq] at hg
      dsimp only at hg
      split at hg
      · rename_i hfw
        subst hfw
        have hmove : Moved g writer promise (g.removeEdge p).1 := by
          refine ⟨hwf,hu.tables,.single ?_⟩
          rw [hu.order h hp.promise hp.writer]
          exact .dropOut _
        obtain ⟨hm,hres⟩ := ih hwf hp₁ hback₁ hlen hg
        exact ⟨hmove.trans hm,hres⟩
      · rename_i hfw
        rw [bind_eq_ok] at hg
        obtain ⟨⟨g₂,new⟩,hadd,hg⟩ := hg
        obtain ⟨y,hy⟩ := (h.edge_live p forward hedge).2
        have hy₁ := (hu.lookup y).trans hy
        have hE := addNodeEdge_spec hwf ⟨_,hp₁.writer⟩ ⟨y,hy₁⟩ hadd
        have hO := (addNodeEdge_order hwf hp₁.writer hy₁ hadd).order
        rw [hu.order h hp.promise hy] at hO
        have hmove : Moved g writer promise g₂ :=
          ⟨hE.wellFormed,hu.tables.trans hE.tables,.single
          (.moveOut ⟨p,forward,hp.promise,hy,hedge⟩ hO)⟩
        have hback₂ : (g₂.node p).backEdges = [] := by
          rw [hE.backEdges p hfp,hback₁]
        have hlen₂ : (g₂.node p).edges.length ≤ n := by
          rw [hE.edges p (hp.ne h).symm (hp₁.not_target hwf)]
          exact hlen
        dsimp only at hg
        split at hg
        · rename_i hc
          obtain ⟨rfl,rfl⟩ : g₂ = g' ∧ false = ok := by simpa using hg
          exact ⟨hmove,by simp,fun _ => hc⟩
        · obtain ⟨hm,hres⟩ := ih hE.wellFormed (hp₁.congr hE.tables) hback₂ hlen₂ hg
          exact ⟨hmove.trans hm,hres⟩

end Stages

/-! ### The outcome -/

theorem erasePromiseNode_lookup (g : CycleGraph) (promise : PromiseId) (x : GraphObj) :
    ({ g with promiseToNode := Function.update g.promiseToNode promise none } :
      CycleGraph).getNodeNoCreate x =
        if x = .promise promise then none else g.getNodeNoCreate x := by
  cases x with
  | action a => simp [getNodeNoCreate]
  | promise q => by_cases h : q = promise <;> simp [getNodeNoCreate,h]

/-- Erasing a promise whose node has no edges leaves the rest of the order alone. -/
theorem erasePromiseNode_spec {g g' : CycleGraph} (h : g.WellFormed) {promise : PromiseId}
    {p : NodeId} (hp : g.getNodeNoCreate (.promise promise) = some p)
    (he : (g.node p).edges = []) (hb : (g.node p).backEdges = [])
    (hg : g.erasePromiseNode (some promise) = .ok g') :
    g'.WellFormed ∧ g'.order = g.order.forget (.promise promise) ∧
      g'.hasCycles = g.hasCycles ∧
      ∀ x, g'.getNodeNoCreate x =
        if x = .promise promise then none else g.getNodeNoCreate x := by
  obtain rfl : ({ g with promiseToNode := Function.update g.promiseToNode promise none } :
      CycleGraph) = g' := by simpa [erasePromiseNode] using hg
  generalize hg₁ : ({ g with promiseToNode := Function.update g.promiseToNode promise none } :
    CycleGraph) = g₁
  have hlook : ∀ x, g₁.getNodeNoCreate x =
      if x = .promise promise then none else g.getNodeNoCreate x := by
    subst hg₁; exact erasePromiseNode_lookup g promise
  have hnode : g₁.node = g.node := by subst hg₁; rfl
  have hnum : g₁.numNodes = g.numNodes := by subst hg₁; rfl
  have hcyc : g₁.hasCycles = g.hasCycles := by subst hg₁; rfl
  have hsrc : ∀ n, n ∉ (g.node p).edges := by simp [he]
  have htgt : ∀ m, p ∉ (g.node m).edges := by
    intro m hm
    have hm' := (h.mem_backEdges m p).mpr hm
    simp [hb] at hm'
  have hlive : ∀ n, n ≠ p → g.Live n → g₁.Live n := by
    rintro n hn ⟨x,hx⟩
    refine ⟨x,?_⟩
    rw [hlook,if_neg ?_]
    · exact hx
    · rintro rfl
      exact hn (Option.some.inj (hx.symm.trans hp))
  have hwf : g₁.WellFormed := by
    refine ⟨?_,?_,?_,?_,fun x n hx => ?_,fun m n hmn => ?_,fun m n hmn => ?_⟩
    · rw [hnode]; exact h.edges_nodup
    · rw [hnode]; exact h.backEdges_nodup
    · rw [hnode]; exact h.mem_backEdges
    · rw [hnode,hnum]; exact h.unused
    · rw [hnode,hnum]
      rw [hlook] at hx
      split at hx
      · cases hx
      · exact h.table x n hx
    · rw [hnode] at hmn
      have hmp : m ≠ p := by rintro rfl; exact hsrc n hmn
      have hnp : n ≠ p := by rintro rfl; exact htgt m hmn
      exact (h.edge_live m n hmn).imp (hlive m hmp) (hlive n hnp)
    · have hmn' : g.getRMW m = some n := by simpa [getRMW,hnode] using hmn
      obtain ⟨a,ha⟩ := h.rmw_action m n hmn'
      exact ⟨a,by rw [hlook,if_neg (by simp)]; exact ha⟩
  refine ⟨hwf,?_,hcyc,hlook⟩
  ext x y
  · constructor
    · rintro ⟨m,n,hm,hn,hmn⟩
      rw [hlook] at hm hn
      split at hm
      · cases hm
      · split at hn
        · cases hn
        · exact ⟨m,n,hm,hn,by simpa [nodeOrder,hnode] using hmn⟩
    · rintro ⟨m,n,hm,hn,hmn⟩
      have hmp : m ≠ p := by rintro rfl; exact hsrc n hmn
      have hnp : n ≠ p := by rintro rfl; exact htgt m hmn
      refine ⟨m,n,?_,?_,by simpa [nodeOrder,hnode] using hmn⟩
      · rw [hlook,if_neg]
        · exact hm
        · rintro rfl; exact hmp (Option.some.inj (hm.symm.trans hp))
      · rw [hlook,if_neg]
        · exact hn
        · rintro rfl; exact hnp (Option.some.inj (hn.symm.trans hp))
  · by_cases hx : x = .promise promise
    · simp [order,pull,hlook,hx,forget]
    · simp [order,pull,hlook,hx,forget,nodeOrder,hnode,getRMW]
  · simp [order,pull,forget,nodeOrder,hcyc]

/-- A merge that ran to its end. -/
structure Merged (g : CycleGraph) (writer : ActionId) (promise : PromiseId) (g' : CycleGraph) :
    Prop where
  steps : ∃ o, ReflTransGen (MergeStep (.action writer) (.promise promise))
      (g.order.adopt (.action writer) (.promise promise)) o ∧
    o.Isolated (.promise promise) ∧ (∀ x, o.next x ≠ some (.promise promise)) ∧
    g'.order = o.forget (.promise promise)
  lookup : ∀ x, g'.getNodeNoCreate x =
    if x = .promise promise then none else g.getNodeNoCreate x

/-- How `resolvePromise` can return. -/
inductive Outcome (g : CycleGraph) (writer : ActionId) (promise : PromiseId) :
    CycleGraph → Bool → Prop
  | refused : Outcome g writer promise g false
  | cyclic {g' : CycleGraph} (h : g'.hasCycles = true) : Outcome g writer promise g' false
  | merged {g' : CycleGraph} (h : Merged g writer promise g') :
      Outcome g writer promise g' (!g'.hasCycles)

theorem isolated_of_node {g : CycleGraph} {promise : PromiseId} {p : NodeId}
    (h : g.WellFormed) (hp : g.getNodeNoCreate (.promise promise) = some p)
    (he : (g.node p).edges = []) (hb : (g.node p).backEdges = []) :
    g.order.Isolated (.promise promise) := by
  refine fun x => ⟨?_,?_⟩
  · rintro ⟨m,n,_,hn,hmn⟩
    obtain rfl := Option.some.inj (hp.symm.trans hn)
    have hm := (h.mem_backEdges m p).mpr hmn
    simp [hb] at hm
  · rintro ⟨m,n,hm,_,hmn⟩
    obtain rfl := Option.some.inj (hp.symm.trans hm)
    simp [nodeOrder,he] at hmn

theorem order_next_ne_promise {g : CycleGraph} (h : g.WellFormed) (x : GraphObj)
    (promise : PromiseId) : g.order.next x ≠ some (.promise promise) := by
  intro hx
  cases hm : g.getNodeNoCreate x with
  | none => simp [order,pull,hm] at hx
  | some m =>
    obtain ⟨n,hn,hmn⟩ := h.naming.find_of_next hm hx
    obtain ⟨a,ha⟩ := h.rmw_action m n hmn
    have heq := h.obj_unique ha hn
    cases heq

theorem mergeNodes_spec {tests : PromiseTests} {g g' : CycleGraph} {writer : ActionId}
    {promise : PromiseId} {w p : NodeId} {ok : Bool} (h : g.WellFormed)
    (hp : Pair g writer w promise p) (hg : mergeNodes tests g w p = .ok (g',ok)) :
    g'.WellFormed ∧ Outcome g writer promise g' ok := by
  simp only [mergeNodes,bind_eq_ok] at hg
  obtain ⟨_,_,_,_,hg⟩ := hg
  rw [(hp.isPromise h).2,hp.action h] at hg
  dsimp only at hg
  split at hg
  · obtain ⟨rfl,rfl⟩ : g = g' ∧ false = ok := by simpa using hg
    exact ⟨h,.refused⟩
  · cases ht : g.transferRMW w p with
    | mk g₁ ok₁ =>
      rw [ht] at hg
      rcases transferRMW_spec h hp ht with ⟨rfl,rfl⟩ | ⟨rfl,had⟩
      · obtain ⟨rfl,rfl⟩ : g₁ = g' ∧ false = ok := by simpa using hg
        exact ⟨h,.refused⟩
      · simp only [bind_eq_ok] at hg
        obtain ⟨⟨g₂,ok₂⟩,hback,hg⟩ := hg
        have hp₁ := hp.congr had.tables
        obtain ⟨hm₂,hdone₂,hcyc₂⟩ := transferBackEdges_spec had.wellFormed hp₁ le_rfl hback
        cases ok₂ with
        | false =>
          obtain ⟨rfl,rfl⟩ : g₂ = g' ∧ false = ok := by simpa using hg
          exact ⟨hm₂.wellFormed,.cyclic (hcyc₂ rfl)⟩
        | true =>
          simp only [Bool.not_true,Bool.false_eq_true,if_false,bind_eq_ok] at hg
          obtain ⟨⟨g₃,ok₃⟩,hfwd,hg⟩ := hg
          have hp₂ := hp₁.congr hm₂.tables
          obtain ⟨hm₃,hdone₃,hcyc₃⟩ :=
            transferForwardEdges_spec hm₂.wellFormed hp₂ (hdone₂ rfl) le_rfl hfwd
          cases ok₃ with
          | false =>
            obtain ⟨rfl,rfl⟩ : g₃ = g' ∧ false = ok := by simpa using hg
            exact ⟨hm₃.wellFormed,.cyclic (hcyc₃ rfl)⟩
          | true =>
            simp only [Bool.not_true,Bool.false_eq_true,if_false,bind_eq_ok,
              pure_eq_ok,Prod.mk.injEq] at hg
            obtain ⟨g₄,herase,rfl,rfl⟩ := hg
            have hp₃ := hp₂.congr hm₃.tables
            obtain ⟨hedges,hbacks⟩ := hdone₃ rfl
            obtain ⟨hwf,horder,_,hlook⟩ :=
              erasePromiseNode_spec hm₃.wellFormed hp₃.promise hedges hbacks herase
            have hiso := isolated_of_node hm₃.wellFormed hp₃.promise hedges hbacks
            have hsteps := (hm₂.trans hm₃).steps
            rw [had.order] at hsteps
            refine ⟨hwf,.merged ⟨⟨g₃.order,hsteps,hiso,
              fun x => order_next_ne_promise hm₃.wellFormed x promise,horder⟩,fun x => ?_⟩⟩
            rw [hlook,hm₃.tables.lookup,hm₂.tables.lookup,had.tables.lookup]

/-- Without a node of its own the writer takes over the promise's, and the promise's key is
gone before it is erased. -/
theorem resolvePromise_no_writer {tests : PromiseTests} {g : CycleGraph} {promise : PromiseId}
    {writer : ActionId} (hw : g.actionToNode writer = none) :
    g.resolvePromise tests promise writer = .error .assertion := by
  cases hp : g.promiseToNode promise with
  | none => simp [resolvePromise,hp]
  | some p =>
    simp only [resolvePromise,hp,hw,nodeResolvePromise,assert]
    split <;> split <;> simp [bind,Except.bind,pure,Except.pure,erasePromiseNode]

/-- A call that returns was made for two nodes. -/
theorem resolvePromise_spec {tests : PromiseTests} {g g' : CycleGraph} {promise : PromiseId}
    {writer : ActionId} {ok : Bool} (h : g.WellFormed)
    (hg : g.resolvePromise tests promise writer = .ok (g',ok)) :
    (∃ w p, Pair g writer w promise p) ∧ g'.WellFormed ∧ Outcome g writer promise g' ok := by
  cases hp : g.promiseToNode promise with
  | none => simp [resolvePromise,hp] at hg
  | some p =>
    cases hw : g.actionToNode writer with
    | none => simp [resolvePromise_no_writer hw] at hg
    | some w =>
      have hpair : Pair g writer w promise p := ⟨hw,hp⟩
      simp only [resolvePromise,hp,hw] at hg
      exact ⟨⟨w,p,hpair⟩,mergeNodes_spec h hpair hg⟩

theorem transferBackEdges_error {w p : NodeId} {n : ℕ} {g : CycleGraph} {e : Failure}
    (hg : transferBackEdges w p n g = .error e) : e = .diverges := by
  induction n generalizing g with
  | zero => simp [transferBackEdges] at hg
  | succ n ih =>
    rw [transferBackEdges] at hg
    split at hg
    · cases hg
    · split at hg
      · exact ih hg
      · rw [bind_eq_error] at hg
        rcases hg with hg | ⟨_,_,hg⟩
        · exact addNodeEdge_error hg
        · split at hg
          · exact (pure_ne_error hg).elim
          · exact ih hg

theorem transferForwardEdges_error {w p : NodeId} {n : ℕ} {g : CycleGraph} {e : Failure}
    (hg : transferForwardEdges w p n g = .error e) : e = .diverges := by
  induction n generalizing g with
  | zero => simp [transferForwardEdges] at hg
  | succ n ih =>
    rw [transferForwardEdges] at hg
    split at hg
    · cases hg
    · split at hg
      · exact ih hg
      · rw [bind_eq_error] at hg
        rcases hg with hg | ⟨_,_,hg⟩
        · exact addNodeEdge_error hg
        · split at hg
          · exact (pure_ne_error hg).elim
          · exact ih hg

/-- With both nodes at hand no assertion fails. -/
theorem resolvePromise_error {tests : PromiseTests} {g : CycleGraph} {promise : PromiseId}
    {writer : ActionId} {w p : NodeId} {e : Failure} (h : g.WellFormed)
    (hp : Pair g writer w promise p) (hg : g.resolvePromise tests promise writer = .error e) :
    e = .diverges := by
  have hw : g.actionToNode writer = some w := hp.writer
  have hq : g.promiseToNode promise = some p := hp.promise
  obtain ⟨hpa,hpp⟩ := hp.isPromise h
  have hwa := hp.action h
  simp only [resolvePromise,hw,hq,mergeNodes,CycleNode.isPromise,hwa,hpa,hpp] at hg
  rw [bind_eq_error] at hg
  rcases hg with hg | ⟨_,_,hg⟩
  · simp [assert] at hg
  · rw [bind_eq_error] at hg
    rcases hg with hg | ⟨_,_,hg⟩
    · simp [assert] at hg
    · split at hg
      · exact (pure_ne_error hg).elim
      · split at hg
        · exact (pure_ne_error hg).elim
        · rw [bind_eq_error] at hg
          rcases hg with hg | ⟨⟨g₂,ok₂⟩,_,hg⟩
          · exact transferBackEdges_error hg
          · dsimp only at hg
            split at hg
            · exact (pure_ne_error hg).elim
            · rw [bind_eq_error] at hg
              rcases hg with hg | ⟨⟨g₃,ok₃⟩,_,hg⟩
              · exact transferForwardEdges_error hg
              · dsimp only at hg
                split at hg
                · exact (pure_ne_error hg).elim
                · simp [erasePromiseNode,bind,Except.bind,pure,Except.pure] at hg

end CycleGraph
end CdsChecker
