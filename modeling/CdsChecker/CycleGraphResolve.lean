import CdsChecker.CycleGraphMerge
import CdsChecker.CycleGraphRuns

/-! What resolved promises leave of the order: paths, acyclicity, and the place of each RMW
directly behind the write it reads from. -/
namespace CdsChecker
namespace CycleGraph

open Relation OrderGraph

/-! ### Reachable graphs -/

theorem op_wellFormed {g g' : CycleGraph} {o : Op} (h : g.WellFormed) (hg : op g o = .ok g') :
    g'.WellFormed := by
  cases o with
  | change c =>
    cases c with
    | edit e => exact (edit_spec h hg).wellFormed
    | startChanges =>
      obtain ⟨_,_,_,rfl⟩ := startChanges_eq_ok.mp hg
      exact h
    | commitChanges =>
      obtain rfl : g.commitChanges = g' := by simpa [op,change] using hg
      exact (Backed.commit h).wellFormed
    | rollbackChanges =>
      obtain rfl : g.rollbackChanges = g' := by simpa [op,change] using hg
      exact (rollbackChanges_spec h).wellFormed
  | resolvePromise tests promise writer =>
    simp only [op,bind_eq_ok,pure_eq_ok] at hg
    obtain ⟨⟨g₁,ok⟩,hres,rfl⟩ := hg
    exact (resolvePromise_spec h hres).2.1

theorem run_wellFormed {ops : List Op} {g g' : CycleGraph} (h : g.WellFormed)
    (hg : run op g ops = .ok g') : g'.WellFormed := by
  induction ops generalizing g with
  | nil =>
    obtain rfl : g = g' := by simpa [run] using hg
    exact h
  | cons o ops ih =>
    simp only [run,bind_eq_ok] at hg
    obtain ⟨g₁,ho,hg⟩ := hg
    exact ih (op_wellFormed h ho) hg

/-! ### The quotient -/

/-- What resolving a promise should leave: the promise node has become the writer's node. -/
structure Quotient (g : CycleGraph) (writer : ActionId) (promise : PromiseId) (p : NodeId)
    (g' : CycleGraph) : Prop where
  promise_gone : g'.promiseToNode promise = none
  writer_node : ∃ w, g'.actionToNode writer = some w ∧
    ∀ m n, ReflTransGen g.nodeOrder.edge m n →
      ReflTransGen g'.nodeOrder.edge (merged w p m) (merged w p n)
  acyclic : Acyclic g'.nodeOrder.edge

/-- A completed merge without a cycle is a quotient. -/
theorem Merged.quotient {g g' : CycleGraph} {writer : ActionId} {promise : PromiseId}
    {w p : NodeId} (h : g.WellFormed) (h' : g'.WellFormed) (hp : Pair g writer w promise p)
    (hac : Acyclic g.nodeOrder.edge) (hm : Merged g writer promise g')
    (hc : g'.hasCycles = false) : Quotient g writer promise p g' := by
  obtain ⟨⟨o,hsteps,hiso,_,ho⟩,hlook⟩ := hm
  have hw : g'.getNodeNoCreate (.action writer) = some w := by
    rw [hlook,if_neg (by simp)]; exact hp.writer
  have hedge : g'.order.edge = o.edge := by rw [ho]; rfl
  -- the node of a merged object is the merged node
  have hnode : ∀ {x m}, g.getNodeNoCreate x = some m →
      g'.getNodeNoCreate (merged (.action writer) (.promise promise) x) =
        some (merged w p m) := by
    intro x m hx
    by_cases hxp : x = .promise promise
    · subst hxp
      obtain rfl := Option.some.inj (hx.symm.trans hp.promise)
      simpa [merged] using hw
    · have hmp : m ≠ p := by
        rintro rfl
        exact hxp (h.obj_unique hx hp.promise)
      simp only [merged,hxp,hmp,if_false]
      rw [hlook,if_neg hxp]
      exact hx
  refine ⟨(hlook (.promise promise)).trans (if_pos rfl),⟨w,hw,fun m n hmn => ?_⟩,?_⟩
  · rcases ReflTransGen.cases_head hmn with rfl | ⟨k,hmk,_⟩
    · exact .refl
    · obtain ⟨x,hx⟩ := (h.edge_live m k hmk).1
      obtain ⟨y,hy,hxy⟩ := h.naming.reach_name hx hmn
      have hreach := merge_reach hsteps hiso (show ReflTransGen (g.order.adopt _ _).edge x y from
        hxy)
      rw [← hedge] at hreach
      exact (h'.naming.reach_iff (hnode hx) (hnode hy)).mp hreach
  · have hacO : Acyclic g.order.edge := h.naming.acyclic_iff.mpr hac
    have hcyc : ¬ o.cyclic := by
      have : g'.order.cyclic = o.cyclic := by rw [ho]; rfl
      rw [← this]
      simpa [order,pull,nodeOrder] using hc
    have hacyc := merge_sound hsteps (fun _ => hacO) hcyc
    rw [← hedge] at hacyc
    exact h'.naming.acyclic_iff.mp hacyc

/-- From an acyclic graph with a node for the promise, resolving meets no failing assertion and
returns true only with a quotient, exactly when the writer has a node already. What the promise
answers about the write plays no part. -/
theorem resolvePromise_quotient_iff {ops : List Op} {g : CycleGraph} {tests : PromiseTests}
    {promise : PromiseId} {writer : ActionId} {p : NodeId} (hrun : run op empty ops = .ok g)
    (hac : Acyclic g.nodeOrder.edge) (hp : g.promiseToNode promise = some p) :
    (g.resolvePromise tests promise writer ≠ .error .assertion ∧
      ∀ g', g.resolvePromise tests promise writer = .ok (g',true) →
        Quotient g writer promise p g') ↔ g.actionToNode writer ≠ none := by
  have h := run_wellFormed .empty hrun
  constructor
  · rintro ⟨hno,_⟩ hw
    exact hno (resolvePromise_no_writer hw)
  · intro hw
    obtain ⟨w,hw⟩ := Option.ne_none_iff_exists'.mp hw
    have hpair : Pair g writer w promise p := ⟨hw,hp⟩
    refine ⟨fun he => ?_,fun g' hg' => ?_⟩
    · have hd := resolvePromise_error h hpair he
      cases hd
    · obtain ⟨_,h',hout⟩ := resolvePromise_spec h hg'
      generalize hok : true = ok at hout
      cases hout with
      | refused => cases hok
      | cyclic => cases hok
      | merged hm => exact hm.quotient h h' hpair hac (by simpa using hok)

/-! ### RMWs stay directly behind their writes -/

/-- The merge that would let something slip between a write and its new RMW: the write node
takes the promise node's RMW, so its successors have to follow that RMW already. -/
def MergeSafe (g : CycleGraph) (promise : PromiseId) (writer : ActionId) : Prop :=
  ∀ p w r, g.promiseToNode promise = some p → g.actionToNode writer = some w →
    g.getRMW p = some r → g.getRMW w = none →
      ∀ t ∈ (g.node w).edges, t = r ∨ t = p ∨ ReflTransGen g.nodeOrder.edge r t

/-- Whether a resolved promise awaits its commit after a call. -/
def Op.pending (before : Bool) : Op → Bool
  | .change .commitChanges => false
  | .change _ => before
  | .resolvePromise _ _ _ => true

/-- The calls as the checker makes them: RMWs are fresh, and a resolved promise is committed
before anything is rolled back. -/
def IssuedRun : Bool → CycleGraph → List Op → Prop
  | _,_,[] => True
  | pending,g,o :: ops =>
    (∀ e, o = .change (.edit e) → e.Fresh g) ∧
    (o = .change .rollbackChanges → pending = false) ∧
    ∀ g', op g o = .ok g' → IssuedRun (o.pending pending) g' ops

/-- Every resolved promise meets the condition. -/
def SafeRun : CycleGraph → List Op → Prop
  | _,[] => True
  | g,o :: ops =>
    (∀ tests promise writer, o = .resolvePromise tests promise writer →
      MergeSafe g promise writer) ∧
    ∀ g', op g o = .ok g' → SafeRun g' ops

theorem MergeSafe.order {g : CycleGraph} {promise : PromiseId} {writer : ActionId} {w p : NodeId}
    (h : g.WellFormed) (hp : Pair g writer w promise p) (hs : MergeSafe g promise writer)
    {r t : GraphObj} (hr : g.order.next (.promise promise) = some r)
    (hw : g.order.next (.action writer) = none) (ht : g.order.edge (.action writer) t) :
    t = r ∨ t = .promise promise ∨ ReflTransGen g.order.edge r t := by
  obtain ⟨k,hk,hpk⟩ := h.naming.find_of_next hp.promise hr
  obtain ⟨w',n,hw',hn,hwn⟩ := ht
  obtain rfl := Option.some.inj (hp.writer.symm.trans hw')
  have hwnone : g.getRMW w = none := (order_next_none h hp.writer).mp hw
  rcases hs p w k hp.promise hp.writer hpk hwnone n hwn with rfl | rfl | hreach
  · exact Or.inl (h.obj_unique hn hk)
  · exact Or.inr (Or.inl (h.obj_unique hn hp.promise))
  · exact Or.inr (Or.inr ((h.naming.reach_iff hk hn).mpr hreach))

/-- One insertion of a fresh RMW or an edge keeps the order exclusive while no flag is up. -/
theorem edit_exclusive {g g' : CycleGraph} {e : Edit} (h : g.WellFormed) (hf : e.Fresh g)
    (hg : g.edit e = .ok g') (hex : ¬ g.order.cyclic → Exclusive g.order) :
    ¬ g'.order.cyclic → Exclusive g'.order := by
  intro hc
  have ho := (edit_spec h hg).order
  have hfi := hf.freshIn h
  cases e with
  | addEdge x y => exact AddEdge.exclusive ho (hex fun hc' => hc (AddEdge.cyclic_mono ho hc'))
  | addRMWEdge x rmw =>
    have hw : g.order.next x = none := by
      cases hx : g.order.next x with
      | none => rfl
      | some m => exact (hc (AddNext.cyclic_of_next ho hx)).elim
    exact AddNext.exclusive ho (hex fun hc' => hc (AddNext.cyclic_mono ho hc')) hfi.2 hfi.1 hw

/-- A safe merge keeps it too. -/
theorem resolvePromise_exclusive {tests : PromiseTests} {g g' : CycleGraph} {promise : PromiseId}
    {writer : ActionId} {ok : Bool} (h : g.WellFormed) (hs : MergeSafe g promise writer)
    (hg : g.resolvePromise tests promise writer = .ok (g',ok))
    (hex : ¬ g.order.cyclic → Exclusive g.order) :
    ¬ g'.order.cyclic → Exclusive g'.order := by
  intro hc
  obtain ⟨⟨w,p,hp⟩,_,hout⟩ := resolvePromise_spec h hg
  cases hout with
  | refused => exact hex hc
  | cyclic hcyc => exact (hc hcyc).elim
  | merged hm =>
    obtain ⟨o,hsteps,hiso,hnext,ho⟩ := hm.steps
    rw [ho] at hc ⊢
    have hmono : (g.order.adopt (.action writer) (.promise promise)).cyclic → o.cyclic :=
      merge_cyclic_mono hsteps
    have hexg := hex fun hc' => hc (hmono hc')
    have hglued := hexg.glued_adopt (w := .action writer) (p := .promise promise)
      fun hr hw ht => hs.order h hp hr hw ht
    exact merge_exclusive hsteps hglued hiso hnext

/-- What an issued and safe run maintains; `b` is the graph a rollback returns to. -/
structure Closed (pending : Bool) (g : CycleGraph) : Prop where
  wellFormed : g.WellFormed
  exclusive : ¬ g.order.cyclic → Exclusive g.order
  base : pending = false → ∃ b, Backed b g ∧ (¬ b.order.cyclic → Exclusive b.order)

theorem Closed.of_backed {b g : CycleGraph} {pending : Bool} (h : Backed b g)
    (hg : ¬ g.order.cyclic → Exclusive g.order) (hb : ¬ b.order.cyclic → Exclusive b.order) :
    Closed pending g := ⟨h.wellFormed,hg,fun _ => ⟨b,h,hb⟩⟩

theorem closed_run {ops : List Op} {pending : Bool} {g g' : CycleGraph} (h : Closed pending g)
    (hi : IssuedRun pending g ops) (hs : SafeRun g ops) (hg : run op g ops = .ok g') :
    ∃ pending', Closed pending' g' := by
  induction ops generalizing g pending with
  | nil =>
    obtain rfl : g = g' := by simpa [run] using hg
    exact ⟨pending,h⟩
  | cons o ops ih =>
    simp only [run,bind_eq_ok] at hg
    obtain ⟨g₁,ho,hg⟩ := hg
    obtain ⟨hfresh,hroll,hi⟩ := hi
    obtain ⟨hsafe,hs⟩ := hs
    refine ih ?_ (hi g₁ ho) (hs g₁ ho) hg
    cases o with
    | change c =>
      cases c with
      | edit e =>
        refine ⟨(edit_spec h.wellFormed ho).wellFormed,
          edit_exclusive h.wellFormed (hfresh e rfl) ho h.exclusive,fun hpend => ?_⟩
        obtain ⟨b,hb,hbe⟩ := h.base hpend
        exact ⟨b,(hb.edit ho).1,hbe⟩
      | startChanges =>
        obtain ⟨_,_,_,rfl⟩ := startChanges_eq_ok.mp ho
        exact h
      | commitChanges =>
        obtain rfl : g.commitChanges = g₁ := by simpa [op,change] using ho
        have hex : ¬ g.commitChanges.order.cyclic → Exclusive g.commitChanges.order := by
          rw [commitChanges_order]; exact h.exclusive
        exact .of_backed (Backed.commit h.wellFormed) hex hex
      | rollbackChanges =>
        obtain rfl : g.rollbackChanges = g₁ := by simpa [op,change] using ho
        obtain ⟨b,hb,hbe⟩ := h.base (hroll rfl)
        have hex : ¬ g.rollbackChanges.order.cyclic → Exclusive g.rollbackChanges.order := by
          rw [hb.rollback_order]; exact hbe
        exact .of_backed hb.rollback hex hex
    | resolvePromise tests promise writer =>
      simp only [op,bind_eq_ok,pure_eq_ok] at ho
      obtain ⟨⟨g₂,ok⟩,hres,rfl⟩ := ho
      exact ⟨(resolvePromise_spec h.wellFormed hres).2.1,
        resolvePromise_exclusive h.wellFormed (hsafe tests promise writer rfl) hres h.exclusive,
        by simp [Op.pending]⟩

theorem Closed.empty : Closed false empty := by
  refine .of_backed .empty (fun _ => ?_) (fun _ => ?_) <;>
  · refine ⟨fun {n r} hn => ?_,fun {n r t} hn _ _ => ?_⟩ <;>
      cases n <;> simp [order,pull,CycleGraph.empty,getNodeNoCreate] at hn

/-- In a run whose merges are safe nothing is ever ordered between a write and its RMW. -/
theorem rmw_closed_of_safeRun {ops : List Op} {g : CycleGraph}
    (hissued : IssuedRun false empty ops) (hsafe : SafeRun empty ops)
    (hrun : run op empty ops = .ok g) (hc : g.hasCycles = false) :
    ∀ n r t, g.getRMW n = some r → t ∈ (g.node n).edges → t ≠ r →
      ReflTransGen g.nodeOrder.edge r t := by
  intro n r t hn ht htr
  obtain ⟨_,h⟩ := closed_run .empty hissued hsafe hrun
  have hex := h.exclusive (by simpa [order,pull,nodeOrder] using hc)
  obtain ⟨⟨x,hx⟩,⟨z,hz⟩⟩ := h.wellFormed.edge_live n t ht
  obtain ⟨a,ha⟩ := h.wellFormed.rmw_action n r hn
  have hname := h.wellFormed.naming
  have hxz : z ≠ .action a := by
    rintro rfl
    exact htr (Option.some.inj (hz.symm.trans ha))
  have hreach := hex.behind ((hname.next_iff hx ha).mpr hn) ⟨n,t,hx,hz,ht⟩ hxz
  exact (hname.reach_iff ha hz).mp hreach

/-! ### Runs on fixed calls -/

theorem IssuedRun.step {pending : Bool} {g g₁ : CycleGraph} {o : Op} {ops : List Op}
    (ho : op g o = .ok g₁) (hf : ∀ e, o = .change (.edit e) → e.Fresh g)
    (hr : o = .change .rollbackChanges → pending = false)
    (hi : IssuedRun (o.pending pending) g₁ ops) : IssuedRun pending g (o :: ops) := by
  refine ⟨hf,hr,fun g' hg' => ?_⟩
  obtain rfl := Except.ok.inj (ho.symm.trans hg')
  exact hi

theorem SafeRun.step {g g₁ : CycleGraph} {o : Op} {ops : List Op} (ho : op g o = .ok g₁)
    (hs : ∀ tests promise writer, o = .resolvePromise tests promise writer →
      MergeSafe g promise writer) (hi : SafeRun g₁ ops) : SafeRun g (o :: ops) := by
  refine ⟨hs,fun g' hg' => ?_⟩
  obtain rfl := Except.ok.inj (ho.symm.trans hg')
  exact hi

theorem fresh_of_no_node {g : CycleGraph} {x : GraphObj} {rmw : ActionId}
    (h : g.actionToNode rmw = none) : (Edit.addRMWEdge x rmw).Fresh g := by
  intro n hn
  rw [h] at hn
  cases hn

/-- A promise that any write fulfils. -/
def anyWrite : PromiseTests := ⟨fun _ _ => true,fun _ _ => true⟩

/-- RMW 2 reads from promise 0, which the write 1 fulfils. Both come before the write 3. -/
def safeMerge : List Op :=
  [.change (.edit (.addEdge (.action 0) (.promise 0))),
    .change (.edit (.addRMWEdge (.promise 0) 2)),
    .change (.edit (.addEdge (.action 2) (.action 3))),
    .change (.edit (.addEdge (.action 1) (.action 3))),
    .resolvePromise anyWrite 0 1]

theorem safeMerge_issued : IssuedRun false empty safeMerge := by
  refine .step rfl (by rintro e ⟨⟩; trivial) (by simp) ?_
  refine .step rfl (by rintro e ⟨⟩; exact fresh_of_no_node rfl) (by simp) ?_
  refine .step rfl (by rintro e ⟨⟩; trivial) (by simp) ?_
  refine .step rfl (by rintro e ⟨⟩; trivial) (by simp) ?_
  exact .step rfl (by simp) (by simp) trivial

/-- A write node is safe to merge if the RMW comes before its only successor already. -/
theorem mergeSafe_of_edge {g : CycleGraph} {promise : PromiseId} {writer : ActionId}
    {w p r t : NodeId} (hw : g.actionToNode writer = some w) (hp : g.promiseToNode promise = some p)
    (hr : g.getRMW p = some r) (hedges : (g.node w).edges = [t]) (ht : t ∈ (g.node r).edges) :
    MergeSafe g promise writer := by
  intro p' w' r' hp' hw' hr' _ t' ht'
  obtain rfl := Option.some.inj (hw.symm.trans hw')
  obtain rfl := Option.some.inj (hp.symm.trans hp')
  obtain rfl := Option.some.inj (hr.symm.trans hr')
  rw [hedges] at ht'
  obtain rfl := List.mem_singleton.mp ht'
  exact .inr (.inr (.single ht))

theorem safeMerge_safe : SafeRun empty safeMerge := by
  refine .step rfl (by simp) (.step rfl (by simp) (.step rfl (by simp) (.step rfl (by simp)
    (.step rfl ?_ trivial))))
  rintro _ _ _ ⟨⟩
  exact mergeSafe_of_edge (w := 4) (p := 1) (r := 2) (t := 3) rfl rfl rfl rfl (by decide)

theorem rmw_closed_safeMerge : ∃ g, run op empty safeMerge = .ok g ∧ g.getRMW 4 = some 2 ∧
    3 ∈ (g.node 4).edges ∧ ∀ n r t, g.getRMW n = some r → t ∈ (g.node n).edges → t ≠ r →
      ReflTransGen g.nodeOrder.edge r t :=
  ⟨_,rfl,rfl,by decide,rmw_closed_of_safeRun safeMerge_issued safeMerge_safe rfl rfl⟩

/-- The write 3 inherits an edge to the write 1, then takes over promise 0 and its RMW 2. -/
def unsafeMerge : List Op :=
  [.change (.edit (.addEdge (.action 0) (.action 1))),
    .change (.edit (.addEdge (.action 0) (.promise 0))),
    .change (.edit (.addRMWEdge (.promise 0) 2)),
    .change (.edit (.addRMWEdge (.action 0) 3)),
    .resolvePromise anyWrite 0 3]

theorem unsafeMerge_issued : IssuedRun false empty unsafeMerge := by
  refine .step rfl (by rintro e ⟨⟩; trivial) (by simp) ?_
  refine .step rfl (by rintro e ⟨⟩; trivial) (by simp) ?_
  refine .step rfl (by rintro e ⟨⟩; exact fresh_of_no_node rfl) (by simp) ?_
  refine .step rfl (by rintro e ⟨⟩; exact fresh_of_no_node rfl) (by simp) ?_
  exact .step rfl (by simp) (by simp) trivial

/-- Nothing then orders the write 1 behind the RMW 2. -/
theorem rmw_not_closed :
    ¬ ∀ (ops : List Op) (g : CycleGraph), IssuedRun false empty ops → run op empty ops = .ok g →
      g.hasCycles = false → ∀ n r t, g.getRMW n = some r → t ∈ (g.node n).edges → t ≠ r →
        ReflTransGen g.nodeOrder.edge r t := by
  intro h
  have hreach := h unsafeMerge _ unsafeMerge_issued rfl rfl 4 3 1 rfl (by decide) (by decide)
  rcases ReflTransGen.cases_head hreach with heq | ⟨k,hk,_⟩
  · cases heq
  · change k ∈ ([] : List NodeId) at hk
    cases hk

/-- A promise is ordered behind the write 0, and nothing else has a node. -/
def promisedOnly : List Op := [.change (.edit (.addEdge (.action 0) (.promise 0)))]

theorem promisedOnly_acyclic {g : CycleGraph} (hg : run op empty promisedOnly = .ok g) :
    Acyclic g.nodeOrder.edge := by
  obtain rfl := Except.ok.inj (Eq.trans (Eq.refl _) hg)
  have hedge : ∀ x y, y ∈ ((run op empty promisedOnly).toOption.get rfl |>.node x).edges →
      x = 0 ∧ y = 1 := by
    intro x y h
    match x with
    | 0 => exact ⟨rfl,by simpa using (show y ∈ [1] from h)⟩
    | 1 => change y ∈ ([] : List NodeId) at h; cases h
    | x + 2 => change y ∈ ([] : List NodeId) at h; cases h
  intro x hx
  obtain ⟨y,hxy,hyx⟩ := TransGen.head'_iff.mp hx
  obtain ⟨rfl,rfl⟩ := hedge x y hxy
  rcases ReflTransGen.cases_head hyx with heq | ⟨k,hk,_⟩
  · cases heq
  · cases (hedge 1 k hk).1

theorem resolvePromise_quotient_promisedOnly : ∃ g, run op empty promisedOnly = .ok g ∧
    g.resolvePromise anyWrite 0 0 ≠ .error .assertion ∧
    ∀ g', g.resolvePromise anyWrite 0 0 = .ok (g',true) → Quotient g 0 0 1 g' :=
  ⟨_,rfl,(resolvePromise_quotient_iff (show run op empty promisedOnly = .ok _ from rfl)
    (promisedOnly_acyclic rfl) rfl).mpr (by decide)⟩

/-- The write 1, which has no node, cannot take the promise's. -/
theorem resolvePromise_not_quotient :
    ¬ ∀ (ops : List Op) (g : CycleGraph) (tests : PromiseTests) (promise : PromiseId)
      (writer : ActionId) (p : NodeId), run op empty ops = .ok g → Acyclic g.nodeOrder.edge →
      g.promiseToNode promise = some p → tests.isCompatible promise writer = true →
      tests.sameValue promise writer = true →
      g.resolvePromise tests promise writer ≠ .error .assertion ∧
        ∀ g', g.resolvePromise tests promise writer = .ok (g',true) →
          Quotient g writer promise p g' := by
  intro h
  have hres := h promisedOnly _ anyWrite 0 1 1 rfl (promisedOnly_acyclic rfl) rfl rfl rfl
  exact hres.1 (resolvePromise_no_writer rfl)

end CycleGraph
end CdsChecker
