import CdsChecker.CycleGraphRuns

/-! The `hasCycles` flag says exactly whether the surviving insertions contradict each
other. -/
namespace CdsChecker
namespace CycleGraph

open Relation OrderGraph

/-- Two different RMWs read from one write. -/
def TwoRMWs (es : List Edit) : Prop :=
  ∃ x r₁ r₂, r₁ ≠ r₂ ∧ Edit.addRMWEdge x r₁ ∈ es ∧ Edit.addRMWEdge x r₂ ∈ es

/-- Some part of the run reaches an order with a directed cycle. -/
def MeetsCycle (es : List Edit) : Prop :=
  ∃ pre o, pre <+: es ∧ Savepoint.Steps FreshOrders empty.order pre o ∧ ¬ Acyclic o.edge

theorem MeetsCycle.mono {es : List Edit} (e : Edit) (h : MeetsCycle es) :
    MeetsCycle (es ++ [e]) := by
  obtain ⟨pre,o,hpre,hs,ho⟩ := h
  exact ⟨pre,o,hpre.trans (List.prefix_append _ _),hs,ho⟩

theorem TwoRMWs.mono {es : List Edit} (e : Edit) (h : TwoRMWs es) : TwoRMWs (es ++ [e]) := by
  obtain ⟨x,r₁,r₂,hne,h₁,h₂⟩ := h
  exact ⟨x,r₁,r₂,hne,List.mem_append_left _ h₁,List.mem_append_left _ h₂⟩

/-- What a run of insertions from the empty graph maintains. -/
structure Exact (es : List Edit) (o : OrderGraph GraphObj) : Prop where
  sound : ¬ o.cyclic → Acyclic o.edge
  link : ∀ x y, o.next x = some y → o.edge x y ∧ ∃ r, y = .action r ∧ .addRMWEdge x r ∈ es
  claimed : ∀ x r, .addRMWEdge x r ∈ es → o.next x ≠ none
  twice : TwoRMWs es → o.cyclic
  cause : o.cyclic → MeetsCycle es ∨ TwoRMWs es

theorem order_empty_edge (x y : GraphObj) : ¬ empty.order.edge x y := by
  rintro ⟨m,n,hm,_⟩
  cases x <;> simp [empty,getNodeNoCreate] at hm

theorem order_empty_next (x : GraphObj) : empty.order.next x = none := by
  cases x <;> rfl

theorem order_empty_cyclic : ¬ empty.order.cyclic := by
  simp [order,OrderGraph.pull,nodeOrder,empty]

theorem Exact.empty : Exact [] empty.order where
  sound := by
    intro _ x hx
    obtain ⟨y,hxy,_⟩ := TransGen.head'_iff.mp hx
    exact order_empty_edge x y hxy
  link := by simp [order_empty_next]
  claimed := by simp
  twice := by simp [TwoRMWs]
  cause := fun h => (order_empty_cyclic h).elim

theorem Exact.addEdge {es : List Edit} {o o' : OrderGraph GraphObj} {x y : GraphObj}
    (h : Exact es o) (hs : Savepoint.Steps FreshOrders CycleGraph.empty.order
    (es ++ [.addEdge x y]) o')
    (ho : AddEdge o x y o') : Exact (es ++ [.addEdge x y]) o' where
  sound := ho.sound h.sound
  link := by
    intro a b hab
    rw [ho.next_eq] at hab
    obtain ⟨he,r,hr,hmem⟩ := h.link a b hab
    exact ⟨ho.edge_mono he,r,hr,List.mem_append_left _ hmem⟩
  claimed := by
    intro a r hmem
    rw [ho.next_eq]
    exact h.claimed a r (by simpa using hmem)
  twice := by
    rintro ⟨a,r₁,r₂,hne,h₁,h₂⟩
    exact ho.cyclic_mono (h.twice ⟨a,r₁,r₂,hne,by simpa using h₁,by simpa using h₂⟩)
  cause := by
    intro hc
    rcases ho.cause hc with hc | hc
    · exact (h.cause hc).imp (.mono _) (.mono _)
    · exact Or.inl ⟨_,o',List.prefix_rfl,hs,hc⟩

theorem Exact.addRMWEdge {es : List Edit} {o o' : OrderGraph GraphObj} {x : GraphObj}
    {rmw : ActionId} (h : Exact es o)
    (hs : Savepoint.Steps FreshOrders CycleGraph.empty.order (es ++ [.addRMWEdge x rmw]) o')
    (hf : Edit.FreshIn o (.addRMWEdge x rmw)) (ho : AddNext o x (.action rmw) o') :
    Exact (es ++ [.addRMWEdge x rmw]) o' := by
  have hmem : Edit.addRMWEdge x rmw ∈ es ++ [.addRMWEdge x rmw] := by simp
  have hnext : ∀ a, o'.next a = o.next a ∨
      (a = x ∧ o.next x = none ∧ o'.next a = some (.action rmw)) := by
    intro a
    rw [ho.next_eq]
    cases hx : o.next x with
    | some m => rw [attach_next_of_some _ hx]; exact Or.inl rfl
    | none =>
      rw [attach_next_of_none _ hx]
      by_cases ha : a = x
      · subst ha; simp
      · simp [ha]
  refine ⟨ho.sound hf.2 h.sound,?_,?_,?_,?_⟩
  · intro a b hab
    rcases hnext a with ha | ⟨rfl,_,ha⟩
    · obtain ⟨he,r,hr,hmem'⟩ := h.link a b (ha ▸ hab)
      exact ⟨ho.edge_mono he,r,hr,List.mem_append_left _ hmem'⟩
    · obtain rfl := Option.some.inj (ha.symm.trans hab)
      exact ⟨ho.edge_new,rmw,rfl,hmem⟩
  · intro a r har
    rcases hnext a with ha | ⟨_,_,ha⟩
    · rw [ha]
      rcases List.mem_append.mp har with har | har
      · exact h.claimed a r har
      · -- the link of `x` itself did not change, so it was there before
        obtain ⟨rfl,rfl⟩ : a = x ∧ r = rmw := by simpa using har
        intro hnone
        rw [ho.next_eq,attach_next_of_none _ hnone] at ha
        simp [hnone] at ha
    · simp [ha]
  · rintro ⟨a,r₁,r₂,hne,h₁,h₂⟩
    have hold : ∀ r, Edit.addRMWEdge x r ∈ es → o'.cyclic := by
      intro r hr
      cases hx : o.next x with
      | none => exact (h.claimed x r hr hx).elim
      | some m => exact ho.cyclic_of_next hx
    simp only [List.mem_append,List.mem_singleton,Edit.addRMWEdge.injEq] at h₁ h₂
    rcases h₁ with h₁ | ⟨rfl,rfl⟩
    · rcases h₂ with h₂ | ⟨rfl,rfl⟩
      · exact ho.cyclic_mono (h.twice ⟨a,r₁,r₂,hne,h₁,h₂⟩)
      · exact hold r₁ h₁
    · rcases h₂ with h₂ | ⟨_,rfl⟩
      · exact hold r₂ h₂
      · exact (hne rfl).elim
  · intro hc
    rcases ho.cause hc with hc | hc | ⟨m,hm⟩
    · exact (h.cause hc).imp (.mono _) (.mono _)
    · exact Or.inl ⟨_,o',List.prefix_rfl,hs,hc⟩
    · obtain ⟨he,r,rfl,hr⟩ := h.link x m hm
      refine Or.inr ⟨x,r,rmw,?_,List.mem_append_left _ hr,hmem⟩
      rintro rfl
      exact hf.2 x he

/-- Every run of insertions of fresh RMWs is exact. -/
theorem exact_of_steps {es : List Edit} {o : OrderGraph GraphObj}
    (hs : Savepoint.Steps FreshOrders empty.order es o) : Exact es o := by
  induction es using List.reverseRecOn generalizing o with
  | nil => cases hs; exact .empty
  | append_singleton es e ih =>
    obtain ⟨o₁,h₁,h₂⟩ := hs.split
    cases h₂ with
    | cons he hnil =>
      cases hnil
      cases e with
      | addEdge x y => exact (ih h₁).addEdge hs he.2
      | addRMWEdge x rmw => exact (ih h₁).addRMWEdge hs he.1 he.2

theorem FreshOrders.unique {o o₁ o₂ : OrderGraph GraphObj} {e : Edit} (h₁ : FreshOrders o e o₁)
    (h₂ : FreshOrders o e o₂) : o₁ = o₂ := h₁.2.unique h₂.2

theorem FreshOrders.cyclic_mono {o o' : OrderGraph GraphObj} {e : Edit} (h : FreshOrders o e o')
    (hc : o.cyclic) : o'.cyclic := by
  cases e with
  | addEdge => exact AddEdge.cyclic_mono h.2 hc
  | addRMWEdge => exact AddNext.cyclic_mono h.2 hc

/-- The flag of an order reached by insertions. -/
theorem cyclic_iff_of_steps {es : List Edit} {o : OrderGraph GraphObj}
    (hs : Savepoint.Steps FreshOrders empty.order es o) :
    o.cyclic ↔ MeetsCycle es ∨ TwoRMWs es := by
  refine ⟨(exact_of_steps hs).cause,?_⟩
  rintro (⟨pre,o₁,⟨rest,rfl⟩,h₁,hc⟩ | h)
  · obtain ⟨o₂,h₂,hrest⟩ := hs.split
    obtain rfl := Savepoint.Steps.unique (R := FreshOrders) FreshOrders.unique h₁ h₂
    have hcyc : o₁.cyclic := by
      by_contra hno
      exact hc ((exact_of_steps h₁).sound hno)
    exact hrest.invariant FreshOrders.cyclic_mono hcyc
  · exact (exact_of_steps hs).twice h

/-! ### Walks that end -/

/-- Both graphs of a run with a savepoint keep their RMW chains well founded. -/
theorem change_total {b g : CycleGraph} (h : Backed b g) {c : Change}
    (hf : ∀ e, c = .edit e → e.Fresh g)
    (hself : ∀ x r, c = .edit (.addRMWEdge x r) → x ≠ .action r)
    (hb : WellFounded (Chain b.order.next)) (hg : WellFounded (Chain g.order.next)) :
    g.change c = .error .assertion ∨ ∃ b' g', g.change c = .ok g' ∧ Backed b' g' ∧
      WellFounded (Chain b'.order.next) ∧ WellFounded (Chain g'.order.next) := by
  cases c with
  | edit e =>
    have hfe := (hf e rfl).freshIn h.wellFormed
    right
    cases e with
    | addEdge x y =>
      obtain ⟨o,ho⟩ := AddEdge.total hg x y
      obtain ⟨g',hg'⟩ := edit_total h.wellFormed hfe (e := .addEdge x y) ho
      obtain ⟨h',ho'⟩ := h.edit hg'
      refine ⟨b,g',hg',h',hb,?_⟩
      rw [AddEdge.next_eq ho']
      exact hg
    | addRMWEdge x rmw =>
      have hne := hself x rmw rfl
      have hwf : WellFounded (Chain (g.order.attach x (.action rmw)).next) := by
        cases hx : g.order.next x with
        | some m => rw [attach_next_of_some _ hx]; exact hg
        | none => rw [attach_next_of_none _ hx]; exact chain_wf_update hne hfe.1 hg
      obtain ⟨o,ho⟩ : ∃ o, AddNext g.order x (.action rmw) o :=
        AddEdge.total (o := (g.order.attach x (.action rmw)).transfer x (.action rmw)) hwf _ _
      obtain ⟨g',hg'⟩ := edit_total h.wellFormed hfe (e := .addRMWEdge x rmw) ho
      obtain ⟨h',ho'⟩ := h.edit hg'
      refine ⟨b,g',hg',h',hb,?_⟩
      rw [AddNext.next_eq ho']
      exact hwf
  | startChanges =>
    cases hs : g.startChanges with
    | error e =>
      left
      rw [change,hs,startChanges_eq_error hs]
    | ok g' =>
      obtain ⟨_,_,_,rfl⟩ := startChanges_eq_ok.mp hs
      exact Or.inr ⟨b,g,hs,h,hb,hg⟩
  | commitChanges =>
    refine Or.inr ⟨_,_,rfl,Backed.commit h.wellFormed,?_,?_⟩ <;>
      rw [commitChanges_order] <;> exact hg
  | rollbackChanges =>
    refine Or.inr ⟨_,_,rfl,h.rollback,?_,?_⟩ <;> rw [h.rollback_order] <;> exact hb

/-- No call loops for ever when no RMW reads from itself. -/
theorem run_change_terminates {cs : List Change} {b g : CycleGraph} (h : Backed b g)
    (hf : FreshRun g cs) (hself : ∀ x r, Change.edit (.addRMWEdge x r) ∈ cs → x ≠ .action r)
    (hb : WellFounded (Chain b.order.next)) (hg : WellFounded (Chain g.order.next)) :
    run change g cs ≠ .error .diverges := by
  induction cs generalizing b g with
  | nil => simp [run]
  | cons c cs ih =>
    rw [run,ne_eq,bind_eq_error]
    have hself' : ∀ x r, Change.edit (.addRMWEdge x r) ∈ cs → x ≠ .action r :=
      fun x r hm => hself x r (List.mem_cons_of_mem _ hm)
    rcases change_total h hf.1 (fun x r hc => hself x r (hc ▸ List.mem_cons_self)) hb hg with
      hc | ⟨b',g',hc,h',hb',hg'⟩
    · simp [hc]
    · rintro (he | ⟨g₁,hg₁,he⟩)
      · simp [hc] at he
      · obtain rfl := Except.ok.inj (hc.symm.trans hg₁)
        exact ih h' (hf.2 g' hc) hself' hb' hg' he

/-- The flag is exact: it is set after a run just when the surviving insertions, run on
their own, meet a directed cycle or give one write two RMWs. -/
theorem checkForCycles_exact (cs : List Change) (hfresh : FreshRun empty cs) :
    ((∀ x r, Change.edit (.addRMWEdge x r) ∈ cs → x ≠ .action r) →
      run change empty cs ≠ .error .diverges) ∧
    ∀ g, run change empty cs = .ok g →
      (g.checkForCycles = true ↔
        (∃ pre h n, pre <+: survivors cs ∧ run CycleGraph.edit empty pre = .ok h ∧
          TransGen (fun m n => n ∈ (h.node m).edges) n n) ∨ TwoRMWs (survivors cs)) := by
  have hacc : WellFounded (Chain empty.order.next) :=
    ⟨fun x => ⟨_,fun y hy => by simp [Chain,order_empty_next] at hy⟩⟩
  refine ⟨fun hself => run_change_terminates .empty hfresh hself hacc hacc,fun g hg => ?_⟩
  obtain ⟨b,hb,hrun⟩ := run_refines .empty hfresh hg
  have hsteps : Savepoint.Steps FreshOrders empty.order (survivors cs) g.order := hrun.survivors
  have hcyc : g.checkForCycles = true ↔ g.order.cyclic := Iff.rfl
  rw [hcyc,cyclic_iff_of_steps hsteps]
  refine or_congr_left ⟨?_,?_⟩
  · rintro ⟨pre,o,hpre,hs,ho⟩
    obtain ⟨h,hh,hwf,rfl⟩ := run_of_steps .empty hs
    rw [order,hwf.naming.acyclic_iff] at ho
    simp only [Acyclic,not_forall,not_not] at ho
    obtain ⟨n,hn⟩ := ho
    exact ⟨pre,h,n,hpre,hh,hn⟩
  · rintro ⟨pre,h,n,hpre,hh,hn⟩
    obtain ⟨rest,hrest⟩ := hpre
    rw [← hrest] at hsteps
    obtain ⟨o,hs,_⟩ := hsteps.split
    obtain ⟨h',hh',hwf,rfl⟩ := run_of_steps .empty hs
    obtain rfl := Except.ok.inj (hh.symm.trans hh')
    refine ⟨pre,_,⟨rest,hrest⟩,hs,fun hac => ?_⟩
    exact (hwf.naming.acyclic_iff.mp hac) n hn

/-- A cycle through an RMW is rolled back, and then another one is closed. -/
def loops : List Change :=
  [.edit (.addRMWEdge (.action 0) 1),.edit (.addEdge (.action 1) (.action 0)),.rollbackChanges,
    .edit (.addEdge (.action 0) (.action 2)),.commitChanges,.edit
    (.addEdge (.action 2) (.action 0))]

theorem checkForCycles_exact_loop : run change empty loops ≠ .error .diverges ∧
    ∃ g, run change empty loops = .ok g ∧ g.checkForCycles = true ∧
      ((∃ pre h n, pre <+: survivors loops ∧ run CycleGraph.edit empty pre = .ok h ∧
        TransGen (fun m n => n ∈ (h.node m).edges) n n) ∨ TwoRMWs (survivors loops)) := by
  have hfresh : FreshRun empty loops := by
    simp [loops,FreshRun,Edit.Fresh,CycleGraph.empty]
  obtain ⟨hreturns,hflag⟩ := checkForCycles_exact loops hfresh
  have hself : ∀ x r, Change.edit (.addRMWEdge x r) ∈ loops → x ≠ .action r := by
    simp [loops]
  exact ⟨hreturns hself,_,rfl,rfl,(hflag _ rfl).mp rfl⟩

end CycleGraph
end CdsChecker
