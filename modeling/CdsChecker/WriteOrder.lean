import CdsChecker.EdgePlaces

/-! The modification order of a run: it relates what is at one location, has no cycle, and puts each
RMW behind what it reads from. -/
namespace CdsChecker
namespace Execution

open Relation OrderGraph CycleGraph

/-- An RMW of the execution, and what it reads from. -/
def RmwFrom (e : Execution) (a : ActionId) (y : GraphObj) : Prop :=
  a ∈ e.actionTrace ∧ (e.acts a).isRmw = true ∧ e.source a = some y

/-- The modification order of an execution that may still be feasible. -/
structure WriteOrder (e : Execution) : Prop where
  within : e.moGraph.order.Within e.place
  acyclic : Acyclic e.moGraph.order.edge
  next : ∀ y a, e.moGraph.order.next y = some (.action a) ↔ e.RmwFrom a y
  rmw : ∀ y r, e.moGraph.order.next y = some r → ∃ a, r = .action a
  link : ∀ y r, e.moGraph.order.next y = some r → ReflTransGen e.moGraph.order.edge y r

variable {e e' : Execution} {curr : ActionId}

/-- The same order, for the same RMWs. -/
theorem WriteOrder.of_order (h : e.WriteOrder) (horder : e'.moGraph.order = e.moGraph.order)
    (hplace : ∀ x l, e.place x = some l → e'.place x = some l)
    (hrmw : ∀ a y, e'.RmwFrom a y ↔ e.RmwFrom a y) : e'.WriteOrder where
  within := by
    rw [horder]
    exact h.within.mono hplace
  acyclic := horder ▸ h.acyclic
  next y a := by
    rw [horder,hrmw]
    exact h.next y a
  rmw := horder ▸ h.rmw
  link := horder ▸ h.link

theorem KeepsOrder.rmwFrom (h : KeepsOrder e e') (a : ActionId) (y : GraphObj) :
    e'.RmwFrom a y ↔ e.RmwFrom a y := by
  simp only [RmwFrom,h.actionTrace,ModelAction.isRmw,(h.keeps a).type,h.source]

theorem WriteOrder.same (h : e.WriteOrder) (hk : KeepsOrder e e')
    (horder : e'.moGraph.order = e.moGraph.order) : e'.WriteOrder :=
  h.of_order horder (fun _ _ hx => hk.place ▸ hx) hk.rmwFrom

theorem WriteOrder.calm (h : e.WriteOrder) (hs : CalmSteps e e') : e'.WriteOrder :=
  h.same (OrderSteps.keepsOrder hs.order) (by rw [hs.moGraph])

theorem WriteOrder.startChanges (h : e.WriteOrder) (hs : e.startChanges = .ok e') :
    e'.WriteOrder :=
  h.same (OrderSteps.keepsOrder (startChanges_order hs)) (by rw [startChanges_moGraph hs])

theorem WriteOrder.commitChanges (h : e.WriteOrder) : e.commitChanges.WriteOrder :=
  h.same (OrderSteps.keepsOrder Execution.commitChanges_order)
    (CycleGraph.commitChanges_order e.moGraph)

theorem CalmSteps.doomed (hs : CalmSteps e e') (h : e.Doomed) : e'.Doomed := by
  rw [Doomed,hs.moGraph]
  exact h.imp id (OrderSteps.keepsOrder hs.order).flagged

/-- The order is as it should be, unless the execution has been found to be infeasible. -/
def Arranged (e : Execution) : Prop := e.Doomed ∨ e.WriteOrder

theorem Arranged.calm (h : e.Arranged) (hs : CalmSteps e e') : e'.Arranged :=
  h.imp hs.doomed fun h => h.calm hs

theorem Arranged.startChanges (h : e.Arranged) (hs : e.startChanges = .ok e') : e'.Arranged := by
  refine h.imp (fun hd => ?_) fun h => h.startChanges hs
  rw [Doomed,startChanges_moGraph hs]
  exact hd.imp id (OrderSteps.keepsOrder (startChanges_order hs)).flagged

theorem Arranged.commitChanges (h : e.Arranged) : e.commitChanges.Arranged :=
  h.imp id fun h => h.commitChanges

/-! ### Edges -/

theorem addEdges_within {place : GraphObj → Option Location} {g g' : CycleGraph}
    {edges : List MoEdge} {added : Bool} (h : g.WellFormed) (hw : g.order.Within place)
    (hac : g.hasCycles = false → Acyclic g.order.edge)
    (hfit : ∀ x ∈ edges, SamePlace place x.source x.target)
    (hg : addEdges g edges = .ok (g',added)) : g'.order.Within place ∧
      (g'.hasCycles = false → Acyclic g'.order.edge) ∧ g'.order.next = g.order.next := by
  induction edges generalizing g added with
  | nil =>
    obtain ⟨rfl,-⟩ : g = g' ∧ _ := by simpa [addEdges] using hg
    exact ⟨hw,hac,rfl⟩
  | cons edge edges ih =>
    obtain ⟨⟨g₁,_⟩,h₁,hg⟩ := bind_eq_ok.mp hg
    obtain ⟨⟨g₂,_⟩,h₂,hg⟩ := bind_eq_ok.mp hg
    obtain ⟨rfl,-⟩ : g₂ = g' ∧ _ := by simpa using hg
    have hadd := CycleGraph.addEdge_spec h h₁
    obtain ⟨hwithin,hacyclic,hnext⟩ := ih hadd.wellFormed
      (addEdge_within h hw (hfit edge List.mem_cons_self) h₁) (addEdge_acyclic h hac h₁)
      (fun x hx => hfit x (List.mem_cons_of_mem _ hx)) h₂
    exact ⟨hwithin,hacyclic,hnext.trans hadd.order.next_eq⟩

theorem Arranged.insertEdges {x : GraphObj} {edges : List MoEdge} {b : Bool} (h : e.Arranged)
    (hwf : e.moGraph.WellFormed) (hfit : e.EdgesFit edges)
    (hi : e.insertEdges curr x edges = .ok (e',b)) : e'.Arranged := by
  have hk := insertEdges_keepsOrder hi
  rcases h with hd | h
  · exact .inl (hk.doomed hwf hd)
  obtain ⟨⟨g,added⟩,hg,hi⟩ := bind_eq_ok.mp hi
  obtain ⟨rfl,-⟩ : _ = e' ∧ _ := by simpa using hi
  obtain ⟨hwithin,hacyclic,hnext⟩ := addEdges_within hwf h.within (fun _ => h.acyclic) hfit hg
  have hext := (addEdges_extends hwf hg).1
  cases hc : g.hasCycles with
  | true => exact .inl (.inl hc)
  | false =>
    refine .inr ⟨?_,hacyclic hc,fun y a => ?_,fun y r hr => h.rmw y r (hnext ▸ hr),
      fun y r hr => ?_⟩
    · rw [hk.place]
      exact hwithin
    · rw [hk.rmwFrom]
      dsimp only
      rw [hnext]
      exact h.next y a
    · exact hext.reach (h.link y r (hnext ▸ hr))

theorem Arranged.readEdges {rf : GraphObj} {b : Bool} (h : e.Arranged)
    (hwf : e.moGraph.WellFormed) (hl : e.Listed) (hp : e.Placed)
    (hrf : e.place rf = some (e.acts curr).location)
    (hr : e.rModificationOrder curr rf = .ok (e',b)) : e'.Arranged := by
  obtain ⟨edges,hedges,hr⟩ := bind_eq_ok.mp hr
  exact h.insertEdges hwf (readEdges_fit hl hp hrf hedges) hr

theorem Arranged.writeEdges {b : Bool} (h : e.Arranged) (hwf : e.moGraph.WellFormed)
    (hl : e.Listed) (hm : e.Mapped) (hp : e.Placed) (hcurr : curr ∈ e.actionTrace)
    (hw : e.wModificationOrder curr = .ok (e',b)) : e'.Arranged := by
  obtain ⟨edges,hedges,hw⟩ := bind_eq_ok.mp hw
  exact h.insertEdges hwf (writeEdges_fit hl hm hp hcurr hedges) hw

/-! ### Reads -/

/-- Only what the current action reads changes, and it is no RMW. -/
theorem WriteOrder.reads (h : e.WriteOrder) (hr : Reads e e' curr)
    (hrmw : (e.acts curr).isRmw = false)
    (hplace : ∀ x l, e.place x = some l → e'.place x = some l) : e'.WriteOrder := by
  refine h.of_order (by rw [hr.moGraph]) hplace fun a y => ?_
  rw [RmwFrom,RmwFrom,hr.actionTrace]
  by_cases hac : a = curr
  · subst hac
    have hrmw' : (e'.acts a).isRmw = false := by
      simpa only [ModelAction.isRmw,(hr.act a).type] using hrmw
    simp [hrmw,hrmw']
  · simp only [source,hr.other a hac]

theorem Reads.doomed (h : Reads e e' curr) (hd : e.Doomed) : e'.Doomed := by
  rw [Doomed,h.moGraph]
  exact hd.imp id h.flagged

theorem Arranged.reads (h : e.Arranged) (hr : Reads e e' curr)
    (hrmw : (e.acts curr).isRmw = false)
    (hplace : ∀ x l, e.place x = some l → e'.place x = some l) : e'.Arranged :=
  h.imp hr.doomed fun h => h.reads hr hrmw hplace

theorem setReadFrom_place (e : Execution) (curr rf : ActionId) :
    (e.modifyAct curr fun a => a.setReadFrom rf).place = e.place := by
  have hsame := (setReadFrom_reads e curr rf).act
  funext x
  cases x with
  | action a =>
    simp only [place,ModelAction.isWrite,(hsame a).type,(hsame a).location]
    rfl
  | promise p =>
    simp only [place,(hsame _).location]
    rfl

theorem setReadFrom_source (e : Execution) (curr rf : ActionId) :
    (e.modifyAct curr fun a => a.setReadFrom rf).source curr = some (.action rf) := by
  simp [source,modifyAct,ModelAction.setReadFrom]

/-- The edges of a read whose source has its place. -/
theorem Arranged.begin {rf : GraphObj} {stale b : Bool} {e₁ : Execution} (h : e.Arranged)
    (hwf : e.moGraph.WellFormed) (hl : e.Listed) (hp : e.Placed)
    (hrf : e.place rf = some (e.acts curr).location) (hstart : e.startChanges = .ok e₁)
    (hr : (e₁.markStale stale).rModificationOrder curr rf = .ok (e',b)) :
    e'.Arranged := by
  have hk : KeepsOrder e (e₁.markStale stale) :=
    OrderSteps.keepsOrder ((startChanges_order hstart).trans (markStale_order stale))
  refine ((h.startChanges hstart).calm (markStale_calm stale)).readEdges (hk.graph hwf).wellFormed
    (hl.samePlaces hk.samePlaces) (hk.placed.mpr hp) ?_ hr
  rw [hk.place,(hk.keeps curr).location]
  exact hrf

/-- The read waits for a promise, and comes last among its readers. -/
theorem Arranged.readsPromise {p : PromiseId} {stale b : Bool} {e₁ e₂ : Execution}
    (h : e.Arranged) (hwf : e.moGraph.WellFormed) (hl : e.Listed) (hcurr : curr ∈ e.actionTrace)
    (hrmw : (e.acts curr).isRmw = false) (hr : Reads e e' curr)
    (hsource : e'.source curr = some (.promise p))
    (hfirst : ∀ q ∈ e.promises, q ∈ e'.promises ∧
      ∀ r, (e.proms q).readers.head? = some r → (e'.proms q).readers.head? = some r)
    (hstart : e'.startChanges = .ok e₁)
    (hmo : (e₁.markStale stale).rModificationOrder curr (.promise p) = .ok (e₂,b))
    (hp : e₂.commitChanges.Placed) : e₂.commitChanges.Arranged := by
  have hplace : ∀ x l, e.place x = some l → e'.place x = some l := fun x l hx => by
    cases x with
    | action a =>
      obtain ⟨⟨hmem,hwrite⟩,rfl⟩ := place_action.mp hx
      rw [ModelAction.isWrite,← (hr.act a).type] at hwrite
      exact place_action.mpr ⟨⟨hr.actionTrace.symm ▸ hmem,hwrite⟩,(hr.act a).location⟩
    | promise q =>
      obtain ⟨hq,r,hhead,rfl⟩ := place_promise.mp hx
      exact place_promise.mpr ⟨(hfirst q hq).1,r,(hfirst q hq).2 r hhead,(hr.act r).location⟩
  have hk : KeepsOrder e' e₂.commitChanges :=
    OrderSteps.keepsOrder ((((startChanges_order hstart).trans
    (markStale_order stale)).trans (rModificationOrder_order hmo)).trans commitChanges_order)
  have hplaced := hk.placed.mp hp
  have hrf := (hplaced.sources curr (hr.actionTrace.symm ▸ hcurr) _ hsource).2
  exact ((h.reads hr hrmw hplace).begin (hr.moGraph.symm ▸ hwf) (hl.samePlaces hr.samePlaces)
    hplaced hrf hstart hmo).commitChanges

theorem processRead_arranged {node : Choices} {b : Bool} (h : e.Arranged)
    (hwf : e.moGraph.WellFormed) (hl : e.Listed) (hp : e.Placed) (hp' : e'.Placed)
    (hvalid : e.PromisesValid) (hcurr : curr ∈ e.actionTrace) (hrmw : (e.acts curr).isRmw = false)
    (hread : e.processRead curr node = .ok (e',b)) : e'.Arranged := by
  cases hnode : node.readFrom with
  | past rf =>
    simp only [processRead,hnode] at hread
    obtain ⟨e₁,h₁,hread⟩ := bind_eq_ok.mp hread
    obtain ⟨_,_,hread⟩ := bind_eq_ok.mp hread
    obtain ⟨⟨e₂,_⟩,h₂,hread⟩ := bind_eq_ok.mp hread
    obtain ⟨⟨e₃,_⟩,h₃,hread⟩ := bind_eq_ok.mp hread
    obtain ⟨e₄,h₄,hread⟩ := bind_eq_ok.mp hread
    obtain rfl : e₄ = e' := congrArg Prod.fst (Except.ok.inj hread)
    set e₀ := e₂.modifyAct curr fun a => a.setReadFrom rf with he₀
    have hset : CalmSteps e₀ e₃ := (readFrom_calm h₃).2
    have hcheck := moCheckPromises_calm h₄
    have hk₂ : KeepsOrder e e₂ := OrderSteps.keepsOrder (((startChanges_order h₁).trans
      (markStale_order node.stale)).trans (rModificationOrder_order h₂))
    have hk₄ : KeepsOrder e₀ e₄ :=
      OrderSteps.keepsOrder ((hset.order.trans commitChanges_order).trans hcheck.order)
    have hreads := setReadFrom_reads e₂ curr rf
    -- the source is known to be placed from the end of the step
    have hrf : e.place (.action rf) = some (e.acts curr).location := by
      have hplace := ((hk₄.placed.mp hp').sources curr (hk₂.actionTrace.symm ▸ hcurr)
        (.action rf) (e₂.setReadFrom_source curr rf)).2
      rw [e₂.setReadFrom_place,hk₂.place,(hreads.act curr).location,
        (hk₂.keeps curr).location] at hplace
      exact hplace
    have hrmw₂ : (e₂.acts curr).isRmw = false := by
      simpa only [ModelAction.isRmw,(hk₂.keeps curr).type] using hrmw
    have hread : e₀.Arranged := (h.begin hwf hl hp hrf h₁ h₂).reads hreads hrmw₂ fun x l hx =>
      e₂.setReadFrom_place curr rf ▸ hx
    exact (hread.calm hset).commitChanges.calm hcheck
  | promise p =>
    simp only [processRead,hnode] at hread
    obtain ⟨e₁,h₁,hread⟩ := bind_eq_ok.mp hread
    obtain ⟨⟨e₂,_⟩,h₂,hread⟩ := bind_eq_ok.mp hread
    obtain rfl : _ = e' := congrArg Prod.fst (Except.ok.inj hread)
    set e₀ := (if ((e.proms p).addReader curr (e.acts curr).tid).2 = true then
        { e.modifyPromise p fun _ => ((e.proms p).addReader curr (e.acts curr).tid).1 with
          failedPromise := true }
      else e.modifyPromise p fun _ => ((e.proms p).addReader curr (e.acts curr).tid).1).modifyAct
        curr fun a => a.setReadFromPromise p with he₀
    have hreads : Reads e e₀ curr := by
      rw [he₀]
      split <;> exact ⟨rfl,rfl,rfl,rfl,rfl,id,setReadFromPromise_same e curr p,
        fun a ha => by simp [modifyAct,modifyPromise,ha]⟩
    have hself : (e₀.acts curr).readsFrom = none ∧ (e₀.acts curr).readsFromPromise = some p := by
      rw [he₀]
      split <;> simp [modifyAct,modifyPromise,ModelAction.setReadFromPromise]
    have hpromises : e₀.promises = e.promises := by
      rw [he₀]
      split <;> rfl
    have hproms : ∀ q, (e₀.proms q).readers =
        if q = p then (e.proms p).readers ++ [curr] else (e.proms q).readers := fun q => by
      rw [he₀]
      split <;> by_cases hq : q = p <;> simp [modifyAct,modifyPromise,hq,readers_addReader]
    refine h.readsPromise hwf hl hcurr hrmw hreads (source_promise.mpr hself)
      (fun q hq => ?_) h₁ h₂ hp'
    refine ⟨hpromises.symm ▸ hq,fun r hr => ?_⟩
    rw [hproms]
    split
    · rename_i heq
      rw [List.head?_append,← heq,hr]
      rfl
    · exact hr
  | future fv =>
    simp only [processRead,hnode] at hread
    obtain ⟨e₁,h₁,hread⟩ := bind_eq_ok.mp hread
    obtain ⟨⟨e₂,b⟩,h₂,hread⟩ := bind_eq_ok.mp hread
    obtain rfl : _ = e' := congrArg Prod.fst (Except.ok.inj hread)
    have h₂ : (e₁.markStale false).rModificationOrder curr (.promise e.numProms) = .ok (e₂,b) := h₂
    set e₀ : Execution := { ({ e with
        proms := Function.update e.proms e.numProms (Promise.create curr (e.acts curr).tid fv)
        numProms := e.numProms + 1 } : Execution).modifyAct curr
          (fun a => a.setReadFromPromise e.numProms) with
        promises := e.promises ++ [e.numProms] } with he₀
    have hreads : Reads e e₀ curr :=
      ⟨rfl,rfl,rfl,rfl,rfl,id,setReadFromPromise_same e curr e.numProms,
        fun a ha => by simp [he₀,modifyAct,ha]⟩
    have hself : (e₀.acts curr).readsFrom = none ∧
        (e₀.acts curr).readsFromPromise = some e.numProms := by
      simp [he₀,modifyAct,ModelAction.setReadFromPromise]
    refine h.readsPromise hwf hl hcurr hrmw hreads (source_promise.mpr hself)
      (fun q hq => ?_) h₁ h₂ hp'
    have hne : q ≠ e.numProms := Nat.ne_of_lt (hvalid.lt q hq)
    exact ⟨by simp [he₀,hq],fun r hr => by simpa [he₀,modifyAct,hne] using hr⟩

/-! ### Promises that are kept -/

theorem readersReadFrom_moGraph {write : ActionId} {l : List ActionId} {items : List WorkItem}
    (h : readersReadFrom write l e = .ok (e',items)) : e'.moGraph = e.moGraph := by
  induction l generalizing e items with
  | nil =>
    obtain ⟨rfl,-⟩ : e = e' ∧ _ := by simpa [readersReadFrom] using h
    rfl
  | cons read reads ih =>
    obtain ⟨⟨e₁,updated⟩,h₁,h⟩ := bind_eq_ok.mp h
    obtain ⟨⟨e₂,_⟩,h₂,h⟩ := ite_bind_eq_ok.mp h
    obtain ⟨⟨e₃,_⟩,h₃,h⟩ := bind_eq_ok.mp h
    obtain ⟨rfl,-⟩ : e₃ = e' ∧ _ := by simpa using h
    have hread : e₁.moGraph = e.moGraph := (readFrom_calm h₁).2.moGraph
    have hpropagate : e₂.moGraph = e₁.moGraph := by
      split at h₂
      · exact CalmSteps.moGraph (propagateClockvector_calm h₂)
      · obtain ⟨rfl,-⟩ : e₁ = e₂ ∧ _ := by simpa using h₂
        rfl
    exact (ih h₃).trans (hpropagate.trans hread)

theorem mem_eraseIdx_iff {l : List PromiseId} {i : ℕ} {p : PromiseId} (hnodup : l.Nodup)
    (hi : l[i]? = some p) (q : PromiseId) : q ∈ l.eraseIdx i ↔ q ≠ p ∧ q ∈ l := by
  obtain ⟨hlt,rfl⟩ := List.getElem?_eq_some_iff.mp hi
  rw [← hnodup.erase_getElem i hlt,hnodup.mem_erase_iff]

/-- The readers of the promise `p` read from the write `w` now. -/
structure Kept (e e' : Execution) (w : ActionId) (p : PromiseId) : Prop where
  actionTrace : e'.actionTrace = e.actionTrace
  isRmw : ∀ a, (e'.acts a).isRmw = (e.acts a).isRmw
  source : ∀ a ∈ e.actionTrace,
    e'.source a = (e.source a).map (merged (.action w) (.promise p))
  place : ∀ x, x ≠ .promise p → e'.place x = e.place x

theorem readersReadFrom_kept {p : PromiseId} {i : ℕ} {items : List WorkItem}
    (h : readersReadFrom curr (e.proms p).readers { e with promises := e.promises.eraseIdx i } =
      .ok (e',items)) (hi : e.promises[i]? = some p) (hnodup : e.promises.Nodup)
    (ha : e.Awaits) : Kept e e' curr p := by
  have hk := readersReadFrom_keepsOrder h
  set e₀ : Execution := { e with promises := e.promises.eraseIdx i } with he₀
  set readers := (e.proms p).readers with hreaders
  have hkeeps : ∀ a, (e.acts a).Keeps (e'.acts a) := fun a =>
    (e₀.redirect_same readers curr a).keeps.trans (hk.keeps a)
  have hwaits : ∀ a, a ∈ readers ↔ a ∈ e.actionTrace ∧ e.source a = some (.promise p) :=
    fun a => by
      rw [source_promise]
      constructor
      · exact ha.reader p (List.mem_of_getElem? hi) a
      · rintro ⟨htrace,hnone,hpromise⟩
        exact (ha.pending a htrace p hnone hpromise).2
  refine ⟨hk.actionTrace,fun a => by simp only [ModelAction.isRmw,(hkeeps a).type],
    fun a htrace => ?_,fun x hx => ?_⟩
  · rw [hk.source]
    by_cases har : a ∈ readers
    · rw [((hwaits a).mp har).2]
      simp [Execution.source,redirect,har,ModelAction.setReadFrom,merged]
    · have hsame : (e₀.redirect readers curr).source a = e.source a := by
        simp [Execution.source,redirect,har,he₀]
      rw [hsame]
      cases hs : e.source a with
      | none => rfl
      | some x =>
        have hx : x ≠ .promise p := fun hx => har ((hwaits a).mpr ⟨htrace,hx ▸ hs⟩)
        simp [merged,hx]
  · cases x with
    | action a =>
      have htrace : e'.actionTrace = e.actionTrace := hk.actionTrace
      have hwrite : (e'.acts a).isWrite = (e.acts a).isWrite := by
        simp only [ModelAction.isWrite,(hkeeps a).type]
      simp only [Execution.place,htrace,hwrite,(hkeeps a).location]
    | promise q =>
      have hqp : q ≠ p := fun hq => hx (congrArg GraphObj.promise hq)
      have hpending : q ∈ e'.promises ↔ q ∈ e.promises := by
        rw [hk.promises]
        exact (mem_eraseIdx_iff hnodup hi q).trans (and_iff_right hqp)
      have hq : (e'.proms q).readers = (e.proms q).readers := hk.readers q
      simp only [Execution.place,hpending,hq,(hkeeps _).location]

/-- The order when the promise gives up its place to the write. -/
theorem WriteOrder.kept {p : PromiseId} {tests : PromiseTests} (h : e.WriteOrder)
    (hk : Kept e e' curr p) (hwf : e.moGraph.WellFormed)
    (hjoin : SamePlace e.place (.action curr) (.promise p))
    (hg : e.moGraph.resolvePromise tests p curr = .ok (e'.moGraph,true)) : e'.WriteOrder := by
  have hnext := CycleGraph.resolvePromise_next hwf hg
  obtain ⟨hwithin,hacyclic,hiso,hnext'⟩ :=
    CycleGraph.resolvePromise_within hwf h.within hjoin h.acyclic hg
  have hmoved : ∀ y r, e'.moGraph.order.next y = some r ↔
      ∃ x, merged (.action curr) (.promise p) x = y ∧ e.moGraph.order.next x = some r := by
    rw [hnext']
    exact adopt_forget_next (by simp) hnext
  have hrmw : ∀ y r, e'.moGraph.order.next y = some r → ∃ a, r = .action a := fun y r hr => by
    obtain ⟨x,-,hx⟩ := (hmoved y r).mp hr
    exact h.rmw x r hx
  refine ⟨?_,hacyclic,fun y a => ?_,hrmw,fun y r hr => ?_⟩
  · refine hwithin.leave hiso ?_ (fun x hx => ?_) hk.place
    · rw [hnext']
      simp [forget]
    · obtain ⟨a,ha⟩ := hrmw x _ hx
      cases ha
  · simp only [hmoved,h.next,RmwFrom,hk.isRmw,hk.actionTrace]
    constructor
    · rintro ⟨x,hx,hmem,hisRmw,hs⟩
      refine ⟨hmem,hisRmw,?_⟩
      rw [hk.source a hmem,hs,Option.map_some,hx]
    · rintro ⟨hmem,hisRmw,hs⟩
      rw [hk.source a hmem] at hs
      obtain ⟨x,hx,hxy⟩ := Option.map_eq_some_iff.mp hs
      exact ⟨x,hxy,hmem,hisRmw,hx⟩
  · obtain ⟨x,rfl,hx⟩ := (hmoved y r).mp hr
    obtain ⟨a,rfl⟩ := h.rmw x r hx
    have hcyclic := CycleGraph.resolvePromise_hasCycles hwf hg
    have hreach := (resolvePromise_reach hwf hg).2.resolve_left (by simp [hcyclic])
    exact hreach.resolve_left (by simp) x _ (h.link x _ hx)

theorem resolvePromise_writeOrder {p : PromiseId} {i : ℕ} {items : List WorkItem}
    (hr : ({ e with promises := e.promises.eraseIdx i } : Execution).resolvePromise curr p =
      .ok (e',items)) (hi : e.promises[i]? = some p) (hnodup : e.promises.Nodup)
    (hwf : e.moGraph.WellFormed) (ha : e.Awaits) (hp : e.Placed) (hcurr : curr ∈ e.actionTrace)
    (hwrite : (e.acts curr).isWrite = true) (h : e.WriteOrder) : e'.Arranged := by
  obtain ⟨⟨e₁,_⟩,h₁,hr⟩ := bind_eq_ok.mp hr
  obtain ⟨_,hassert,hr⟩ := bind_eq_ok.mp hr
  obtain ⟨⟨g,resolved⟩,hg,hr⟩ := bind_eq_ok.mp hr
  obtain ⟨e₃,h₃,hr⟩ := bind_eq_ok.mp hr
  obtain rfl : e₃ = e' := congrArg Prod.fst (Except.ok.inj hr)
  clear hr
  have hcalm := moCheckReads_calm h₃
  set e₂ : Execution := { e₁ with
    moGraph := g
    hardFailedPromise := e₁.hardFailedPromise || !resolved } with he₂
  cases resolved with
  | false =>
    refine .inl (.inr ((OrderSteps.keepsOrder hcalm.order).flagged ?_))
    simp [Flagged,he₂]
  | true =>
    have hk := readersReadFrom_kept h₁ hi hnodup ha
    have hkeeps := fun a => (redirect_same _ _ curr a).keeps.trans
      ((readersReadFrom_keepsOrder h₁).keeps a)
    have hgraph := readersReadFrom_moGraph h₁
    have hassert := assert_eq_ok.mp hassert
    rw [Bool.and_eq_true,isCompatible,Bool.and_eq_true,sameLocation,
      (readersReadFrom_keepsOrder h₁).readers] at hassert
    obtain ⟨r,hhead,hvar⟩ := (Option.any_eq_true _ _).mp hassert.1.2
    have hsame : e.sameLocation p curr = true := (Option.any_eq_true _ _).mpr
      ⟨r,hhead,sameVar_of_keeps (hkeeps r) (hkeeps curr) ▸ hvar⟩
    have hjoin : SamePlace e.place (.action curr) (.promise p) :=
      ⟨_,place_action.mpr ⟨⟨hcurr,hwrite⟩,rfl⟩,
        hp.promises p (List.mem_of_getElem? hi) curr (isWait_of_isWrite hwrite) hsame⟩
    have hk₂ : Kept e e₂ curr p := ⟨hk.actionTrace,hk.isRmw,hk.source,hk.place⟩
    exact .inr ((h.kept hk₂ hwf hjoin (hgraph ▸ hg)).calm hcalm)

theorem resolvePromise_doomed {p : PromiseId} {items : List WorkItem}
    (hr : e.resolvePromise curr p = .ok (e',items)) (hwf : e.moGraph.WellFormed)
    (h : e.Doomed) : e'.Doomed := by
  obtain ⟨⟨e₁,_⟩,h₁,hr⟩ := bind_eq_ok.mp hr
  obtain ⟨_,_,hr⟩ := bind_eq_ok.mp hr
  obtain ⟨⟨g,resolved⟩,hg,hr⟩ := bind_eq_ok.mp hr
  obtain ⟨e₃,h₃,hr⟩ := bind_eq_ok.mp hr
  obtain rfl : e₃ = e' := congrArg Prod.fst (Except.ok.inj hr)
  have hk := readersReadFrom_keepsOrder h₁
  have hgraph : e.moGraph.Extends e₁.moGraph := hk.graph hwf
  refine (moCheckReads_calm h₃).doomed ?_
  rcases h with hc | hf
  · rcases (resolvePromise_reach hgraph.wellFormed hg).1 (hgraph.cyclic hc) with hc | rfl
    · exact .inl hc
    · exact .inr (by simp [Flagged])
  · have hf : e₁.Flagged := hk.flagged hf
    simp only [Doomed,Flagged,Bool.or_eq_true] at hf ⊢
    tauto

theorem keepPromise_arranged {index : Option ℕ} {b : Bool} {items : List WorkItem}
    (hkeep : e.keepPromise curr index = .ok (e',b,items)) (hnodup : e.promises.Nodup)
    (hwf : e.moGraph.WellFormed) (ha : e.Awaits) (hp : e.Placed) (hcurr : curr ∈ e.actionTrace)
    (hwrite : (e.acts curr).isWrite = true) (h : e.Arranged) :
    e'.Arranged := by
  cases index with
  | none =>
    obtain rfl : e = e' := congrArg Prod.fst (Except.ok.inj hkeep)
    exact h
  | some i =>
    cases hi : e.promises[i]? with
    | none =>
      simp only [keepPromise,hi] at hkeep
      obtain rfl : e = e' := congrArg Prod.fst (Except.ok.inj hkeep)
      exact h
    | some p =>
      simp only [keepPromise,hi] at hkeep
      obtain ⟨⟨e₁,_⟩,h₁,hkeep⟩ := bind_eq_ok.mp hkeep
      obtain rfl : e₁ = e' := congrArg Prod.fst (Except.ok.inj hkeep)
      rcases h with hd | h
      · exact .inl (resolvePromise_doomed h₁ hwf hd)
      · exact resolvePromise_writeOrder h₁ hi hnodup hwf ha hp hcurr hwrite h

theorem processWrite_arranged {node : Choices} {b : Bool} {items : List WorkItem}
    (hprocess : e.processWrite curr node = .ok (e',b,items)) (hnodup : e.promises.Nodup)
    (hwf : e.moGraph.WellFormed) (hl : e.Listed) (hm : e.Mapped) (ha : e.Awaits) (hp : e.Placed)
    (hcurr : curr ∈ e.actionTrace) (hwrite : (e.acts curr).isWrite = true) (h : e.Arranged) :
    e'.Arranged := by
  obtain ⟨⟨e₁,_⟩,h₁,hprocess⟩ := bind_eq_ok.mp hprocess
  obtain ⟨⟨e₂,_,_⟩,h₂,hprocess⟩ := bind_eq_ok.mp hprocess
  obtain ⟨e₃,h₃,hprocess⟩ := bind_eq_ok.mp hprocess
  obtain rfl : e₃ = e' := congrArg Prod.fst (Except.ok.inj hprocess)
  have hk : KeepsOrder e e₁ := OrderSteps.keepsOrder (wModificationOrder_order h₁)
  have hwf₁ := (hk.graph hwf).wellFormed
  have hwritten := h.writeEdges hwf hl hm hp hcurr h₁
  have hkept := keepPromise_arranged h₂ (hk.promises.symm ▸ hnodup) hwf₁ (hk.awaits ha)
    (hk.placed.mpr hp) (hk.actionTrace.symm ▸ hcurr) ((hk.isWrite curr).trans hwrite) hwritten
  exact hkept.commitChanges.calm (moCheckPromises_calm h₃)

end Execution
end CdsChecker
