import CdsChecker.CoherenceRuns
import CdsChecker.CycleGraphNodes
import CdsChecker.FenceRecord

/-! Whether a write has a node in the graph when `mo_check_promises` looks for a promise from it. -/
namespace CdsChecker
namespace Execution

open Relation

/-! ### The calls -/

/-- `process_read` from the past, up to its `mo_check_promises`. -/
def readToCheck (e : Execution) (curr rf : ActionId) (stale : Bool) : Result (Execution × Bool) :=
    do
  let e ← e.startChanges
  assert !e.isInfeasible
  let e := e.markStale stale
  let (e,updated) ← e.rModificationOrder curr (.action rf)
  let (e,_) ← e.readFrom curr rf
  pure (e.commitChanges,updated)

/-- `process_write`, up to its `mo_check_promises`. -/
def writeToCheck (e : Execution) (curr : ActionId) (node : Choices) :
    Result (Execution × Bool × List WorkItem) := do
  let (e,updatedModOrder) ← e.wModificationOrder curr
  let (e,updatedPromises,items) ← e.keepPromise curr node.promise
  pure (e.commitChanges,updatedModOrder || updatedPromises,items)

/-- `resolve_promise`, up to its `mo_check_promises` for the readers. -/
def resolveToChecks (e : Execution) (write : ActionId) (p : PromiseId) :
    Result (Execution × List WorkItem) := do
  let (e,items) ← readersReadFrom write (e.proms p).readers e
  assert (e.isCompatible p write && e.sameValue p write)
  let (g,resolved) ← e.moGraph.resolvePromise e.promiseTests p write
  pure ({ e with moGraph := g,hardFailedPromise := e.hardFailedPromise || !resolved },items)

theorem processRead_check (e : Execution) (curr rf : ActionId) (node : Choices)
    (hnode : node.readFrom = .past rf) : e.processRead curr node = (do
      let (e,updated) ← e.readToCheck curr rf node.stale
      let e ← e.moCheckPromises curr true
      pure (e,updated)) := by
  simp only [processRead,hnode,readToCheck,bind_assoc,pure_bind]

theorem processWrite_check (e : Execution) (curr : ActionId) (node : Choices) :
    e.processWrite curr node = (do
      let (e,updated,items) ← e.writeToCheck curr node
      let e ← e.moCheckPromises curr false
      pure (e,updated,items)) := by
  simp only [processWrite,writeToCheck,bind_assoc,pure_bind]

theorem resolvePromise_check (e : Execution) (write : ActionId) (p : PromiseId) :
    e.resolvePromise write p = (do
      let (e',items) ← e.resolveToChecks write p
      let e ← moCheckReads (e.proms p).readers e'
      pure (e,items)) := by
  simp only [resolvePromise,resolveToChecks,bind_assoc,pure_bind]

/-- The loop of `mo_check_promises` calls `CycleGraph::checkPromise` for the promise, in the given
state. -/
inductive ChecksPromise (act write : ActionId) :
    List PromiseId → Execution → Execution → PromiseId → Prop
  | reader {p : PromiseId} {ps : List PromiseId} {e : Execution}
      (hlocation : e.sameLocation p write = true)
      (hreader : ((e.proms p).readers.any fun r => e.happensBefore r act) = true) :
      ChecksPromise act write (p :: ps) e e p
  | reachable {p : PromiseId} {ps : List PromiseId} {e e₁ : Execution}
      (hlocation : e.sameLocation p write = true)
      (hfirst : (if (e.proms p).readers.any fun r => e.happensBefore r act then
      e.checkPromise write p
        else pure (e,false)) = .ok (e₁,false))
      (havailable : (e₁.proms p).threadIsAvailable (e₁.acts act).tid = true)
      (hreachable : e₁.moGraph.checkReachable (.promise p) (.action write) = true) :
      ChecksPromise act write (p :: ps) e e₁ p
  | later {p q : PromiseId} {ps : List PromiseId} {e e₁ e' : Execution}
      (hfirst : (if e.sameLocation p write then e.moCheckPromise act write p
        else pure (e,false)) = .ok (e₁,false))
      (h : ChecksPromise act write ps e₁ e' q) : ChecksPromise act write (p :: ps) e e' q

/-- The write that `mo_check_promises` is about. -/
def checkedWrite (e : Execution) (act : ActionId) (isReadCheck : Bool) : Option ActionId :=
  if isReadCheck then (e.acts act).readsFrom else some act

/-- No check of the call starts from a missing node. -/
def ChecksNodes (e : Execution) (act : ActionId) (isReadCheck : Bool) : Prop :=
  ∃ write, e.checkedWrite act isReadCheck = some write ∧
    ∀ e' p, ChecksPromise act write e.promises e e' p → e'.moGraph.HasNode write

/-- Processing the current action calls `mo_check_promises` in the given state. -/
inductive MoChecks (e : Execution) (curr : ActionId) (secondPartOfRmw : Bool) (node : Choices) :
    Execution → ActionId → Bool → Prop
  | read {e₁ e₂ : Execution} {thread updated : Bool} {rf : ActionId}
      (hthread : e.processThreadAction curr = .ok (e₁,thread))
      (hread : ((e₁.acts curr).isRead && !secondPartOfRmw) = true)
      (hnode : node.readFrom = .past rf)
      (h : e₁.readToCheck curr rf node.stale = .ok (e₂,updated)) :
      MoChecks e curr secondPartOfRmw node e₂ curr true
  | write {e₁ e₂ e₃ : Execution} {thread read updated : Bool} {items : List WorkItem}
      (hthread : e.processThreadAction curr = .ok (e₁,thread))
      (hread : (if (e₁.acts curr).isRead && !secondPartOfRmw then e₁.processRead curr node
        else pure (e₁,false)) = .ok (e₂,read))
      (hwrite : (e₂.acts curr).isWrite = true)
      (h : e₂.writeToCheck curr node = .ok (e₃,updated,items)) :
      MoChecks e curr secondPartOfRmw node e₃ curr false
  | resolved {e₁ e₂ e₃ e₄ e₅ : Execution} {thread read updated : Bool} {items : List WorkItem}
      {i : ℕ} {p : PromiseId} {before after : List ActionId} {act : ActionId}
      (hthread : e.processThreadAction curr = .ok (e₁,thread))
      (hread : (if (e₁.acts curr).isRead && !secondPartOfRmw then e₁.processRead curr node
        else pure (e₁,false)) = .ok (e₂,read))
      (hwrite : (e₂.acts curr).isWrite = true)
      (hedges : e₂.wModificationOrder curr = .ok (e₃,updated))
      (hindex : node.promise = some i) (hp : e₃.promises[i]? = some p)
      (h : ({ e₃ with promises := e₃.promises.eraseIdx i } : Execution).resolveToChecks curr p =
        .ok (e₄,items))
      (hreaders : (e₃.proms p).readers = before ++ act :: after)
      (hbefore : moCheckReads before e₄ = .ok e₅) :
      MoChecks e curr secondPartOfRmw node e₅ act true

variable {e e' : Execution} {curr : ActionId} {fresh : Option ActionId}

/-! ### Actions keep their nodes -/

theorem addEdges_hasNode {g g' : CycleGraph} {edges : List MoEdge} {added : Bool}
    (h : addEdges g edges = .ok (g',added)) : (∀ a, g.HasNode a → g'.HasNode a) ∧
      ∀ edge ∈ edges, ∀ a, .action a = edge.source ∨ .action a = edge.target → g'.HasNode a := by
  induction edges generalizing g added with
  | nil =>
    obtain ⟨rfl,_⟩ : g = g' ∧ _ := by simpa [addEdges] using h
    exact ⟨fun _ => id,by simp⟩
  | cons edge edges ih =>
    obtain ⟨⟨g₁,_⟩,h₁,h⟩ := bind_eq_ok.mp h
    obtain ⟨⟨g₂,_⟩,h₂,h⟩ := bind_eq_ok.mp h
    obtain ⟨rfl,_⟩ : g₂ = g' ∧ _ := by simpa using h
    obtain ⟨hkeep,hends⟩ := CycleGraph.addEdge_hasNode h₁
    obtain ⟨hrest,hedges⟩ := ih h₂
    refine ⟨fun a ha => hrest a (hkeep a ha),fun x hx a ha => ?_⟩
    rcases List.mem_cons.mp hx with rfl | hx
    · exact hrest a (hends a ha)
    · exact hedges x hx a ha

theorem insertEdges_hasNode {act : ActionId} {x : GraphObj} {edges : List MoEdge}
    {b : Bool} (h : e.insertEdges act x edges = .ok (e',b)) :
    (∀ a, e.moGraph.HasNode a → e'.moGraph.HasNode a) ∧
      ∀ edge ∈ edges, ∀ a, .action a = edge.source ∨ .action a = edge.target →
        e'.moGraph.HasNode a := by
  obtain ⟨⟨g,_⟩,hg,h⟩ := bind_eq_ok.mp h
  obtain ⟨rfl,_⟩ : _ = e' ∧ _ := by simpa using h
  exact addEdges_hasNode hg

theorem startChanges_moGraph (h : e.startChanges = .ok e') : e'.moGraph = e.moGraph := by
  obtain ⟨g,hg,h⟩ := bind_eq_ok.mp h
  obtain rfl : _ = e' := by simpa using h
  obtain ⟨_,_,_,rfl⟩ := CycleGraph.startChanges_eq_ok.mp hg
  rfl

theorem OrderStep.hasNode (h : OrderStep e e') (a : ActionId) (ha : e.moGraph.HasNode a) :
    e'.moGraph.HasNode a := by
  cases h with
  | synchronize first second =>
    cases hb : e.before second first with
    | true =>
      rw [synchronize_of_before hb]
      exact ha
    | false =>
      rw [synchronize_of_not_before hb]
      exact ha
  | insertEdges _ h => exact (insertEdges_hasNode h).1 a ha
  | startChanges h => exact startChanges_moGraph h ▸ ha
  | commitChanges => exact ha
  | tryRead h =>
    obtain ⟨e₁,h₁,h⟩ := bind_eq_ok.mp h
    obtain ⟨⟨e₂,_⟩,h₂,h⟩ := bind_eq_ok.mp h
    obtain ⟨rfl,_⟩ : e₂.rollbackChanges = e' ∧ _ := by simpa using h
    obtain ⟨edges,_,h₂⟩ := bind_eq_ok.mp h₂
    obtain ⟨n,hn⟩ := (insertEdges_hasNode h₂).1 a (startChanges_moGraph h₁ ▸ ha)
    exact ⟨n,(congrFun e₂.moGraph.rollbackChanges_actionToNode a).trans hn⟩
  | addEdge h => exact (CycleGraph.addEdge_hasNode h).1 a ha
  | _ => exact ha

theorem OrderSteps.hasNode (h : OrderSteps e e') (a : ActionId) (ha : e.moGraph.HasNode a) :
    e'.moGraph.HasNode a := by
  induction h with
  | refl => exact ha
  | tail _ hstep ih => exact hstep.hasNode a ih

theorem ThreadSteps.hasNode (h : ThreadSteps curr e e') (a : ActionId)
    (ha : e.moGraph.HasNode a) : e'.moGraph.HasNode a := by
  induction h with
  | refl => exact ha
  | tail _ hstep ih =>
    cases hstep with
    | calm h => exact h.order.hasNode a ih
    | other h => exact h.moGraph ▸ ih
    | addThread t _ => exact ih

/-! ### The calls of the loop -/

/-- Between the call of `mo_check_promises` and that of `checkPromise`, where the locations are
compared. -/
theorem ChecksPromise.spec {act write : ActionId} {ps : List PromiseId} {p : PromiseId}
    (h : ChecksPromise act write ps e e' p) : p ∈ ps ∧
      ∃ e₀, OrderSteps e e₀ ∧ OrderSteps e₀ e' ∧ e₀.sameLocation p write = true := by
  induction h with
  | @reader p ps e hlocation hreader => exact ⟨List.mem_cons_self,e,.refl,.refl,hlocation⟩
  | @reachable p ps e e₁ hlocation hfirst havailable hreachable =>
    refine ⟨List.mem_cons_self,e,.refl,?_,hlocation⟩
    split at hfirst
    · exact CalmSteps.order (checkPromise_calm hfirst)
    · obtain rfl : e = e₁ := congrArg Prod.fst (Except.ok.inj hfirst)
      exact .refl
  | @later p q ps e e₁ e' hfirst h ih =>
    obtain ⟨hmem,e₀,hbefore,hafter,hlocation⟩ := ih
    refine ⟨List.mem_cons_of_mem p hmem,e₀,ReflTransGen.trans ?_ hbefore,hafter,hlocation⟩
    split at hfirst
    · exact CalmSteps.order (moCheckPromise_calm hfirst)
    · obtain rfl : e = e₁ := congrArg Prod.fst (Except.ok.inj hfirst)
      exact .refl

/-! ### The uninitialized actions -/

/-- The first action on the location was an atomic access, so that it has its uninitialized
action. -/
def Founded (e : Execution) (l : Location) : Prop := e.objThrd l 0 ≠ []

/-- Each location has one uninitialized action at most. -/
def Rooted (e : Execution) : Prop :=
  ∀ l, ∀ u ∈ e.objThrd l 0, (e.acts u).type = .atomicUninit ∧ (e.acts u).seqNumber = 0 ∧
    ∀ v ∈ e.objThrd l 0, v = u

/-- A write on a location with an uninitialized action is in the graph, and so is that action itself
when a promise on the location is pending. -/
structure Noded (e : Execution) (fresh : Option ActionId) : Prop where
  rooted : e.Rooted
  writes : e.Flagged ∨ ∀ a ∈ e.actionTrace, some a ≠ fresh → (e.acts a).isWrite = true →
    (e.acts a).tid ≠ 0 → e.Founded (e.acts a).location → e.moGraph.HasNode a
  awaited : ∀ p ∈ e.promises, ∀ r, (e.proms p).readers.head? = some r →
    (e.acts r).isWait = false ∧ ∀ u ∈ e.objThrd (e.acts r).location 0, e.moGraph.HasNode u

theorem Rooted.samePlaces (h : e.Rooted) (hplaces : SamePlaces e e')
    (htype : ∀ a, (e'.acts a).type = (e.acts a).type) : e'.Rooted := fun l u hu => by
  rw [hplaces.objThrd] at hu ⊢
  rw [htype,(hplaces.places u).seqNumber]
  exact h l u hu

/-- The promises that are not pending before wait for actions on a location whose uninitialized
action is in the graph. -/
theorem Noded.frame (h : e.Noded fresh) (hplaces : SamePlaces e e')
    (htype : ∀ a, (e'.acts a).type = (e.acts a).type)
    (hnodes : ∀ a, e.moGraph.HasNode a → e'.moGraph.HasNode a)
    (hflagged : e.Flagged → e'.Flagged)
    (hawaited : ∀ p ∈ e'.promises, ∀ r, (e'.proms p).readers.head? = some r →
      p ∈ e.promises ∧ (e.proms p).readers.head? = some r ∨ (e'.acts r).isWait = false ∧
        ∀ u ∈ e'.objThrd (e'.acts r).location 0, e'.moGraph.HasNode u) : e'.Noded fresh where
  rooted := h.rooted.samePlaces hplaces htype
  writes := by
    refine h.writes.imp hflagged fun hwrites a ha hfresh hwrite huser hfounded => ?_
    rw [hplaces.actionTrace] at ha
    rw [Founded,hplaces.objThrd,(hplaces.places a).location] at hfounded
    refine hnodes a (hwrites a ha hfresh ?_ ((hplaces.places a).tid ▸ huser) hfounded)
    simpa only [ModelAction.isWrite,htype] using hwrite
  awaited p hp r hr := by
    rcases hawaited p hp r hr with ⟨hmem,hhead⟩ | hnew
    · obtain ⟨hwait,hnode⟩ := h.awaited p hmem r hhead
      rw [hplaces.objThrd,(hplaces.places r).location]
      refine ⟨?_,fun u hu => hnodes u (hnode u hu)⟩
      simpa only [ModelAction.isWait,htype] using hwait
    · exact hnew

theorem Noded.keepsOrder (h : e.Noded fresh) (hk : KeepsOrder e e')
    (hnodes : ∀ a, e.moGraph.HasNode a → e'.moGraph.HasNode a) : e'.Noded fresh := by
  refine h.frame hk.samePlaces (fun a => (hk.keeps a).type) hnodes hk.flagged fun p hp r hr => ?_
  rw [hk.promises] at hp
  rw [hk.readers] at hr
  exact .inl ⟨hp,hr⟩

theorem Noded.orderSteps (h : e.Noded fresh) (hs : OrderSteps e e') : e'.Noded fresh :=
  h.keepsOrder (OrderSteps.keepsOrder hs) (OrderSteps.hasNode hs)

theorem Noded.threadSteps (h : e.Noded fresh) (hs : ThreadSteps curr e e') : e'.Noded fresh :=
  h.keepsOrder (ThreadSteps.keepsOrder hs) (ThreadSteps.hasNode hs)

/-- An uninitialized action happens before every other one. -/
theorem Rooted.happensBefore (h : e.Rooted) (hl : e.Listed) (hcurr : curr ∈ e.actionTrace)
    {l : Location} {u : ActionId} (hu : u ∈ e.objThrd l 0) : e.happensBefore u curr = true := by
  have hclock := hl.own curr hcurr
  rw [ClockVector.synchronizedSince,Bool.and_eq_true,decide_eq_true_eq] at hclock
  rw [Execution.happensBefore,ModelAction.happensBefore,(hl.mem l 0 u hu).2.2.1,(h l u hu).2.1]
  simp [ClockVector.synchronizedSince,Nat.zero_lt_of_lt hclock.1]

/-- The list of the model thread holds nothing else. -/
theorem Rooted.list (h : e.Rooted) {l : Location} {u : ActionId} (hu : u ∈ e.objThrd l 0) :
    ∃ rest, (e.objThrd l 0).reverse = u :: rest := by
  obtain ⟨v,rest,hlist⟩ := List.exists_cons_of_ne_nil (List.ne_nil_of_mem (List.mem_reverse.mpr hu))
  have hv : v ∈ e.objThrd l 0 := List.mem_reverse.mp (hlist ▸ List.mem_cons_self)
  obtain rfl := (h l u hu).2.2 v hv
  exact ⟨rest,hlist⟩

/-! ### Edges from the uninitialized action -/

theorem rModificationOrder_hasNode {rf : GraphObj} {b : Bool} (h : e.Rooted) (hl : e.Listed)
    (hcurr : curr ∈ e.actionTrace) (huser : (e.acts curr).tid ≠ 0)
    (hr : e.rModificationOrder curr rf = .ok (e',b)) {u : ActionId}
    (hu : u ∈ e.objThrd (e.acts curr).location 0) : .action u = rf ∨ e'.moGraph.HasNode u := by
  obtain ⟨edges,hedges,hr⟩ := bind_eq_ok.mp hr
  obtain ⟨_,_,hedges⟩ := bind_eq_ok.mp hedges
  obtain ⟨scanned,hscanned,hedges⟩ := bind_eq_ok.mp hedges
  obtain rfl : _ = edges := Except.ok.inj hedges
  obtain ⟨edge,hedge,hmem⟩ := scanThreads_own hscanned (objThrd_getElem? hu)
  obtain ⟨rest,hlist⟩ := h.list hu
  rw [hlist] at hedge
  have hwrite : (e.acts u).isWrite = true := by simp [ModelAction.isWrite,(h _ u hu).1]
  have hne : u ≠ curr := by
    rintro rfl
    exact huser (hl.mem _ 0 u hu).2.2.1
  obtain ⟨y,hy,hrf⟩ := readScan_newest hedge hne
    (by simp [ModelAction.isAtomicVar,ModelAction.couldBeWrite,hwrite])
    (h.happensBefore hl hcurr hu) (fun _ => hwrite)
  obtain rfl := Option.some.inj ((seen_of_write hwrite).symm.trans hy)
  rcases hrf with hrf | ⟨x,hx,hsource,-⟩
  · exact .inl hrf
  · exact .inr ((insertEdges_hasNode hr).2 x (List.mem_append_left _ (hmem x hx)) u
      (.inl hsource.symm))

theorem wModificationOrder_hasNode {b : Bool} (h : e.Rooted) (hl : e.Listed)
    (hcurr : curr ∈ e.actionTrace) (huser : (e.acts curr).tid ≠ 0)
    (hw : e.wModificationOrder curr = .ok (e',b)) (hfounded : e.Founded (e.acts curr).location) :
    e'.moGraph.HasNode curr := by
  obtain ⟨u,hu⟩ := List.exists_mem_of_ne_nil _ hfounded
  obtain ⟨edges,hedges,hw⟩ := bind_eq_ok.mp hw
  obtain ⟨_,_,hedges⟩ := bind_eq_ok.mp hedges
  obtain ⟨scanned,hscanned,hedges⟩ := bind_eq_ok.mp hedges
  obtain rfl : _ = edges := Except.ok.inj hedges
  obtain ⟨edge,hedge,hmem⟩ := scanThreads_own hscanned (objThrd_getElem? hu)
  obtain ⟨rest,hlist⟩ := h.list hu
  rw [hlist] at hedge
  have hwrite : (e.acts u).isWrite = true := by simp [ModelAction.isWrite,(h _ u hu).1]
  have hne : u ≠ curr := by
    rintro rfl
    exact huser (hl.mem _ 0 u hu).2.2.1
  obtain ⟨y,-,x,hx,-,htarget⟩ := writeScan_newest hedge hne
    (by simp [ModelAction.isAtomicVar,ModelAction.couldBeWrite,hwrite])
    (h.happensBefore hl hcurr hu)
  exact (insertEdges_hasNode hw).2 x
    (List.mem_append_left _ (List.mem_append_right _ (hmem x hx))) curr (.inr htarget.symm)

/-! ### Reads and writes -/

theorem Reads.keepsOrder (h : Reads e e' curr) {e'' : Execution} (hk : KeepsOrder e' e'') :
    SamePlaces e e'' ∧ ∀ a, (e''.acts a).type = (e.acts a).type :=
  ⟨⟨hk.actionTrace.trans h.actionTrace,hk.objMap.trans h.objMap,hk.objThrdMap.trans h.objThrdMap,
    hk.thrdLastAction.trans h.thrdLastAction,
    fun a => .of_keeps ((h.act a).keeps.trans (hk.keeps a)),
    fun a => ((h.act a).keeps.trans (hk.keeps a)).cv⟩,
    fun a => (hk.keeps a).type.trans (h.act a).type⟩

/-- A promise that is read, from its creation or its new reader on. -/
theorem Noded.readsPromise {p : PromiseId} {e₀ e₁ e₂ : Execution} {b : Bool} (h : e.Noded fresh)
    (hl : e.Listed) (hcurr : e.Pending curr) (hwait : (e.acts curr).isWait = false)
    (hreads : Reads e e₀ curr)
    (hheads : ∀ q ∈ e₀.promises, ∀ r, (e₀.proms q).readers.head? = some r →
      q ∈ e.promises ∧ (e.proms q).readers.head? = some r ∨ r = curr)
    (hstart : OrderSteps e₀ e₁) (hr : e₁.rModificationOrder curr (.promise p) = .ok (e₂,b)) :
    e₂.commitChanges.Noded fresh := by
  have hsteps : OrderSteps e₁ e₂.commitChanges :=
    (rModificationOrder_order hr).trans commitChanges_order
  have hk₁ := OrderSteps.keepsOrder hstart
  have hk := OrderSteps.keepsOrder (hstart.trans hsteps)
  obtain ⟨hplaces₁,htype₁⟩ := hreads.keepsOrder hk₁
  obtain ⟨hplaces,htype⟩ := hreads.keepsOrder hk
  have hnodes : ∀ a, e.moGraph.HasNode a → e₂.commitChanges.moGraph.HasNode a := fun a ha =>
    OrderSteps.hasNode (hstart.trans hsteps) a (hreads.moGraph.symm ▸ ha)
  refine h.frame hplaces htype hnodes (fun hf => hk.flagged (hreads.flagged hf))
    fun q hq r hhead => ?_
  rw [hk.promises] at hq
  rw [hk.readers] at hhead
  refine (hheads q hq r hhead).imp id ?_
  rintro rfl
  refine ⟨?_,fun u hu => ?_⟩
  · simpa only [ModelAction.isWait,htype] using hwait
  · have hcurr₁ := hk₁.currPending (hreads.pending hcurr)
    have hsame : (e₁.acts r).location = (e₂.commitChanges.acts r).location :=
      (hplaces₁.places r).location.trans (hplaces.places r).location.symm
    have hu₁ : u ∈ e₁.objThrd (e₁.acts r).location 0 := by
      rw [hplaces₁.objThrd,hsame,← hplaces.objThrd]
      exact hu
    exact (rModificationOrder_hasNode (h.rooted.samePlaces hplaces₁ htype₁)
      (hl.samePlaces hplaces₁) hcurr₁.mem hcurr₁.user hr hu₁).resolve_left (by simp)

/-- A read from the past, up to its check. -/
theorem readToCheck_steps {rf : ActionId} {stale updated : Bool}
    (hread : e.readToCheck curr rf stale = .ok (e',updated)) :
    e.isInfeasible = false ∧ ∃ e₁, (e₁.acts rf).isWrite = true ∧ OrderSteps e e₁ ∧
      OrderSteps (e₁.modifyAct curr fun a => a.setReadFrom rf) e' := by
  obtain ⟨e₁,h₁,hread⟩ := bind_eq_ok.mp hread
  obtain ⟨_,hfeasible,hread⟩ := bind_eq_ok.mp hread
  obtain ⟨⟨e₂,_⟩,h₂,hread⟩ := bind_eq_ok.mp hread
  obtain ⟨⟨e₃,_⟩,h₃,hread⟩ := bind_eq_ok.mp hread
  obtain rfl : _ = e' := congrArg Prod.fst (Except.ok.inj hread)
  obtain ⟨hwrite,hset⟩ := readFrom_order h₃
  refine ⟨?_,e₂,hwrite,((startChanges_order h₁).trans (markStale_order stale)).trans
    (rModificationOrder_order h₂),hset.trans commitChanges_order⟩
  have hfeasible₁ : e₁.isInfeasible = false := by simpa using assert_eq_ok.mp hfeasible
  obtain ⟨g,hg,h₁⟩ := bind_eq_ok.mp h₁
  obtain ⟨_,_,_,rfl⟩ := CycleGraph.startChanges_eq_ok.mp hg
  obtain rfl : _ = e₁ := by simpa using h₁
  exact hfeasible₁

theorem Noded.readsPast {rf : ActionId} {e₁ : Execution} (h : e.Noded fresh)
    (hedges : OrderSteps e e₁)
    (hset : OrderSteps (e₁.modifyAct curr fun a => a.setReadFrom rf) e') : e'.Noded fresh := by
  refine Noded.orderSteps ?_ hset
  have hreads := setReadFrom_reads e₁ curr rf
  exact (h.orderSteps hedges).frame hreads.samePlaces (fun a => (hreads.act a).type) (fun _ => id)
    id fun p hp r hr => .inl ⟨hp,hr⟩

theorem processRead_noded {node : Choices} {b : Bool}
    (hread : e.processRead curr node = .ok (e',b)) (h : e.Noded fresh) (hl : e.Listed)
    (hcurr : e.Pending curr) (hwait : (e.acts curr).isWait = false) : e'.Noded fresh := by
  cases hnode : node.readFrom with
  | past rf =>
    rw [processRead_check e curr rf node hnode] at hread
    obtain ⟨⟨e₁,_⟩,h₁,hread⟩ := bind_eq_ok.mp hread
    obtain ⟨e₂,h₂,hread⟩ := bind_eq_ok.mp hread
    obtain rfl : e₂ = e' := congrArg Prod.fst (Except.ok.inj hread)
    obtain ⟨-,_,-,hedges,hset⟩ := readToCheck_steps h₁
    exact (h.readsPast hedges hset).orderSteps (moCheckPromises_order h₂)
  | promise p =>
    simp only [processRead,hnode] at hread
    obtain ⟨e₁,h₁,hread⟩ := bind_eq_ok.mp hread
    obtain ⟨⟨e₂,_⟩,h₂,hread⟩ := bind_eq_ok.mp hread
    obtain rfl : _ = e' := congrArg Prod.fst (Except.ok.inj hread)
    refine h.readsPromise hl hcurr hwait ?_ (fun q hq r hr => ?_)
      ((startChanges_order h₁).trans (markStale_order node.stale)) h₂
    · split <;> exact ⟨rfl,rfl,rfl,rfl,rfl,id,setReadFromPromise_same e curr p,
        fun a ha => by simp [modifyAct,modifyPromise,ha]⟩
    · have hmem : q ∈ e.promises := by
        split at hq <;> exact hq
      by_cases hqp : q = p
      · subst hqp
        have hhead : ((e.proms q).readers ++ [curr]).head? = some r := by
          rw [← readers_addReader (e.proms q) curr (e.acts curr).tid]
          split at hr <;> simpa [modifyAct,modifyPromise] using hr
        cases hreaders : (e.proms q).readers with
        | nil => simp_all
        | cons first rest => exact .inl ⟨hmem,by simpa [hreaders] using hhead⟩
      · refine .inl ⟨hmem,?_⟩
        split at hr <;> simpa [modifyAct,modifyPromise,hqp] using hr
  | future fv =>
    simp only [processRead,hnode] at hread
    obtain ⟨e₁,h₁,hread⟩ := bind_eq_ok.mp hread
    obtain ⟨⟨e₂,_⟩,h₂,hread⟩ := bind_eq_ok.mp hread
    obtain rfl : _ = e' := congrArg Prod.fst (Except.ok.inj hread)
    refine h.readsPromise hl hcurr hwait ?_ (fun q hq r hr => ?_) (startChanges_order h₁) h₂
    · exact ⟨rfl,rfl,rfl,rfl,rfl,id,setReadFromPromise_same e curr e.numProms,
        fun a ha => by simp [modifyAct,ha]⟩
    · by_cases hqp : q = e.numProms
      · subst hqp
        simp only [modifyAct,Function.update_self,readers_create,List.head?_cons,
          Option.some.injEq] at hr
        exact .inr hr.symm
      · have hmem : q ∈ e.promises := by simpa [modifyAct,hqp] using hq
        exact .inl ⟨hmem,by simpa [modifyAct,hqp] using hr⟩

/-- The readers of the promise read from the write. -/
theorem readersReadFrom_hasNode {write : ActionId} {l : List ActionId} {items : List WorkItem}
    (h : readersReadFrom write l e = .ok (e',items)) (a : ActionId) (ha : e.moGraph.HasNode a) :
    e'.moGraph.HasNode a := by
  induction l generalizing e items with
  | nil =>
    obtain ⟨rfl,_⟩ : e = e' ∧ _ := by simpa [readersReadFrom] using h
    exact ha
  | cons read reads ih =>
    obtain ⟨⟨e₁,updated⟩,h₁,h⟩ := bind_eq_ok.mp h
    obtain ⟨⟨e₂,_⟩,h₂,h⟩ := ite_bind_eq_ok.mp h
    obtain ⟨⟨e₃,_⟩,h₃,h⟩ := bind_eq_ok.mp h
    obtain ⟨rfl,_⟩ : e₃ = e' ∧ _ := by simpa using h
    have hread : e₁.moGraph.HasNode a := OrderSteps.hasNode (readFrom_order h₁).2 a ha
    refine ih h₃ ?_
    split at h₂
    · exact OrderSteps.hasNode (propagateClockvector_order h₂) a hread
    · obtain ⟨rfl,_⟩ : e₁ = e₂ ∧ _ := by simpa using h₂
      exact hread

/-- What resolving a promise leaves, up to its checks. -/
structure Resolves (e e' : Execution) (reads : List ActionId) (write : ActionId) : Prop where
  samePlaces : SamePlaces e e'
  type : ∀ a, (e'.acts a).type = (e.acts a).type
  promises : e'.promises = e.promises
  readers : ∀ p, (e'.proms p).readers = (e.proms p).readers
  hasNode : ∀ a, e.moGraph.HasNode a → e'.moGraph.HasNode a
  flagged : e.Flagged → e'.Flagged
  readsFrom : ∀ a ∈ reads, (e'.acts a).readsFrom = some write

theorem resolveToChecks_resolves {write : ActionId} {p : PromiseId} {items : List WorkItem}
    (h : e.resolveToChecks write p = .ok (e',items)) :
    Resolves e e' (e.proms p).readers write := by
  obtain ⟨⟨e₁,_⟩,h₁,h⟩ := bind_eq_ok.mp h
  obtain ⟨_,_,h⟩ := bind_eq_ok.mp h
  obtain ⟨⟨g,resolved⟩,hg,h⟩ := bind_eq_ok.mp h
  obtain rfl : _ = e' := congrArg Prod.fst (Except.ok.inj h)
  have hk := readersReadFrom_keepsOrder h₁
  have hkeeps : ∀ a, (e.acts a).Keeps (e₁.acts a) := fun a =>
    (e.redirect_same (e.proms p).readers write a).keeps.trans (hk.keeps a)
  refine ⟨⟨hk.actionTrace,hk.objMap,hk.objThrdMap,hk.thrdLastAction,fun a => .of_keeps (hkeeps a),
    fun a => (hkeeps a).cv⟩,fun a => (hkeeps a).type,hk.promises,hk.readers,fun a ha => ?_,
    fun hf => ?_,fun a ha => ?_⟩
  · exact CycleGraph.resolvePromise_hasNode hg a (readersReadFrom_hasNode h₁ a ha)
  · have hflag := hk.flagged hf
    simp only [Flagged,Bool.or_eq_true] at hflag ⊢
    tauto
  · have hread := hk.readsFrom a
    simp only [redirect,ha,if_true] at hread
    exact hread

theorem Noded.resolves {reads : List ActionId} {write : ActionId} (h : e.Noded fresh)
    (hr : Resolves e e' reads write) : e'.Noded fresh := by
  refine h.frame hr.samePlaces hr.type hr.hasNode hr.flagged fun p hp r hhead => ?_
  rw [hr.promises] at hp
  rw [hr.readers] at hhead
  exact .inl ⟨hp,hhead⟩

theorem Noded.eraseIdx (h : e.Noded fresh) (i : ℕ) :
    ({ e with promises := e.promises.eraseIdx i } : Execution).Noded fresh :=
  ⟨h.rooted,h.writes,fun p hp => h.awaited p (List.mem_of_mem_eraseIdx hp)⟩

theorem keepPromise_noded {index : Option ℕ} {b : Bool} {items : List WorkItem}
    (hkeep : e.keepPromise curr index = .ok (e',b,items)) (h : e.Noded fresh) :
    e'.Noded fresh ∧ ∀ a, e.moGraph.HasNode a → e'.moGraph.HasNode a := by
  unfold keepPromise at hkeep
  split at hkeep
  · obtain rfl : e = e' := congrArg Prod.fst (Except.ok.inj hkeep)
    exact ⟨h,fun _ => id⟩
  · rename_i i
    split at hkeep
    · obtain rfl : e = e' := congrArg Prod.fst (Except.ok.inj hkeep)
      exact ⟨h,fun _ => id⟩
    · rename_i p _
      obtain ⟨⟨e₁,_⟩,hr,hkeep⟩ := bind_eq_ok.mp hkeep
      obtain rfl : e₁ = e' := congrArg Prod.fst (Except.ok.inj hkeep)
      rw [resolvePromise_check] at hr
      obtain ⟨⟨e₂,_⟩,h₂,hr⟩ := bind_eq_ok.mp hr
      obtain ⟨e₃,h₃,hr⟩ := bind_eq_ok.mp hr
      obtain rfl : e₃ = e₁ := congrArg Prod.fst (Except.ok.inj hr)
      have hresolves := resolveToChecks_resolves h₂
      have hchecks := moCheckReads_order h₃
      exact ⟨((h.eraseIdx i).resolves hresolves).orderSteps hchecks,
        fun a ha => OrderSteps.hasNode hchecks a (hresolves.hasNode a ha)⟩

theorem writeToCheck_noded {node : Choices} {b : Bool} {items : List WorkItem}
    (hwrite : e.writeToCheck curr node = .ok (e',b,items)) (h : e.Noded fresh) (hl : e.Listed)
    (hcurr : e.Pending curr) : e'.Noded fresh ∧
      (e.Founded (e.acts curr).location → e'.moGraph.HasNode curr) := by
  obtain ⟨⟨e₁,_⟩,h₁,hwrite⟩ := bind_eq_ok.mp hwrite
  obtain ⟨⟨e₂,_,_⟩,h₂,hwrite⟩ := bind_eq_ok.mp hwrite
  obtain rfl : _ = e' := congrArg Prod.fst (Except.ok.inj hwrite)
  obtain ⟨hnoded,hnodes⟩ := keepPromise_noded h₂ (h.orderSteps (wModificationOrder_order h₁))
  exact ⟨hnoded.orderSteps commitChanges_order,fun hfounded =>
    hnodes curr (wModificationOrder_hasNode h.rooted hl hcurr.mem hcurr.user h₁ hfounded)⟩

/-! ### The current action -/

theorem isWait_of_isRead {a : ModelAction} (h : a.isRead = true) : a.isWait = false :=
  ModelAction.isWait_of_atomic (by simp [ModelAction.isAtomicVar,h])

theorem Pending.samePlaces (h : e.Pending curr) (hs : SamePlaces e e') : e'.Pending curr := by
  have htid := (hs.places curr).tid
  refine ⟨hs.actionTrace ▸ h.mem,htid ▸ h.user,?_⟩
  rw [htid,getLastAction,hs.thrdLastAction]
  exact h.last

theorem SamePlaces.founded (h : SamePlaces e e') (a : ActionId)
    (hfounded : e.Founded (e.acts a).location) : e'.Founded (e'.acts a).location := by
  rw [Founded,h.objThrd,(h.places a).location]
  exact hfounded

/-- The current action up to its write. -/
theorem readPart_noded {secondPartOfRmw thread read : Bool} {node : Choices} {e₁ : Execution}
    (hv : e.Valid) (h : e.Noded fresh) (hl : e.Listed) (hcurr : e.Pending curr)
    (hthread : e.processThreadAction curr = .ok (e₁,thread))
    (hread : (if (e₁.acts curr).isRead && !secondPartOfRmw then e₁.processRead curr node
      else pure (e₁,false)) = .ok (e',read)) :
    e'.Noded fresh ∧ e'.Listed ∧ e'.Pending curr ∧
      (e.Founded (e.acts curr).location → e'.Founded (e'.acts curr).location) := by
  have hsteps := processThreadAction_threadSteps hv hthread
  have hplaces := (ThreadSteps.keepsOrder hsteps).samePlaces
  have hnoded := h.threadSteps hsteps
  have hlisted := hl.samePlaces hplaces
  have hpending := hcurr.samePlaces hplaces
  split at hread
  · rename_i hfirst
    rw [Bool.and_eq_true] at hfirst
    have hframe := (MemSteps.frame (processRead_steps hread)).samePlaces
    exact ⟨processRead_noded hread hnoded hlisted hpending (isWait_of_isRead hfirst.1),
      hlisted.samePlaces hframe,hpending.samePlaces hframe,
      fun hf => hframe.founded curr (hplaces.founded curr hf)⟩
  · obtain rfl : e₁ = e' := congrArg Prod.fst (Except.ok.inj hread)
    exact ⟨hnoded,hlisted,hpending,hplaces.founded curr⟩

/-- The current action joins the others when it is in the graph. -/
theorem Noded.settle (h : e.Noded (some curr)) (hnode : (e.acts curr).isWrite = true →
    e.Founded (e.acts curr).location → e.moGraph.HasNode curr) : e.Noded none where
  rooted := h.rooted
  writes := by
    refine h.writes.imp id fun hwrites a ha _ hwrite huser hfounded => ?_
    by_cases hac : a = curr
    · subst hac
      exact hnode hwrite hfounded
    · exact hwrites a ha (by simpa using hac) hwrite huser hfounded
  awaited := h.awaited

theorem checkCurrAction_noded {secondPartOfRmw : Bool} {node : Choices} {items : List WorkItem}
    (hv : e.Valid) (hl : e.Listed) (hcurr : e.Pending curr)
    (hcheck : e.checkCurrAction curr secondPartOfRmw node = .ok (e',items))
    (h : e.Noded none ∨ e.Noded (some curr)) : e'.Noded none := by
  obtain ⟨⟨e₁,_⟩,h₁,hcheck⟩ := bind_eq_ok.mp hcheck
  obtain ⟨⟨e₂,_⟩,h₂,hcheck⟩ := ite_bind_eq_ok.mp hcheck
  obtain ⟨⟨e₃,_,_⟩,h₃,hcheck⟩ := ite_bind_eq_ok.mp hcheck
  obtain ⟨⟨e₄,_⟩,h₄,hcheck⟩ := ite_bind_eq_ok.mp hcheck
  obtain ⟨⟨e₅,_⟩,h₅,hcheck⟩ := ite_bind_eq_ok.mp hcheck
  obtain ⟨⟨e₆,_⟩,h₆,hcheck⟩ := ite_bind_eq_ok.mp hcheck
  obtain rfl : e₆ = e' := congrArg Prod.fst (Except.ok.inj hcheck)
  have hwritten : e₃.Noded none := by
    have hdone : ∀ fresh, e.Noded fresh → e₃.Noded fresh ∧ ((e₃.acts curr).isWrite = true →
        e₃.Founded (e₃.acts curr).location → e₃.moGraph.HasNode curr) := by
      intro fresh h
      obtain ⟨hnoded,hlisted,hpending,-⟩ := readPart_noded hv h hl hcurr h₁ h₂
      split at h₃
      · have hframe := (MemSteps.frame (processWrite_steps h₃)).samePlaces
        rw [processWrite_check] at h₃
        obtain ⟨⟨e₇,_,_⟩,h₇,h₃⟩ := bind_eq_ok.mp h₃
        obtain ⟨e₈,h₈,h₃⟩ := bind_eq_ok.mp h₃
        obtain rfl : e₈ = e₃ := congrArg Prod.fst (Except.ok.inj h₃)
        obtain ⟨hnoded₇,hnode⟩ := writeToCheck_noded h₇ hnoded hlisted hpending
        have hchecks := moCheckPromises_order h₈
        refine ⟨hnoded₇.orderSteps hchecks,fun _ hfounded => OrderSteps.hasNode hchecks curr ?_⟩
        rw [Founded,hframe.objThrd,(hframe.places curr).location] at hfounded
        exact hnode hfounded
      · rename_i hwrite
        obtain rfl : e₂ = e₃ := congrArg Prod.fst (Except.ok.inj h₃)
        exact ⟨hnoded,fun hw => absurd hw hwrite⟩
    rcases h with h | h
    · exact (hdone none h).1
    · exact (hdone _ h).1.settle (hdone _ h).2
  have hfence : e₄.Noded none := by
    split at h₄
    · exact hwritten.orderSteps (processFence_order h₄)
    · obtain rfl : e₃ = e₄ := congrArg Prod.fst (Except.ok.inj h₄)
      exact hwritten
  have hmutex : e₅.Noded none := by
    split at h₅
    · exact hfence.threadSteps (processMutex_threadSteps h₅)
    · obtain rfl : e₄ = e₅ := congrArg Prod.fst (Except.ok.inj h₅)
      exact hfence
  split at h₆
  · exact hmutex.orderSteps (processRelseqFixup_order h₆)
  · obtain rfl : e₅ = e₆ := congrArg Prod.fst (Except.ok.inj h₆)
    exact hmutex

theorem processThreadAction_of_isRead {b : Bool} (hread : (e.acts curr).isRead = true)
    (h : e.processThreadAction curr = .ok (e',b)) : e = e' := by
  unfold processThreadAction at h
  split at h
  all_goals first
    | exact congrArg Prod.fst (Except.ok.inj h)
    | rename_i htype
      simp [ModelAction.isRead,htype] at hread

/-- A read from the past has a source on its location, unless the execution ends at once. -/
def SourceListed (e : Execution) (curr : ActionId) (node : Choices) : Prop :=
  (e.acts curr).isRead = true → ∀ rf, node.readFrom = .past rf →
    e.asserted = true ∨ rf ≠ curr ∧ ∃ t, rf ∈ e.objThrd (e.acts curr).location t

/-- A write that is read from is in the graph when it is checked for a promise. -/
theorem Noded.source {rf : ActionId} {p : PromiseId} {e₀ : Execution} (h : e.Noded (some curr))
    (hflagged : ¬e.Flagged) (hl : e.Listed) (hne : rf ≠ curr) {t : ThreadId}
    (hrf : rf ∈ e.objThrd (e.acts curr).location t) (hwrite : (e.acts rf).isWrite = true)
    (hfounded : e.Founded (e.acts curr).location) (hp : p ∈ e.promises)
    (hkeeps : ∀ a, (e.acts a).Keeps (e₀.acts a))
    (hreaders : (e₀.proms p).readers = (e.proms p).readers)
    (hlocation : e₀.sameLocation p rf = true) : e.moGraph.HasNode rf := by
  have hatomic : (e.acts rf).isAtomicVar = true := by
    simp [ModelAction.isAtomicVar,ModelAction.couldBeWrite,hwrite]
  obtain ⟨hmem,-,htid,-⟩ := hl.mem _ t rf hrf
  have hplace := (hl.place hrf hatomic).1
  by_cases ht : t = 0
  · obtain ⟨r,hhead,hsame⟩ := (Option.any_eq_true _ _).mp hlocation
    rw [hreaders] at hhead
    obtain ⟨hwait,hnode⟩ := h.awaited p hp r hhead
    have hwaits : (e₀.acts r).isWait = false ∧ (e₀.acts rf).isWait = false := by
      rw [ModelAction.isWait,ModelAction.isWait,(hkeeps r).type,(hkeeps rf).type]
      exact ⟨hwait,ModelAction.isWait_of_atomic hatomic⟩
    have hloc : (e.acts r).location = (e.acts rf).location := by
      rw [← (hkeeps r).location,← (hkeeps rf).location]
      simpa [ModelAction.sameVar,hwaits.1,hwaits.2] using hsame
    refine hnode rf ?_
    rw [hloc,hplace,← ht]
    exact hrf
  · rcases h.writes with hf | hwrites
    · exact absurd hf hflagged
    · exact hwrites rf hmem (by simpa using hne) hwrite (htid ▸ ht) (hplace ▸ hfounded)

/-- Where the location of the current action has its uninitialized action, no check starts from a
missing node. -/
theorem MoChecks.nodes {secondPartOfRmw isReadCheck : Bool} {node : Choices} {act : ActionId}
    (hcheck : MoChecks e curr secondPartOfRmw node e' act isReadCheck) (hv : e.Valid)
    (hl : e.Listed) (hcurr : e.Pending curr) (hasserted : e.asserted = false)
    (h : e.Noded (if secondPartOfRmw then none else some curr))
    (hpast : secondPartOfRmw = false → e.SourceListed curr node)
    (hfounded : e.Founded (e.acts curr).location) : e'.ChecksNodes act isReadCheck := by
  cases hcheck with
  | @read e₁ _ thread updated rf hthread hread hnode h₂ =>
    rw [Bool.and_eq_true,Bool.not_eq_true'] at hread
    obtain ⟨hread,rfl⟩ := hread
    have hk₁ : KeepsOrder e e₁ :=
      (processThreadAction_threadSteps hv hthread).keepsOrder
    have hread' : (e.acts curr).isRead = true := by
      simpa only [ModelAction.isRead,ModelAction.isRmwr,ModelAction.isRmw,(hk₁.keeps curr).type]
        using hread
    obtain rfl := processThreadAction_of_isRead hread' hthread
    obtain ⟨hfeasible,e₂,hwrite,hedges,hset⟩ := readToCheck_steps h₂
    obtain ⟨hne,t,hrf⟩ := (hpast rfl hread' rf hnode).resolve_left (by simp [hasserted])
    have hkedges := OrderSteps.keepsOrder hedges
    have hkset := OrderSteps.keepsOrder hset
    have hreads := setReadFrom_reads e₂ curr rf
    have hflagged : ¬e.Flagged := by
      simp only [isInfeasible,Bool.or_eq_false_iff] at hfeasible
      simp [Flagged,hasserted,hfeasible]
    refine ⟨rf,?_,fun e'' p hp => ?_⟩
    · have hself := hkset.readsFrom curr
      simpa [checkedWrite,modifyAct,ModelAction.setReadFrom] using hself
    · obtain ⟨hmem,e₀,hbefore,hafter,hlocation⟩ := hp.spec
      have hkbefore := OrderSteps.keepsOrder hbefore
      refine OrderSteps.hasNode (hbefore.trans hafter) rf (OrderSteps.hasNode hset rf
        (OrderSteps.hasNode hedges rf ?_))
      refine h.source hflagged hl hne hrf (hkedges.isWrite rf ▸ hwrite) hfounded ?_ (fun a => ?_) ?_
        hlocation
      · rw [hkset.promises] at hmem
        exact hkedges.promises ▸ hmem
      · exact ((hkedges.keeps a).trans (hreads.act a).keeps).trans
          ((hkset.keeps a).trans (hkbefore.keeps a))
      · rw [hkbefore.readers,hkset.readers]
        exact hkedges.readers p
  | @write e₁ e₂ _ thread read updated items hthread hread hwrite h₃ =>
    obtain ⟨hnoded,hlisted,hpending,hkept⟩ := readPart_noded hv h hl hcurr hthread hread
    refine ⟨curr,rfl,fun e'' p hp => ?_⟩
    obtain ⟨-,e₀,hbefore,hafter,-⟩ := hp.spec
    exact OrderSteps.hasNode (hbefore.trans hafter) curr
      ((writeToCheck_noded h₃ hnoded hlisted hpending).2 (hkept hfounded))
  | @resolved e₁ e₂ e₃ e₄ _ thread read updated items i q before after act hthread hread hwrite
      hedges hindex hq h₄ hreaders hbefore =>
    obtain ⟨hnoded,hlisted,hpending,hkept⟩ := readPart_noded hv h hl hcurr hthread hread
    have hresolves := resolveToChecks_resolves h₄
    have hchecks := moCheckReads_order hbefore
    refine ⟨curr,?_,fun e'' p hp => ?_⟩
    · have hact : (e₄.acts act).readsFrom = some curr :=
        hresolves.readsFrom act (by simp [hreaders])
      exact ((OrderSteps.keepsOrder hchecks).readsFrom act).trans hact
    · obtain ⟨-,e₀,hstart,hafter,-⟩ := hp.spec
      have hnode := wModificationOrder_hasNode hnoded.rooted hlisted hpending.mem hpending.user
        hedges (hkept hfounded)
      exact OrderSteps.hasNode (hstart.trans hafter) curr
        (OrderSteps.hasNode hchecks curr (hresolves.hasNode curr hnode))

/-! ### The start of a step -/

theorem Noded.secondPart {act : ModelAction} {last : ActionId} (h : e.Noded none)
    (hlast : e.Pending last) (hact : (act.isRmwc || act.isRmw) = true)
    (hread : (e.acts last).isRmwr = true) (htid : (e.acts last).tid = act.tid)
    (hrmw : e.processRmw act = .ok (e',last)) : e'.Noded none := by
  have hgoes : e.getLastAction act.tid = some last := htid ▸ hlast.last
  simp only [processRmw,hgoes] at hrmw
  set e₁ := e.modifyAct last fun a => a.processRmw act with he₁
  have hself : e₁.acts last = (e.acts last).processRmw act := by simp [he₁,modifyAct]
  have hother : ∀ a, a ≠ last → e₁.acts a = e.acts a := fun a ha => by simp [he₁,modifyAct,ha]
  have hplaces : ∀ a, (e.acts a).Places (e₁.acts a) := fun a => by
    by_cases ha : a = last
    · rw [ha,hself]
      exact .processRmw hact hread
    · rw [hother a ha]
      exact .refl _
  have htype : (e.acts last).type = .atomicRmwr := beq_iff_eq.mp hread
  have hwait : ∀ a, (e₁.acts a).isWait = (e.acts a).isWait := fun a => by
    by_cases ha : a = last
    · rw [ha,hself,(processRmw_similar hact hread).1]
    · rw [hother a ha]
  -- only the completed action may have become a write
  have hdone : ∀ g : CycleGraph, (∀ a, e.moGraph.HasNode a → g.HasNode a) →
      ((e₁.acts last).isWrite = true → g.HasNode last) →
        ({ e₁ with moGraph := g } : Execution).Noded none := by
    intro g hnodes hnew
    refine ⟨fun l u hu => ?_,?_,fun p hp r hr => ?_⟩
    · obtain ⟨huninit,hseq,hall⟩ := h.rooted l u hu
      have hne : u ≠ last := by
        rintro rfl
        cases huninit.symm.trans htype
      refine ⟨?_,(hplaces u).seqNumber.trans hseq,hall⟩
      rw [← huninit,← hother u hne]
    · refine h.writes.imp id fun hwrites a ha hfresh hwrite huser hfounded => ?_
      by_cases hal : a = last
      · subst hal
        exact hnew hwrite
      · refine hnodes a (hwrites a ha hfresh ?_ ((hplaces a).tid ▸ huser) ?_)
        · rw [← hother a hal]
          exact hwrite
        · rw [← (hplaces a).location]
          exact hfounded
    · obtain ⟨hw,hnode⟩ := h.awaited p hp r hr
      refine ⟨(hwait r).trans hw,fun u hu => hnodes u (hnode u ?_)⟩
      rw [← (hplaces r).location]
      exact hu
  by_cases hplain : act.isRmw = true
  · rw [if_neg (by simp [hplain])] at hrmw
    split at hrmw
    · cases hrmw
    · obtain ⟨g,hg,hrmw⟩ := bind_eq_ok.mp hrmw
      obtain rfl : _ = e' := congrArg Prod.fst (Except.ok.inj hrmw)
      obtain ⟨hnodes,hnew⟩ := CycleGraph.addRMWEdge_hasNode hg
      exact (hdone g hnodes fun _ => hnew).orderSteps commitChanges_order
  · rw [if_pos (by simp [hplain])] at hrmw
    obtain rfl : e₁ = e' := congrArg Prod.fst (Except.ok.inj hrmw)
    refine hdone e.moGraph (fun _ => id) fun hwrite => ?_
    rw [hself,(processRmw_isWrite hact).1] at hwrite
    exact absurd hwrite hplain

theorem Entered.uninit_lt {act : ActionId} {extra : Location → List ActionId}
    (h : Entered e e' act extra) (hadded : Added e e' act extra) (hfirst : e.isFirst act = true) :
    e.numActs < e'.numActs := by
  obtain ⟨us,hus,hnewer⟩ := hadded.actionTrace
  rw [h.actionTrace,if_pos hfirst,List.append_assoc,List.append_assoc] at hus
  have hsame : us = [e.numActs] := (List.append_cancel_right hus).symm
  exact (hnewer e.numActs (by simp [hsame])).2

/-- A new action enters the lists. -/
theorem Noded.enter {params : ExecutionParams} {act : ModelAction} (h : e.Noded none)
    (ho : e.Ordered none) (hr : e.Recorded) (huser : act.tid ≠ 0)
    (hthread : act.tid < e.threads.length)
    (hadd : (e.newAction act).1.addActionToLists params e.numActs = .ok e') :
    e'.Noded (some e.numActs) := by
  set e₀ := (e.newAction act).1 with he₀
  have hnew := newAction_act e act
  rw [← he₀] at hnew
  have htid : (e₀.acts e.numActs).tid = act.tid := by rw [hnew]
  have hadded := addActionToLists_added hadd (by rw [htid]; exact hthread)
  have hentered := addActionToLists_entered hadd (by rw [htid]; exact hthread) (Nat.lt_succ_self _)
  have hkeep : ∀ a ∈ e.actionTrace, e'.acts a = e.acts a := fun a ha => by
    have hlt := (hr.old a ha).1
    rw [hadded.acts a (Nat.lt_succ_of_lt hlt),newAction_acts e act (Nat.ne_of_lt hlt)]
  -- an uninitialized action comes to a location without actions only
  have hlist : ∀ l u, u ∈ e'.objThrd l 0 → u ∈ e.objThrd l 0 ∨
      e₀.isFirst e.numActs = true ∧ e.objMap l = [] ∧ u = e₀.numActs := by
    intro l u hu
    have hlast : (0 : ThreadId) ≠ (e₀.acts e.numActs).tid := by
      rw [htid]
      exact huser.symm
    rw [hentered.objThrd,if_neg hlast,List.append_nil] at hu
    rcases List.mem_append.mp hu with hu | hu
    · split at hu
      · rename_i hfirst
        refine .inr ⟨hfirst.1.1,?_,List.mem_singleton.mp hu⟩
        have hempty := hfirst.1.1
        rw [isFirst,hfirst.1.2,Bool.and_eq_true,List.isEmpty_iff] at hempty
        exact hempty.1
      · cases hu
    · exact .inl hu
  have hold : ∀ a ∈ e.actionTrace, ∀ u ∈ e'.objThrd (e.acts a).location 0,
      u ∈ e.objThrd (e.acts a).location 0 := fun a ha u hu => by
    refine (hlist _ u hu).resolve_right fun hempty => ?_
    have hmem := (ho.listed.mem _ _ a (ho.listed.all a ha)).2.1
    rw [hempty.2.1] at hmem
    cases hmem
  refine ⟨fun l u hu => ?_,?_,fun p hp r hhead => ?_⟩
  · rcases hlist l u hu with hu | ⟨hfirst,hempty,rfl⟩
    · obtain ⟨htype,hseq,hall⟩ := h.rooted l u hu
      have hmem := ho.listed.mem l 0 u hu
      rw [hkeep u hmem.1]
      refine ⟨htype,hseq,fun v hv => (hlist l v hv).elim (hall v) fun hempty => ?_⟩
      have hobj := hmem.2.1
      rw [hempty.2.1] at hobj
      cases hobj
    · obtain ⟨htype,-,hseq,-⟩ :=
        hadded.uninit e₀.numActs le_rfl (hentered.uninit_lt hadded hfirst)
      refine ⟨htype,hseq,fun v hv => ?_⟩
      rcases hlist l v hv with hv | hv
      · have hobj := (ho.listed.mem l 0 v hv).2.1
        rw [hempty] at hobj
        cases hobj
      · exact hv.2.2
  · refine h.writes.imp hentered.flagged.mpr fun hwrites a ha hfresh hwrite hauser hfounded => ?_
    have hmem : a ∈ e.actionTrace := by
      obtain ⟨us,htrace,hus⟩ := hadded.actionTrace
      rw [htrace,List.mem_append,List.mem_append,List.mem_singleton] at ha
      rcases ha with (ha | ha) | rfl
      · exact absurd (hadded.uninit a (hus a ha).1 (hus a ha).2).2.1 hauser
      · exact ha
      · exact absurd rfl hfresh
    rw [hkeep a hmem] at hwrite hauser hfounded
    obtain ⟨u,hu⟩ := List.exists_mem_of_ne_nil _ hfounded
    rw [hentered.moGraph]
    exact hwrites a hmem (by simp) hwrite hauser (List.ne_nil_of_mem (hold a hmem u hu))
  · rw [hadded.promises] at hp
    rw [hadded.proms] at hhead
    obtain ⟨hwait,hnode⟩ := h.awaited p hp r hhead
    have hmem := (ho.awaits.reader p hp r (List.mem_of_mem_head? hhead)).1
    rw [hkeep r hmem,hentered.moGraph]
    exact ⟨hwait,fun u hu => hnode u (hold r hmem u hu)⟩

theorem pastReads_subset {lastScWrite : Option ActionId} {l past : List ActionId}
    (h : pastReads curr lastScWrite l e = .ok (e',past)) : ∀ a ∈ past, a ∈ l ∧ a ≠ curr := by
  induction l generalizing e past with
  | nil =>
    obtain ⟨_,rfl⟩ : e = e' ∧ _ := by simpa [pastReads] using h
    simp
  | cons act rest ih =>
    rw [pastReads] at h
    split at h
    · exact fun a ha => (ih h a ha).imp (List.mem_cons_of_mem act) id
    · rename_i hact
      have hne : act ≠ curr := by
        rintro rfl
        simp at hact
      obtain ⟨⟨e₁,feasible⟩,_,h⟩ := ite_bind_eq_ok.mp h
      obtain ⟨⟨e₂,more⟩,h₂,h⟩ := ite_bind_eq_ok.mp h
      obtain ⟨rfl,hpast⟩ : e₂ = e' ∧ _ := by simpa using h
      have hmore : ∀ a ∈ more, a ∈ rest ∧ a ≠ curr := by
        split at h₂
        · obtain ⟨-,rfl⟩ : e₁ = e₂ ∧ [] = more := by simpa using h₂
          simp
        · exact ih h₂
      intro a ha
      rw [← hpast] at ha
      cases feasible with
      | true =>
        rcases List.mem_cons.mp ha with rfl | ha
        · exact ⟨List.mem_cons_self,hne⟩
        · exact (hmore a ha).imp (List.mem_cons_of_mem act) id
      | false => exact (hmore a ha).imp (List.mem_cons_of_mem act) id

theorem pastReadsThreads_subset {lastScWrite : Option ActionId} {lists : List (List ActionId)}
    {past : List ActionId} (h : pastReadsThreads curr lastScWrite lists e = .ok (e',past)) :
    ∀ a ∈ past, (∃ l ∈ lists, a ∈ l) ∧ a ≠ curr := by
  induction lists generalizing e past with
  | nil =>
    obtain ⟨_,rfl⟩ : e = e' ∧ _ := by simpa [pastReadsThreads] using h
    simp
  | cons list lists ih =>
    obtain ⟨⟨e₁,reads⟩,h₁,h⟩ := bind_eq_ok.mp h
    obtain ⟨⟨e₂,more⟩,h₂,h⟩ := bind_eq_ok.mp h
    obtain ⟨rfl,rfl⟩ : e₂ = e' ∧ reads ++ more = past := by simpa using h
    intro a ha
    rcases List.mem_append.mp ha with ha | ha
    · obtain ⟨hmem,hne⟩ := pastReads_subset h₁ a ha
      exact ⟨⟨list,List.mem_cons_self,List.mem_reverse.mp hmem⟩,hne⟩
    · obtain ⟨⟨l,hl,hmem⟩,hne⟩ := ih h₂ a ha
      exact ⟨⟨l,List.mem_cons_of_mem list hl,hmem⟩,hne⟩

theorem checkRead_past {newlyExplored : Bool} {rf : ActionId}
    (h : e.checkRead curr newlyExplored (.past rf) = some e') :
    e'.asserted = true ∨ rf ≠ curr ∧ ∃ t, rf ∈ e'.objThrd (e'.acts curr).location t := by
  have hk := (checkRead_keepsOrder h).1
  obtain ⟨⟨built,past,promises⟩,hbuilt,h⟩ := Option.bind_eq_some_iff.mp h
  obtain ⟨_,hsource,h⟩ := Option.bind_eq_some_iff.mp h
  have hsource := guard_eq_some.mp hsource
  have hbuilt := toOption_eq_some.mp hbuilt
  rw [checkSource,Bool.or_eq_true] at hsource
  obtain ⟨_,_,hbuilt⟩ := bind_eq_ok.mp hbuilt
  obtain ⟨⟨e₁,past₁⟩,h₁,hbuilt⟩ := bind_eq_ok.mp hbuilt
  obtain ⟨⟨e₂,promises₂⟩,h₂,hbuilt⟩ := bind_eq_ok.mp hbuilt
  dsimp only at hbuilt
  rcases hsource with hmem | hnone
  · have hpast : past₁ = past := by
      split at hbuilt
      · exact (Prod.mk.inj (Prod.mk.inj (Except.ok.inj hbuilt)).2).1
      · exact (Prod.mk.inj (Prod.mk.inj (Except.ok.inj hbuilt)).2).1
    obtain ⟨⟨l,hl,hrf⟩,hne⟩ :=
      pastReadsThreads_subset h₁ rf (hpast ▸ List.contains_iff_mem.mp hmem)
    obtain ⟨t,ht⟩ := List.mem_iff_getElem?.mp hl
    refine .inr ⟨hne,t,?_⟩
    rw [hk.samePlaces.objThrd,(hk.samePlaces.places curr).location,objThrd,ht]
    exact hrf
  · simp only [Bool.and_eq_true] at hnone
    obtain ⟨⟨hnew,hempty⟩,hnone⟩ := hnone
    obtain rfl : _ = e' := Option.some.inj h
    split at hbuilt
    · obtain rfl := (Prod.mk.inj (Except.ok.inj hbuilt)).1
      left
      rw [if_pos hnew]
      rfl
    · rename_i hsome
      obtain ⟨-,rfl,rfl⟩ : e₂ = built ∧ past₁ = past ∧ promises₂ = promises := by simpa using hbuilt
      simp [hempty,hnone] at hsome

theorem beginAction_noded {params : ExecutionParams} {act : ModelAction} {newlyExplored : Bool}
    {node : Choices} (hbegin : e.beginAction params act newlyExplored node = some (e',curr))
    (h : e.Noded none) (ho : e.Ordered none) (hv : e.Valid) (hr : e.Recorded)
    (huser : act.tid ≠ 0) (hthread : act.tid < e.threads.length)
    (hrmwr : (act.isRmwc || act.isRmw) = true → ∀ a, e.getLastAction act.tid = some a →
      (e.acts a).isRmwr = true) :
    (act.isRmwc || act.isRmw) = true ∧ e'.Noded none ∨
      (act.isRmwc || act.isRmw) = false ∧ e'.Noded (some curr) ∧ e'.SourceListed curr node := by
  obtain ⟨⟨e₁,curr₁⟩,hinit,hbegin⟩ := Option.bind_eq_some_iff.mp hbegin
  have hinit := toOption_eq_some.mp hinit
  obtain ⟨_,_,hbegin⟩ := Option.bind_eq_some_iff.mp hbegin
  unfold initializeCurrAction at hinit
  by_cases hsecond : (act.isRmwc || act.isRmw) = true
  · rw [if_pos hsecond] at hinit
    rw [if_pos hsecond] at hbegin
    obtain ⟨rfl,rfl⟩ : e₁ = e' ∧ curr₁ = curr := by simpa using hbegin
    obtain ⟨hlast,-⟩ := processRmw_steps hinit
    have htid := (hv.last _ _ huser hlast).2.1
    exact .inl ⟨hsecond,h.secondPart ⟨hr.last _ _ huser hlast,htid ▸ huser,htid ▸ hlast⟩ hsecond
      (hrmwr hsecond _ hlast) htid hinit⟩
  · rw [if_neg hsecond] at hinit
    rw [if_neg hsecond] at hbegin
    obtain ⟨rfl,rfl⟩ : (e.newAction act).1 = e₁ ∧ e.numActs = curr₁ := by
      simpa [newAction] using hinit
    obtain ⟨_,_,hbegin⟩ := Option.bind_eq_some_iff.mp hbegin
    obtain ⟨e₂,hadd,hbegin⟩ := Option.bind_eq_some_iff.mp hbegin
    have hnoded := h.enter ho hr huser hthread (toOption_eq_some.mp hadd)
    refine .inr ⟨Bool.not_eq_true _ ▸ hsecond,?_⟩
    split at hbegin
    · obtain ⟨e₃,hread,hbegin⟩ := Option.bind_eq_some_iff.mp hbegin
      obtain ⟨rfl,rfl⟩ : e₃ = e' ∧ e.numActs = curr := by simpa using hbegin
      refine ⟨?_,fun _ rf hnode => checkRead_past (hnode ▸ hread)⟩
      obtain ⟨⟨built,past,promises⟩,hbuilt,hread⟩ := Option.bind_eq_some_iff.mp hread
      obtain ⟨_,_,hread⟩ := Option.bind_eq_some_iff.mp hread
      obtain rfl : _ = e₃ := Option.some.inj hread
      split
      · exact hnoded.orderSteps (buildMayReadFrom_order (toOption_eq_some.mp hbuilt))
      · exact hnoded
    · rename_i hread
      obtain ⟨rfl,rfl⟩ : e₂ = e' ∧ e.numActs = curr := by simpa using hbegin
      exact ⟨hnoded,fun hread' => absurd hread' hread⟩

end Execution
namespace Config

open Execution

variable {params : ExecutionParams} {c c' : Config}

/-- Promise checks never start from a write that is missing in the graph. -/
def ChecksNodes (c : Config) : Prop :=
  ∀ curr secondPartOfRmw node queue,
    c.phase = .work curr secondPartOfRmw node (.checkCurrAction :: queue) →
    c.exec.asserted = false → ∀ e act isReadCheck,
      MoChecks c.exec curr secondPartOfRmw node e act isReadCheck → e.ChecksNodes act isReadCheck

structure Noded (c : Config) : Prop where
  exec : c.exec.Noded c.fresh
  source : ∀ curr node queue, c.phase = .work curr false node queue →
    WorkItem.checkCurrAction ∈ queue → c.exec.SourceListed curr node

theorem noded_init : init.Noded where
  exec := by
    have hempty : ∀ l t, Execution.init.objThrd l t = [] := fun _ _ => rfl
    refine ⟨fun l u hu => ?_,.inr (by simp [init,Execution.init]),by simp [init,Execution.init]⟩
    have hmem : u ∈ Execution.init.objThrd l 0 := hu
    rw [hempty] at hmem
    cases hmem
  source _ _ _ h := by cases h

/-- A step outside of the work queue. -/
theorem Noded.of_exec {e : Execution} {phase : Phase} {next : Option ThreadId} (he : e.Noded none)
    (hphase : ∀ curr secondPartOfRmw node queue, phase ≠ .work curr secondPartOfRmw node queue) :
    (⟨e,phase,next⟩ : Config).Noded where
  exec := by
    rw [fresh_of_phase hphase]
    exact he
  source curr node queue h := absurd h (hphase curr false node queue)

theorem Noded.of_sameMemory {e e' : Execution} {fresh : Option ActionId} (h : e.Noded fresh)
    (hs : SameMemory e e') : e'.Noded fresh :=
  h.keepsOrder hs.keepsOrder fun _ ha => hs.moGraph ▸ ha

theorem Change.noded_work {curr : ActionId} {secondPartOfRmw : Bool} {node : Choices}
    {item : WorkItem} {queue items : List WorkItem} {e : Execution} (hv : c.Valid) (hr : c.Recorded)
    (ho : c.Ordered) (hn : c.Noded)
    (hphase : c.phase = .work curr secondPartOfRmw node (item :: queue))
    (he : c.exec.processWork curr secondPartOfRmw node item = .ok (e,items)) :
    ({ c with exec := e,phase := .work curr secondPartOfRmw node (queue ++ items) } :
      Config).Noded := by
  obtain ⟨hcurr,-,hqueue⟩ := hv.curr _ _ _ _ hphase
  have hitems := processWork_items he
  have hrest : WorkItem.checkCurrAction ∉ queue ++ items := by
    rcases hqueue with hqueue | hqueue
    · obtain ⟨-,rfl⟩ := List.cons.inj hqueue
      exact hitems
    · simp only [List.mem_cons,not_or] at hqueue
      simp [hqueue.2,hitems]
  have hdone : item ≠ .checkCurrAction → c.exec.Noded none := fun hitem => by
    have hnoded := hn.exec
    rwa [not_mem_of_work hphase (hqueue.resolve_left (by simp [hitem]))] at hnoded
  have hexec : e.Noded none := by
    cases item with
    | checkCurrAction =>
      have hnoded := hn.exec
      rw [mem_of_work hphase List.mem_cons_self] at hnoded
      refine checkCurrAction_noded hv.exec ho.exec.listed
        ⟨hr.curr _ _ _ _ hphase,hcurr.user,hcurr.last⟩ he ?_
      cases secondPartOfRmw with
      | true => exact .inl hnoded
      | false => exact .inr hnoded
    | checkReleaseSeq location =>
      exact (hdone (by simp)).orderSteps (resolveReleaseSequences_order he)
    | checkMoEdges act => exact (hdone (by simp)).orderSteps (checkMoEdges_order he)
  constructor
  · rw [not_mem_of_work rfl hrest]
    exact hexec
  · intro curr' node' queue' hwork hmem
    cases hwork
    exact absurd hmem hrest

theorem Change.noded (h : Change params c c') (hv : c.Valid) (hr : c.Recorded) (ho : c.Ordered)
    (hn : c.Noded) : c'.Noded := by
  have hnone : ∀ {phase}, c.phase = phase → (∀ curr secondPartOfRmw node queue,
      phase ≠ .work curr secondPartOfRmw node queue) → c.exec.Noded none ∧ c.exec.Ordered none :=
    fun hphase hwork => by
      have hfresh := fresh_of_phase (hphase ▸ hwork)
      exact ⟨hfresh ▸ hn.exec,hfresh ▸ ho.exec⟩
  cases h with
  | constructMutex i address parent hphase hneeds hparent =>
    refine .of_exec (Noded.of_sameMemory (hnone hphase (by simp)).1 ?_) (by simp [hphase])
    exact { SameMemory.refl c.exec with flagged := id }
  | reportBug hphase hdone =>
    refine ⟨Noded.of_sameMemory hn.exec c.exec.assertBug_sameMemory,
      fun curr node queue hwork hmem => ?_⟩
    exact absurd hmem (hdone _ _ _ _ hwork)
  | act i type order location value e hphase hneeds htyped hfollows he =>
    obtain ⟨-,rfl⟩ := switchFromMaster_spec he
    refine .of_exec (Noded.of_sameMemory (hnone hphase (by simp)).1 ?_) (by simp)
    exact { SameMemory.refl c.exec with flagged := id }
  | skip i hphase hneeds hi => exact .of_exec (hnone hphase (by simp)).1 (by simp)
  | sleepDisabled i e hphase hneeds hi he =>
    have hsteps : ThreadSteps 0 c.exec e := sleepDisabled_threadSteps he
    refine .of_exec ((hnone hphase (by simp)).1.threadSteps hsteps) fun curr second node queue => ?_
    split <;> simp
  | detect i deadlock hphase hdeadlock =>
    refine .of_exec ?_ (by simp)
    split
    · exact Noded.of_sameMemory (hnone hphase (by simp)).1 c.exec.assertBug_sameMemory
    · exact (hnone hphase (by simp)).1
  | work curr secondPartOfRmw node item queue items e hphase hasserted he =>
    exact Change.noded_work hv hr ho hn hphase he
  | finish curr secondPartOfRmw node queue hphase hdone =>
    have hexec : c.exec.Noded none := by
      rcases hdone with rfl | hasserted
      · have hnoded := hn.exec
        rwa [not_mem_of_work hphase (by simp)] at hnoded
      · exact ⟨hn.exec.rooted,.inl (.inr (.inr (.inr (.inr (.inr hasserted))))),hn.exec.awaited⟩
    refine .of_exec (Noded.of_sameMemory hexec (finishStep_sameMemory params c.exec curr))
      fun curr' second node' queue' hwork => ?_
    have hends := finishStep_phase params c.exec curr
    replace hwork : (finishStep params c.exec curr).phase = .work curr' second node' queue' := hwork
    rcases hends with h | h <;> cases h.symm.trans hwork
  | takeStep t newlyExplored node e e' act curr hphase hnext hpending hbegin =>
    obtain ⟨th,hth,hact,_,rfl,_⟩ := takePending_spec hpending
    have hvp := hv.exec.pending t th act hth hact
    obtain ⟨hnoded,hordered⟩ := hnone hphase (by simp)
    have hsame : SameMemory c.exec (c.exec.modifyThread t fun th => { th with pending := none }) :=
      { SameMemory.refl c.exec with flagged := id }
    have hrecorded := hr.exec.setState t (fun th => { th with pending := none }) (fun _ => rfl)
      fun th' _ => ⟨id,.inl⟩
    have hlt : act.tid <
        (c.exec.modifyThread t fun th => { th with pending := none }).threads.length := by
      rw [hvp.tid,modifyThread,List.length_modify]
      exact (List.getElem?_eq_some_iff.mp hth).1
    have hbegun := beginAction_noded hbegin (Noded.of_sameMemory hnoded hsame)
      (hordered.keepsOrder hsame.keepsOrder) (hv.exec.take t) hrecorded (hvp.tid ▸ hvp.user) hlt
      fun hrmw a ha => hvp.rmwr hrmw a (hvp.tid ▸ ha)
    constructor
    · rw [mem_of_work rfl List.mem_cons_self]
      rcases hbegun with ⟨hsecond,hdone⟩ | ⟨hsecond,hdone,-⟩
      · rw [hsecond]
        exact hdone
      · rw [hsecond]
        exact hdone
    · intro curr' node' queue' hwork _
      simp only [Phase.work.injEq] at hwork
      obtain ⟨rfl,hsecond,rfl,-⟩ := hwork
      rcases hbegun with ⟨hsecond',-⟩ | ⟨-,-,hsource⟩
      · cases hsecond'.symm.trans hsecond
      · exact hsource

theorem Reachable.noded (h : Reachable params c) : c.Noded := by
  have hall : c.Valid ∧ c.Recorded ∧ c.exec.PromisesValid ∧ c.Ordered ∧ c.Noded := by
    refine reachable_induction
      (p := fun c => c.Valid ∧ c.Recorded ∧ c.exec.PromisesValid ∧ c.Ordered ∧ c.Noded) ?_ ?_ h
    · exact ⟨valid_init,recorded_init,⟨List.nodup_nil,by simp [init,Execution.init],fun _ => rfl⟩,
        ordered_init,noded_init⟩
    · rintro c c' ⟨hv,hr,hp,ho,hn⟩ hchange
      exact ⟨hchange.valid hv,hchange.recorded hv hr,hchange.promisesValid hv hp,
        hchange.ordered hv hr hp ho,hchange.noded hv hr ho hn⟩
  exact hall.2.2.2.2

/-- In every run, a step whose action is on a location with its uninitialized action checks the
promises from writes that are in the graph. -/
theorem Reachable.checksNodes (h : Reachable params c)
    (hfounded : ∀ curr secondPartOfRmw node queue, c.phase = .work curr secondPartOfRmw node queue →
      c.exec.Founded (c.exec.acts curr).location) : c.ChecksNodes := by
  intro curr secondPartOfRmw node queue hphase hasserted e act isReadCheck hcheck
  have hv := h.valid
  have hcurr := (hv.curr _ _ _ _ hphase).1
  have hnoded := h.noded.exec
  rw [mem_of_work hphase List.mem_cons_self] at hnoded
  have hpending : c.exec.Pending curr :=
    ⟨h.recorded.last _ curr hcurr.user hcurr.last,hcurr.user,hcurr.last⟩
  refine hcheck.nodes hv.exec h.ordered.exec.listed hpending hasserted hnoded (fun hfirst => ?_)
    (hfounded _ _ _ _ hphase)
  subst hfirst
  exact h.noded.source _ _ _ hphase List.mem_cons_self

/-- The state in which a plain store is checked, when it is the current action. -/
def checkedStore (c : Config) : Option (ActionId × Execution) :=
  match c.phase with
  | .work curr false node (.checkCurrAction :: _) =>
    match (do
      let (e,_) ← c.exec.processThreadAction curr
      assert (!(e.acts curr).isRead && (e.acts curr).isWrite && !c.exec.asserted)
      let (e,_) ← e.writeToCheck curr node
      pure e : Result Execution) with
    | .ok e => some (curr,e)
    | .error _ => none
  | _ => none

/-- The first pending promise is checked, since a reader of it happens before the store. -/
def checksFirst (curr : ActionId) (e : Execution) : Bool :=
  match e.promises with
  | p :: _ => e.sameLocation p curr && (e.proms p).readers.any fun r => e.happensBefore r curr
  | [] => false

theorem checkedStore_checks {curr : ActionId} {e : Execution} (h : c.checkedStore = some (curr,e)) :
    ∃ node queue, c.phase = .work curr false node (.checkCurrAction :: queue) ∧
      c.exec.asserted = false ∧ MoChecks c.exec curr false node e curr false := by
  unfold checkedStore at h
  split at h
  next curr' node queue hphase =>
    split at h
    next e' hstore =>
      cases h
      obtain ⟨⟨e₁,thread⟩,hthread,hstore⟩ := bind_eq_ok.mp hstore
      obtain ⟨_,hassert,hstore⟩ := bind_eq_ok.mp hstore
      obtain ⟨⟨e₂,updated⟩,hwrite,hstore⟩ := bind_eq_ok.mp hstore
      cases hstore
      have hplain := assert_eq_ok.mp hassert
      simp only [Bool.and_eq_true,Bool.not_eq_true'] at hplain
      obtain ⟨⟨hread,hiswrite⟩,hasserted⟩ := hplain
      have hskip : (if (e₁.acts curr).isRead && !false then e₁.processRead curr node
          else pure (e₁,false)) = .ok (e₁,false) := by
        simp [hread]
      exact ⟨node,queue,hphase,hasserted,.write hthread hskip hiswrite hwrite⟩
    next => cases h
  next => cases h

theorem checksPromise_of_checksFirst {curr : ActionId} {e : Execution}
    (h : checksFirst curr e = true) : ∃ p, ChecksPromise curr curr e.promises e e p := by
  unfold checksFirst at h
  split at h
  next p ps hpromises =>
    rw [Bool.and_eq_true] at h
    exact ⟨p,hpromises ▸ .reader h.1 h.2⟩
  next => cases h

open Input in
/-- A thread reads a value that another one stores only afterwards, and then stores itself. -/
def storesAfterPromise : List Input :=
  [ofThread .threadStart 1,go 1 {},store .relaxed 10 0,go 1 {},ofObject .threadCreate 100,go 1 {},
    ofObject .threadCreate 101,ofThread .threadStart 2,go 2 {},load .relaxed 10,go 1 {},
    ofThread .threadFinish 1,ofThread .threadStart 3,go 3 {},store .relaxed 10 1,
    .takeStep 2 false { readFrom := .future ⟨1,100,3⟩ },store .relaxed 10 5]

theorem checksNodes_storesAfterPromise : ∃ c curr e, Reachable {} c ∧
    c.checkedStore = some (curr,e) ∧ checksFirst curr e = true ∧ c.ChecksNodes := by
  have hrun : ((play {} storesAfterPromise init).bind fun c => c.step {} (.takeStep 2 true {})).any
      (fun c => c.checkedStore.any fun (curr,e) =>
        checksFirst curr e && !(c.exec.objThrd (c.exec.acts curr).location 0).isEmpty) = true := by
    decide +kernel
  obtain ⟨c',hc',hchecked⟩ := (Option.any_eq_true _ _).mp hrun
  obtain ⟨c,hplay,hstep⟩ := Option.bind_eq_some_iff.mp hc'
  obtain ⟨⟨curr,e⟩,hstore,hfounded⟩ := (Option.any_eq_true _ _).mp hchecked
  obtain ⟨node,queue,hphase,-⟩ := checkedStore_checks hstore
  simp only [Bool.and_eq_true,Bool.not_eq_true',List.isEmpty_eq_false_iff] at hfounded
  have hreachable := (reachable_of_play hplay).step hstep
  refine ⟨c',curr,e,hreachable,hstore,hfounded.1,Reachable.checksNodes hreachable ?_⟩
  intro curr' second node' queue' hwork
  cases hphase.symm.trans hwork
  exact hfounded.2

open Input in
/-- The same with annotations on the variable, the first of them before every access. -/
def storesAfterAnnotation : List Input :=
  [ofThread .threadStart 1,go 1 {},ofObject .atomicAnnotated 10,go 1 {},store .relaxed 10 0,go 1 {},
    ofObject .atomicAnnotated 10,go 1 {},ofObject .threadCreate 100,go 1 {},
    ofObject .threadCreate 101,ofThread .threadStart 2,go 2 {},load .relaxed 10,go 1 {},
    ofThread .threadFinish 1,ofThread .threadStart 3,go 3 {},store .relaxed 10 1,
    .takeStep 2 false { readFrom := .future ⟨1,100,3⟩ },ofObject .atomicAnnotated 10,go 2 {},
    store .relaxed 10 5]

/-- With its first action an annotation, the variable has no uninitialized action. The scans of
`w_modification_order` then end at the later annotations without an edge to the second store, and
the promise is still looked for from it. -/
theorem exists_checked_missing_node : ¬ ∀ c, Reachable {} c → c.ChecksNodes := by
  intro hall
  have hrun : ((play {} storesAfterAnnotation init).bind fun c => c.step {}
    (.takeStep 2 true {})).any
      (fun c => c.checkedStore.any fun (curr,e) =>
        checksFirst curr e && (e.moGraph.actionToNode curr).isNone) = true := by
    decide +kernel
  obtain ⟨c',hc',hchecked⟩ := (Option.any_eq_true _ _).mp hrun
  obtain ⟨c,hplay,hstep⟩ := Option.bind_eq_some_iff.mp hc'
  obtain ⟨⟨curr,e⟩,hstore,hmissing⟩ := (Option.any_eq_true _ _).mp hchecked
  obtain ⟨node,queue,hphase,hasserted,hchecks⟩ := checkedStore_checks hstore
  simp only [Bool.and_eq_true,Option.isNone_iff_eq_none] at hmissing
  obtain ⟨p,hpromise⟩ := checksPromise_of_checksFirst hmissing.1
  obtain ⟨write,hwrite,hnodes⟩ :=
    hall c' ((reachable_of_play hplay).step hstep) _ _ _ _ hphase hasserted e curr false hchecks
  obtain rfl : curr = write := Option.some.inj hwrite
  obtain ⟨n,hn⟩ := hnodes e p hpromise
  cases hmissing.2.symm.trans hn

end Config
end CdsChecker
