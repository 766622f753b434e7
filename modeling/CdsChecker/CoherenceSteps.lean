import CdsChecker.Coherence

/-! The current action keeps coherence: what it reads or writes comes behind what its thread has
written, and a promise that is kept gives its place to the write. -/
namespace CdsChecker
namespace Execution

open Relation CycleGraph

variable {e e' : Execution} {curr : ActionId}

/-! ### Reads -/

/-- Only what the current action reads changes, and perhaps the promises. -/
structure Reads (e e' : Execution) (curr : ActionId) : Prop where
  actionTrace : e'.actionTrace = e.actionTrace
  objMap : e'.objMap = e.objMap
  objThrdMap : e'.objThrdMap = e.objThrdMap
  thrdLastAction : e'.thrdLastAction = e.thrdLastAction
  moGraph : e'.moGraph = e.moGraph
  flagged : e.Flagged → e'.Flagged
  act : ∀ a, (e.acts a).Same (e'.acts a)
  other : ∀ a, a ≠ curr → e'.acts a = e.acts a

theorem Reads.samePlaces (h : Reads e e' curr) : SamePlaces e e' :=
  ⟨h.actionTrace,h.objMap,h.objThrdMap,h.thrdLastAction,fun a => .of_keeps (h.act a).keeps,
    fun a => (h.act a).cv⟩

theorem Reads.pending (h : Reads e e' curr) (hp : e.Pending curr) : e'.Pending curr := by
  have htid := (h.act curr).tid
  refine ⟨h.actionTrace ▸ hp.mem,htid ▸ hp.user,?_⟩
  rw [htid,getLastAction,h.thrdLastAction]
  exact hp.last

theorem Ordered.reads (h : e.Ordered (some curr)) (hr : Reads e e' curr) (ha : e'.Awaits) :
    e'.Ordered (some curr) where
  wellFormed := hr.moGraph ▸ h.wellFormed
  listed := h.listed.samePlaces hr.samePlaces
  awaits := ha
  coherent l hl := by
    rw [hr.samePlaces.onlyAtomic] at hl
    refine (h.coherent l hl).imp (fun hd => ?_) (fun hc t => ?_)
    · rw [Doomed,hr.moGraph]
      exact hd.imp id hr.flagged
    · rw [hr.samePlaces.objThrd,hr.moGraph]
      refine (hc t).imp fun {w a} hwa hfresh hwrite y hy => ?_
      have hne : a ≠ curr := fun hac => hfresh (congrArg some hac)
      have hwrite' : (e.acts w).isWrite = true := by
        simpa only [ModelAction.isWrite,(hr.act w).type] using hwrite
      have hsame : e'.seen a = e.seen a := by
        unfold seen
        rw [hr.other a hne]
      exact hwa hfresh hwrite' y (hsame ▸ hy)

theorem setReadFrom_reads (e : Execution) (curr rf : ActionId) :
    Reads e (e.modifyAct curr fun a => a.setReadFrom rf) curr where
  actionTrace := rfl
  objMap := rfl
  objThrdMap := rfl
  thrdLastAction := rfl
  moGraph := rfl
  flagged := id
  act := e.modifyAct_same curr (.setReadFrom _ rf)
  other a ha := by simp [modifyAct,ha]

theorem Awaits.setReadFrom (h : e.Awaits) (hunread : Unread (e.acts curr)) (rf : ActionId) :
    (e.modifyAct curr fun a => a.setReadFrom rf).Awaits where
  pending a hmem p hrf hp := by
    by_cases ha : a = curr
    · subst ha
      simp [modifyAct,ModelAction.setReadFrom] at hrf
    · simp only [modifyAct,Function.update_of_ne ha] at hrf hp ⊢
      exact h.pending a hmem p hrf hp
  reader p hp a har := by
    have hold := h.reader p hp a har
    have ha : a ≠ curr := by
      rintro rfl
      cases hunread.2.symm.trans hold.2.2
    simp only [modifyAct,Function.update_of_ne ha]
    exact hold

theorem readFrom_calm {act rf : ActionId} {b : Bool} (h : e.readFrom act rf = .ok (e',b)) :
    (e.acts rf).isWrite = true ∧ CalmSteps (e.modifyAct act fun a => a.setReadFrom rf) e' := by
  obtain ⟨_,hrf,h⟩ := bind_eq_ok.mp h
  refine ⟨assert_eq_ok.mp hrf,?_⟩
  dsimp only at h
  split at h
  · obtain ⟨⟨e₁,heads⟩,h₁,h⟩ := bind_eq_ok.mp h
    obtain rfl : _ = e' := congrArg Prod.fst (Except.ok.inj h)
    exact (getReleaseSeqHeads_calm h₁).trans (synchronizeAll_calm act heads)
  · obtain ⟨rfl,_⟩ : _ = e' ∧ _ := by simpa using h
    exact .refl

theorem readFrom_order {act rf : ActionId} {b : Bool} (h : e.readFrom act rf = .ok (e',b)) :
    (e.acts rf).isWrite = true ∧ OrderSteps (e.modifyAct act fun a => a.setReadFrom rf) e' :=
  ⟨(readFrom_calm h).1,CalmSteps.order (readFrom_calm h).2⟩

theorem readFrom_keepsOrder {act rf : ActionId} {b : Bool} (h : e.readFrom act rf = .ok (e',b)) :
    (e.acts rf).isWrite = true ∧ KeepsOrder (e.modifyAct act fun a => a.setReadFrom rf) e' :=
  ⟨(readFrom_order h).1,OrderSteps.keepsOrder (readFrom_order h).2⟩

/-- The reader of a promise, old or new. -/
theorem Awaits.readsPromise {p : PromiseId} (h : e.Awaits) (hunread : Unread (e.acts curr))
    (hcurr : curr ∈ e.actionTrace) (htrace : e'.actionTrace = e.actionTrace)
    (hother : ∀ a, a ≠ curr → e'.acts a = e.acts a)
    (hself : (e'.acts curr).readsFrom = none ∧ (e'.acts curr).readsFromPromise = some p)
    (hpromises : ∀ q, q ∈ e'.promises ↔ q ∈ e.promises ∨ q = p)
    (hreaders : ∀ q, q ≠ p → (e'.proms q).readers = (e.proms q).readers)
    (hnew : ∀ a, a ∈ (e'.proms p).readers ↔
      p ∈ e.promises ∧ a ∈ (e.proms p).readers ∨ a = curr) : e'.Awaits where
  pending a hmem q hrf hq := by
    by_cases ha : a = curr
    · subst ha
      obtain rfl := Option.some.inj (hself.2.symm.trans hq)
      exact ⟨(hpromises p).mpr (.inr rfl),(hnew a).mpr (.inr rfl)⟩
    · rw [hother a ha] at hrf hq
      rw [htrace] at hmem
      obtain ⟨hold,har⟩ := h.pending a hmem q hrf hq
      refine ⟨(hpromises q).mpr (.inl hold),?_⟩
      by_cases hqp : q = p
      · subst hqp
        exact (hnew a).mpr (.inl ⟨hold,har⟩)
      · rwa [hreaders q hqp]
  reader q hq a har := by
    rw [htrace]
    have hold : q ∈ e.promises → a ∈ (e.proms q).readers → a ∈ e.actionTrace ∧
        (e'.acts a).readsFrom = none ∧ (e'.acts a).readsFromPromise = some q := fun hmem har => by
      have hreader := h.reader q hmem a har
      have ha : a ≠ curr := by
        rintro rfl
        cases hunread.2.symm.trans hreader.2.2
      rw [hother a ha]
      exact hreader
    by_cases hqp : q = p
    · subst hqp
      rcases (hnew a).mp har with ⟨hmem,har⟩ | rfl
      · exact hold hmem har
      · exact ⟨hcurr,hself⟩
    · rw [hreaders q hqp] at har
      exact hold (((hpromises q).mp hq).resolve_right hqp) har

theorem Listed.place {l : Location} {t : ThreadId} {a : ActionId} (h : e.Listed)
    (ha : a ∈ e.objThrd l t) (hatomic : (e.acts a).isAtomicVar = true) :
    (e.acts a).location = l ∧ (e.acts a).tid = t := by
  obtain ⟨-,-,htid,hon⟩ := h.mem l t a ha
  have hwait := ModelAction.isWait_of_atomic hatomic
  exact ⟨by simpa [onLocation,hwait] using hon,htid⟩

/-- The current action comes behind what its thread has written. -/
theorem Ordered.settle (h : e'.Ordered (some curr)) (hplaces : SamePlaces e e')
    (hwrite : ∀ a, (e'.acts a).isWrite = (e.acts a).isWrite) (hdoomed : e.Doomed → e'.Doomed)
    (hatomic : (e.acts curr).isAtomicVar = true)
    (hown : e.OnlyAtomic (e.acts curr).location → e.Doomed ∨
      ∀ w ∈ e.objThrd (e.acts curr).location (e.acts curr).tid, w ≠ curr →
        (e.acts w).isWrite = true → ∀ y, e'.seen curr = some y →
          ReflTransGen e'.moGraph.order.edge (.action w) y) : e'.Ordered none :=
  { h with
    coherent := fun l hl => by
      have hatomic' : (e'.acts curr).isAtomicVar = true :=
        (hplaces.places curr).atomic.trans hatomic
      rcases h.coherent l hl with hd | hc
      · exact .inl hd
      · by_cases hloc : (e'.acts curr).location = l
        · have hloc' : (e.acts curr).location = l := (hplaces.places curr).location.symm.trans hloc
          subst hloc'
          refine (hown (hplaces.onlyAtomic.mp hl)).imp hdoomed fun hown => ?_
          refine hc.settle h.listed hatomic' fun t ht w hw hne hwrite' => ?_
          obtain rfl := (hplaces.places curr).tid.symm.trans (h.listed.place ht hatomic').2
          rw [hplaces.objThrd] at hw
          exact hown w hw hne ((hwrite w).symm.trans hwrite')
        · refine .inr (hc.settle h.listed hatomic' fun t ht => ?_)
          exact absurd (h.listed.place ht hatomic').1 hloc }

/-- An action that shows nothing of the modification order. -/
theorem Ordered.settle_unseen (h : e.Ordered (some curr)) (hseen : e.seen curr = none) :
    e.Ordered none :=
  { h with
    coherent := fun l hl => (h.coherent l hl).imp id fun hc t =>
      (hc t).imp fun {w a} hwa _ hwrite y hy => by
        refine hwa ?_ hwrite y hy
        rintro h'
        obtain rfl : a = curr := Option.some.inj h'
        cases hseen.symm.trans hy }

theorem seen_of_reads {a : ActionId} {rf : ActionId} (hread : (e.acts a).isWrite = false)
    (hrf : (e.acts a).readsFrom = some rf) : e.seen a = some (.action rf) := by
  rw [seen,if_neg (by simp [hread]),hrf]

theorem seen_of_promise {a : ActionId} {p : PromiseId} (hread : (e.acts a).isWrite = false)
    (hrf : (e.acts a).readsFrom = none) (hp : (e.acts a).readsFromPromise = some p) :
    e.seen a = some (.promise p) := by
  rw [seen,if_neg (by simp [hread]),hrf,hp]
  rfl

/-- What `processRead` needs: the action is a read that has read nothing yet. -/
structure BareRead (e : Execution) (curr : ActionId) : Prop extends e.Pending curr where
  isRead : (e.acts curr).isRead = true
  isWrite : (e.acts curr).isWrite = false
  unread : Unread (e.acts curr)

theorem BareRead.atomic (h : e.BareRead curr) : (e.acts curr).isAtomicVar = true := by
  simp [ModelAction.isAtomicVar,h.isRead]

theorem BareRead.keepsOrder (h : e.BareRead curr) (hk : KeepsOrder e e') : e'.BareRead curr where
  toPending := hk.currPending h.toPending
  isRead := by
    simpa only [ModelAction.isRead,(hk.keeps curr).type] using h.isRead
  isWrite := (hk.isWrite curr).trans h.isWrite
  unread := by
    rw [Unread,hk.readsFrom,hk.readsFromPromise]
    exact h.unread

theorem processRead_past {node : Choices} {rf : ActionId} {b : Bool}
    (hread : e.processRead curr node = .ok (e',b)) (hnode : node.readFrom = .past rf)
    (h : e.Ordered (some curr)) (hcurr : e.BareRead curr) : e'.Ordered none := by
  simp only [processRead,hnode] at hread
  obtain ⟨e₁,h₁,hread⟩ := bind_eq_ok.mp hread
  obtain ⟨_,_,hread⟩ := bind_eq_ok.mp hread
  obtain ⟨⟨e₂,_⟩,h₂,hread⟩ := bind_eq_ok.mp hread
  obtain ⟨⟨e₃,_⟩,h₃,hread⟩ := bind_eq_ok.mp hread
  obtain ⟨e₄,h₄,hread⟩ := bind_eq_ok.mp hread
  obtain rfl : e₄ = e' := congrArg Prod.fst (Except.ok.inj hread)
  have hstart : KeepsOrder e (e₁.markStale node.stale) :=
    OrderSteps.keepsOrder ((startChanges_order h₁).trans (markStale_order node.stale))
  have hedges : KeepsOrder (e₁.markStale node.stale) e₂ :=
    OrderSteps.keepsOrder (rModificationOrder_order h₂)
  obtain ⟨hrf,hset⟩ := readFrom_keepsOrder h₃
  have hbare := hcurr.keepsOrder hstart
  have hordered := h.keepsOrder hstart
  have hreads := setReadFrom_reads e₂ curr rf
  have hunread := (hbare.keepsOrder hedges).unread
  have hafter := (hordered.keepsOrder hedges).reads hreads
    ((hordered.keepsOrder hedges).awaits.setReadFrom hunread rf)
  have hwrite : ∀ a, ((e₂.modifyAct curr fun a => a.setReadFrom rf).acts a).isWrite =
      ((e₁.markStale node.stale).acts a).isWrite := fun a => by
    rw [← hedges.isWrite a]
    simp only [ModelAction.isWrite,(hreads.act a).type]
  have hsettled : (e₂.modifyAct curr fun a => a.setReadFrom rf).Ordered none := by
    refine hafter.settle (e := e₁.markStale node.stale) ?_ hwrite
      (hedges.doomed hordered.wellFormed) hbare.atomic fun hl => ?_
    · exact ⟨hedges.actionTrace,hedges.objMap,hedges.objThrdMap,hedges.thrdLastAction,
        fun a => .of_keeps ((hedges.keeps a).trans (hreads.act a).keeps),
        fun a => (hedges.keeps a).cv.trans (hreads.act a).cv⟩
    · refine (rModificationOrder_own h₂ hordered hbare.toPending hl ?_).imp id
        fun hown w hw hne hwrite' y hy => ?_
      · rintro a ⟨⟩
        rw [← hedges.isWrite]
        exact hrf
      · have hy' : (e₂.modifyAct curr fun a => a.setReadFrom rf).seen curr = some (.action rf) :=
          seen_of_reads ((hwrite curr).trans hbare.isWrite)
            (by simp [modifyAct,ModelAction.setReadFrom])
        obtain rfl := Option.some.inj (hy'.symm.trans hy)
        exact hown w hw hne hwrite'
  exact (hsettled.keepsOrder hset).keepsOrder
    (OrderSteps.keepsOrder (commitChanges_order.trans (moCheckPromises_order h₄)))

/-- The promise that is read comes behind what the thread has written. -/
theorem Ordered.promiseEdges {p : PromiseId} {b : Bool} (h : e.Ordered (some curr))
    (hp : e.Pending curr) (hatomic : (e.acts curr).isAtomicVar = true)
    (hseen : e.seen curr = some (.promise p))
    (hr : e.rModificationOrder curr (.promise p) = .ok (e',b)) : e'.Ordered none := by
  have hedges : KeepsOrder e e' := OrderSteps.keepsOrder (rModificationOrder_order hr)
  refine (h.keepsOrder hedges).settle hedges.samePlaces hedges.isWrite
    (hedges.doomed h.wellFormed) hatomic fun hl => ?_
  refine (rModificationOrder_own hr h hp hl ?_).imp id fun hown w hw hne hwrite y hy => ?_
  · rintro a ⟨⟩
  · rw [hedges.seen] at hy
    obtain rfl := Option.some.inj (hseen.symm.trans hy)
    exact hown w hw hne hwrite

/-- A read from a promise, from the start of its changes on. -/
theorem Ordered.readsPromise {p : PromiseId} {e₀ e₁ : Execution} {b : Bool}
    (h : e.Ordered (some curr)) (hcurr : e.BareRead curr) (hreads : Reads e e₀ curr)
    (hawaits : e₀.Awaits)
    (hself : (e₀.acts curr).readsFrom = none ∧ (e₀.acts curr).readsFromPromise = some p)
    (hstart : KeepsOrder e₀ e₁) (hr : e₁.rModificationOrder curr (.promise p) = .ok (e',b)) :
    e'.commitChanges.Ordered none := by
  have hordered := (h.reads hreads hawaits).keepsOrder hstart
  have hwrite : (e₁.acts curr).isWrite = false := by
    rw [hstart.isWrite]
    simpa only [ModelAction.isWrite,(hreads.act curr).type] using hcurr.isWrite
  have hseen : e₁.seen curr = some (.promise p) :=
    seen_of_promise hwrite ((hstart.readsFrom curr).trans hself.1)
      ((hstart.readsFromPromise curr).trans hself.2)
  have hatomic : (e₁.acts curr).isAtomicVar = true :=
    (hstart.samePlaces.places curr).atomic.trans
      ((hreads.samePlaces.places curr).atomic.trans hcurr.atomic)
  exact (hordered.promiseEdges (hstart.currPending (hreads.pending hcurr.toPending)) hatomic hseen
    hr).keepsOrder (OrderSteps.keepsOrder commitChanges_order)

theorem readers_addReader (p : Promise) (reader : ActionId) (t : ThreadId) :
    (p.addReader reader t).1.readers = p.readers ++ [reader] :=
  Promise.readers_eliminateThread _ t

theorem readers_create (read : ActionId) (t : ThreadId) (fv : FutureValue) :
    (Promise.create read t fv).readers = [read] := by
  rw [Promise.create,Promise.readers_eliminateThread,Promise.readers_addThread]

theorem setReadFromPromise_same (e : Execution) (curr : ActionId) (p : PromiseId) (a : ActionId) :
    (e.acts a).Same ((e.modifyAct curr fun a => a.setReadFromPromise p).acts a) :=
  e.modifyAct_same curr (f := fun a => a.setReadFromPromise p) (.setReadFromPromise _ p) a

theorem processRead_promise {node : Choices} {p : PromiseId} {b : Bool}
    (hread : e.processRead curr node = .ok (e',b)) (hnode : node.readFrom = .promise p)
    (hp : p ∈ e.promises) (h : e.Ordered (some curr)) (hcurr : e.BareRead curr) :
    e'.Ordered none := by
  simp only [processRead,hnode] at hread
  obtain ⟨e₁,h₁,hread⟩ := bind_eq_ok.mp hread
  obtain ⟨⟨e₂,_⟩,h₂,hread⟩ := bind_eq_ok.mp hread
  obtain rfl : _ = e' := congrArg Prod.fst (Except.ok.inj hread)
  set e₀ := (if ((e.proms p).addReader curr (e.acts curr).tid).2 = true then
      { e.modifyPromise p fun _ => ((e.proms p).addReader curr (e.acts curr).tid).1 with
        failedPromise := true }
    else e.modifyPromise p fun _ => ((e.proms p).addReader curr (e.acts curr).tid).1).modifyAct curr
      fun a => a.setReadFromPromise p with he₀
  have hreads : Reads e e₀ curr := by
    rw [he₀]
    split <;> exact ⟨rfl,rfl,rfl,rfl,rfl,id,setReadFromPromise_same e curr p,
      fun a ha => by simp [modifyAct,modifyPromise,ha]⟩
  have hself : (e₀.acts curr).readsFrom = none ∧ (e₀.acts curr).readsFromPromise = some p := by
    rw [he₀]
    split <;> simp [modifyAct,modifyPromise,ModelAction.setReadFromPromise]
  have hpromises : e₀.promises = e.promises := by
    rw [he₀]
    split <;> rfl
  have hproms : ∀ q, e₀.proms q =
      if q = p then ((e.proms p).addReader curr (e.acts curr).tid).1 else e.proms q := fun q => by
    rw [he₀]
    split <;> by_cases hq : q = p <;> simp [modifyAct,modifyPromise,hq]
  have hawaits : e₀.Awaits := by
    refine h.awaits.readsPromise hcurr.unread hcurr.mem hreads.actionTrace hreads.other hself
      (fun q => ?_) (fun q hq => ?_) (fun a => ?_)
    · rw [hpromises]
      exact ⟨.inl,fun hq => hq.elim id fun hq => hq ▸ hp⟩
    · rw [hproms,if_neg hq]
    · rw [hproms,if_pos rfl,readers_addReader]
      simp [hp]
  exact h.readsPromise hcurr hreads hawaits hself
    (OrderSteps.keepsOrder ((startChanges_order h₁).trans (markStale_order node.stale))) h₂

theorem processRead_future {node : Choices} {fv : FutureValue} {b : Bool}
    (hread : e.processRead curr node = .ok (e',b)) (hnode : node.readFrom = .future fv)
    (hvalid : e.PromisesValid) (h : e.Ordered (some curr)) (hcurr : e.BareRead curr) :
    e'.Ordered none := by
  simp only [processRead,hnode] at hread
  obtain ⟨e₁,h₁,hread⟩ := bind_eq_ok.mp hread
  obtain ⟨⟨e₂,_⟩,h₂,hread⟩ := bind_eq_ok.mp hread
  obtain rfl : _ = e' := congrArg Prod.fst (Except.ok.inj hread)
  set e₀ : Execution := { ({ e with
      proms := Function.update e.proms e.numProms (Promise.create curr (e.acts curr).tid fv)
      numProms := e.numProms + 1 } : Execution).modifyAct curr
        (fun a => a.setReadFromPromise e.numProms) with
      promises := e.promises ++ [e.numProms] } with he₀
  have hreads : Reads e e₀ curr :=
    ⟨rfl,rfl,rfl,rfl,rfl,id,setReadFromPromise_same e curr e.numProms,
      fun a ha => by simp [he₀,modifyAct,ha]⟩
  have hself : (e₀.acts curr).readsFrom = none ∧
      (e₀.acts curr).readsFromPromise = some e.numProms := by
    simp [he₀,modifyAct,ModelAction.setReadFromPromise]
  have hnew : e.numProms ∉ e.promises := fun hmem => Nat.lt_irrefl _ (hvalid.lt _ hmem)
  have hawaits : e₀.Awaits := by
    refine h.awaits.readsPromise hcurr.unread hcurr.mem rfl hreads.other hself
      (fun q => by simp [he₀]) (fun q hq => ?_) (fun a => ?_)
    · simp [he₀,modifyAct,hq]
    · simp [he₀,modifyAct,readers_create,hnew]
  exact h.readsPromise hcurr hreads hawaits hself (OrderSteps.keepsOrder (startChanges_order h₁)) h₂

theorem processRead_ordered {node : Choices} {b : Bool}
    (hread : e.processRead curr node = .ok (e',b)) (hvalid : e.PromisesValid)
    (hsource : ∀ p, node.readFrom = .promise p → p ∈ e.promises) (h : e.Ordered (some curr))
    (hcurr : e.BareRead curr) : e'.Ordered none := by
  cases hnode : node.readFrom with
  | past rf => exact processRead_past hread hnode h hcurr
  | promise p => exact processRead_promise hread hnode (hsource p hnode) h hcurr
  | future fv => exact processRead_future hread hnode hvalid h hcurr

/-! ### Writes -/

/-- The given reads read from the write. -/
def redirect (e : Execution) (readers : List ActionId) (write : ActionId) : Execution :=
  { e with acts := fun a => if a ∈ readers then (e.acts a).setReadFrom write else e.acts a }

theorem redirect_same (e : Execution) (readers : List ActionId) (write a : ActionId) :
    (e.acts a).Same ((e.redirect readers write).acts a) := by
  by_cases ha : a ∈ readers
  · simpa [redirect,ha] using ModelAction.Same.setReadFrom (e.acts a) write
  · simpa [redirect,ha] using ModelAction.Same.refl (e.acts a)

theorem KeepsOrder.redirect (h : KeepsOrder e e') (readers : List ActionId) (write : ActionId) :
    KeepsOrder (e.redirect readers write) (e'.redirect readers write) where
  numActs := h.numActs
  actionTrace := h.actionTrace
  objMap := h.objMap
  thrdLastAction := h.thrdLastAction
  usedSequenceNumbers := h.usedSequenceNumbers
  objThrdMap := h.objThrdMap
  keeps a := by
    by_cases ha : a ∈ readers
    · have hkeeps := h.keeps a
      simpa [Execution.redirect,ha] using (⟨hkeeps.type,hkeeps.order,hkeeps.location,hkeeps.value,
        hkeeps.tid,hkeeps.seqNumber,hkeeps.cv⟩ :
          ((e.acts a).setReadFrom write).Keeps ((e'.acts a).setReadFrom write))
    · simpa [Execution.redirect,ha] using h.keeps a
  readsFrom a := by
    by_cases ha : a ∈ readers
    · simp [Execution.redirect,ha,ModelAction.setReadFrom]
    · simpa [Execution.redirect,ha] using h.readsFrom a
  readsFromPromise a := by
    by_cases ha : a ∈ readers
    · simp [Execution.redirect,ha,ModelAction.setReadFrom]
    · simpa [Execution.redirect,ha] using h.readsFromPromise a
  promises := h.promises
  readers := h.readers
  graph := h.graph
  flagged := h.flagged

theorem redirect_cons (e : Execution) (read : ActionId) (reads : List ActionId) (write : ActionId) :
    (e.modifyAct read fun a => a.setReadFrom write).redirect reads write =
      e.redirect (read :: reads) write := by
  have hacts : ∀ a, ((e.modifyAct read fun a => a.setReadFrom write).redirect reads write).acts a =
      (e.redirect (read :: reads) write).acts a := fun a => by
    by_cases ha : a = read
    · subst ha
      by_cases hmem : a ∈ reads <;> simp [redirect,modifyAct,hmem,ModelAction.setReadFrom]
    · simp [redirect,modifyAct,ha]
  simp only [redirect,modifyAct,Execution.mk.injEq,and_true]
  funext a
  exact hacts a

theorem readersReadFrom_keepsOrder {write : ActionId} {l : List ActionId} {items : List WorkItem}
    (h : readersReadFrom write l e = .ok (e',items)) : KeepsOrder (e.redirect l write) e' := by
  induction l generalizing e items with
  | nil =>
    obtain ⟨rfl,_⟩ : e = e' ∧ _ := by simpa [readersReadFrom] using h
    have hsame : e.redirect [] write = e := by simp [redirect]
    rw [hsame]
    exact .refl e
  | cons read reads ih =>
    obtain ⟨⟨e₁,updated⟩,h₁,h⟩ := bind_eq_ok.mp h
    obtain ⟨⟨e₂,_⟩,h₂,h⟩ := ite_bind_eq_ok.mp h
    obtain ⟨⟨e₃,_⟩,h₃,h⟩ := bind_eq_ok.mp h
    obtain ⟨rfl,_⟩ : e₃ = e' ∧ _ := by simpa using h
    have hpropagate : KeepsOrder e₁ e₂ := by
      split at h₂
      · exact OrderSteps.keepsOrder (propagateClockvector_order h₂)
      · obtain ⟨rfl,_⟩ : e₁ = e₂ ∧ _ := by simpa using h₂
        exact .refl e₁
    have hfirst := ((readFrom_keepsOrder h₁).2.trans hpropagate).redirect reads write
    rw [redirect_cons] at hfirst
    exact hfirst.trans (ih h₃)

/-- A promise that is kept: unless a failure is found, its place in the order goes to the write. -/
theorem resolvePromise_reach {tests : PromiseTests} {g g' : CycleGraph} {promise : PromiseId}
    {writer : ActionId} {ok : Bool} (h : g.WellFormed)
    (hg : g.resolvePromise tests promise writer = .ok (g',ok)) :
    (g.hasCycles = true → g'.hasCycles = true ∨ ok = false) ∧
      (g'.hasCycles = true ∨ ok = false ∨ ∀ x y, ReflTransGen g.order.edge x y →
        ReflTransGen g'.order.edge (OrderGraph.merged (.action writer) (.promise promise) x)
          (OrderGraph.merged (.action writer) (.promise promise) y)) := by
  obtain ⟨-,-,hout⟩ := resolvePromise_spec h hg
  cases hout with
  | refused => exact ⟨.inl,.inr (.inl rfl)⟩
  | cyclic hc => exact ⟨fun _ => .inl hc,.inl hc⟩
  | merged hm =>
    obtain ⟨o,hsteps,hiso,-,ho⟩ := hm.steps
    have hcyclic : g'.order.cyclic = o.cyclic := by rw [ho]; rfl
    have hedge : g'.order.edge = o.edge := by rw [ho]; rfl
    refine ⟨fun hc => .inl ?_,.inr (.inr fun x y hxy => ?_)⟩
    · have hcyc : g'.order.cyclic := hcyclic ▸ OrderGraph.merge_cyclic_mono hsteps hc
      exact hcyc
    · rw [hedge]
      exact OrderGraph.merge_reach hsteps hiso
        (show ReflTransGen (g.order.adopt (.action writer) (.promise promise)).edge x y from hxy)

/-- The pending promises without the one that is kept, and its readers. -/
theorem Awaits.kept {p : PromiseId} {i : ℕ} {e₁ : Execution} (h : e.Awaits)
    (hnodup : e.promises.Nodup) (hi : e.promises[i]? = some p) (htrace :
    e₁.actionTrace = e.actionTrace)
    (hpromises : e₁.promises = e.promises.eraseIdx i)
    (hreaders : ∀ q, (e₁.proms q).readers = (e.proms q).readers)
    (hkept : ∀ a ∈ (e.proms p).readers, (e₁.acts a).readsFrom ≠ none)
    (hother : ∀ a, a ∉ (e.proms p).readers → (e₁.acts a).readsFrom = (e.acts a).readsFrom ∧
      (e₁.acts a).readsFromPromise = (e.acts a).readsFromPromise) : e₁.Awaits := by
  have hmem : ∀ q, q ∈ e₁.promises ↔ q ∈ e.promises ∧ q ≠ p := fun q => by
    rw [hpromises,List.mem_eraseIdx_iff_getElem?]
    constructor
    · rintro ⟨j,hj,hq⟩
      refine ⟨List.mem_of_getElem? hq,?_⟩
      rintro rfl
      exact hj ((List.getElem?_inj (List.getElem?_eq_some_iff.mp hq).1 hnodup).mp
        (hq.trans hi.symm))
    · rintro ⟨hq,hne⟩
      obtain ⟨j,hj⟩ := List.mem_iff_getElem?.mp hq
      refine ⟨j,?_,hj⟩
      rintro rfl
      exact hne (Option.some.inj (hj.symm.trans hi))
  constructor
  · intro a htr q hrf hq
    have ha : a ∉ (e.proms p).readers := fun ha => hkept a ha hrf
    rw [(hother a ha).1] at hrf
    rw [(hother a ha).2] at hq
    rw [htrace] at htr
    obtain ⟨hold,har⟩ := h.pending a htr q hrf hq
    refine ⟨(hmem q).mpr ⟨hold,?_⟩,by rwa [hreaders]⟩
    rintro rfl
    exact ha har
  · intro q hq a har
    obtain ⟨hold,hne⟩ := (hmem q).mp hq
    rw [hreaders] at har
    have hreader := h.reader q hold a har
    have ha : a ∉ (e.proms p).readers := fun ha =>
      hne (Option.some.inj (hreader.2.2.symm.trans
        (h.reader p (List.mem_of_getElem? hi) a ha).2.2))
    rw [htrace,(hother a ha).1,(hother a ha).2]
    exact hreader

theorem resolvePromise_ordered {p : PromiseId} {i : ℕ} {items : List WorkItem}
    (hr : ({ e with promises := e.promises.eraseIdx i } : Execution).resolvePromise curr p =
      .ok (e',items)) (hi : e.promises[i]? = some p) (hvalid : e.PromisesValid)
    (h : e.Ordered none) : e'.Ordered none := by
  obtain ⟨⟨e₁,_⟩,h₁,hr⟩ := bind_eq_ok.mp hr
  obtain ⟨_,_,hr⟩ := bind_eq_ok.mp hr
  obtain ⟨⟨g,resolved⟩,hg,hr⟩ := bind_eq_ok.mp hr
  obtain ⟨e₃,h₃,hr⟩ := bind_eq_ok.mp hr
  obtain rfl : e₃ = e' := congrArg Prod.fst (Except.ok.inj hr)
  have hk := readersReadFrom_keepsOrder h₁
  set readers := (e.proms p).readers with hreaders
  have hext : e.moGraph.Extends e₁.moGraph := hk.graph h.wellFormed
  obtain ⟨hcyclic,hreach⟩ := resolvePromise_reach hext.wellFormed hg
  refine Ordered.keepsOrder ?_ (OrderSteps.keepsOrder (moCheckReads_order h₃))
  have hkeeps : ∀ a, (e.acts a).Keeps (e₁.acts a) := fun a =>
    (e.redirect_same readers curr a).keeps.trans (hk.keeps a)
  have hplaces : SamePlaces e { e₁ with
      moGraph := g
      hardFailedPromise := e₁.hardFailedPromise || !resolved } :=
    ⟨hk.actionTrace,hk.objMap,hk.objThrdMap,hk.thrdLastAction,fun a => .of_keeps (hkeeps a),
      fun a => (hkeeps a).cv⟩
  have hkept : ∀ a ∈ readers, (e₁.acts a).readsFrom = some curr := fun a ha => by
    rw [hk.readsFrom]
    simp [redirect,ha,ModelAction.setReadFrom]
  have hother : ∀ a, a ∉ readers → (e₁.acts a).readsFrom = (e.acts a).readsFrom ∧
      (e₁.acts a).readsFromPromise = (e.acts a).readsFromPromise := fun a ha => by
    rw [hk.readsFrom,hk.readsFromPromise]
    simp [redirect,ha]
  have hwrite : ∀ a, (e₁.acts a).isWrite = (e.acts a).isWrite := fun a => by
    simp only [ModelAction.isWrite,(hkeeps a).type]
  -- what an action shows moves from the promise to the write
  have hseen : ∀ a ∈ e.actionTrace, ∀ y, e₁.seen a = some y →
      ∃ y', e.seen a = some y' ∧ OrderGraph.merged (.action curr) (.promise p) y' = y := by
    intro a hmem y hy
    cases hw : (e.acts a).isWrite with
    | true =>
      rw [seen_of_write ((hwrite a).trans hw)] at hy
      obtain rfl := Option.some.inj hy
      exact ⟨_,seen_of_write hw,by simp [OrderGraph.merged]⟩
    | false =>
      by_cases ha : a ∈ readers
      · have hreader := h.awaits.reader p (List.mem_of_getElem? hi) a ha
        rw [seen_of_reads ((hwrite a).trans hw) (hkept a ha)] at hy
        obtain rfl := Option.some.inj hy
        exact ⟨_,seen_of_promise hw hreader.2.1 hreader.2.2,by simp [OrderGraph.merged]⟩
      · have hsame : e₁.seen a = e.seen a := by
          simp only [seen,hwrite,(hother a ha).1,(hother a ha).2]
        refine ⟨y,hsame ▸ hy,if_neg ?_⟩
        rintro rfl
        rw [hsame,seen,if_neg (by simp [hw])] at hy
        cases hrf : (e.acts a).readsFrom with
        | some rf => simp [hrf] at hy
        | none =>
          simp only [hrf,Option.map_eq_some_iff,GraphObj.promise.injEq,exists_eq_right] at hy
          exact ha (h.awaits.pending a hmem p hrf hy).2
  constructor
  · exact (resolvePromise_spec hext.wellFormed hg).2.1
  · exact h.listed.samePlaces hplaces
  · exact h.awaits.kept hvalid.nodup hi hk.actionTrace hk.promises hk.readers
      (fun a ha => by simp [hkept a ha]) hother
  · intro l hl
    rw [hplaces.onlyAtomic] at hl
    rcases h.coherent l hl with hd | hc
    · left
      rcases hd with hd | hd
      · rcases hcyclic (hext.cyclic hd) with hc | hok
        · exact .inl hc
        · exact .inr (.inr (.inr (.inr (.inr (.inl (by simp [hok]))))))
      · have hflag := hk.flagged hd
        simp only [Doomed,Flagged,Bool.or_eq_true] at hflag ⊢
        tauto
    · rcases hreach with hcyc | hok | hreach
      · exact .inl (.inl hcyc)
      · exact .inl (.inr (.inr (.inr (.inr (.inr (.inl (by simp [hok])))))))
      · refine .inr fun t => ?_
        rw [hplaces.objThrd]
        refine (hc t).imp_of_mem fun {w a} _ hmem hwa hfresh hw y hy => ?_
        obtain ⟨y',hy',hmerged⟩ := hseen a (h.listed.mem l t a hmem).1 y hy
        have hpath := hreach _ _ (hext.reach (hwa hfresh ((hwrite w).symm.trans hw) y' hy'))
        rw [hmerged] at hpath
        simpa [OrderGraph.merged] using hpath

theorem keepPromise_ordered {index : Option ℕ} {b : Bool} {items : List WorkItem}
    (hkeep : e.keepPromise curr index = .ok (e',b,items)) (hvalid : e.PromisesValid)
    (h : e.Ordered none) : e'.Ordered none := by
  cases index with
  | none =>
    obtain rfl : e = e' := congrArg Prod.fst (Except.ok.inj hkeep)
    exact h
  | some i =>
    cases hp : e.promises[i]? with
    | none =>
      simp only [keepPromise,hp] at hkeep
      obtain rfl : e = e' := congrArg Prod.fst (Except.ok.inj hkeep)
      exact h
    | some p =>
      simp only [keepPromise,hp] at hkeep
      obtain ⟨⟨e₁,_⟩,h₁,hkeep⟩ := bind_eq_ok.mp hkeep
      obtain rfl : e₁ = e' := congrArg Prod.fst (Except.ok.inj hkeep)
      exact resolvePromise_ordered h₁ hp hvalid h

/-- A write, after its thread's earlier ones: the second part of an RMW has its place already. -/
theorem processWrite_ordered {node : Choices} {b : Bool} {items : List WorkItem}
    (hwrite : e.processWrite curr node = .ok (e',b,items)) (hvalid : e.PromisesValid)
    (h : e.Ordered none ∨ e.Ordered (some curr) ∧ e.Pending curr ∧
      (e.acts curr).isWrite = true ∧ (e.acts curr).isRmw = false) : e'.Ordered none := by
  obtain ⟨⟨e₁,_⟩,h₁,hwrite⟩ := bind_eq_ok.mp hwrite
  obtain ⟨⟨e₂,_,_⟩,h₂,hwrite⟩ := bind_eq_ok.mp hwrite
  obtain ⟨e₃,h₃,hwrite⟩ := bind_eq_ok.mp hwrite
  obtain rfl : e₃ = e' := congrArg Prod.fst (Except.ok.inj hwrite)
  have hedges : KeepsOrder e e₁ := OrderSteps.keepsOrder (wModificationOrder_order h₁)
  have hsteps : MemSteps curr e e₁ := wModificationOrder_steps h₁
  have hfirst : e₁.Ordered none := by
    rcases h with h | ⟨h,hp,hw,hrmw⟩
    · exact h.keepsOrder hedges
    · refine (h.keepsOrder hedges).settle hedges.samePlaces hedges.isWrite
        (hedges.doomed h.wellFormed) (by simp [ModelAction.isAtomicVar,ModelAction.couldBeWrite,hw])
        fun hl => ?_
      refine (wModificationOrder_own h₁ h hp hl hrmw).imp id fun hown w hmem hne hw' y hy => ?_
      rw [seen_of_write ((hedges.isWrite curr).trans hw)] at hy
      obtain rfl := Option.some.inj hy
      exact hown w hmem hne hw'
  exact (keepPromise_ordered h₂ (hvalid.memSteps hsteps) hfirst).keepsOrder
    (OrderSteps.keepsOrder (commitChanges_order.trans (moCheckPromises_order h₃)))

end Execution
end CdsChecker
