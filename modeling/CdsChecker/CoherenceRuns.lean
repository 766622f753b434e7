import CdsChecker.CoherenceSteps

/-! Coherence of the modification order in every reachable configuration. -/
namespace CdsChecker
namespace Execution

open Relation

variable {e e' : Execution} {curr : ActionId}

/-! ### The work queue -/

theorem isWrite_of_isRead {a : ModelAction} (h : a.isRead = true) (hrmw : a.isRmw = false) :
    a.isWrite = false := by
  simp only [ModelAction.isRead,ModelAction.isRmw,Bool.or_eq_true,beq_iff_eq,
    beq_eq_false_iff_ne] at h hrmw
  rcases h with (htype | htype) | htype
  · simp [ModelAction.isWrite,htype]
  · simp [ModelAction.isWrite,htype]
  · exact absurd htype hrmw

/-- The current action before it is processed; the source of a read is a promise that is pending. -/
structure Bare (e : Execution) (curr : ActionId) (node : Choices) : Prop extends
    e.Pending curr where
  unread : Unread (e.acts curr)
  isRmw : (e.acts curr).isRmw = false
  source : (e.acts curr).isRead = true → ∀ p, node.readFrom = .promise p → p ∈ e.promises

theorem Bare.keepsOrder {node : Choices} (h : e.Bare curr node) (hk : KeepsOrder e e') :
    e'.Bare curr node where
  toPending := hk.currPending h.toPending
  unread := by
    rw [Unread,hk.readsFrom,hk.readsFromPromise]
    exact h.unread
  isRmw := by simpa only [ModelAction.isRmw,(hk.keeps curr).type] using h.isRmw
  source hread := by
    rw [hk.promises]
    refine h.source ?_
    simpa only [ModelAction.isRead,(hk.keeps curr).type] using hread

theorem checkCurrAction_ordered {secondPartOfRmw : Bool} {node : Choices} {items : List WorkItem}
    (hv : e.Valid) (hvalid : e.PromisesValid)
    (hcheck : e.checkCurrAction curr secondPartOfRmw node = .ok (e',items))
    (h : secondPartOfRmw = true ∧ e.Ordered none ∨
      secondPartOfRmw = false ∧ e.Ordered (some curr) ∧ e.Bare curr node) : e'.Ordered none := by
  obtain ⟨⟨e₁,_⟩,h₁,hcheck⟩ := bind_eq_ok.mp hcheck
  obtain ⟨⟨e₂,_⟩,h₂,hcheck⟩ := ite_bind_eq_ok.mp hcheck
  obtain ⟨⟨e₃,_,_⟩,h₃,hcheck⟩ := ite_bind_eq_ok.mp hcheck
  obtain ⟨⟨e₄,_⟩,h₄,hcheck⟩ := ite_bind_eq_ok.mp hcheck
  obtain ⟨⟨e₅,_⟩,h₅,hcheck⟩ := ite_bind_eq_ok.mp hcheck
  obtain ⟨⟨e₆,_⟩,h₆,hcheck⟩ := ite_bind_eq_ok.mp hcheck
  obtain rfl : e₆ = e' := congrArg Prod.fst (Except.ok.inj hcheck)
  have hthread : KeepsOrder e e₁ := (processThreadAction_threadSteps hv h₁).keepsOrder
  have hvalid₁ : e₁.PromisesValid := hvalid.currSteps (processThreadAction_steps hv h₁)
  -- the read and the write
  have hwritten : e₃.Ordered none := by
    rcases h with ⟨rfl,h⟩ | ⟨rfl,h,hbare⟩
    · rw [if_neg (by simp)] at h₂
      obtain rfl : e₁ = e₂ := congrArg Prod.fst (Except.ok.inj h₂)
      have hordered := h.keepsOrder hthread
      split at h₃
      · exact processWrite_ordered h₃ hvalid₁ (.inl hordered)
      · obtain rfl : e₁ = e₃ := congrArg Prod.fst (Except.ok.inj h₃)
        exact hordered
    · have hordered := h.keepsOrder hthread
      have hbare := hbare.keepsOrder hthread
      cases hread : (e₁.acts curr).isRead with
      | true =>
        rw [if_pos (by simp [hread])] at h₂
        have hbareRead : e₁.BareRead curr :=
          ⟨hbare.toPending,hread,isWrite_of_isRead hread hbare.isRmw,hbare.unread⟩
        have hdone := processRead_ordered h₂ hvalid₁ (hbare.source hread) hordered hbareRead
        split at h₃
        · exact processWrite_ordered h₃ (hvalid₁.memSteps (processRead_steps h₂)) (.inl hdone)
        · obtain rfl : e₂ = e₃ := congrArg Prod.fst (Except.ok.inj h₃)
          exact hdone
      | false =>
        rw [if_neg (by simp [hread])] at h₂
        obtain rfl : e₁ = e₂ := congrArg Prod.fst (Except.ok.inj h₂)
        cases hwrite : (e₁.acts curr).isWrite with
        | true =>
          rw [if_pos hwrite] at h₃
          exact processWrite_ordered h₃ hvalid₁
            (.inr ⟨hordered,hbare.toPending,hwrite,hbare.isRmw⟩)
        | false =>
          rw [if_neg (by simp [hwrite])] at h₃
          obtain rfl : e₁ = e₃ := congrArg Prod.fst (Except.ok.inj h₃)
          exact hordered.settle_unseen (by simp [seen,hwrite,hbare.unread.1,hbare.unread.2])
  have hfence : KeepsOrder e₃ e₄ := by
    split at h₄
    · exact OrderSteps.keepsOrder (processFence_order h₄)
    · obtain rfl : e₃ = e₄ := congrArg Prod.fst (Except.ok.inj h₄)
      exact .refl _
  have hmutex : KeepsOrder e₄ e₅ := by
    split at h₅
    · exact (processMutex_threadSteps h₅).keepsOrder
    · obtain rfl : e₄ = e₅ := congrArg Prod.fst (Except.ok.inj h₅)
      exact .refl _
  have hfixup : KeepsOrder e₅ e₆ := by
    split at h₆
    · exact OrderSteps.keepsOrder (processRelseqFixup_order h₆)
    · obtain rfl : e₅ = e₆ := congrArg Prod.fst (Except.ok.inj h₆)
      exact .refl _
  exact ((hwritten.keepsOrder hfence).keepsOrder hmutex).keepsOrder hfixup

/-! ### The start of a step -/

/-- The second part of an RMW comes behind what its first part has read. -/
theorem Listed.pairwise_ne_last {l : Location} {t : ThreadId} {last : ActionId} (h : e.Listed)
    (hlast : e.Pending last) (hl : e.OnlyAtomic l) :
    (e.objThrd l t).Pairwise fun w _ => w ≠ last := by
  by_cases hmem : last ∈ e.objThrd l t
  · obtain ⟨hmem',-,-,hon⟩ := h.mem l t last hmem
    obtain ⟨rfl,rfl⟩ := h.place hmem (hl last hmem' hon)
    obtain ⟨pre,hlist,hnot⟩ := h.last_split hlast.mem hlast.user hlast.last hl
    have hpre : ∀ w ∈ pre, w ≠ last := fun w hw heq => hnot (heq ▸ hw)
    rw [hlist]
    refine List.pairwise_append.mpr ⟨?_,List.pairwise_singleton _ _,fun w hw _ _ => hpre w hw⟩
    exact List.pairwise_of_forall_mem_list fun w hw _ _ => hpre w hw
  · exact List.pairwise_of_forall_mem_list fun w hw _ _ heq => hmem (heq ▸ hw)

theorem processRmw_isWrite {a act : ModelAction} (hact : (act.isRmwc || act.isRmw) = true) :
    (a.processRmw act).isWrite = act.isRmw ∧ (a.processRmw act).readsFrom = a.readsFrom ∧
      (a.processRmw act).readsFromPromise = a.readsFromPromise := by
  unfold ModelAction.processRmw
  cases hc : act.isRmwc with
  | true =>
    have hr : act.isRmw = false := by
      rw [ModelAction.isRmw,beq_iff_eq.mp hc]
      rfl
    simp [ModelAction.isWrite,hr]
  | false =>
    have hr : act.isRmw = true := by simpa [hc] using hact
    simp [ModelAction.isWrite,hr]

/-- The second part of an RMW: its write has the place behind what was read. -/
theorem Ordered.secondPart {act : ModelAction} {last : ActionId} (h : e.Ordered none)
    (hlast : e.Pending last) (hact : (act.isRmwc || act.isRmw) = true)
    (hread : (e.acts last).isRmwr = true) (hrmw : e.processRmw act = .ok (e',last))
    (htid : (e.acts last).tid = act.tid) : e'.Ordered none := by
  have hgoes : e.getLastAction act.tid = some last := htid ▸ hlast.last
  simp only [processRmw,hgoes] at hrmw
  set e₁ := e.modifyAct last fun a => a.processRmw act with he₁
  have hself : e₁.acts last = (e.acts last).processRmw act := by simp [he₁,modifyAct]
  have hother : ∀ a, a ≠ last → e₁.acts a = e.acts a := fun a ha => by simp [he₁,modifyAct,ha]
  have hnot : (e.acts last).isWrite = false := by
    simp [ModelAction.isWrite,beq_iff_eq.mp hread]
  obtain ⟨hwrite,hrf,hp⟩ := processRmw_isWrite (a := e.acts last) hact
  have hplaces : SamePlaces e e₁ := by
    refine ⟨rfl,rfl,rfl,rfl,fun a => ?_,fun a => ?_⟩
    · by_cases ha : a = last
      · rw [ha,hself]
        exact .processRmw hact hread
      · rw [hother a ha]
        exact .refl _
    · by_cases ha : a = last
      · rw [ha,hself,(processRmw_similar hact hread).2.2.2.2.1]
        exact .refl _
      · rw [hother a ha]
        exact .refl _
  have hreads : ∀ a, (e₁.acts a).readsFrom = (e.acts a).readsFrom ∧
      (e₁.acts a).readsFromPromise = (e.acts a).readsFromPromise := fun a => by
    by_cases ha : a = last
    · rw [ha,hself]
      exact ⟨hrf,hp⟩
    · rw [hother a ha]
      exact ⟨rfl,rfl⟩
  have hawaits : e₁.Awaits := by
    refine ⟨fun a hmem p => ?_,fun p hmem a ha => ?_⟩
    · rw [(hreads a).1,(hreads a).2]
      exact h.awaits.pending a hmem p
    · rw [(hreads a).1,(hreads a).2]
      exact h.awaits.reader p hmem a ha
  -- what comes before the first part comes before the second
  have hcoherent : ∀ g : CycleGraph, e.moGraph.Extends g →
      (∀ y, e₁.seen last = some y → ∃ x, e.seen last = some x ∧
        ReflTransGen g.order.edge x y) → ({ e₁ with moGraph := g } : Execution).Ordered none := by
    intro g hg hedge
    refine ⟨hg.wellFormed,h.listed.samePlaces { hplaces with },{ hawaits with },fun l hl => ?_⟩
    have hl' : e.OnlyAtomic l := hplaces.onlyAtomic.mp hl
    refine (h.coherent l hl').imp (fun hd => hd.imp hg.cyclic id) fun hc t => ?_
    change (e.objThrd l t).Pairwise _
    refine ((hc t).and (h.listed.pairwise_ne_last hlast hl')).imp fun {w a} hwa _ hw y hy => ?_
    have hw' : (e.acts w).isWrite = true := hother w hwa.2 ▸ hw
    have hy' : e₁.seen a = some y := hy
    by_cases ha : a = last
    · subst ha
      obtain ⟨x,hx,hxy⟩ := hedge y hy'
      exact (hg.reach (hwa.1 (by simp) hw' x hx)).trans hxy
    · have hsame : e₁.seen a = e.seen a := by
        unfold seen
        rw [hother a ha]
      exact hg.reach (hwa.1 (by simp) hw' y (hsame ▸ hy'))
  have hsome : ∀ rf, (e₁.acts last).readsFrom = some rf → e.seen last = some (.action rf) := by
    intro rf hfrom
    refine Eq.trans (if_neg (by simp [hnot])) ?_
    rw [← (hreads last).1,hfrom]
  have hnone : (e₁.acts last).readsFrom = none →
      e.seen last = (e₁.acts last).readsFromPromise.map .promise := by
    intro hfrom
    refine Eq.trans (if_neg (by simp [hnot])) ?_
    rw [← (hreads last).1,hfrom,(hreads last).2]
  have hwrite' : (e₁.acts last).isWrite = act.isRmw := by rw [hself,hwrite]
  by_cases hplain : act.isRmw = true
  · rw [if_neg (by simp [hplain])] at hrmw
    split at hrmw
    · cases hrmw
    · rename_i source hsource
      obtain ⟨g,hg,hrmw⟩ := bind_eq_ok.mp hrmw
      obtain rfl : _ = e' := congrArg Prod.fst (Except.ok.inj hrmw)
      refine Ordered.keepsOrder ?_ (OrderSteps.keepsOrder commitChanges_order)
      refine hcoherent g (CycleGraph.addRMWEdge_extends h.wellFormed hg) fun y hy => ?_
      rw [seen_of_write (hwrite'.trans hplain)] at hy
      obtain rfl := Option.some.inj hy
      refine ⟨source,?_,.single ?_⟩
      · cases hfrom : (e₁.acts last).readsFrom with
        | some rf =>
          rw [hfrom] at hsource
          exact (hsome rf hfrom).trans hsource
        | none =>
          rw [hfrom] at hsource
          exact (hnone hfrom).trans hsource
      · exact (CycleGraph.addRMWEdge_spec h.wellFormed hg).1.order.edge_new
  · rw [if_pos (by simp [hplain])] at hrmw
    obtain rfl : e₁ = e' := congrArg Prod.fst (Except.ok.inj hrmw)
    refine hcoherent e.moGraph (.refl h.wellFormed) fun y hy => ⟨y,?_,.refl⟩
    have hsame : e₁.seen last = e.seen last := by
      unfold seen
      rw [if_neg (by simp [hwrite',hplain]),if_neg (by simp [hnot]),(hreads last).1,(hreads last).2]
    exact hsame.symm.trans hy

/-- A new action enters the lists, and is not processed yet. -/
theorem Ordered.enter {params : ExecutionParams} {act : ModelAction} (h : e.Ordered none)
    (hr : e.Recorded) (huser : act.tid ≠ 0) (hthread : act.tid < e.threads.length)
    (hunread : Unread act) (hadd : (e.newAction act).1.addActionToLists params e.numActs = .ok e') :
    e'.Ordered (some e.numActs) ∧ e'.Pending e.numActs ∧ Unread (e'.acts e.numActs) ∧
      (e'.acts e.numActs).type = act.type ∧ e'.asserted = e.asserted := by
  set e₀ := (e.newAction act).1 with he₀
  have hnew := newAction_act e act
  rw [← he₀] at hnew
  have htid : (e₀.acts e.numActs).tid = act.tid := by rw [hnew]
  have hadded := addActionToLists_added hadd (by rw [htid]; exact hthread)
  have hentered := addActionToLists_entered hadd (by rw [htid]; exact hthread) (Nat.lt_succ_self _)
  have hact : e'.acts e.numActs = e₀.acts e.numActs := hadded.acts _ (Nat.lt_succ_self _)
  have hlisted := h.listed.enter hr huser hadded hentered
  have hkeep : ∀ a ∈ e.actionTrace, e'.acts a = e.acts a := fun a ha => by
    have hlt := (hr.old a ha).1
    rw [hadded.acts a (Nat.lt_succ_of_lt hlt),newAction_acts e act (Nat.ne_of_lt hlt)]
  have hmem : ∀ a, a ∈ e'.actionTrace ↔ (e₀.isFirst e.numActs = true ∧ a = e₀.numActs) ∨
      a ∈ e.actionTrace ∨ a = e.numActs := fun a => by
    have hsame : e₀.actionTrace = e.actionTrace := rfl
    rw [hentered.actionTrace,hsame]
    by_cases hfirst : e₀.isFirst e.numActs = true <;> simp [hfirst]
  have hnone : Unread (e'.acts e.numActs) := by
    rw [Unread,hact,hnew]
    exact hunread
  have hawaits : e'.Awaits := by
    constructor
    · intro a ha p hrf hp
      rw [hadded.promises,hadded.proms]
      rcases (hmem a).mp ha with ⟨hfirst,rfl⟩ | ha | rfl
      · cases (hentered.unread hfirst).2.symm.trans hp
      · rw [hkeep a ha] at hrf hp
        exact h.awaits.pending a ha p hrf hp
      · cases hnone.2.symm.trans hp
    · intro p hp a ha
      rw [hadded.promises] at hp
      rw [hadded.proms] at ha
      have hreader := h.awaits.reader p hp a ha
      rw [hkeep a hreader.1]
      exact ⟨(hmem a).mpr (.inr (.inl hreader.1)),hreader.2⟩
  have hgraph : e'.moGraph = e.moGraph := hentered.moGraph
  refine ⟨⟨hgraph ▸ h.wellFormed,hlisted,hawaits,fun l hl => ?_⟩,⟨?_,?_,?_⟩,hnone,?_,
    hentered.asserted⟩
  · have hl' : e.OnlyAtomic l := fun a ha hon => by
      have hatomic := hl a ((hmem a).mpr (.inr (.inl ha)))
      rw [hkeep a ha] at hatomic
      exact hatomic hon
    refine (h.coherent l hl').imp (fun hd => ?_) fun hc t => ?_
    · rw [Doomed,hgraph]
      exact hd.imp id hentered.flagged.mpr
    · have hold : e₀.objThrd l t = e.objThrd l t := rfl
      have hlast : ∀ a ∈ e₀.ownLocation e.numActs l ++ e₀.waitLocation e.numActs l,
          a = e.numActs := fun a ha => by
        simp only [ownLocation,waitLocation,List.mem_append] at ha
        rcases ha with ha | ha
        · split at ha
          · exact List.mem_singleton.mp ha
          · cases ha
        · split at ha
          · exact List.mem_singleton.mp ha
          · cases ha
      have hfresh : ∀ {a : ActionId}, a ∈ (if t = (e₀.acts e.numActs).tid then
          e₀.ownLocation e.numActs l ++ e₀.waitLocation e.numActs l else []) → a = e.numActs := by
        intro a ha
        split at ha
        · exact hlast a ha
        · cases ha
      rw [hentered.objThrd,hold]
      refine List.pairwise_append.mpr ⟨List.pairwise_append.mpr ⟨?_,?_,?_⟩,?_,?_⟩
      · split
        · exact List.pairwise_singleton _ _
        · exact List.Pairwise.nil
      · refine (hc t).imp_of_mem fun {w a} hw ha hwa _ hwrite y hy => ?_
        have hwmem := (h.listed.mem l t w hw).1
        have hamem := (h.listed.mem l t a ha).1
        rw [hkeep w hwmem] at hwrite
        have hsame : e'.seen a = e.seen a := by
          unfold seen
          rw [hkeep a hamem]
        rw [hgraph]
        exact hwa (by simp) hwrite y (hsame ▸ hy)
      · intro u hu a ha
        -- an uninitialized action comes to empty lists only
        split at hu
        · rename_i hfirst
          have hempty : e.objMap l = [] := by
            have hisFirst := hfirst.1.1
            rw [isFirst,Bool.and_eq_true,List.isEmpty_iff,hfirst.1.2] at hisFirst
            exact hisFirst.1
          have hobj := (h.listed.mem l t a ha).2.1
          rw [hempty] at hobj
          cases hobj
        · cases hu
      · exact List.pairwise_of_forall_mem_list fun _ _ a ha hne =>
          absurd (congrArg some (hfresh ha)) hne
      · exact fun _ _ a ha hne => absurd (congrArg some (hfresh ha)) hne
  · exact (hmem _).mpr (.inr (.inr rfl))
  · rw [hact,htid]
    exact huser
  · rw [hact,htid,hentered.lastAction _ huser,htid,if_pos rfl]
  · rw [hact,hnew]

theorem promiseReads_subset {act : ActionId} {ps ps' : List PromiseId}
    (h : promiseReads act ps e = .ok (e',ps')) : ∀ p ∈ ps', p ∈ ps := by
  induction ps generalizing e ps' with
  | nil =>
    obtain ⟨_,rfl⟩ : e = e' ∧ _ := by simpa [promiseReads] using h
    simp
  | cons p ps ih =>
    obtain ⟨⟨e₁,feasible⟩,h₁,h⟩ := ite_bind_eq_ok.mp h
    obtain ⟨⟨e₂,more⟩,h₂,h⟩ := bind_eq_ok.mp h
    obtain ⟨rfl,rfl⟩ : e₂ = e' ∧ _ := by simpa using h
    intro q hq
    cases feasible with
    | true =>
      rcases List.mem_cons.mp hq with rfl | hq
      · exact List.mem_cons_self
      · exact List.mem_cons_of_mem _ (ih h₂ q hq)
    | false => exact List.mem_cons_of_mem _ (ih h₂ q hq)

theorem checkRead_keepsOrder {newlyExplored : Bool} {source : ReadSource}
    (h : e.checkRead curr newlyExplored source = some e') :
    KeepsOrder e e' ∧ ∀ p, source = .promise p → p ∈ e.promises := by
  obtain ⟨⟨built,past,promises⟩,hbuilt,h⟩ := Option.bind_eq_some_iff.mp h
  obtain ⟨_,hsource,h⟩ := Option.bind_eq_some_iff.mp h
  obtain rfl : _ = e' := Option.some.inj h
  have hbuilt := toOption_eq_some.mp hbuilt
  refine ⟨?_,fun p hp => ?_⟩
  · split
    · exact OrderSteps.keepsOrder (buildMayReadFrom_order hbuilt)
    · exact .refl e
  · have hmem : p ∈ promises := by
      have hguard := guard_eq_some.mp hsource
      rw [hp] at hguard
      exact List.contains_iff_mem.mp hguard
    obtain ⟨_,_,hbuilt⟩ := bind_eq_ok.mp hbuilt
    obtain ⟨⟨e₁,_⟩,h₁,hbuilt⟩ := bind_eq_ok.mp hbuilt
    obtain ⟨⟨e₂,ps⟩,h₂,hbuilt⟩ := bind_eq_ok.mp hbuilt
    have hps : ps = promises := by
      dsimp only at hbuilt
      split at hbuilt
      · exact (Prod.mk.inj (Prod.mk.inj (Except.ok.inj hbuilt)).2).2
      · exact (Prod.mk.inj (Prod.mk.inj (Except.ok.inj hbuilt)).2).2
    rw [← (OrderSteps.keepsOrder (pastReadsThreads_order h₁)).promises]
    exact promiseReads_subset h₂ p (hps ▸ hmem)

theorem beginAction_ordered {params : ExecutionParams} {act : ModelAction} {newlyExplored : Bool}
    {node : Choices} (hbegin : e.beginAction params act newlyExplored node = some (e',curr))
    (h : e.Ordered none) (hv : e.Valid) (hr : e.Recorded) (huser : act.tid ≠ 0)
    (hthread : act.tid < e.threads.length) (hunread : Unread act)
    (hrmwr : (act.isRmwc || act.isRmw) = true → ∀ a, e.getLastAction act.tid = some a →
      (e.acts a).isRmwr = true) :
    (act.isRmwc || act.isRmw) = true ∧ e'.Ordered none ∨
      (act.isRmwc || act.isRmw) = false ∧ e'.Ordered (some curr) ∧ e'.Bare curr node := by
  obtain ⟨⟨e₁,curr₁⟩,hinit,hbegin⟩ := Option.bind_eq_some_iff.mp hbegin
  have hinit := toOption_eq_some.mp hinit
  obtain ⟨_,_,hbegin⟩ := Option.bind_eq_some_iff.mp hbegin
  unfold initializeCurrAction at hinit
  by_cases hsecond : (act.isRmwc || act.isRmw) = true
  · rw [if_pos hsecond] at hinit
    rw [if_pos hsecond] at hbegin
    obtain ⟨rfl,rfl⟩ : e₁ = e' ∧ curr₁ = curr := by simpa using hbegin
    obtain ⟨hlast,-⟩ := processRmw_steps hinit
    have htid := (hv.last _ _ huser hlast).2.1
    refine .inl ⟨hsecond,h.secondPart ⟨hr.last _ _ huser hlast,htid ▸ huser,htid ▸ hlast⟩ hsecond
      (hrmwr hsecond _ hlast) hinit htid⟩
  · rw [if_neg hsecond] at hinit
    rw [if_neg hsecond] at hbegin
    obtain ⟨rfl,rfl⟩ : (e.newAction act).1 = e₁ ∧ e.numActs = curr₁ := by
      simpa [newAction] using hinit
    obtain ⟨_,_,hbegin⟩ := Option.bind_eq_some_iff.mp hbegin
    obtain ⟨e₂,hadd,hbegin⟩ := Option.bind_eq_some_iff.mp hbegin
    obtain ⟨hordered,hpending,hunread',htype,-⟩ :=
      h.enter hr huser hthread hunread (toOption_eq_some.mp hadd)
    have hrmw : (e₂.acts e.numActs).isRmw = false := by
      rw [ModelAction.isRmw,htype]
      simp only [Bool.or_eq_true,not_or,Bool.not_eq_true] at hsecond
      exact hsecond.2
    refine .inr ⟨Bool.not_eq_true _ ▸ hsecond,?_⟩
    split at hbegin
    · obtain ⟨e₃,hread,hbegin⟩ := Option.bind_eq_some_iff.mp hbegin
      obtain ⟨rfl,rfl⟩ : e₃ = e' ∧ e.numActs = curr := by simpa using hbegin
      obtain ⟨hkeeps,hsource⟩ := checkRead_keepsOrder hread
      have hbare : e₂.Bare e.numActs node := ⟨hpending,hunread',hrmw,fun _ => hsource⟩
      exact ⟨hordered.keepsOrder hkeeps,hbare.keepsOrder hkeeps⟩
    · rename_i hread
      obtain ⟨rfl,rfl⟩ : e₂ = e' ∧ e.numActs = curr := by simpa using hbegin
      exact ⟨hordered,hpending,hunread',hrmw,fun hread' => absurd hread' hread⟩

theorem ordered_init : Execution.init.Ordered none where
  wellFormed := .empty
  listed := by
    have hempty : ∀ l t, Execution.init.objThrd l t = [] := fun _ _ => rfl
    refine ⟨fun l t a ha => ?_,fun l t => ?_,?_,fun t last _ hlast => ?_,?_,?_,List.Pairwise.nil⟩
    · rw [hempty] at ha
      cases ha
    · rw [hempty]
      exact List.Pairwise.nil
    · simp [Execution.init]
    · simp [Execution.init,getLastAction] at hlast
    · simp [Execution.init]
    · simp [Execution.init]
  awaits := ⟨by simp [Execution.init],by simp [Execution.init]⟩
  coherent _ _ := .inr fun _ => List.Pairwise.nil

end Execution
namespace Config

open Execution

/-- The current action that is not processed yet, unless it is the second part of an RMW. -/
def fresh (c : Config) : Option ActionId :=
  match c.phase with
  | .work curr false _ queue => if .checkCurrAction ∈ queue then some curr else none
  | _ => none

structure Ordered (c : Config) : Prop where
  exec : c.exec.Ordered c.fresh
  unread : ∀ t act, c.exec.pendingOf t = some act → Unread act
  schedule : c.phase = .schedule → c.exec.asserted = false
  curr : ∀ curr node queue, c.phase = .work curr false node queue →
    WorkItem.checkCurrAction ∈ queue → c.exec.Bare curr node

variable {params : ExecutionParams} {c c' : Config}

theorem ordered_init : init.Ordered where
  exec := Execution.ordered_init
  unread t act h := by
    match t,h with
    | 0,h => cases h
    | 1,h => cases h
  schedule h := by cases h
  curr _ _ _ h := by cases h

/-- A step outside of the work queue. -/
theorem Ordered.of_exec {e : Execution} {phase : Phase} {next : Option ThreadId}
    (he : e.Ordered none) (hunread : ∀ t act, e.pendingOf t = some act → Unread act)
    (hphase : ∀ curr secondPartOfRmw node queue, phase ≠ .work curr secondPartOfRmw node queue)
    (hschedule : phase = .schedule → e.asserted = false) : (⟨e,phase,next⟩ : Config).Ordered where
  exec := by
    have hfresh : (⟨e,phase,next⟩ : Config).fresh = none := by
      cases phase with
      | work curr secondPartOfRmw node queue => exact absurd rfl (hphase _ _ _ _)
      | _ => rfl
    rw [hfresh]
    exact he
  unread := hunread
  schedule := hschedule
  curr curr node queue h := absurd h (hphase curr false node queue)

theorem fresh_of_phase (hphase : ∀ curr secondPartOfRmw node queue,
    c.phase ≠ .work curr secondPartOfRmw node queue) : c.fresh = none := by
  obtain ⟨e,phase,next⟩ := c
  cases phase with
  | work curr secondPartOfRmw node queue => exact absurd rfl (hphase _ _ _ _)
  | _ => rfl

theorem finishStep_sameMemory (params : ExecutionParams) (e : Execution) (curr : ActionId) :
    SameMemory e (finishStep params e curr).exec := by
  have hremove : SameMemory e (e.removeStopped (e.acts curr).tid) := by
    unfold removeStopped
    split
    · exact e.setEnabled_sameMemory _ false
    · exact .refl e
  have hassert : ∀ e : Execution, SameMemory e e.setAssert := fun e =>
    { SameMemory.refl e with flagged := fun _ => .inr (.inr (.inr (.inr (.inr rfl)))) }
  unfold finishStep
  dsimp only
  split
  · exact hremove
  · split
    · exact hremove.trans (hassert _)
    · split <;> exact hremove

theorem mem_of_work {curr : ActionId} {secondPartOfRmw : Bool} {node : Choices}
    {queue : List WorkItem} (hphase : c.phase = .work curr secondPartOfRmw node queue)
    (hqueue : WorkItem.checkCurrAction ∈ queue) :
    c.fresh = if secondPartOfRmw then none else some curr := by
  cases secondPartOfRmw <;> simp [fresh,hphase,hqueue]

theorem not_mem_of_work {curr : ActionId} {secondPartOfRmw : Bool} {node : Choices}
    {queue : List WorkItem} (hphase : c.phase = .work curr secondPartOfRmw node queue)
    (hqueue : WorkItem.checkCurrAction ∉ queue) : c.fresh = none := by
  cases secondPartOfRmw <;> simp [fresh,hphase,hqueue]

theorem Change.ordered_work {curr : ActionId} {secondPartOfRmw : Bool} {node : Choices}
    {item : WorkItem} {queue items : List WorkItem} {e : Execution} (hv : c.Valid)
    (hp : c.exec.PromisesValid) (ho : c.Ordered)
    (hphase : c.phase = .work curr secondPartOfRmw node (item :: queue))
    (he : c.exec.processWork curr secondPartOfRmw node item = .ok (e,items)) :
    ({ c with exec := e,phase := .work curr secondPartOfRmw node (queue ++ items) } :
      Config).Ordered := by
  obtain ⟨-,-,hqueue⟩ := hv.curr _ _ _ _ hphase
  have hitems := processWork_items he
  have hrest : WorkItem.checkCurrAction ∉ queue ++ items := by
    rcases hqueue with hqueue | hqueue
    · obtain ⟨-,rfl⟩ := List.cons.inj hqueue
      exact hitems
    · simp only [List.mem_cons,not_or] at hqueue
      simp [hqueue.2,hitems]
  have hpending : ∀ t, e.pendingOf t = c.exec.pendingOf t := fun t => by
    rcases processWork_cases he with ⟨-,heffect⟩ | ⟨-,hsteps⟩
    · exact heffect.pendingOf t
    · exact (MemSteps.frame hsteps).pendingOf t
  have hexec : e.Ordered none := by
    cases item with
    | checkCurrAction =>
      have hmem : WorkItem.checkCurrAction ∈ WorkItem.checkCurrAction :: queue :=
        List.mem_cons_self
      have hordered := ho.exec
      rw [mem_of_work hphase hmem] at hordered
      refine checkCurrAction_ordered hv.exec hp he ?_
      cases hsecond : secondPartOfRmw with
      | true =>
        rw [hsecond] at hordered
        exact .inl ⟨rfl,hordered⟩
      | false =>
        rw [hsecond] at hordered hphase
        exact .inr ⟨rfl,hordered,ho.curr _ _ _ hphase hmem⟩
    | checkReleaseSeq location =>
      have hnone := not_mem_of_work hphase (hqueue.resolve_left (by simp))
      have hordered := ho.exec
      rw [hnone] at hordered
      exact hordered.keepsOrder (OrderSteps.keepsOrder (resolveReleaseSequences_order he))
    | checkMoEdges act =>
      have hnone := not_mem_of_work hphase (hqueue.resolve_left (by simp))
      have hordered := ho.exec
      rw [hnone] at hordered
      exact hordered.keepsOrder (OrderSteps.keepsOrder (checkMoEdges_order he))
  constructor
  · rw [not_mem_of_work rfl hrest]
    exact hexec
  · intro t act hact
    exact ho.unread t act ((hpending t).symm.trans hact)
  · intro h
    cases h
  · intro curr' node' queue' hwork hmem
    cases hwork
    exact absurd hmem hrest

theorem Change.ordered (h : Change params c c') (hv : c.Valid) (hr : c.Recorded)
    (hp : c.exec.PromisesValid) (ho : c.Ordered) : c'.Ordered := by
  have hnone : ∀ {phase}, c.phase = phase → (∀ curr secondPartOfRmw node queue,
      phase ≠ .work curr secondPartOfRmw node queue) → c.exec.Ordered none := fun hphase hwork => by
    have hordered := ho.exec
    rwa [fresh_of_phase (hphase ▸ hwork)] at hordered
  have hsame : ∀ {e : Execution}, SameMemory c.exec e → KeepsOrder c.exec e :=
    fun h => h.keepsOrder
  cases h with
  | constructMutex i address parent hphase hneeds hparent =>
    refine .of_exec ((hnone hphase (by simp)).keepsOrder (hsame ?_)) ho.unread (by simp [hphase])
      (by simp [hphase])
    exact { SameMemory.refl c.exec with flagged := id }
  | reportBug hphase hdone =>
    have hbug := c.exec.assertBug_sameMemory
    refine ⟨?_,fun t act hact => ?_,fun h => absurd h hphase,fun curr node queue hwork hmem => ?_⟩
    · exact ho.exec.keepsOrder hbug.keepsOrder
    · exact ho.unread t act ((c.exec.assertBug_frame.pendingOf t).symm.trans hact)
    · exact absurd hmem (hdone _ _ _ _ hwork)
  | act i type order location value e hphase hneeds htyped hfollows he =>
    obtain ⟨-,rfl⟩ := switchFromMaster_spec he
    refine .of_exec ((hnone hphase (by simp)).keepsOrder (hsame ?_)) (fun t act hact => ?_)
      (by simp) (by simp)
    · exact { SameMemory.refl c.exec with flagged := id }
    · obtain ⟨th',hth',hact⟩ := Option.bind_eq_some_iff.mp hact
      obtain ⟨th,hth,rfl⟩ := getElem?_modify_eq_some.mp hth'
      by_cases hi : i = t
      · simp only [hi,if_true,Option.some.injEq] at hact
        subst hact
        exact ⟨rfl,rfl⟩
      · rw [if_neg hi] at hact
        exact ho.unread t act (Option.bind_eq_some_iff.mpr ⟨th,hth,hact⟩)
  | skip i hphase hneeds hi => exact .of_exec (hnone hphase (by simp)) ho.unread (by simp) (by simp)
  | sleepDisabled i e hphase hneeds hi he =>
    have hsteps : ThreadSteps 0 c.exec e := sleepDisabled_threadSteps he
    refine .of_exec ((hnone hphase (by simp)).keepsOrder hsteps.keepsOrder) (fun t act hact => ?_)
      (fun curr secondPartOfRmw node queue => ?_) (fun h => ?_)
    · exact ho.unread t act (((sleepDisabled_slept he).pending t).symm.trans hact)
    · split <;> simp
    · split at h
      · cases h
      · exact Bool.not_eq_true _ ▸ (by assumption)
  | detect i deadlock hphase hdeadlock =>
    have hbug : SameMemory c.exec (if deadlock then c.exec.assertBug else c.exec) := by
      split
      · exact c.exec.assertBug_sameMemory
      · exact .refl _
    refine .of_exec ((hnone hphase (by simp)).keepsOrder hbug.keepsOrder) (fun t act hact => ?_)
      (by simp) (by simp)
    refine ho.unread t act (Eq.trans ?_ hact)
    split
    · exact (c.exec.assertBug_frame.pendingOf t).symm
    · rfl
  | work curr secondPartOfRmw node item queue items e hphase hasserted he =>
    exact Change.ordered_work hv hp ho hphase he
  | finish curr secondPartOfRmw node queue hphase hdone =>
    have hsteps := finishStep_sameMemory params c.exec curr
    have hexec : c.exec.Ordered none := by
      rcases hdone with rfl | hasserted
      · have hordered := ho.exec
        rwa [not_mem_of_work hphase (by simp)] at hordered
      · exact ho.exec.of_doomed (.inr (.inr (.inr (.inr (.inr (.inr hasserted)))))) none
    have hpending : ∀ t, (finishStep params c.exec curr).exec.pendingOf t = c.exec.pendingOf t :=
      fun t => ((finishStep_frame params c.exec curr).pendingOf t).trans
        ((c.exec.removeStopped_frame (c.exec.acts curr).tid).pendingOf t)
    have hends := finishStep_phase params c.exec curr
    refine .of_exec (hexec.keepsOrder hsteps.keepsOrder) (fun t act hact => ?_) ?_ ?_
    · exact ho.unread t act ((hpending t).symm.trans hact)
    · intro curr' secondPartOfRmw' node' queue' hwork
      rcases hends with h | h <;> cases h.symm.trans hwork
    · intro hschedule
      rcases hends with h | h <;> cases h.symm.trans hschedule
  | takeStep t newlyExplored node e e' act curr hphase hnext hpending hbegin =>
    obtain ⟨th,hth,hact,_,rfl,_⟩ := takePending_spec hpending
    have hvp := hv.exec.pending t th act hth hact
    set taken := c.exec.modifyThread t fun th => { th with pending := none } with htaken
    have hsameTaken : SameMemory c.exec taken := { SameMemory.refl c.exec with flagged := id }
    have hthread : taken.threads[t]? = some { th with pending := none } :=
      getElem?_modify_eq_some.mpr ⟨th,hth,by simp⟩
    have hrecorded : taken.Recorded :=
      hr.exec.setState t _ (fun _ => rfl) fun th' _ => ⟨id,.inl⟩
    have hlt : act.tid < taken.threads.length :=
      hvp.tid ▸ (List.getElem?_eq_some_iff.mp hthread).1
    have hunread : ∀ u act', taken.pendingOf u = some act' → Unread act' := fun u act' hact' => by
      obtain ⟨th',hth',hact'⟩ := Option.bind_eq_some_iff.mp hact'
      obtain ⟨th'',hth'',rfl⟩ := getElem?_modify_eq_some.mp hth'
      by_cases htu : t = u
      · simp [htu] at hact'
      · rw [if_neg htu] at hact'
        exact ho.unread u act' (Option.bind_eq_some_iff.mpr ⟨th'',hth'',hact'⟩)
    have hbegun := beginAction_begun hbegin hlt
    have hkeepsPending : ∀ u, e'.pendingOf u = taken.pendingOf u := fun u => by
      cases hbegun with
      | secondPart _ _ hsteps => exact (MemSteps.frame hsteps).pendingOf u
      | new _ hadded hsteps =>
        refine ((MemSteps.frame hsteps).pendingOf u).trans ?_
        rw [pendingOf,hadded.threads]
        rfl
    have hdone := beginAction_ordered hbegin
      ((hnone hphase (by simp)).keepsOrder hsameTaken.keepsOrder) (hv.exec.take t) hrecorded
      (hvp.tid ▸ hvp.user) hlt (ho.unread t act (Option.bind_eq_some_iff.mpr ⟨th,hth,hact⟩))
      (fun hrmw a ha => hvp.rmwr hrmw a (hvp.tid ▸ ha))
    refine ⟨?_,fun u act' hact' => hunread u act' ((hkeepsPending u).symm.trans hact'),
      (fun h => by cases h),fun curr' node' queue' hwork _ => ?_⟩
    · rw [mem_of_work rfl List.mem_cons_self]
      rcases hdone with ⟨hsecond,hordered⟩ | ⟨hsecond,hordered,-⟩
      · rw [hsecond]
        exact hordered
      · rw [hsecond]
        exact hordered
    · simp only [Phase.work.injEq] at hwork
      obtain ⟨rfl,hsecond,rfl,-⟩ := hwork
      rcases hdone with ⟨hsecond',-⟩ | ⟨-,-,hbare⟩
      · cases hsecond'.symm.trans hsecond
      · exact hbare

/-- In every reachable configuration the modification order is coherent. -/
theorem Reachable.ordered (h : Reachable params c) : c.Ordered := by
  have hall : c.Valid ∧ c.Recorded ∧ c.exec.PromisesValid ∧ c.Ordered := by
    refine reachable_induction
      (p := fun c => c.Valid ∧ c.Recorded ∧ c.exec.PromisesValid ∧ c.Ordered) ?_ ?_ h
    · exact ⟨valid_init,recorded_init,⟨List.nodup_nil,by simp [init,Execution.init],fun _ => rfl⟩,
        ordered_init⟩
    · rintro c c' ⟨hv,hr,hp,ho⟩ hchange
      exact ⟨hchange.valid hv,hchange.recorded hv hr,hchange.promisesValid hv hp,
        hchange.ordered hv hr hp ho⟩
  exact hall.2.2.2

end Config
end CdsChecker
