import CdsChecker.CycleGraphExact
import CdsChecker.WriteOrder

/-! The modification order along the runs. -/
namespace CdsChecker
namespace Execution

open Relation OrderGraph CycleGraph

variable {e e' : Execution} {curr : ActionId} {fresh : Option ActionId}

theorem Arranged.same (h : e.Arranged) (hk : KeepsOrder e e') (hwf : e.moGraph.WellFormed)
    (horder : e'.moGraph.order = e.moGraph.order) : e'.Arranged :=
  h.imp (hk.doomed hwf) fun h => h.same hk horder

/-! ### The start of a step -/

/-- A new RMW, that no write was ordered with. -/
theorem WriteOrder.addRmw {y : GraphObj} {last : ActionId} (h : e.WriteOrder)
    (hwf : e.moGraph.WellFormed) (hplace : ∀ x l, e.place x = some l → e'.place x = some l)
    (hnone : e.place (.action last) = none) (hsame : SamePlace e'.place y (.action last))
    (hrmw : ∀ a z, e'.RmwFrom a z ↔ a = last ∧ z = y ∨ e.RmwFrom a z)
    (hg : e.moGraph.addRMWEdge y last = .ok e'.moGraph) : e'.Arranged := by
  cases hc : e'.moGraph.hasCycles with
  | true => exact .inl (.inl hc)
  | false =>
    have hadd := (addRMWEdge_spec hwf hg).1.order
    have hfirst : e.moGraph.order.next y = none := by
      by_contra hne
      obtain ⟨m,hm⟩ := Option.ne_none_iff_exists'.mp hne
      have hflag : e'.moGraph.hasCycles = true := hadd.cyclic_of_next hm
      cases hc.symm.trans hflag
    have hnext : e'.moGraph.order.next =
        Function.update e.moGraph.order.next y (some (.action last)) := by
      rw [hadd.next_eq,attach_next_of_none _ hfirst]
    refine .inr ⟨addRMWEdge_within hwf (h.within.mono hplace) hsame hg,
      addRMWEdge_acyclic hwf h.within hnone (fun _ => h.acyclic) hg hc,fun z a => ?_,
      fun z r hr => ?_,fun z r hr => ?_⟩
    · rw [hrmw,hnext]
      by_cases hz : z = y
      · subst hz
        have hno : ¬ e.RmwFrom a z := fun ha => by cases hfirst.symm.trans ((h.next z a).mpr ha)
        simp [hno,eq_comm]
      · rw [Function.update_of_ne hz,h.next]
        simp [hz]
    · rw [hnext] at hr
      by_cases hz : z = y
      · subst hz
        rw [Function.update_self] at hr
        exact ⟨last,(Option.some.inj hr).symm⟩
      · rw [Function.update_of_ne hz] at hr
        exact h.rmw z r hr
    · rw [hnext] at hr
      by_cases hz : z = y
      · subst hz
        rw [Function.update_self] at hr
        obtain rfl := Option.some.inj hr
        exact .single hadd.edge_new
      · rw [Function.update_of_ne hz] at hr
        exact ReflTransGen.mono (fun _ _ => hadd.edge_mono) _ _ (h.link z r hr)

/-- The second part of an RMW goes right behind what the first has read. -/
theorem WriteOrder.secondPart {act : ModelAction} {last : ActionId} (h : e.WriteOrder)
    (hwf : e.moGraph.WellFormed) (hp : e.Placed) (hgoes : e.getLastAction act.tid = some last)
    (hmem : last ∈ e.actionTrace) (hact : (act.isRmwc || act.isRmw) = true)
    (hread : (e.acts last).isRmwr = true) (hrmw : e.processRmw act = .ok (e',last)) :
    e'.Arranged := by
  simp only [processRmw,hgoes] at hrmw
  set e₁ := e.modifyAct last fun a => a.processRmw act with he₁
  have htype := beq_iff_eq.mp hread
  have hself : e₁.acts last = (e.acts last).processRmw act := by simp [he₁,modifyAct]
  have hother : ∀ a, a ≠ last → e₁.acts a = e.acts a := fun a ha => by simp [he₁,modifyAct,ha]
  have hnone : e.place (.action last) = none := by
    simp [Execution.place,ModelAction.isWrite,htype]
  have hnot : ∀ y, ¬ e.RmwFrom last y := fun y hy => by
    simp [RmwFrom,ModelAction.isRmw,htype] at hy
  have hlocation : ∀ a, (e₁.acts a).location = (e.acts a).location := fun a => by
    by_cases ha : a = last
    · rw [ha,hself]
      exact (processRmw_similar hact hread).2.2.1
    · rw [hother a ha]
  have hsource : ∀ a, e₁.source a = e.source a := fun a => by
    by_cases ha : a = last
    · obtain ⟨-,hrf,hpromise⟩ := processRmw_isWrite (a := e.acts last) hact
      rw [ha]
      simp only [source,hself,hrf,hpromise]
    · simp only [source,hother a ha]
  have hplace : ∀ x l, e.place x = some l → e₁.place x = some l := fun x l hx => by
    cases x with
    | action a =>
      have ha : a ≠ last := fun ha => by
        subst ha
        cases hnone.symm.trans hx
      rw [place_action] at hx ⊢
      rw [hother a ha]
      exact hx
    | promise p =>
      rw [place_promise] at hx ⊢
      simp only [hlocation]
      exact hx
  have hrmwFrom : ∀ a y, a ≠ last → (e₁.RmwFrom a y ↔ e.RmwFrom a y) := fun a y ha => by
    simp only [RmwFrom,hother a ha,hsource]
    rfl
  split at hrmw
  · rename_i hr
    have hr : act.isRmw = false := by simpa using hr
    obtain rfl : e₁ = e' := congrArg Prod.fst (Except.ok.inj hrmw)
    refine .inr (h.of_order rfl hplace fun a y => ?_)
    by_cases ha : a = last
    · subst ha
      refine iff_of_false (fun hy => ?_) (hnot y)
      have hc : act.isRmwc = true := by simpa [hr] using hact
      have hisRmw := hy.2.1
      rw [hself] at hisRmw
      simp [ModelAction.isRmw,ModelAction.processRmw,hc] at hisRmw
    · exact hrmwFrom a y ha
  · rename_i hr
    split at hrmw
    · cases hrmw
    · rename_i y hy
      obtain ⟨g,hg,hrmw⟩ := bind_eq_ok.mp hrmw
      obtain rfl : _ = e' := congrArg Prod.fst (Except.ok.inj hrmw)
      have hr : act.isRmw = true := by simpa using hr
      have hy : e₁.source last = some y := hy
      have hc : act.isRmwc = false := by
        simp only [ModelAction.isRmw,beq_iff_eq] at hr
        simp [ModelAction.isRmwc,hr]
      have hisRmw : (e₁.acts last).type = .atomicRmw := by
        rw [hself]
        simp [ModelAction.processRmw,hc,hr]
      have hself₁ : e₁.RmwFrom last y := ⟨hmem,by simp [ModelAction.isRmw,hisRmw],hy⟩
      have hy₀ := hplace _ _ (hp.sources last hmem y (hsource last ▸ hy)).2
      have hlast : e₁.place (.action last) = some (e.acts last).location :=
        place_action.mpr ⟨⟨hmem,by simp [ModelAction.isWrite,hisRmw]⟩,hlocation last⟩
      have hall : ∀ a z, e₁.RmwFrom a z ↔ a = last ∧ z = y ∨ e.RmwFrom a z := fun a z => by
        by_cases ha : a = last
        · subst ha
          have hz : e₁.RmwFrom a z ↔ z = y := by
            refine ⟨fun hz => Option.some.inj (hz.2.2.symm.trans hy),?_⟩
            rintro rfl
            exact hself₁
          simpa [hnot z] using hz
        · simpa [ha] using hrmwFrom a z ha
      have hdone : ({ e₁ with moGraph := g } : Execution).Arranged :=
        h.addRmw hwf hplace hnone ⟨_,hy₀,hlast⟩ hall hg
      exact hdone.commitChanges

theorem processRmw_doomed {act : ModelAction} {last : ActionId} (h : e.Doomed)
    (hwf : e.moGraph.WellFormed) (hrmw : e.processRmw act = .ok (e',last)) : e'.Doomed := by
  unfold processRmw at hrmw
  split at hrmw
  · cases hrmw
  · dsimp only at hrmw
    split at hrmw
    · obtain rfl := congrArg Prod.fst (Except.ok.inj hrmw)
      exact h
    · split at hrmw
      · cases hrmw
      · obtain ⟨g,hg,hrmw⟩ := bind_eq_ok.mp hrmw
        obtain rfl := congrArg Prod.fst (Except.ok.inj hrmw)
        exact h.imp (addRMWEdge_extends hwf hg).cyclic id

/-- A new action is not ordered yet. -/
theorem WriteOrder.enter (h : e.WriteOrder) (ha : e.Awaits) (hj : Joined e e') : e'.WriteOrder := by
  refine h.of_order (by rw [hj.moGraph]) (fun x l hx => ?_) fun a y => ?_
  · cases x with
    | action a =>
      obtain ⟨⟨hmem,hwrite⟩,rfl⟩ := place_action.mp hx
      obtain ⟨hmem',hact⟩ := hj.keep a hmem
      exact place_action.mpr ⟨⟨hmem',hact ▸ hwrite⟩,hact ▸ rfl⟩
    | promise p =>
      obtain ⟨hp,r,hhead,rfl⟩ := place_promise.mp hx
      have hact := (hj.keep r (ha.reader p hp r (List.mem_of_head? hhead)).1).2
      exact place_promise.mpr ⟨hj.promises ▸ hp,r,hj.proms ▸ hhead,hact ▸ rfl⟩
  · constructor
    · rintro ⟨hmem,hrmw,hs⟩
      rcases hj.mem a hmem with hold | ⟨hunread,-⟩
      · have hact := (hj.keep a hold).2
        rw [hact] at hrmw
        rw [source,hact] at hs
        exact ⟨hold,hrmw,hs⟩
      · cases (source_eq_none.mpr hunread).symm.trans hs
    · rintro ⟨hmem,hrmw,hs⟩
      obtain ⟨hmem',hact⟩ := hj.keep a hmem
      refine ⟨hmem',hact ▸ hrmw,?_⟩
      rw [source,hact]
      exact hs

theorem Mapped.enter (h : e.Mapped) (hj : Joined e e') : e'.Mapped := by
  intro l a ha
  rcases hj.objMap l a ha with ha | ha
  · obtain ⟨hmem,hon⟩ := h l a ha
    obtain ⟨hmem',hact⟩ := hj.keep a hmem
    exact ⟨hmem',hact ▸ hon⟩
  · exact ha

theorem Arranged.enter (h : e.Arranged) (ha : e.Awaits) (hj : Joined e e') : e'.Arranged := by
  refine h.imp (fun hd => ?_) fun h => h.enter ha hj
  rw [Doomed,hj.moGraph]
  exact hd.imp id hj.flagged.mpr

theorem Mapped.secondPart {act : ModelAction} {last : ActionId} (h : e.Mapped)
    (hgoes : e.getLastAction act.tid = some last) (hact : (act.isRmwc || act.isRmw) = true)
    (hread : (e.acts last).isRmwr = true) (hrmw : e.processRmw act = .ok (e',last)) :
    e'.Mapped := by
  simp only [processRmw,hgoes] at hrmw
  set e₁ := e.modifyAct last fun a => a.processRmw act with he₁
  have hmapped : e₁.Mapped := fun l a ha => by
    obtain ⟨hmem,hon⟩ := h l a ha
    refine ⟨hmem,?_⟩
    by_cases hal : a = last
    · subst hal
      have hwait : (e.acts a).isWait = false := by
        simp [ModelAction.isWait,beq_iff_eq.mp hread]
      have hself : e₁.acts a = (e.acts a).processRmw act := by simp [he₁,modifyAct]
      have hlocation : (e₁.acts a).location = (e.acts a).location := by
        rw [hself]
        exact (processRmw_similar hact hread).2.2.1
      rw [onLocation,hlocation,location_of_on hon hwait]
      simp
    · have hother : e₁.acts a = e.acts a := by simp [he₁,modifyAct,hal]
      rw [hother]
      exact hon
  split at hrmw
  · obtain rfl := congrArg Prod.fst (Except.ok.inj hrmw)
    exact hmapped
  · split at hrmw
    · cases hrmw
    · obtain ⟨g,-,hrmw⟩ := bind_eq_ok.mp hrmw
      obtain rfl := congrArg Prod.fst (Except.ok.inj hrmw)
      exact hmapped

theorem checkRead_arranged {newlyExplored : Bool} {source : ReadSource}
    (hread : e.checkRead curr newlyExplored source = some e') (hwf : e.moGraph.WellFormed)
    (h : e.Arranged) : e'.Arranged := by
  have hk := (checkRead_keepsOrder hread).1
  obtain ⟨⟨built,past,promises⟩,hbuilt,hread⟩ := Option.bind_eq_some_iff.mp hread
  obtain ⟨_,_,hread⟩ := Option.bind_eq_some_iff.mp hread
  obtain rfl : _ = e' := Option.some.inj hread
  refine h.same hk hwf ?_
  split
  · exact TrySteps.moGraph_order (buildMayReadFrom_tries (toOption_eq_some.mp hbuilt)) hwf
  · rfl

theorem beginAction_arranged {params : ExecutionParams} {act : ModelAction} {newlyExplored : Bool}
    {node : Choices} (hbegin : e.beginAction params act newlyExplored node = some (e',curr))
    (h : e.Arranged) (hm : e.Mapped) (hs : e.Sourced none) (ho : e.Ordered none) (hr : e.Recorded)
    (huser : act.tid ≠ 0) (hthread : act.tid < e.threads.length) (hunread : Unread act)
    (hrmwr : (act.isRmwc || act.isRmw) = true → ∀ a, e.getLastAction act.tid = some a →
      (e.acts a).isRmwr = true) : e'.Arranged ∧ e'.Mapped := by
  obtain ⟨⟨e₁,curr₁⟩,hinit,hbegin⟩ := Option.bind_eq_some_iff.mp hbegin
  have hinit := toOption_eq_some.mp hinit
  obtain ⟨_,_,hbegin⟩ := Option.bind_eq_some_iff.mp hbegin
  unfold initializeCurrAction at hinit
  by_cases hsecond : (act.isRmwc || act.isRmw) = true
  · rw [if_pos hsecond] at hinit
    rw [if_pos hsecond] at hbegin
    obtain ⟨rfl,rfl⟩ : e₁ = e' ∧ curr₁ = curr := by simpa using hbegin
    obtain ⟨hlast,-⟩ := processRmw_steps hinit
    have hread := hrmwr hsecond _ hlast
    refine ⟨?_,hm.secondPart hlast hsecond hread hinit⟩
    rcases h with hd | h
    · exact .inl (processRmw_doomed hd ho.wellFormed hinit)
    · exact h.secondPart ho.wellFormed (hs.placed ho.awaits) hlast (hr.last _ _ huser hlast)
        hsecond hread hinit
  · rw [if_neg hsecond] at hinit
    rw [if_neg hsecond] at hbegin
    obtain ⟨rfl,rfl⟩ : (e.newAction act).1 = e₁ ∧ e.numActs = curr₁ := by
      simpa [newAction] using hinit
    obtain ⟨_,_,hbegin⟩ := Option.bind_eq_some_iff.mp hbegin
    obtain ⟨e₂,hadd,hbegin⟩ := Option.bind_eq_some_iff.mp hbegin
    have hj := joined hr hthread hunread (toOption_eq_some.mp hadd)
    have hdone := h.enter ho.awaits hj
    split at hbegin
    · obtain ⟨e₃,hread,hbegin⟩ := Option.bind_eq_some_iff.mp hbegin
      obtain ⟨rfl,rfl⟩ : e₃ = e' ∧ e.numActs = curr := by simpa using hbegin
      exact ⟨checkRead_arranged hread (hj.moGraph.symm ▸ ho.wellFormed) hdone,
        (hm.enter hj).samePlaces (checkRead_keepsOrder hread).1.samePlaces⟩
    · obtain ⟨rfl,rfl⟩ : e₂ = e' ∧ e.numActs = curr := by simpa using hbegin
      exact ⟨hdone,hm.enter hj⟩

theorem Begun.isRelseqFixup {act : ModelAction} (h : Begun e act e' curr)
    (hact : act.isRelseqFixup = false) : (e'.acts curr).isRelseqFixup = false := by
  cases h with
  | secondPart hsecond hlast hsteps =>
    have hself : ((e.modifyAct curr fun a => a.processRmw act).acts curr) =
        (e.acts curr).processRmw act := by simp [modifyAct]
    rw [ModelAction.isRelseqFixup,((MemSteps.frame hsteps).act curr).type,hself]
    unfold ModelAction.processRmw
    cases hc : act.isRmwc with
    | true => rfl
    | false =>
      have hr : act.isRmw = true := by simpa [hc] using hsecond
      simp [hr]
  | new hfirst hadded hsteps =>
    rw [ModelAction.isRelseqFixup,((MemSteps.frame hsteps).act _).type,
      hadded.acts _ (Nat.lt_succ_self _),newAction_act]
    exact hact

/-! ### The work queue -/

theorem Arranged.threads (h : e.Arranged) (hs : ThreadSteps curr e e') : e'.Arranged := by
  have hk := hs.keepsOrder
  refine h.imp (fun hd => ?_) fun h => h.same hk (by rw [hs.moGraph])
  rw [Doomed,hs.moGraph]
  exact hd.imp id hk.flagged

/-- The entries of a queue that ask for edges ask for those of actions of the trace. -/
def Queued (e : Execution) (items : List WorkItem) : Prop :=
  ∀ a, WorkItem.checkMoEdges a ∈ items → a ∈ e.actionTrace

theorem Queued.nil : e.Queued [] := fun a ha => by cases ha

theorem Queued.append {items more : List WorkItem} (h : e.Queued items) (h' : e.Queued more) :
    e.Queued (items ++ more) :=
  fun a ha => (List.mem_append.mp ha).elim (h a) (h' a)

theorem Queued.trace {items : List WorkItem} (h : e.Queued items)
    (htrace : e'.actionTrace = e.actionTrace) : e'.Queued items := fun a ha =>
  htrace.symm ▸ h a ha

theorem propagateLoop_acts {acquire : ActionId} {l : List ActionId} {items : List WorkItem}
    (h : propagateLoop acquire l e = .ok (e',items)) :
    ∀ a, WorkItem.checkMoEdges a ∈ items → a ∈ l := by
  induction l generalizing e items with
  | nil => cases h
  | cons act rest ih =>
    rw [propagateLoop] at h
    split at h
    · obtain ⟨-,rfl⟩ : e = e' ∧ [] = items := by simpa using h
      simp
    split at h
    · obtain ⟨⟨e₁,more⟩,h₁,h⟩ := bind_eq_ok.mp h
      obtain ⟨rfl,rfl⟩ : e₁ = e' ∧ WorkItem.checkMoEdges act :: more = items := by simpa using h
      intro a ha
      rcases List.mem_cons.mp ha with ha | ha
      · cases ha
        exact List.mem_cons_self
      · exact List.mem_cons_of_mem _ (ih h₁ a ha)
    · exact fun a ha => List.mem_cons_of_mem _ (ih h a ha)

theorem propagateClockvector_queued {acquire : ActionId} {items : List WorkItem}
    (h : e.propagateClockvector acquire = .ok (e',items)) : e'.Queued items := by
  have hk := OrderSteps.keepsOrder (propagateClockvector_order h)
  obtain ⟨⟨e₁,more⟩,h₁,h⟩ := bind_eq_ok.mp h
  obtain ⟨rfl,rfl⟩ : e₁ = e' ∧ _ = items := by simpa using h
  intro a ha
  rw [hk.actionTrace,← List.mem_reverse]
  simp only [List.mem_cons,reduceCtorEq,WorkItem.checkMoEdges.injEq,false_or] at ha
  rcases ha with rfl | ha
  · exact propagateLoop_mem h₁
  · exact propagateLoop_acts h₁ a ha

theorem resolveLoop_queued {location : Option Location} {l kept : List ReleaseSeq}
    {updated : Bool} {items : List WorkItem}
    (h : resolveLoop location l updated e = .ok (e',kept,items)) : e'.Queued items := by
  induction l generalizing e updated kept items with
  | nil =>
    obtain ⟨-,-,rfl⟩ : e = e' ∧ _ ∧ [] = items := by simpa [resolveLoop] using h
    exact .nil
  | cons pending rest ih =>
    rw [resolveLoop] at h
    split at h
    · obtain ⟨⟨e₁,kept₁,items₁⟩,h₁,h⟩ := bind_eq_ok.mp h
      obtain ⟨rfl,-,rfl⟩ : e₁ = e' ∧ _ ∧ items₁ = items := by simpa using h
      exact ih h₁
    · obtain ⟨⟨heads,complete,sequence⟩,-,h⟩ := bind_eq_ok.mp h
      obtain ⟨⟨e₁,items₁⟩,h₁,h⟩ := ite_bind_eq_ok.mp h
      obtain ⟨⟨e₂,kept₂,more⟩,h₂,h⟩ := bind_eq_ok.mp h
      obtain ⟨rfl,-,rfl⟩ : e₂ = e' ∧ _ ∧ items₁ ++ more = items := by simpa using h
      have hfirst : e₁.Queued items₁ := by
        split at h₁
        · exact propagateClockvector_queued h₁
        · obtain ⟨-,rfl⟩ : _ = e₁ ∧ [] = items₁ := by simpa using h₁
          exact .nil
      have hk : KeepsOrder e₁ e₂ := OrderSteps.keepsOrder (CalmSteps.order (resolveLoop_calm h₂))
      exact (hfirst.trace hk.actionTrace).append (ih h₂)

theorem readersReadFrom_queued {write : ActionId} {l : List ActionId} {items : List WorkItem}
    (h : readersReadFrom write l e = .ok (e',items)) : e'.Queued items := by
  induction l generalizing e items with
  | nil =>
    obtain ⟨-,rfl⟩ : e = e' ∧ [] = items := by simpa [readersReadFrom] using h
    exact .nil
  | cons read reads ih =>
    obtain ⟨⟨e₁,updated⟩,-,h⟩ := bind_eq_ok.mp h
    obtain ⟨⟨e₂,items₂⟩,h₂,h⟩ := ite_bind_eq_ok.mp h
    obtain ⟨⟨e₃,more⟩,h₃,h⟩ := bind_eq_ok.mp h
    obtain ⟨rfl,rfl⟩ : e₃ = e' ∧ items₂ ++ more = items := by simpa using h
    have hfirst : e₂.Queued items₂ := by
      split at h₂
      · exact propagateClockvector_queued h₂
      · obtain ⟨-,rfl⟩ : e₁ = e₂ ∧ [] = items₂ := by simpa using h₂
        exact .nil
    exact (hfirst.trace (readersReadFrom_keepsOrder h₃).actionTrace).append (ih h₃)

theorem processWrite_queued {node : Choices} {b : Bool} {items : List WorkItem}
    (h : e.processWrite curr node = .ok (e',b,items)) : e'.Queued items := by
  obtain ⟨⟨e₁,_⟩,-,h⟩ := bind_eq_ok.mp h
  obtain ⟨⟨e₂,_,items₂⟩,h₂,h⟩ := bind_eq_ok.mp h
  obtain ⟨e₃,h₃,h⟩ := bind_eq_ok.mp h
  obtain ⟨rfl,-,rfl⟩ : e₃ = e' ∧ _ ∧ items₂ = items := by simpa using h
  have hk : KeepsOrder e₂ e₃ :=
    OrderSteps.keepsOrder (commitChanges_order.trans (moCheckPromises_order h₃))
  refine Queued.trace ?_ hk.actionTrace
  unfold keepPromise at h₂
  split at h₂
  · obtain ⟨-,-,rfl⟩ : e₁ = e₂ ∧ _ ∧ [] = items₂ := by simpa using h₂
    exact .nil
  split at h₂
  · obtain ⟨-,-,rfl⟩ : e₁ = e₂ ∧ _ ∧ [] = items₂ := by simpa using h₂
    exact .nil
  · obtain ⟨⟨e₄,items₄⟩,h₄,h₂⟩ := bind_eq_ok.mp h₂
    obtain ⟨rfl,-,rfl⟩ : e₄ = e₂ ∧ _ ∧ items₄ = items₂ := by simpa using h₂
    obtain ⟨⟨e₅,items₅⟩,h₅,h₄⟩ := bind_eq_ok.mp h₄
    obtain ⟨_,_,h₄⟩ := bind_eq_ok.mp h₄
    obtain ⟨⟨g,resolved⟩,-,h₄⟩ := bind_eq_ok.mp h₄
    obtain ⟨e₆,h₆,h₄⟩ := bind_eq_ok.mp h₄
    obtain ⟨rfl,rfl⟩ : e₆ = e₄ ∧ items₅ = items₄ := by simpa using h₄
    exact (readersReadFrom_queued h₅).trace
      (OrderSteps.keepsOrder (moCheckReads_order h₆)).actionTrace

theorem processRelseqFixup_queued {write : Option ActionId} {items : List WorkItem}
    (h : e.processRelseqFixup write = .ok (e',items)) : e'.Queued items := by
  unfold processRelseqFixup at h
  split at h
  · cases h
  · dsimp only at h
    split at h
    · obtain ⟨_,-,h⟩ := bind_eq_ok.mp h
      split at h
      · split at h
        · obtain ⟨-,rfl⟩ : _ = e' ∧ [] = items := by simpa using h
          exact .nil
        · exact propagateClockvector_queued h
      · obtain ⟨⟨g₁,_⟩,-,h⟩ := bind_eq_ok.mp h
        obtain ⟨⟨g₂,_⟩,-,h⟩ := bind_eq_ok.mp h
        obtain ⟨-,rfl⟩ : _ = e' ∧ [] = items := by simpa using h
        exact .nil
    · cases h

/-- Only actions of the trace are processed again. -/
theorem processWork_queued {secondPartOfRmw : Bool} {node : Choices} {item : WorkItem}
    {items : List WorkItem} (h : e.processWork curr secondPartOfRmw node item = .ok (e',items)) :
    e'.Queued items := by
  cases item with
  | checkReleaseSeq location =>
    obtain ⟨⟨e₁,kept,items₁⟩,h₁,h⟩ := bind_eq_ok.mp h
    obtain ⟨rfl,rfl⟩ : _ = e' ∧ items₁ = items := by simpa using h
    have hdone : e₁.Queued items₁ := resolveLoop_queued h₁
    exact hdone.trace rfl
  | checkMoEdges act =>
    obtain ⟨⟨e₁,read⟩,-,h⟩ := ite_bind_eq_ok.mp h
    obtain ⟨⟨e₂,write⟩,-,h⟩ := ite_bind_eq_ok.mp h
    obtain ⟨rfl,rfl⟩ : _ = e' ∧ _ = items := by simpa using h
    intro a ha
    split at ha <;> simp at ha
  | checkCurrAction =>
    obtain ⟨⟨e₁,thread⟩,-,h⟩ := bind_eq_ok.mp h
    obtain ⟨⟨e₂,read⟩,-,h⟩ := ite_bind_eq_ok.mp h
    obtain ⟨⟨e₃,write,items₃⟩,h₃,h⟩ := ite_bind_eq_ok.mp h
    obtain ⟨⟨e₄,fence⟩,h₄,h⟩ := ite_bind_eq_ok.mp h
    obtain ⟨⟨e₅,mutex⟩,h₅,h⟩ := ite_bind_eq_ok.mp h
    obtain ⟨⟨e₆,items₆⟩,h₆,h⟩ := ite_bind_eq_ok.mp h
    have hk : KeepsOrder e₃ e₆ := checkCurrAction_rest h₄ h₅ h₆
    have hfirst : e₃.Queued items₃ := by
      split at h₃
      · exact processWrite_queued h₃
      · obtain ⟨-,-,rfl⟩ : e₂ = e₃ ∧ _ ∧ [] = items₃ := by simpa using h₃
        exact .nil
    have hfixup : e₆.Queued items₆ := by
      split at h₆
      · exact processRelseqFixup_queued h₆
      · obtain ⟨-,rfl⟩ : e₅ = e₆ ∧ [] = items₆ := by simpa using h₆
        exact .nil
    obtain ⟨rfl,rfl⟩ : e₆ = e' ∧ _ = items := Prod.mk.inj (Except.ok.inj h)
    refine ((hfirst.trace hk.actionTrace).append hfixup).append fun a ha => ?_
    split at ha
    · simp at ha
    · split at ha <;> simp at ha

/-- The edges of an action of the trace, once more. -/
theorem checkMoEdges_arranged {act : ActionId} {items : List WorkItem}
    (hcheck : e.checkMoEdges act = .ok (e',items)) (hwf : e.moGraph.WellFormed) (hl : e.Listed)
    (hm : e.Mapped) (hp : e.Placed) (hact : act ∈ e.actionTrace) (h : e.Arranged) :
    e'.Arranged := by
  obtain ⟨⟨e₁,_⟩,h₁,hcheck⟩ := ite_bind_eq_ok.mp hcheck
  obtain ⟨⟨e₂,_⟩,h₂,hcheck⟩ := ite_bind_eq_ok.mp hcheck
  obtain rfl : _ = e' := congrArg Prod.fst (Except.ok.inj hcheck)
  have hread : KeepsOrder e e₁ ∧ e₁.Arranged := by
    split at h₁
    · refine ⟨OrderSteps.keepsOrder (recheckRead_order h₁),?_⟩
      unfold recheckRead at h₁
      split at h₁
      · rename_i rf _ hrf
        obtain ⟨⟨e₃,_⟩,h₃,h₁⟩ := bind_eq_ok.mp h₁
        obtain rfl : _ = e₁ := congrArg Prod.fst (Except.ok.inj h₁)
        have hdone := h.readEdges hwf hl hp (hp.sources act hact _ (source_past.mpr hrf)).2 h₃
        split
        · exact .inl (.inr (.inr (.inr (.inr (.inl rfl)))))
        · exact hdone
      · rename_i p hnone hpromise
        exact h.readEdges hwf hl hp
          (hp.sources act hact _ (source_promise.mpr ⟨hnone,hpromise⟩)).2 h₁
      · obtain rfl : e = e₁ := congrArg Prod.fst (Except.ok.inj h₁)
        exact h
    · obtain rfl : e = e₁ := congrArg Prod.fst (Except.ok.inj h₁)
      exact ⟨.refl e,h⟩
  obtain ⟨hk₁,hread⟩ := hread
  refine Arranged.commitChanges ?_
  split at h₂
  · exact hread.writeEdges (hk₁.graph hwf).wellFormed (hl.samePlaces hk₁.samePlaces)
      (hm.samePlaces hk₁.samePlaces) (hk₁.placed.mpr hp) (hk₁.actionTrace.symm ▸ hact) h₂
  · obtain rfl : e₁ = e₂ := congrArg Prod.fst (Except.ok.inj h₂)
    exact hread

theorem checkCurrAction_arranged {secondPartOfRmw : Bool} {node : Choices} {items : List WorkItem}
    (hcheck : e.checkCurrAction curr secondPartOfRmw node = .ok (e',items)) (hv : e.Valid)
    (hvalid : e.PromisesValid) (ho : e.Ordered fresh) (hm : e.Mapped) (hp : e.Placed)
    (hp' : e'.Placed) (hcurr : curr ∈ e.actionTrace)
    (hfixup : (e.acts curr).isRelseqFixup = false)
    (hrmw : secondPartOfRmw = false → (e.acts curr).isRmw = false) (h : e.Arranged) :
    e'.Arranged ∧ SamePlaces e e' := by
  obtain ⟨⟨e₁,_⟩,h₁,hcheck⟩ := bind_eq_ok.mp hcheck
  obtain ⟨⟨e₂,_⟩,h₂,hcheck⟩ := ite_bind_eq_ok.mp hcheck
  obtain ⟨⟨e₃,_,_⟩,h₃,hcheck⟩ := ite_bind_eq_ok.mp hcheck
  obtain ⟨⟨e₄,_⟩,h₄,hcheck⟩ := ite_bind_eq_ok.mp hcheck
  obtain ⟨⟨e₅,_⟩,h₅,hcheck⟩ := ite_bind_eq_ok.mp hcheck
  obtain ⟨⟨e₆,_⟩,h₆,hcheck⟩ := ite_bind_eq_ok.mp hcheck
  obtain rfl : e₆ = e' := congrArg Prod.fst (Except.ok.inj hcheck)
  have hthread : ThreadSteps curr e e₁ := processThreadAction_threadSteps hv h₁
  have hk := hthread.keepsOrder
  have hfence : CalmSteps e₃ e₄ := by
    split at h₄
    · exact processFence_calm h₄
    · obtain rfl : e₃ = e₄ := congrArg Prod.fst (Except.ok.inj h₄)
      exact .refl
  have hmutex : ThreadSteps curr e₄ e₅ := by
    split at h₅
    · exact processMutex_threadSteps h₅
    · obtain rfl : e₄ = e₅ := congrArg Prod.fst (Except.ok.inj h₅)
      exact .refl
  have hrest : KeepsOrder e₃ e₅ := (OrderSteps.keepsOrder hfence.order).trans hmutex.keepsOrder
  have hread : MemFrame e₁ e₂ := by
    split at h₂
    · exact MemSteps.frame (processRead_steps h₂)
    · obtain rfl : e₁ = e₂ := congrArg Prod.fst (Except.ok.inj h₂)
      exact .refl e₁
  have hwrite : MemFrame e₂ e₃ := by
    split at h₃
    · exact MemSteps.frame (processWrite_steps h₃)
    · obtain rfl : e₂ = e₃ := congrArg Prod.fst (Except.ok.inj h₃)
      exact .refl e₂
  have htype : (e₂.acts curr).type = (e.acts curr).type :=
    (hread.act curr).type.trans (hk.keeps curr).type
  -- no action fixes up a release sequence
  obtain rfl : e₅ = e₆ := by
    have hnot : (e₅.acts curr).isRelseqFixup = false := by
      rw [ModelAction.isRelseqFixup,(hrest.keeps curr).type,(hwrite.act curr).type,htype]
      exact hfixup
    rw [if_neg (by simp [hnot])] at h₆
    exact congrArg Prod.fst (Except.ok.inj h₆)
  have hwritten : e₃.Arranged := by
    by_cases hfirst : ((e₁.acts curr).isRead && !secondPartOfRmw) = true
    · rw [if_pos hfirst] at h₂
      rw [Bool.and_eq_true,Bool.not_eq_true'] at hfirst
      have hisread : (e.acts curr).isRead = true := by
        rw [ModelAction.isRead,← (hk.keeps curr).type]
        exact hfirst.1
      obtain rfl := processThreadAction_of_isRead hisread h₁
      have hnot : (e₂.acts curr).isWrite = false := by
        rw [ModelAction.isWrite,htype]
        exact isWrite_of_isRead hisread (hrmw hfirst.2)
      rw [if_neg (by simp [hnot])] at h₃
      obtain rfl : e₂ = e₃ := congrArg Prod.fst (Except.ok.inj h₃)
      exact processRead_arranged h ho.wellFormed ho.listed hp (hrest.placed.mp hp') hvalid hcurr
        (hrmw hfirst.2) h₂
    · rw [if_neg hfirst] at h₂
      obtain rfl : e₁ = e₂ := congrArg Prod.fst (Except.ok.inj h₂)
      split at h₃
      · rename_i hisWrite
        exact processWrite_arranged h₃ (hk.promises.symm ▸ hvalid.nodup)
          (hk.graph ho.wellFormed).wellFormed (ho.listed.samePlaces hk.samePlaces)
          (hm.samePlaces hk.samePlaces) (hk.awaits ho.awaits) (hk.placed.mpr hp)
          (hk.actionTrace.symm ▸ hcurr) hisWrite (h.threads hthread)
      · obtain rfl : e₁ = e₃ := congrArg Prod.fst (Except.ok.inj h₃)
        exact h.threads hthread
  exact ⟨(hwritten.calm hfence).threads hmutex,((hk.samePlaces.trans hread.samePlaces).trans
    hwrite.samePlaces).trans hrest.samePlaces⟩

end Execution
namespace Config

open Execution

variable {params : ExecutionParams} {c c' : Config}

/-- A pending action has been asked for by its thread. -/
theorem Change.pendingOf (h : Change params c c') (hv : c.Valid) {t : ThreadId}
    {act : ModelAction} (hact : c'.exec.pendingOf t = some act) :
    c.exec.pendingOf t = some act ∨ c.exec.wellTyped act = true := by
  cases h with
  | constructMutex => exact .inl hact
  | reportBug => exact .inl ((c.exec.assertBug_frame.pendingOf t).symm.trans hact)
  | act i type order location value e hphase hneeds htyped hfollows he =>
    obtain ⟨-,rfl⟩ := switchFromMaster_spec he
    obtain ⟨th',hth',hact⟩ := Option.bind_eq_some_iff.mp hact
    obtain ⟨th,hth,rfl⟩ := getElem?_modify_eq_some.mp hth'
    by_cases hi : i = t
    · simp only [hi,if_true,Option.some.injEq] at hact
      exact .inr (hact ▸ hi ▸ htyped)
    · rw [if_neg hi] at hact
      exact .inl (Option.bind_eq_some_iff.mpr ⟨th,hth,hact⟩)
  | skip => exact .inl hact
  | sleepDisabled i e hphase hneeds hi he =>
    exact .inl (((sleepDisabled_slept he).pending t).symm.trans hact)
  | detect i deadlock hphase hdeadlock =>
    refine .inl (Eq.trans ?_ hact)
    dsimp only
    split
    · exact (c.exec.assertBug_frame.pendingOf t).symm
    · rfl
  | work curr secondPartOfRmw node item queue items e hphase hasserted he =>
    refine .inl (Eq.trans ?_ hact)
    rcases processWork_cases he with ⟨-,heffect⟩ | ⟨-,hsteps⟩
    · exact (heffect.pendingOf t).symm
    · exact ((MemSteps.frame hsteps).pendingOf t).symm
  | finish curr secondPartOfRmw node queue hphase hdone =>
    refine .inl (Eq.trans ?_ hact)
    exact (((finishStep_frame params c.exec curr).pendingOf t).trans
      ((c.exec.removeStopped_frame (c.exec.acts curr).tid).pendingOf t)).symm
  | takeStep u newlyExplored node e e' act' curr hphase hnext hpending hbegin =>
    obtain ⟨th,hth,hact',_,rfl,_⟩ := takePending_spec hpending
    set taken := c.exec.modifyThread u fun th => { th with pending := none } with htaken
    have hlt : act'.tid < taken.threads.length := by
      rw [htaken,(hv.exec.pending u th act' hth hact').tid,modifyThread,List.length_modify]
      exact (List.getElem?_eq_some_iff.mp hth).1
    have hkeeps : e'.pendingOf t = taken.pendingOf t := by
      cases beginAction_begun hbegin hlt with
      | secondPart _ _ hsteps => exact (MemSteps.frame hsteps).pendingOf t
      | new _ hadded hsteps =>
        refine ((MemSteps.frame hsteps).pendingOf t).trans ?_
        rw [Execution.pendingOf,hadded.threads]
        rfl
    rw [hkeeps] at hact
    obtain ⟨th',hth',hact⟩ := Option.bind_eq_some_iff.mp hact
    obtain ⟨th'',hth'',rfl⟩ := getElem?_modify_eq_some.mp hth'
    by_cases hut : u = t
    · simp [hut] at hact
    · rw [if_neg hut] at hact
      exact .inl (Option.bind_eq_some_iff.mpr ⟨th'',hth'',hact⟩)

structure Arranged (c : Config) : Prop where
  exec : c.exec.Arranged
  mapped : c.exec.Mapped
  queued : ∀ curr secondPartOfRmw node queue, c.phase = .work curr secondPartOfRmw node queue →
    c.exec.Queued queue
  curr : ∀ curr secondPartOfRmw node queue, c.phase = .work curr secondPartOfRmw node queue →
    WorkItem.checkCurrAction ∈ queue → (c.exec.acts curr).isRelseqFixup = false

/-- The action has been processed. -/
theorem Arranged.of_work {e : Execution} {curr : ActionId} {secondPartOfRmw : Bool}
    {node : Choices} {queue : List WorkItem} {next : Option ThreadId} (h : e.Arranged)
    (hm : e.Mapped) (hq : e.Queued queue) (hdone : WorkItem.checkCurrAction ∉ queue) :
    (⟨e,.work curr secondPartOfRmw node queue,next⟩ : Config).Arranged := by
  refine ⟨h,hm,fun curr' second' node' queue' hwork => ?_,
    fun curr' second' node' queue' hwork hmem => ?_⟩
  · simp only [Phase.work.injEq] at hwork
    exact hwork.2.2.2 ▸ hq
  · simp only [Phase.work.injEq] at hwork
    exact absurd (hwork.2.2.2 ▸ hmem) hdone

/-- No thread asks for what the model checker itself does. -/
def Asked (c : Config) : Prop :=
  ∀ t act, c.exec.pendingOf t = some act → act.isRelseqFixup = false

theorem Change.asked (h : Change params c c') (hv : c.Valid) (ha : c.Asked) : c'.Asked := by
  intro t act hact
  rcases h.pendingOf hv hact with hold | htyped
  · exact ha t act hold
  · unfold wellTyped at htyped
    cases htype : act.type <;> simp [htype,ModelAction.isRelseqFixup] at htyped ⊢

theorem OrderChange.arranged (h : OrderChange params c c') (hv : c.Valid) (hr : c.Recorded)
    (hp : c.exec.PromisesValid) (ho : c.Ordered) (hs : c.Sourced) (hs' : c'.Sourced)
    (ho' : c'.Ordered) (hasked : c.Asked) (ha : c.Arranged) : c'.Arranged := by
  have hplaced := hs.exec.placed ho.exec.awaits
  have hplaced' := hs'.exec.placed ho'.exec.awaits
  cases h with
  | keeps hkeeps hgraph hfresh hdone =>
    refine ⟨ha.exec.same hkeeps ho.exec.wellFormed (by rw [hgraph]),
      ha.mapped.samePlaces hkeeps.samePlaces,fun curr second node queue hwork => ?_,
      fun curr second node queue hwork hmem => ?_⟩
    · exact (ha.queued _ _ _ _ ((hdone _ _ _ _ hwork).1.trans hwork)).trace hkeeps.actionTrace
    · exact absurd hmem (hdone _ _ _ _ hwork).2
  | @check curr secondPartOfRmw node queue items e hphase hasserted he hdone =>
    have hmem : WorkItem.checkCurrAction ∈ WorkItem.checkCurrAction :: queue := List.mem_cons_self
    have hqueue := ha.queued _ _ _ _ hphase
    obtain ⟨hdone',hplaces⟩ := checkCurrAction_arranged he hv.exec hp ho.exec ha.mapped hplaced
      hplaced' (hr.curr _ _ _ _ hphase) (ha.curr _ _ _ _ hphase hmem)
      (fun hfirst => (ho.curr _ _ _ (hfirst ▸ hphase) hmem).isRmw) ha.exec
    have hitems : e.Queued items := processWork_queued
      (show c.exec.processWork curr secondPartOfRmw node .checkCurrAction = .ok (e,items) from he)
    refine .of_work hdone' (ha.mapped.samePlaces hplaces) (Queued.append ?_ hitems) hdone
    exact Queued.trace (fun a hmem => hqueue a (List.mem_cons_of_mem _ hmem)) hplaces.actionTrace
  | @later curr secondPartOfRmw node item queue items e hphase hfresh hitem he hdone =>
    have hqueue := ha.queued _ _ _ _ hphase
    have hk := processWork_keepsOrder hitem he
    refine .of_work ?_ (ha.mapped.samePlaces hk.samePlaces)
      (Queued.append ?_ (processWork_queued he)) hdone
    · cases item with
      | checkCurrAction => exact absurd rfl hitem
      | checkReleaseSeq location => exact ha.exec.calm (resolveReleaseSequences_calm he)
      | checkMoEdges act =>
        exact checkMoEdges_arranged he ho.exec.wellFormed ho.exec.listed ha.mapped hplaced
          (hqueue act List.mem_cons_self) ha.exec
    · exact Queued.trace (fun a hmem => hqueue a (List.mem_cons_of_mem _ hmem)) hk.actionTrace
  | @take t taken e act curr newlyExplored node hfresh hpending hkeeps hgraph hvalid hrecorded huser
      hthread hunread hrmwr hbegin =>
    have hwf := (hkeeps.graph ho.exec.wellFormed).wellFormed
    obtain ⟨hdone,hmapped⟩ := beginAction_arranged hbegin
      (ha.exec.same hkeeps ho.exec.wellFormed (by rw [hgraph]))
      (ha.mapped.samePlaces hkeeps.samePlaces) ((hfresh ▸ hs.exec).keepsOrder hkeeps)
      ((hfresh ▸ ho.exec).keepsOrder hkeeps) hrecorded huser hthread hunread hrmwr
    refine ⟨hdone,hmapped,fun curr' second' node' queue' hwork a hmem => ?_,
      fun curr' second' node' queue' hwork _ => ?_⟩
    · simp only [Phase.work.injEq] at hwork
      obtain ⟨-,-,-,rfl⟩ := hwork
      simp at hmem
    · simp only [Phase.work.injEq] at hwork
      obtain ⟨rfl,-⟩ := hwork
      exact (beginAction_begun hbegin hthread).isRelseqFixup (hasked t act hpending)

theorem arranged_init : init.Arranged where
  exec := by
    have hnext : ∀ y r, CycleGraph.empty.order.next y ≠ some r := by
      simp [CycleGraph.order_empty_next]
    refine .inr ⟨⟨fun x y hxy => (CycleGraph.order_empty_edge x y hxy).elim,
      fun x y hxy => absurd hxy (hnext x y)⟩,fun x hx => ?_,
      fun y a => iff_of_false (hnext y _) fun ha => ?_,fun y r hr => absurd hr (hnext y r),
      fun y r hr => absurd hr (hnext y r)⟩
    · obtain ⟨z,-,hz⟩ := Relation.TransGen.tail'_iff.mp hx
      exact CycleGraph.order_empty_edge z x hz
    · cases ha.1
  mapped l a ha := by cases ha
  queued _ _ _ _ h := by cases h
  curr _ _ _ _ h := by cases h

theorem Reachable.arranged (h : Reachable params c) : c.Arranged := by
  refine (reachable_invariant (p := fun c => c.Asked ∧ c.Arranged) ⟨fun t act h => ?_,arranged_init⟩
    (fun c c' hc hp hchange => ?_) h).2
  · obtain ⟨th,hth,hact⟩ := Option.bind_eq_some_iff.mp h
    have hmem := List.mem_of_getElem? hth
    simp only [init,Execution.init,List.mem_cons,List.not_mem_nil,or_false] at hmem
    rcases hmem with rfl | rfl <;> cases hact
  · obtain ⟨hsane,-⟩ := hc.informed
    have hsane' := hchange.sane hsane
    have ho := hchange.orderChange hsane.valid hsane.recorded hsane.ordered
    have hs' := ho.sourced hsane.valid hsane.recorded hsane.ordered hc.sourced
    exact ⟨hchange.asked hsane.valid hp.1,ho.arranged hsane.valid hsane.recorded hsane.promises
      hsane.ordered hc.sourced hs' hsane'.ordered hp.1 hp.2⟩

end Config
namespace Execution

open Relation OrderGraph

/-- The modification order: strict, on one location at a time, each RMW behind the write that it
reads from, which no other RMW reads from. -/
structure StrictWrites (e : Execution) : Prop where
  located : ∀ x y, TransGen e.moGraph.order.edge x y → SamePlace e.place x y
  irrefl : ∀ x, ¬ TransGen e.moGraph.order.edge x x
  behind : ∀ a y, e.RmwFrom a y → TransGen e.moGraph.order.edge y (.action a)
  exclusive : ∀ a b y, e.RmwFrom a y → e.RmwFrom b y → a = b

variable {e : Execution} {fresh : Option ActionId}

theorem Sourced.source_ne (h : e.Sourced fresh) {a : ActionId} {y : GraphObj}
    (hmem : a ∈ e.actionTrace) (hy : e.source a = some y) : y ≠ .action a := by
  rintro rfl
  exact (h.past a hmem a (source_past.mp hy)).2.2.2 rfl

theorem WriteOrder.strict (h : e.WriteOrder) (hs : e.Sourced fresh) : e.StrictWrites where
  located x y hxy := by
    obtain ⟨z,hxz,hzy⟩ := TransGen.head'_iff.mp hxy
    have hfirst := h.within.edge x z hxz
    rcases h.within.reach hzy with rfl | hrest
    · exact hfirst
    · exact hfirst.trans hrest
  irrefl := h.acyclic
  behind a y ha := by
    have hnext := (h.next y a).mpr ha
    rcases Relation.reflTransGen_iff_eq_or_transGen.mp (h.link y _ hnext) with heq | hpath
    · exact absurd heq.symm (hs.source_ne ha.1 ha.2.2)
    · exact hpath
  exclusive a b y ha hb := by
    have hsame := ((h.next y a).mpr ha).symm.trans ((h.next y b).mpr hb)
    simpa using hsame

end Execution
namespace Config

open Execution

variable {params : ExecutionParams} {c : Config}

/-- In every run, as long as no check has failed. -/
theorem Reachable.strictWrites (h : Reachable params c) : c.exec.Doomed ∨ c.exec.StrictWrites :=
  h.arranged.exec.imp id fun hw => hw.strict h.sourced.exec

def rmwr (order : MemoryOrder) (address : ℕ) : Input :=
  .act .atomicRmwr order (.object address) valueNone

def rmw (order : MemoryOrder) (address value : ℕ) : Input :=
  .act .atomicRmw order (.object address) value

open Input in
/-- A store and two increments after it. -/
def incremented : List Input :=
  [ofThread .threadStart 1,go 1 {},store .relaxed 10 0,go 1 {},rmwr .relaxed 10,
    go 1 { readFrom := .past 1 },rmw .relaxed 10 1,go 1 {},rmwr .relaxed 10,
    go 1 { readFrom := .past 3 },rmw .relaxed 10 2,go 1 {}]

theorem strictWrites_incremented : ∃ c, Reachable {} c ∧ ¬ c.exec.Doomed ∧ c.exec.StrictWrites ∧
    c.exec.RmwFrom 3 (.action 1) ∧ c.exec.RmwFrom 4 (.action 3) := by
  obtain ⟨c,hc,hplay⟩ := exists_play {} incremented
    (fun c => c.exec.isInfeasible = false ∧ c.exec.asserted = false ∧
      c.exec.actionTrace = [2,0,1,3,4] ∧
      ((c.exec.acts 3).isRmw = true ∧ (c.exec.acts 3).readsFrom = some 1) ∧
      (c.exec.acts 4).isRmw = true ∧ (c.exec.acts 4).readsFrom = some 3) (by decide +kernel)
  obtain ⟨hfeasible,hasserted,htrace,hfirst,hsecond⟩ := of_decide_eq_true hplay
  have hnot : ¬ c.exec.Doomed := by
    simp only [isInfeasible,CycleGraph.checkForCycles,Bool.or_eq_false_iff] at hfeasible
    simp [Doomed,Flagged,hfeasible,hasserted]
  exact ⟨c,hc,hnot,hc.strictWrites.resolve_left hnot,
    ⟨by simp [htrace],hfirst.1,source_past.mpr hfirst.2⟩,
    ⟨by simp [htrace],hsecond.1,source_past.mpr hsecond.2⟩⟩

end Config
end CdsChecker
