import CdsChecker.WriteOrderRuns
import CdsChecker.Library.Chains

/-! Chains of RMWs that read from each other: they end as long as no write keeps a promise that it
has read itself along such a chain. -/
namespace CdsChecker
namespace Execution

open Relation Chains

/-- The reads-from of an RMW, which `release_seq_heads` follows. -/
def ReadsVia (e : Execution) (a b : ActionId) : Prop :=
  (e.acts a).isRmw = true ∧ (e.acts a).readsFrom = some b

instance (e : Execution) (a b : ActionId) : Decidable (e.ReadsVia a b) :=
  inferInstanceAs (Decidable (_ ∧ _))

/-- The loop of `thin_air_constraint_may_allow`. -/
def thinAirSearch (e : Execution) (reader : ActionId) : ℕ → Option ActionId → Result Bool
  | _,none => .ok true
  | 0,some _ => .error .diverges
  | n + 1,some search =>
    if search = reader then .ok false
    else if (e.acts search).tid = (e.acts reader).tid && e.happensBefore search reader then
      .ok true
    else thinAirSearch e reader n (e.acts search).readsFrom

def thinAirConstraintMayAllow (e : Execution) (writer reader : ActionId) : Result Bool :=
  if !(e.acts writer).isRmw then .ok true
  else if !(e.acts reader).isRmw then .ok true
  else e.thinAirSearch reader e.numActs (e.acts writer).readsFrom

/-- No chain goes on for ever. -/
def Grounded (e : Execution) : Prop := ∀ a ∈ e.actionTrace, Ends e.ReadsVia a

/-- The write keeps no promise of which a reader is on its own chain. -/
def KeepsOpen (e : Execution) (curr : ActionId) (node : Choices) : Prop :=
  ∀ i, node.promise = some i → ∀ p, e.promises[i]? = some p →
    ∀ r ∈ (e.proms p).readers, ¬ ReflTransGen e.ReadsVia curr r

variable {e e' : Execution} {curr : ActionId} {fresh : Option ActionId}

theorem ReadsVia.unique {a b c : ActionId} (hb : e.ReadsVia a b) (hc : e.ReadsVia a c) : b = c :=
  Option.some.inj (hb.2.symm.trans hc.2)

theorem KeepsOrder.readsVia (h : KeepsOrder e e') : e'.ReadsVia = e.ReadsVia := by
  funext a b
  rw [ReadsVia,ReadsVia,h.readsFrom,ModelAction.isRmw,(h.keeps a).type,ModelAction.isRmw]

theorem Grounded.keepsOrder (h : e.Grounded) (hk : KeepsOrder e e') : e'.Grounded := by
  unfold Grounded
  rw [hk.actionTrace,hk.readsVia]
  exact h

theorem KeepsOpen.keepsOrder {node : Choices} (h : e.KeepsOpen curr node) (hk : KeepsOrder e e') :
    e'.KeepsOpen curr node := by
  unfold KeepsOpen
  rw [hk.promises,hk.readsVia]
  simp only [hk.readers]
  exact h

/-! ### The current action -/

theorem processRead_other {node : Choices} {b : Bool} (h : e.processRead curr node = .ok (e',b)) :
    ∀ a, a ≠ curr → (e'.acts a).readsFrom = (e.acts a).readsFrom := by
  intro a ha
  cases hnode : node.readFrom with
  | past rf =>
    simp only [processRead,hnode] at h
    obtain ⟨e₁,h₁,h⟩ := bind_eq_ok.mp h
    obtain ⟨_,_,h⟩ := bind_eq_ok.mp h
    obtain ⟨⟨e₂,_⟩,h₂,h⟩ := bind_eq_ok.mp h
    obtain ⟨⟨e₃,_⟩,h₃,h⟩ := bind_eq_ok.mp h
    obtain ⟨e₄,h₄,h⟩ := bind_eq_ok.mp h
    obtain rfl : e₄ = e' := congrArg Prod.fst (Except.ok.inj h)
    have hk : KeepsOrder e e₂ := OrderSteps.keepsOrder
      (((startChanges_order h₁).trans (markStale_order node.stale)).trans
        (rModificationOrder_order h₂))
    have hset := (readFrom_keepsOrder h₃).2
    have hdone : KeepsOrder e₃ e₄ :=
      OrderSteps.keepsOrder (commitChanges_order.trans (moCheckPromises_order h₄))
    rw [hdone.readsFrom,hset.readsFrom,← hk.readsFrom]
    simp [modifyAct,ha]
  | promise p =>
    simp only [processRead,hnode] at h
    obtain ⟨e₁,h₁,h⟩ := bind_eq_ok.mp h
    obtain ⟨⟨e₂,_⟩,h₂,h⟩ := bind_eq_ok.mp h
    obtain rfl : _ = e' := congrArg Prod.fst (Except.ok.inj h)
    have hk := OrderSteps.keepsOrder ((((startChanges_order h₁).trans
      (markStale_order node.stale)).trans (rModificationOrder_order h₂)).trans commitChanges_order)
    rw [hk.readsFrom]
    split <;> simp [modifyAct,modifyPromise,ha]
  | future fv =>
    simp only [processRead,hnode] at h
    obtain ⟨e₁,h₁,h⟩ := bind_eq_ok.mp h
    obtain ⟨⟨e₂,_⟩,h₂,h⟩ := bind_eq_ok.mp h
    obtain rfl : _ = e' := congrArg Prod.fst (Except.ok.inj h)
    have hk := OrderSteps.keepsOrder (((startChanges_order h₁).trans
      (rModificationOrder_order h₂)).trans commitChanges_order)
    rw [hk.readsFrom]
    simp [modifyAct,ha]

/-- A read that is not yet an RMW is on no chain. -/
theorem processRead_grounded {node : Choices} {b : Bool} (h : e.Grounded)
    (hread : e.processRead curr node = .ok (e',b)) (hrmw : (e.acts curr).isRmw = false) :
    e'.Grounded := by
  have hframe : MemFrame e e' := MemSteps.frame (processRead_steps hread)
  intro a ha
  rw [hframe.actionTrace] at ha
  refine (h a ha).mono fun a b hab => ?_
  have htype : (e.acts a).isRmw = true := by
    rw [ModelAction.isRmw,← (hframe.act a).type]
    exact hab.1
  refine ⟨htype,(processRead_other hread a ?_).symm.trans hab.2⟩
  rintro rfl
  cases hrmw.symm.trans htype

theorem resolvePromise_readsVia {p : PromiseId} {i : ℕ} {items : List WorkItem}
    (h : ({ e with promises := e.promises.eraseIdx i } : Execution).resolvePromise curr p =
      .ok (e',items)) {a b : ActionId} (hab : e'.ReadsVia a b) :
    e.ReadsVia a b ∨ b = curr ∧ a ∈ (e.proms p).readers := by
  obtain ⟨⟨e₁,_⟩,h₁,h⟩ := bind_eq_ok.mp h
  obtain ⟨_,_,h⟩ := bind_eq_ok.mp h
  obtain ⟨⟨g,resolved⟩,_,h⟩ := bind_eq_ok.mp h
  obtain ⟨e₃,h₃,h⟩ := bind_eq_ok.mp h
  obtain rfl : e₃ = e' := congrArg Prod.fst (Except.ok.inj h)
  have hk := readersReadFrom_keepsOrder h₁
  rw [KeepsOrder.readsVia (OrderSteps.keepsOrder (moCheckReads_order h₃))] at hab
  have hab : e₁.ReadsVia a b := hab
  rw [hk.readsVia] at hab
  by_cases ha : a ∈ (e.proms p).readers
  · refine .inr ⟨?_,ha⟩
    have hrf := hab.2
    simp only [redirect,ha,if_true,ModelAction.setReadFrom,Option.some.injEq] at hrf
    exact hrf.symm
  · left
    simpa [ReadsVia,redirect,ha] using hab

theorem processWrite_readsVia {node : Choices} {updated : Bool} {items : List WorkItem}
    (h : e.processWrite curr node = .ok (e',updated,items)) {a b : ActionId}
    (hab : e'.ReadsVia a b) : e.ReadsVia a b ∨ b = curr ∧ ∃ i, node.promise = some i ∧
      ∃ p, e.promises[i]? = some p ∧ a ∈ (e.proms p).readers := by
  obtain ⟨⟨e₁,_⟩,h₁,h⟩ := bind_eq_ok.mp h
  obtain ⟨⟨e₂,_,_⟩,h₂,h⟩ := bind_eq_ok.mp h
  obtain ⟨e₃,h₃,h⟩ := bind_eq_ok.mp h
  obtain rfl : e₃ = e' := congrArg Prod.fst (Except.ok.inj h)
  have hk : KeepsOrder e e₁ := OrderSteps.keepsOrder (wModificationOrder_order h₁)
  rw [KeepsOrder.readsVia (OrderSteps.keepsOrder
    (commitChanges_order.trans (moCheckPromises_order h₃)))] at hab
  cases hindex : node.promise with
  | none =>
    rw [hindex] at h₂
    obtain rfl : e₁ = e₂ := congrArg Prod.fst (Except.ok.inj h₂)
    exact .inl (hk.readsVia ▸ hab)
  | some i =>
    rw [hindex] at h₂
    cases hp : e₁.promises[i]? with
    | none =>
      simp only [keepPromise,hp] at h₂
      obtain rfl : e₁ = e₂ := congrArg Prod.fst (Except.ok.inj h₂)
      exact .inl (hk.readsVia ▸ hab)
    | some p =>
      simp only [keepPromise,hp] at h₂
      obtain ⟨⟨e₄,_⟩,h₄,h₂⟩ := bind_eq_ok.mp h₂
      obtain rfl : e₄ = e₂ := congrArg Prod.fst (Except.ok.inj h₂)
      refine (resolvePromise_readsVia h₄ hab).imp (fun hab => hk.readsVia ▸ hab) fun hreader => ?_
      rw [hk.readers] at hreader
      exact ⟨hreader.1,i,rfl,p,hk.promises ▸ hp,hreader.2⟩

theorem processWrite_grounded {node : Choices} {updated : Bool} {items : List WorkItem}
    (h : e.Grounded) (hwrite : e.processWrite curr node = .ok (e',updated,items))
    (hcurr : curr ∈ e.actionTrace) (hopen : e.KeepsOpen curr node) : e'.Grounded := by
  have hframe : MemFrame e e' := MemSteps.frame (processWrite_steps hwrite)
  have hown : Ends e'.ReadsVia curr := by
    refine (h curr hcurr).of_reached fun a ha b hab => ?_
    rcases processWrite_readsVia hwrite hab with hab | ⟨-,i,hi,p,hp,hr⟩
    · exact hab
    · exact absurd ha (hopen i hi p hp a hr)
  intro a ha
  rw [hframe.actionTrace] at ha
  exact (h a ha).redirect hown fun a b hab =>
    (processWrite_readsVia hwrite hab).imp_right And.left

theorem checkCurrAction_grounded {secondPartOfRmw : Bool} {node : Choices} {items : List WorkItem}
    (hv : e.Valid) (h : e.Grounded) (hcurr : curr ∈ e.actionTrace)
    (hrmw : secondPartOfRmw = false → (e.acts curr).isRmw = false)
    (hopen : e.KeepsOpen curr node)
    (hcheck : e.checkCurrAction curr secondPartOfRmw node = .ok (e',items)) : e'.Grounded := by
  obtain ⟨⟨e₁,_⟩,h₁,hcheck⟩ := bind_eq_ok.mp hcheck
  obtain ⟨⟨e₂,_⟩,h₂,hcheck⟩ := ite_bind_eq_ok.mp hcheck
  obtain ⟨⟨e₃,_,_⟩,h₃,hcheck⟩ := ite_bind_eq_ok.mp hcheck
  obtain ⟨⟨e₄,_⟩,h₄,hcheck⟩ := ite_bind_eq_ok.mp hcheck
  obtain ⟨⟨e₅,_⟩,h₅,hcheck⟩ := ite_bind_eq_ok.mp hcheck
  obtain ⟨⟨e₆,_⟩,h₆,hcheck⟩ := ite_bind_eq_ok.mp hcheck
  obtain rfl : e₆ = e' := congrArg Prod.fst (Except.ok.inj hcheck)
  have hthread : KeepsOrder e e₁ := (processThreadAction_threadSteps hv h₁).keepsOrder
  have hstart := h.keepsOrder hthread
  have hwritten : e₃.Grounded := by
    split at h₂
    · rename_i hread
      rw [Bool.and_eq_true,Bool.not_eq_true'] at hread
      have hnot : (e₁.acts curr).isRmw = false := by
        rw [ModelAction.isRmw,(hthread.keeps curr).type]
        exact hrmw hread.2
      have hframe : MemFrame e₁ e₂ := MemSteps.frame (processRead_steps h₂)
      have hnowrite : (e₂.acts curr).isWrite = false := by
        rw [ModelAction.isWrite,(hframe.act curr).type]
        exact isWrite_of_isRead hread.1 hnot
      rw [if_neg (by simp [hnowrite])] at h₃
      obtain rfl : e₂ = e₃ := congrArg Prod.fst (Except.ok.inj h₃)
      exact processRead_grounded hstart h₂ hnot
    · obtain rfl : e₁ = e₂ := congrArg Prod.fst (Except.ok.inj h₂)
      split at h₃
      · exact processWrite_grounded hstart h₃ (hthread.actionTrace.symm ▸ hcurr)
          (hopen.keepsOrder hthread)
      · obtain rfl : e₁ = e₃ := congrArg Prod.fst (Except.ok.inj h₃)
        exact hstart
  exact hwritten.keepsOrder (checkCurrAction_rest h₄ h₅ h₆)

/-! ### The start of a step -/

/-- Nothing has read from an RMW before its second part. -/
theorem Grounded.secondPart {act : ModelAction} {last : ActionId} (h : e.Grounded)
    (hs : e.Sourced none) (hlast : last ∈ e.actionTrace)
    (hgoes : e.getLastAction act.tid = some last) (hact : (act.isRmwc || act.isRmw) = true)
    (hread : (e.acts last).isRmwr = true) (hrmw : e.processRmw act = .ok (e',last)) :
    e'.Grounded := by
  simp only [processRmw,hgoes] at hrmw
  set e₁ := e.modifyAct last fun a => a.processRmw act with he₁
  have hself : e₁.acts last = (e.acts last).processRmw act := by simp [he₁,modifyAct]
  have hother : ∀ a, a ≠ last → e₁.acts a = e.acts a := fun a ha => by simp [he₁,modifyAct,ha]
  have hnot : (e.acts last).isWrite = false := by
    simp [ModelAction.isWrite,beq_iff_eq.mp hread]
  have hrf : (e₁.acts last).readsFrom = (e.acts last).readsFrom := by
    rw [hself]
    exact (processRmw_isWrite hact).2.1
  have hvia : ∀ a b, e₁.ReadsVia a b → e.ReadsVia a b ∨
      a = last ∧ (e.acts last).readsFrom = some b := by
    intro a b hab
    by_cases ha : a = last
    · subst ha
      exact .inr ⟨rfl,hrf.symm.trans hab.2⟩
    · left
      rw [ReadsVia,← hother a ha]
      exact hab
  -- what a chain comes to is a write
  have hwrites : ∀ w, w ∈ e.actionTrace → (e.acts w).isWrite = true →
      ∀ a, ReflTransGen e.ReadsVia w a → a ∈ e.actionTrace ∧ (e.acts a).isWrite = true := by
    intro w hw hwrite a ha
    induction ha with
    | refl => exact ⟨hw,hwrite⟩
    | tail _ hbc ih =>
      obtain ⟨hmem,hwrite,-,-⟩ := hs.past _ ih.1 _ hbc.2
      exact ⟨hmem,hwrite⟩
  have hdone : e₁.Grounded := by
    intro a ha
    cases hsource : (e.acts last).readsFrom with
    | none =>
      refine (h a ha).mono fun a b hab => (hvia a b hab).resolve_right fun hlast => ?_
      cases hsource.symm.trans hlast.2
    | some w =>
      obtain ⟨hmem,hwrite,-,-⟩ := hs.past last hlast w hsource
      have hw : Ends e₁.ReadsVia w := by
        refine (h w hmem).of_reached fun x hx b hxb => (hvia x b hxb).resolve_right ?_
        rintro ⟨rfl,-⟩
        cases hnot.symm.trans (hwrites w hmem hwrite _ hx).2
      refine (h a ha).redirect hw fun a b hab => (hvia a b hab).imp_right fun hlast => ?_
      exact Option.some.inj (hlast.2.symm.trans hsource)
  split at hrmw
  · obtain rfl : e₁ = e' := congrArg Prod.fst (Except.ok.inj hrmw)
    exact hdone
  · split at hrmw
    · cases hrmw
    · obtain ⟨g,hg,hrmw⟩ := bind_eq_ok.mp hrmw
      obtain rfl : _ = e' := congrArg Prod.fst (Except.ok.inj hrmw)
      have hgraph : KeepsOrder e₁ { e₁ with moGraph := g } :=
        .of_graph fun hwf => CycleGraph.addRMWEdge_extends hwf hg
      exact (hdone.keepsOrder hgraph).keepsOrder (OrderSteps.keepsOrder commitChanges_order)

/-- A new action has no source yet. -/
theorem Grounded.enter (h : e.Grounded) (hs : e.Sourced none) (hj : Joined e e') :
    e'.Grounded := by
  have hold : ∀ a ∈ e.actionTrace, Ends e'.ReadsVia a := by
    intro a ha
    have hmem : ∀ b, ReflTransGen e.ReadsVia a b → b ∈ e.actionTrace := by
      intro b hab
      induction hab with
      | refl => exact ha
      | tail _ hbc ih => exact (hs.past _ ih _ hbc.2).1
    refine (h a ha).of_reached fun b hab c hbc => ?_
    rw [ReadsVia,← (hj.keep b (hmem b hab)).2]
    exact hbc
  intro a ha
  rcases hj.mem a ha with ha | ⟨hunread,-⟩
  · exact hold a ha
  · refine ⟨a,fun b hab => ?_⟩
    cases hunread.1.symm.trans hab.2

theorem beginAction_grounded {params : ExecutionParams} {act : ModelAction} {newlyExplored : Bool}
    {node : Choices} (hbegin : e.beginAction params act newlyExplored node = some (e',curr))
    (h : e.Grounded) (hs : e.Sourced none) (hr : e.Recorded) (huser : act.tid ≠ 0)
    (hthread : act.tid < e.threads.length) (hunread : Unread act)
    (hrmwr : (act.isRmwc || act.isRmw) = true → ∀ a, e.getLastAction act.tid = some a →
      (e.acts a).isRmwr = true) : e'.Grounded := by
  obtain ⟨⟨e₁,curr₁⟩,hinit,hbegin⟩ := Option.bind_eq_some_iff.mp hbegin
  have hinit := toOption_eq_some.mp hinit
  obtain ⟨_,_,hbegin⟩ := Option.bind_eq_some_iff.mp hbegin
  unfold initializeCurrAction at hinit
  by_cases hsecond : (act.isRmwc || act.isRmw) = true
  · rw [if_pos hsecond] at hinit
    rw [if_pos hsecond] at hbegin
    obtain ⟨rfl,rfl⟩ : e₁ = e' ∧ curr₁ = curr := by simpa using hbegin
    have hlast := (processRmw_steps hinit).1
    exact h.secondPart hs (hr.last _ _ huser hlast) hlast hsecond (hrmwr hsecond _ hlast) hinit
  · rw [if_neg hsecond] at hinit
    rw [if_neg hsecond] at hbegin
    obtain ⟨rfl,rfl⟩ : (e.newAction act).1 = e₁ ∧ e.numActs = curr₁ := by
      simpa [newAction] using hinit
    obtain ⟨_,_,hbegin⟩ := Option.bind_eq_some_iff.mp hbegin
    obtain ⟨e₂,hadd,hbegin⟩ := Option.bind_eq_some_iff.mp hbegin
    have hadd := toOption_eq_some.mp hadd
    have hentered := h.enter hs (joined hr hthread hunread hadd)
    split at hbegin
    · obtain ⟨e₃,hread,hbegin⟩ := Option.bind_eq_some_iff.mp hbegin
      obtain ⟨rfl,rfl⟩ : e₃ = e' ∧ e.numActs = curr := by simpa using hbegin
      exact hentered.keepsOrder (checkRead_keepsOrder hread).1
    · obtain ⟨rfl,rfl⟩ : e₂ = e' ∧ e.numActs = curr := by simpa using hbegin
      exact hentered

/-! ### The loops -/

/-- The number of actions bounds the chains. -/
theorem Grounded.endsIn (h : e.Grounded) (hs : e.Sourced fresh)
    (hold : ∀ a ∈ e.actionTrace, a < e.numActs) {a : ActionId} (ha : a ∈ e.actionTrace) :
    ∃ n < e.numActs, EndsIn e.ReadsVia n a := by
  obtain ⟨n,hn⟩ := (h a ha).endsIn
  have hmem : ∀ b, ReflTransGen e.ReadsVia a b → b ∈ Finset.range e.numActs := by
    intro b hab
    refine Finset.mem_range.mpr (hold b ?_)
    induction hab with
    | refl => exact ha
    | tail _ hbc ih => exact (hs.past _ ih _ hbc.2).1
  have hunique : ∀ a b c, e.ReadsVia a b → e.ReadsVia a c → b = c := fun _ _ _ => ReadsVia.unique
  have hlt := EndsIn.lt_card hunique hn hmem
  rw [Finset.card_range] at hlt
  exact ⟨n,hlt,hn⟩

theorem EndsIn.readsVia {n : ℕ} {a b : ActionId} (h : EndsIn e.ReadsVia n a)
    (hab : e.ReadsVia a b) : ∃ k < n, EndsIn e.ReadsVia k b := by
  cases n with
  | zero => exact absurd hab (h b)
  | succ n =>
    obtain ⟨c,hac,hc⟩ := h
    obtain rfl := hac.unique hab
    exact ⟨n,Nat.lt_succ_self n,hc⟩

theorem chainHeads_returns {n m : ℕ} {a : ActionId} {heads : List ActionId}
    (h : EndsIn e.ReadsVia n a) (hm : n < m) :
    e.chainHeads m (some a) heads ≠ .error .diverges := by
  induction m generalizing n a heads with
  | zero => exact absurd hm (Nat.not_lt_zero n)
  | succ m ih =>
    intro hloop
    rw [chainHeads] at hloop
    rcases bind_eq_error.mp hloop with hassert | ⟨_,_,hloop⟩
    · cases (assert_eq_error.mp hassert).2
    dsimp only at hloop
    split at hloop
    · cases hloop
    rename_i hrmw
    split at hloop
    · cases hloop
    cases hrf : (e.acts a).readsFrom with
    | none =>
      rw [hrf] at hloop
      cases m <;> cases hloop
    | some b =>
      rw [hrf] at hloop
      obtain ⟨k,hk,hb⟩ := EndsIn.readsVia h ⟨by simpa using hrmw,hrf⟩
      exact ih hb (hk.trans_le (Nat.lt_succ_iff.mp hm)) hloop

theorem thinAirSearch_returns {n m : ℕ} {reader a : ActionId} (hs : e.Sourced fresh)
    (ha : a ∈ e.actionTrace) (hwrite : (e.acts a).isWrite = true) (h : EndsIn e.ReadsVia n a)
    (hm : n < m) : e.thinAirSearch reader m (some a) ≠ .error .diverges := by
  induction m generalizing n a with
  | zero => exact absurd hm (Nat.not_lt_zero n)
  | succ m ih =>
    intro hloop
    rw [thinAirSearch] at hloop
    split at hloop
    · cases hloop
    split at hloop
    · cases hloop
    cases hrf : (e.acts a).readsFrom with
    | none =>
      rw [hrf] at hloop
      cases m <;> cases hloop
    | some b =>
      rw [hrf] at hloop
      obtain ⟨hb,hwriteb,-,-⟩ := hs.past a ha b hrf
      -- a write that reads is an RMW
      have hread : (e.acts a).isRead = true := hs.only a ha fun hunread => by
        cases hunread.1.symm.trans hrf
      have hrmw : (e.acts a).isRmw = true := by
        by_contra hrmw
        rw [Bool.not_eq_true] at hrmw
        cases hwrite.symm.trans (isWrite_of_isRead hread hrmw)
      obtain ⟨k,hk,hends⟩ := EndsIn.readsVia h ⟨hrmw,hrf⟩
      exact ih hb hwriteb hends (hk.trans_le (Nat.lt_succ_iff.mp hm)) hloop

/-- Chains of RMWs come to an end, and so do the loops along them. -/
structure ReadsEnd (e : Execution) : Prop where
  stops : ∀ a ∈ e.actionTrace, ∃ b, ReflTransGen e.ReadsVia a b ∧
    ((e.acts b).isRmw = false ∨ (e.acts b).readsFrom = none)
  circle : ∀ a ∈ e.actionTrace, ¬ TransGen e.ReadsVia a a
  heads : ∀ a ∈ e.actionTrace, ∀ heads,
    e.chainHeads e.numActs (some a) heads ≠ .error .diverges
  thinAir : ∀ writer ∈ e.actionTrace, ∀ reader,
    e.thinAirConstraintMayAllow writer reader ≠ .error .diverges

theorem Grounded.readsEnd (h : e.Grounded) (hs : e.Sourced fresh)
    (hold : ∀ a ∈ e.actionTrace, a < e.numActs) : e.ReadsEnd where
  stops a ha := by
    obtain ⟨b,hab,hstop⟩ := (h a ha).stops
    refine ⟨b,hab,?_⟩
    cases hrmw : (e.acts b).isRmw with
    | false => exact .inl rfl
    | true => exact .inr (Option.eq_none_iff_forall_ne_some.mpr fun c hc => hstop c ⟨hrmw,hc⟩)
  circle a ha := (h a ha).irrefl
  heads a ha heads := by
    obtain ⟨n,hn,hends⟩ := h.endsIn hs hold ha
    exact chainHeads_returns hends hn
  thinAir writer hwriter reader := by
    unfold thinAirConstraintMayAllow
    split
    · simp
    split
    · simp
    cases hrf : (e.acts writer).readsFrom with
    | none => cases e.numActs <;> simp [thinAirSearch]
    | some b =>
      obtain ⟨hb,hwrite,-,-⟩ := hs.past writer hwriter b hrf
      obtain ⟨n,hn,hends⟩ := h.endsIn hs hold hb
      exact thinAirSearch_returns hs hb hwrite hends hn

end Execution
namespace Config

open Execution Relation Chains

variable {params : ExecutionParams} {c c' : Config}

/-- The same for the step that comes next. -/
def KeepsOpen (c : Config) : Prop :=
  ∀ curr secondPartOfRmw node queue,
    c.phase = .work curr secondPartOfRmw node (.checkCurrAction :: queue) →
      c.exec.KeepsOpen curr node

theorem OrderChange.grounded (h : OrderChange params c c') (hv : c.Valid) (hr : c.Recorded)
    (ho : c.Ordered) (hs : c.Sourced) (hg : c.exec.Grounded) (hopen : c.KeepsOpen) :
    c'.exec.Grounded := by
  cases h with
  | keeps hkeeps _ _ _ => exact hg.keepsOrder hkeeps
  | @check curr secondPartOfRmw node queue items e hphase _ he _ =>
    refine checkCurrAction_grounded hv.exec hg (hr.curr _ _ _ _ hphase) (fun hfirst => ?_)
      (hopen _ _ _ _ hphase) he
    subst hfirst
    exact (ho.curr _ _ _ hphase List.mem_cons_self).isRmw
  | later _ _ hitem he _ => exact hg.keepsOrder (processWork_keepsOrder hitem he)
  | take hfresh _ hkeeps _ hvalid hrecorded huser hthread hunread hrmwr hbegin =>
    exact beginAction_grounded hbegin (hg.keepsOrder hkeeps)
      ((hfresh ▸ hs.exec).keepsOrder hkeeps) hrecorded huser hthread hunread hrmwr

/-- In every run in which each write that keeps a promise does not read from a reader of it. -/
theorem readsEnd_of_keepsOpen
    (h : ReflTransGen (fun c c' => c.KeepsOpen ∧ Change params c c') init c) :
    c.exec.ReadsEnd := by
  have hall : (c.Sane ∧ c.Informed) ∧ c.Sourced ∧ c.exec.Grounded := by
    induction h with
    | refl => exact ⟨⟨sane_init,informed_init⟩,sourced_init,fun a ha => by cases ha⟩
    | tail _ hstep ih =>
      obtain ⟨⟨hs,hi⟩,hsourced,hgrounded⟩ := ih
      obtain ⟨hopen,hchange⟩ := hstep
      have horder := hchange.orderChange hs.valid hs.recorded hs.ordered
      exact ⟨⟨hchange.sane hs,(hchange.informed hs hi).1⟩,
        horder.sourced hs.valid hs.recorded hs.ordered hsourced,
        horder.grounded hs.valid hs.recorded hs.ordered hsourced hgrounded hopen⟩
  obtain ⟨⟨hs,-⟩,hsourced,hgrounded⟩ := hall
  exact hgrounded.readsEnd hsourced.exec fun a ha => (hs.recorded.exec.old a ha).1

/-! ### Checked runs -/

/-- As `settle`, for as long as the states meet a test. -/
def settleChecked (params : ExecutionParams) (test : Config → Bool) : ℕ → Config → Option Config
  | 0,c => some c
  | n + 1,c =>
    match c.proceed params with
    | some c' => if test c then settleChecked params test n c' else none
    | none => some c

def playChecked (params : ExecutionParams) (test : Config → Bool) :
    List Input → Config → Option Config
  | [],c => settleChecked params test 60 c
  | i :: is,c => do
    let c ← settleChecked params test 60 c
    guard (test c = true)
    let c ← c.step params i
    playChecked params test is c

theorem settleChecked_run {test : Config → Bool} {n : ℕ}
    (h : settleChecked params test n c = some c') :
    ReflTransGen (fun c c' => test c = true ∧ Change params c c') c c' := by
  induction n generalizing c with
  | zero =>
    obtain rfl := Option.some.inj h
    exact .refl
  | succ n ih =>
    rw [settleChecked] at h
    split at h
    · rename_i c₁ hc₁
      split at h
      · rename_i htest
        exact .head ⟨htest,proceed_change hc₁⟩ (ih h)
      · cases h
    · obtain rfl := Option.some.inj h
      exact .refl

theorem playChecked_run {test : Config → Bool} {inputs : List Input}
    (h : playChecked params test inputs c = some c') :
    ReflTransGen (fun c c' => test c = true ∧ Change params c c') c c' := by
  induction inputs generalizing c with
  | nil => exact settleChecked_run h
  | cons i is ih =>
    obtain ⟨c₁,h₁,h⟩ := Option.bind_eq_some_iff.mp h
    obtain ⟨_,htest,h⟩ := Option.bind_eq_some_iff.mp h
    obtain ⟨c₂,h₂,h⟩ := Option.bind_eq_some_iff.mp h
    have hstep : Change params c₁ c₂ := step_change h₂
    exact (settleChecked_run h₁).trans (.head ⟨guard_eq_some.mp htest,hstep⟩ (ih h))

/-- The chain of the write is this list, which has no reader of the promise that is kept. -/
def opens (chain : List ActionId) (c : Config) : Bool :=
  match c.phase with
  | .work curr _ node (.checkCurrAction :: _) =>
    match node.promise with
    | none => true
    | some i => (c.exec.promises[i]?).all fun p => chain.contains curr &&
        (chain.all fun a =>
          !(c.exec.acts a).isRmw || (c.exec.acts a).readsFrom.all chain.contains) &&
          (c.exec.proms p).readers.all fun r => !chain.contains r
  | _ => true

theorem keepsOpen_of_opens {chain : List ActionId} (h : c.opens chain = true) : c.KeepsOpen := by
  intro curr second node queue hphase i hi p hp r hr hreached
  simp only [opens,hphase,hi,hp,Option.all_some,Bool.and_eq_true,List.all_eq_true,
    List.contains_iff_mem,Bool.not_eq_true',Bool.or_eq_true] at h
  obtain ⟨⟨hcurr,hclosed⟩,hreaders⟩ := h
  have hmem : ∀ a, ReflTransGen c.exec.ReadsVia curr a → a ∈ chain := by
    intro a ha
    induction ha with
    | refl => exact hcurr
    | tail _ hab ih =>
      have hnext := (hclosed _ ih).resolve_left (by simp [hab.1])
      rw [hab.2] at hnext
      simpa using hnext
  have hnot := hreaders r hr
  simp [hmem r hreached] at hnot

open Input in
/-- Two threads exchange the value, and the first reads what the second is going to write. -/
def exchanged (readFrom : ReadSource) : List Input :=
  [ofThread .threadStart 1,go 1 {},store .relaxed 10 0,go 1 {},ofObject .threadCreate 100,go 1 {},
    store .relaxed 10 1,ofThread .threadStart 2,go 2 {},rmwr .relaxed 10,
    .takeStep 2 false { readFrom := .future ⟨5,100,1⟩ },rmw .relaxed 10 4,go 2 {},
    ofThread .threadFinish 2,go 1 {},ofObject .threadCreate 101,go 1 {},ofThread .threadFinish 1,
    ofThread .threadStart 3,go 3 {},rmwr .relaxed 10,go 3 { readFrom },rmw .relaxed 10 5,
    go 3 { promise := some 0 }]

/-- The second one reads from the first and keeps the promise that the first has read. -/
theorem exchanged_circle : ∃ c, Reachable {} c ∧ 5 ∈ c.exec.actionTrace ∧
    c.exec.ReadsVia 5 9 ∧ c.exec.ReadsVia 9 5 ∧
      (∀ n, c.exec.chainHeads n (some 9) [] = .error .diverges) ∧ ¬ c.exec.ReadsEnd := by
  obtain ⟨c,hc,hplay⟩ := exists_play {} (exchanged (.past 5))
    (fun c => decide (5 ∈ c.exec.actionTrace ∧ c.exec.ReadsVia 5 9 ∧ c.exec.ReadsVia 9 5 ∧
      ∀ a ∈ ([5,9] : List ActionId), (c.exec.acts a).isWrite = true ∧
        (c.exec.acts a).isRelease = false ∧
        (c.exec.acts a).lastFenceRelease = none)) (by decide +kernel)
  obtain ⟨hmem,hfirst,hsecond,hplain⟩ := of_decide_eq_true hplay
  have hpass : ∀ a ∈ ([5,9] : List ActionId), ∀ b, c.exec.ReadsVia a b → ∀ n,
      c.exec.chainHeads (n + 1) (some a) [] = c.exec.chainHeads n (some b) [] := by
    intro a ha b hab n
    obtain ⟨hwrite,hrelease,hfence⟩ := hplain a ha
    simp [chainHeads,assert,hwrite,hrelease,hfence,hab.1,hab.2,bind,Except.bind]
  have hloop : ∀ n, c.exec.chainHeads n (some 5) [] = .error .diverges ∧
      c.exec.chainHeads n (some 9) [] = .error .diverges := by
    intro n
    induction n with
    | zero => exact ⟨rfl,rfl⟩
    | succ n ih =>
      rw [hpass 5 (by simp) 9 hfirst,hpass 9 (by simp) 5 hsecond]
      exact ⟨ih.2,ih.1⟩
  exact ⟨c,hc,hmem,hfirst,hsecond,fun n => (hloop n).2,fun hends =>
    hends.circle 5 hmem (.tail (.single hfirst) hsecond)⟩

/-- Here the second one reads from a store. -/
theorem readsEnd_exchanged :
    ∃ c, ReflTransGen (fun c c' => c.KeepsOpen ∧ Change {} c c') init c ∧
      c.exec.ReadsVia 5 9 ∧ c.exec.ReadsVia 9 6 ∧ c.exec.ReadsEnd := by
  have hplay : (playChecked {} (opens [9,6]) (exchanged (.past 6)) init).any
      (fun c => decide (c.exec.ReadsVia 5 9 ∧ c.exec.ReadsVia 9 6)) = true := by
    decide +kernel
  obtain ⟨c,hc,hreads⟩ := (Option.any_eq_true _ _).mp hplay
  obtain ⟨hfirst,hsecond⟩ := of_decide_eq_true hreads
  have hrun : ReflTransGen (fun c c' => c.KeepsOpen ∧ Change {} c c') init c :=
    ReflTransGen.mono (fun _ _ hstep => ⟨keepsOpen_of_opens hstep.1,hstep.2⟩) _ _
      (playChecked_run hc)
  exact ⟨c,hrun,hfirst,hsecond,readsEnd_of_keepsOpen hrun⟩

end Config
end CdsChecker
