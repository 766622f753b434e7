import CdsChecker.CoherenceRuns

/-! The pending promises stand in the order of their first readers, so that `promises_may_allow`,
which scans them from the back, is decided by the first one that tells. -/
namespace CdsChecker

def Promise.getReader (p : Promise) (i : ℕ) : Option ActionId := p.readers[i]?

namespace Execution

/-- The loop of `promises_may_allow`. A promise without a reader would crash. -/
def promisesMayAllowLoop (e : Execution) (writer reader : ActionId) : List PromiseId → Result Bool
  | [] => .ok true
  | p :: ps =>
    match (e.proms p).getReader 0 with
    | none => .error .assertion
    | some pr =>
      -- the reader comes after the promise
      if e.before pr reader then .ok true
      -- the promise is between the reader and the writer
      else if e.before pr writer then .ok false
      else promisesMayAllowLoop e writer reader ps

/-- Whether a future value can be sent now, or has to wait for a promise. -/
def promisesMayAllow (e : Execution) (writer reader : ActionId) : Result Bool :=
  e.promisesMayAllowLoop writer reader e.promises.reverse

/-- Where `process_write` sends its future values. -/
def sendsFutureValues (e : Execution) (curr : ActionId) (secondPartOfRmw : Bool) (node : Choices) :
    Result Execution := do
  let (e,_) ← e.processThreadAction curr
  let (e,_) ←
    if (e.acts curr).isRead && !secondPartOfRmw then e.processRead curr node else pure (e,false)
  let (e,_) ← e.wModificationOrder curr
  let (e,_,_) ← e.keepPromise curr node.promise
  pure e

/-- The promise has a first reader, at or after the reader and before the writer. -/
def Between (e : Execution) (writer reader : ActionId) (p : PromiseId) : Prop :=
  ∃ pr, (e.proms p).getReader 0 = some pr ∧
    (e.acts reader).seqNumber ≤ (e.acts pr).seqNumber ∧
    (e.acts pr).seqNumber < (e.acts writer).seqNumber

/-- The first reader of one promise comes before the first reader of another one. -/
def ReadEarlier (e : Execution) (p q : PromiseId) : Prop :=
  ∃ pr qr, (e.proms p).getReader 0 = some pr ∧ (e.proms q).getReader 0 = some qr ∧
    (e.acts pr).seqNumber < (e.acts qr).seqNumber

/-- `promises_may_allow` says no exactly for a promise in between. -/
def MayAllowExact (e : Execution) : Prop :=
  ∀ writer reader, ∃ allowed, e.promisesMayAllow writer reader = .ok allowed ∧
    (allowed = false ↔ ∃ p ∈ e.promises, e.Between writer reader p)

variable {e e' : Execution} {curr : ActionId}

/-! ### The scan -/

theorem promisesMayAllowLoop_exact (writer reader : ActionId) (ps : List PromiseId)
    (hfirst : ∀ p ∈ ps, ∃ pr, (e.proms p).getReader 0 = some pr)
    (hsorted : ps.Pairwise fun p q => e.ReadEarlier q p) :
    ∃ allowed, e.promisesMayAllowLoop writer reader ps = .ok allowed ∧
      (allowed = false ↔ ∃ p ∈ ps, e.Between writer reader p) := by
  induction ps with
  | nil => exact ⟨true,rfl,by simp⟩
  | cons p ps ih =>
    obtain ⟨pr,hpr⟩ := hfirst p List.mem_cons_self
    obtain ⟨hp,hps⟩ := List.pairwise_cons.mp hsorted
    have hearlier : ∀ q ∈ ps, ∀ qr, (e.proms q).getReader 0 = some qr →
        (e.acts qr).seqNumber < (e.acts pr).seqNumber := fun q hq qr hqr => by
      obtain ⟨qr',pr',hqr',hpr',hlt⟩ := hp q hq
      cases hqr.symm.trans hqr'
      cases hpr.symm.trans hpr'
      exact hlt
    rw [promisesMayAllowLoop,hpr]
    by_cases hreader : e.before pr reader = true
    · refine ⟨true,by simp [hreader],?_⟩
      -- the other promises come even earlier
      have hlt : (e.acts pr).seqNumber < (e.acts reader).seqNumber := of_decide_eq_true hreader
      simp only [Bool.true_eq_false,false_iff,not_exists,not_and]
      rintro q hq ⟨qr,hqr,hle,-⟩
      rcases List.mem_cons.mp hq with rfl | hq
      · cases hpr.symm.trans hqr
        exact absurd hlt (Nat.not_lt.mpr hle)
      · exact absurd ((hearlier q hq qr hqr).trans hlt) (Nat.not_lt.mpr hle)
    · have hle : (e.acts reader).seqNumber ≤ (e.acts pr).seqNumber := by
        simpa [before,ModelAction.before] using hreader
      by_cases hwriter : e.before pr writer = true
      · refine ⟨false,by simp [hreader,hwriter],?_⟩
        simp only [true_iff]
        exact ⟨p,List.mem_cons_self,pr,hpr,hle,of_decide_eq_true hwriter⟩
      · obtain ⟨allowed,hok,hexact⟩ := ih (fun q hq => hfirst q (List.mem_cons_of_mem p hq)) hps
        refine ⟨allowed,by simp [hreader,hwriter,hok],hexact.trans ?_⟩
        have hnot : ¬e.Between writer reader p := by
          rintro ⟨pr',hpr',-,hlt⟩
          cases hpr.symm.trans hpr'
          exact hwriter (decide_eq_true hlt)
        simp [hnot]

/-! ### The order of the promises -/

/-- Every pending promise has readers, in the order of the execution, and so are the first ones. -/
structure Lined (e : Execution) : Prop where
  readers : ∀ p ∈ e.promises, (e.proms p).readers ≠ [] ∧
    (e.proms p).readers.Pairwise fun a b => (e.acts a).seqNumber < (e.acts b).seqNumber
  user : ∀ p ∈ e.promises, ∀ r ∈ (e.proms p).readers, (e.acts r).tid ≠ 0
  promises : e.promises.Pairwise e.ReadEarlier

theorem Lined.first (h : e.Lined) {p : PromiseId} (hp : p ∈ e.promises) :
    ∃ pr ∈ (e.proms p).readers, (e.proms p).getReader 0 = some pr := by
  obtain ⟨pr,rest,hreaders⟩ := List.exists_cons_of_ne_nil (h.readers p hp).1
  exact ⟨pr,by simp [hreaders],by simp [Promise.getReader,hreaders]⟩

theorem Lined.exact (h : e.Lined) : e.MayAllowExact := fun writer reader => by
  have hscan := promisesMayAllowLoop_exact writer reader e.promises.reverse
    (fun p hp => (h.first (List.mem_reverse.mp hp)).imp fun _ hpr => hpr.2)
    (List.pairwise_reverse.mpr h.promises)
  simpa only [promisesMayAllow,List.mem_reverse] using hscan

/-- The readers stay where they are; promises may leave. -/
theorem Lined.of_same (h : e.Lined) (hpromises : e'.promises.Sublist e.promises)
    (hreaders : ∀ p ∈ e.promises, (e'.proms p).readers = (e.proms p).readers)
    (hacts : ∀ p ∈ e.promises, ∀ r ∈ (e.proms p).readers,
      (e'.acts r).seqNumber = (e.acts r).seqNumber ∧ (e'.acts r).tid = (e.acts r).tid) :
    e'.Lined where
  readers p hp := by
    have hmem := hpromises.subset hp
    rw [hreaders p hmem]
    refine ⟨(h.readers p hmem).1,(h.readers p hmem).2.imp_of_mem fun ha hb hlt => ?_⟩
    rwa [(hacts p hmem _ ha).1,(hacts p hmem _ hb).1]
  user p hp r hr := by
    have hmem := hpromises.subset hp
    rw [hreaders p hmem] at hr
    rw [(hacts p hmem r hr).2]
    exact h.user p hmem r hr
  promises := by
    refine (h.promises.imp_of_mem ?_).sublist hpromises
    rintro p q hp hq ⟨pr,qr,hpr,hqr,hlt⟩
    refine ⟨pr,qr,?_,?_,?_⟩
    · rwa [Promise.getReader,hreaders p hp]
    · rwa [Promise.getReader,hreaders q hq]
    · rwa [(hacts p hp pr (List.mem_of_getElem? hpr)).1,
        (hacts q hq qr (List.mem_of_getElem? hqr)).1]

theorem Lined.keepsOrder (h : e.Lined) (hk : KeepsOrder e e') : e'.Lined :=
  h.of_same (by rw [hk.promises]) (fun p _ => hk.readers p)
    fun _ _ r _ => ⟨(hk.keeps r).seqNumber,(hk.keeps r).tid⟩

/-! ### Reads -/

/-- All readers of pending promises come before the action. -/
def Later (e : Execution) (curr : ActionId) : Prop :=
  (e.acts curr).tid ≠ 0 ∧ ∀ p ∈ e.promises, ∀ r ∈ (e.proms p).readers,
    (e.acts r).seqNumber < (e.acts curr).seqNumber

theorem Later.keepsOrder (h : e.Later curr) (hk : KeepsOrder e e') : e'.Later curr := by
  refine ⟨(hk.keeps curr).tid ▸ h.1,fun p hp r hr => ?_⟩
  rw [hk.promises] at hp
  rw [hk.readers] at hr
  rw [(hk.keeps r).seqNumber,(hk.keeps curr).seqNumber]
  exact h.2 p hp r hr

/-- The newest action has not read from any of the promises. -/
theorem Lined.later (h : e.Lined) (hr : e.Recorded) (ha : e.Awaits)
    (hmem : curr ∈ e.actionTrace) (huser : (e.acts curr).tid ≠ 0) (hunread : Unread (e.acts curr))
    (hnewest : ∀ a ∈ e.actionTrace, (e.acts a).seqNumber ≤ (e.acts curr).seqNumber) :
    e.Later curr := by
  refine ⟨huser,fun p hp r hreader => ?_⟩
  obtain ⟨htrace,-,hpromise⟩ := ha.reader p hp r hreader
  refine (hnewest r htrace).lt_of_ne fun heq => ?_
  obtain rfl := hr.seqNumber_injective htrace hmem (h.user p hp r hreader) huser heq
  cases hunread.2.symm.trans hpromise

/-- A new promise is read last. -/
theorem Lined.newPromise {p : PromiseId} (h : e.Lined) (hcurr : e.Later curr)
    (hpromises : e'.promises = e.promises ++ [p])
    (hreaders : ∀ q ∈ e.promises, (e'.proms q).readers = (e.proms q).readers)
    (hnew : (e'.proms p).readers = [curr])
    (hacts : ∀ a, (e.acts a).Keeps (e'.acts a)) : e'.Lined := by
  have hold : ({ e' with promises := e.promises } : Execution).Lined :=
    h.of_same (.refl _) hreaders fun _ _ r _ => ⟨(hacts r).seqNumber,(hacts r).tid⟩
  constructor
  · intro q hq
    rw [hpromises] at hq
    rcases List.mem_append.mp hq with hq | hq
    · exact hold.readers q hq
    · obtain rfl := List.mem_singleton.mp hq
      simp [hnew]
  · intro q hq r hr
    rw [hpromises] at hq
    rcases List.mem_append.mp hq with hq | hq
    · exact hold.user q hq r hr
    · obtain rfl := List.mem_singleton.mp hq
      rw [hnew] at hr
      obtain rfl := List.mem_singleton.mp hr
      exact (hacts r).tid ▸ hcurr.1
  · rw [hpromises]
    refine List.pairwise_append.mpr
      ⟨hold.promises,List.pairwise_singleton _ _,fun q hq q' hq' => ?_⟩
    obtain rfl := List.mem_singleton.mp hq'
    obtain ⟨qr,hmem,hqr⟩ := h.first hq
    refine ⟨qr,curr,?_,by simp [Promise.getReader,hnew],?_⟩
    · rwa [Promise.getReader,hreaders q hq]
    · rw [(hacts qr).seqNumber,(hacts curr).seqNumber]
      exact hcurr.2 q hq qr hmem

/-- A further reader comes behind the other ones of its promise. -/
theorem Lined.addReader {p : PromiseId} (h : e.Lined) (hcurr : e.Later curr)
    (hp : p ∈ e.promises) (hpromises : e'.promises = e.promises)
    (hreaders : ∀ q, q ≠ p → (e'.proms q).readers = (e.proms q).readers)
    (hnew : (e'.proms p).readers = (e.proms p).readers ++ [curr])
    (hacts : ∀ a, (e.acts a).Keeps (e'.acts a)) : e'.Lined := by
  have hold : ({ e' with proms := e.proms } : Execution).Lined :=
    h.of_same (by rw [hpromises]) (fun _ _ => rfl) fun _ _ r _ =>
    ⟨(hacts r).seqNumber,(hacts r).tid⟩
  have hfirst : ∀ q ∈ e.promises, ∀ qr, (e.proms q).getReader 0 = some qr →
      (e'.proms q).getReader 0 = some qr := fun q hq qr hqr => by
    by_cases hqp : q = p
    · subst hqp
      rw [Promise.getReader,hnew,List.getElem?_append_left]
      · exact hqr
      · exact List.length_pos_of_ne_nil (h.readers q hq).1
    · rwa [Promise.getReader,hreaders q hqp]
  constructor
  · intro q hq
    by_cases hqp : q = p
    · subst hqp
      rw [hnew]
      refine ⟨by simp,List.pairwise_append.mpr ⟨(hold.readers q hq).2,List.pairwise_singleton _ _,
        fun a ha b hb => ?_⟩⟩
      obtain rfl := List.mem_singleton.mp hb
      rw [(hacts a).seqNumber,(hacts b).seqNumber]
      exact hcurr.2 q hp a ha
    · rw [hreaders q hqp]
      exact hold.readers q hq
  · intro q hq r hr
    by_cases hqp : q = p
    · subst hqp
      rw [hnew] at hr
      rcases List.mem_append.mp hr with hr | hr
      · exact hold.user q hq r hr
      · obtain rfl := List.mem_singleton.mp hr
        exact (hacts r).tid ▸ hcurr.1
    · rw [hreaders q hqp] at hr
      exact hold.user q hq r hr
  · have hsorted := hold.promises
    change e'.promises.Pairwise _ at hsorted
    refine hsorted.imp_of_mem ?_
    rintro q q' hq hq' ⟨qr,qr',hqr,hqr',hlt⟩
    rw [hpromises] at hq hq'
    exact ⟨qr,qr',hfirst q hq qr hqr,hfirst q' hq' qr' hqr',hlt⟩

theorem processRead_lined {node : Choices} {b : Bool}
    (hread : e.processRead curr node = .ok (e',b)) (hvalid : e.PromisesValid)
    (hsource : ∀ p, node.readFrom = .promise p → p ∈ e.promises) (h : e.Lined)
    (hcurr : e.Later curr) : e'.Lined := by
  cases hnode : node.readFrom with
  | past rf =>
    simp only [processRead,hnode] at hread
    obtain ⟨e₁,h₁,hread⟩ := bind_eq_ok.mp hread
    obtain ⟨_,_,hread⟩ := bind_eq_ok.mp hread
    obtain ⟨⟨e₂,_⟩,h₂,hread⟩ := bind_eq_ok.mp hread
    obtain ⟨⟨e₃,_⟩,h₃,hread⟩ := bind_eq_ok.mp hread
    obtain ⟨e₄,h₄,hread⟩ := bind_eq_ok.mp hread
    obtain rfl : e₄ = e' := congrArg Prod.fst (Except.ok.inj hread)
    have hedges : KeepsOrder e e₂ := OrderSteps.keepsOrder
      (((startChanges_order h₁).trans (markStale_order node.stale)).trans
        (rModificationOrder_order h₂))
    have hreads := setReadFrom_reads e₂ curr rf
    have hset : (e₂.modifyAct curr fun a => a.setReadFrom rf).Lined :=
      (h.keepsOrder hedges).of_same (.refl _) (fun _ _ => rfl)
        fun _ _ r _ => ⟨(hreads.act r).seqNumber,(hreads.act r).tid⟩
    exact (hset.keepsOrder (readFrom_keepsOrder h₃).2).keepsOrder
      (OrderSteps.keepsOrder (commitChanges_order.trans (moCheckPromises_order h₄)))
  | promise p =>
    simp only [processRead,hnode] at hread
    obtain ⟨e₁,h₁,hread⟩ := bind_eq_ok.mp hread
    obtain ⟨⟨e₂,_⟩,h₂,hread⟩ := bind_eq_ok.mp hread
    obtain rfl : _ = e' := congrArg Prod.fst (Except.ok.inj hread)
    have hrest := OrderSteps.keepsOrder ((((startChanges_order h₁).trans
      (markStale_order node.stale)).trans (rModificationOrder_order h₂)).trans commitChanges_order)
    refine Lined.keepsOrder ?_ hrest
    refine h.addReader hcurr (hsource p hnode) ?_ (fun q hq => ?_) ?_ fun a => ?_
    · split <;> rfl
    · split <;> simp [modifyAct,modifyPromise,hq]
    · split <;> simp [modifyAct,modifyPromise,readers_addReader]
    · split <;> exact (setReadFromPromise_same e curr p a).keeps
  | future fv =>
    simp only [processRead,hnode] at hread
    obtain ⟨e₁,h₁,hread⟩ := bind_eq_ok.mp hread
    obtain ⟨⟨e₂,_⟩,h₂,hread⟩ := bind_eq_ok.mp hread
    obtain rfl : _ = e' := congrArg Prod.fst (Except.ok.inj hread)
    have hrest := OrderSteps.keepsOrder (((startChanges_order h₁).trans
      (rModificationOrder_order h₂)).trans commitChanges_order)
    refine Lined.keepsOrder ?_ hrest
    refine h.newPromise hcurr rfl (fun q hq => ?_) ?_ (fun a => ?_)
    · have hne : q ≠ e.numProms := (hvalid.lt q hq).ne
      simp [modifyAct,hne]
    · simp [modifyAct,readers_create]
    · exact (setReadFromPromise_same e curr e.numProms a).keeps

/-! ### Writes -/

theorem keepPromise_lined {index : Option ℕ} {b : Bool} {items : List WorkItem}
    (hkeep : e.keepPromise curr index = .ok (e',b,items)) (h : e.Lined) : e'.Lined := by
  unfold keepPromise at hkeep
  split at hkeep
  · obtain rfl : e = e' := congrArg Prod.fst (Except.ok.inj hkeep)
    exact h
  · rename_i i
    split at hkeep
    · obtain rfl : e = e' := congrArg Prod.fst (Except.ok.inj hkeep)
      exact h
    · rename_i p _
      obtain ⟨⟨e₁,_⟩,hr,hkeep⟩ := bind_eq_ok.mp hkeep
      obtain rfl : e₁ = e' := congrArg Prod.fst (Except.ok.inj hkeep)
      obtain ⟨⟨e₂,_⟩,h₂,hr⟩ := bind_eq_ok.mp hr
      obtain ⟨_,_,hr⟩ := bind_eq_ok.mp hr
      obtain ⟨⟨g,resolved⟩,_,hr⟩ := bind_eq_ok.mp hr
      obtain ⟨e₃,h₃,hr⟩ := bind_eq_ok.mp hr
      obtain rfl : e₃ = e₁ := congrArg Prod.fst (Except.ok.inj hr)
      have hk := readersReadFrom_keepsOrder h₂
      refine Lined.keepsOrder ?_ (OrderSteps.keepsOrder (moCheckReads_order h₃))
      refine h.of_same ?_ (fun q _ => hk.readers q) fun _ _ r _ => ?_
      · have hpromises : e₂.promises = e.promises.eraseIdx i := hk.promises
        rw [hpromises]
        exact List.eraseIdx_sublist _ _
      · have hkeeps := (e.redirect_same (e.proms p).readers curr r).keeps.trans (hk.keeps r)
        exact ⟨hkeeps.seqNumber,hkeeps.tid⟩

theorem processWrite_lined {node : Choices} {b : Bool} {items : List WorkItem}
    (hwrite : e.processWrite curr node = .ok (e',b,items)) (h : e.Lined) : e'.Lined := by
  obtain ⟨⟨e₁,_⟩,h₁,hwrite⟩ := bind_eq_ok.mp hwrite
  obtain ⟨⟨e₂,_,_⟩,h₂,hwrite⟩ := bind_eq_ok.mp hwrite
  obtain ⟨e₃,h₃,hwrite⟩ := bind_eq_ok.mp hwrite
  obtain rfl : e₃ = e' := congrArg Prod.fst (Except.ok.inj hwrite)
  exact (keepPromise_lined h₂
    (h.keepsOrder (OrderSteps.keepsOrder (wModificationOrder_order h₁)))).keepsOrder
      (OrderSteps.keepsOrder (commitChanges_order.trans (moCheckPromises_order h₃)))

/-! ### The work queue -/

/-- The current action up to its read: unless it is the second part of an RMW, it comes last. -/
theorem readPart_lined {secondPartOfRmw thread read : Bool} {node : Choices} {e₁ : Execution}
    (hv : e.Valid) (hvalid : e.PromisesValid) (h : e.Lined)
    (hcurr : secondPartOfRmw = false → e.Bare curr node ∧ e.Later curr)
    (hthread : e.processThreadAction curr = .ok (e₁,thread))
    (hread : (if (e₁.acts curr).isRead && !secondPartOfRmw then e₁.processRead curr node
      else pure (e₁,false)) = .ok (e',read)) : e'.Lined := by
  have hk : KeepsOrder e e₁ := (processThreadAction_threadSteps hv hthread).keepsOrder
  have hlined := h.keepsOrder hk
  split at hread
  · rename_i hfirst
    rw [Bool.and_eq_true,Bool.not_eq_true'] at hfirst
    obtain ⟨hbare,hlater⟩ := hcurr hfirst.2
    exact processRead_lined hread (hvalid.currSteps (processThreadAction_steps hv hthread))
      ((hbare.keepsOrder hk).source hfirst.1) hlined (hlater.keepsOrder hk)
  · obtain rfl : e₁ = e' := congrArg Prod.fst (Except.ok.inj hread)
    exact hlined

theorem sendsFutureValues_lined {secondPartOfRmw : Bool} {node : Choices} (hv : e.Valid)
    (hvalid : e.PromisesValid) (h : e.Lined)
    (hcurr : secondPartOfRmw = false → e.Bare curr node ∧ e.Later curr)
    (hsends : e.sendsFutureValues curr secondPartOfRmw node = .ok e') : e'.Lined := by
  obtain ⟨⟨e₁,_⟩,h₁,hsends⟩ := bind_eq_ok.mp hsends
  obtain ⟨⟨e₂,_⟩,h₂,hsends⟩ := ite_bind_eq_ok.mp hsends
  obtain ⟨⟨e₃,_⟩,h₃,hsends⟩ := bind_eq_ok.mp hsends
  obtain ⟨⟨e₄,_,_⟩,h₄,hsends⟩ := bind_eq_ok.mp hsends
  obtain rfl : e₄ = e' := Except.ok.inj hsends
  exact keepPromise_lined h₄ ((readPart_lined hv hvalid h hcurr h₁ h₂).keepsOrder
    (OrderSteps.keepsOrder (wModificationOrder_order h₃)))

theorem checkCurrAction_lined {secondPartOfRmw : Bool} {node : Choices} {items : List WorkItem}
    (hv : e.Valid) (hvalid : e.PromisesValid) (h : e.Lined)
    (hcurr : secondPartOfRmw = false → e.Bare curr node ∧ e.Later curr)
    (hcheck : e.checkCurrAction curr secondPartOfRmw node = .ok (e',items)) : e'.Lined := by
  obtain ⟨⟨e₁,_⟩,h₁,hcheck⟩ := bind_eq_ok.mp hcheck
  obtain ⟨⟨e₂,_⟩,h₂,hcheck⟩ := ite_bind_eq_ok.mp hcheck
  obtain ⟨⟨e₃,_,_⟩,h₃,hcheck⟩ := ite_bind_eq_ok.mp hcheck
  obtain ⟨⟨e₄,_⟩,h₄,hcheck⟩ := ite_bind_eq_ok.mp hcheck
  obtain ⟨⟨e₅,_⟩,h₅,hcheck⟩ := ite_bind_eq_ok.mp hcheck
  obtain ⟨⟨e₆,_⟩,h₆,hcheck⟩ := ite_bind_eq_ok.mp hcheck
  obtain rfl : e₆ = e' := congrArg Prod.fst (Except.ok.inj hcheck)
  have hread := readPart_lined hv hvalid h hcurr h₁ h₂
  have hwrite : e₃.Lined := by
    split at h₃
    · exact processWrite_lined h₃ hread
    · obtain rfl : e₂ = e₃ := congrArg Prod.fst (Except.ok.inj h₃)
      exact hread
  have hfence : KeepsOrder e₃ e₄ := by
    split at h₄
    · exact OrderSteps.keepsOrder (processFence_order h₄)
    · obtain rfl : e₃ = e₄ := congrArg Prod.fst (Except.ok.inj h₄)
      exact .refl _
  have hmutex : KeepsOrder e₄ e₅ := by
    split at h₅
    · exact (processMutex_threadSteps h₅).keepsOrder
    · obtain rfl : e₄ = e₅ := congrArg Prod.fst (Except.ok.inj h₅)
      exact .refl _
  have hfixup : KeepsOrder e₅ e₆ := by
    split at h₆
    · exact OrderSteps.keepsOrder (processRelseqFixup_order h₆)
    · obtain rfl : e₅ = e₆ := congrArg Prod.fst (Except.ok.inj h₆)
      exact .refl _
  exact ((hwrite.keepsOrder hfence).keepsOrder hmutex).keepsOrder hfixup

/-! ### The start of a step -/

theorem processRmw_lined {act : ModelAction} {last : ActionId} (h : e.Lined)
    (hact : (act.isRmwc || act.isRmw) = true) (hread : ∀ a, e.getLastAction act.tid = some a →
      (e.acts a).isRmwr = true) (hrmw : e.processRmw act = .ok (e',last)) : e'.Lined := by
  unfold processRmw at hrmw
  split at hrmw
  · cases hrmw
  · rename_i lastread hlast
    have hplaces := ModelAction.Places.processRmw hact (hread lastread hlast)
    have hfirst : (e.modifyAct lastread fun a => a.processRmw act).Lined := by
      refine h.of_same (.refl _) (fun _ _ => rfl) fun _ _ r _ => ?_
      by_cases hr : r = lastread
      · subst hr
        simpa [modifyAct] using ⟨hplaces.seqNumber,hplaces.tid⟩
      · simp [modifyAct,hr]
    dsimp only at hrmw
    split at hrmw
    · obtain rfl := congrArg Prod.fst (Except.ok.inj hrmw)
      exact hfirst
    · split at hrmw
      · cases hrmw
      · obtain ⟨g,_,hrmw⟩ := bind_eq_ok.mp hrmw
        obtain rfl := congrArg Prod.fst (Except.ok.inj hrmw)
        exact hfirst.of_same (.refl _) (fun _ _ => rfl) fun _ _ _ _ => ⟨rfl,rfl⟩

theorem beginAction_lined {params : ExecutionParams} {act : ModelAction} {newlyExplored : Bool}
    {node : Choices} (hbegin : e.beginAction params act newlyExplored node = some (e',curr))
    (h : e.Lined) (hr : e.Recorded) (ha : e.Awaits) (hthread : act.tid < e.threads.length)
    (hrmwr : (act.isRmwc || act.isRmw) = true → ∀ a, e.getLastAction act.tid = some a →
      (e.acts a).isRmwr = true) : e'.Lined := by
  obtain ⟨⟨e₁,curr₁⟩,hinit,hbegin⟩ := Option.bind_eq_some_iff.mp hbegin
  have hinit := toOption_eq_some.mp hinit
  obtain ⟨_,_,hbegin⟩ := Option.bind_eq_some_iff.mp hbegin
  unfold initializeCurrAction at hinit
  by_cases hsecond : (act.isRmwc || act.isRmw) = true
  · rw [if_pos hsecond] at hinit
    rw [if_pos hsecond] at hbegin
    obtain ⟨rfl,rfl⟩ : e₁ = e' ∧ curr₁ = curr := by simpa using hbegin
    exact processRmw_lined h hsecond (hrmwr hsecond) hinit
  · rw [if_neg hsecond] at hinit
    rw [if_neg hsecond] at hbegin
    obtain ⟨rfl,rfl⟩ : (e.newAction act).1 = e₁ ∧ e.numActs = curr₁ := by
      simpa [newAction] using hinit
    obtain ⟨_,_,hbegin⟩ := Option.bind_eq_some_iff.mp hbegin
    obtain ⟨e₂,hadd,hbegin⟩ := Option.bind_eq_some_iff.mp hbegin
    have hadded := addActionToLists_added (toOption_eq_some.mp hadd)
      (by rw [newAction_act]; exact hthread)
    have hlists : e₂.Lined := by
      refine h.of_same ?_ (fun p _ => by rw [hadded.proms]; rfl) fun p hp r hreader => ?_
      · rw [hadded.promises]
        exact .refl _
      · have hlt : r < e.numActs := (hr.old r (ha.reader p hp r hreader).1).1
        have hsame : e₂.acts r = e.acts r :=
          (hadded.acts r (hlt.trans (Nat.lt_succ_self _))).trans (newAction_acts e act hlt.ne)
        rw [hsame]
        exact ⟨rfl,rfl⟩
    split at hbegin
    · obtain ⟨e₃,hread,hbegin⟩ := Option.bind_eq_some_iff.mp hbegin
      obtain ⟨rfl,-⟩ : e₃ = e' ∧ _ := by simpa using hbegin
      exact hlists.keepsOrder (checkRead_keepsOrder hread).1
    · obtain ⟨rfl,-⟩ : e₂ = e' ∧ _ := by simpa using hbegin
      exact hlists

end Execution
namespace Config

open Execution

variable {params : ExecutionParams} {c c' : Config}

theorem lined_init : Execution.init.Lined :=
  ⟨by simp [Execution.init],by simp [Execution.init],List.Pairwise.nil⟩

/-- The current action comes after the readers of the promises. -/
theorem Lined.current (h : c.exec.Lined) (hv : c.Valid) (hr : c.Recorded) (ho : c.Ordered)
    (hn : c.Newest) {curr : ActionId} {node : Choices} {queue : List WorkItem}
    (hphase : c.phase = .work curr false node queue) (hqueue : WorkItem.checkCurrAction ∈ queue) :
    c.exec.Bare curr node ∧ c.exec.Later curr := by
  have hbare := ho.curr _ _ _ hphase hqueue
  refine ⟨hbare,h.later hr.exec ho.exec.awaits (hr.curr _ _ _ _ hphase)
    (hv.curr _ _ _ _ hphase).1.user hbare.unread fun a ha => ?_⟩
  rw [hn _ _ _ hphase]
  exact (hr.exec.old a ha).2.1

theorem Change.lined (h : Change params c c') (hv : c.Valid) (hr : c.Recorded)
    (hp : c.exec.PromisesValid) (ho : c.Ordered) (hn : c.Newest) (hl : c.exec.Lined) :
    c'.exec.Lined := by
  cases h with
  | constructMutex i address parent hphase hneeds hparent =>
    exact hl.of_same (.refl _) (fun _ _ => rfl) fun _ _ _ _ => ⟨rfl,rfl⟩
  | reportBug hphase hdone => exact hl.keepsOrder c.exec.assertBug_sameMemory.keepsOrder
  | act i type order location value e hphase hneeds htyped hfollows he =>
    obtain ⟨-,rfl⟩ := switchFromMaster_spec he
    exact hl.of_same (.refl _) (fun _ _ => rfl) fun _ _ _ _ => ⟨rfl,rfl⟩
  | skip i hphase hneeds hi => exact hl
  | sleepDisabled i e hphase hneeds hi he =>
    have hsteps : ThreadSteps 0 c.exec e := sleepDisabled_threadSteps he
    exact hl.keepsOrder hsteps.keepsOrder
  | detect i deadlock hphase hdeadlock =>
    dsimp only
    split
    · exact hl.keepsOrder c.exec.assertBug_sameMemory.keepsOrder
    · exact hl
  | work curr secondPartOfRmw node item queue items e hphase hasserted he =>
    cases item with
    | checkCurrAction =>
      refine checkCurrAction_lined hv.exec hp hl (fun hfirst => ?_) he
      subst hfirst
      exact Lined.current hl hv hr ho hn hphase List.mem_cons_self
    | checkReleaseSeq location =>
      exact hl.keepsOrder (OrderSteps.keepsOrder (resolveReleaseSequences_order he))
    | checkMoEdges act => exact hl.keepsOrder (OrderSteps.keepsOrder (checkMoEdges_order he))
  | finish curr secondPartOfRmw node queue hphase hdone =>
    exact hl.keepsOrder (finishStep_sameMemory params c.exec curr).keepsOrder
  | takeStep t newlyExplored node e e' act curr hphase hnext hpending hbegin =>
    obtain ⟨th,hth,hact,_,rfl,_⟩ := takePending_spec hpending
    have hvp := hv.exec.pending t th act hth hact
    have hrecorded := hr.exec.setState t (fun th => { th with pending := none }) (fun _ => rfl)
      fun th' _ => ⟨id,.inl⟩
    refine beginAction_lined hbegin ?_ hrecorded ?_ ?_
      fun hrmw a ha => hvp.rmwr hrmw a (hvp.tid ▸ ha)
    · exact hl.of_same (.refl _) (fun _ _ => rfl) fun _ _ _ _ => ⟨rfl,rfl⟩
    · exact { ho.exec.awaits with }
    · rw [hvp.tid,modifyThread,List.length_modify]
      exact (List.getElem?_eq_some_iff.mp hth).1

/-- In every reachable configuration the pending promises stand in the order of their first
readers, and so they do where future values are sent: `promises_may_allow` is exact. -/
theorem Reachable.promisesMayAllow_exact (h : Reachable params c) :
    (c.exec.Lined ∧ c.exec.MayAllowExact) ∧
    ∀ curr secondPartOfRmw node queue e,
      c.phase = .work curr secondPartOfRmw node (.checkCurrAction :: queue) →
      c.exec.sendsFutureValues curr secondPartOfRmw node = .ok e → e.Lined ∧ e.MayAllowExact := by
  have hall : c.Valid ∧ c.Recorded ∧ c.exec.PromisesValid ∧ c.Ordered ∧ c.Newest ∧
      c.exec.Lined := by
    refine reachable_induction (p := fun c => c.Valid ∧ c.Recorded ∧ c.exec.PromisesValid ∧
      c.Ordered ∧ c.Newest ∧ c.exec.Lined) ?_ ?_ h
    · exact ⟨valid_init,recorded_init,⟨List.nodup_nil,by simp [init,Execution.init],fun _ => rfl⟩,
        ordered_init,.of_phase (by simp [init]),lined_init⟩
    · rintro c c' ⟨hv,hr,hp,ho,hn,hl⟩ hchange
      exact ⟨hchange.valid hv,hchange.recorded hv hr,hchange.promisesValid hv hp,
        hchange.ordered hv hr hp ho,hchange.newest hv hn,hchange.lined hv hr hp ho hn hl⟩
  obtain ⟨hv,hr,hp,ho,hn,hl⟩ := hall
  refine ⟨⟨hl,hl.exact⟩,fun curr secondPartOfRmw node queue e hphase hsends => ?_⟩
  have hlined : e.Lined := by
    refine sendsFutureValues_lined hv.exec hp hl (fun hfirst => ?_) hsends
    subst hfirst
    exact Lined.current hl hv hr ho hn hphase List.mem_cons_self
  exact ⟨hlined,hlined.exact⟩

open Input in
/-- A thread reads two values that another one stores only afterwards. -/
def readsAhead : List Input :=
  [ofThread .threadStart 1,go 1 {},store .relaxed 10 0,go 1 {},store .relaxed 11 0,go 1 {},
    ofObject .threadCreate 100,go 1 {},load .relaxed 10,ofThread .threadStart 2,go 2 {},
    store .relaxed 11 2,.takeStep 1 false { readFrom := .future ⟨1,100,2⟩ },
    load .relaxed 11,.takeStep 1 false { readFrom := .future ⟨2,100,2⟩ },load .relaxed 10]

theorem promisesMayAllow_exact_readsAhead : ∃ c, Reachable {} c ∧ c.exec.promises = [0,1] ∧
    c.exec.Lined ∧ c.exec.MayAllowExact := by
  obtain ⟨c,hc,hplay⟩ := exists_play {} readsAhead (fun c => c.exec.promises = [0,1])
    (by decide +kernel)
  exact ⟨c,hc,of_decide_eq_true hplay,(Reachable.promisesMayAllow_exact hc).1⟩

end Config
end CdsChecker
