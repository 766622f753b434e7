import CdsChecker.CheckedWrites
import CdsChecker.CompleteTrace
import CdsChecker.KnowledgeRuns

/-! Where the reads of an execution read from: a write to the same location, or a promise that is
still pending. -/
namespace CdsChecker
namespace Execution

variable {e e' : Execution} {curr : ActionId} {fresh : Option ActionId}

/-- The sources of the reads, but for a read that has not been processed. -/
structure Sourced (e : Execution) (fresh : Option ActionId) : Prop where
  past : ∀ a ∈ e.actionTrace, ∀ w, (e.acts a).readsFrom = some w → w ∈ e.actionTrace ∧
    (e.acts w).isWrite = true ∧ (e.acts w).location = (e.acts a).location ∧ w ≠ a
  waiting : ∀ p ∈ e.promises, ∀ r ∈ (e.proms p).readers, ∀ r' ∈ (e.proms p).readers,
    (e.acts r).location = (e.acts r').location
  read : e.Flagged ∨ ∀ a ∈ e.actionTrace, (e.acts a).isRead = true → some a ≠ fresh →
    ¬ Unread (e.acts a)
  only : ∀ a ∈ e.actionTrace, ¬ Unread (e.acts a) → (e.acts a).isRead = true

theorem Sourced.keepsOrder (h : e.Sourced fresh) (hk : KeepsOrder e e') : e'.Sourced fresh where
  past a ha w hw := by
    rw [hk.actionTrace] at ha
    rw [hk.readsFrom] at hw
    obtain ⟨hmem,hwrite,hlocation,hne⟩ := h.past a ha w hw
    refine ⟨hk.actionTrace.symm ▸ hmem,(hk.isWrite w).trans hwrite,?_,hne⟩
    rw [(hk.keeps w).location,(hk.keeps a).location,hlocation]
  waiting p hp r hr r' hr' := by
    rw [hk.promises] at hp
    rw [hk.readers] at hr hr'
    rw [(hk.keeps r).location,(hk.keeps r').location]
    exact h.waiting p hp r hr r' hr'
  read := by
    refine h.read.imp hk.flagged fun hread a ha hisread hne => ?_
    rw [hk.actionTrace] at ha
    rw [ModelAction.isRead,(hk.keeps a).type] at hisread
    rw [Unread,hk.readsFrom,hk.readsFromPromise]
    exact hread a ha hisread hne
  only a ha hunread := by
    rw [hk.actionTrace] at ha
    rw [Unread,hk.readsFrom,hk.readsFromPromise] at hunread
    rw [ModelAction.isRead,(hk.keeps a).type]
    exact h.only a ha hunread

/-- Nothing is left to be processed. -/
theorem Sourced.settle (h : e.Sourced (some curr))
    (hcurr : (e.acts curr).isRead = true → ¬ Unread (e.acts curr)) : e.Sourced none where
  past := h.past
  waiting := h.waiting
  only := h.only
  read := by
    refine h.read.imp id fun hread a ha hisread _ => ?_
    by_cases hac : a = curr
    · subst hac
      exact hcurr hisread
    · exact hread a ha hisread fun heq => hac (Option.some.inj heq)

theorem Sourced.flagged (h : e.Sourced fresh) (hflagged : e.Flagged) (fresh' : Option ActionId) :
    e.Sourced fresh' :=
  ⟨h.past,h.waiting,.inl hflagged,h.only⟩

/-! ### Reads -/

/-- The current action gets its source. -/
theorem Sourced.reads {e₀ : Execution} (h : e.Sourced (some curr)) (hreads : Reads e e₀ curr)
    (hisread : (e.acts curr).isRead = true) (hdone : ¬ Unread (e₀.acts curr))
    (hpast : ∀ w, (e₀.acts curr).readsFrom = some w → w ∈ e.actionTrace ∧
      (e.acts w).isWrite = true ∧ (e.acts w).location = (e.acts curr).location ∧ w ≠ curr)
    (hwaiting : ∀ p ∈ e₀.promises, ∀ r ∈ (e₀.proms p).readers, ∀ r' ∈ (e₀.proms p).readers,
      (e.acts r).location = (e.acts r').location) : e₀.Sourced none where
  past a ha w hw := by
    have hplace : w ∈ e.actionTrace ∧ (e.acts w).isWrite = true ∧
        (e.acts w).location = (e.acts a).location ∧ w ≠ a := by
      by_cases hac : a = curr
      · subst hac
        exact hpast w hw
      · rw [hreads.other a hac] at hw
        exact h.past a (hreads.actionTrace ▸ ha) w hw
    rw [hreads.actionTrace,ModelAction.isWrite,(hreads.act w).type,(hreads.act w).location,
      (hreads.act a).location]
    exact hplace
  waiting p hp r hr r' hr' := by
    rw [(hreads.act r).location,(hreads.act r').location]
    exact hwaiting p hp r hr r' hr'
  read := by
    refine h.read.imp hreads.flagged fun hread a ha hisread _ => ?_
    by_cases hac : a = curr
    · subst hac
      exact hdone
    · rw [hreads.other a hac] at hisread ⊢
      exact hread a (hreads.actionTrace ▸ ha) hisread fun heq => hac (Option.some.inj heq)
  only a ha hunread := by
    rw [ModelAction.isRead,(hreads.act a).type]
    by_cases hac : a = curr
    · subst hac
      exact hisread
    · rw [hreads.other a hac] at hunread
      exact h.only a (hreads.actionTrace ▸ ha) hunread

/-- The source of a read from the past or from a promise is on its location. -/
structure SourceFits (e : Execution) (curr : ActionId) (node : Choices) : Prop where
  past : ∀ rf, node.readFrom = .past rf → e.asserted = true ∨
    rf ≠ curr ∧ ∃ t, rf ∈ e.objThrd (e.acts curr).location t
  promise : ∀ p, node.readFrom = .promise p → p ∈ e.promises ∧
    ∀ r ∈ (e.proms p).readers, (e.acts r).location = (e.acts curr).location

theorem processRead_sourced {node : Choices} {b : Bool} (hl : e.Listed)
    (hread : e.processRead curr node = .ok (e',b))
    (h : e.Sourced (some curr)) (hisread : (e.acts curr).isRead = true)
    (hasserted : e.asserted = false) (hfits : e.SourceFits curr node) : e'.Sourced none := by
  have hset : ∀ p, ¬ Unread ((e.acts curr).setReadFromPromise p) := fun p hunread => by
    cases hunread.2
  have hnothing : ∀ p w, ((e.acts curr).setReadFromPromise p).readsFrom ≠ some w := fun p w hw => by
    cases hw
  cases hnode : node.readFrom with
  | past rf =>
    obtain ⟨hne,t,hrf⟩ := (hfits.past rf hnode).resolve_left (by simp [hasserted])
    obtain ⟨hmem,-,-,hon⟩ := hl.mem _ t rf hrf
    simp only [processRead,hnode] at hread
    obtain ⟨e₁,h₁,hread⟩ := bind_eq_ok.mp hread
    obtain ⟨_,_,hread⟩ := bind_eq_ok.mp hread
    obtain ⟨⟨e₂,_⟩,h₂,hread⟩ := bind_eq_ok.mp hread
    obtain ⟨⟨e₃,_⟩,h₃,hread⟩ := bind_eq_ok.mp hread
    obtain ⟨e₄,h₄,hread⟩ := bind_eq_ok.mp hread
    obtain rfl : e₄ = e' := congrArg Prod.fst (Except.ok.inj hread)
    have hk : KeepsOrder e e₂ := OrderSteps.keepsOrder
      (((startChanges_order h₁).trans (markStale_order node.stale)).trans
        (rModificationOrder_order h₂))
    obtain ⟨hwrite,hset⟩ := readFrom_keepsOrder h₃
    have hwrite' : (e.acts rf).isWrite = true := (hk.isWrite rf).symm.trans hwrite
    have hlocation : (e.acts rf).location = (e.acts curr).location := by
      have hwait : (e.acts rf).isWait = false := by
        cases htype : (e.acts rf).type <;>
          simp [ModelAction.isWrite,ModelAction.isWait,htype] at hwrite' ⊢
      simpa [onLocation,hwait] using hon
    have hsourced : (e₂.modifyAct curr fun a => a.setReadFrom rf).Sourced none := by
      refine (h.keepsOrder hk).reads (setReadFrom_reads e₂ curr rf) ?_ ?_ (fun w hw => ?_)
        (h.keepsOrder hk).waiting
      · rw [ModelAction.isRead,(hk.keeps curr).type]
        exact hisread
      · simp [Unread,modifyAct,ModelAction.setReadFrom]
      · obtain rfl : rf = w := by simpa [modifyAct,ModelAction.setReadFrom] using hw
        rw [hk.actionTrace,(hk.keeps rf).location,(hk.keeps curr).location]
        exact ⟨hmem,hwrite,hlocation,hne⟩
    exact (hsourced.keepsOrder hset).keepsOrder
      (OrderSteps.keepsOrder (commitChanges_order.trans (moCheckPromises_order h₄)))
  | promise p =>
    obtain ⟨hp,hfits⟩ := hfits.promise p hnode
    simp only [processRead,hnode] at hread
    obtain ⟨e₁,h₁,hread⟩ := bind_eq_ok.mp hread
    obtain ⟨⟨e₂,_⟩,h₂,hread⟩ := bind_eq_ok.mp hread
    obtain rfl : _ = e' := congrArg Prod.fst (Except.ok.inj hread)
    set e₀ := (if ((e.proms p).addReader curr (e.acts curr).tid).2 = true then
        { e.modifyPromise p fun _ => ((e.proms p).addReader curr (e.acts curr).tid).1 with
          failedPromise := true }
      else e.modifyPromise p fun _ => ((e.proms p).addReader curr (e.acts curr).tid).1).modifyAct
        curr fun a => a.setReadFromPromise p with he₀
    have hreads : Reads e e₀ curr := by
      rw [he₀]
      split <;> exact ⟨rfl,rfl,rfl,rfl,rfl,id,setReadFromPromise_same e curr p,
        fun a ha => by simp [modifyAct,modifyPromise,ha]⟩
    have hself : e₀.acts curr = (e.acts curr).setReadFromPromise p := by
      rw [he₀]
      split <;> simp [modifyAct,modifyPromise]
    have hpromises : e₀.promises = e.promises := by
      rw [he₀]
      split <;> rfl
    have hproms : ∀ q, (e₀.proms q).readers =
        if q = p then (e.proms p).readers ++ [curr] else (e.proms q).readers := fun q => by
      rw [he₀]
      split <;> by_cases hq : q = p <;> simp [modifyAct,modifyPromise,hq,readers_addReader]
    have hsourced : e₀.Sourced none := by
      refine h.reads hreads hisread (hself ▸ hset p) (fun w hw => ?_) fun q hq r hr r' hr' => ?_
      · exact absurd (hself ▸ hw) (hnothing p w)
      · rw [hpromises] at hq
        rw [hproms] at hr hr'
        by_cases hqp : q = p
        · have hown : ∀ x ∈ (e.proms p).readers ++ [curr],
              (e.acts x).location = (e.acts curr).location := fun x hx => by
            rcases List.mem_append.mp hx with hx | hx
            · exact hfits x hx
            · rw [List.mem_singleton.mp hx]
          rw [if_pos hqp] at hr hr'
          exact (hown r hr).trans (hown r' hr').symm
        · rw [if_neg hqp] at hr hr'
          exact h.waiting q hq r hr r' hr'
    exact (hsourced.keepsOrder (OrderSteps.keepsOrder (((startChanges_order h₁).trans
      (markStale_order node.stale)).trans (rModificationOrder_order h₂)))).keepsOrder
        (OrderSteps.keepsOrder commitChanges_order)
  | future fv =>
    simp only [processRead,hnode] at hread
    obtain ⟨e₁,h₁,hread⟩ := bind_eq_ok.mp hread
    obtain ⟨⟨e₂,_⟩,h₂,hread⟩ := bind_eq_ok.mp hread
    obtain rfl : _ = e' := congrArg Prod.fst (Except.ok.inj hread)
    set e₀ : Execution := { ({ e with
        proms := Function.update e.proms e.numProms (Promise.create curr (e.acts curr).tid fv)
        numProms := e.numProms + 1 } : Execution).modifyAct curr
          (fun a => a.setReadFromPromise e.numProms) with
        promises := e.promises ++ [e.numProms] } with he₀
    have hreads : Reads e e₀ curr :=
      ⟨rfl,rfl,rfl,rfl,rfl,id,setReadFromPromise_same e curr e.numProms,
        fun a ha => by simp [he₀,modifyAct,ha]⟩
    have hself : e₀.acts curr = (e.acts curr).setReadFromPromise e.numProms := by
      simp [he₀,modifyAct]
    have hsourced : e₀.Sourced none := by
      refine h.reads hreads hisread (hself ▸ hset _) (fun w hw => ?_) fun q hq r hr r' hr' => ?_
      · exact absurd (hself ▸ hw) (hnothing _ w)
      · by_cases hqn : q = e.numProms
        · have hreaders : (e₀.proms q).readers = [curr] := by
            simp [he₀,modifyAct,hqn,readers_create]
          rw [hreaders,List.mem_singleton] at hr hr'
          rw [hr,hr']
        · have hreaders : e₀.proms q = e.proms q := by simp [he₀,modifyAct,hqn]
          rw [hreaders] at hr hr'
          have hq' : q ∈ e.promises := by simpa [he₀,hqn] using hq
          exact h.waiting q hq' r hr r' hr'
    exact (hsourced.keepsOrder (OrderSteps.keepsOrder ((startChanges_order h₁).trans
      (rModificationOrder_order h₂)))).keepsOrder (OrderSteps.keepsOrder commitChanges_order)

/-! ### Writes -/

theorem location_of_sameVar {a b : ModelAction} (ha : a.isWait = false) (hb : b.isWait = false)
    (h : a.sameVar b = true) : a.location = b.location := by
  simpa [ModelAction.sameVar,ha,hb] using h

theorem sameVar_of_keeps {a a' b b' : ModelAction} (ha : a.Keeps a') (hb : b.Keeps b') :
    a'.sameVar b' = a.sameVar b := by
  have hvalue : ∀ {a a' : ModelAction}, a.Keeps a' → a.isWait = true → a'.value = a.value :=
    fun h hwait => h.value (by simp [ModelAction.isTrylock,beq_iff_eq.mp hwait])
  have hwait : ∀ {a a' : ModelAction}, a.Keeps a' → a'.isWait = a.isWait := fun h => by
    rw [ModelAction.isWait,h.type,ModelAction.isWait]
  unfold ModelAction.sameVar
  rw [hwait ha,hwait hb,ha.location,hb.location]
  cases hwa : a.isWait <;> cases hwb : b.isWait <;> simp [hvalue ha,hvalue hb,hwa,hwb]

theorem isWait_of_isWrite {a : ModelAction} (h : a.isWrite = true) : a.isWait = false := by
  cases htype : a.type <;> simp [ModelAction.isWrite,ModelAction.isWait,htype] at h ⊢

/-- All readers of a promise are on the location that its first reader is on. -/
theorem Sourced.readers_location (h : e.Sourced fresh) (ha : e.Awaits) {p : PromiseId}
    (hp : p ∈ e.promises) {b : ActionId} (hb : (e.acts b).isWait = false)
    (hsame : e.sameLocation p b = true) :
    ∀ r ∈ (e.proms p).readers, (e.acts r).location = (e.acts b).location := by
  obtain ⟨r₀,hhead,hvar⟩ := (Option.any_eq_true _ _).mp hsame
  have hmem := List.mem_of_head? hhead
  obtain ⟨htrace,-,hpromise⟩ := ha.reader p hp r₀ hmem
  have hread : (e.acts r₀).isRead = true :=
    h.only r₀ htrace fun hunread => by cases hunread.2.symm.trans hpromise
  have hfirst := location_of_sameVar (isWait_of_isRead hread) hb hvar
  exact fun r hr => (h.waiting p hp r hr r₀ hmem).trans hfirst

theorem resolvePromise_sourced {p : PromiseId} {i : ℕ} {items : List WorkItem}
    (hr : ({ e with promises := e.promises.eraseIdx i } : Execution).resolvePromise curr p =
      .ok (e',items)) (hi : e.promises[i]? = some p) (ha : e.Awaits) (hcurr : curr ∈ e.actionTrace)
    (hwrite : (e.acts curr).isWrite = true) (hnot : curr ∉ (e.proms p).readers)
    (h : e.Sourced fresh) : e'.Sourced fresh := by
  obtain ⟨⟨e₁,_⟩,h₁,hr⟩ := bind_eq_ok.mp hr
  obtain ⟨_,hassert,hr⟩ := bind_eq_ok.mp hr
  obtain ⟨⟨g,resolved⟩,-,hr⟩ := bind_eq_ok.mp hr
  obtain ⟨e₃,h₃,hr⟩ := bind_eq_ok.mp hr
  obtain rfl : e₃ = e' := congrArg Prod.fst (Except.ok.inj hr)
  have hp := List.mem_of_getElem? hi
  have hk := readersReadFrom_keepsOrder h₁
  set e₀ : Execution := { e with promises := e.promises.eraseIdx i } with he₀
  set readers := (e₀.proms p).readers with hreaders
  have hsame : ∀ a, (e.acts a).Same ((e₀.redirect readers curr).acts a) := fun a =>
    e₀.redirect_same readers curr a
  have hlocation : ∀ r ∈ readers, (e.acts r).location = (e.acts curr).location := by
    refine h.readers_location ha hp (isWait_of_isWrite hwrite) ?_
    have hassert := assert_eq_ok.mp hassert
    rw [Bool.and_eq_true,isCompatible,Bool.and_eq_true,sameLocation,hk.readers] at hassert
    have hkeeps := fun a => (hsame a).keeps.trans (hk.keeps a)
    obtain ⟨r,hhead,hvar⟩ := (Option.any_eq_true _ _).mp hassert.1.2
    exact (Option.any_eq_true _ _).mpr ⟨r,hhead,sameVar_of_keeps (hkeeps r) (hkeeps curr) ▸ hvar⟩
  have hredirected : (e₀.redirect readers curr).Sourced fresh := by
    have hin : ∀ a ∈ readers, (e₀.redirect readers curr).acts a = (e.acts a).setReadFrom curr :=
      fun a har => if_pos har
    have hout : ∀ a, a ∉ readers → (e₀.redirect readers curr).acts a = e.acts a :=
      fun a har => if_neg har
    constructor
    · intro a hmem w hw
      have hplace : w ∈ e.actionTrace ∧ (e.acts w).isWrite = true ∧
          (e.acts w).location = (e.acts a).location ∧ w ≠ a := by
        by_cases har : a ∈ readers
        · rw [hin a har] at hw
          obtain rfl : curr = w := Option.some.inj hw
          exact ⟨hcurr,hwrite,(hlocation a har).symm,fun heq => hnot (heq ▸ har)⟩
        · rw [hout a har] at hw
          exact h.past a hmem w hw
      rw [ModelAction.isWrite,(hsame w).type,(hsame w).location,(hsame a).location]
      exact hplace
    · intro q hq r hr r' hr'
      rw [(hsame r).location,(hsame r').location]
      exact h.waiting q (List.mem_of_mem_eraseIdx hq) r hr r' hr'
    · refine h.read.imp id fun hread a hmem hisread hne => ?_
      by_cases har : a ∈ readers
      · rw [hin a har]
        exact fun hunread => by cases hunread.1
      · rw [hout a har] at hisread ⊢
        exact hread a hmem hisread hne
    · intro a hmem hunread
      rw [ModelAction.isRead,(hsame a).type]
      by_cases har : a ∈ readers
      · obtain ⟨-,-,hpromise⟩ := ha.reader p hp a har
        exact h.only a hmem fun hold => by cases hold.2.symm.trans hpromise
      · rw [hout a har] at hunread
        exact h.only a hmem hunread
  have hdone := hredirected.keepsOrder hk
  have hfailed : ({ e₁ with moGraph := g,hardFailedPromise := e₁.hardFailedPromise || !resolved } :
      Execution).Sourced fresh := by
    refine ⟨hdone.past,hdone.waiting,hdone.read.imp (fun hflag => ?_) id,hdone.only⟩
    simp only [Flagged,Bool.or_eq_true] at hflag ⊢
    tauto
  exact hfailed.keepsOrder (OrderSteps.keepsOrder (moCheckReads_order h₃))

/-- The promise that is kept is not one that the write's own read waits for. -/
def KeepsOther (e : Execution) (curr : ActionId) (node : Choices) : Prop :=
  ∀ i, node.promise = some i → ∀ p, e.promises[i]? = some p → curr ∉ (e.proms p).readers

theorem processWrite_sourced {node : Choices} {b : Bool} {items : List WorkItem}
    (hprocess : e.processWrite curr node = .ok (e',b,items)) (ha : e.Awaits)
    (hcurr : curr ∈ e.actionTrace) (hwrite : (e.acts curr).isWrite = true)
    (hkeeps : e.KeepsOther curr node) (h : e.Sourced fresh) : e'.Sourced fresh := by
  obtain ⟨⟨e₁,_⟩,h₁,hprocess⟩ := bind_eq_ok.mp hprocess
  obtain ⟨⟨e₂,_,_⟩,h₂,hprocess⟩ := bind_eq_ok.mp hprocess
  obtain ⟨e₃,h₃,hprocess⟩ := bind_eq_ok.mp hprocess
  obtain rfl : e₃ = e' := congrArg Prod.fst (Except.ok.inj hprocess)
  have hk : KeepsOrder e e₁ := OrderSteps.keepsOrder (wModificationOrder_order h₁)
  have hkept : e₂.Sourced fresh := by
    cases hindex : node.promise with
    | none =>
      rw [hindex] at h₂
      obtain rfl : e₁ = e₂ := congrArg Prod.fst (Except.ok.inj h₂)
      exact h.keepsOrder hk
    | some i =>
      rw [hindex] at h₂
      cases hp : e₁.promises[i]? with
      | none =>
        simp only [keepPromise,hp] at h₂
        obtain rfl : e₁ = e₂ := congrArg Prod.fst (Except.ok.inj h₂)
        exact h.keepsOrder hk
      | some p =>
        simp only [keepPromise,hp] at h₂
        obtain ⟨⟨e₄,_⟩,h₄,h₂⟩ := bind_eq_ok.mp h₂
        obtain rfl : e₄ = e₂ := congrArg Prod.fst (Except.ok.inj h₂)
        refine resolvePromise_sourced h₄ hp (hk.awaits ha) (hk.actionTrace.symm ▸ hcurr)
          ((hk.isWrite curr).trans hwrite) ?_ (h.keepsOrder hk)
        rw [hk.readers]
        exact hkeeps i hindex p (hk.promises ▸ hp)
  exact hkept.keepsOrder
    (OrderSteps.keepsOrder (commitChanges_order.trans (moCheckPromises_order h₃)))

/-! ### The current action -/

theorem KeepsOther.keepsOrder {node : Choices} (h : e.KeepsOther curr node)
    (hk : KeepsOrder e e') : e'.KeepsOther curr node := by
  intro i hnode p hp
  rw [hk.promises] at hp
  rw [hk.readers]
  exact h i hnode p hp

/-- What follows the read and the write of the current action. -/
theorem checkCurrAction_rest {e₁ e₂ : Execution} {misc : ℕ} {write : Option ActionId}
    {fence mutex : Bool} {items : List WorkItem}
    (h₁ : (if (e.acts curr).isFence = true then e.processFence curr else pure (e,false)) =
      .ok (e₁,fence))
    (h₂ : (if (e₁.acts curr).isMutexOp = true then e₁.processMutex curr misc
      else pure (e₁,false)) = .ok (e₂,mutex))
    (h₃ : (if (e₂.acts curr).isRelseqFixup = true then e₂.processRelseqFixup write
      else pure (e₂,[])) = .ok (e',items)) : KeepsOrder e e' := by
  have hfence : KeepsOrder e e₁ := by
    split at h₁
    · exact OrderSteps.keepsOrder (processFence_order h₁)
    · obtain rfl : e = e₁ := congrArg Prod.fst (Except.ok.inj h₁)
      exact .refl e
  have hmutex : KeepsOrder e₁ e₂ := by
    split at h₂
    · exact (processMutex_threadSteps h₂).keepsOrder
    · obtain rfl : e₁ = e₂ := congrArg Prod.fst (Except.ok.inj h₂)
      exact .refl e₁
  have hfixup : KeepsOrder e₂ e' := by
    split at h₃
    · exact OrderSteps.keepsOrder (processRelseqFixup_order h₃)
    · obtain rfl : e₂ = e' := congrArg Prod.fst (Except.ok.inj h₃)
      exact .refl e₂
  exact (hfence.trans hmutex).trans hfixup

theorem checkCurrAction_sourced {secondPartOfRmw : Bool} {node : Choices} {items : List WorkItem}
    (hv : e.Valid) (ho : e.Ordered fresh) (hcurr : curr ∈ e.actionTrace)
    (hasserted : e.asserted = false)
    (hcheck : e.checkCurrAction curr secondPartOfRmw node = .ok (e',items))
    (hkeeps : e.KeepsOther curr node)
    (h : secondPartOfRmw = true ∧ e.Sourced none ∨ secondPartOfRmw = false ∧
      e.Sourced (some curr) ∧ (e.acts curr).isRmw = false ∧
        ((e.acts curr).isRead = true → e.SourceFits curr node)) : e'.Sourced none := by
  obtain ⟨⟨e₁,_⟩,h₁,hcheck⟩ := bind_eq_ok.mp hcheck
  obtain ⟨⟨e₂,_⟩,h₂,hcheck⟩ := ite_bind_eq_ok.mp hcheck
  obtain ⟨⟨e₃,_,_⟩,h₃,hcheck⟩ := ite_bind_eq_ok.mp hcheck
  obtain ⟨⟨e₄,_⟩,h₄,hcheck⟩ := ite_bind_eq_ok.mp hcheck
  obtain ⟨⟨e₅,_⟩,h₅,hcheck⟩ := ite_bind_eq_ok.mp hcheck
  obtain ⟨⟨e₆,_⟩,h₆,hcheck⟩ := ite_bind_eq_ok.mp hcheck
  obtain rfl : e₆ = e' := congrArg Prod.fst (Except.ok.inj hcheck)
  have hthread : KeepsOrder e e₁ := (processThreadAction_threadSteps hv h₁).keepsOrder
  have htype : ∀ {e₂ : Execution}, MemFrame e₁ e₂ →
      (e₂.acts curr).isRead = (e.acts curr).isRead ∧
        (e₂.acts curr).isWrite = (e.acts curr).isWrite := fun hframe => by
    simp only [ModelAction.isRead,ModelAction.isWrite,(hframe.act curr).type,
      (hthread.keeps curr).type,and_self]
  have hwrite : ∀ {fresh r}, e.Sourced fresh → (e₁.acts curr).isWrite = true →
      e₁.processWrite curr node = .ok (e₃,r) → e₃.Sourced fresh := fun h hw h₃ =>
    processWrite_sourced h₃ (hthread.awaits ho.awaits) (hthread.actionTrace.symm ▸ hcurr) hw
      (hkeeps.keepsOrder hthread) (h.keepsOrder hthread)
  -- the read and the write
  have hwritten : e₃.Sourced none := by
    rcases h with ⟨rfl,h⟩ | ⟨rfl,h,hrmw,hfits⟩
    · rw [if_neg (by simp)] at h₂
      obtain rfl : e₁ = e₂ := congrArg Prod.fst (Except.ok.inj h₂)
      split at h₃
      · rename_i hw
        exact hwrite h hw h₃
      · obtain rfl : e₁ = e₃ := congrArg Prod.fst (Except.ok.inj h₃)
        exact h.keepsOrder hthread
    · cases hread : (e.acts curr).isRead with
      | true =>
        obtain rfl := processThreadAction_of_isRead hread h₁
        rw [if_pos (by simp [hread])] at h₂
        have hnot := (htype (MemSteps.frame (processRead_steps h₂))).2
        rw [if_neg (by rw [hnot,isWrite_of_isRead hread hrmw]; simp)] at h₃
        obtain rfl : e₂ = e₃ := congrArg Prod.fst (Except.ok.inj h₃)
        exact processRead_sourced ho.listed h₂ h hread hasserted (hfits hread)
      | false =>
        have hread₁ := (htype (MemFrame.refl e₁)).1.trans hread
        rw [if_neg (by simp [hread₁])] at h₂
        obtain rfl : e₁ = e₂ := congrArg Prod.fst (Except.ok.inj h₂)
        split at h₃
        · rename_i hw
          refine (hwrite h hw h₃).settle fun hread₃ => ?_
          have hsame := (htype (MemSteps.frame (processWrite_steps h₃))).1.trans hread
          cases hsame.symm.trans hread₃
        · obtain rfl : e₁ = e₃ := congrArg Prod.fst (Except.ok.inj h₃)
          exact (h.keepsOrder hthread).settle fun hread₃ => by cases hread₁.symm.trans hread₃
  exact hwritten.keepsOrder (checkCurrAction_rest h₄ h₅ h₆)

/-! ### The start of a step -/

/-- The second part of an RMW reads what its first part has read. -/
theorem Sourced.secondPart {act : ModelAction} {last : ActionId} (h : e.Sourced none)
    (hgoes : e.getLastAction act.tid = some last) (hact : (act.isRmwc || act.isRmw) = true)
    (hread : (e.acts last).isRmwr = true) (hrmw : e.processRmw act = .ok (e',last)) :
    e'.Sourced none := by
  simp only [processRmw,hgoes] at hrmw
  set e₁ := e.modifyAct last fun a => a.processRmw act with he₁
  have hself : e₁.acts last = (e.acts last).processRmw act := by simp [he₁,modifyAct]
  have hother : ∀ a, a ≠ last → e₁.acts a = e.acts a := fun a ha => by simp [he₁,modifyAct,ha]
  have hnot : (e.acts last).isWrite = false := by
    simp [ModelAction.isWrite,beq_iff_eq.mp hread]
  have hisread : (e₁.acts last).isRead = true ∧ (e.acts last).isRead = true := by
    refine ⟨?_,by simp [ModelAction.isRead,beq_iff_eq.mp hread]⟩
    rw [hself]
    unfold ModelAction.processRmw
    cases hc : act.isRmwc with
    | true => rfl
    | false =>
      have hr : act.isRmw = true := by simpa [hc] using hact
      rw [if_neg (by simp),if_pos hr]
      rfl
  obtain ⟨-,hrf,hp⟩ := processRmw_isWrite (a := e.acts last) hact
  have hsame : ∀ a, (e₁.acts a).location = (e.acts a).location ∧
      (e₁.acts a).isRead = (e.acts a).isRead ∧ (e₁.acts a).readsFrom = (e.acts a).readsFrom ∧
      (Unread (e₁.acts a) ↔ Unread (e.acts a)) := fun a => by
    by_cases ha : a = last
    · rw [ha,hisread.1,hisread.2,hself,Unread,Unread,hrf,hp]
      exact ⟨(processRmw_similar hact hread).2.2.1,rfl,rfl,Iff.rfl⟩
    · rw [hother a ha]
      exact ⟨rfl,rfl,rfl,Iff.rfl⟩
  have hsourced : e₁.Sourced none := by
    refine ⟨fun a ha w hw => ?_,fun p hp r hr r' hr' => ?_,?_,fun a ha hunread => ?_⟩
    · obtain ⟨hmem,hwrite,hlocation,hne⟩ := h.past a ha w ((hsame a).2.2.1 ▸ hw)
      have hwl : w ≠ last := by
        rintro rfl
        cases hnot.symm.trans hwrite
      rw [hother w hwl,(hsame a).1]
      exact ⟨hmem,hwrite,hlocation,hne⟩
    · rw [(hsame r).1,(hsame r').1]
      exact h.waiting p hp r hr r' hr'
    · refine h.read.imp id fun hread a ha hisread hne => ?_
      rw [(hsame a).2.2.2]
      exact hread a ha ((hsame a).2.1 ▸ hisread) hne
    · rw [(hsame a).2.1]
      exact h.only a ha ((hsame a).2.2.2.not.mp hunread)
  split at hrmw
  · obtain rfl : e₁ = e' := congrArg Prod.fst (Except.ok.inj hrmw)
    exact hsourced
  · split at hrmw
    · cases hrmw
    · obtain ⟨g,hg,hrmw⟩ := bind_eq_ok.mp hrmw
      obtain rfl : _ = e' := congrArg Prod.fst (Except.ok.inj hrmw)
      have hgraph : KeepsOrder e₁ { e₁ with moGraph := g } :=
        .of_graph fun hwf => CycleGraph.addRMWEdge_extends hwf hg
      exact (hsourced.keepsOrder hgraph).keepsOrder (OrderSteps.keepsOrder commitChanges_order)

/-- A new action comes to the trace, and maybe the uninitialized one of its location. -/
structure Joined (e e' : Execution) : Prop where
  keep : ∀ a ∈ e.actionTrace, a ∈ e'.actionTrace ∧ e'.acts a = e.acts a
  mem : ∀ a ∈ e'.actionTrace, a ∈ e.actionTrace ∨ Unread (e'.acts a) ∧
    (a = e.numActs ∨ (e'.acts a).type = .atomicUninit)
  proms : e'.proms = e.proms
  promises : e'.promises = e.promises
  moGraph : e'.moGraph = e.moGraph
  flagged : e'.Flagged ↔ e.Flagged
  objMap : ∀ l, ∀ a ∈ e'.objMap l, a ∈ e.objMap l ∨
    a ∈ e'.actionTrace ∧ onLocation (e'.acts a) l = true

theorem joined {params : ExecutionParams} {act : ModelAction} (hr : e.Recorded)
    (hthread : act.tid < e.threads.length) (hunread : Unread act)
    (hadd : (e.newAction act).1.addActionToLists params e.numActs = .ok e') : Joined e e' := by
  set e₀ := (e.newAction act).1 with he₀
  have hnew := newAction_act e act
  rw [← he₀] at hnew
  have htid : (e₀.acts e.numActs).tid = act.tid := by rw [hnew]
  have hadded := addActionToLists_added hadd (by rw [htid]; exact hthread)
  have hentered := addActionToLists_entered hadd (by rw [htid]; exact hthread) (Nat.lt_succ_self _)
  have hact : e'.acts e.numActs = e₀.acts e.numActs := hadded.acts _ (Nat.lt_succ_self _)
  have hmem : ∀ a, a ∈ e'.actionTrace ↔ (e₀.isFirst e.numActs = true ∧ a = e₀.numActs) ∨
      a ∈ e.actionTrace ∨ a = e.numActs := fun a => by
    have hsame : e₀.actionTrace = e.actionTrace := rfl
    rw [hentered.actionTrace,hsame]
    by_cases hfirst : e₀.isFirst e.numActs = true <;> simp [hfirst]
  refine ⟨fun a ha => ⟨(hmem a).mpr (.inr (.inl ha)),?_⟩,fun a ha => ?_,hadded.proms,
    hadded.promises,hentered.moGraph,hentered.flagged,fun l a ha => ?_⟩
  · have hlt := (hr.old a ha).1
    rw [hadded.acts a (Nat.lt_succ_of_lt hlt),newAction_acts e act (Nat.ne_of_lt hlt)]
  · rcases (hmem a).mp ha with ⟨hfirst,rfl⟩ | ha | rfl
    · exact .inr ⟨hentered.unread hfirst,
        .inr (hadded.uninit e₀.numActs le_rfl (hentered.uninit_lt hadded hfirst)).1⟩
    · exact .inl ha
    · refine .inr ⟨?_,.inl rfl⟩
      rw [Unread,hact,hnew]
      exact hunread
  · have hfresh : e.numActs ∈ e'.actionTrace := (hmem _).mpr (.inr (.inr rfl))
    rw [hentered.objMap] at ha
    rcases List.mem_append.mp ha with ha | ha
    · rcases List.mem_append.mp ha with ha | ha
      · split at ha
        · rename_i hfirst
          obtain rfl := List.mem_singleton.mp ha
          refine .inr ⟨(hmem _).mpr (.inl ⟨hfirst.1,rfl⟩),?_⟩
          have htype := (hadded.uninit e₀.numActs le_rfl (hentered.uninit_lt hadded hfirst.1)).1
          simp [onLocation,ModelAction.isWait,htype,hentered.uninit hfirst.1,hfirst.2]
        · cases ha
      · exact .inl ha
    · rcases List.mem_append.mp ha with ha | ha
      · rw [ownLocation] at ha
        split at ha
        · obtain rfl := List.mem_singleton.mp ha
          refine .inr ⟨hfresh,?_⟩
          rw [hact]
          simp_all [onLocation]
        · cases ha
      · rw [waitLocation] at ha
        split at ha
        · obtain rfl := List.mem_singleton.mp ha
          refine .inr ⟨hfresh,?_⟩
          rw [hact]
          simp_all [onLocation]
        · cases ha

/-- A new action enters the lists, and has no source yet. -/
theorem Sourced.enter (h : e.Sourced none) (ha : e.Awaits) (hj : Joined e e') :
    e'.Sourced (some e.numActs) := by
  refine ⟨fun a hmem w hw => ?_,fun p hp r hr r' hr' => ?_,?_,fun a hmem hread => ?_⟩
  · rcases hj.mem a hmem with hold | ⟨hunread,-⟩
    · rw [(hj.keep a hold).2] at hw ⊢
      obtain ⟨hwmem,hplace⟩ := h.past a hold w hw
      rw [(hj.keep w hwmem).2]
      exact ⟨(hj.keep w hwmem).1,hplace⟩
    · cases hunread.1.symm.trans hw
  · rw [hj.promises] at hp
    rw [hj.proms] at hr hr'
    rw [(hj.keep r (ha.reader p hp r hr).1).2,(hj.keep r' (ha.reader p hp r' hr').1).2]
    exact h.waiting p hp r hr r' hr'
  · refine h.read.imp hj.flagged.mpr fun hreads a hmem hisread hne => ?_
    rcases hj.mem a hmem with hold | ⟨-,rfl | htype⟩
    · rw [(hj.keep a hold).2] at hisread ⊢
      exact hreads a hold hisread (by simp)
    · exact absurd rfl hne
    · simp [ModelAction.isRead,htype] at hisread
  · rcases hj.mem a hmem with hold | ⟨hunread,-⟩
    · rw [(hj.keep a hold).2] at hread ⊢
      exact h.only a hold hread
    · exact absurd hunread hread

/-- A promise that a read may read from is on its location. -/
theorem promiseReads_location {ps ps' : List PromiseId}
    (h : promiseReads curr ps e = .ok (e',ps')) :
    ∀ p ∈ ps', ∃ e₀ : Execution, KeepsOrder e e₀ ∧ e₀.sameLocation p curr = true := by
  induction ps generalizing e ps' with
  | nil =>
    obtain ⟨_,rfl⟩ : e = e' ∧ [] = ps' := by simpa [promiseReads] using h
    simp
  | cons p ps ih =>
    obtain ⟨⟨e₁,feasible⟩,h₁,h⟩ := ite_bind_eq_ok.mp h
    obtain ⟨⟨e₂,more⟩,h₂,h⟩ := bind_eq_ok.mp h
    obtain ⟨rfl,rfl⟩ : e₂ = e' ∧ _ := by simpa using h
    have hk : KeepsOrder e e₁ := by
      split at h₁
      · exact OrderSteps.keepsOrder (tryRead_order h₁)
      · obtain rfl : e = e₁ := congrArg Prod.fst (Except.ok.inj h₁)
        exact .refl e
    intro q hq
    have hmore : q ∈ more → ∃ e₀ : Execution, KeepsOrder e e₀ ∧ e₀.sameLocation q curr = true :=
      fun hq => (ih h₂ q hq).imp fun e₀ hlocation => ⟨hk.trans hlocation.1,hlocation.2⟩
    cases feasible with
    | true =>
      rcases List.mem_cons.mp hq with rfl | hq
      · split at h₁
        · rename_i hsame
          exact ⟨e,.refl e,hsame⟩
        · cases congrArg Prod.snd (Except.ok.inj h₁)
      · exact hmore hq
    | false => exact hmore hq

theorem KeepsOrder.sameLocation (h : KeepsOrder e e') (p : PromiseId) (a : ActionId) :
    e'.sameLocation p a = e.sameLocation p a := by
  unfold Execution.sameLocation
  rw [h.readers]
  cases (e.proms p).readers.head? with
  | none => rfl
  | some r => exact sameVar_of_keeps (h.keeps r) (h.keeps a)

theorem checkRead_fits {newlyExplored : Bool} {node : Choices}
    (hread : e.checkRead curr newlyExplored node.readFrom = some e') (h : e.Sourced fresh)
    (ha : e.Awaits) (hcurr : (e.acts curr).isRead = true) : e'.SourceFits curr node where
  past rf hnode := checkRead_past (hnode ▸ hread)
  promise p hnode := by
    obtain ⟨hk,hsource⟩ := checkRead_keepsOrder hread
    obtain ⟨⟨built,past,promises⟩,hbuilt,hread⟩ := Option.bind_eq_some_iff.mp hread
    obtain ⟨_,hguard,-⟩ := Option.bind_eq_some_iff.mp hread
    have hmem : p ∈ promises := by
      have hguard := guard_eq_some.mp hguard
      rw [hnode] at hguard
      exact List.contains_iff_mem.mp hguard
    obtain ⟨_,_,hbuilt⟩ := bind_eq_ok.mp (toOption_eq_some.mp hbuilt)
    obtain ⟨⟨e₁,_⟩,h₁,hbuilt⟩ := bind_eq_ok.mp hbuilt
    obtain ⟨⟨e₂,ps⟩,h₂,hbuilt⟩ := bind_eq_ok.mp hbuilt
    have hps : ps = promises := by
      dsimp only at hbuilt
      split at hbuilt
      · exact (Prod.mk.inj (Prod.mk.inj (Except.ok.inj hbuilt)).2).2
      · exact (Prod.mk.inj (Prod.mk.inj (Except.ok.inj hbuilt)).2).2
    obtain ⟨e₀,hk₀,hsame⟩ := promiseReads_location h₂ p (hps ▸ hmem)
    have hk₁ := (OrderSteps.keepsOrder (pastReadsThreads_order h₁)).trans hk₀
    have hp := hsource p hnode
    refine ⟨hk.promises.symm ▸ hp,fun r hr => ?_⟩
    rw [hk.readers] at hr
    rw [(hk.keeps r).location,(hk.keeps curr).location]
    exact h.readers_location ha hp (isWait_of_isRead hcurr) (hk₁.sameLocation p curr ▸ hsame) r hr

/-- A promise that may be kept has no reader that happens before the write. -/
theorem checkKept_spec {index : Option ℕ} (h : e.checkKept curr index = true) :
    ∀ i, index = some i → (e.acts curr).isWrite = true ∧ ∀ p, e.promises[i]? = some p →
      ∀ r ∈ (e.proms p).readers, e.happensBefore r curr = false := by
  rintro i rfl
  rw [checkKept,Bool.and_eq_true] at h
  refine ⟨h.1,fun p hp r hr => ?_⟩
  obtain ⟨⟨q,j⟩,hq,hkept⟩ := List.mem_filterMap.mp (List.contains_iff_mem.mp h.2)
  split at hkept
  · rename_i hnone
    obtain rfl : j = i := Option.some.inj hkept
    obtain rfl : p = q := Option.some.inj (hp.symm.trans (List.mem_zipIdx_iff_getElem?.mp hq))
    simp only [Bool.and_eq_true,Bool.not_eq_true',List.any_eq_false,Bool.or_eq_true,not_or,
      Bool.not_eq_true] at hnone
    exact (hnone.2 r hr).1
  · cases hkept

theorem beginAction_sourced {params : ExecutionParams} {act : ModelAction} {newlyExplored : Bool}
    {node : Choices} (hbegin : e.beginAction params act newlyExplored node = some (e',curr))
    (h : e.Sourced none) (ho : e.Ordered none) (hv : e.Valid) (hr : e.Recorded)
    (huser : act.tid ≠ 0) (hthread : act.tid < e.threads.length) (hunread : Unread act)
    (hrmwr : (act.isRmwc || act.isRmw) = true → ∀ a, e.getLastAction act.tid = some a →
      (e.acts a).isRmwr = true) :
    e'.KeepsOther curr node ∧ ((act.isRmwc || act.isRmw) = true ∧ e'.Sourced none ∨
      (act.isRmwc || act.isRmw) = false ∧ e'.Sourced (some curr) ∧ (e'.acts curr).isRmw = false ∧
        ((e'.acts curr).isRead = true → e'.SourceFits curr node)) := by
  have hordered := beginAction_ordered hbegin ho hv hr huser hthread hunread hrmwr
  obtain ⟨⟨e₁,curr₁⟩,hinit,hbegin⟩ := Option.bind_eq_some_iff.mp hbegin
  have hinit := toOption_eq_some.mp hinit
  obtain ⟨_,hkept,hbegin⟩ := Option.bind_eq_some_iff.mp hbegin
  have hkept := checkKept_spec (guard_eq_some.mp hkept)
  unfold initializeCurrAction at hinit
  by_cases hsecond : (act.isRmwc || act.isRmw) = true
  · rw [if_pos hsecond] at hinit
    rw [if_pos hsecond] at hbegin
    obtain ⟨rfl,rfl⟩ : e₁ = e' ∧ curr₁ = curr := by simpa using hbegin
    obtain ⟨hlast,hsteps⟩ := processRmw_steps hinit
    have hdone : e₁.Ordered none :=
      hordered.elim (fun h => h.2) fun h => by cases h.1.symm.trans hsecond
    have hmem : curr₁ ∈ e₁.actionTrace :=
      (MemSteps.frame hsteps).actionTrace.symm ▸ hr.last _ _ huser hlast
    refine ⟨fun i hnode p hp hcurr => ?_,
      .inl ⟨hsecond,h.secondPart hlast hsecond (hrmwr hsecond _ hlast) hinit⟩⟩
    have hbefore := hdone.listed.happensBefore hmem rfl le_rfl
    cases ((hkept i hnode).2 p hp curr₁ hcurr).symm.trans hbefore
  · rw [if_neg hsecond] at hinit
    rw [if_neg hsecond] at hbegin
    obtain ⟨rfl,rfl⟩ : (e.newAction act).1 = e₁ ∧ e.numActs = curr₁ := by
      simpa [newAction] using hinit
    obtain ⟨_,_,hbegin⟩ := Option.bind_eq_some_iff.mp hbegin
    obtain ⟨e₂,hadd,hbegin⟩ := Option.bind_eq_some_iff.mp hbegin
    have hadd := toOption_eq_some.mp hadd
    have hsourced := h.enter ho.awaits (joined hr hthread hunread hadd)
    have hentered := (ho.enter hr huser hthread hunread hadd).1
    have hadded := addActionToLists_added hadd (by rw [newAction_act]; exact hthread)
    have hrmw : (e'.acts curr).isRmw = false :=
      hordered.elim (fun h => absurd h.1 hsecond) fun h => h.2.2.isRmw
    -- the new action waits for no promise
    have hnew : e₂.KeepsOther e.numActs node := fun i _ p hp hcurr => by
      have hp := List.mem_of_getElem? hp
      rw [hadded.promises] at hp
      rw [hadded.proms] at hcurr
      exact Nat.lt_irrefl _ (hr.old _ (ho.awaits.reader p hp _ hcurr).1).1
    split at hbegin
    · rename_i hisread
      obtain ⟨e₃,hread,hbegin⟩ := Option.bind_eq_some_iff.mp hbegin
      obtain ⟨rfl,rfl⟩ : e₃ = e' ∧ e.numActs = curr := by simpa using hbegin
      have hk := (checkRead_keepsOrder hread).1
      exact ⟨hnew.keepsOrder hk,.inr ⟨Bool.not_eq_true _ ▸ hsecond,hsourced.keepsOrder hk,hrmw,
        fun _ => checkRead_fits hread hsourced hentered.awaits hisread⟩⟩
    · rename_i hnotread
      obtain ⟨rfl,rfl⟩ : e₂ = e' ∧ e.numActs = curr := by simpa using hbegin
      exact ⟨hnew,.inr ⟨Bool.not_eq_true _ ▸ hsecond,hsourced,hrmw,
        fun hisread => absurd hisread hnotread⟩⟩

theorem sourced_init : Execution.init.Sourced none where
  past := by simp [Execution.init]
  waiting := by simp [Execution.init]
  read := .inr (by simp [Execution.init])
  only := by simp [Execution.init]

end Execution
namespace Config

open Execution

variable {params : ExecutionParams} {c c' : Config}

/-- What a step does to the accesses to memory. -/
inductive OrderChange (params : ExecutionParams) (c : Config) : Config → Prop
  | keeps {c' : Config} (hkeeps : KeepsOrder c.exec c'.exec)
      (hgraph : c'.exec.moGraph = c.exec.moGraph)
      (hfresh : c.fresh = none ∨ c.exec.asserted = true)
      (hdone : ∀ curr secondPartOfRmw node queue,
        c'.phase = .work curr secondPartOfRmw node queue →
          c.phase = c'.phase ∧ WorkItem.checkCurrAction ∉ queue) :
      OrderChange params c c'
  | check {curr : ActionId} {secondPartOfRmw : Bool} {node : Choices} {queue items : List WorkItem}
      {e : Execution}
      (hphase : c.phase = .work curr secondPartOfRmw node (.checkCurrAction :: queue))
      (hasserted : c.exec.asserted = false)
      (he : c.exec.checkCurrAction curr secondPartOfRmw node = .ok (e,items))
      (hdone : WorkItem.checkCurrAction ∉ queue ++ items) :
      OrderChange params c { c with
        exec := e
        phase := .work curr secondPartOfRmw node (queue ++ items) }
  | later {curr : ActionId} {secondPartOfRmw : Bool} {node : Choices} {item : WorkItem}
      {queue items : List WorkItem} {e : Execution}
      (hphase : c.phase = .work curr secondPartOfRmw node (item :: queue))
      (hfresh : c.fresh = none) (hitem : item ≠ .checkCurrAction)
      (he : c.exec.processWork curr secondPartOfRmw node item = .ok (e,items))
      (hdone : WorkItem.checkCurrAction ∉ queue ++ items) :
      OrderChange params c { c with
        exec := e
        phase := .work curr secondPartOfRmw node (queue ++ items) }
  | take {t : ThreadId} {taken e : Execution} {act : ModelAction} {curr : ActionId}
      {newlyExplored : Bool} {node : Choices} (hfresh : c.fresh = none)
      (hpending : c.exec.pendingOf t = some act) (hkeeps : KeepsOrder c.exec taken)
      (hgraph : taken.moGraph = c.exec.moGraph)
      (hvalid : taken.Valid) (hrecorded : taken.Recorded) (huser : act.tid ≠ 0)
      (hthread : act.tid < taken.threads.length) (hunread : Unread act)
      (hrmwr : (act.isRmwc || act.isRmw) = true → ∀ a, taken.getLastAction act.tid = some a →
        (taken.acts a).isRmwr = true)
      (hbegin : taken.beginAction params act newlyExplored node = some (e,curr)) :
      OrderChange params c ⟨e,.work curr (act.isRmwc || act.isRmw) node [.checkCurrAction],none⟩

theorem Change.orderChange (h : Change params c c') (hv : c.Valid) (hr : c.Recorded)
    (ho : c.Ordered) : OrderChange params c c' := by
  have hnone : ∀ {phase}, c.phase = phase → (∀ curr secondPartOfRmw node queue,
      phase ≠ .work curr secondPartOfRmw node queue) → c.fresh = none :=
    fun hphase hwork => fresh_of_phase (hphase ▸ hwork)
  cases h with
  | constructMutex i address parent hphase hneeds hparent =>
    refine .keeps (SameMemory.keepsOrder ?_) rfl (.inl (hnone hphase (by simp))) (by simp [hphase])
    exact { SameMemory.refl c.exec with flagged := id }
  | reportBug hphase hdone =>
    refine .keeps c.exec.assertBug_sameMemory.keepsOrder c.exec.assertBug_sameMemory.moGraph
      (.inl ?_)
      fun curr second node queue hwork => ⟨rfl,hdone _ _ _ _ hwork⟩
    cases hwork : c.phase with
    | work curr secondPartOfRmw node queue => exact not_mem_of_work hwork (hdone _ _ _ _ hwork)
    | _ => exact hnone hwork (by simp)
  | act i type order location value e hphase hneeds htyped hfollows he =>
    obtain ⟨-,rfl⟩ := switchFromMaster_spec he
    refine .keeps (SameMemory.keepsOrder ?_) rfl (.inl (hnone hphase (by simp))) (by simp)
    exact { SameMemory.refl c.exec with flagged := id }
  | skip i hphase hneeds hi =>
    exact .keeps (.refl _) rfl (.inl (hnone hphase (by simp))) (by simp)
  | sleepDisabled i e hphase hneeds hi he =>
    have hsteps : ThreadSteps 0 c.exec e := sleepDisabled_threadSteps he
    refine .keeps hsteps.keepsOrder hsteps.moGraph (.inl (hnone hphase (by simp)))
      fun curr second node queue => ?_
    split <;> simp
  | detect i deadlock hphase hdeadlock =>
    have hbug : SameMemory c.exec (if deadlock then c.exec.assertBug else c.exec) := by
      split
      · exact c.exec.assertBug_sameMemory
      · exact .refl _
    exact .keeps hbug.keepsOrder hbug.moGraph (.inl (hnone hphase (by simp))) (by simp)
  | work curr secondPartOfRmw node item queue items e hphase hasserted he =>
    obtain ⟨-,-,hqueue⟩ := hv.curr _ _ _ _ hphase
    have hitems := processWork_items he
    have hrest : WorkItem.checkCurrAction ∉ queue ++ items := by
      rcases hqueue with hqueue | hqueue
      · obtain ⟨-,rfl⟩ := List.cons.inj hqueue
        exact hitems
      · simp only [List.mem_cons,not_or] at hqueue
        simp [hqueue.2,hitems]
    by_cases hitem : item = .checkCurrAction
    · subst hitem
      exact .check hphase hasserted he hrest
    · have hold : WorkItem.checkCurrAction ∉ item :: queue :=
        hqueue.resolve_left fun hqueue => hitem (List.cons.inj hqueue).1
      exact .later hphase (not_mem_of_work hphase hold) hitem he hrest
  | finish curr secondPartOfRmw node queue hphase hdone =>
    refine .keeps (finishStep_sameMemory params c.exec curr).keepsOrder
      (finishStep_sameMemory params c.exec curr).moGraph ?_
      fun curr' second' node' queue' hwork => ?_
    · refine hdone.imp (fun hqueue => ?_) id
      subst hqueue
      exact not_mem_of_work hphase (by simp)
    · have hends := finishStep_phase params c.exec curr
      rcases hends with h | h <;> cases h.symm.trans hwork
  | takeStep t newlyExplored node e e' act curr hphase hnext hpending hbegin =>
    obtain ⟨th,hth,hact,_,rfl,_⟩ := takePending_spec hpending
    have hvp := hv.exec.pending t th act hth hact
    have hsame : SameMemory c.exec (c.exec.modifyThread t fun th => { th with pending := none }) :=
      { SameMemory.refl c.exec with flagged := id }
    have hlt : act.tid <
        (c.exec.modifyThread t fun th => { th with pending := none }).threads.length := by
      rw [hvp.tid,modifyThread,List.length_modify]
      exact (List.getElem?_eq_some_iff.mp hth).1
    have hpendingOf : c.exec.pendingOf t = some act :=
      Option.bind_eq_some_iff.mpr ⟨th,hth,hact⟩
    exact .take (hnone hphase (by simp)) hpendingOf hsame.keepsOrder rfl (hv.exec.take t)
      (hr.exec.setState t (fun th => { th with pending := none }) (fun _ => rfl)
        fun th' _ => ⟨id,.inl⟩) (hvp.tid ▸ hvp.user) hlt
      (ho.unread t act hpendingOf) (fun hrmw a ha => hvp.rmwr hrmw a (hvp.tid ▸ ha)) hbegin

/-- The work that follows the processing of the action. -/
theorem processWork_keepsOrder {e e' : Execution} {curr : ActionId} {secondPartOfRmw : Bool}
    {node : Choices} {item : WorkItem} {items : List WorkItem} (hitem : item ≠ .checkCurrAction)
    (h : e.processWork curr secondPartOfRmw node item = .ok (e',items)) : KeepsOrder e e' := by
  cases item with
  | checkCurrAction => exact absurd rfl hitem
  | checkReleaseSeq location => exact OrderSteps.keepsOrder (resolveReleaseSequences_order h)
  | checkMoEdges act => exact OrderSteps.keepsOrder (checkMoEdges_order h)

structure Sourced (c : Config) : Prop where
  exec : c.exec.Sourced c.fresh
  keeps : ∀ curr secondPartOfRmw node queue, c.phase = .work curr secondPartOfRmw node queue →
    WorkItem.checkCurrAction ∈ queue → c.exec.KeepsOther curr node
  source : ∀ curr node queue, c.phase = .work curr false node queue →
    WorkItem.checkCurrAction ∈ queue → (c.exec.acts curr).isRead = true →
    c.exec.SourceFits curr node

/-- Nothing is left to be processed. -/
theorem Sourced.of_done (h : c.exec.Sourced none)
    (hdone : ∀ curr secondPartOfRmw node queue, c.phase = .work curr secondPartOfRmw node queue →
      WorkItem.checkCurrAction ∉ queue) : c.Sourced where
  exec := by
    cases hwork : c.phase with
    | work curr secondPartOfRmw node queue =>
      rw [not_mem_of_work hwork (hdone _ _ _ _ hwork)]
      exact h
    | _ =>
      rw [fresh_of_phase (by simp [hwork])]
      exact h
  keeps _ _ _ _ hwork hmem := absurd hmem (hdone _ _ _ _ hwork)
  source _ _ _ hwork hmem := absurd hmem (hdone _ _ _ _ hwork)

theorem OrderChange.sourced (h : OrderChange params c c') (hv : c.Valid) (hr : c.Recorded)
    (ho : c.Ordered) (hs : c.Sourced) : c'.Sourced := by
  cases h with
  | keeps hkeeps _ hfresh hdone =>
    refine .of_done ?_ fun curr second node queue hwork => (hdone _ _ _ _ hwork).2
    rcases hfresh with hnone | hasserted
    · exact (hnone ▸ hs.exec).keepsOrder hkeeps
    · have hflagged : c'.exec.Flagged :=
        hkeeps.flagged (.inr (.inr (.inr (.inr (.inr hasserted)))))
      exact (hs.exec.keepsOrder hkeeps).flagged hflagged none
  | @check curr secondPartOfRmw node queue items e hphase hasserted he hdone =>
    have hmem : WorkItem.checkCurrAction ∈ WorkItem.checkCurrAction :: queue := List.mem_cons_self
    have hsourced := hs.exec
    rw [mem_of_work hphase hmem] at hsourced
    refine .of_done ?_ fun curr' second' node' queue' hwork => ?_
    · refine checkCurrAction_sourced hv.exec ho.exec (hr.curr _ _ _ _ hphase) hasserted he
        (hs.keeps _ _ _ _ hphase hmem) ?_
      cases secondPartOfRmw with
      | true => exact .inl ⟨rfl,hsourced⟩
      | false =>
        exact .inr ⟨rfl,hsourced,(ho.curr _ _ _ hphase hmem).isRmw,hs.source _ _ _ hphase hmem⟩
    · simp only [Phase.work.injEq] at hwork
      exact hwork.2.2.2 ▸ hdone
  | @later curr secondPartOfRmw node item queue items e hphase hfresh hitem he hdone =>
    refine .of_done ((hfresh ▸ hs.exec).keepsOrder (processWork_keepsOrder hitem he))
      fun curr' second' node' queue' hwork => ?_
    simp only [Phase.work.injEq] at hwork
    exact hwork.2.2.2 ▸ hdone
  | @take t taken e act curr newlyExplored node hfresh _ hkeeps _ hvalid hrecorded huser hthread
      hunread hrmwr hbegin =>
    obtain ⟨hother,hbegun⟩ := beginAction_sourced hbegin ((hfresh ▸ hs.exec).keepsOrder hkeeps)
      ((hfresh ▸ ho.exec).keepsOrder hkeeps) hvalid hrecorded huser hthread hunread hrmwr
    refine ⟨?_,fun curr' second' node' queue' hwork _ => ?_,fun curr' node' queue' hwork _ => ?_⟩
    · rw [mem_of_work rfl List.mem_cons_self]
      rcases hbegun with ⟨hsecond,hdone⟩ | ⟨hsecond,hdone,-⟩
      · rw [hsecond]
        exact hdone
      · rw [hsecond]
        exact hdone
    · simp only [Phase.work.injEq] at hwork
      obtain ⟨rfl,-,rfl,-⟩ := hwork
      exact hother
    · simp only [Phase.work.injEq] at hwork
      obtain ⟨rfl,hsecond,rfl,-⟩ := hwork
      rcases hbegun with ⟨hsecond',-⟩ | ⟨-,-,-,hfits⟩
      · cases hsecond'.symm.trans hsecond
      · exact hfits

theorem sourced_init : init.Sourced := .of_done Execution.sourced_init fun _ _ _ _ h => by cases h

theorem Reachable.sourced (h : Reachable params c) : c.Sourced := by
  refine reachable_invariant sourced_init (fun c c' hc hs hchange => ?_) h
  obtain ⟨hsane,-⟩ := hc.informed
  exact (hchange.orderChange hsane.valid hsane.recorded hsane.ordered).sourced hsane.valid
    hsane.recorded hsane.ordered hs

end Config
namespace Execution

/-- Each read has one source: a write to its location, or a pending promise that knows it. -/
structure ReadsSourced (e : Execution) (fresh : Option ActionId) : Prop where
  past : ∀ a ∈ e.actionTrace, ∀ w, (e.acts a).readsFrom = some w →
    (e.acts a).isRead = true ∧ w ∈ e.actionTrace ∧ (e.acts w).isWrite = true ∧
      (e.acts w).location = (e.acts a).location ∧ w ≠ a
  waiting : ∀ a ∈ e.actionTrace, ∀ p, (e.acts a).readsFrom = none →
    (e.acts a).readsFromPromise = some p →
      (e.acts a).isRead = true ∧ p ∈ e.promises ∧ a ∈ (e.proms p).readers
  readers : ∀ p ∈ e.promises, ∀ a ∈ (e.proms p).readers, a ∈ e.actionTrace ∧
    (e.acts a).readsFrom = none ∧ (e.acts a).readsFromPromise = some p ∧
      ∀ b ∈ (e.proms p).readers, (e.acts b).location = (e.acts a).location
  sourced : e.Flagged ∨ ∀ a ∈ e.actionTrace, (e.acts a).isRead = true → some a ≠ fresh →
    (e.acts a).readsFrom ≠ none ∨ (e.acts a).readsFromPromise ≠ none

theorem Sourced.all {e : Execution} {fresh : Option ActionId} (h : e.Sourced fresh)
    (ha : e.Awaits) : e.ReadsSourced fresh where
  past a hmem w hw := by
    refine ⟨h.only a hmem fun hunread => ?_,h.past a hmem w hw⟩
    cases hunread.1.symm.trans hw
  waiting a hmem p hnone hp := by
    refine ⟨h.only a hmem fun hunread => ?_,ha.pending a hmem p hnone hp⟩
    cases hunread.2.symm.trans hp
  readers p hp a har := by
    obtain ⟨hmem,hnone,hpromise⟩ := ha.reader p hp a har
    exact ⟨hmem,hnone,hpromise,fun b hb => h.waiting p hp b hb a har⟩
  sourced := h.read.imp id fun hread a hmem hisread hne => by
    rw [← not_and_or]
    exact hread a hmem hisread hne

end Execution
namespace Config

open Execution

variable {params : ExecutionParams} {c : Config}

/-- In every run, each processed read has a source; once the execution is feasible, with no promise
left, the trace is complete. -/
theorem Reachable.readsSourced (h : Reachable params c) : c.exec.ReadsSourced c.fresh ∧
    (c.fresh = none → c.exec.isfeasibleprefix = true → c.exec.asserted = false →
      CompleteTrace c.exec) := by
  have hsourced := h.sourced.exec.all h.ordered.exec.awaits
  refine ⟨hsourced,fun hfresh hfeasible hasserted => ⟨h.recorded,fun a ha hread => ?_⟩⟩
  unfold isfeasibleprefix isFeasiblePrefixIgnoreRelseq isInfeasible at hfeasible
  simp only [Bool.and_eq_true,Bool.not_eq_true',Bool.or_eq_false_iff,
    List.isEmpty_iff] at hfeasible
  obtain ⟨-,⟨hflags,hpromises⟩,-⟩ := hfeasible
  constructor
  · intro htid
    have hplace := h.ordered.exec.listed.all a ha
    rw [htid] at hplace
    have htype := (h.noded.exec.rooted _ a hplace).1
    simp [ModelAction.isRead,htype] at hread
  · have hreads := hsourced.sourced.resolve_left (by simp [Flagged,hasserted,hflags])
    have hsource := hreads a ha hread (by simp [hfresh])
    cases hrf : (c.exec.acts a).readsFrom with
    | some w => exact ⟨w,(hsourced.past a ha w hrf).2.1,rfl⟩
    | none =>
      obtain ⟨p,hp⟩ := Option.ne_none_iff_exists'.mp (hsource.resolve_left (by simp [hrf]))
      have hmem := (hsourced.waiting a ha p hrf hp).2.1
      simp [hpromises] at hmem

theorem readsSourced_handedOver : ∃ c, Reachable {} c ∧ c.exec.ReadsSourced c.fresh ∧
    CompleteTrace c.exec ∧ ∃ a ∈ c.exec.actionTrace, (c.exec.acts a).readsFrom = some 3 := by
  obtain ⟨c,hc,hplay⟩ := exists_play {} handedOver
    (fun c => c.fresh = none ∧ c.exec.isfeasibleprefix = true ∧ c.exec.asserted = false ∧
      ∃ a ∈ c.exec.actionTrace, (c.exec.acts a).readsFrom = some 3) (by decide +kernel)
  obtain ⟨hfresh,hfeasible,hasserted,hread⟩ := of_decide_eq_true hplay
  obtain ⟨hsourced,hcomplete⟩ := hc.readsSourced
  exact ⟨c,hc,hsourced,hcomplete hfresh hfeasible hasserted,hread⟩

end Config
end CdsChecker
