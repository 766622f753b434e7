import CdsChecker.Validity

/-! What the run loop records in the trace of an execution. -/
namespace CdsChecker

/-- The same action, up to what does not place it: the two parts of an RMW count as the same. -/
structure ModelAction.Places (a b : ModelAction) : Prop where
  tid : b.tid = a.tid
  seqNumber : b.seqNumber = a.seqNumber
  location : b.location = a.location
  atomic : b.isAtomicVar = a.isAtomicVar
  operand : b.getThreadOperand = a.getThreadOperand
  on : ∀ l, Execution.onLocation b l = Execution.onLocation a l

namespace ModelAction.Places

theorem refl (a : ModelAction) : a.Places a := ⟨rfl,rfl,rfl,rfl,rfl,fun _ => rfl⟩

theorem of_keeps {a b : ModelAction} (h : a.Keeps b) : a.Places b where
  tid := h.tid
  seqNumber := h.seqNumber
  location := h.location
  atomic := by
    simp only [ModelAction.isAtomicVar,ModelAction.couldBeWrite,ModelAction.isRead,
      ModelAction.isWrite,ModelAction.isRmwr,h.type]
  operand := by rw [getThreadOperand,getThreadOperand,h.type,h.location]
  on l := by
    simp only [Execution.onLocation,ModelAction.isWait,h.type,h.location]
    cases hwait : a.type == .atomicWait with
    | false => simp
    | true =>
      have htry : a.isTrylock = false := by
        rw [isTrylock,beq_iff_eq.mp hwait]
        rfl
      rw [h.value htry]

/-- The second part of an RMW. -/
theorem processRmw {a act : ModelAction} (hact : (act.isRmwc || act.isRmw) = true)
    (ha : a.isRmwr = true) : a.Places (a.processRmw act) := by
  have htype : a.type = .atomicRmwr := beq_iff_eq.mp ha
  have hsim := Execution.processRmw_similar hact ha
  have hnew : (a.processRmw act).type = .atomicRead ∨ (a.processRmw act).type = .atomicRmw := by
    unfold ModelAction.processRmw
    cases hc : act.isRmwc with
    | true => exact .inl rfl
    | false =>
      have hr : act.isRmw = true := by simpa [hc] using hact
      simp [hr]
  refine ⟨hsim.2.1,hsim.2.2.2.1,hsim.2.2.1,?_,?_,fun l => ?_⟩
  · simp only [isAtomicVar,isRead,couldBeWrite,isWrite,isRmwr,htype]
    rcases hnew with hnew | hnew <;> simp [hnew]
  · unfold getThreadOperand
    rcases hnew with hnew | hnew <;> simp [hnew,htype]
  · have hwait : a.isWait = false := by
      rw [isWait,htype]
      rfl
    simp only [Execution.onLocation,hsim.1,hsim.2.2.1,hwait,Bool.false_and]

end ModelAction.Places

namespace Execution

/-- The trace: first the uninitialized actions of the model thread, then the actions of the
program in execution order. A created thread acts after its creation, and a join after the last
action of a completed thread. -/
structure Recorded (e : Execution) : Prop where
  parts : ∃ us rest, e.actionTrace = us ++ rest ∧ (∀ u ∈ us, (e.acts u).tid = 0) ∧
    (∀ a ∈ rest, (e.acts a).tid ≠ 0 ∧ 0 < (e.acts a).seqNumber) ∧
    rest.Pairwise fun a b => (e.acts a).seqNumber < (e.acts b).seqNumber
  old : ∀ a ∈ e.actionTrace, a < e.numActs ∧ (e.acts a).seqNumber ≤ e.usedSequenceNumbers ∧
    (e.acts a).tid < e.threads.length
  last : ∀ t a, t ≠ 0 → e.getLastAction t = some a → a ∈ e.actionTrace
  created : ∀ (t : ThreadId) (th : Thread) c, e.threads[t]? = some th → t ≠ 0 →
    th.creation = some c → c ∈ e.actionTrace ∧
      ∀ a ∈ e.actionTrace, (e.acts a).tid = t → (e.acts c).seqNumber < (e.acts a).seqNumber
  completed : ∀ (t : ThreadId) (th : Thread), e.threads[t]? = some th → th.state = .completed →
    t ≠ 0 ∧ ∃ a, e.getLastAction t = some a
  joined : ∀ a ∈ e.actionTrace, ∀ u, (e.acts a).getThreadOperand = some u →
    e.isComplete u = true ∧ ∀ f, e.getLastAction u = some f →
      (e.acts f).seqNumber < (e.acts a).seqNumber
  objMap : ∀ l, e.objMap l ≠ [] → ∃ b ∈ e.actionTrace, onLocation (e.acts b) l = true
  atomic : ∀ a ∈ e.actionTrace, (e.acts a).isAtomicVar = true →
    (∃ u ∈ e.actionTrace, (e.acts u).tid = 0) ∨ ∃ b ∈ e.actionTrace,
      onLocation (e.acts b) (e.acts a).location = true ∧ (e.acts b).isAtomicVar = false

theorem Recorded.sorted {e : Execution} (h : e.Recorded) : e.actionTrace.Pairwise fun a b =>
    (e.acts a).tid ≠ 0 → (e.acts b).tid ≠ 0 → (e.acts a).seqNumber < (e.acts b).seqNumber := by
  obtain ⟨us,rest,hsplit,hus,hrest,hsorted⟩ := h.parts
  rw [hsplit]
  refine List.pairwise_append.mpr ⟨?_,hsorted.imp fun hlt _ _ => hlt,fun a ha b _ hne => ?_⟩
  · exact List.pairwise_of_forall_mem_list fun a ha b _ hne => absurd (hus a ha) hne
  · exact absurd (hus a ha) hne

/-- The part of the trace before an action, and the part after it. -/
theorem Recorded.split {e : Execution} (h : e.Recorded) {r : ActionId} (hr : r ∈ e.actionTrace)
    (hne : (e.acts r).tid ≠ 0) : ∃ older newer, e.actionTrace = older ++ r :: newer ∧
      (∀ a ∈ older, (e.acts a).tid ≠ 0 → (e.acts a).seqNumber < (e.acts r).seqNumber) ∧
      ∀ a ∈ newer, (e.acts a).tid ≠ 0 → (e.acts r).seqNumber < (e.acts a).seqNumber := by
  obtain ⟨older,newer,hsplit⟩ := List.append_of_mem hr
  have hsorted := h.sorted
  rw [hsplit,List.pairwise_append,List.pairwise_cons] at hsorted
  obtain ⟨-,⟨hnewer,-⟩,holder⟩ := hsorted
  exact ⟨older,newer,hsplit,fun a ha hna => holder a ha r List.mem_cons_self hna hne,
    fun a ha hna => hnewer a ha hne hna⟩

theorem Recorded.seqNumber_injective {e : Execution} (h : e.Recorded) {a b : ActionId}
    (ha : a ∈ e.actionTrace)
    (hb : b ∈ e.actionTrace) (hna : (e.acts a).tid ≠ 0) (hnb : (e.acts b).tid ≠ 0)
    (heq : (e.acts a).seqNumber = (e.acts b).seqNumber) : a = b := by
  obtain ⟨older,newer,hsplit,holder,hnewer⟩ := h.split ha hna
  rw [hsplit,List.mem_append,List.mem_cons] at hb
  rcases hb with hb | rfl | hb
  · exact absurd heq.symm (Nat.ne_of_lt (holder b hb hnb))
  · rfl
  · exact absurd heq (Nat.ne_of_lt (hnewer b hb hnb))

theorem isComplete_iff {e : Execution} {t : ThreadId} :
    e.isComplete t = true ↔ ∃ th, e.threads[t]? = some th ∧ th.state = .completed := by
  simp [isComplete,Option.any_eq_true]

/-- A thread that stays, or a new one. -/
structure ThreadsGo (e e' : Execution) : Prop where
  old : ∀ (t : ThreadId) (th : Thread), e.threads[t]? = some th → ∃ th',
    e'.threads[t]? = some th' ∧ th'.creation = th.creation ∧
      (th.state = .completed → th'.state = .completed) ∧
      (th'.state = .completed → th.state = .completed ∨ t ≠ 0 ∧ ∃ a, e.getLastAction t = some a)
  new : ∀ (t : ThreadId) (th' : Thread), e'.threads[t]? = some th' → e.threads.length ≤ t →
    th'.state ≠ .completed ∧ ∀ c, th'.creation = some c → c ∈ e.actionTrace

theorem ThreadsGo.of_eq {e e' : Execution} (h : e'.threads = e.threads) : ThreadsGo e e' where
  old t th hth := ⟨th,h ▸ hth,rfl,id,.inl⟩
  new t th' hth' ht := by
    rw [h,List.getElem?_eq_none ht] at hth'
    cases hth'

/-- A step that adds no action. -/
theorem Recorded.step {e e' : Execution} (h : e.Recorded) (hlists : SameLists e e')
    (hacts : ∀ a, (e.acts a).Places (e'.acts a)) (hthreads : ThreadsGo e e') : e'.Recorded := by
  have hlen : e.threads.length ≤ e'.threads.length := by
    by_contra hlt
    obtain ⟨th,hth⟩ : ∃ th, e.threads[e'.threads.length]? = some th :=
      ⟨_,List.getElem?_eq_getElem (Nat.lt_of_not_le hlt)⟩
    obtain ⟨th',hth',-⟩ := hthreads.old _ th hth
    rw [List.getElem?_eq_none (Nat.le_refl _)] at hth'
    cases hth'
  have hback : ∀ (t : ThreadId) (th' : Thread), e'.threads[t]? = some th' →
      t < e.threads.length → ∃ th, e.threads[t]? = some th ∧ th'.creation = th.creation ∧
        (th'.state = .completed → th.state = .completed ∨
          t ≠ 0 ∧ ∃ a, e.getLastAction t = some a) := by
    intro t th' hth' ht
    obtain ⟨th'',hth'',hcreation,-,hstate⟩ := hthreads.old t _ (List.getElem?_eq_getElem ht)
    cases hth''.symm.trans hth'
    exact ⟨_,List.getElem?_eq_getElem ht,hcreation,hstate⟩
  have hcomplete : ∀ t, e.isComplete t = true → e'.isComplete t = true := by
    intro t ht
    obtain ⟨th,hth,hstate⟩ := isComplete_iff.mp ht
    obtain ⟨th',hth',-,hkeep,-⟩ := hthreads.old t th hth
    exact isComplete_iff.mpr ⟨th',hth',hkeep hstate⟩
  apply Recorded.mk
  · obtain ⟨us,rest,hsplit,hus,hrest,hsorted⟩ := h.parts
    refine ⟨us,rest,hlists.actionTrace.trans hsplit,fun u hu => ?_,fun a ha => ?_,?_⟩
    · rw [(hacts u).tid]
      exact hus u hu
    · rw [(hacts a).tid,(hacts a).seqNumber]
      exact hrest a ha
    · simpa only [(hacts _).seqNumber] using hsorted
  · intro a ha
    rw [hlists.actionTrace] at ha
    obtain ⟨hlt,hseq,htid⟩ := h.old a ha
    rw [hlists.numActs,hlists.usedSequenceNumbers,(hacts a).seqNumber,(hacts a).tid]
    exact ⟨hlt,hseq,Nat.lt_of_lt_of_le htid hlen⟩
  · intro t a ht ha
    rw [hlists.getLastAction] at ha
    rw [hlists.actionTrace]
    exact h.last t a ht ha
  · intro t th' c hth' ht hc
    rw [hlists.actionTrace]
    rcases Nat.lt_or_ge t e.threads.length with hlt | hge
    · obtain ⟨th,hth,hcreation,-⟩ := hback t th' hth' hlt
      obtain ⟨hmem,hafter⟩ := h.created t th c hth ht (hcreation ▸ hc)
      refine ⟨hmem,fun a ha htid => ?_⟩
      rw [(hacts a).tid] at htid
      rw [(hacts c).seqNumber,(hacts a).seqNumber]
      exact hafter a ha htid
    · refine ⟨(hthreads.new t th' hth' hge).2 c hc,fun a ha htid => ?_⟩
      rw [(hacts a).tid] at htid
      exact absurd (h.old a ha).2.2 (Nat.not_lt.mpr (htid ▸ hge))
  · intro t th' hth' hstate
    rw [hlists.getLastAction]
    rcases Nat.lt_or_ge t e.threads.length with hlt | hge
    · obtain ⟨th,hth,-,hback⟩ := hback t th' hth' hlt
      rcases hback hstate with hold | hnew
      · exact h.completed t th hth hold
      · exact hnew
    · exact absurd hstate (hthreads.new t th' hth' hge).1
  · intro a ha u hu
    rw [hlists.actionTrace] at ha
    rw [(hacts a).operand] at hu
    obtain ⟨hdone,hafter⟩ := h.joined a ha u hu
    refine ⟨hcomplete u hdone,fun f hf => ?_⟩
    rw [hlists.getLastAction] at hf
    rw [(hacts f).seqNumber,(hacts a).seqNumber]
    exact hafter f hf
  · intro l hl
    rw [hlists.objMap] at hl
    obtain ⟨b,hb,hon⟩ := h.objMap l hl
    exact ⟨b,hlists.actionTrace ▸ hb,by rw [(hacts b).on]; exact hon⟩
  · intro a ha hatomic
    rw [hlists.actionTrace] at ha ⊢
    rw [(hacts a).atomic] at hatomic
    rcases h.atomic a ha hatomic with ⟨u,hu,htid⟩ | ⟨b,hb,hon,hb'⟩
    · exact .inl ⟨u,hu,(hacts u).tid.trans htid⟩
    · refine .inr ⟨b,hb,?_,(hacts b).atomic.trans hb'⟩
      rw [(hacts b).on,(hacts a).location]
      exact hon

/-- An action enters the list of its location, and the first atomic access to an empty list
brings an uninitialized action along. -/
theorem addActionToLists_first {params : ExecutionParams} {e e' : Execution} {act : ActionId}
    (h : e.addActionToLists params act = .ok e') :
    (∀ l, e'.objMap l ≠ [] → e.objMap l ≠ [] ∨ onLocation (e.acts act) l = true) ∧
      ((e.acts act).isAtomicVar = true → e.objMap (e.acts act).location = [] →
        ∃ u ∈ e'.actionTrace, (e'.acts u).tid = 0) := by
  obtain ⟨_,_,h⟩ := bind_eq_ok.mp h
  dsimp only at h
  have hpushed : ∀ l, (e.pushed act).objMap l ≠ [] →
      e.objMap l ≠ [] ∨ onLocation (e.acts act) l = true := by
    intro l hl
    by_cases hloc : (e.acts act).location = l
    · exact .inr (by simp [onLocation,hloc])
    · exact .inl (by simpa [pushed,pushObj,pushObjThrd,Ne.symm hloc] using hl)
  set e₁ := if ((e.objMap (e.acts act).location).isEmpty && (e.acts act).isAtomicVar) = true then
      ((e.pushed act).getUninitializedAction params (e.acts act).location).1.pushUninit
        (e.acts act).location e.numActs
    else e.pushed act with he₁
  have hmap : ∀ l, e₁.objMap l ≠ [] → e.objMap l ≠ [] ∨ onLocation (e.acts act) l = true := by
    intro l hl
    rw [he₁] at hl
    split at hl
    · by_cases hloc : (e.acts act).location = l
      · exact .inr (by simp [onLocation,hloc])
      · exact hpushed l (by simpa [pushUninit,getUninitializedAction,Ne.symm hloc] using hl)
    · exact hpushed l hl
  have hfirst : (e.acts act).isAtomicVar = true → e.objMap (e.acts act).location = [] →
      e.numActs ∈ e₁.actionTrace ∧ (e₁.acts e.numActs).tid = 0 := by
    intro hatomic hempty
    rw [he₁,if_pos (by simp [hatomic,hempty])]
    simp [pushUninit,getUninitializedAction,pushed,pushObj,pushObjThrd,ModelAction.createCv]
  set e₂ := if ((e.acts act).isFence && (e.acts act).isRelease) = true then
      { e₁ with thrdLastFenceRelease := e₁.setLast e₁.thrdLastFenceRelease act }
    else e₁ with he₂
  have hsame : e₂.objMap = e₁.objMap ∧ e₂.actionTrace = e₁.actionTrace ∧ e₂.acts = e₁.acts := by
    rw [he₂]
    split <;> exact ⟨rfl,rfl,rfl⟩
  by_cases hwait : (e.acts act).isWait = true
  · rw [if_pos hwait] at h
    obtain ⟨_,_,h⟩ := bind_eq_ok.mp h
    obtain rfl : _ = e' := Except.ok.inj h
    refine ⟨fun l hl => ?_,fun hatomic hempty => ?_⟩
    · by_cases hm : Location.object (e.acts act).value = l
      · exact .inr (by simp [onLocation,hwait,hm])
      · have hl' : Function.update e₂.objMap (.object (e.acts act).value)
            (e₂.objMap (.object (e.acts act).value) ++ [act]) l ≠ [] := hl
        rw [Function.update_of_ne (Ne.symm hm),hsame.1] at hl'
        exact hmap l hl'
    · obtain ⟨hmem,hzero⟩ := hfirst hatomic hempty
      rw [← hsame.2.1] at hmem
      rw [← hsame.2.2] at hzero
      exact ⟨e.numActs,hmem,hzero⟩
  · rw [if_neg hwait] at h
    obtain rfl : e₂ = e' := Except.ok.inj h
    refine ⟨fun l hl => hmap l (hsame.1 ▸ hl),fun hatomic hempty => ?_⟩
    obtain ⟨hmem,hzero⟩ := hfirst hatomic hempty
    rw [← hsame.2.1] at hmem
    rw [← hsame.2.2] at hzero
    exact ⟨e.numActs,hmem,hzero⟩

/-- A new action, by a thread that has not completed. -/
theorem Recorded.add {e e' : Execution} {act : ModelAction} {extra : Location → List ActionId}
    (h : e.Recorded) (hadded : Added (e.newAction act).1 e' e.numActs extra)
    (huser : act.tid ≠ 0) (hthread : act.tid < e.threads.length)
    (halive : e.isComplete act.tid = false)
    (hoperand : ∀ u, act.getThreadOperand = some u → e.isComplete u = true)
    (hmap : ∀ l, e'.objMap l ≠ [] → e.objMap l ≠ [] ∨ onLocation act l = true)
    (hfirst : act.isAtomicVar = true → e.objMap act.location = [] →
      ∃ u ∈ e'.actionTrace, (e'.acts u).tid = 0) : e'.Recorded := by
  have hnum : e.numActs < e'.numActs := hadded.numActs
  have hthreads : e'.threads = e.threads := hadded.threads
  have hused : e'.usedSequenceNumbers = e.usedSequenceNumbers + 1 := hadded.usedSequenceNumbers
  have hold : ∀ a < e.numActs, e'.acts a = e.acts a := fun a ha =>
    (hadded.acts a (ha.trans (Nat.lt_succ_self _))).trans (newAction_acts e act (Nat.ne_of_lt ha))
  have hnew := (hadded.acts e.numActs (Nat.lt_succ_self _)).trans (newAction_act e act)
  have htid : (e'.acts e.numActs).tid = act.tid := by rw [hnew]
  have hseq : (e'.acts e.numActs).seqNumber = e.usedSequenceNumbers + 1 := by rw [hnew]
  have hloc : (e'.acts e.numActs).location = act.location := by rw [hnew]
  have hatomic : (e'.acts e.numActs).isAtomicVar = act.isAtomicVar := by
    rw [hnew]
    rfl
  have hon : ∀ l, onLocation (e'.acts e.numActs) l = onLocation act l := fun l => by
    rw [hnew]
    rfl
  obtain ⟨us,htrace,hus⟩ := hadded.actionTrace
  have htrace : e'.actionTrace = us ++ e.actionTrace ++ [e.numActs] := htrace
  have hzero : ∀ u ∈ us, (e'.acts u).tid = 0 ∧ (e'.acts u).getThreadOperand = none ∧
      u < e'.numActs ∧ (e'.acts u).seqNumber = 0 := by
    intro u hu
    obtain ⟨htype,htid,hseq,-⟩ := hadded.uninit u (hus u hu).1 (hus u hu).2
    exact ⟨htid,by simp [ModelAction.getThreadOperand,htype],(hus u hu).2,hseq⟩
  have hmem : ∀ a, a ∈ e'.actionTrace ↔ a ∈ us ∨ a ∈ e.actionTrace ∨ a = e.numActs := by
    intro a
    rw [htrace]
    simp
  have hkeep : ∀ a ∈ e.actionTrace, e'.acts a = e.acts a := fun a ha => hold a (h.old a ha).1
  have hlast : ∀ t : ThreadId, t ≠ 0 →
      e'.getLastAction t = if t = act.tid then some e.numActs else e.getLastAction t := by
    intro t ht
    rcases hadded.lastAction t with ⟨hzero,_⟩ | hlast
    · exact absurd hzero ht
    · rw [hlast,newAction_act]
      rfl
  have hdone : ∀ t, e.isComplete t = true → t ≠ 0 ∧ t ≠ act.tid := by
    intro t ht
    obtain ⟨th,hth,hstate⟩ := isComplete_iff.mp ht
    refine ⟨(h.completed t th hth hstate).1,?_⟩
    rintro rfl
    rw [ht] at halive
    cases halive
  have hcomplete : e'.isComplete = e.isComplete := by
    funext t
    rw [isComplete,hthreads]
    rfl
  have hfinal : ∀ u f, e.isComplete u = true → e'.getLastAction u = some f →
      f ∈ e.actionTrace ∧ e.getLastAction u = some f := by
    intro u f hu hf
    obtain ⟨hne,hne'⟩ := hdone u hu
    rw [hlast u hne,if_neg hne'] at hf
    exact ⟨h.last u f hne hf,hf⟩
  apply Recorded.mk
  · obtain ⟨vs,rest,hsplit,hvs,hrest,hsorted⟩ := h.parts
    have hvmem : ∀ a, a ∈ vs ∨ a ∈ rest → a ∈ e.actionTrace := fun a ha => by
      rw [hsplit]
      exact List.mem_append.mpr ha
    refine ⟨us ++ vs,rest ++ [e.numActs],by simp [htrace,hsplit],fun u hu => ?_,fun a ha => ?_,?_⟩
    · rcases List.mem_append.mp hu with hu | hu
      · exact (hzero u hu).1
      · rw [hkeep u (hvmem u (.inl hu))]
        exact hvs u hu
    · rcases List.mem_append.mp ha with ha | ha
      · rw [hkeep a (hvmem a (.inr ha))]
        exact hrest a ha
      · rw [List.mem_singleton.mp ha,htid,hseq]
        exact ⟨huser,Nat.succ_pos _⟩
    · apply List.pairwise_append.mpr
      refine ⟨?_,List.pairwise_singleton _ _,fun a ha b hb => ?_⟩
      · refine hsorted.imp_of_mem fun {a b} ha hb hlt => ?_
        rw [hkeep a (hvmem a (.inr ha)),hkeep b (hvmem b (.inr hb))]
        exact hlt
      · rw [List.mem_singleton.mp hb,hseq,hkeep a (hvmem a (.inr ha))]
        exact Nat.lt_succ_of_le (h.old a (hvmem a (.inr ha))).2.1
  · intro a ha
    rw [hused,hthreads]
    rcases (hmem a).mp ha with ha | ha | rfl
    · obtain ⟨htid,-,hlt,hseq⟩ := hzero a ha
      rw [htid,hseq]
      exact ⟨hlt,Nat.zero_le _,Nat.zero_lt_of_lt hthread⟩
    · obtain ⟨hlt,hseq,htid⟩ := h.old a ha
      rw [hkeep a ha]
      exact ⟨hlt.trans hnum,Nat.le_succ_of_le hseq,htid⟩
    · rw [hseq,htid]
      exact ⟨hnum,Nat.le_refl _,hthread⟩
  · intro t a ht ha
    rw [hmem]
    rw [hlast t ht] at ha
    split at ha
    · exact .inr (.inr (Option.some.inj ha).symm)
    · exact .inr (.inl (h.last t a ht ha))
  · intro t th c hth ht hc
    rw [hthreads] at hth
    obtain ⟨hcmem,hafter⟩ := h.created t th c hth ht hc
    refine ⟨(hmem c).mpr (.inr (.inl hcmem)),fun a ha hat => ?_⟩
    rw [hkeep c hcmem]
    rcases (hmem a).mp ha with ha | ha | rfl
    · exact absurd ((hzero a ha).1.symm.trans hat).symm ht
    · rw [hkeep a ha] at hat ⊢
      exact hafter a ha hat
    · rw [hseq]
      exact Nat.lt_succ_of_le (h.old c hcmem).2.1
  · intro t th hth hstate
    rw [hthreads] at hth
    obtain ⟨hne,a,ha⟩ := h.completed t th hth hstate
    refine ⟨hne,?_⟩
    rw [hlast t hne]
    split
    · exact ⟨_,rfl⟩
    · exact ⟨a,ha⟩
  · intro a ha u hu
    rw [hcomplete]
    rcases (hmem a).mp ha with ha | ha | rfl
    · rw [(hzero a ha).2.1] at hu
      cases hu
    · rw [hkeep a ha] at hu ⊢
      obtain ⟨hdone,hafter⟩ := h.joined a ha u hu
      refine ⟨hdone,fun f hf => ?_⟩
      obtain ⟨hfmem,hf⟩ := hfinal u f hdone hf
      rw [hkeep f hfmem]
      exact hafter f hf
    · rw [hnew] at hu
      have hdone := hoperand u hu
      refine ⟨hdone,fun f hf => ?_⟩
      obtain ⟨hfmem,-⟩ := hfinal u f hdone hf
      rw [hkeep f hfmem,hseq]
      exact Nat.lt_succ_of_le (h.old f hfmem).2.1
  · intro l hl
    rcases hmap l hl with hl | hl
    · obtain ⟨b,hb,hbon⟩ := h.objMap l hl
      exact ⟨b,(hmem b).mpr (.inr (.inl hb)),by rw [hkeep b hb]; exact hbon⟩
    · exact ⟨e.numActs,(hmem _).mpr (.inr (.inr rfl)),(hon l).trans hl⟩
  · -- an atomic access that is not the first action on its location
    have hback : ∀ a : ModelAction, (∃ b ∈ e.actionTrace, onLocation (e.acts b) a.location = true) →
        (∃ u ∈ e'.actionTrace, (e'.acts u).tid = 0) ∨ ∃ b ∈ e'.actionTrace,
          onLocation (e'.acts b) a.location = true ∧ (e'.acts b).isAtomicVar = false := by
      intro a ⟨b,hb,hbon⟩
      cases hbatomic : (e.acts b).isAtomicVar with
      | false =>
        refine .inr ⟨b,(hmem b).mpr (.inr (.inl hb)),?_⟩
        rw [hkeep b hb]
        exact ⟨hbon,hbatomic⟩
      | true =>
        have hbloc : (e.acts b).location = a.location := by
          have hwait : (e.acts b).isWait = false := by
            cases hw : (e.acts b).isWait with
            | false => rfl
            | true =>
              have htype : (e.acts b).type = .atomicWait := beq_iff_eq.mp hw
              simp [ModelAction.isAtomicVar,ModelAction.isRead,ModelAction.couldBeWrite,
                ModelAction.isWrite,ModelAction.isRmwr,htype] at hbatomic
          simpa [onLocation,hwait] using hbon
        rcases h.atomic b hb hbatomic with ⟨u,hu,hut⟩ | ⟨c,hc,hcon,hcatomic⟩
        · exact .inl ⟨u,(hmem u).mpr (.inr (.inl hu)),by rw [hkeep u hu]; exact hut⟩
        · refine .inr ⟨c,(hmem c).mpr (.inr (.inl hc)),?_⟩
          rw [hkeep c hc,← hbloc]
          exact ⟨hcon,hcatomic⟩
    intro a ha haatomic
    rcases (hmem a).mp ha with ha | ha | rfl
    · exact .inl ⟨a,(hmem a).mpr (.inl ha),(hzero a ha).1⟩
    · rw [hkeep a ha] at haatomic ⊢
      exact hback (e.acts a) ⟨a,ha,by simp [onLocation]⟩
    · rw [hatomic] at haatomic
      by_cases hempty : e.objMap act.location = []
      · exact .inl (hfirst haatomic hempty)
      · rw [hloc]
        exact hback act (h.objMap _ hempty)

theorem Recorded.frame {e e' : Execution} (h : e.Recorded) (hframe : MemFrame e e') :
    e'.Recorded :=
  h.step hframe.lists (fun a => .of_keeps (hframe.act a).keeps) (.of_eq hframe.threads)

/-- Threads that only change their states, and complete with a last action only. -/
theorem ThreadsGo.of_states {e e' : Execution} (hlen : e'.threads.length = e.threads.length)
    (h : ∀ (t : ThreadId) (th : Thread), e.threads[t]? = some th → ∃ th',
      e'.threads[t]? = some th' ∧ th'.creation = th.creation ∧
        (th.state = .completed → th'.state = .completed) ∧
        (th'.state = .completed → th.state = .completed ∨
          t ≠ 0 ∧ ∃ a, e.getLastAction t = some a)) :
    ThreadsGo e e' where
  old := h
  new t th' hth' ht := by
    rw [List.getElem?_eq_none (hlen ▸ ht)] at hth'
    cases hth'

theorem Woken.threadsGo {e e' : Execution} {s : Set ThreadId} (h : Woken e e' s) :
    ThreadsGo e e' := by
  refine .of_states h.length fun t th hth => ?_
  by_cases ht : t ∈ s
  · obtain ⟨th',hth',-,halive,hnew⟩ := h.woken t ht
    cases hth.symm.trans hth'
    exact ⟨_,hnew,rfl,fun hc => absurd hc halive,fun hc => by cases hc⟩
  · exact ⟨th,(h.other t ht).trans hth,rfl,id,.inl⟩

theorem Recorded.woken {e e' : Execution} {s : Set ThreadId} (h : e.Recorded)
    (hwoken : Woken e e' s) : e'.Recorded := by
  refine h.step hwoken.lists (fun a => ?_) hwoken.threadsGo
  rw [hwoken.acts]
  exact .refl _

/-- A thread changes its state: one that completes has acted, and none that has completed goes
on. -/
theorem Recorded.setState {e : Execution} (h : e.Recorded) (t : ThreadId) (f : Thread → Thread)
    (hf : ∀ th, (f th).creation = th.creation)
    (hstate : ∀ th, e.threads[t]? = some th →
      (th.state = .completed → (f th).state = .completed) ∧
      ((f th).state = .completed → th.state = .completed ∨
        t ≠ 0 ∧ ∃ a, e.getLastAction t = some a)) : (e.modifyThread t f).Recorded := by
  refine h.step ⟨rfl,rfl,rfl,rfl,rfl⟩ (fun a => .refl _)
    (.of_states (List.length_modify _ _ _) fun u th hth => ?_)
  refine ⟨_,getElem?_modify_eq_some.mpr ⟨th,hth,rfl⟩,?_⟩
  by_cases htu : t = u
  · subst htu
    rw [if_pos rfl]
    exact ⟨hf th,hstate th hth⟩
  · rw [if_neg htu]
    exact ⟨rfl,id,.inl⟩

/-- The fields that the record does not read. -/
theorem Recorded.of_rest {e e' : Execution} (h : e.Recorded) (hlists : SameLists e e')
    (hacts : e'.acts = e.acts) (hthreads : e'.threads = e.threads) : e'.Recorded :=
  h.step hlists (fun a => by rw [hacts]; exact .refl _) (.of_eq hthreads)

theorem Recorded.modifyAct {e : Execution} (h : e.Recorded) (curr : ActionId)
    (f : ModelAction → ModelAction) (hf : (e.acts curr).Places (f (e.acts curr))) :
    (e.modifyAct curr f).Recorded := by
  refine h.step ⟨rfl,rfl,rfl,rfl,rfl⟩ (fun a => ?_) (.of_eq rfl)
  by_cases ha : a = curr
  · subst ha
    simpa [Execution.modifyAct] using hf
  · simpa [Execution.modifyAct,ha] using ModelAction.Places.refl (e.acts a)

/-- The current action. -/
theorem CurrEffect.recorded {e e' : Execution} {curr : ActionId} {misc : ℕ}
    (h : CurrEffect e curr misc e') (hr : e.Recorded) (hcurr : e.ValidCurr curr)
    (hmem : curr ∈ e.actionTrace) : e'.Recorded := by
  cases h with
  | memory _ _ _ hframe => exact hr.frame hframe
  | create htype hframe =>
    refine Recorded.frame ?_ hframe
    refine hr.step ⟨rfl,rfl,rfl,rfl,rfl⟩ (fun a => .refl _)
      ⟨fun t th hth => ?_,fun t th' hth' ht => ?_⟩
    · have hlt := (List.getElem?_eq_some_iff.mp hth).1
      exact ⟨th,(List.getElem?_append_left hlt).trans hth,rfl,id,.inl⟩
    · have hth' : (e.threads ++ [{ parent := some (e.acts curr).tid,creation := some curr }])[t]? =
          some th' := hth'
      rw [List.getElem?_append_right ht,List.getElem?_singleton] at hth'
      split at hth'
      · cases hth'
        exact ⟨fun hc => (by cases hc),fun c hc => Option.some.inj hc ▸ hmem⟩
      · cases hth'
  | finish _ hwoken hframe =>
    refine Recorded.frame ?_ hframe
    refine (hr.woken hwoken).setState _ _ (fun _ => rfl) fun th _ => ?_
    refine ⟨fun _ => rfl,fun _ => .inr ⟨hcurr.user,curr,?_⟩⟩
    rw [hwoken.lists.getLastAction]
    exact hcurr.last
  | grab m _ _ _ hframe =>
    refine Recorded.frame ?_ hframe
    have htried : (e.modifyAct curr fun a =>
        if a.isTrylock then a.setTryLock true else a).Recorded := by
      refine hr.modifyAct curr _ ?_
      split
      · exact .of_keeps (ModelAction.setTryLock_keeps _ (by assumption))
      · exact .refl _
    exact htried.of_rest ⟨rfl,rfl,rfl,rfl,rfl⟩ rfl rfl
  | trylockFails m htype _ _ hframe =>
    refine Recorded.frame ?_ hframe
    refine hr.modifyAct curr _ ?_
    exact .of_keeps (ModelAction.setTryLock_keeps _ (by simp [ModelAction.isTrylock,htype]))
  | release m _ _ hwoken hframe =>
    refine Recorded.frame ?_ hframe
    exact (hr.woken hwoken).of_rest ⟨rfl,rfl,rfl,rfl,rfl⟩ rfl rfl
  | @wait e₁ _ m _ _ _ hwoken halive hframe =>
    refine Recorded.frame ?_ hframe
    unfold Execution.slept
    have hset : { (e₁.setLocked m none).setWaiters (e.acts curr).location
        (e.condvarWaitersMap (e.acts curr).location ++ [curr]) with
          enabled := Function.update e₁.enabled (e.acts curr).tid false }.Recorded :=
      (hr.woken hwoken).of_rest ⟨rfl,rfl,rfl,rfl,rfl⟩ rfl rfl
    refine hset.setState _ _ (fun _ => rfl) fun th hth => ?_
    obtain ⟨th',hth',hstate⟩ := halive
    cases hth.symm.trans hth'
    exact ⟨fun hc => absurd hc hstate,fun hc => by cases hc⟩
  | notifyAll _ hwoken hframe =>
    refine Recorded.frame ?_ hframe
    exact (hr.woken hwoken).of_rest ⟨rfl,rfl,rfl,rfl,rfl⟩ rfl rfl
  | notifyOne w _ _ hwoken hframe =>
    refine Recorded.frame ?_ hframe
    exact (hr.woken hwoken).of_rest ⟨rfl,rfl,rfl,rfl,rfl⟩ rfl rfl

theorem Recorded.slept {params : ExecutionParams} {ts : List ThreadId} {e e' : Execution}
    (h : e.Recorded) (hs : Slept params ts e e') : e'.Recorded := by
  obtain ⟨s,hthreads,hstates⟩ := hs.threads
  refine Recorded.frame ?_ hs.frame
  refine h.step ⟨rfl,rfl,rfl,rfl,rfl⟩ (fun a => .refl _) ⟨?_,?_⟩
  · intro t th hth
    refine ⟨th.withState (s t),(hthreads t).trans (by rw [hth]; rfl),rfl,?_⟩
    rcases hstates t th hth with hst | ⟨halive,hst⟩
    · simp only [Thread.withState,hst]
      exact ⟨id,.inl⟩
    · simp only [Thread.withState,hst]
      exact ⟨fun hc => absurd hc halive,fun hc => by cases hc⟩
  · intro t th' hth' ht
    have hth' := (hthreads t).symm.trans hth'
    rw [List.getElem?_eq_none ht] at hth'
    cases hth'

/-- The start of a step, by a thread that has not completed. -/
theorem beginAction_recorded {params : ExecutionParams} {e e' : Execution} {act : ModelAction}
    {newlyExplored : Bool} {node : Choices} {curr : ActionId}
    (h : e.beginAction params act newlyExplored node = some (e',curr)) (hr : e.Recorded)
    (huser : act.tid ≠ 0) (hthread : act.tid < e.threads.length)
    (halive : e.isComplete act.tid = false)
    (hoperand : ∀ u, act.getThreadOperand = some u → e.isComplete u = true)
    (hrmwr : (act.isRmwc || act.isRmw) = true → ∀ a, e.getLastAction act.tid = some a →
      (e.acts a).isRmwr = true) : e'.Recorded ∧ curr ∈ e'.actionTrace := by
  obtain ⟨⟨e₁,curr₁⟩,hinit,h⟩ := Option.bind_eq_some_iff.mp h
  have hinit := toOption_eq_some.mp hinit
  obtain ⟨_,_,h⟩ := Option.bind_eq_some_iff.mp h
  unfold initializeCurrAction at hinit
  by_cases hsecond : (act.isRmwc || act.isRmw) = true
  · rw [if_pos hsecond] at hinit
    rw [if_pos hsecond] at h
    obtain ⟨rfl,rfl⟩ : e₁ = e' ∧ curr₁ = curr := by simpa using h
    obtain ⟨hlast,hsteps⟩ := processRmw_steps hinit
    have hframe := MemSteps.frame hsteps
    have hplaces := ModelAction.Places.processRmw hsecond (hrmwr hsecond _ hlast)
    refine ⟨(hr.modifyAct _ _ hplaces).frame hframe,?_⟩
    rw [hframe.actionTrace]
    exact hr.last _ _ huser hlast
  · rw [if_neg hsecond] at hinit
    rw [if_neg hsecond] at h
    obtain ⟨rfl,rfl⟩ : (e.newAction act).1 = e₁ ∧ e.numActs = curr₁ := by
      simpa [newAction] using hinit
    obtain ⟨_,_,h⟩ := Option.bind_eq_some_iff.mp h
    obtain ⟨e₂,hadd,h⟩ := Option.bind_eq_some_iff.mp h
    have hadd := toOption_eq_some.mp hadd
    have hnew := newAction_act e act
    have hadded := addActionToLists_added hadd (by rw [hnew]; exact hthread)
    obtain ⟨hmap,hfirst⟩ := addActionToLists_first hadd
    rw [hnew] at hmap hfirst
    have hrecorded : e₂.Recorded :=
      hr.add hadded huser hthread halive hoperand hmap hfirst
    have hmem : e.numActs ∈ e₂.actionTrace := by
      obtain ⟨us,htrace,-⟩ := hadded.actionTrace
      rw [htrace]
      simp
    split at h
    · obtain ⟨e₃,hread,h⟩ := Option.bind_eq_some_iff.mp h
      obtain ⟨rfl,rfl⟩ : e₃ = e' ∧ e.numActs = curr := by simpa using h
      have hframe := MemSteps.frame (checkRead_steps hread)
      exact ⟨hrecorded.frame hframe,hframe.actionTrace ▸ hmem⟩
    · obtain ⟨rfl,rfl⟩ : e₂ = e' ∧ e.numActs = curr := by simpa using h
      exact ⟨hrecorded,hmem⟩

theorem recorded_init : Execution.init.Recorded where
  parts := ⟨[],[],rfl,by simp,by simp,List.Pairwise.nil⟩
  old := by simp [Execution.init]
  last t a _ h := by simp [Execution.init,getLastAction] at h
  created t th c hth _ hc := by
    rcases t with _ | _ | t <;> cases hth <;> cases hc
  completed t th hth hc := by
    rcases t with _ | _ | t <;> cases hth <;> cases hc
  joined := by simp [Execution.init]
  objMap l h := absurd rfl h
  atomic := by simp [Execution.init]

end Execution
namespace Config

open Execution

/-- The current action is in the trace. -/
structure Recorded (c : Config) : Prop where
  exec : c.exec.Recorded
  curr : ∀ curr secondPartOfRmw node queue, c.phase = .work curr secondPartOfRmw node queue →
    curr ∈ c.exec.actionTrace

variable {params : ExecutionParams} {c c' : Config}

theorem Recorded.of_exec {e : Execution} {phase : Phase} {next : Option ThreadId}
    (he : e.Recorded)
    (hphase : ∀ curr secondPartOfRmw node queue, phase ≠ .work curr secondPartOfRmw node queue) :
    (⟨e,phase,next⟩ : Config).Recorded :=
  ⟨he,fun curr second node queue h => absurd h (hphase curr second node queue)⟩

theorem Change.recorded (h : Change params c c') (hv : c.Valid) (hr : c.Recorded) :
    c'.Recorded := by
  have hexec := hr.exec
  cases h with
  | constructMutex i address parent hphase hneeds hparent =>
    exact .of_exec (hexec.of_rest ⟨rfl,rfl,rfl,rfl,rfl⟩ rfl rfl) (by simp [hphase])
  | reportBug hphase hdone =>
    have hframe := c.exec.assertBug_frame
    exact ⟨hexec.frame hframe,fun curr second node queue hwork =>
      hframe.actionTrace ▸ hr.curr curr second node queue hwork⟩
  | act i type order location value e hphase hneeds htyped hfollows he =>
    obtain ⟨⟨th,hth,halive⟩,rfl⟩ := switchFromMaster_spec he
    refine .of_exec (hexec.setState _ _ (fun _ => rfl) fun th' hth' => ?_) (by simp)
    cases hth.symm.trans hth'
    exact ⟨fun hc => absurd hc halive,fun hc => by cases hc⟩
  | skip i hphase hneeds hi => exact .of_exec hexec (by simp)
  | sleepDisabled i e hphase hneeds hi he =>
    refine .of_exec (hexec.slept (sleepDisabled_slept he)) fun curr second node queue => ?_
    split <;> simp
  | detect i deadlock hphase hdeadlock =>
    refine .of_exec ?_ (by simp)
    split
    · exact hexec.frame c.exec.assertBug_frame
    · exact hexec
  | work curr secondPartOfRmw node item queue items e hphase hasserted he =>
    have hmem := hr.curr _ _ _ _ hphase
    have hcurr := (hv.curr _ _ _ _ hphase).1
    rcases processWork_cases he with ⟨_,heffect⟩ | ⟨_,hsteps⟩
    · refine ⟨heffect.recorded hexec hcurr hmem,fun _ _ _ _ hwork => ?_⟩
      cases hwork
      exact heffect.lists.actionTrace ▸ hmem
    · have hframe := MemSteps.frame hsteps
      refine ⟨hexec.frame hframe,fun _ _ _ _ hwork => ?_⟩
      cases hwork
      exact hframe.actionTrace ▸ hmem
  | finish curr secondPartOfRmw node queue hphase hdone =>
    have hremove := c.exec.removeStopped_frame (c.exec.acts curr).tid
    have hframe := finishStep_frame params c.exec curr
    have henabled : { c.exec with
        enabled := (c.exec.removeStopped (c.exec.acts curr).tid).enabled }.Recorded :=
      hexec.of_rest ⟨rfl,rfl,rfl,rfl,rfl⟩ rfl rfl
    refine ⟨(henabled.frame hremove).frame hframe,fun curr' second node' queue' hwork => ?_⟩
    rcases finishStep_phase params c.exec curr with h | h <;> simp [h] at hwork
  | takeStep t newlyExplored node e e' act curr hphase hnext hpending hbegin =>
    obtain ⟨th,hth,hact,hready,rfl,henabled⟩ := takePending_spec hpending
    have hp := hv.exec.pending t th act hth hact
    have htaken : (c.exec.modifyThread t fun th => { th with pending := none }).Recorded :=
      hexec.setState t _ (fun _ => rfl) fun th' _ => ⟨id,.inl⟩
    have hthread : (c.exec.modifyThread t fun th => { th with pending := none }).threads[t]? =
        some { th with pending := none } := getElem?_modify_eq_some.mpr ⟨th,hth,by simp⟩
    have halive : (c.exec.modifyThread t fun th => { th with pending := none }).isComplete act.tid =
        false := by
      rw [isComplete,hp.tid,hthread]
      simp [hready]
    have hoperand : ∀ u, act.getThreadOperand = some u →
        (c.exec.modifyThread t fun th => { th with pending := none }).isComplete u = true := by
      intro u hu
      have hlock : act.isLock = false := by
        unfold ModelAction.getThreadOperand at hu
        split at hu
        · rename_i htype _
          rw [ModelAction.isLock,htype]
          rfl
        · cases hu
      rw [checkActionEnabled_snd,hlock] at henabled
      simp only [Bool.false_eq_true,↓reduceIte,hu,Option.all_some,Bool.and_eq_true] at henabled
      exact henabled.1
    obtain ⟨he,hmem⟩ := beginAction_recorded hbegin htaken (hp.tid ▸ hp.user)
      (hp.tid ▸ (List.getElem?_eq_some_iff.mp hthread).1) halive hoperand
      (fun hrmw a ha => hp.rmwr hrmw a (hp.tid ▸ ha))
    refine ⟨he,fun _ _ _ _ hwork => ?_⟩
    cases hwork
    exact hmem

theorem recorded_init : init.Recorded := .of_exec Execution.recorded_init (by simp)

theorem Reachable.recorded (h : Reachable params c) : c.exec.Recorded := by
  have hboth : c.Valid ∧ c.Recorded :=
    reachable_induction (p := fun c => c.Valid ∧ c.Recorded) ⟨valid_init,recorded_init⟩
      (fun _ _ hc hchange => ⟨hchange.valid hc.1,hchange.recorded hc.1 hc.2⟩) h
  exact hboth.2.exec

/-- The current action has the newest sequence number, but for the second part of an RMW. -/
def Newest (c : Config) : Prop :=
  ∀ curr node queue, c.phase = .work curr false node queue →
    (c.exec.acts curr).seqNumber = c.exec.usedSequenceNumbers

theorem Newest.of_phase
    (hphase : ∀ curr secondPartOfRmw node queue, c.phase ≠ .work curr secondPartOfRmw node queue) :
    c.Newest := fun curr node queue h => absurd h (hphase curr false node queue)

theorem Newest.keeps {e : Execution} {curr : ActionId} {secondPartOfRmw : Bool} {node : Choices}
    {queue queue' : List WorkItem} (hn : c.Newest)
    (hphase : c.phase = .work curr secondPartOfRmw node queue) (hlists : SameLists c.exec e)
    (hacts : ∀ a, (c.exec.acts a).Keeps (e.acts a)) :
    ({ c with exec := e,phase := .work curr secondPartOfRmw node queue' } : Config).Newest := by
  rintro curr' node' queue₁ hwork
  cases hwork
  exact ((hacts curr).seqNumber.trans (hn _ _ _ hphase)).trans hlists.usedSequenceNumbers.symm

theorem Change.newest (h : Change params c c') (hv : c.Valid) (hn : c.Newest) : c'.Newest := by
  cases h with
  | constructMutex i address parent hphase hneeds hparent => exact .of_phase (by simp [hphase])
  | reportBug hphase hdone =>
    rintro curr node queue hwork
    exact hn.keeps hwork c.exec.assertBug_frame.lists
      (fun a => (c.exec.assertBug_frame.act a).keeps)
      curr node queue rfl
  | act i type order location value e hphase hneeds htyped hfollows he => exact .of_phase (by simp)
  | skip i hphase hneeds hi => exact .of_phase (by simp)
  | sleepDisabled i e hphase hneeds hi he =>
    refine .of_phase fun curr second node queue => ?_
    split <;> simp
  | detect i deadlock hphase hdeadlock => exact .of_phase (by simp)
  | work curr secondPartOfRmw node item queue items e hphase hasserted he =>
    rcases processWork_cases he with ⟨_,heffect⟩ | ⟨_,hsteps⟩
    · exact hn.keeps hphase heffect.lists heffect.act
    · exact hn.keeps hphase (MemSteps.frame hsteps).lists
        (fun a => ((MemSteps.frame hsteps).act a).keeps)
  | finish curr secondPartOfRmw node queue hphase hdone =>
    refine .of_phase fun curr' second node' queue' => ?_
    rcases finishStep_phase params c.exec curr with h | h <;> simp [h]
  | takeStep t newlyExplored node e e' act curr hphase hnext hpending hbegin =>
    obtain ⟨th,hth,hact,_,rfl,_⟩ := takePending_spec hpending
    have hp := hv.exec.pending t th act hth hact
    have hlt : act.tid <
      (c.exec.modifyThread t fun th => { th with pending := none }).getNumThreads := by
      rw [hp.tid,getNumThreads,modifyThread,List.length_modify]
      exact (List.getElem?_eq_some_iff.mp hth).1
    rintro curr' node' queue hwork
    simp only [Phase.work.injEq] at hwork
    obtain ⟨rfl,hfirst,-,-⟩ := hwork
    cases beginAction_begun hbegin hlt with
    | secondPart hsecond => cases hsecond.symm.trans hfirst
    | new _ hadded hsteps =>
      have hframe := MemSteps.frame hsteps
      have hnew := hadded.acts c.exec.numActs (Nat.lt_succ_self _)
      rw [hframe.usedSequenceNumbers,(hframe.act _).seqNumber,hadded.usedSequenceNumbers]
      refine (congrArg ModelAction.seqNumber (hnew.trans (newAction_act _ act))).trans rfl

end Config
end CdsChecker
