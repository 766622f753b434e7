import CdsChecker.QuietSteps
import CdsChecker.CoherenceRuns
import CdsChecker.ThreadStarts

/-! Happens-before as the clock vectors have it: what an action knows it passes on to all actions
that know of it. -/
namespace CdsChecker
namespace Execution

open VectorClocks Relation

/-- The edges of happens-before: program order, the creation of a thread before its first action,
and the pairs for which `synchronize` has returned true. -/
inductive HbEdge (e : Execution) (a b : ActionId) : Prop
  | program (ha : a ∈ e.actionTrace) (hb : b ∈ e.actionTrace)
      (htid : (e.acts a).tid = (e.acts b).tid)
      (hseq : (e.acts a).seqNumber < (e.acts b).seqNumber)
  | create (hcreate : e.creationOf (e.acts b).tid = some a) (hb : b ∈ e.actionTrace)
      (hfirst : ∀ b' ∈ e.actionTrace, (e.acts b').tid = (e.acts b).tid →
        (e.acts b).seqNumber ≤ (e.acts b').seqNumber)
  | synchronized (h : (a,b) ∈ e.synchronized)

/-- The sequence is headed by an action with a number. -/
def Headed (e : Execution) (s : ReleaseSeq) : Prop :=
  ∀ r, s.release = some r → 0 < (e.acts r).seqNumber

/-- Clocks that say nothing wrong: they are backed by edges, and know the edges themselves. -/
structure Clocked (e : Execution) : Prop where
  sound : Sound e.clocks
  user : ∀ a, 0 < (e.acts a).seqNumber → (e.acts a).tid ≠ 0
  listed : ∀ a, 0 < (e.acts a).seqNumber → a ∈ e.actionTrace
  old : ∀ a ∈ e.actionTrace, a < e.numActs
  sorted : e.actionTrace.Pairwise fun a b => (e.acts a).tid ≠ 0 →
    (e.acts b).tid ≠ 0 ∧ (e.acts a).seqNumber < (e.acts b).seqNumber
  free : ∀ a, e.numActs ≤ a → (e.acts a).type = .atomicUninit ∧ (e.acts a).tid = 0 ∧
    (e.acts a).seqNumber = 0 ∧ ∀ t, (e.acts a).cv.getClock t = 0
  relaxed : ∀ a, (e.acts a).seqNumber = 0 → (e.acts a).order = .relaxed
  fences : ∀ a f, (e.acts a).lastFenceRelease = some f → 0 < (e.acts f).seqNumber
  releases : ∀ s ∈ e.pendingRelSeqs, e.Headed s
  known : ∀ x ∈ e.synchronized, x.1 < e.numActs ∧ Knows e.clocks x.1 x.2
  root : e.creationOf 0 = none
  created : ∀ b c, 0 < (e.acts b).seqNumber → e.creationOf (e.acts b).tid = some c →
    Knows e.clocks c b
  backed : Backed e.clocks e.HbEdge

/-- Everything that is known is passed on. -/
structure Informed (e : Execution) : Prop extends Clocked e where
  closed : Closed e.clocks

/-- Everything but what one action has learned. -/
structure InformedBut (e : Execution) (q : ActionId) : Prop extends Clocked e where
  closed : ClosedBut e.clocks q

/-- Nobody else knows of the action. -/
def Unknown (e : Execution) (q : ActionId) : Prop := ∀ b, Knows e.clocks q b → b = q

variable {e e' : Execution} {q : ActionId}

theorem Informed.but (h : e.Informed) (q : ActionId) : e.InformedBut q :=
    ⟨h.toClocked,h.closed.but q⟩

theorem InformedBut.informed (h : e.InformedBut q) (hq : e.Unknown q) : e.Informed :=
  ⟨h.toClocked,h.closed.closed hq⟩

/-! ### Steps that do not synchronize -/

theorem Quiet.tid (h : Quiet e e') (a : ActionId) : (e'.acts a).tid = (e.acts a).tid :=
  congrFun (congrArg Clocks.tid h.clocks) a

theorem Quiet.seqNumber (h : Quiet e e') (a : ActionId) :
    (e'.acts a).seqNumber = (e.acts a).seqNumber :=
  congrFun (congrArg Clocks.seq h.clocks) a

theorem Quiet.getClock (h : Quiet e e') (a : ActionId) (t : ThreadId) :
    (e'.acts a).cv.getClock t = (e.acts a).cv.getClock t :=
  congrFun (congrFun (congrArg Clocks.know h.clocks) a) t

theorem HbEdge.transfer {a b : ActionId} (h : e.HbEdge a b)
    (htrace : e'.actionTrace = e.actionTrace) (htid : ∀ a, (e'.acts a).tid = (e.acts a).tid)
    (hseq : ∀ a, (e'.acts a).seqNumber = (e.acts a).seqNumber)
    (hcreation : ∀ t c, e.creationOf t = some c → e'.creationOf t = some c)
    (hsync : e.synchronized ⊆ e'.synchronized) : e'.HbEdge a b := by
  cases h with
  | program ha hb ht hs =>
    refine .program (htrace ▸ ha) (htrace ▸ hb) ?_ ?_
    · rw [htid,htid,ht]
    · rw [hseq,hseq]
      exact hs
  | create hcreate hb hfirst =>
    refine .create ?_ (htrace ▸ hb) fun b' hb' ht => ?_
    · rw [htid]
      exact hcreation _ _ hcreate
    · rw [htrace] at hb'
      rw [htid,htid] at ht
      rw [hseq,hseq]
      exact hfirst b' hb' ht
  | synchronized h => exact .synchronized (hsync h)

theorem Clocked.lt_of_pos (h : e.Clocked) {a : ActionId} (ha : 0 < (e.acts a).seqNumber) :
    a < e.numActs :=
  h.old a (h.listed a ha)

/-- Actions change, but neither their clocks nor what heads a release sequence. -/
theorem Clocked.same (h : e.Clocked) (hclocks : e'.clocks = e.clocks)
    (hnum : e'.numActs = e.numActs) (htrace : e'.actionTrace = e.actionTrace)
    (hsync : e'.synchronized = e.synchronized) (hcreation : ∀ t, e'.creationOf t = e.creationOf t)
    (hpending : e'.pendingRelSeqs = e.pendingRelSeqs)
    (hfree : ∀ a, (e.acts a).seqNumber = 0 →
      (e'.acts a).type = (e.acts a).type ∧ (e'.acts a).order = (e.acts a).order)
    (hfences : ∀ a, (e'.acts a).lastFenceRelease = (e.acts a).lastFenceRelease) : e'.Clocked := by
  have htid : ∀ a, (e'.acts a).tid = (e.acts a).tid := fun a =>
    congrFun (congrArg Clocks.tid hclocks) a
  have hseq : ∀ a, (e'.acts a).seqNumber = (e.acts a).seqNumber := fun a =>
    congrFun (congrArg Clocks.seq hclocks) a
  have hclock : ∀ a t, (e'.acts a).cv.getClock t = (e.acts a).cv.getClock t := fun a t =>
    congrFun (congrFun (congrArg Clocks.know hclocks) a) t
  constructor
  · exact hclocks ▸ h.sound
  · intro a ha
    rw [hseq] at ha
    rw [htid]
    exact h.user a ha
  · intro a ha
    rw [hseq] at ha
    rw [htrace]
    exact h.listed a ha
  · rw [htrace,hnum]
    exact h.old
  · rw [htrace]
    simpa only [htid,hseq] using h.sorted
  · intro a ha
    rw [hnum] at ha
    obtain ⟨htype,htid',hseq',hclock'⟩ := h.free a ha
    exact ⟨(hfree a hseq').1.trans htype,(htid a).trans htid',(hseq a).trans hseq',
      fun t => (hclock a t).trans (hclock' t)⟩
  · intro a ha
    rw [hseq] at ha
    exact (hfree a ha).2.trans (h.relaxed a ha)
  · intro a f hf
    rw [hfences] at hf
    rw [hseq]
    exact h.fences a f hf
  · intro s hs r hr
    rw [hpending] at hs
    rw [hseq]
    exact h.releases s hs r hr
  · intro x hx
    rw [hsync] at hx
    rw [hclocks,hnum]
    exact h.known x hx
  · exact (hcreation 0).trans h.root
  · intro b c hb hc
    rw [hseq] at hb
    rw [htid,hcreation] at hc
    rw [hclocks]
    exact h.created b c hb hc
  · rw [hclocks]
    exact h.backed.mono fun a b hab => hab.transfer htrace htid hseq
      (fun t c hc => (hcreation t).trans hc) (hsync ▸ List.Subset.refl _)

theorem Clocked.quiet (h : e.Clocked) (hq : Quiet e e') : e'.Clocked :=
  h.same hq.clocks hq.numActs hq.actionTrace hq.synchronized hq.creation hq.pending
    (fun a _ => ⟨(hq.alike a).type,(hq.alike a).order⟩) fun a => (hq.alike a).lastFenceRelease

theorem Informed.quiet (h : e.Informed) (hq : Quiet e e') : e'.Informed :=
  ⟨h.toClocked.quiet hq,hq.clocks ▸ h.closed⟩

theorem InformedBut.quiet (h : e.InformedBut q) (hq : Quiet e e') : e'.InformedBut q :=
  ⟨h.toClocked.quiet hq,hq.clocks ▸ h.closed⟩

theorem Unknown.quiet (h : e.Unknown q) (hq : Quiet e e') : e'.Unknown q := by
  unfold Unknown
  rw [hq.clocks]
  exact h

/-! ### Synchronization -/

/-- A call that succeeds. -/
structure Learned (e e' : Execution) (first second : ActionId) : Prop where
  clocks : e'.clocks = learn e.clocks first second
  numActs : e'.numActs = e.numActs
  actionTrace : e'.actionTrace = e.actionTrace
  synchronized : e'.synchronized = (first,second) :: e.synchronized
  bad : e.badSynchronization = true → e'.badSynchronization = true
  creation : ∀ t, e'.creationOf t = e.creationOf t
  pending : e'.pendingRelSeqs = e.pendingRelSeqs
  le : (e.acts first).seqNumber ≤ (e.acts second).seqNumber
  alike : ∀ a, (e.acts a).Alike (e'.acts a)

theorem synchronize_learned {first second : ActionId} (h : (e.synchronize first second).2 = true) :
    Learned e (e.synchronize first second).1 first second := by
  rw [synchronize_snd,Bool.not_eq_true'] at h
  have hle : (e.acts first).seqNumber ≤ (e.acts second).seqNumber := by
    simpa [before,ModelAction.before] using h
  rw [synchronize_of_not_before h]
  have halike : ∀ a, (e.acts a).Alike (Function.update e.acts second
      { e.acts second with cv := ((e.acts second).cv.merge (e.acts first).cv).1 } a) := by
    intro a
    by_cases ha : a = second
    · subst ha
      rw [Function.update_self]
      exact ⟨rfl,rfl,rfl⟩
    · rw [Function.update_of_ne ha]
      exact .refl _
  refine ⟨?_,rfl,rfl,rfl,id,fun _ => rfl,rfl,hle,halike⟩
  have hacts : ∀ a, (Function.update e.acts second
      { e.acts second with cv := ((e.acts second).cv.merge (e.acts first).cv).1 } a).tid =
        (e.acts a).tid ∧ (Function.update e.acts second
      { e.acts second with cv := ((e.acts second).cv.merge (e.acts first).cv).1 } a).seqNumber =
        (e.acts a).seqNumber := by
    intro a
    by_cases ha : a = second
    · subst ha
      simp
    · simp [ha]
  unfold Execution.clocks learn
  simp only [hacts,Clocks.mk.injEq,true_and]
  funext a t
  by_cases ha : a = second
  · subst ha
    simp
  · simp [ha]

theorem synchronize_failed {first second : ActionId} (h : (e.synchronize first second).2 = false) :
    Quiet e (e.synchronize first second).1 ∧
      (e.synchronize first second).1.badSynchronization = true := by
  rw [synchronize_snd,Bool.not_eq_false'] at h
  rw [synchronize_of_before h]
  exact ⟨⟨rfl,rfl,rfl,rfl,fun _ => rfl,fun _ => rfl,rfl,fun _ => .refl _⟩,rfl⟩

namespace Learned

variable {first second : ActionId}

theorem tid (h : Learned e e' first second) (a : ActionId) : (e'.acts a).tid = (e.acts a).tid :=
  congrFun (congrArg Clocks.tid h.clocks) a

theorem seqNumber (h : Learned e e' first second) (a : ActionId) :
    (e'.acts a).seqNumber = (e.acts a).seqNumber :=
  congrFun (congrArg Clocks.seq h.clocks) a

theorem clocked (h : Learned e e' first second) (hc : e.Clocked) (hfirst : first < e.numActs) :
    e'.Clocked := by
  have hsound : Sound e'.clocks := by
    rw [h.clocks]
    exact hc.sound.learn h.le
  constructor
  · exact hsound
  · intro a ha
    rw [h.seqNumber] at ha
    rw [h.tid]
    exact hc.user a ha
  · intro a ha
    rw [h.seqNumber] at ha
    rw [h.actionTrace]
    exact hc.listed a ha
  · rw [h.actionTrace,h.numActs]
    exact hc.old
  · rw [h.actionTrace]
    simpa only [h.tid,h.seqNumber] using hc.sorted
  · intro a ha
    rw [h.numActs] at ha
    obtain ⟨htype,htid,hseq,hclock⟩ := hc.free a ha
    exact ⟨(h.alike a).type.trans htype,(h.tid a).trans htid,(h.seqNumber a).trans hseq,
      fun t => hsound.know_zero ((h.seqNumber a).trans hseq) t⟩
  · intro a ha
    rw [h.seqNumber] at ha
    exact (h.alike a).order.trans (hc.relaxed a ha)
  · intro a f hf
    rw [(h.alike a).lastFenceRelease] at hf
    rw [h.seqNumber]
    exact hc.fences a f hf
  · intro s hs r hr
    rw [h.pending] at hs
    rw [h.seqNumber]
    exact hc.releases s hs r hr
  · intro x hx
    rw [h.synchronized] at hx
    rw [h.clocks,h.numActs]
    rcases List.mem_cons.mp hx with rfl | hx
    · exact ⟨hfirst,knows_learn_self.mpr (.inr (hc.sound.knows_self _))⟩
    · exact ⟨(hc.known x hx).1,(hc.known x hx).2.learn _ _⟩
  · exact (h.creation 0).trans hc.root
  · intro b c hb hcreate
    rw [h.seqNumber] at hb
    rw [h.tid,h.creation] at hcreate
    rw [h.clocks]
    exact (hc.created b c hb hcreate).learn _ _
  · rw [h.clocks]
    have hmono : Backed e.clocks e'.HbEdge := hc.backed.mono fun a b hab =>
      hab.transfer h.actionTrace h.tid h.seqNumber (fun t c hc => (h.creation t).trans hc)
        (by rw [h.synchronized]; exact List.subset_cons_self _ _)
    refine hmono.learn (.synchronized ?_)
    rw [h.synchronized]
    exact List.mem_cons_self

end Learned

theorem synchronize_numActs (e : Execution) (first second : ActionId) :
    (e.synchronize first second).1.numActs = e.numActs := by
  cases hsync : (e.synchronize first second).2 with
  | false => exact (synchronize_failed hsync).1.numActs
  | true => exact (synchronize_learned hsync).numActs

theorem InformedBut.synchronize (h : e.InformedBut q) {first : ActionId}
    (hfirst : first < e.numActs) : (e.synchronize first q).1.InformedBut q := by
  cases hsync : (e.synchronize first q).2 with
  | false => exact h.quiet (synchronize_failed hsync).1
  | true =>
    have hlearned := synchronize_learned hsync
    exact ⟨hlearned.clocked h.toClocked hfirst,hlearned.clocks ▸ h.closed.learn first⟩

theorem InformedBut.synchronizeAll {l : List ActionId} (h : e.InformedBut q)
    (hl : ∀ a ∈ l, a < e.numActs) : (e.synchronizeAll q l).1.InformedBut q := by
  induction l generalizing e with
  | nil => exact h
  | cons first rest ih =>
    rw [List.forall_mem_cons] at hl
    exact ih (h.synchronize hl.1) fun a ha =>
      (hl.2 a ha).trans_eq (synchronize_numActs e first q).symm

theorem Unknown.synchronize (h : e.Unknown q) (first : ActionId) :
    (e.synchronize first q).1.Unknown q := by
  cases hsync : (e.synchronize first q).2 with
  | false => exact h.quiet (synchronize_failed hsync).1
  | true =>
    intro b hb
    rw [(synchronize_learned hsync).clocks] at hb
    by_contra hne
    exact hne (h b ((knows_learn_of_ne hne).mp hb))

theorem Unknown.synchronizeAll (h : e.Unknown q) (l : List ActionId) :
    (e.synchronizeAll q l).1.Unknown q := by
  induction l generalizing e with
  | nil => exact h
  | cons first rest ih => exact ih (h.synchronize first)

/-- The current action learns from others. -/
theorem Informed.synchronizeAll {l : List ActionId} (h : e.Informed) (hq : e.Unknown q)
    (hl : ∀ a ∈ l, a < e.numActs) : (e.synchronizeAll q l).1.Informed :=
  ((h.but q).synchronizeAll hl).informed (hq.synchronizeAll l)

theorem synchronizeAll_false {l : List ActionId} (h : (e.synchronizeAll q l).2 = false) :
    Quiet e (e.synchronizeAll q l).1 := by
  induction l generalizing e with
  | nil => exact .refl e
  | cons first rest ih =>
    obtain ⟨hfirst,hrest⟩ := Bool.or_eq_false_iff.mp h
    exact (synchronize_failed hfirst).1.trans (ih hrest)

theorem InformedBut.synchronizeNew {l : List ActionId} (h : e.InformedBut q)
    (hl : ∀ a ∈ l, a < e.numActs) : (e.synchronizeNew q l).1.InformedBut q := by
  induction l generalizing e with
  | nil => exact h
  | cons head rest ih =>
    rw [List.forall_mem_cons] at hl
    rw [Execution.synchronizeNew]
    split
    · exact ih h hl.2
    · exact ih (h.synchronize hl.1) fun a ha =>
        (hl.2 a ha).trans_eq (synchronize_numActs e head q).symm

theorem synchronizeNew_false {l : List ActionId} (h : (e.synchronizeNew q l).2 = false) :
    Quiet e (e.synchronizeNew q l).1 := by
  induction l generalizing e with
  | nil => exact .refl e
  | cons head rest ih =>
    rw [Execution.synchronizeNew] at h ⊢
    split at h
    · rename_i hknown
      rw [if_pos hknown]
      exact ih h
    · rename_i hnew
      rw [if_neg hnew]
      obtain ⟨hfirst,hrest⟩ := Bool.or_eq_false_iff.mp h
      exact (synchronize_failed hfirst).1.trans (ih hrest)

/-! ### Propagation -/

theorem knows_of_happensBefore {a b : ActionId} (h : e.happensBefore a b = true) :
    Knows e.clocks a b := by
  simp only [happensBefore,ModelAction.happensBefore,ClockVector.synchronizedSince,
    Bool.and_eq_true,decide_eq_true_eq] at h
  exact h.2

theorem knows_iff_happensBefore {a b : ActionId} (ha : 0 < (e.acts a).seqNumber) :
    Knows e.clocks a b ↔ e.happensBefore a b = true :=
  (ClockVector.synchronizedSince_iff ha).symm

theorem propagateLoop_mem {l : List ActionId} {items : List WorkItem}
    (h : propagateLoop q l e = .ok (e',items)) : q ∈ l := by
  induction l generalizing e e' items with
  | nil => cases h
  | cons act rest ih =>
    rw [propagateLoop] at h
    split at h
    · rename_i hact
      exact hact ▸ List.mem_cons_self
    · split at h
      · obtain ⟨⟨_,_⟩,h₁,-⟩ := bind_eq_ok.mp h
        exact List.mem_cons_of_mem _ (ih h₁)
      · exact List.mem_cons_of_mem _ (ih h)

/-- The actions up to the acquire learn from it. -/
theorem propagateLoop_spec {l : List ActionId} {items : List WorkItem} (hc : e.Clocked)
    (hq : q < e.numActs) (h : propagateLoop q l e = .ok (e',items)) : e'.Clocked ∧ ∃ newer older,
      l = newer ++ q :: older ∧ q ∉ newer ∧ Propagates q newer e.clocks e'.clocks := by
  induction l generalizing e items with
  | nil => cases h
  | cons act rest ih =>
    rw [propagateLoop] at h
    split at h
    · rename_i hact
      obtain ⟨rfl,-⟩ : e = e' ∧ _ := by simpa using h
      exact ⟨hc,[],rest,by rw [hact]; rfl,List.not_mem_nil,.done⟩
    · rename_i hact
      split at h
      · rename_i hknows
        obtain ⟨⟨e₁,items'⟩,h₁,h⟩ := bind_eq_ok.mp h
        obtain ⟨rfl,-⟩ : e₁ = e' ∧ _ := by simpa using h
        have hknows := knows_of_happensBefore hknows
        have hsync : (e.synchronize q act).2 = true := by
          rw [synchronize_snd,Bool.not_eq_true']
          have hle : (e.acts q).seqNumber ≤ (e.acts act).seqNumber := hc.sound.le_of_knows hknows
          simpa [before,ModelAction.before] using hle
        have hlearned := synchronize_learned hsync
        obtain ⟨hc',newer,older,rfl,hnew,hprop⟩ := ih (hlearned.clocked hc hq)
          (hlearned.numActs.symm ▸ hq) h₁
        rw [hlearned.clocks] at hprop
        refine ⟨hc',act :: newer,older,rfl,?_,.learns hknows hprop⟩
        rw [List.mem_cons,not_or]
        exact ⟨Ne.symm hact,hnew⟩
      · rename_i hnot
        obtain ⟨hc',newer,older,rfl,hnew,hprop⟩ := ih hc hq h
        refine ⟨hc',act :: newer,older,rfl,?_,.skips (fun hknows t => ?_) hprop⟩
        · rw [List.mem_cons,not_or]
          exact ⟨Ne.symm hact,hnew⟩
        · rcases Nat.eq_zero_or_pos (e.acts q).seqNumber with hzero | hpos
          · rw [hc.sound.know_zero hzero]
            exact Nat.zero_le _
          · exact absurd ((knows_iff_happensBefore hpos).mp hknows) hnot

theorem InformedBut.propagate {items : List WorkItem} (h : e.InformedBut q)
    (hprop : e.propagateClockvector q = .ok (e',items)) : e'.Informed := by
  obtain ⟨⟨e₁,items'⟩,h₁,hprop⟩ := bind_eq_ok.mp hprop
  obtain ⟨rfl,-⟩ : e₁ = e' ∧ _ := by simpa using hprop
  have hmem : q ∈ e.actionTrace := List.mem_reverse.mp (propagateLoop_mem h₁)
  obtain ⟨hc,newer,older,hsplit,hq,hprop⟩ :=
    propagateLoop_spec h.toClocked (h.old q hmem) h₁
  refine ⟨hc,?_⟩
  rcases Nat.eq_zero_or_pos (e.acts q).seqNumber with hzero | hpos
  · have hnone : ∀ t, e.clocks.know q t = 0 := h.sound.know_zero hzero
    rw [hprop.eq_of_zero hnone]
    intro a b hab t
    by_cases ha : a = q
    · rw [ha,hnone]
      exact Nat.zero_le _
    · exact h.closed a b ha hab t
  have htrace : e.actionTrace = older.reverse ++ q :: newer.reverse := by
    rw [← List.reverse_reverse e.actionTrace,hsplit]
    simp
  have hsorted := h.sorted
  rw [htrace,List.pairwise_append,List.pairwise_cons] at hsorted
  obtain ⟨-,⟨hafter,hnewer⟩,hbefore⟩ := hsorted
  have huser := h.user q hpos
  refine hprop.closed h.sound h.closed hq ?_ fun b hb hknows hnot => ?_
  · rw [← List.pairwise_reverse]
    refine hnewer.imp_of_mem fun ha _ hab => (hab ?_).2
    exact (hafter _ ha huser).1
  · -- only later actions know of `q`
    have hlt : 0 < (e.acts b).seqNumber := hpos.trans_le (h.sound.le_of_knows hknows)
    have hmem := h.listed b hlt
    rw [htrace,List.mem_append,List.mem_cons] at hmem
    rcases hmem with hmem | rfl | hmem
    · have hgt := (hbefore b hmem q List.mem_cons_self (h.user b hlt)).2
      exact absurd (h.sound.le_of_knows hknows) (Nat.not_le.mpr hgt)
    · exact absurd rfl hb
    · exact absurd (List.mem_reverse.mp hmem) hnot

end Execution
end CdsChecker
