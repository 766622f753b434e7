import CdsChecker.KnowledgeRuns

/-! An acquire fence synchronizes with everything that the reads before it should: with the heads
that are certain when it executes, and with those that are found later. -/
namespace CdsChecker
namespace Execution

open VectorClocks Relation

/-- What `release_seq_heads` reports for a read before an acquire. -/
structure Report where
  acquire : ActionId
  read : ActionId
  heads : List ActionId
  complete : Bool
  deriving DecidableEq

/-- The reports to an acquire fence, one for each read that its loop asks about. -/
def fenceReports (curr : ActionId) : List ActionId → Execution → Result (List Report)
  | [],_ => .ok []
  | act :: rest,e =>
    if act = curr then fenceReports curr rest e
    else if (e.acts act).tid ≠ (e.acts curr).tid then fenceReports curr rest e
    else if (e.acts act).isThreadStart then .ok []
    else if (e.acts act).isFence && (e.acts act).isAcquire then .ok []
    else if !(e.acts act).isRead || (e.acts act).isAcquire then fenceReports curr rest e
    else do
      let (heads,complete,_) ←
        e.releaseSeqHeads (e.acts act).readsFrom { acquire := curr,read := act }
      let (e,_) ← e.getReleaseSeqHeads curr act
      let more ← fenceReports curr rest (e.synchronizeAll curr heads).1
      pure (⟨curr,act,heads,complete⟩ :: more)

/-- The reports when the pending sequences are checked again. -/
def resolveReports (location : Option Location) :
    List ReleaseSeq → Bool → Execution → Result (List Report)
  | [],_,_ => .ok []
  | pending :: rest,updated,e =>
    if location.any fun l => (e.acts pending.read).location ≠ l then
      resolveReports location rest updated e
    else do
      let (heads,complete,_) ← e.releaseSeqHeads (e.acts pending.read).readsFrom pending
      let (e,success) := e.synchronizeNew pending.acquire heads
      let updated := updated || success
      let (e,_) ← if updated then e.propagateClockvector pending.acquire else pure (e,[])
      let more ← resolveReports location rest updated e
      pure (⟨pending.acquire,pending.read,heads,complete⟩ :: more)

/-- The report for the sequence that a fixup takes. Nothing synchronizes if a write breaks it. -/
def fixupReports (e : Execution) (write : Option ActionId) : List Report :=
  match e.pendingRelSeqs.getLast? with
  | none => []
  | some s => [⟨s.acquire,s.read,if write.isSome then [] else s.release.toList,true⟩]

/-- The reports while an entry of the queue is processed. -/
def workReports (e : Execution) (curr : ActionId) (node : Choices) : WorkItem → Result (List Report)
  | .checkCurrAction =>
    if (e.acts curr).isFence && (e.acts curr).isAcquire then
      fenceReports curr e.actionTrace.reverse e
    else if (e.acts curr).isRelseqFixup then .ok (e.fixupReports node.relseqBreak)
    else .ok []
  | .checkReleaseSeq location => resolveReports location e.pendingRelSeqs false e
  | .checkMoEdges _ => .ok []

/-- The heads happen before the acquire and before everything that the acquire happens before. -/
def Heard (e : Execution) (r : Report) : Prop :=
  ∀ a ∈ r.heads, e.happensBefore a r.acquire = true ∧
    ∀ b, e.happensBefore r.acquire b = true → e.happensBefore a b = true

/-- The sequence of the read is recorded. -/
def Recalls (e : Execution) (acquire read : ActionId) : Prop :=
  ∃ s ∈ e.pendingRelSeqs, s.acquire = acquire ∧ s.read = read

variable {e e' : Execution} {curr : ActionId}

/-! ### Learning the heads -/

/-- The heads have a number, and they are known unless some synchronization failed. -/
def Learns (e : Execution) (q : ActionId) (heads : List ActionId) : Prop :=
  ∀ a ∈ heads, 0 < (e.acts a).seqNumber ∧
    (e.badSynchronization = true ∨ Knows e.clocks a q)

theorem Gains.learns (h : Gains e e') {heads : List ActionId} (hl : e.Learns curr heads) :
    e'.Learns curr heads := by
  intro a ha
  obtain ⟨hpos,hknows⟩ := hl a ha
  exact ⟨(h.seqNumber a).symm ▸ hpos,hknows.imp h.bad h.knows⟩

theorem synchronize_learns (hc : e.Clocked) (first second : ActionId) :
    (e.synchronize first second).1.badSynchronization = true ∨
      Knows (e.synchronize first second).1.clocks first second := by
  cases hsync : (e.synchronize first second).2 with
  | false => exact .inl (synchronize_failed hsync).2
  | true =>
    rw [(synchronize_learned hsync).clocks]
    exact .inr (knows_learn_self.mpr (.inr (hc.sound.knows_self first)))

theorem Clocked.synchronize (hc : e.Clocked) {first : ActionId} (hfirst : first < e.numActs)
    (second : ActionId) : (e.synchronize first second).1.Clocked := by
  cases hsync : (e.synchronize first second).2 with
  | false => exact hc.quiet (synchronize_failed hsync).1
  | true => exact (synchronize_learned hsync).clocked hc hfirst

theorem synchronizeAll_learns {l : List ActionId} (hc : e.Clocked)
    (hl : ∀ a ∈ l, 0 < (e.acts a).seqNumber) : (e.synchronizeAll curr l).1.Learns curr l := by
  induction l generalizing e with
  | nil => exact fun _ ha => by cases ha
  | cons first rest ih =>
    rw [List.forall_mem_cons] at hl
    have hgains := (synchronize_grows e first curr).toGains
    have hrest := (synchronizeAll_grows (e.synchronize first curr).1 curr rest).toGains
    have hfirst : (e.synchronize first curr).1.Learns curr [first] := by
      intro a ha
      rw [List.mem_singleton.mp ha]
      exact ⟨(hgains.seqNumber first).symm ▸ hl.1,synchronize_learns hc first curr⟩
    have hothers := ih (hc.synchronize (hc.lt_of_pos hl.1) curr) fun a ha =>
      (hgains.seqNumber a).symm ▸ hl.2 a ha
    intro a ha
    rcases List.mem_cons.mp ha with rfl | ha
    · exact hrest.learns hfirst a (List.mem_singleton_self a)
    · exact hothers a ha

theorem synchronizeNew_learns {l : List ActionId} (hc : e.Clocked)
    (hl : ∀ a ∈ l, 0 < (e.acts a).seqNumber) : (e.synchronizeNew curr l).1.Learns curr l := by
  induction l generalizing e with
  | nil => exact fun _ ha => by cases ha
  | cons head rest ih =>
    rw [List.forall_mem_cons] at hl
    rw [Execution.synchronizeNew]
    split
    · rename_i hknown
      have hfirst : e.Learns curr [head] := by
        intro a ha
        rw [List.mem_singleton.mp ha]
        exact ⟨hl.1,.inr ((ClockVector.synchronizedSince_iff hl.1).mp hknown)⟩
      have hrest := (synchronizeNew_grows e curr rest).toGains
      intro a ha
      rcases List.mem_cons.mp ha with rfl | ha
      · exact hrest.learns hfirst a (List.mem_singleton_self a)
      · exact ih hc hl.2 a ha
    · have hgains := (synchronize_grows e head curr).toGains
      have hrest := (synchronizeNew_grows (e.synchronize head curr).1 curr rest).toGains
      have hfirst : (e.synchronize head curr).1.Learns curr [head] := by
        intro a ha
        rw [List.mem_singleton.mp ha]
        exact ⟨(hgains.seqNumber head).symm ▸ hl.1,synchronize_learns hc head curr⟩
      have hothers := ih (hc.synchronize (hc.lt_of_pos hl.1) curr) fun a ha =>
        (hgains.seqNumber a).symm ▸ hl.2 a ha
      intro a ha
      rcases List.mem_cons.mp ha with rfl | ha
      · exact hrest.learns hfirst a (List.mem_singleton_self a)
      · exact hothers a ha

/-! ### The acquire fence -/

/-- Each head is known in the end, and an uncertain sequence is recorded. -/
theorem fenceLoop_reports {l : List ActionId} {b : Bool} (h : e.Informed) (hq : e.Unknown curr)
    (hloop : fenceLoop curr l e = .ok (e',b)) : ∃ reports, fenceReports curr l e = .ok reports ∧
      ∀ r ∈ reports, r.acquire = curr ∧ e'.Learns curr r.heads ∧
        (r.complete = false → e'.Recalls curr r.read) := by
  induction l generalizing e b with
  | nil => exact ⟨[],rfl,fun _ hr => by cases hr⟩
  | cons act rest ih =>
    rw [fenceLoop] at hloop
    rw [fenceReports]
    split at hloop
    · rename_i hact
      rw [if_pos hact]
      exact ih h hq hloop
    rename_i hact
    rw [if_neg hact]
    split at hloop
    · rename_i htid
      rw [if_pos htid]
      exact ih h hq hloop
    rename_i htid
    rw [if_neg htid]
    split at hloop
    · rename_i hstart
      rw [if_pos hstart]
      exact ⟨[],rfl,fun _ hr => by cases hr⟩
    rename_i hstart
    rw [if_neg hstart]
    split at hloop
    · rename_i hfence
      rw [if_pos hfence]
      exact ⟨[],rfl,fun _ hr => by cases hr⟩
    rename_i hfence
    rw [if_neg hfence]
    split at hloop
    · rename_i hskip
      rw [if_pos hskip]
      exact ih h hq hloop
    · rename_i hask
      rw [if_neg hask]
      obtain ⟨⟨e₁,heads⟩,h₁,hloop⟩ := bind_eq_ok.mp hloop
      obtain ⟨⟨e₂,_⟩,h₂,hloop⟩ := bind_eq_ok.mp hloop
      obtain ⟨rfl,-⟩ : e₂ = e' ∧ _ := by simpa using hloop
      obtain ⟨complete,sequence,hheads,he₁⟩ := getReleaseSeqHeads_spec h₁
      obtain ⟨hnumbered,hsame,-⟩ := releaseSeqHeads_spec h.toClocked hheads
      obtain ⟨hi,hlt⟩ := h.getReleaseSeqHeads h₁
      have hu := hq.of_clocks (getReleaseSeqHeads_clocks h₁)
      have hi₂ := hi.synchronizeAll hu hlt
      have hu₂ := hu.synchronizeAll heads
      have hnumbered₁ : ∀ a ∈ heads, 0 < (e₁.acts a).seqNumber := fun a ha =>
        ((getReleaseSeqHeads_grows h₁).seqNumber a).symm ▸ hnumbered a ha
      obtain ⟨-,hgrows⟩ := fenceLoop_informed hi₂ hu₂ h₂
      obtain ⟨reports,hreports,hall⟩ := ih hi₂ hu₂ h₂
      refine ⟨⟨curr,act,heads,complete⟩ :: reports,?_,fun r hr => ?_⟩
      · refine bind_eq_ok.mpr ⟨_,hheads,bind_eq_ok.mpr ⟨_,h₁,?_⟩⟩
        exact bind_eq_ok.mpr ⟨_,hreports,rfl⟩
      · rcases List.mem_cons.mp hr with rfl | hr
        · refine ⟨rfl,hgrows.toGains.learns (synchronizeAll_learns hi.toClocked hnumbered₁),
            fun hcomplete => ?_⟩
          have hcomplete : complete = false := hcomplete
          refine ⟨sequence,?_,hsame⟩
          refine hgrows.pending ((synchronizeAll_grows e₁ curr heads).pending ?_)
          rw [he₁,hcomplete]
          simp
        · exact hall r hr

/-- The loop stops at the action. -/
def Stops (e : Execution) (curr act : ActionId) : Prop :=
  act ≠ curr ∧ (e.acts act).tid = (e.acts curr).tid ∧
    ((e.acts act).isThreadStart = true ∨ (e.acts act).isFence = true ∧
    (e.acts act).isAcquire = true)

theorem releaseSeqHeads_none {pending sequence : ReleaseSeq} {heads : List ActionId}
    {complete : Bool} (h : e.releaseSeqHeads none pending = .ok (heads,complete,sequence)) :
    complete = false := by
  unfold releaseSeqHeads at h
  split at h
  · obtain ⟨-,rfl,-⟩ : _ ∧ false = complete ∧ _ := by simpa using h
    rfl
  · have hchain : e.chainHeads e.numActs none [] = .ok ([],false,none) := by
      cases e.numActs <;> rfl
    rw [hchain] at h
    obtain ⟨-,rfl,-⟩ : _ ∧ false = complete ∧ _ := by
      simpa [bind,Except.bind] using h
    rfl

theorem fenceReports_acquire {l : List ActionId}
    {reports : List Report} (h : fenceReports curr l e = .ok reports) :
    ∀ r ∈ reports, r.acquire = curr := by
  induction l generalizing e reports with
  | nil =>
    obtain rfl : [] = reports := Except.ok.inj h
    simp
  | cons act rest ih =>
    rw [fenceReports] at h
    split at h
    · exact ih h
    split at h
    · exact ih h
    split at h
    · obtain rfl : [] = reports := Except.ok.inj h
      nofun
    split at h
    · obtain rfl : [] = reports := Except.ok.inj h
      nofun
    split at h
    · exact ih h
    · obtain ⟨⟨heads,complete,sequence⟩,-,h⟩ := bind_eq_ok.mp h
      obtain ⟨⟨e₁,_⟩,-,h⟩ := bind_eq_ok.mp h
      obtain ⟨more,hmore,h⟩ := bind_eq_ok.mp h
      obtain rfl : ⟨curr,act,heads,complete⟩ :: more = reports := Except.ok.inj h
      exact List.forall_mem_cons.mpr ⟨rfl,ih hmore⟩

/-- The loop asks about every read that it can reach. -/
theorem fenceReports_asked {l : List ActionId} {reports : List Report} {y : ActionId}
    (hreports : fenceReports curr l e = .ok reports) (hy : y ∈ l) (hne : y ≠ curr)
    (htid : (e.acts y).tid = (e.acts curr).tid) (hread : (e.acts y).isRead = true)
    (hacquire : (e.acts y).isAcquire = false)
    (hstops : ∀ x ∈ l, e.Stops curr x → (e.acts x).seqNumber < (e.acts y).seqNumber)
    (hsorted : l.Pairwise fun a b => (e.acts a).tid = (e.acts curr).tid →
      (e.acts b).tid = (e.acts curr).tid → (e.acts b).seqNumber < (e.acts a).seqNumber) :
    ∃ r ∈ reports, r.read = y ∧ ((e.acts y).readsFrom = none → r.complete = false) := by
  induction l generalizing e reports with
  | nil => cases hy
  | cons act rest ih =>
    rw [List.pairwise_cons] at hsorted
    rw [List.forall_mem_cons] at hstops
    have hgo : ¬ e.Stops curr act := fun hact => by
      have hlt := hstops.1 hact
      rcases List.mem_cons.mp hy with rfl | hy
      · exact lt_irrefl _ hlt
      · exact absurd (hsorted.1 y hy hact.2.1 htid) hlt.asymm
    have hnext : y ≠ act → y ∈ rest := fun hya => (List.mem_cons.mp hy).resolve_left hya
    rw [fenceReports] at hreports
    split at hreports
    · rename_i hact
      exact ih hreports (hnext fun hya => hne (hya.trans hact)) htid hread hacquire hstops.2
        hsorted.2
    rename_i hact
    split at hreports
    · rename_i hother
      exact ih hreports (hnext fun hya => hother (hya ▸ htid)) htid hread hacquire hstops.2
        hsorted.2
    rename_i hsame
    rw [ne_eq,not_not] at hsame
    split at hreports
    · rename_i hstart
      exact absurd ⟨hact,hsame,.inl hstart⟩ hgo
    split at hreports
    · rename_i hfence
      exact absurd ⟨hact,hsame,.inr (Bool.and_eq_true_iff.mp hfence)⟩ hgo
    split at hreports
    · rename_i hskip
      refine ih hreports (hnext ?_) htid hread hacquire hstops.2 hsorted.2
      rintro rfl
      simp [hread,hacquire] at hskip
    · obtain ⟨⟨heads,complete,sequence⟩,hheads,hreports⟩ := bind_eq_ok.mp hreports
      obtain ⟨⟨e₁,_⟩,h₁,hreports⟩ := bind_eq_ok.mp hreports
      obtain ⟨more,hmore,hreports⟩ := bind_eq_ok.mp hreports
      obtain rfl : ⟨curr,act,heads,complete⟩ :: more = reports := Except.ok.inj hreports
      by_cases hya : y = act
      · subst hya
        refine ⟨⟨curr,y,heads,complete⟩,List.mem_cons_self,rfl,fun hnone => ?_⟩
        rw [hnone] at hheads
        exact releaseSeqHeads_none hheads
      · have hkeeps : KeepsOrder e (e₁.synchronizeAll curr heads).1 :=
          OrderSteps.keepsOrder
          ((getReleaseSeqHeads_order h₁).trans (synchronizeAll_order curr heads))
        have hk := hkeeps.keeps
        obtain ⟨r,hr,hry,hnone⟩ := ih hmore (hnext hya)
          (by rw [(hk y).tid,(hk curr).tid,htid])
          (by rw [ModelAction.isRead,(hk y).type]; exact hread)
          (by rw [ModelAction.isAcquire,(hk y).order]; exact hacquire)
          (fun x hx hstop => by
            rw [(hk x).seqNumber,(hk y).seqNumber]
            refine hstops.2 x hx ⟨hstop.1,?_,?_⟩
            · rw [← (hk x).tid,← (hk curr).tid,hstop.2.1]
            · simpa only [ModelAction.isThreadStart,ModelAction.isFence,ModelAction.isAcquire,
                (hk x).type,(hk x).order] using hstop.2.2)
          (hsorted.2.imp fun {a b} hab ha hb => by
            rw [(hk a).seqNumber,(hk b).seqNumber]
            rw [(hk a).tid,(hk curr).tid] at ha
            rw [(hk b).tid,(hk curr).tid] at hb
            exact hab ha hb)
        refine ⟨r,List.mem_cons_of_mem _ hr,hry,fun hrf => hnone ?_⟩
        rw [hkeeps.readsFrom]
        exact hrf

/-! ### Checking again -/

/-- Each head is known in the end, and a sequence stays unless it is reported complete. -/
theorem resolveLoop_reports {location : Option Location} {l kept : List ReleaseSeq} {updated : Bool}
    {items : List WorkItem} (h : e.Informed) (hl : ∀ s ∈ l, e.Headed s)
    (hloop : resolveLoop location l updated e = .ok (e',kept,items)) :
    ∃ reports, resolveReports location l updated e = .ok reports ∧
      (∀ r ∈ reports, e'.Learns r.acquire r.heads ∧ (r.complete = false →
        ∃ s ∈ kept, s.acquire = r.acquire ∧ s.read = r.read)) ∧
      ∀ s ∈ l, (∃ s' ∈ kept, s'.acquire = s.acquire ∧ s'.read = s.read) ∨
        ∃ r ∈ reports, r.acquire = s.acquire ∧ r.read = s.read ∧ r.complete = true := by
  induction l generalizing e updated kept items with
  | nil => exact ⟨[],rfl,by simp,by simp⟩
  | cons pending rest ih =>
    rw [List.forall_mem_cons] at hl
    rw [resolveLoop] at hloop
    rw [resolveReports]
    split at hloop
    · rename_i hskip
      rw [if_pos hskip]
      obtain ⟨⟨e₁,kept₁,_⟩,h₁,hloop⟩ := bind_eq_ok.mp hloop
      obtain ⟨rfl,rfl,-⟩ : e₁ = e' ∧ pending :: kept₁ = kept ∧ _ := by simpa using hloop
      obtain ⟨reports,hreports,hlearns,hstays⟩ := ih h hl.2 h₁
      refine ⟨reports,hreports,fun r hr => ⟨(hlearns r hr).1,fun hcomplete => ?_⟩,fun s hs => ?_⟩
      · obtain ⟨s,hs,hsame⟩ := (hlearns r hr).2 hcomplete
        exact ⟨s,List.mem_cons_of_mem _ hs,hsame⟩
      rcases List.mem_cons.mp hs with rfl | hs
      · exact .inl ⟨s,List.mem_cons_self,rfl,rfl⟩
      · refine (hstays s hs).imp_left ?_
        rintro ⟨s',hs',hsame⟩
        exact ⟨s',List.mem_cons_of_mem _ hs',hsame⟩
    · rename_i hcheck
      rw [if_neg hcheck]
      obtain ⟨⟨heads,complete,sequence⟩,hheads,hloop⟩ := bind_eq_ok.mp hloop
      dsimp only at hloop
      obtain ⟨⟨e₂,_⟩,h₂,hloop⟩ := ite_bind_eq_ok.mp hloop
      obtain ⟨⟨e₃,kept₃,_⟩,h₃,hloop⟩ := bind_eq_ok.mp hloop
      obtain ⟨rfl,rfl,-⟩ : e₃ = e' ∧ (if complete then kept₃ else sequence :: kept₃) = kept ∧
        _ := by
        simpa using hloop
      obtain ⟨hnumbered,hsame,hheaded⟩ := releaseSeqHeads_spec h.toClocked hheads
      have hgrows := synchronizeNew_grows e pending.acquire heads
      have hnext := h.synchronizeNew hnumbered h₂
      have hheadedRest : ∀ s ∈ rest, e₂.Headed s := fun s hs =>
        (hgrows.trans hnext.2).toGains.headed (hl.2 s hs)
      obtain ⟨-,hlater,-⟩ := resolveLoop_informed hnext.1 hheadedRest h₃
      obtain ⟨reports,hreports,hlearns,hstays⟩ := ih hnext.1 hheadedRest h₃
      have hkept : ∀ s ∈ kept₃, s ∈ if complete then kept₃ else sequence :: kept₃ := fun s hs => by
        split
        · exact hs
        · exact List.mem_cons_of_mem _ hs
      have hfirst : complete = false →
          sequence ∈ if complete then kept₃ else sequence :: kept₃ := by
        intro hcomplete
        simp [hcomplete]
      refine ⟨⟨pending.acquire,pending.read,heads,complete⟩ :: reports,?_,fun r hr => ?_,
        fun s hs => ?_⟩
      · refine bind_eq_ok.mpr ⟨_,hheads,?_⟩
        refine ite_bind_eq_ok.mpr ⟨_,h₂,?_⟩
        exact bind_eq_ok.mpr ⟨_,hreports,rfl⟩
      · rcases List.mem_cons.mp hr with rfl | hr
        · refine ⟨(hnext.2.trans hlater).toGains.learns
            (synchronizeNew_learns h.toClocked hnumbered),
            fun hcomplete => ⟨sequence,hfirst hcomplete,hsame⟩⟩
        · refine ⟨(hlearns r hr).1,fun hcomplete => ?_⟩
          obtain ⟨s,hs,hsame⟩ := (hlearns r hr).2 hcomplete
          exact ⟨s,hkept s hs,hsame⟩
      · rcases List.mem_cons.mp hs with rfl | hs
        · cases hcomplete : complete with
          | true => exact .inr ⟨_,List.mem_cons_self,rfl,rfl,rfl⟩
          | false => exact .inl ⟨sequence,hcomplete ▸ hfirst hcomplete,hsame⟩
        · rcases hstays s hs with ⟨s',hs',hsame⟩ | ⟨r,hr,hsame⟩
          · exact .inl ⟨s',hkept s' hs',hsame⟩
          · exact .inr ⟨r,List.mem_cons_of_mem _ hr,hsame⟩

/-! ### Processing an entry -/

/-- A fence and a fixup do nothing else. -/
theorem checkCurrAction_plain {secondPartOfRmw : Bool} {node : Choices} {items : List WorkItem}
    (htype : (e.acts curr).type = .atomicFence ∨ (e.acts curr).type = .modelFixupRelseq)
    (h : e.checkCurrAction curr secondPartOfRmw node = .ok (e',items)) :
    ((e.acts curr).isFence = true → ∃ b, e.processFence curr = .ok (e',b)) ∧
      ((e.acts curr).isRelseqFixup = true →
        ∃ fixups, e.processRelseqFixup node.relseqBreak = .ok (e',fixups)) := by
  have hthread : e.processThreadAction curr = .ok (e,false) := by
    rcases htype with htype | htype <;> simp [processThreadAction,htype]
  have hread : (e.acts curr).isRead = false := by
    rcases htype with htype | htype <;> simp [ModelAction.isRead,htype]
  have hwrite : (e.acts curr).isWrite = false := by
    rcases htype with htype | htype <;> simp [ModelAction.isWrite,htype]
  have hmutex : (e.acts curr).isMutexOp = false := by
    rcases htype with htype | htype <;> simp [ModelAction.isMutexOp,htype]
  obtain ⟨⟨e₁,_⟩,h₁,h⟩ := bind_eq_ok.mp h
  obtain rfl : e = e₁ := congrArg Prod.fst (Except.ok.inj (hthread.symm.trans h₁))
  obtain ⟨⟨e₂,_⟩,h₂,h⟩ := ite_bind_eq_ok.mp h
  rw [if_neg (by simp [hread])] at h₂
  obtain rfl : e = e₂ := congrArg Prod.fst (Except.ok.inj h₂)
  obtain ⟨⟨e₃,_,_⟩,h₃,h⟩ := ite_bind_eq_ok.mp h
  rw [if_neg (by simp [hwrite])] at h₃
  obtain rfl : e = e₃ := congrArg Prod.fst (Except.ok.inj h₃)
  obtain ⟨⟨e₄,b⟩,h₄,h⟩ := ite_bind_eq_ok.mp h
  obtain ⟨⟨e₅,_⟩,h₅,h⟩ := ite_bind_eq_ok.mp h
  obtain ⟨⟨e₆,fixups⟩,h₆,h⟩ := ite_bind_eq_ok.mp h
  obtain rfl : e₆ = e' := congrArg Prod.fst (Except.ok.inj h)
  rcases htype with htype | htype
  · have hfixup : (e.acts curr).isRelseqFixup = false := by simp [ModelAction.isRelseqFixup,htype]
    rw [if_pos (by simp [ModelAction.isFence,htype])] at h₄
    have hsame : (e₄.acts curr).type = .atomicFence :=
      ((OrderSteps.keepsOrder (processFence_order h₄)).keeps curr).type.trans htype
    rw [if_neg (by simp [ModelAction.isMutexOp,hsame])] at h₅
    obtain rfl : e₄ = e₅ := congrArg Prod.fst (Except.ok.inj h₅)
    rw [if_neg (by simp [ModelAction.isRelseqFixup,hsame])] at h₆
    obtain rfl : e₄ = e₆ := congrArg Prod.fst (Except.ok.inj h₆)
    exact ⟨fun _ => ⟨b,h₄⟩,fun hnot => absurd (hfixup.symm.trans hnot) (by simp)⟩
  · have hfence : (e.acts curr).isFence = false := by simp [ModelAction.isFence,htype]
    rw [if_neg (by simp [hfence])] at h₄
    obtain rfl : e = e₄ := congrArg Prod.fst (Except.ok.inj h₄)
    rw [if_neg (by simp [hmutex])] at h₅
    obtain rfl : e = e₅ := congrArg Prod.fst (Except.ok.inj h₅)
    rw [if_pos (by simp [ModelAction.isRelseqFixup,htype])] at h₆
    exact ⟨fun hnot => absurd (hfence.symm.trans hnot) (by simp),fun _ => ⟨fixups,h₆⟩⟩

/-- Unless a write breaks it, the release of the sequence is known. -/
theorem processRelseqFixup_reports {write : Option ActionId} {items : List WorkItem}
    (h : e.Informed) (hfixup : e.processRelseqFixup write = .ok (e',items)) :
    (∀ r ∈ e.fixupReports write, e'.Learns r.acquire r.heads ∧ r.complete = true) ∧
      ∀ s ∈ e.pendingRelSeqs, e'.Recalls s.acquire s.read ∨
        ∃ r ∈ e.fixupReports write, r.acquire = s.acquire ∧ r.read = s.read ∧
        r.complete = true := by
  obtain ⟨-,-,hkept⟩ := processRelseqFixup_informed h hfixup
  unfold processRelseqFixup at hfixup
  split at hfixup
  · cases hfixup
  rename_i sequence hsequence
  have hreports : e.fixupReports write = [⟨sequence.acquire,sequence.read,
      if write.isSome then [] else sequence.release.toList,true⟩] := by
    unfold fixupReports
    rw [hsequence]
  rw [hreports]
  dsimp only at hfixup
  refine ⟨fun r hr => ?_,fun s hs => ?_⟩
  · rw [List.mem_singleton] at hr
    subst hr
    refine ⟨?_,rfl⟩
    split at hfixup
    · rename_i rf release _ hrelease
      obtain ⟨_,-,hfixup⟩ := bind_eq_ok.mp hfixup
      have hpos := h.releases sequence (List.mem_of_getLast? hsequence) release hrelease
      have hc : ({ e with pendingRelSeqs := e.pendingRelSeqs.dropLast } : Execution).Clocked :=
        (h.setPending fun s hs => h.releases s (List.mem_of_mem_dropLast hs)).toClocked
      cases write with
      | some write => exact fun _ ha => by cases ha
      | none =>
        dsimp only at hfixup
        have hlearns := synchronize_learns hc release sequence.acquire
        have hgains := (synchronize_grows
          ({ e with pendingRelSeqs := e.pendingRelSeqs.dropLast } : Execution) release
          sequence.acquire).toGains
        have hgrows : Gains (({ e with pendingRelSeqs := e.pendingRelSeqs.dropLast } :
            Execution).synchronize release sequence.acquire).1 e' := by
          split at hfixup
          · rename_i e₁ hsync
            obtain rfl : e₁ = e' := congrArg Prod.fst (Except.ok.inj hfixup)
            rw [hsync]
            exact ⟨fun _ => rfl,fun _ => rfl,fun _ _ => le_rfl,id⟩
          · rename_i e₁ hsync
            rw [hsync]
            exact (propagateClockvector_grows hfixup).toGains
        refine hgrows.learns fun a ha => ?_
        obtain rfl : a = release := by simpa [hrelease] using ha
        exact ⟨(hgains.seqNumber a).symm ▸ hpos,hlearns⟩
    · cases hfixup
  · rw [← List.dropLast_append_getLast? _ hsequence,List.mem_append,List.mem_singleton] at hs
    rcases hs with hs | rfl
    · exact .inl ⟨s,hkept hs,rfl,rfl⟩
    · exact .inr ⟨_,List.mem_singleton_self _,rfl,rfl,rfl⟩

/-! ### The start of a step -/

theorem processRmw_pending {act : ModelAction} {last : ActionId}
    (h : e.processRmw act = .ok (e',last)) : e'.pendingRelSeqs = e.pendingRelSeqs := by
  unfold processRmw at h
  split at h
  · cases h
  dsimp only at h
  split at h
  · obtain ⟨rfl,-⟩ : _ = e' ∧ _ := by simpa using h
    rfl
  · split at h
    · cases h
    · obtain ⟨g,_,h⟩ := bind_eq_ok.mp h
      obtain rfl : _ = e' := congrArg Prod.fst (Except.ok.inj h)
      rfl

theorem beginAction_pending {params : ExecutionParams} {act : ModelAction} {newlyExplored : Bool}
    {node : Choices} (h : e.beginAction params act newlyExplored node = some (e',curr)) :
    e'.pendingRelSeqs = e.pendingRelSeqs := by
  obtain ⟨⟨e₁,curr₁⟩,hinit,h⟩ := Option.bind_eq_some_iff.mp h
  have hinit := toOption_eq_some.mp hinit
  obtain ⟨_,_,h⟩ := Option.bind_eq_some_iff.mp h
  have hfirst : e₁.pendingRelSeqs = e.pendingRelSeqs := by
    unfold initializeCurrAction at hinit
    split at hinit
    · exact processRmw_pending hinit
    · obtain rfl : (e.newAction act).1 = e₁ := congrArg Prod.fst (Except.ok.inj hinit)
      rfl
  split at h
  · obtain rfl : e₁ = e' := congrArg Prod.fst (Option.some.inj h)
    exact hfirst
  · obtain ⟨_,_,h⟩ := Option.bind_eq_some_iff.mp h
    obtain ⟨e₂,hadd,h⟩ := Option.bind_eq_some_iff.mp h
    have hsecond := (addActionToLists_rest (toOption_eq_some.mp hadd)).2.2.trans hfirst
    split at h
    · obtain ⟨e₃,hread,h⟩ := Option.bind_eq_some_iff.mp h
      obtain rfl : e₃ = e' := congrArg Prod.fst (Option.some.inj h)
      exact (checkRead_quiet hread).pending.trans hsecond
    · obtain rfl : e₂ = e' := congrArg Prod.fst (Option.some.inj h)
      exact hsecond

/-! ### Later states -/

theorem Learns.heard {r : Report} (h : e.Informed)
    (hl : e.Learns r.acquire r.heads) (hadvances : Advances e e') (h' : e'.Informed)
    (hbad : e'.badSynchronization = false) : e'.Heard r := by
  intro a ha
  obtain ⟨hpos,hknows⟩ := hl a ha
  have hknows : Knows e.clocks a r.acquire :=
    hknows.resolve_left fun hb => absurd (hbad.symm.trans (hadvances.bad hb)) (by simp)
  have hacquire : 0 < (e.acts r.acquire).seqNumber := hpos.trans_le (h.sound.le_of_knows hknows)
  have hpos' : 0 < (e'.acts a).seqNumber := (hadvances.same a hpos).2.1.symm ▸ hpos
  have hacquire' : 0 < (e'.acts r.acquire).seqNumber :=
    (hadvances.same r.acquire hacquire).2.1.symm ▸ hacquire
  have hlater := hadvances.knows hpos hacquire hknows
  refine ⟨(knows_iff_happensBefore hpos').mp hlater,fun b hb => ?_⟩
  exact (knows_iff_happensBefore hpos').mp
    (h'.closed.knows_trans hlater ((knows_iff_happensBefore hacquire').mpr hb))

/-- What happens before an action happens before all later ones of its thread. -/
theorem Informed.happensBefore_later (h : e.Informed) (hr : e.Recorded) (hl : e.Listed)
    {a f b : ActionId} (ha : a ∈ e.actionTrace) (hb : b ∈ e.actionTrace)
    (htid : (e.acts f).tid = (e.acts b).tid) (hlt : (e.acts f).seqNumber < (e.acts b).seqNumber)
    (haf : e.happensBefore a f = true) : e.happensBefore a b = true := by
  rcases Nat.eq_zero_or_pos (e.acts a).seqNumber with hzero | hpos
  · -- an uninitialized action is of the model thread, which every clock vector has
    have hmodel : (e.acts a).tid = 0 := by
      by_contra hne
      exact absurd (hr.numbered ha hne) (Nat.not_lt.mpr hzero.le)
    have hown := hl.own b hb
    rw [ClockVector.synchronizedSince,Bool.and_eq_true,decide_eq_true_eq] at hown
    rw [Execution.happensBefore,ModelAction.happensBefore,ClockVector.synchronizedSince,hmodel,
      hzero]
    simp [Nat.zero_lt_of_lt hown.1]
  · have hfb : Knows e.clocks f b := by
      have hown := h.sound.own b
      change (e.acts f).seqNumber ≤ (e.acts b).cv.getClock (e.acts f).tid
      rw [htid]
      exact hlt.le.trans_eq hown.symm
    exact (knows_iff_happensBefore hpos).mp
      (h.closed.knows_trans ((knows_iff_happensBefore hpos).mpr haf) hfb)

end Execution
namespace Config

open Execution VectorClocks Relation

variable {params : ExecutionParams} {c c' : Config}

/-- An entry of the queue is processed, with its reports. -/
inductive Works (c : Config) : Config → List Report → Prop
  | work {curr : ActionId} {secondPartOfRmw : Bool} {node : Choices} {item : WorkItem}
      {queue items : List WorkItem} {e : Execution} {reports : List Report}
      (hphase : c.phase = .work curr secondPartOfRmw node (item :: queue))
      (hasserted : c.exec.asserted = false)
      (he : c.exec.processWork curr secondPartOfRmw node item = .ok (e,items))
      (hreports : c.exec.workReports curr node item = .ok reports) :
      Works c { c with exec := e,phase := .work curr secondPartOfRmw node (queue ++ items) } reports

theorem Works.change {reports : List Report} (h : c.Works c' reports) : Change params c c' := by
  cases h with
  | work hphase hasserted he hreports => exact .work _ _ _ _ _ _ _ hphase hasserted he

/-- The heads are known, and a sequence stays until it is reported complete. -/
theorem processWork_reports {curr : ActionId} {secondPartOfRmw : Bool} {node : Choices}
    {item : WorkItem} {queue items : List WorkItem} {e : Execution} (hs : c.Sane) (hi : c.Informed)
    (hphase : c.phase = .work curr secondPartOfRmw node (item :: queue))
    (he : c.exec.processWork curr secondPartOfRmw node item = .ok (e,items)) :
    ∃ reports, c.exec.workReports curr node item = .ok reports ∧
      (∀ r ∈ reports, e.Learns r.acquire r.heads ∧
        (r.complete = false → e.Recalls r.acquire r.read)) ∧
      ∀ s ∈ c.exec.pendingRelSeqs, e.Recalls s.acquire s.read ∨
        ∃ r ∈ reports, r.acquire = s.acquire ∧ r.read = s.read ∧ r.complete = true := by
  cases item with
  | checkCurrAction =>
    have hgrows := (checkCurr_informed hs hi hphase he).2.2
    have hrecalls (hnot : (c.exec.acts curr).isRelseqFixup = false) :
        ∀ s ∈ c.exec.pendingRelSeqs, e.Recalls s.acquire s.read :=
      fun s hs => ⟨s,(hgrows hnot).pending hs,rfl,rfl⟩
    unfold workReports
    dsimp only
    split
    · rename_i hfence
      rw [Bool.and_eq_true] at hfence
      have htype := beq_iff_eq.mp hfence.1
      have hnot : (c.exec.acts curr).isRelseqFixup = false := by
        simp [ModelAction.isRelseqFixup,htype]
      obtain ⟨b,hprocess⟩ := (checkCurrAction_plain (.inl htype) he).1 hfence.1
      rw [processFence,if_pos hfence.2] at hprocess
      have hunknown : c.exec.Unknown curr := by
        cases secondPartOfRmw with
        | false => exact hi.first _ _ _ hphase List.mem_cons_self
        | true =>
          have hread := hi.second _ _ _ hphase List.mem_cons_self
          simp [ModelAction.isRead,htype] at hread
      obtain ⟨reports,hreports,hall⟩ := fenceLoop_reports hi.exec hunknown hprocess
      refine ⟨reports,hreports,fun r hr => ?_,fun s hs => .inl (hrecalls hnot s hs)⟩
      obtain ⟨hacquire,hlearns,hpending⟩ := hall r hr
      exact ⟨hacquire.symm ▸ hlearns,fun hcomplete => hacquire.symm ▸ hpending hcomplete⟩
    · split
      · rename_i hfixup
        obtain ⟨fixups,hprocess⟩ := (checkCurrAction_plain (.inr (beq_iff_eq.mp hfixup)) he).2
          hfixup
        obtain ⟨hall,hkept⟩ := processRelseqFixup_reports hi.exec hprocess
        refine ⟨_,rfl,fun r hr => ⟨(hall r hr).1,fun hnot => ?_⟩,hkept⟩
        exact absurd (hnot.symm.trans (hall r hr).2) (by simp)
      · rename_i hnot
        rw [Bool.not_eq_true] at hnot
        exact ⟨[],rfl,by simp,fun s hs => .inl (hrecalls hnot s hs)⟩
  | checkReleaseSeq location =>
    obtain ⟨⟨e₁,kept,items'⟩,h₁,he⟩ := bind_eq_ok.mp he
    obtain rfl : _ = e := congrArg Prod.fst (Except.ok.inj he)
    obtain ⟨reports,hreports,hall,hkept⟩ := resolveLoop_reports hi.exec hi.exec.releases h₁
    exact ⟨reports,hreports,hall,hkept⟩
  | checkMoEdges act =>
    have hpending := (checkMoEdges_quiet he).pending
    exact ⟨[],rfl,by simp,fun s hs => .inl ⟨s,hpending.symm ▸ hs,rfl,rfl⟩⟩

/-- Only the processing of an entry ends a pending sequence. -/
theorem Change.recalls (h : Change params c c') (hs : c.Sane) (hi : c.Informed) {q y : ActionId}
    (hrecalls : c.exec.Recalls q y) : c'.exec.Recalls q y ∨ ∃ reports, c.Works c' reports ∧
      ∃ r ∈ reports, r.acquire = q ∧ r.read = y ∧ r.complete = true := by
  obtain ⟨s,hmem,rfl,rfl⟩ := hrecalls
  have hquiet {e : Execution} (hpending : e.pendingRelSeqs = c.exec.pendingRelSeqs) :
      e.Recalls s.acquire s.read := ⟨s,hpending.symm ▸ hmem,rfl,rfl⟩
  rcases h.quiet_cases with ⟨hsame,-⟩ |
    ⟨curr,secondPartOfRmw,node,item,queue,items,e,hphase,hasserted,he,rfl⟩ |
    ⟨t,newlyExplored,node,e,act,curr,hphase,hpending,hbegin,hphase'⟩
  · exact .inl (hquiet hsame.pending)
  · obtain ⟨reports,hreports,-,hkept⟩ := processWork_reports hs hi hphase he
    exact (hkept s hmem).imp id fun hreported =>
      ⟨reports,.work hphase hasserted he hreports,hreported⟩
  · obtain ⟨th,hth,hact,-,rfl,-⟩ := takePending_spec hpending
    exact .inl (hquiet ((beginAction_pending hbegin).trans rfl))

/-! ### Runs -/

theorem run_informed (h : ReflTransGen (Change params) c c') (hs : c.Sane) (hi : c.Informed) :
    c'.Sane ∧ c'.Informed ∧ Advances c.exec c'.exec := by
  induction h with
  | refl => exact ⟨hs,hi,.refl _⟩
  | tail _ hstep ih =>
    obtain ⟨hs',hi',hadvances⟩ := ih
    obtain ⟨hi'',hstep'⟩ := hstep.informed hs' hi'
    exact ⟨hstep.sane hs',hi'',hadvances.trans hstep'⟩

/-- A pending sequence stays until some processing of an entry reports it complete. -/
theorem run_recalls (h : ReflTransGen (Change params) c c') (hs : c.Sane) (hi : c.Informed)
    {q y : ActionId} (hrecalls : c.exec.Recalls q y) : c'.exec.Recalls q y ∨
      ∃ c₁ c₂ reports, ReflTransGen (Change params) c c₁ ∧ c₁.Works c₂ reports ∧
        ReflTransGen (Change params) c₂ c' ∧
        ∃ r ∈ reports, r.acquire = q ∧ r.read = y ∧ r.complete = true := by
  induction h with
  | refl => exact .inl hrecalls
  | @tail c₁ c₂ hrun hstep ih =>
    rcases ih with hrecalls' | ⟨c₃,c₄,reports,hrun₃,hworks,hrun₄,hreported⟩
    · obtain ⟨hs',hi',-⟩ := run_informed hrun hs hi
      refine (hstep.recalls hs' hi' hrecalls').imp_right ?_
      rintro ⟨reports,hworks,hreported⟩
      exact ⟨c₁,c₂,reports,hrun,hworks,.refl,hreported⟩
    · exact .inr ⟨c₃,c₄,reports,hrun₃,hworks,hrun₄.tail hstep,hreported⟩

/-- What an entry reports is known from then on, and recorded if it is uncertain. -/
theorem Works.heard {reports : List Report} (h : c.Works c' reports) (hs : c.Sane)
    (hi : c.Informed) {r : Report} (hr : r ∈ reports) :
    (r.complete = false → c'.exec.Recalls r.acquire r.read) ∧
      ∀ c₁, ReflTransGen (Change params) c' c₁ → c₁.exec.badSynchronization = false →
        c₁.exec.Heard r := by
  have hchange : Change params c c' := h.change
  cases h with
  | work hphase hasserted he hreports =>
    obtain ⟨reports',hreports',hall,-⟩ := processWork_reports hs hi hphase he
    obtain rfl : reports' = _ := Except.ok.inj (hreports'.symm.trans hreports)
    refine ⟨(hall r hr).2,fun c₁ hrun hbad => ?_⟩
    have hnext := (hchange.informed hs hi).1
    obtain ⟨-,hi',hadvances⟩ := run_informed hrun (hchange.sane hs) hnext
    exact Learns.heard hnext.exec (hall r hr).1 hadvances hi'.exec hbad

/-- The fence asks about each read since the previous acquire fence of the thread. -/
theorem fence_asked {curr y : ActionId} {reports : List Report} (hs : c.Sane)
    (hmem : curr ∈ c.exec.actionTrace) (hcurr : c.exec.ValidCurr curr)
    (hfence : (c.exec.acts curr).isFence = true)
    (hreports : fenceReports curr c.exec.actionTrace.reverse c.exec = .ok reports)
    (hy : y ∈ c.exec.actionTrace) (htid : (c.exec.acts y).tid = (c.exec.acts curr).tid)
    (hread : (c.exec.acts y).isRead = true) (hacquire : (c.exec.acts y).isAcquire = false)
    (hbetween : ∀ f ∈ c.exec.actionTrace, (c.exec.acts f).tid = (c.exec.acts curr).tid →
      (c.exec.acts f).isFence = true → (c.exec.acts f).isAcquire = true →
      (c.exec.acts y).seqNumber < (c.exec.acts f).seqNumber →
      (c.exec.acts curr).seqNumber ≤ (c.exec.acts f).seqNumber) :
    ∃ r ∈ reports, r.read = y ∧ ((c.exec.acts y).readsFrom = none → r.complete = false) := by
  have hrecorded := hs.recorded.exec
  have huser := hcurr.user
  have hinjective : ∀ x ∈ c.exec.actionTrace, ∀ z ∈ c.exec.actionTrace,
      (c.exec.acts x).tid = (c.exec.acts curr).tid → (c.exec.acts z).tid = (c.exec.acts curr).tid →
      (c.exec.acts x).seqNumber = (c.exec.acts z).seqNumber → x = z := fun x hx z hz htx htz =>
    hrecorded.seqNumber_injective hx hz (htx ▸ huser) (htz ▸ huser)
  refine fenceReports_asked hreports (List.mem_reverse.mpr hy) ?_ htid hread hacquire
    (fun x hx hstop => ?_) (List.pairwise_reverse.mpr (hrecorded.sorted.imp fun hab hb ha => ?_))
  · rintro rfl
    simp [ModelAction.isRead,beq_iff_eq.mp hfence] at hread
  · obtain ⟨hne,htx,hkind⟩ := hstop
    have hx := List.mem_reverse.mp hx
    have hdiffers : x ≠ y := by
      rintro rfl
      rcases hkind with hstart | ⟨hother,-⟩
      · simp [ModelAction.isRead,beq_iff_eq.mp hstart] at hread
      · simp [ModelAction.isRead,beq_iff_eq.mp hother] at hread
    refine lt_of_le_of_ne ?_ fun heq => hdiffers (hinjective x hx y hy htx htid heq)
    rcases hkind with hstart | ⟨hother,hacq⟩
    · exact (hs.started.first x hx hstart).2 y hy (htid.trans htx.symm)
    · refine Nat.le_of_not_lt fun hlt => ?_
      have hle := hs.ordered.exec.listed.last _ curr huser hcurr.last x hx htx
      exact hne (hinjective x hx curr hmem htx rfl
        (hle.antisymm (hbetween x hx htx hother hacq hlt)))
  · exact hab (ha ▸ huser) (hb ▸ huser)

/-- An acquire fence synchronizes with everything it should. -/
structure SynchronizesFences (params : ExecutionParams) (c : Config) : Prop where
  reported : ∀ {curr secondPartOfRmw node item queue items e},
    c.phase = .work curr secondPartOfRmw node (item :: queue) →
    c.exec.processWork curr secondPartOfRmw node item = .ok (e,items) →
    ∃ reports, c.exec.workReports curr node item = .ok reports
  asked : ∀ {curr secondPartOfRmw node queue reports},
    c.phase = .work curr secondPartOfRmw node (.checkCurrAction :: queue) →
    (c.exec.acts curr).isFence = true → (c.exec.acts curr).isAcquire = true →
    c.exec.workReports curr node .checkCurrAction = .ok reports →
    ∀ y ∈ c.exec.actionTrace, (c.exec.acts y).tid = (c.exec.acts curr).tid →
    (c.exec.acts y).isRead = true → (c.exec.acts y).isAcquire = false →
    (∀ f ∈ c.exec.actionTrace, (c.exec.acts f).tid = (c.exec.acts curr).tid →
      (c.exec.acts f).isFence = true → (c.exec.acts f).isAcquire = true →
      (c.exec.acts y).seqNumber < (c.exec.acts f).seqNumber →
      (c.exec.acts curr).seqNumber ≤ (c.exec.acts f).seqNumber) →
    ∃ r ∈ reports, r.acquire = curr ∧ r.read = y ∧
      ((c.exec.acts y).readsFrom = none → r.complete = false)
  heard : ∀ {c₁ reports}, c.Works c₁ reports → ∀ r ∈ reports,
    ∀ c', ReflTransGen (Change params) c₁ c' → c'.exec.badSynchronization = false → c'.exec.Heard r
  recorded : ∀ {c₁ reports}, c.Works c₁ reports → ∀ r ∈ reports, r.complete = false →
    c₁.exec.Recalls r.acquire r.read
  recalls : ∀ {c' q y}, ReflTransGen (Change params) c c' → c.exec.Recalls q y →
    c'.exec.Recalls q y ∨ ∃ c₁ c₂ reports, ReflTransGen (Change params) c c₁ ∧
      c₁.Works c₂ reports ∧ ReflTransGen (Change params) c₂ c' ∧
      ∃ r ∈ reports, r.acquire = q ∧ r.read = y ∧ r.complete = true
  earlier : ∀ a ∈ c.exec.actionTrace, ∀ f ∈ c.exec.actionTrace, ∀ b ∈ c.exec.actionTrace,
    (c.exec.acts f).tid = (c.exec.acts b).tid →
    (c.exec.acts f).seqNumber < (c.exec.acts b).seqNumber →
    c.exec.happensBefore a f = true → c.exec.happensBefore a b = true

/-- Every head that is reported to an acquire fence, now or later, happens before it and before all
that it happens before. An uncertain sequence stays recorded until it is resolved. -/
theorem Reachable.synchronizesFences (h : Reachable params c) : c.SynchronizesFences params := by
  obtain ⟨hs,hi⟩ := h.informed
  refine ⟨fun hphase he => ?_,
    fun hphase hfence hacquire hreports y hy htid hread hnot hbetween => ?_,
    fun hworks r hr c' hrun hbad => ?_,fun hworks r hr hcomplete => ?_,
    fun hrun hrecalls => run_recalls hrun hs hi hrecalls,fun a ha f hf b hb htid hlt haf => ?_⟩
  · obtain ⟨reports,hreports,-⟩ := processWork_reports hs hi hphase he
    exact ⟨reports,hreports⟩
  · unfold workReports at hreports
    dsimp only at hreports
    rw [if_pos (Bool.and_eq_true_iff.mpr ⟨hfence,hacquire⟩)] at hreports
    obtain ⟨r,hr,hry,hnone⟩ := fence_asked hs (hs.recorded.curr _ _ _ _ hphase)
      (hs.valid.curr _ _ _ _ hphase).1 hfence hreports hy htid hread hnot hbetween
    exact ⟨r,hr,fenceReports_acquire hreports r hr,hry,hnone⟩
  · exact (hworks.heard hs hi hr).2 c' hrun hbad
  · obtain ⟨hrecalls,-⟩ := @Works.heard params _ _ _ hworks hs hi _ hr
    exact hrecalls hcomplete
  · exact hi.exec.happensBefore_later hs.recorded.exec hs.ordered.exec.listed ha hb htid hlt haf

/-- The reports of the entry that is next. -/
def nextReports (c : Config) : List Report :=
  match c.phase with
  | .work curr _ node (item :: _) => (c.exec.workReports curr node item).toOption.getD []
  | _ => []

open Input in
/-- A relaxed load reads from a release sequence that is certain only when the other threads have
completed, after an acquire fence behind the load. -/
def lateFence : List Input :=
  [ofThread .threadStart 1,go 1 {},store .relaxed 10 0,go 1 {},ofObject .threadCreate 100,go 1 {},
    ofObject .threadCreate 101,ofThread .threadStart 2,go 2 {},load .relaxed 10,go 1 {},
    store .release 10 1,ofThread .threadStart 3,go 3 {},ofThread .threadFinish 3,go 1 {},
    store .relaxed 10 2,go 1 {},ofThread .threadFinish 1,go 2 { readFrom := .past 8 },
    .act .atomicFence .acquire .fence valueNone]

open Input in
theorem synchronizesFences_lateFence :
    (∃ c, Reachable {} c ∧ c.nextReports = [⟨10,9,[],false⟩] ∧ c.SynchronizesFences {}) ∧
      ∃ c, Reachable {} c ∧ c.nextReports = [⟨10,9,[7],true⟩] ∧ c.SynchronizesFences {} := by
  have hfence : ((play {} lateFence init).bind fun c => c.step {} (go 2 {})).any
      (fun c => decide (c.nextReports = [⟨10,9,[],false⟩])) = true := by
    decide +kernel
  have hlater : ((play {} (lateFence ++ [go 2 {},ofThread .threadFinish 2,go 3 {}]) init).bind
    fun c =>
      (c.step {} (go 2 {})).bind fun c => c.step {} .proceed).any
      (fun c => decide (c.nextReports = [⟨10,9,[7],true⟩])) = true := by
    decide +kernel
  obtain ⟨c,hc,hreports⟩ := (Option.any_eq_true _ _).mp hfence
  obtain ⟨c',hc',hreports'⟩ := (Option.any_eq_true _ _).mp hlater
  obtain ⟨c₀,hplay,hstep⟩ := Option.bind_eq_some_iff.mp hc
  obtain ⟨c₁,hplay',hc'⟩ := Option.bind_eq_some_iff.mp hc'
  obtain ⟨c₂,hstep₂,hstep₃⟩ := Option.bind_eq_some_iff.mp hc'
  have hreachable := (reachable_of_play hplay).step hstep
  have hreachable' := ((reachable_of_play hplay').step hstep₂).step hstep₃
  exact ⟨⟨c,hreachable,of_decide_eq_true hreports,Reachable.synchronizesFences hreachable⟩,
    c',hreachable',of_decide_eq_true hreports',Reachable.synchronizesFences hreachable'⟩

/-! ### One acquire fence -/

/-- A load of the fence's thread that is no acquire, with no acquire fence in between. -/
structure LoadBefore (e : Execution) (fence y : ActionId) : Prop where
  mem : y ∈ e.actionTrace
  tid : (e.acts y).tid = (e.acts fence).tid
  read : (e.acts y).isRead = true
  relaxed : (e.acts y).isAcquire = false
  between : ∀ f ∈ e.actionTrace, (e.acts f).tid = (e.acts fence).tid →
    (e.acts f).isFence = true → (e.acts f).isAcquire = true →
    (e.acts y).seqNumber < (e.acts f).seqNumber → (e.acts fence).seqNumber ≤ (e.acts f).seqNumber

/-- What follows from a report, in the runs from the end of the entry on. -/
structure Lasting (params : ExecutionParams) (c : Config) (r : Report) : Prop where
  heard : ∀ c', ReflTransGen (Change params) c c' → c'.exec.badSynchronization = false →
    c'.exec.Heard r
  recorded : r.complete = false → ∀ c', ReflTransGen (Change params) c c' →
    c'.exec.Recalls r.acquire r.read ∨ ∃ c₁ c₂ reports, ReflTransGen (Change params) c c₁ ∧
      c₁.Works c₂ reports ∧ ReflTransGen (Change params) c₂ c' ∧
      ∃ r' ∈ reports, r'.acquire = r.acquire ∧ r'.read = r.read ∧ r'.complete = true
  later : ∀ c₁ c₂ reports, ReflTransGen (Change params) c c₁ → c₁.Works c₂ reports →
    ∀ r' ∈ reports, r'.acquire = r.acquire → ∀ c', ReflTransGen (Change params) c₂ c' →
      c'.exec.badSynchronization = false → c'.exec.Heard r'

theorem Works.lasting {reports : List Report} (h : c.Works c' reports) (hs : c.Sane)
    (hi : c.Informed) {r : Report} (hr : r ∈ reports) : Lasting params c' r := by
  have hchange : Change params c c' := h.change
  obtain ⟨hrecalls,hheard⟩ := h.heard hs hi hr
  have hs' := hchange.sane hs
  have hi' := (hchange.informed hs hi).1
  refine ⟨hheard,fun hcomplete c₁ hrun => run_recalls hrun hs' hi' (hrecalls hcomplete),
    fun c₁ c₂ reports₁ hrun hworks r' hr' _ => ?_⟩
  obtain ⟨hs₁,hi₁,-⟩ := run_informed hrun hs' hi'
  exact (hworks.heard hs₁ hi₁ hr').2

/-- The entry that executes an acquire fence asks about each load since the previous one, and what
it reports lasts. -/
theorem Reachable.acquireFence_lasting (h : Reachable params c) {curr : ActionId}
    {secondPartOfRmw : Bool} {node : Choices} {queue items : List WorkItem} {e : Execution}
    (hphase : c.phase = .work curr secondPartOfRmw node (.checkCurrAction :: queue))
    (hasserted : c.exec.asserted = false) (hfence : (c.exec.acts curr).isFence = true)
    (hacquire : (c.exec.acts curr).isAcquire = true)
    (he : c.exec.processWork curr secondPartOfRmw node .checkCurrAction = .ok (e,items))
    (hc' : c' = { c with exec := e,phase := .work curr secondPartOfRmw node (queue ++ items) }) :
    (∃ reports, c.Works c' reports ∧ ∀ y, LoadBefore c.exec curr y →
      ∃ r ∈ reports, r.acquire = curr ∧ r.read = y ∧
        ((c.exec.acts y).readsFrom = none → r.complete = false) ∧ Lasting params c' r) ∧
    ∀ c₁, ReflTransGen (Change params) c' c₁ → ∀ f ∈ c₁.exec.actionTrace,
      (c₁.exec.acts f).tid = (c₁.exec.acts curr).tid →
      (c₁.exec.acts f).seqNumber < (c₁.exec.acts curr).seqNumber →
      ∀ a ∈ c₁.exec.actionTrace, c₁.exec.happensBefore a f = true →
        c₁.exec.happensBefore a curr = true := by
  obtain ⟨hs,hi⟩ := h.informed
  obtain ⟨reports,hreports,-⟩ := processWork_reports hs hi hphase he
  have hworks : c.Works c' reports := hc' ▸ .work hphase hasserted he hreports
  have hchange : Change params c c' := hworks.change
  refine ⟨⟨reports,hworks,fun y hy => ?_⟩,fun c₁ hrun f hf htid hlt a ha haf => ?_⟩
  · unfold workReports at hreports
    dsimp only at hreports
    rw [if_pos (Bool.and_eq_true_iff.mpr ⟨hfence,hacquire⟩)] at hreports
    obtain ⟨r,hr,hread,hnone⟩ := fence_asked hs (hs.recorded.curr _ _ _ _ hphase)
      (hs.valid.curr _ _ _ _ hphase).1 hfence hreports hy.mem hy.tid hy.read hy.relaxed hy.between
    exact ⟨r,hr,fenceReports_acquire hreports r hr,hread,hnone,hworks.lasting hs hi hr⟩
  · obtain ⟨hs₁,hi₁,hadvances⟩ := run_informed hrun (hchange.sane hs) (hchange.informed hs hi).1
    have hpos : 0 < (c₁.exec.acts curr).seqNumber := Nat.zero_lt_of_lt hlt
    exact hi₁.exec.happensBefore_later hs₁.recorded.exec hs₁.ordered.exec.listed ha
      (hi₁.exec.listed curr hpos) htid hlt haf

open Input in
theorem acquireFence_lasting_lateFence : ∃ c c' reports, Reachable {} c ∧
    (c.exec.acts 9).readsFrom = some 8 ∧ c.Works c' reports ∧
      ∃ r ∈ reports, r.acquire = 10 ∧ r.read = 9 ∧ Lasting {} c' r := by
  have hplay : ((play {} lateFence init).bind fun c => c.step {} (go 2 {})).any
      (fun c => decide (c.phase = .work 10 false {} [.checkCurrAction] ∧
        c.exec.asserted = false ∧ (c.exec.acts 10).isFence = true ∧
          (c.exec.acts 10).isAcquire = true ∧ (c.exec.acts 9).readsFrom = some 8 ∧
        (c.exec.processWork 10 false {} .checkCurrAction).toOption.isSome = true ∧
        9 ∈ c.exec.actionTrace ∧ (c.exec.acts 9).tid = (c.exec.acts 10).tid ∧
          (c.exec.acts 9).isRead = true ∧ (c.exec.acts 9).isAcquire = false ∧
        ∀ f ∈ c.exec.actionTrace, (c.exec.acts f).isFence = true → f = 10)) = true := by
    decide +kernel
  obtain ⟨c,hc,hfacts⟩ := (Option.any_eq_true _ _).mp hplay
  obtain ⟨hphase,hasserted,hfence,hacquire,hrf,hworks,hmem,htid,hread,hrelaxed,honly⟩ :=
    of_decide_eq_true hfacts
  obtain ⟨c₀,hplay,hstep⟩ := Option.bind_eq_some_iff.mp hc
  have hreachable := (reachable_of_play hplay).step hstep
  obtain ⟨⟨e,items⟩,he⟩ := Option.isSome_iff_exists.mp hworks
  have hload : LoadBefore c.exec 10 9 := by
    refine ⟨hmem,htid,hread,hrelaxed,fun f hf _ hff _ _ => ?_⟩
    rw [honly f hf hff]
  obtain ⟨reports,hworks,hasked⟩ := (Reachable.acquireFence_lasting hreachable hphase hasserted
    hfence hacquire (toOption_eq_some.mp he) rfl).1
  obtain ⟨r,hr,hcurr,hy,-,hlasting⟩ := hasked 9 hload
  exact ⟨c,_,reports,hreachable,hrf,hworks,r,hr,hcurr,hy,hlasting⟩

end Config
end CdsChecker
