import CdsChecker.ReleaseFences
import CdsChecker.WriteOrderRuns

/-! The heads that the search for release sequences reports, against the release sequences of the
memory model. -/
namespace CdsChecker
namespace Execution

open Relation

/-- The writes of a location. -/
def WriteOn (e : Execution) (l : Location) (a : ActionId) : Prop :=
  a ∈ e.actionTrace ∧ (e.acts a).isWrite = true ∧ (e.acts a).location = l

/-- A write comes before another write of the location by a path of the graph, or since it happens
before it. -/
def MoStep (e : Execution) (l : Location) (a b : ActionId) : Prop :=
  e.WriteOn l a ∧ e.WriteOn l b ∧ a ≠ b ∧
    (ReflTransGen e.moGraph.order.edge (.action a) (.action b) ∨ e.happensBefore a b = true)

/-- What is known of the modification order. -/
def MoBefore (e : Execution) (l : Location) : ActionId → ActionId → Prop := TransGen (e.MoStep l)

/-- The release sequence that a write heads: later writes of its thread, unless another thread's
write other than an RMW may come between, and the RMWs that read from the sequence, since nothing
comes between an RMW and what it reads. -/
inductive InSequence (e : Execution) (a : ActionId) : ActionId → Prop
  | head : InSequence e a a
  | own {x : ActionId} (hx : e.WriteOn (e.acts a).location x)
      (htid : (e.acts a).tid = (e.acts x).tid)
      (hseq : (e.acts a).seqNumber < (e.acts x).seqNumber)
      (hother : ∀ w, e.WriteOn (e.acts a).location w → (e.acts w).tid ≠ (e.acts x).tid →
        (e.acts w).isRmw = false →
          e.MoBefore (e.acts a).location w a ∨ e.MoBefore (e.acts a).location x w) :
      InSequence e a x
  | rmw {x r : ActionId} (hrmw : (e.acts r).isRmw = true) (hreads : (e.acts r).readsFrom = some x)
      (hx : InSequence e a x) : InSequence e a r

/-- What an acquire that reads from `rf` may synchronize with: a release write that heads a release
sequence with `rf`, or a release fence before a write that would head one. -/
inductive SequenceHead (e : Execution) (rf : ActionId) : ActionId → Prop
  | write {a : ActionId} (ha : e.WriteOn (e.acts rf).location a)
      (hrelease : (e.acts a).isRelease = true) (hrf : e.InSequence a rf) : SequenceHead e rf a
  | fence {f x : ActionId} (hf : f ∈ e.actionTrace) (hfence : (e.acts f).isFence = true)
      (hrelease : (e.acts f).isRelease = true) (htid : (e.acts f).tid = (e.acts x).tid)
      (hseq : (e.acts f).seqNumber < (e.acts x).seqNumber)
      (hx : e.WriteOn (e.acts rf).location x) (hrf : e.InSequence x rf) : SequenceHead e rf f

/-- An action with a release order that is no write, before a relaxed store of its thread on its
location. -/
def Misleads (e : Execution) (a x : ActionId) : Prop :=
  ((e.acts x).isWrite = true ∧ (e.acts x).isRmw = false ∧ (e.acts x).isRelease = false) ∧
    (e.acts a).tid = (e.acts x).tid ∧ onLocation (e.acts a) (e.acts x).location = true ∧
    (e.acts a).isRelease = true ∧ (e.acts a).isWrite = false ∧
    (e.acts a).seqNumber < (e.acts x).seqNumber

/-- A release fence, or a release write to the location, between the two. -/
def Renews (e : Execution) (a x b : ActionId) : Prop :=
  (e.acts b).tid = (e.acts x).tid ∧ (e.acts b).isRelease = true ∧
    (e.acts a).seqNumber < (e.acts b).seqNumber ∧ (e.acts b).seqNumber < (e.acts x).seqNumber ∧
    ((e.acts b).isFence = true ∨
      (e.acts b).isWrite = true ∧ (e.acts b).location = (e.acts x).location)

instance (e : Execution) (a x : ActionId) : Decidable (e.Misleads a x) :=
  inferInstanceAs (Decidable ((_ ∧ _ ∧ _) ∧ _ ∧ _ ∧ _ ∧ _ ∧ _))

instance (e : Execution) (a x b : ActionId) : Decidable (e.Renews a x b) :=
  inferInstanceAs (Decidable (_ ∧ _ ∧ _ ∧ _ ∧ (_ ∨ _ ∧ _)))

/-- The last action with a release order before a relaxed store, in its thread and on its location
or a fence, is a write or a fence. -/
def ReleasesWrite (e : Execution) : Prop :=
  ∀ x ∈ e.actionTrace, ∀ a ∈ e.actionTrace, e.Misleads a x → ∃ b ∈ e.actionTrace, e.Renews a x b

instance (e : Execution) : Decidable e.ReleasesWrite :=
  inferInstanceAs (Decidable (∀ x ∈ e.actionTrace, ∀ a ∈ e.actionTrace, e.Misleads a x →
    ∃ b ∈ e.actionTrace, e.Renews a x b))

variable {e : Execution} {rf : ActionId}

/-! ### The chain of RMWs -/

/-- A link of the chain: a write to the location whose release sequences reach `rf`. -/
structure Link (e : Execution) (rf x : ActionId) : Prop where
  on : e.WriteOn (e.acts rf).location x
  reaches : ∀ a, e.InSequence a x → e.InSequence a rf

theorem Link.fence {x f : ActionId} (h : e.Link rf x) (hf : e.Fencing)
    (hfence : (e.acts x).lastFenceRelease = some f) : e.SequenceHead rf f := by
  obtain ⟨hmem,hrelease,hseq⟩ := hf.fence x h.on.1 f hfence
  simp only [isReleaseFence,Bool.and_eq_true,beq_iff_eq] at hrelease
  exact .fence hmem hrelease.2.1 hrelease.2.2 hrelease.1 hseq h.on (h.reaches x .head)

theorem chainHeads_sound {fresh : Option ActionId} (hs : e.Sourced fresh) (hf : e.Fencing)
    {n : ℕ} {x : Option ActionId} {heads found : List ActionId} {complete : Bool}
    {last : Option ActionId} (h : e.chainHeads n x heads = .ok (found,complete,last))
    (hx : ∀ r ∈ x, e.Link rf r) (hheads : ∀ a ∈ heads, e.SequenceHead rf a) :
    (∀ a ∈ found, e.SequenceHead rf a) ∧ ∀ r ∈ last, e.Link rf r ∧
      (complete = false → (e.acts r).isRmw = false) := by
  induction n generalizing x heads with
  | zero =>
    cases x with
    | none =>
      cases h
      exact ⟨hheads,by simp⟩
    | some r => cases h
  | succ n ih =>
    cases x with
    | none =>
      cases h
      exact ⟨hheads,by simp⟩
    | some r =>
      have hlink := hx r rfl
      have hnext : ∀ heads', (∀ a ∈ heads', e.SequenceHead rf a) →
          (if (!(e.acts r).isRmw) = true then pure (heads',false,some r)
            else if ((e.acts r).isAcquire && (e.acts r).isRelease) = true then
              pure (heads',true,some r)
            else e.chainHeads n (e.acts r).readsFrom heads') = .ok (found,complete,last) →
          (∀ a ∈ found, e.SequenceHead rf a) ∧ ∀ r ∈ last, e.Link rf r ∧
            (complete = false → (e.acts r).isRmw = false) := by
        intro heads' hheads' h
        by_cases hrmw : (e.acts r).isRmw = true
        · rw [if_neg (by simp [hrmw])] at h
          split at h
          · obtain ⟨rfl,rfl,rfl⟩ : heads' = found ∧ true = complete ∧ some r = last := by
              simpa using h
            refine ⟨hheads',fun r' hr' => ?_⟩
            obtain rfl := Option.some.inj hr'
            exact ⟨hlink,by simp⟩
          · refine ih h (fun w hw => ?_) hheads'
            have hreads : (e.acts r).readsFrom = some w := hw
            obtain ⟨hmem,hwrite,hlocation,-⟩ := hs.past r hlink.on.1 w hreads
            exact ⟨⟨hmem,hwrite,hlocation.trans hlink.on.2.2⟩,
              fun a ha => hlink.reaches a (.rmw hrmw hreads ha)⟩
        · rw [if_pos (by simpa using hrmw)] at h
          obtain ⟨rfl,rfl,rfl⟩ : heads' = found ∧ false = complete ∧ some r = last := by
            simpa using h
          refine ⟨hheads',fun r' hr' => ?_⟩
          obtain rfl := Option.some.inj hr'
          exact ⟨hlink,fun _ => by simpa using hrmw⟩
      have hmore : ∀ a, e.SequenceHead rf a → ∀ b ∈ heads ++ [a], e.SequenceHead rf b := by
        intro a ha b hb
        rcases List.mem_append.mp hb with hb | hb
        · exact hheads b hb
        · rw [List.mem_singleton.mp hb]
          exact ha
      obtain ⟨_,_,h⟩ := bind_eq_ok.mp h
      dsimp only at h
      by_cases hrelease : (e.acts r).isRelease = true
      · rw [if_pos hrelease] at h
        exact hnext _ (hmore r (.write hlink.on hrelease (hlink.reaches r .head))) h
      · rw [if_neg hrelease] at h
        cases hfence : (e.acts r).lastFenceRelease with
        | none =>
          rw [hfence] at h
          exact hnext heads hheads h
        | some f =>
          rw [hfence] at h
          exact hnext _ (hmore f (hlink.fence hf hfence)) h

/-! ### The release of the thread -/

/-- The newest action with a release order, if it is not before the fence. -/
theorem findRelease_some {fence : Option ActionId} {l : List ActionId} {a : ActionId}
    (h : e.findRelease fence l = some a) : ∃ newer older, l = newer ++ a :: older ∧
      (∀ b ∈ newer, (e.acts b).isRelease = false) ∧ (e.acts a).isRelease = true ∧
      ∀ f ∈ fence, e.before a f = false := by
  induction l with
  | nil => cases h
  | cons act rest ih =>
    rw [findRelease] at h
    split at h
    · cases h
    rename_i hfence
    split at h
    · rename_i hrelease
      obtain rfl := Option.some.inj h
      refine ⟨[],rest,rfl,by simp,hrelease,fun f hf => ?_⟩
      obtain rfl := Option.mem_def.mp hf
      simpa using hfence
    · rename_i hrelease
      obtain ⟨newer,older,rfl,hnewer,ha⟩ := ih h
      refine ⟨act :: newer,older,rfl,fun b hb => ?_,ha⟩
      rcases List.mem_cons.mp hb with rfl | hb
      · simpa using hrelease
      · exact hnewer b hb

/-- What is found is a release write of the store's thread. -/
theorem findRelease_write (hl : e.Listed) (hf : e.Fencing) (hw : e.ReleasesWrite)
    {l : Location} {x a : ActionId} (hx : e.WriteOn l x) (hrmw : (e.acts x).isRmw = false)
    (hrelease : (e.acts x).isRelease = false)
    (h : e.findRelease (e.acts x).lastFenceRelease
      ((e.objThrd l (e.acts x).tid).reverse.dropWhile fun b => b ≠ x) = some a) :
    e.WriteOn l a ∧ (e.acts a).isRelease = true ∧ (e.acts a).tid = (e.acts x).tid ∧
      (e.acts a).seqNumber < (e.acts x).seqNumber := by
  obtain ⟨newer,older,hsplit,hnewer,harelease,hfence⟩ := findRelease_some h
  obtain ⟨later,hlater⟩ := List.dropWhile_suffix (fun b => decide (b ≠ x))
    (l := (e.objThrd l (e.acts x).tid).reverse)
  rw [hsplit] at hlater
  have hhead := List.head?_dropWhile_not (fun b => decide (b ≠ x))
    (e.objThrd l (e.acts x).tid).reverse
  rw [hsplit] at hhead
  cases newer with
  | nil =>
    -- the store itself is not a release
    have hax : a = x := by simpa using hhead
    rw [hax,hrelease] at harelease
    cases harelease
  | cons x' newer =>
    obtain rfl : x' = x := by simpa using hhead
    have hlist : e.objThrd l (e.acts x').tid =
        older.reverse ++ a :: (newer.reverse ++ x' :: later.reverse) := by
      rw [← List.reverse_reverse (e.objThrd l _),← hlater]
      simp
    have hmem : a ∈ e.objThrd l (e.acts x').tid := by simp [hlist]
    obtain ⟨htrace,-,htid,hon⟩ := hl.mem l _ a hmem
    have hxatomic : (e.acts x').isAtomicVar = true := by
      simp [ModelAction.isAtomicVar,ModelAction.couldBeWrite,hx.2.1]
    have hsorted := hl.sorted l (e.acts x').tid
    have hsorted' := hf.sorted l (e.acts x').tid
    rw [hlist] at hsorted hsorted'
    obtain ⟨-,hafter,holder⟩ := List.pairwise_append.mp hsorted'
    obtain ⟨-,hafter'⟩ := List.pairwise_cons.mp hafter
    have hlt : (e.acts a).seqNumber < (e.acts x').seqNumber :=
      (List.pairwise_cons.mp (List.pairwise_append.mp hsorted).2.1).1 x' (by simp) hxatomic
    have hwrite : (e.acts a).isWrite = true := by
      by_contra hnot
      rw [Bool.not_eq_true] at hnot
      obtain ⟨b,hb,hbtid,hbrelease,hab,hbx,hkind⟩ := hw x' hx.1 a htrace
        ⟨⟨hx.2.1,hrmw,hrelease⟩,htid,hx.2.2.symm ▸ hon,harelease,hnot,hlt⟩
      rcases hkind with hbfence | ⟨hbwrite,hbloc⟩
      · obtain ⟨g,hg,hle⟩ := hf.newest x' hx.1 b hb
          (by simp [isReleaseFence,hbtid,hbfence,hbrelease]) hbx
        have hbefore := hfence g hg
        simp only [before,ModelAction.before,decide_eq_false_iff_not,Nat.not_lt] at hbefore
        exact absurd (hab.trans_le hle) (Nat.not_lt.mpr hbefore)
      · have hbmem := hl.all b hb
        rw [hbloc,hx.2.2,hbtid,hlist] at hbmem
        rcases List.mem_append.mp hbmem with hbmem | hbmem
        · exact absurd (holder b hbmem a List.mem_cons_self) (Nat.not_le.mpr hab)
        rcases List.mem_cons.mp hbmem with rfl | hbmem
        · exact absurd hab (Nat.lt_irrefl _)
        rcases List.mem_append.mp hbmem with hbmem | hbmem
        · rw [hnewer b (List.mem_cons_of_mem _ (List.mem_reverse.mp hbmem))] at hbrelease
          cases hbrelease
        rcases List.mem_cons.mp hbmem with rfl | hbmem
        · exact absurd hbx (Nat.lt_irrefl _)
        · have hle := (List.pairwise_cons.mp (List.pairwise_append.mp hafter').2.1).1 b hbmem
          exact absurd hbx (Nat.not_lt.mpr hle)
    exact ⟨⟨htrace,hwrite,location_of_on hon (isWait_of_isWrite hwrite)⟩,harelease,htid,hlt⟩

/-! ### The writes in between -/

/-- Whoever knows of an action knows of the earlier ones of its thread. -/
theorem happensBefore_of_le {v w b : ActionId} (htid : (e.acts v).tid = (e.acts w).tid)
    (hseq : (e.acts v).seqNumber ≤ (e.acts w).seqNumber) (h : e.happensBefore w b = true) :
    e.happensBefore v b = true := by
  simp only [happensBefore,ModelAction.happensBefore,ClockVector.synchronizedSince,
    Bool.and_eq_true,decide_eq_true_eq,htid] at h ⊢
  exact ⟨h.1,hseq.trans h.2⟩

/-- A thread that adds no write to those that might break the sequence: each of its writes comes
before the release or after the store. -/
theorem breakWrites_apart {l : Location} {a x : ActionId} (hwf : e.moGraph.WellFormed)
    (hl : e.Listed) (ha : e.WriteOn l a) (hx : e.WriteOn l x)
    (htid : (e.acts a).tid = (e.acts x).tid) {t : ThreadId} (hne : t ≠ (e.acts x).tid)
    {acts : List ActionId}
    (hacts : ∀ w ∈ acts, w ∈ e.actionTrace ∧ (e.acts w).tid = t ∧ onLocation (e.acts w) l = true)
    (hsorted : acts.Pairwise fun v w => (e.acts w).seqNumber ≤ (e.acts v).seqNumber)
    {futureOrdered ordered : Bool}
    (h : e.breakWrites x a acts futureOrdered = (false,ordered,[])) :
    ∀ w ∈ acts, e.WriteOn l w → (e.acts w).isRmw = false →
      e.MoBefore l w a ∨ e.MoBefore l x w := by
  have hother : ∀ w, (e.acts w).tid = t → w ≠ a ∧ w ≠ x := fun w hw =>
    ⟨fun heq => hne (by rw [← hw,heq,htid]),fun heq => hne (by rw [← hw,heq])⟩
  induction acts generalizing futureOrdered with
  | nil => simp
  | cons act rest ih =>
    obtain ⟨hfirst,hsorted⟩ := List.pairwise_cons.mp hsorted
    obtain ⟨hact,hrest⟩ := List.forall_mem_cons.mp hacts
    obtain ⟨hacta,hactx⟩ := hother act hact.2.1
    rw [breakWrites] at h
    split at h
    · rename_i hbefore
      -- the older writes of the thread happen before the release as well
      intro w hmem hw _
      have hwt := (hacts w hmem).2.1
      have hle : (e.acts w).seqNumber ≤ (e.acts act).seqNumber := by
        rcases List.mem_cons.mp hmem with rfl | hmem
        · exact le_rfl
        · exact hfirst w hmem
      exact .inl (.single ⟨hw,ha,(hother w hwt).1,
        .inr (happensBefore_of_le (hwt.trans hact.2.1.symm) hle hbefore)⟩)
    split at h
    · rename_i hafter
      refine List.forall_mem_cons.mpr ⟨fun hw _ => .inr (.single ?_),ih hrest hsorted h⟩
      exact ⟨hx,hw,Ne.symm hactx,.inr hafter⟩
    split at h
    · rename_i hskip
      refine List.forall_mem_cons.mpr ⟨fun hw hrmw => ?_,ih hrest hsorted h⟩
      simp [hw.2.1,hrmw] at hskip
    rename_i hwrite
    simp only [Bool.or_eq_true,Bool.not_eq_true',not_or,Bool.not_eq_false] at hwrite
    have hon : e.WriteOn l act :=
      ⟨hact.1,hwrite.1,location_of_on hact.2.2 (isWait_of_isWrite hwrite.1)⟩
    have hreach : ∀ {v w : ActionId}, v ≠ w →
        e.moGraph.checkReachable (.action v) (.action w) = true →
          ReflTransGen e.moGraph.order.edge (.action v) (.action w) := fun hvw h =>
      (CycleGraph.checkReachable_iff hwf (by simpa using hvw)).mp h
    split at h
    · rename_i hafter
      refine List.forall_mem_cons.mpr ⟨fun hw _ => .inr (.single ?_),ih hrest hsorted h⟩
      exact ⟨hx,hw,Ne.symm hactx,.inl (hreach (Ne.symm hactx) hafter)⟩
    split at h
    · rename_i hbefore
      have hstep : e.MoStep l act a := ⟨hon,ha,hacta,.inl (hreach hacta hbefore)⟩
      refine List.forall_mem_cons.mpr ⟨fun _ _ => .inl (.single hstep),fun w hmem hw _ => .inl ?_⟩
      by_cases hwact : w = act
      · exact hwact ▸ .single hstep
      · have htids := (hacts w (List.mem_cons_of_mem _ hmem)).2.1.trans hact.2.1.symm
        exact .head ⟨hw,hon,hwact,.inr (hl.happensBefore hact.1 htids (hfirst w hmem))⟩
          (.single hstep)
    split at h
    · simp at h
    · simp at h

/-- A sequence that is certain: no other thread adds a write that might break it. -/
theorem breakThreads_certain {a x : ActionId} {i : ThreadId} {lists : List (List ActionId)}
    {writes : List ActionId} (h : e.breakThreads x a i lists = .ok (false,true,writes)) {k : ℕ}
    {list : List ActionId} (hlist : lists[k]? = some list) (hne : (e.acts x).tid ≠ i + k) :
    ∃ futureOrdered ordered, e.breakWrites x a list.reverse futureOrdered = (false,ordered,[]) := by
  induction lists generalizing i k writes with
  | nil => simp at hlist
  | cons list' lists ih =>
    rw [breakThreads] at h
    have hnext : ∀ {writes'}, e.breakThreads x a (i + 1) lists = .ok (false,true,writes') →
        ∀ j, k = j + 1 → ∃ futureOrdered ordered,
          e.breakWrites x a list.reverse futureOrdered = (false,ordered,[]) := by
      rintro writes' h j rfl
      refine ih h (by simpa using hlist) ?_
      rwa [Nat.add_assoc,Nat.add_comm 1 j]
    split at h
    · rename_i hself
      cases k with
      | zero => exact absurd hself hne
      | succ k => exact hnext h k rfl
    · obtain ⟨_,_,h⟩ := bind_eq_ok.mp h
      dsimp only at h
      generalize hbreak : e.breakWrites x a list'.reverse _ = result at h
      obtain ⟨broken,ordered,found⟩ := result
      split at h
      · cases h
      rename_i hbroken
      obtain ⟨⟨broken',certain,more⟩,hmore,h⟩ := bind_eq_ok.mp h
      simp only [pure,Except.pure,Except.ok.injEq,Prod.mk.injEq,Bool.and_eq_true,
        List.isEmpty_iff] at h
      obtain ⟨rfl,⟨⟨rfl,rfl⟩,rfl⟩,-⟩ := h
      cases k with
      | zero =>
        obtain rfl : list' = list := by simpa using hlist
        have hbroken : broken = false := by simpa using hbroken
        exact ⟨_,_,hbroken ▸ hbreak⟩
      | succ k => exact hnext hmore k rfl

/-- The release heads a sequence with the store, when no other thread can break it. -/
theorem inSequence_of_certain {l : Location} {a x : ActionId} (hwf : e.moGraph.WellFormed)
    (hl : e.Listed) (hf : e.Fencing) (ha : e.WriteOn l a) (hx : e.WriteOn l x)
    (htid : (e.acts a).tid = (e.acts x).tid)
    (hseq : (e.acts a).seqNumber < (e.acts x).seqNumber) {writes : List ActionId}
    (h : e.breakThreads x a 0 (e.objThrdMap l) = .ok (false,true,writes)) : e.InSequence a x := by
  obtain rfl := ha.2.2
  refine .own hx htid hseq fun w hw hne hrmw => ?_
  have hmem := hl.all w hw.1
  rw [hw.2.2,objThrd] at hmem
  cases hlist : (e.objThrdMap (e.acts a).location)[(e.acts w).tid]? with
  | none => simp [hlist] at hmem
  | some list =>
    have hlists : e.objThrd (e.acts a).location (e.acts w).tid = list := by simp [objThrd,hlist]
    rw [hlist,Option.getD_some] at hmem
    obtain ⟨_,_,hbreak⟩ := breakThreads_certain h hlist (by simpa using Ne.symm hne)
    refine breakWrites_apart hwf hl ha hx htid hne (fun v hv => ?_) ?_ hbreak w
      (List.mem_reverse.mpr hmem) hw hrmw
    · rw [List.mem_reverse,← hlists] at hv
      obtain ⟨hv,-,hvtid,hon⟩ := hl.mem _ _ v hv
      exact ⟨hv,hvtid,hon⟩
    · rw [List.pairwise_reverse,← hlists]
      exact hf.sorted _ _

/-! ### The search -/

/-- All heads that the search reports. -/
def HeadsSound (e : Execution) : Prop :=
  ∀ rf ∈ e.actionTrace, (e.acts rf).isWrite = true → ∀ pending heads complete sequence,
    e.releaseSeqHeads (some rf) pending = .ok (heads,complete,sequence) →
      ∀ a ∈ heads, e.SequenceHead rf a

theorem headsSound_of_releasesWrite {fresh : Option ActionId} (hwf : e.moGraph.WellFormed)
    (hl : e.Listed) (hs : e.Sourced fresh) (hf : e.Fencing) (hw : e.ReleasesWrite) :
    e.HeadsSound := by
  intro rf hmem hwrite pending heads complete sequence h
  unfold releaseSeqHeads at h
  split at h
  · cases h
    simp
  obtain ⟨⟨found,done,last⟩,hchain,h⟩ := bind_eq_ok.mp h
  have hself : e.Link rf rf := ⟨⟨hmem,hwrite,rfl⟩,fun _ => id⟩
  obtain ⟨hfound,hlast⟩ := chainHeads_sound hs hf hchain (by simpa using hself) (by simp)
  dsimp only at h
  split at h
  · cases h
    exact hfound
  rename_i hdone
  split at h
  · cases h
    exact hfound
  rename_i x
  obtain ⟨hlink,hrmw⟩ := hlast x rfl
  have hrmw := hrmw (by simpa using hdone)
  split at h
  · cases h
    exact hfound
  rename_i hrelease
  rw [Bool.not_eq_true] at hrelease
  have hmore : ∀ a ∈ found ++ (e.acts x).lastFenceRelease.toList, e.SequenceHead rf a := by
    intro a ha
    rcases List.mem_append.mp ha with ha | ha
    · exact hfound a ha
    · exact hlink.fence hf (by simpa using ha)
  obtain ⟨_,_,h⟩ := bind_eq_ok.mp h
  split at h
  · cases h
    exact hmore
  rename_i a hfind
  obtain ⟨⟨broken,certain,writes⟩,hthreads,h⟩ := bind_eq_ok.mp h
  dsimp only at h
  split at h
  · cases h
    exact hmore
  rename_i hbroken
  split at h
  · rename_i hcertain
    cases h
    obtain rfl : broken = false := by simpa using hbroken
    obtain rfl : certain = true := by simpa using hcertain
    have hx : e.WriteOn (e.acts x).location x := ⟨hlink.on.1,hlink.on.2.1,rfl⟩
    obtain ⟨ha,harelease,htid,hseq⟩ := findRelease_write hl hf hw hx hrmw hrelease hfind
    have hsequence := inSequence_of_certain hwf hl hf ha hx htid hseq hthreads
    intro b hb
    rcases List.mem_append.mp hb with hb | hb
    · exact hmore b hb
    · rw [List.mem_singleton.mp hb]
      exact .write (hlink.on.2.2 ▸ ha) harelease (hlink.reaches a hsequence)
  · cases h
    exact hmore

end Execution
namespace Config

open Execution Input

variable {params : ExecutionParams} {c : Config}

/-- Thread 1 loads before its release store, and thread 2 has incremented what it stored after. -/
def releasedRmw : List Input :=
  [ofThread .threadStart 1,go 1 {},store .relaxed 10 0,go 1 {},ofObject .threadCreate 100,go 1 {},
    load .seqCst 10,ofThread .threadStart 2,go 2 {},rmwr .relaxed 10,go 1 { readFrom := .past 1 },
    store .release 10 1,go 1 {},store .relaxed 10 2,go 1 {},ofThread .threadFinish 1,
    go 2 { readFrom := .past 7 },rmw .relaxed 10 3,go 2 {},ofThread .threadFinish 2,go 2 {}]

/-- Thread 1 loads before its relaxed store, which thread 2 reads. -/
def loadedBefore : List Input :=
  [ofThread .threadStart 1,go 1 {},store .relaxed 10 0,go 1 {},ofObject .threadCreate 100,go 1 {},
    load .seqCst 10,ofThread .threadStart 2,go 2 {},load .acquire 10,go 1 { readFrom := .past 1 },
    store .relaxed 10 1,go 1 {},ofThread .threadFinish 1,go 2 { readFrom := .past 6 },
    ofThread .threadFinish 2,go 2 {}]

end Config
end CdsChecker
