import CdsChecker.ThreadLists
import CdsChecker.CycleGraphResolve

/-! Coherence of the modification order: in each thread, a write precedes what the later accesses to
its location write or read. -/
namespace CdsChecker
namespace Execution

open Relation

/-- Only atomic accesses are on the location. -/
def OnlyAtomic (e : Execution) (l : Location) : Prop :=
  ∀ a ∈ e.actionTrace, onLocation (e.acts a) l = true → (e.acts a).isAtomicVar = true

/-- What an action shows of the modification order: a write itself, a read what it reads. -/
def seen (e : Execution) (a : ActionId) : Option GraphObj :=
  if (e.acts a).isWrite then some (.action a)
  else
    match (e.acts a).readsFrom with
    | some rf => some (.action rf)
    | none => (e.acts a).readsFromPromise.map .promise

/-- The action has read nothing yet. -/
def Unread (a : ModelAction) : Prop := a.readsFrom = none ∧ a.readsFromPromise = none

/-- The lists of the threads agree with the modification order, but for an action that has not been
processed. -/
def Coherent (e : Execution) (l : Location) (fresh : Option ActionId) : Prop :=
  ∀ t, (e.objThrd l t).Pairwise fun w a => some a ≠ fresh → (e.acts w).isWrite = true →
    ∀ y, e.seen a = some y → ReflTransGen e.moGraph.order.edge (.action w) y

/-- A check has failed, or a cycle was found. -/
def Doomed (e : Execution) : Prop := e.moGraph.hasCycles = true ∨ e.Flagged

/-- The readers of the pending promises are the reads that wait for a write. -/
structure Awaits (e : Execution) : Prop where
  pending : ∀ a ∈ e.actionTrace, ∀ p, (e.acts a).readsFrom = none →
    (e.acts a).readsFromPromise = some p → p ∈ e.promises ∧ a ∈ (e.proms p).readers
  reader : ∀ p ∈ e.promises, ∀ a ∈ (e.proms p).readers, a ∈ e.actionTrace ∧
    (e.acts a).readsFrom = none ∧ (e.acts a).readsFromPromise = some p

/-- What holds of the accesses to memory all along a run. -/
structure Ordered (e : Execution) (fresh : Option ActionId) : Prop where
  wellFormed : e.moGraph.WellFormed
  listed : e.Listed
  awaits : e.Awaits
  coherent : ∀ l, e.OnlyAtomic l → e.Doomed ∨ e.Coherent l fresh

variable {e e' : Execution} {l : Location} {fresh : Option ActionId}

theorem SamePlaces.onlyAtomic (h : SamePlaces e e') : e'.OnlyAtomic l ↔ e.OnlyAtomic l := by
  simp only [OnlyAtomic,h.actionTrace,(h.places _).on,(h.places _).atomic]

theorem SamePlaces.objThrd (h : SamePlaces e e') (l : Location) (t : ThreadId) :
    e'.objThrd l t = e.objThrd l t := by
  rw [Execution.objThrd,h.objThrdMap]
  rfl

theorem KeepsOrder.isWrite (h : KeepsOrder e e') (a : ActionId) :
    (e'.acts a).isWrite = (e.acts a).isWrite := by
  simp only [ModelAction.isWrite,(h.keeps a).type]

theorem KeepsOrder.seen (h : KeepsOrder e e') (a : ActionId) : e'.seen a = e.seen a := by
  simp only [Execution.seen,h.isWrite,h.readsFrom,h.readsFromPromise]

theorem KeepsOrder.doomed (h : KeepsOrder e e') (hwf : e.moGraph.WellFormed) (hd : e.Doomed) :
    e'.Doomed :=
  hd.imp (h.graph hwf).cyclic h.flagged

theorem KeepsOrder.awaits (h : KeepsOrder e e') (ha : e.Awaits) : e'.Awaits where
  pending a hmem p := by
    rw [h.actionTrace] at hmem
    rw [h.readsFrom,h.readsFromPromise,h.promises,h.readers]
    exact ha.pending a hmem p
  reader p hp a har := by
    rw [h.promises] at hp
    rw [h.readers] at har
    rw [h.readsFrom,h.readsFromPromise,h.actionTrace]
    exact ha.reader p hp a har

theorem KeepsOrder.coherent (h : KeepsOrder e e') (hwf : e.moGraph.WellFormed)
    (hc : e.Coherent l fresh) : e'.Coherent l fresh := by
  intro t
  rw [h.samePlaces.objThrd]
  refine (hc t).imp fun {w a} hwa hfresh hwrite y hy => ?_
  rw [h.isWrite] at hwrite
  rw [h.seen] at hy
  exact (h.graph hwf).reach (hwa hfresh hwrite y hy)

theorem Ordered.keepsOrder (h : e.Ordered fresh) (hk : KeepsOrder e e') : e'.Ordered fresh where
  wellFormed := (hk.graph h.wellFormed).wellFormed
  listed := h.listed.samePlaces hk.samePlaces
  awaits := hk.awaits h.awaits
  coherent l hl := by
    rw [hk.samePlaces.onlyAtomic] at hl
    exact (h.coherent l hl).imp (hk.doomed h.wellFormed) (hk.coherent h.wellFormed)

/-- After a failure nothing is asked of the order. -/
theorem Ordered.of_doomed (h : e.Ordered fresh) (hd : e.Doomed) (fresh' : Option ActionId) :
    e.Ordered fresh' :=
  { h with coherent := fun _ _ => .inl hd }

/-! ### The scan of the own thread -/

theorem observed_seen {act : ActionId} {x : GraphObj} (h : e.observed act = .ok x)
    (hread : (e.acts act).isWrite = false) : e.seen act = some x := by
  rw [seen,if_neg (by simp [hread])]
  unfold observed at h
  split at h
  · rename_i rf _ hreads
    rw [hreads]
    exact congrArg some (Except.ok.inj h)
  · rename_i p hreads hpromise
    rw [hreads,hpromise]
    exact congrArg some (Except.ok.inj h)
  · cases h

theorem isAnnotated_of_atomic {a : ModelAction} (h : a.isAtomicVar = true) :
    a.isAnnotated = false := by
  cases hann : a.isAnnotated with
  | false => rfl
  | true =>
    have htype : a.type = .atomicAnnotated := beq_iff_eq.mp hann
    simp [ModelAction.isAtomicVar,ModelAction.isRead,ModelAction.couldBeWrite,
      ModelAction.isWrite,ModelAction.isRmwr,htype] at h

theorem seen_of_write {act : ActionId} (h : (e.acts act).isWrite = true) :
    e.seen act = some (.action act) := by rw [seen,if_pos h]

/-- The newest access of a thread, when it happens before the read, gives an edge to what is
read. -/
theorem readScan_newest {curr act : ActionId} {rf : GraphObj} {fences : Fences}
    {rest : List ActionId} {edge : Option MoEdge}
    (h : e.readScan curr rf fences (act :: rest) = .ok edge) (hne : act ≠ curr)
    (hatomic : (e.acts act).isAtomicVar = true) (hhb : e.happensBefore act curr = true)
    (hrf : .action act = rf → (e.acts act).isWrite = true) :
    ∃ y, e.seen act = some y ∧ (y = rf ∨ ∃ x ∈ edge, x.source = y ∧ x.target = rf) := by
  rw [readScan,if_neg (by simp [isAnnotated_of_atomic hatomic]),if_neg hne] at h
  split at h
  · rename_i hact
    exact ⟨_,seen_of_write (hrf hact),.inl hact⟩
  · split at h
    · rename_i rule hrule
      have hwrite : (e.acts act).isWrite = true := by
        by_contra hnot
        simp [readFenceRule,hnot] at hrule
      obtain rfl : _ = edge := Except.ok.inj h
      exact ⟨_,seen_of_write hwrite,.inr ⟨_,rfl,rfl,rfl⟩⟩
    · cases hwrite : (e.acts act).isWrite with
      | true =>
        simp only [hwrite,if_true] at h
        obtain rfl : _ = edge := Except.ok.inj h
        exact ⟨_,seen_of_write hwrite,.inr ⟨_,rfl,rfl,rfl⟩⟩
      | false =>
        simp only [hwrite,Bool.false_eq_true,if_false] at h
        obtain ⟨prevrf,hprev,h⟩ := bind_eq_ok.mp h
        obtain rfl : _ = edge := Except.ok.inj h
        refine ⟨prevrf,observed_seen hprev hwrite,?_⟩
        by_cases hprevrf : prevrf = rf
        · exact .inl hprevrf
        · rw [if_neg hprevrf]
          exact .inr ⟨_,rfl,rfl,rfl⟩

/-- The same for a write. -/
theorem writeScan_newest {curr act : ActionId} {fences : Fences} {rest : List ActionId}
    {edge : Option MoEdge} (h : e.writeScan curr fences (act :: rest) = .ok edge)
    (hne : act ≠ curr) (hatomic : (e.acts act).isAtomicVar = true)
    (hhb : e.happensBefore act curr = true) :
    ∃ y, e.seen act = some y ∧ ∃ x ∈ edge, x.source = y ∧ x.target = .action curr := by
  rw [writeScan,if_neg hne] at h
  split at h
  · rename_i rule hrule
    have hwrite : (e.acts act).isWrite = true := by
      by_contra hnot
      simp [writeFenceRule,hnot] at hrule
    obtain rfl : _ = edge := Except.ok.inj h
    exact ⟨_,seen_of_write hwrite,_,rfl,rfl,rfl⟩
  · rw [if_pos hhb] at h
    cases hwrite : (e.acts act).isWrite with
    | true =>
      simp only [hwrite,if_true] at h
      obtain rfl : _ = edge := Except.ok.inj h
      exact ⟨_,seen_of_write hwrite,_,rfl,rfl,rfl⟩
    | false =>
      have hread : (e.acts act).isRead = true := by
        by_contra hnot
        simp only [Bool.not_eq_true] at hnot
        have hrmwr : (e.acts act).isRmwr = false := by
          simp only [ModelAction.isRead,Bool.or_eq_false_iff] at hnot
          exact hnot.1.2
        simp [ModelAction.isAtomicVar,ModelAction.couldBeWrite,hnot,hwrite,hrmwr] at hatomic
      simp only [hwrite,hread,Bool.false_eq_true,if_false,if_true] at h
      obtain ⟨prevrf,hprev,h⟩ := bind_eq_ok.mp h
      obtain rfl : _ = edge := Except.ok.inj h
      exact ⟨_,observed_seen hprev hwrite,_,rfl,rfl,rfl⟩

theorem scanThreads_own {scan : ThreadId → List ActionId → Result (Option MoEdge)}
    {lists : List (List ActionId)} {edges : List MoEdge} {i : ThreadId}
    (h : scanThreads scan i lists = .ok edges) {j : ℕ} {list : List ActionId}
    (hj : lists[j]? = some list) :
    ∃ edge, scan (i + j) list.reverse = .ok edge ∧ ∀ x ∈ edge, x ∈ edges := by
  induction lists generalizing i j edges with
  | nil => cases hj
  | cons first lists ih =>
    obtain ⟨edge,hedge,h⟩ := bind_eq_ok.mp h
    obtain ⟨more,hmore,h⟩ := bind_eq_ok.mp h
    obtain rfl : _ = edges := Except.ok.inj h
    cases j with
    | zero =>
      obtain rfl : first = list := Option.some.inj hj
      exact ⟨edge,hedge,fun x hx => List.mem_append_left _ (Option.mem_toList.mpr hx)⟩
    | succ j =>
      obtain ⟨edge',hedge',hmem⟩ := ih hmore hj
      refine ⟨edge',?_,fun x hx => List.mem_append_right _ (hmem x hx)⟩
      rwa [Nat.add_assoc,Nat.add_comm 1 j] at hedge'

/-- The last action of a thread is at the end of its list. -/
theorem Listed.last_split {curr : ActionId} (h : e.Listed) (hcurr : curr ∈ e.actionTrace)
    (huser : (e.acts curr).tid ≠ 0) (hlast : e.getLastAction (e.acts curr).tid = some curr)
    (hl : e.OnlyAtomic (e.acts curr).location) : ∃ pre,
      e.objThrd (e.acts curr).location (e.acts curr).tid = pre ++ [curr] ∧ curr ∉ pre := by
  obtain ⟨pre,post,hlist⟩ := List.append_of_mem (h.all curr hcurr)
  have hsorted := h.sorted (e.acts curr).location (e.acts curr).tid
  have hmem := h.mem (e.acts curr).location (e.acts curr).tid
  rw [hlist] at hsorted hmem
  have hatomic : (e.acts curr).isAtomicVar = true := hl curr hcurr (by simp [onLocation])
  have hpost : post = [] := by
    refine List.eq_nil_iff_forall_not_mem.mpr fun b hb => ?_
    obtain ⟨hbmem,-,hbt,hbon⟩ := hmem b (by simp [hb])
    have hlt := (List.pairwise_cons.mp (List.pairwise_append.mp hsorted).2.1).1 b hb
      (hl b hbmem hbon)
    exact absurd (h.last _ curr huser hlast b hbmem hbt) (Nat.not_le.mpr hlt)
  refine ⟨pre,hpost ▸ hlist,fun hpre => ?_⟩
  have hlt := (List.pairwise_append.mp hsorted).2.2 curr hpre curr (by simp) hatomic
  exact Nat.lt_irrefl _ hlt

/-- What a thread has written earlier precedes whatever comes behind its newest access. -/
theorem Coherent.own {curr : ActionId} (hc : e.Coherent (e.acts curr).location (some curr))
    (h : e.Listed) (hcurr : curr ∈ e.actionTrace) (huser : (e.acts curr).tid ≠ 0)
    (hlast : e.getLastAction (e.acts curr).tid = some curr)
    (hl : e.OnlyAtomic (e.acts curr).location) {g : CycleGraph} (hg : e.moGraph.Extends g)
    {z : GraphObj}
    (hedge : ∀ act rest, (e.objThrd (e.acts curr).location (e.acts curr).tid).reverse =
      curr :: act :: rest → act ≠ curr → (e.acts act).isAtomicVar = true →
        e.happensBefore act curr = true →
          ∃ y, e.seen act = some y ∧ ReflTransGen g.order.edge y z) :
    ∀ w ∈ e.objThrd (e.acts curr).location (e.acts curr).tid, w ≠ curr →
      (e.acts w).isWrite = true → ReflTransGen g.order.edge (.action w) z := by
  obtain ⟨pre,hlist,hnot⟩ := h.last_split hcurr huser hlast hl
  intro w hw hne hwrite
  have hpairs := hc (e.acts curr).tid
  have hmem := h.mem (e.acts curr).location (e.acts curr).tid
  rw [hlist] at hw hpairs hmem
  have hwpre : w ∈ pre := by simpa [hne] using hw
  cases pre using List.reverseRecOn with
  | nil => cases hwpre
  | append_singleton pre act =>
    have hactne : act ≠ curr := by
      rintro rfl
      exact hnot (by simp)
    obtain ⟨hactmem,-,hacttid,hacton⟩ := hmem act (by simp)
    obtain ⟨y,hy,hyz⟩ := hedge act pre.reverse (by rw [hlist]; simp) hactne
      (hl act hactmem hacton)
      (h.happensBefore hcurr hacttid (h.last _ curr huser hlast act hactmem hacttid))
    rcases List.mem_append.mp hwpre with hwpre | hwact
    · have hbefore := (List.pairwise_append.mp (List.pairwise_append.mp hpairs).1).2.2 w hwpre act
        (by simp)
      exact (hg.reach (hbefore (by simpa using hactne) hwrite y hy)).trans hyz
    · obtain rfl := List.mem_singleton.mp hwact
      obtain rfl := Option.some.inj ((seen_of_write hwrite).symm.trans hy)
      exact hyz

/-- What is processed last joins the others. -/
theorem Coherent.settle {curr : ActionId} (hc : e.Coherent l (some curr)) (h : e.Listed)
    (hatomic : (e.acts curr).isAtomicVar = true) (hown : ∀ t, curr ∈ e.objThrd l t →
      ∀ w ∈ e.objThrd l t, w ≠ curr → (e.acts w).isWrite = true →
        ∀ y, e.seen curr = some y → ReflTransGen e.moGraph.order.edge (.action w) y) :
    e.Coherent l none := by
  intro t
  refine ((hc t).and (h.sorted l t)).imp_of_mem fun {w a} hw ha hwa _ hwrite y hy => ?_
  by_cases hac : a = curr
  · subst hac
    have hne : w ≠ a := by
      rintro rfl
      exact Nat.lt_irrefl _ (hwa.2 hatomic)
    exact hown t ha w hw hne hwrite y hy
  · exact hwa.1 (by simpa using hac) hwrite y hy

theorem objThrd_getElem? {t : ThreadId} {a : ActionId} (h : a ∈ e.objThrd l t) :
    (e.objThrdMap l)[t]? = some (e.objThrd l t) := by
  cases hlist : (e.objThrdMap l)[t]? with
  | none => simp [objThrd,hlist] at h
  | some list => simp [objThrd,hlist]

/-- The current action, before it is processed. -/
structure Pending (e : Execution) (curr : ActionId) : Prop where
  mem : curr ∈ e.actionTrace
  user : (e.acts curr).tid ≠ 0
  last : e.getLastAction (e.acts curr).tid = some curr

theorem KeepsOrder.currPending {curr : ActionId} (h : KeepsOrder e e') (hp : e.Pending curr) :
    e'.Pending curr := by
  have htid := (h.keeps curr).tid
  refine ⟨h.actionTrace ▸ hp.mem,htid ▸ hp.user,?_⟩
  rw [htid,getLastAction,h.thrdLastAction]
  exact hp.last

section Own
variable {curr : ActionId}

/-- What the thread of a read has written precedes what it reads. -/
theorem rModificationOrder_own {rf : GraphObj} {b : Bool}
    (hr : e.rModificationOrder curr rf = .ok (e',b)) (h : e.Ordered (some curr))
    (hp : e.Pending curr) (hl : e.OnlyAtomic (e.acts curr).location)
    (hrf : ∀ a, .action a = rf → (e.acts a).isWrite = true) :
    e.Doomed ∨ ∀ w ∈ e.objThrd (e.acts curr).location (e.acts curr).tid, w ≠ curr →
      (e.acts w).isWrite = true → ReflTransGen e'.moGraph.order.edge (.action w) rf := by
  rcases h.coherent _ hl with hd | hc
  · exact .inl hd
  · obtain ⟨edges,hedges,hr⟩ := bind_eq_ok.mp hr
    obtain ⟨_,_,hedges⟩ := bind_eq_ok.mp hedges
    obtain ⟨scanned,hscanned,hedges⟩ := bind_eq_ok.mp hedges
    obtain rfl : _ = edges := Except.ok.inj hedges
    obtain ⟨⟨g,added⟩,hg,hr⟩ := bind_eq_ok.mp hr
    obtain ⟨rfl,_⟩ : _ = e' ∧ _ := by simpa using hr
    obtain ⟨hext,hnew⟩ := addEdges_extends h.wellFormed hg
    refine .inr (hc.own h.listed hp.mem hp.user hp.last hl hext ?_)
    intro act rest hlist hne hatomic hhb
    obtain ⟨edge,hedge,hmem⟩ := scanThreads_own hscanned
      (objThrd_getElem? (h.listed.all curr hp.mem))
    have hfirst : e.readScan curr rf (e.readFences curr (e.acts curr).tid)
      (act :: rest) = .ok edge := by
      rw [hlist,Nat.zero_add] at hedge
      by_cases hann : (e.acts curr).isAnnotated = true
      · rwa [readScan,if_pos hann] at hedge
      · rwa [readScan,if_neg hann,if_pos rfl] at hedge
    obtain ⟨y,hy,hyrf⟩ := readScan_newest hfirst hne hatomic hhb (hrf act)
    refine ⟨y,hy,?_⟩
    rcases hyrf with rfl | ⟨x,hx,rfl,rfl⟩
    · exact .refl
    · exact .single (hnew x (List.mem_append_left _ (hmem x hx)))

/-- What the thread of a write has written precedes it. -/
theorem wModificationOrder_own {b : Bool} (hw : e.wModificationOrder curr = .ok (e',b))
    (h : e.Ordered (some curr)) (hp : e.Pending curr) (hl : e.OnlyAtomic (e.acts curr).location)
    (hrmw : (e.acts curr).isRmw = false) :
    e.Doomed ∨ ∀ w ∈ e.objThrd (e.acts curr).location (e.acts curr).tid, w ≠ curr →
      (e.acts w).isWrite = true →
        ReflTransGen e'.moGraph.order.edge (.action w) (.action curr) := by
  rcases h.coherent _ hl with hd | hc
  · exact .inl hd
  · obtain ⟨edges,hedges,hw⟩ := bind_eq_ok.mp hw
    obtain ⟨_,_,hedges⟩ := bind_eq_ok.mp hedges
    obtain ⟨scanned,hscanned,hedges⟩ := bind_eq_ok.mp hedges
    obtain rfl : _ = edges := Except.ok.inj hedges
    obtain ⟨⟨g,added⟩,hg,hw⟩ := bind_eq_ok.mp hw
    obtain ⟨rfl,_⟩ : _ = e' ∧ _ := by simpa using hw
    obtain ⟨hext,hnew⟩ := addEdges_extends h.wellFormed hg
    refine .inr (hc.own h.listed hp.mem hp.user hp.last hl hext ?_)
    intro act rest hlist hne hatomic hhb
    obtain ⟨edge,hedge,hmem⟩ := scanThreads_own hscanned
      (objThrd_getElem? (h.listed.all curr hp.mem))
    have hfirst : e.writeScan curr (e.writeFences curr (e.acts curr).tid)
      (act :: rest) = .ok edge := by
      rw [hlist,Nat.zero_add] at hedge
      rwa [writeScan,if_pos rfl,if_neg (by simp [hrmw])] at hedge
    obtain ⟨y,hy,x,hx,rfl,hxcurr⟩ := writeScan_newest hfirst hne hatomic hhb
    refine ⟨x.source,hy,.single ?_⟩
    rw [← hxcurr]
    exact hnew x (by simp [hmem x hx])

end Own

end Execution
end CdsChecker
