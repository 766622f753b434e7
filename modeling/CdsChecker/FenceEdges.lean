import CdsChecker.WriteOrderRuns

/-! The edges that seq_cst fences give: each meets the premises of its statement, as long as the
scan looks up no fence that comes after the current action. -/
namespace CdsChecker
namespace MoCall

/-- A seq_cst fence that was executed before the call. -/
def ScFence (call : MoCall) (f : ActionId) : Prop :=
  f ∈ call.fences ∧ (call.acts f).isFence = true ∧ (call.acts f).isSeqcst = true

instance (call : MoCall) (f : ActionId) : Decidable (call.ScFence f) :=
  inferInstanceAs (Decidable (_ ∧ _ ∧ _))

/-- Execution order, which is the SC order of the seq_cst actions. -/
def Before (call : MoCall) (a b : ActionId) : Prop :=
  (call.acts a).seqNumber < (call.acts b).seqNumber

instance (call : MoCall) (a b : ActionId) : Decidable (call.Before a b) :=
  inferInstanceAs (Decidable (_ < _))

def SequencedBefore (call : MoCall) (a b : ActionId) : Prop :=
  (call.acts a).tid = (call.acts b).tid ∧ call.Before a b

instance (call : MoCall) (a b : ActionId) : Decidable (call.SequencedBefore a b) :=
  inferInstanceAs (Decidable (_ ∧ _))

/-- The edge goes from a store to the location of the current action to what this action reads
from, or to this action where it is the write. -/
structure FromStore (call : MoCall) (edge : MoEdge) (w : ActionId) : Prop where
  source : edge.source = .action w
  target : edge.target = call.target
  other : edge.source ≠ edge.target
  write : (call.acts w).isWrite = true
  location : (call.acts w).location = (call.acts call.curr).location

/-- The premises of the statement by which an edge was added, for the fences it was added for. -/
def Justified (call : MoCall) (edge : MoEdge) : Prop :=
  match edge.rule with
  | .statement4 y => ∃ w, call.FromStore edge w ∧ (call.acts call.curr).isRead = true ∧
      (call.acts w).isSeqcst = true ∧ call.ScFence y ∧ call.Before w y ∧
      call.SequencedBefore y call.curr
  | .statement5 x => ∃ w, call.FromStore edge w ∧ (call.acts call.curr).isRead = true ∧
      (call.acts call.curr).isSeqcst = true ∧ call.ScFence x ∧ call.SequencedBefore w x ∧
      call.Before x call.curr
  | .statement6 x y => ∃ w, call.FromStore edge w ∧ (call.acts call.curr).isRead = true ∧
      call.ScFence x ∧ call.ScFence y ∧ call.SequencedBefore w x ∧ call.Before x y ∧
      call.SequencedBefore y call.curr
  | .statement7 x y => ∃ w, call.FromStore edge w ∧ (call.acts call.curr).isWrite = true ∧
      call.target = .action call.curr ∧ call.ScFence x ∧ call.ScFence y ∧
      call.SequencedBefore w x ∧ call.Before x y ∧ call.SequencedBefore y call.curr
  | .happensBefore | .lastSeqCstWrite | .exclusivePromise => True

/-- No seq_cst fence of the thread of the current action comes after it, and after a seq_cst read
none of any thread. -/
def NoLaterFence (call : MoCall) : Prop :=
  ∀ f ∈ call.fences, call.ScFence f → ((call.acts f).tid = (call.acts call.curr).tid ∨
    (call.acts call.curr).isRead = true ∧ (call.acts call.curr).isSeqcst = true) →
      call.Before f call.curr

instance (call : MoCall) : Decidable call.NoLaterFence :=
  inferInstanceAs (Decidable (∀ f ∈ call.fences, call.ScFence f →
    ((call.acts f).tid = (call.acts call.curr).tid ∨
      (call.acts call.curr).isRead = true ∧ (call.acts call.curr).isSeqcst = true) →
        call.Before f call.curr))

end MoCall
namespace Execution

variable {e e' : Execution} {curr : ActionId}

/-! ### The fences of the scans -/

theorem getLastSeqCstFence_some (target : GraphObj) (edges : List MoEdge) {t : ThreadId}
    {beforeFence : Option ActionId} {f : ActionId}
    (h : e.getLastSeqCstFence t beforeFence = some f) :
    (e.moCall curr target edges).ScFence f ∧ (e.acts f).tid = t := by
  have hfound := List.find?_some h
  simp only [Bool.and_eq_true,beq_iff_eq] at hfound
  refine ⟨⟨?_,hfound.1.1,hfound.2⟩,hfound.1.2.symm⟩
  have hmem := List.mem_of_find?_eq_some h
  cases beforeFence with
  | none => exact List.mem_reverse.mp hmem
  | some y =>
    have hmem := List.mem_of_mem_tail hmem
    exact List.mem_reverse.mp ((List.dropWhile_sublist _).mem hmem)

theorem lt_of_mem_olderThan (hl : e.Listed) {x y : ActionId}
    (h : x ∈ olderThan (e.objMap .fence) y) : (e.acts x).seqNumber < (e.acts y).seqNumber := by
  have hhead := List.head?_dropWhile_not (fun b => decide (b ≠ y)) (e.objMap .fence).reverse
  obtain ⟨later,hlater⟩ := List.dropWhile_suffix (fun b => decide (b ≠ y))
    (l := (e.objMap .fence).reverse)
  rw [olderThan] at h
  cases hdrop : (e.objMap .fence).reverse.dropWhile fun b => b ≠ y with
  | nil =>
    rw [hdrop] at h
    cases h
  | cons y' rest =>
    rw [hdrop] at h hhead hlater
    obtain rfl : y' = y := by simpa using hhead
    have hfences : e.objMap .fence = rest.reverse ++ y' :: later.reverse := by
      rw [← List.reverse_reverse (e.objMap .fence),← hlater]
      simp
    have hsorted := hl.fencesSorted
    rw [hfences] at hsorted
    exact (List.pairwise_append.mp hsorted).2.2 x (List.mem_reverse.mpr h) y' List.mem_cons_self

theorem getLastSeqCstFence_lt (hl : e.Listed) {t : ThreadId} {x y : ActionId}
    (h : e.getLastSeqCstFence t (some y) = some x) :
    (e.acts x).seqNumber < (e.acts y).seqNumber :=
  lt_of_mem_olderThan hl (List.mem_of_find?_eq_some h)

theorem beforeFence_eq_some {act f : ActionId} {fence : Option ActionId} :
    e.beforeFence act fence = some f ↔
      fence = some f ∧ (e.acts act).seqNumber < (e.acts f).seqNumber := by
  simp [beforeFence,Option.filter_eq_some_iff,before,ModelAction.before]

/-! ### The scans -/

/-- What a scan knows of an action that it meets in the list of a thread. -/
structure Scans (e : Execution) (curr : ActionId) (i : ThreadId) (act : ActionId) : Prop where
  tid : (e.acts act).tid = i
  on : onLocation (e.acts act) (e.acts curr).location = true

theorem Scans.fromStore {i : ThreadId} {act : ActionId} {target : GraphObj} (rule : MoRule)
    (edges : List MoEdge) (h : e.Scans curr i act) (hwrite : (e.acts act).isWrite = true)
    (hne : .action act ≠ target) :
    (e.moCall curr target edges).FromStore ⟨.action act,target,rule⟩ act :=
  ⟨rfl,rfl,hne,hwrite,location_of_on h.on (isWait_of_isWrite hwrite)⟩

theorem readFenceRule_justified {i : ThreadId} {act : ActionId} {rf : GraphObj} {rule : MoRule}
    {edges : List MoEdge} (hl : e.Listed) (hread : (e.acts curr).isRead = true)
    (hact : e.Scans curr i act) (hne : .action act ≠ rf)
    (hlater : (e.moCall curr rf edges).NoLaterFence)
    (h : e.readFenceRule curr act (e.readFences curr i) = some rule) :
    (e.moCall curr rf edges).Justified ⟨.action act,rf,rule⟩ := by
  have hwrite := readFenceRule_isWrite h
  have hstore := hact.fromStore rule edges hwrite hne
  have hlocal : ∀ y, (e.readFences curr i).fenceLocal = some y →
      (e.moCall curr rf edges).ScFence y ∧ (e.moCall curr rf edges).SequencedBefore y curr := by
    intro y hy
    have hlast : e.getLastSeqCstFence (e.acts curr).tid none = some y := hy
    obtain ⟨hy,htid⟩ := getLastSeqCstFence_some rf edges hlast
    exact ⟨hy,htid,hlater y hy.1 hy (.inl htid)⟩
  rw [readFenceRule,if_neg (by simp [hwrite])] at h
  split at h
  · rename_i x hx
    obtain rfl := Option.some.inj h
    split at hx
    · rename_i hcurr
      obtain ⟨hfence,hbefore⟩ := beforeFence_eq_some.mp hx
      have hfence : e.getLastSeqCstFence i none = some x := by
        simp only [readFences] at hfence
        split at hfence
        · exact hfence
        · cases hfence
      obtain ⟨hx,htid⟩ := getLastSeqCstFence_some rf edges hfence
      exact ⟨act,hstore,hread,hcurr,hx,⟨hact.tid.trans htid.symm,hbefore⟩,
        hlater x hx.1 hx (.inr ⟨hread,hcurr⟩)⟩
    · cases hx
  split at h
  · rename_i y hy
    obtain rfl := Option.some.inj h
    split at hy
    · rename_i hsc
      obtain ⟨hfence,hbefore⟩ := beforeFence_eq_some.mp hy
      obtain ⟨hy,hseq⟩ := hlocal y hfence
      exact ⟨act,hstore,hread,hsc,hy,hbefore,hseq⟩
    · cases hy
  split at h
  · rename_i x y hx hy
    obtain rfl := Option.some.inj h
    obtain ⟨hfence,hbefore⟩ := beforeFence_eq_some.mp hx
    obtain ⟨hfy,hseq⟩ := hlocal y hy
    obtain ⟨z,hz,hfence⟩ := Option.bind_eq_some_iff.mp hfence
    obtain rfl : z = y := Option.some.inj (hz.symm.trans hy)
    obtain ⟨hfx,htid⟩ := getLastSeqCstFence_some rf edges hfence
    exact ⟨act,hstore,hread,hfx,hfy,⟨hact.tid.trans htid.symm,hbefore⟩,
      getLastSeqCstFence_lt hl hfence,hseq⟩
  · cases h

theorem writeFenceRule_justified {i : ThreadId} {act : ActionId} {rule : MoRule}
    {edges : List MoEdge} (hl : e.Listed) (hcurr : (e.acts curr).isWrite = true)
    (hact : e.Scans curr i act) (hne : act ≠ curr)
    (hlater : (e.moCall curr (.action curr) edges).NoLaterFence)
    (h : e.writeFenceRule act (e.writeFences curr i) = some rule) :
    (e.moCall curr (.action curr) edges).Justified ⟨.action act,.action curr,rule⟩ := by
  have hwrite := writeFenceRule_isWrite h
  have hother : GraphObj.action act ≠ .action curr := by simpa using hne
  have hstore := hact.fromStore rule edges hwrite hother
  rw [writeFenceRule,if_neg (by simp [hwrite])] at h
  split at h
  · rename_i x y hx hy
    obtain rfl := Option.some.inj h
    obtain ⟨hfence,hbefore⟩ := beforeFence_eq_some.mp hx
    simp only [writeFences] at hfence
    split at hfence
    · obtain ⟨z,hz,hfence⟩ := Option.bind_eq_some_iff.mp hfence
      obtain rfl : z = y := Option.some.inj (hz.symm.trans hy)
      obtain ⟨hfx,htid⟩ := getLastSeqCstFence_some (.action curr) edges hfence
      obtain ⟨hfy,hytid⟩ := getLastSeqCstFence_some (.action curr) edges hz
      exact ⟨act,hstore,hcurr,rfl,hfx,hfy,⟨hact.tid.trans htid.symm,hbefore⟩,
        getLastSeqCstFence_lt hl hfence,hytid,hlater z hfy.1 hfy (.inl hytid)⟩
    · cases hfence
  · cases h

theorem readScan_justified {i : ThreadId} {rf : GraphObj} {acts : List ActionId} {x : MoEdge}
    {edges : List MoEdge} (hl : e.Listed) (hread : (e.acts curr).isRead = true)
    (hacts : ∀ a ∈ acts, e.Scans curr i a) (hlater : (e.moCall curr rf edges).NoLaterFence)
    (h : e.readScan curr rf (e.readFences curr i) acts = .ok (some x)) :
    (e.moCall curr rf edges).Justified x := by
  induction acts with
  | nil => cases h
  | cons act rest ih =>
    have hrest := ih fun a ha => hacts a (List.mem_cons_of_mem _ ha)
    rw [readScan] at h
    split at h
    · exact hrest h
    split at h
    · exact hrest h
    split at h
    · split at h
      · cases h
      · exact hrest h
    rename_i hne
    split at h
    · rename_i rule hrule
      obtain rfl := Option.some.inj (Except.ok.inj h)
      exact readFenceRule_justified hl hread (hacts act List.mem_cons_self) hne hlater hrule
    split at h
    · split at h
      · obtain rfl := Option.some.inj (Except.ok.inj h)
        trivial
      · obtain ⟨prevrf,hprev,h⟩ := bind_eq_ok.mp h
        have h := Except.ok.inj h
        split at h
        · cases h
        · obtain rfl := Option.some.inj h
          trivial
    · exact hrest h

theorem writeScan_justified {i : ThreadId} {acts : List ActionId} {x : MoEdge}
    {edges : List MoEdge} (hl : e.Listed) (hwrite : (e.acts curr).isWrite = true)
    (hacts : ∀ a ∈ acts, e.Scans curr i a)
    (hlater : (e.moCall curr (.action curr) edges).NoLaterFence)
    (h : e.writeScan curr (e.writeFences curr i) acts = .ok (some x)) :
    (e.moCall curr (.action curr) edges).Justified x := by
  induction acts with
  | nil => cases h
  | cons act rest ih =>
    have hrest := ih fun a ha => hacts a (List.mem_cons_of_mem _ ha)
    rw [writeScan] at h
    split at h
    · split at h
      · cases h
      · exact hrest h
    rename_i hne
    split at h
    · rename_i rule hrule
      obtain rfl := Option.some.inj (Except.ok.inj h)
      exact writeFenceRule_justified hl hwrite (hacts act List.mem_cons_self) hne hlater hrule
    split at h
    · split at h
      · obtain rfl := Option.some.inj (Except.ok.inj h)
        trivial
      split at h
      · obtain ⟨prevrf,hprev,h⟩ := bind_eq_ok.mp h
        obtain rfl := Option.some.inj (Except.ok.inj h)
        trivial
      · cases h
    · exact hrest h

theorem Listed.scans (h : e.Listed) {j : ℕ} {list : List ActionId}
    (hj : (e.objThrdMap (e.acts curr).location)[j]? = some list) :
    ∀ a ∈ list.reverse, e.Scans curr (0 + j) a := by
  intro a ha
  have hmem : a ∈ e.objThrd (e.acts curr).location j := by simpa [objThrd,hj] using ha
  obtain ⟨-,-,htid,hon⟩ := h.mem _ j a hmem
  exact ⟨by rw [htid,Nat.zero_add],hon⟩

/-- The edges of a call that looks up no later fence. -/
theorem Scanned.justified {target : GraphObj} {edges : List MoEdge}
    (h : e.Scanned curr target edges) (hl : e.Listed)
    (hlater : (e.moCall curr target edges).NoLaterFence) :
    ∀ x ∈ edges, (e.moCall curr target edges).Justified x := by
  have hexclusive : ∀ y, ∀ x ∈ e.exclusiveEdges curr y,
      (e.moCall curr target edges).Justified x := by
    intro y x hx
    obtain ⟨p,-,rfl⟩ := List.mem_map.mp hx
    trivial
  rcases h with hedges | ⟨rfl,hedges⟩
  · obtain ⟨_,hread,hedges⟩ := bind_eq_ok.mp hedges
    obtain ⟨scanned,hscan,hedges⟩ := bind_eq_ok.mp hedges
    intro x hx
    rw [← Except.ok.inj hedges] at hx
    rcases List.mem_append.mp hx with hx | hx
    · obtain ⟨j,list,hj,hone⟩ := scanThreads_mem hscan hx
      exact readScan_justified hl (assert_eq_ok.mp hread) (hl.scans hj) hlater hone
    · exact hexclusive _ x hx
  · obtain ⟨_,hwrite,hedges⟩ := bind_eq_ok.mp hedges
    obtain ⟨scanned,hscan,hedges⟩ := bind_eq_ok.mp hedges
    intro x hx
    rw [← Except.ok.inj hedges] at hx
    rcases List.mem_append.mp hx with hx | hx
    · rcases List.mem_append.mp hx with hx | hx
      · unfold lastSeqCstEdge at hx
        split at hx
        · obtain ⟨w,hw,rfl⟩ := Option.map_eq_some_iff.mp (Option.mem_toList.mp hx)
          trivial
        · cases hx
      · obtain ⟨j,list,hj,hone⟩ := scanThreads_mem hscan hx
        exact writeScan_justified hl (assert_eq_ok.mp hwrite) (hl.scans hj) hlater hone
    · exact hexclusive _ x hx

/-! ### The log -/

/-- Each call that looks up no later fence adds justified edges only. -/
def Logged (e : Execution) : Prop :=
  ∀ call ∈ e.moCalls, call.NoLaterFence → ∀ x ∈ call.edges, call.Justified x

theorem Logged.of_eq (h : e.Logged) (hcalls : e'.moCalls = e.moCalls) : e'.Logged := by
  rw [Logged,hcalls]
  exact h

theorem synchronize_moCalls (e : Execution) (first second : ActionId) :
    (e.synchronize first second).1.moCalls = e.moCalls := by
  cases hb : e.before second first with
  | true => rw [synchronize_of_before hb]
  | false => rw [synchronize_of_not_before hb]

theorem MemStep.logged (h : MemStep curr e e') (hl : e.Listed) (hlog : e.Logged) : e'.Logged := by
  cases h with
  | synchronize first second => exact hlog.of_eq (e.synchronize_moCalls first second)
  | call g hedges =>
    intro call hcall hlater
    rcases List.mem_cons.mp hcall with rfl | hcall
    · exact hedges.justified hl hlater
    · exact hlog call hcall hlater
  | _ => exact hlog.of_eq rfl

theorem MemSteps.logged (h : MemSteps curr e e') (hl : e.Listed) (hlog : e.Logged) :
    e'.Listed ∧ e'.Logged := by
  induction h with
  | refl => exact ⟨hl,hlog⟩
  | tail _ hstep ih =>
    exact ⟨ih.1.samePlaces hstep.frame.samePlaces,hstep.logged ih.1 ih.2⟩

theorem ThreadSteps.logged (h : ThreadSteps curr e e') (hl : e.Listed) (hlog : e.Logged) :
    e'.Listed ∧ e'.Logged := by
  refine ⟨hl.samePlaces h.keepsOrder.samePlaces,hlog.of_eq ?_⟩
  induction h with
  | refl => rfl
  | tail _ hstep ih =>
    refine Eq.trans ?_ ih
    cases hstep with
    | calm h =>
      cases h with
      | synchronize first second => exact synchronize_moCalls _ first second
      | _ => rfl
    | other h => exact h.moCalls
    | addThread t _ => rfl

theorem checkCurrAction_logged {secondPartOfRmw : Bool} {node : Choices} {items : List WorkItem}
    (hv : e.Valid) (hl : e.Listed) (hlog : e.Logged)
    (h : e.checkCurrAction curr secondPartOfRmw node = .ok (e',items)) : e'.Logged := by
  obtain ⟨⟨e₁,_⟩,h₁,h⟩ := bind_eq_ok.mp h
  obtain ⟨⟨e₂,_⟩,h₂,h⟩ := ite_bind_eq_ok.mp h
  obtain ⟨⟨e₃,_,_⟩,h₃,h⟩ := ite_bind_eq_ok.mp h
  obtain ⟨⟨e₄,_⟩,h₄,h⟩ := ite_bind_eq_ok.mp h
  obtain ⟨⟨e₅,_⟩,h₅,h⟩ := ite_bind_eq_ok.mp h
  obtain ⟨⟨e₆,_⟩,h₆,h⟩ := ite_bind_eq_ok.mp h
  obtain rfl : e₆ = e' := congrArg Prod.fst (Except.ok.inj h)
  obtain ⟨hl,hlog⟩ := ThreadSteps.logged (processThreadAction_threadSteps hv h₁) hl hlog
  have hread : MemSteps curr e₁ e₂ := by
    split at h₂
    · exact processRead_steps h₂
    · obtain rfl : e₁ = e₂ := congrArg Prod.fst (Except.ok.inj h₂)
      exact .refl
  have hwrite : MemSteps curr e₂ e₃ := by
    split at h₃
    · exact processWrite_steps h₃
    · obtain rfl : e₂ = e₃ := congrArg Prod.fst (Except.ok.inj h₃)
      exact .refl
  have hfence : MemSteps curr e₃ e₄ := by
    split at h₄
    · exact processFence_steps h₄
    · obtain rfl : e₃ = e₄ := congrArg Prod.fst (Except.ok.inj h₄)
      exact .refl
  obtain ⟨hl,hlog⟩ := MemSteps.logged ((hread.trans hwrite).trans hfence) hl hlog
  have hmutex : ThreadSteps curr e₄ e₅ := by
    split at h₅
    · exact processMutex_threadSteps h₅
    · obtain rfl : e₄ = e₅ := congrArg Prod.fst (Except.ok.inj h₅)
      exact .refl
  obtain ⟨hl,hlog⟩ := ThreadSteps.logged hmutex hl hlog
  have hfixup : MemSteps curr e₅ e₆ := by
    split at h₆
    · exact processRelseqFixup_steps h₆
    · obtain rfl : e₅ = e₆ := congrArg Prod.fst (Except.ok.inj h₆)
      exact .refl
  exact (MemSteps.logged hfixup hl hlog).2

theorem addActionToLists_moCalls {params : ExecutionParams}
    (h : e.addActionToLists params curr = .ok e') : e'.moCalls = e.moCalls := by
  obtain ⟨_,_,h⟩ := bind_eq_ok.mp h
  dsimp only at h
  split at h
  · obtain ⟨_,_,h⟩ := bind_eq_ok.mp h
    rw [← Except.ok.inj h]
    split <;> split <;> rfl
  · rw [← Except.ok.inj h]
    split <;> split <;> rfl

theorem processRmw_moCalls {act : ModelAction} (h : e.processRmw act = .ok (e',curr)) :
    e'.moCalls = e.moCalls := by
  unfold processRmw at h
  split at h
  · cases h
  dsimp only at h
  split at h
  · obtain rfl : _ = e' := congrArg Prod.fst (Except.ok.inj h)
    rfl
  split at h
  · cases h
  · obtain ⟨g,_,h⟩ := bind_eq_ok.mp h
    obtain rfl : _ = e' := congrArg Prod.fst (Except.ok.inj h)
    rfl

/-- The start of a step. -/
theorem beginAction_logged {params : ExecutionParams} {act : ModelAction} {newlyExplored : Bool}
    {node : Choices} (h : e.beginAction params act newlyExplored node = some (e',curr))
    (hl : e.Listed) (hr : e.Recorded) (hlog : e.Logged) (huser : act.tid ≠ 0)
    (hthread : act.tid < e.threads.length) : e'.Logged := by
  obtain ⟨⟨e₁,curr₁⟩,hinit,h⟩ := Option.bind_eq_some_iff.mp h
  have hinit := toOption_eq_some.mp hinit
  obtain ⟨_,_,h⟩ := Option.bind_eq_some_iff.mp h
  unfold initializeCurrAction at hinit
  by_cases hsecond : (act.isRmwc || act.isRmw) = true
  · rw [if_pos hsecond] at hinit
    rw [if_pos hsecond] at h
    obtain ⟨rfl,rfl⟩ : e₁ = e' ∧ curr₁ = curr := by simpa using h
    exact hlog.of_eq (processRmw_moCalls hinit)
  · rw [if_neg hsecond] at hinit
    rw [if_neg hsecond] at h
    obtain ⟨rfl,rfl⟩ : (e.newAction act).1 = e₁ ∧ e.numActs = curr₁ := by
      simpa [newAction] using hinit
    obtain ⟨_,_,h⟩ := Option.bind_eq_some_iff.mp h
    obtain ⟨e₂,hadd,h⟩ := Option.bind_eq_some_iff.mp h
    have hadd := toOption_eq_some.mp hadd
    have htid : ((e.newAction act).1.acts e.numActs).tid < (e.newAction act).1.getNumThreads := by
      rw [newAction_act]
      exact hthread
    have hlisted : e₂.Listed := hl.enter hr huser (addActionToLists_added hadd htid)
      (addActionToLists_entered hadd htid (Nat.lt_succ_self _))
    have hcalls := addActionToLists_moCalls hadd
    have hdone : e₂.Logged := hlog.of_eq hcalls
    split at h
    · obtain ⟨e₃,hread,h⟩ := Option.bind_eq_some_iff.mp h
      obtain ⟨rfl,rfl⟩ : e₃ = e' ∧ e.numActs = curr := by simpa using h
      exact (MemSteps.logged (checkRead_steps hread) hlisted hdone).2
    · obtain ⟨rfl,rfl⟩ : e₂ = e' ∧ e.numActs = curr := by simpa using h
      exact hdone

end Execution
namespace Config

open Execution Input

variable {params : ExecutionParams} {c c' : Config}

theorem Change.logged (h : Change params c c') (hs : c.Sane) (hlog : c.exec.Logged) :
    c'.exec.Logged := by
  have hl := hs.ordered.exec.listed
  cases h with
  | constructMutex => exact hlog.of_eq rfl
  | reportBug => exact hlog.of_eq c.exec.assertBug_sameMemory.moCalls
  | act i type order location value e hphase hneeds htyped hfollows he =>
    obtain ⟨-,rfl⟩ := switchFromMaster_spec he
    exact hlog.of_eq rfl
  | skip => exact hlog
  | sleepDisabled i e hphase hneeds hi he =>
    have hsteps : ThreadSteps 0 c.exec e := sleepDisabled_threadSteps he
    exact (hsteps.logged hl hlog).2
  | detect i deadlock hphase hdeadlock =>
    dsimp only
    split
    · exact hlog.of_eq c.exec.assertBug_sameMemory.moCalls
    · exact hlog
  | work curr secondPartOfRmw node item queue items e hphase hasserted he =>
    cases item with
    | checkCurrAction => exact checkCurrAction_logged hs.valid.exec hl hlog he
    | checkReleaseSeq location =>
      have hsteps : MemSteps curr c.exec e := resolveReleaseSequences_steps he
      exact (hsteps.logged hl hlog).2
    | checkMoEdges act =>
      have hsteps : MemSteps curr c.exec e := checkMoEdges_steps he
      exact (hsteps.logged hl hlog).2
  | finish curr secondPartOfRmw node queue hphase hdone =>
    exact hlog.of_eq (finishStep_sameMemory params c.exec curr).moCalls
  | takeStep t newlyExplored node e e' act curr hphase hnext hpending hbegin =>
    obtain ⟨th,hth,hact,hready,rfl,henabled⟩ := takePending_spec hpending
    have hp := hs.valid.exec.pending t th act hth hact
    have hthread : (c.exec.modifyThread t fun th => { th with pending := none }).threads[t]? =
        some { th with pending := none } := getElem?_modify_eq_some.mpr ⟨th,hth,by simp⟩
    have hrecorded : (c.exec.modifyThread t fun th => { th with pending := none }).Recorded :=
      hs.recorded.exec.setState t _ (fun _ => rfl) fun th' _ => ⟨id,.inl⟩
    have hsame : SameMemory c.exec (c.exec.modifyThread t fun th => { th with pending := none }) :=
      { SameMemory.refl c.exec with flagged := id }
    exact beginAction_logged hbegin (hl.samePlaces hsame.keepsOrder.samePlaces) hrecorded
      (hlog.of_eq rfl) (hp.tid ▸ hp.user) (hp.tid ▸ (List.getElem?_eq_some_iff.mp hthread).1)

/-- In every run, a call that looks up no fence behind its action adds justified edges only. -/
theorem Reachable.fenceEdges_justified (h : Reachable params c) {call : MoCall}
    (hcall : call ∈ c.exec.moCalls) (hlater : call.NoLaterFence) :
    ∀ x ∈ call.edges, call.Justified x := by
  have hlogged : c.exec.Logged :=
    reachable_invariant (p := fun c => c.exec.Logged) (by simp [Logged,init,Execution.init])
      (fun _ _ hc hlog hchange => hchange.logged hc.informed.1 hlog) h
  exact hlogged call hcall hlater

/-- Thread 2 executes a seq_cst fence and reads the last of two stores of thread 1, which is ordered
when thread 3 ends and the load synchronizes late. -/
def fencedBefore : List Input :=
  [ofThread .threadStart 1,go 1 {},store .relaxed 10 0,go 1 {},ofObject .threadCreate 100,go 1 {},
    ofObject .threadCreate 101,ofThread .threadStart 2,go 2 {},
    .act .atomicFence .seqCst .fence valueNone,go 1 {},store .seqCst 10 1,ofThread .threadStart 3,
    go 3 {},ofThread .threadFinish 3,go 1 {},store .relaxed 10 2,go 1 {},ofThread .threadFinish 1,
    go 2 {},load .acquire 10,go 2 { readFrom := .past 8 },store .relaxed 10 7,go 2 {},
    ofThread .threadFinish 2,go 3 {}]

theorem fenceEdges_justified_fencedBefore : ∃ c, Reachable {} c ∧ (7,10) ∈ c.exec.synchronized ∧
    ∃ call ∈ c.exec.moCalls, call.curr = 10 ∧
      ⟨.action 7,.action 8,.statement4 9⟩ ∈ call.edges ∧ ∀ x ∈ call.edges, call.Justified x := by
  obtain ⟨c,hc,hplay⟩ := exists_play {} fencedBefore
    (fun c => decide ((7,10) ∈ c.exec.synchronized ∧ ∃ call ∈ c.exec.moCalls, call.curr = 10 ∧
      ⟨.action 7,.action 8,.statement4 9⟩ ∈ call.edges ∧ call.NoLaterFence)) (by decide +kernel)
  obtain ⟨hsync,call,hcall,hcurr,hedge,hlater⟩ := of_decide_eq_true hplay
  exact ⟨c,hc,hsync,call,hcall,hcurr,hedge,hc.fenceEdges_justified hcall hlater⟩

/-- Here thread 2 stores and executes the fence after the load, before thread 3 ends. -/
def fencedAfter : List Input :=
  [ofThread .threadStart 1,go 1 {},store .relaxed 10 0,go 1 {},ofObject .threadCreate 100,go 1 {},
    ofObject .threadCreate 101,ofThread .threadStart 2,go 2 {},load .acquire 10,go 1 {},
    store .release 10 1,ofThread .threadStart 3,go 3 {},ofThread .threadFinish 3,go 1 {},
    store .relaxed 10 2,go 1 {},ofThread .threadFinish 1,go 2 { readFrom := .past 8 },
    store .seqCst 10 7,go 2 {},.act .atomicFence .seqCst .fence valueNone,go 2 {},
    ofThread .threadFinish 2,go 3 {}]

/-- The load is processed again and the later store is ordered before the one it reads from, so
that the execution is given up. -/
theorem laterFence_orders_laterStore : ∃ c, Reachable {} c ∧ c.exec.moGraph.hasCycles = true ∧
    ∃ call ∈ c.exec.moCalls, call.curr = 9 ∧ call.SequencedBefore 9 10 ∧
      call.SequencedBefore 9 11 ∧ ⟨.action 10,.action 8,.statement4 11⟩ ∈ call.edges ∧
      ¬ call.Justified ⟨.action 10,.action 8,.statement4 11⟩ := by
  obtain ⟨c,hc,hplay⟩ := exists_play {} fencedAfter
    (fun c => decide (c.exec.moGraph.hasCycles = true ∧ ∃ call ∈ c.exec.moCalls, call.curr = 9 ∧
      call.SequencedBefore 9 10 ∧ call.SequencedBefore 9 11 ∧
      ⟨.action 10,.action 8,.statement4 11⟩ ∈ call.edges)) (by decide +kernel)
  obtain ⟨hcycles,call,hcall,hcurr,hstore,hfence,hedge⟩ := of_decide_eq_true hplay
  refine ⟨c,hc,hcycles,call,hcall,hcurr,hstore,hfence,hedge,fun hjustified => ?_⟩
  obtain ⟨_,-,-,-,-,-,hsequenced⟩ := hjustified
  have hbefore := hsequenced.2
  rw [hcurr] at hbefore
  exact absurd hfence.2 (Nat.lt_asymm hbefore)

end Config
end CdsChecker
