import CdsChecker.FairSchedule
import CdsChecker.Library.OrderGraph

/-! Priorities by yields are acyclic at every node, so some thread can always be selected. -/
namespace CdsChecker

open Relation OrderGraph

namespace FairNode

/-- The relation a node stores. -/
def PriorityOver (n : FairNode) (t u : ThreadId) : Prop := n.hasPriorityOver t u = .ok true

theorem priorityOver_iff {n : FairNode} {t u : ThreadId} : n.PriorityOver t u ↔
    ∃ data, n.yieldData = some data ∧ t < n.numThreads ∧ u < n.numThreads ∧
      (data t u &&& YIELD_P != 0) = true := by
  unfold PriorityOver hasPriorityOver getYieldData
  cases n.yieldData with
  | none => simp [bind,Except.bind]
  | some data =>
    by_cases hlt : t < n.numThreads ∧ u < n.numThreads
    · simp [bind,Except.bind,pure,Except.pure,hlt]
    · have hnone : (YIELD_S ||| YIELD_D) &&& YIELD_P = 0 := by decide
      simp only [bind,Except.bind,pure,Except.pure,if_neg hlt,hnone]
      simp
      tauto

theorem yieldEntry_priority (curr u : ThreadId) (nextEnabled currEnabled : Bool) (s : YieldState) :
    yieldEntry curr u nextEnabled currEnabled s &&& YIELD_P = s &&& YIELD_P := by
  have hclear : ∀ s : YieldState, s &&& ~~~YIELD_E &&& YIELD_P = s &&& YIELD_P := by decide
  have hdisable : ∀ s : YieldState, (s &&& ~~~YIELD_E ||| YIELD_D) &&& YIELD_P = s &&& YIELD_P := by
    decide
  unfold yieldEntry
  split
  · rfl
  · simp only
    split
    · exact hdisable s
    · exact hclear s

/-- No priority over a thread that has been scheduled since, also after a yield. -/
theorem column_priority (nextEnabled : Bool) (s : YieldState) :
    (s &&& ~~~YIELD_P ||| YIELD_S) &&& YIELD_P = 0 ∧
      yieldRow nextEnabled (s &&& ~~~YIELD_P ||| YIELD_S) &&& YIELD_P = 0 := by
  decide +revert

section Row
variable (n parent : FairNode) (scheduler : EnabledArray)
  (parentData : ThreadId → ThreadId → YieldState)

theorem yieldStates_curr (u : ThreadId) : ∃ s : YieldState,
    n.yieldStates parent scheduler parentData u n.action.tid = s &&& ~~~YIELD_P ||| YIELD_S := by
  unfold yieldStates
  exact ⟨_,Function.update_self _ _ _⟩

theorem yieldStates_of_ne {u v : ThreadId} (h : v ≠ n.action.tid) :
    n.yieldStates parent scheduler parentData u v &&& YIELD_P = parentData u v &&& YIELD_P := by
  unfold yieldStates
  simp only [Function.update_of_ne h]
  exact yieldEntry_priority _ _ _ _ _

theorem yieldMatrix_of_ne {u : ThreadId} (h : u ≠ n.action.tid) :
    n.yieldMatrix parent scheduler parentData u = n.yieldStates parent scheduler parentData u := by
  unfold yieldMatrix
  split
  · exact Function.update_of_ne h _ _
  · rfl

theorem yieldMatrix_curr (u : ThreadId) :
    n.yieldMatrix parent scheduler parentData u n.action.tid &&& YIELD_P = 0 := by
  obtain ⟨s,hs⟩ := n.yieldStates_curr parent scheduler parentData u
  by_cases hu : u = n.action.tid
  · subst hu
    unfold yieldMatrix
    split
    · simp only [Function.update_self,hs]
      exact (column_priority _ s).2
    · rw [hs]
      exact (column_priority true s).1
  · rw [yieldMatrix_of_ne n parent scheduler parentData hu,hs]
    exact (column_priority true s).1

end Row

theorem priorityOver_eq_ok {n : FairNode} {data : ThreadId → ThreadId → YieldState}
    (h : n.getYieldData = .ok data) (t u : ThreadId) :
    n.PriorityOver t u ↔ (data t u &&& YIELD_P != 0) = true := by
  unfold PriorityOver hasPriorityOver
  rw [h]
  simp [bind,Except.bind,pure,Except.pure]

/-- The edges of a node are edges of its parent or go out of the current thread, and none goes
into the current thread. -/
theorem updateYield_priority {n n' parent : FairNode} {scheduler : EnabledArray}
    (h : n.updateYield (some parent) scheduler = .ok n') {u v : ThreadId}
    (huv : n'.PriorityOver u v) :
    v ≠ n.action.tid ∧ (parent.PriorityOver u v ∨ u = n.action.tid) := by
  obtain ⟨parentData,hparent,h⟩ := bind_eq_ok.mp h
  simp only [pure,Except.pure,Except.ok.injEq] at h
  subst h
  obtain ⟨data,hdata,-,-,hp⟩ := priorityOver_iff.mp huv
  simp only [Option.some.injEq] at hdata
  subst hdata
  have hne : v ≠ n.action.tid := by
    rintro rfl
    rw [yieldMatrix_curr] at hp
    exact absurd hp (by decide)
  refine ⟨hne,?_⟩
  by_cases hu : u = n.action.tid
  · exact .inr hu
  · rw [yieldMatrix_of_ne _ _ _ _ hu,yieldStates_of_ne _ _ _ _ hne] at hp
    exact .inl ((priorityOver_eq_ok hparent u v).mpr hp)

/-- At the first node every thread has been scheduled and disabled. -/
theorem updateYield_base {n n' : FairNode} {scheduler : EnabledArray}
    (h : n.updateYield none scheduler = .ok n') {u v : ThreadId} : ¬ n'.PriorityOver u v := by
  cases h
  intro huv
  obtain ⟨data,hdata,-,-,hp⟩ := priorityOver_iff.mp huv
  cases hdata
  have hbase : ((YIELD_S ||| YIELD_D) &&& YIELD_P != 0) = false := by decide
  exact Bool.false_ne_true (hbase.symm.trans hp)

theorem updateYield_acyclic {n n' : FairNode} {parent : Option FairNode} {scheduler : EnabledArray}
    (h : n.updateYield parent scheduler = .ok n')
    (hparent : ∀ p, parent = some p → Acyclic p.PriorityOver) : Acyclic n'.PriorityOver := by
  cases parent with
  | none =>
    intro x hx
    obtain ⟨y,hxy,-⟩ := TransGen.head'_iff.mp hx
    exact updateYield_base h hxy
  | some p =>
    -- old edges that do not go into the current thread, and new ones out of it
    have hold : Acyclic fun x y => p.PriorityOver x y ∧ y ≠ n.action.tid := by
      by_contra hcycle
      exact not_acyclic_mono (fun x y hxy => hxy.1) hcycle (hparent p rfl)
    have hnew := acyclic_source (r := n.action.tid) (S := fun y => y ≠ n.action.tid) hold
      (fun _ hx => hx.2 rfl) (fun _ hy => hy)
    by_contra hcycle
    refine not_acyclic_mono (fun x y hxy => ?_) hcycle hnew
    obtain ⟨hne,hxy | rfl⟩ := updateYield_priority h hxy
    · exact .inl ⟨hxy,hne⟩
    · exact .inr ⟨rfl,hne⟩

theorem updateYield_isSome {n n' : FairNode} {parent : Option FairNode} {scheduler : EnabledArray}
    (h : n.updateYield parent scheduler = .ok n') : n'.yieldData.isSome = true := by
  cases parent with
  | none =>
    cases h
    rfl
  | some p =>
    obtain ⟨data,-,h⟩ := bind_eq_ok.mp h
    cases h
    rfl

end FairNode

namespace FairStack

/-- The invariant of the stack when yields are counted. -/
structure YieldsOk (s : FairStack) : Prop where
  headIdx_le : s.headIdx ≤ s.nodeList.length
  acyclic : ∀ n ∈ s.nodeList, Acyclic n.PriorityOver
  computed : ∀ n ∈ s.nodeList, n.yieldData.isSome = true

/-- Recomputing the head, when all other nodes are in order. -/
theorem updateYield_ok {s s' : FairStack} {scheduler : EnabledArray}
    (h : s.updateYield scheduler = .ok s') (hle : s.headIdx ≤ s.nodeList.length)
    (hacyclic : ∀ n ∈ s.nodeList, Acyclic n.PriorityOver)
    (hcomputed : ∀ i n, i ≠ s.headIdx - 1 → s.nodeList[i]? = some n → n.yieldData.isSome = true) :
    s'.YieldsOk := by
  unfold updateYield at h
  simp only at h
  split at h
  · cases h
  · rename_i node hnode
    obtain ⟨node',hnode',h⟩ := bind_eq_ok.mp h
    cases h
    have hparent : ∀ p,
        (if s.headIdx - 1 = 0 then none else s.nodeList[s.headIdx - 1 - 1]?) = some p →
        Acyclic p.PriorityOver := fun p hp => by
      split at hp
      · cases hp
      · exact hacyclic p (List.mem_of_getElem? hp)
    refine ⟨by simpa using hle,fun n hn => ?_,fun n hn => ?_⟩
    · rcases List.mem_or_eq_of_mem_set hn with hn | rfl
      · exact hacyclic n hn
      · exact FairNode.updateYield_acyclic hnode' hparent
    · obtain ⟨i,hi⟩ := List.mem_iff_getElem?.mp hn
      by_cases hne : s.headIdx - 1 = i
      · subst hne
        rw [List.getElem?_set_self (List.getElem?_eq_some_iff.mp hnode).1] at hi
        cases hi
        exact FairNode.updateYield_isSome hnode'
      · rw [List.getElem?_set_ne hne] at hi
        exact hcomputed i n (Ne.symm hne) hi

theorem YieldsOk.checkCurrentAction {params : FairParams} {s s' : FairStack} (h : s.YieldsOk)
    (hyield : params.yieldon = true) {act : FairAction} {isEnabled : EnabledArray} {numThreads : ℕ}
    {scheduler : EnabledArray}
    (hstep : s.checkCurrentAction params act isEnabled numThreads scheduler = .ok s') :
    s'.YieldsOk := by
  simp only [FairStack.checkCurrentAction,hyield,if_true] at hstep
  unfold exploreAction at hstep
  split at hstep
  · rename_i hlt
    exact updateYield_ok hstep hlt h.acyclic fun i n _ hn => h.computed n (List.mem_of_getElem? hn)
  · rename_i hge
    have hlen : s.headIdx = s.nodeList.length := Nat.le_antisymm h.headIdx_le (Nat.le_of_not_lt hge)
    have hchild : ∀ (i : ℕ) (n : FairNode), (s.exploreChild isEnabled).nodeList[i]? = some n →
        Acyclic n.PriorityOver ∧ n.yieldData.isSome = true := fun i n hn => by
      rw [getElem?_exploreChild] at hn
      split at hn
      · obtain ⟨m,hm,rfl⟩ := Option.map_eq_some_iff.mp hn
        exact ⟨h.acyclic m (List.mem_of_getElem? hm),h.computed m (List.mem_of_getElem? hm)⟩
      · exact ⟨h.acyclic n (List.mem_of_getElem? hn),h.computed n (List.mem_of_getElem? hn)⟩
    refine updateYield_ok hstep (by simp [hlen]) (fun n hn => ?_) fun i n hi hn => ?_
    · rcases List.mem_append.mp hn with hn | hn
      · obtain ⟨i,hi⟩ := List.mem_iff_getElem?.mp hn
        exact (hchild i n hi).1
      · rw [List.mem_singleton.mp hn]
        intro x hx
        obtain ⟨y,hxy,-⟩ := TransGen.head'_iff.mp hx
        obtain ⟨_,hnone,-⟩ := FairNode.priorityOver_iff.mp hxy
        cases hnone
    · have hlast : i < (s.exploreChild isEnabled).nodeList.length := by
        have hi' := (List.getElem?_eq_some_iff.mp hn).1
        simp at hi hi' ⊢
        omega
      rw [List.getElem?_append_left hlast] at hn
      exact (hchild i n hn).2

theorem YieldsOk.step {params : FairParams} {s s' : FairStack} (h : s.YieldsOk)
    (hyield : params.yieldon = true) (hstep : Step params s s') : s'.YieldsOk := by
  cases hstep with
  | checkCurrentAction act isEnabled numThreads scheduler _ _ hstep =>
    exact h.checkCurrentAction hyield hstep
  | updateYield scheduler _ hstep =>
    exact updateYield_ok hstep h.headIdx_le h.acyclic fun i n _ hn =>
      h.computed n (List.mem_of_getElem? hn)
  | popRestofstack numAhead hahead hlen =>
    refine ⟨?_,fun n hn => h.acyclic n (List.mem_of_mem_take hn),
      fun n hn => h.computed n (List.mem_of_mem_take hn)⟩
    have hle := h.headIdx_le
    simp only [popRestofstack,List.length_take]
    omega
  | resetExecution => exact ⟨Nat.zero_le _,h.acyclic,h.computed⟩
  | fullReset => exact ⟨Nat.zero_le _,by simp [fullReset,empty],by simp [fullReset,empty]⟩

theorem Reachable.yieldsOk {params : FairParams} {s : FairStack} (h : Reachable params s)
    (hyield : params.yieldon = true) : s.YieldsOk := by
  induction h with
  | init => exact ⟨Nat.zero_le _,by simp [empty],by simp [empty]⟩
  | step _ hstep ih => exact ih.step hyield hstep

end FairStack

theorem FairNode.hasPriorityOver_ok {n : FairNode} (h : n.yieldData.isSome = true)
    (t u : ThreadId) :
    ∃ b, n.hasPriorityOver t u = .ok b ∧ (b = true ↔ n.PriorityOver t u) := by
  obtain ⟨data,hdata⟩ := Option.isSome_iff_exists.mp h
  unfold PriorityOver hasPriorityOver getYieldData
  rw [hdata]
  exact ⟨_,rfl,by simp [bind,Except.bind,pure,Except.pure]⟩

theorem badThread_ok {n : FairNode} (h : n.yieldData.isSome = true) (enabled : EnabledArray)
    (curr : ThreadId) (js : List ThreadId) : ∃ b, badThread n enabled curr js = .ok b ∧
      (b = true ↔ ∃ j ∈ js, enabled.isEnabled j = true ∧ n.PriorityOver curr j) := by
  induction js with
  | nil => exact ⟨false,rfl,by simp⟩
  | cons j js ih =>
    obtain ⟨rest,hrest,hiff⟩ := ih
    rw [badThread]
    by_cases hj : enabled.isEnabled j = true
    · obtain ⟨b,hb,hbiff⟩ := FairNode.hasPriorityOver_ok h curr j
      rw [if_pos hj,hb]
      cases b with
      | true => exact ⟨true,rfl,by simp [hj,hbiff.mp rfl]⟩
      | false =>
        have hnot : ¬ n.PriorityOver curr j := fun hp => Bool.false_ne_true (hbiff.mpr hp)
        exact ⟨rest,hrest,by simp [hiff,hnot]⟩
    · rw [if_neg hj]
      exact ⟨rest,hrest,by simp [hiff,hj]⟩

/-- Enabled, and no enabled thread has priority over it. -/
def Selectable (n : FairNode) (enabled : EnabledArray) (t : ThreadId) : Prop :=
  enabled[t]? = some .enabled ∧
    ∀ j, enabled.isEnabled j = true → ¬ n.PriorityOver t j

theorem EnabledArray.lt_of_isEnabled {enabled : EnabledArray} {t : ThreadId}
    (h : enabled.isEnabled t = true) : t < enabled.length := by
  unfold EnabledArray.isEnabled at h
  split at h
  · cases h
  · cases h
  · rename_i hsome
    exact (List.getElem?_eq_some_iff.mp hsome).1

theorem selectLoop_ok {params : FairParams} {n : FairNode} (hyield : params.yieldon = true)
    (h : n.yieldData.isSome = true) (enabled : EnabledArray) (old : ℕ) {is : List ℕ} (curr : ℕ)
    (hex : ∃ i ∈ is, Selectable n enabled ((old + i + 1) % enabled.length)) :
    ∃ t, selectLoop params n enabled old false is curr = .ok (some t,t) ∧
      Selectable n enabled t := by
  induction is generalizing curr with
  | nil => simp at hex
  | cons i is ih =>
    obtain ⟨b,hb,hiff⟩ := badThread_ok h enabled ((old + i + 1) % enabled.length)
      (List.range enabled.length)
    have hbad : b = true ↔ ∃ j, enabled.isEnabled j = true ∧
        n.PriorityOver ((old + i + 1) % enabled.length) j := by
      rw [hiff]
      constructor
      · rintro ⟨j,-,hj⟩
        exact ⟨j,hj⟩
      · rintro ⟨j,hj,hp⟩
        exact ⟨j,List.mem_range.mpr (EnabledArray.lt_of_isEnabled hj),hj,hp⟩
    simp only [selectLoop,hyield,if_true,hb,bind,Except.bind,Bool.false_eq_true,if_false]
    by_cases hsel : Selectable n enabled ((old + i + 1) % enabled.length)
    · have hfalse : b = false := by
        by_contra htrue
        obtain ⟨j,hj,hp⟩ := hbad.mp (by simpa using htrue)
        exact hsel.2 j hj hp
      refine ⟨_,?_,hsel⟩
      simp [hfalse,hsel.1]
    · obtain ⟨k,hk,hksel⟩ := hex
      have hrest : k ∈ is := by
        rcases List.mem_cons.mp hk with rfl | hk
        · exact absurd hksel hsel
        · exact hk
      obtain ⟨t,ht,htsel⟩ := ih ((old + i + 1) % enabled.length) ⟨k,hrest,hksel⟩
      refine ⟨t,?_,htsel⟩
      cases hbval : b with
      | true => simpa using ht
      | false =>
        have hne : enabled[(old + i + 1) % enabled.length]? ≠ some .enabled := fun henabled =>
          hsel ⟨henabled,fun j hj hp => by
            rw [hbad.mpr ⟨j,hj,hp⟩] at hbval
            cases hbval⟩
        simpa [hne] using ht

/-- Round-robin meets every thread. -/
theorem exists_turn (old : ℕ) {t len : ℕ} (ht : t < len) : ∃ i < len, (old + i + 1) % len = t := by
  have hr : (old + 1) % len < len := Nat.mod_lt _ (Nat.zero_lt_of_lt ht)
  have hturn : ∀ i, (old + i + 1) % len = ((old + 1) % len + i) % len := fun i => by
    rw [Nat.mod_add_mod]
    congr 1
    omega
  rcases Nat.lt_or_ge t ((old + 1) % len) with hlt | hge
  · refine ⟨t + len - (old + 1) % len,by omega,?_⟩
    rw [hturn,show (old + 1) % len + (t + len - (old + 1) % len) = t + len by omega,
      Nat.add_mod_right,Nat.mod_eq_of_lt ht]
  · refine ⟨t - (old + 1) % len,by omega,?_⟩
    rw [hturn,Nat.add_sub_cancel' hge,Nat.mod_eq_of_lt ht]

theorem selectNextThread_ok {params : FairParams} {n : FairNode} (hyield : params.yieldon = true)
    (hwindow : params.fairwindow = 0) (hacyclic : Acyclic n.PriorityOver)
    (h : n.yieldData.isSome = true) {enabled : EnabledArray} (hsleep : .sleepSet ∉ enabled)
    (henabled : .enabled ∈ enabled) (currThreadIndex : ℕ) :
    ∃ t, selectNextThread params n enabled currThreadIndex = .ok (some t,t) ∧
      Selectable n enabled t := by
  have hof : ∀ t, enabled.isEnabled t = true → enabled[t]? = some .enabled := fun t ht => by
    obtain ⟨e,he⟩ : ∃ e, enabled[t]? = some e :=
      ⟨_,List.getElem?_eq_getElem (EnabledArray.lt_of_isEnabled ht)⟩
    cases e with
    | disabled => simp [EnabledArray.isEnabled,he] at ht
    | enabled => exact he
    | sleepSet => exact absurd (List.mem_of_getElem? he) hsleep
  obtain ⟨s,hs⟩ := List.mem_iff_getElem?.mp henabled
  have hstart : s ∈ (List.range enabled.length).filter enabled.isEnabled :=
    List.mem_filter.mpr ⟨List.mem_range.mpr (List.getElem?_eq_some_iff.mp hs).1,
      by simp [EnabledArray.isEnabled,hs]⟩
  obtain ⟨t,ht,hlast⟩ := hacyclic.exists_last (List.ne_nil_of_mem hstart)
  obtain ⟨hlt,hten⟩ := List.mem_filter.mp ht
  have hsel : Selectable n enabled t := by
    refine ⟨hof t hten,fun j hj => hlast j ?_⟩
    exact List.mem_filter.mpr ⟨List.mem_range.mpr (EnabledArray.lt_of_isEnabled hj),hj⟩
  obtain ⟨i,hi,hturn⟩ := exists_turn currThreadIndex (List.mem_range.mp hlt)
  have hloop := selectLoop_ok hyield h enabled currThreadIndex currThreadIndex
    ⟨i,List.mem_range.mpr hi,hturn.symm ▸ hsel⟩
  simpa [selectNextThread,hwindow,bind,Except.bind] using hloop

namespace FairStack

/-- In every run that counts yields the priorities are acyclic at every node, and with neither a
window nor sleeping threads an enabled thread is selected while there is one. -/
theorem yield_never_stalls (params : FairParams) (hyield : params.yieldon = true) (s : FairStack)
    (h : Reachable params s) :
    (∀ n ∈ s.nodeList, Acyclic n.PriorityOver) ∧
    (params.fairwindow = 0 → ∀ head, s.getHead = some head → ∀ enabled : EnabledArray,
      .sleepSet ∉ enabled → .enabled ∈ enabled → ∀ currThreadIndex, ∃ t,
        selectNextThread params head enabled currThreadIndex = .ok (some t,t) ∧
        enabled[t]? = some .enabled) := by
  have hok := h.yieldsOk hyield
  refine ⟨hok.acyclic,fun hwindow head hhead enabled hsleep henabled curr => ?_⟩
  have hmem : head ∈ s.nodeList := by
    unfold getHead at hhead
    split at hhead
    · cases hhead
    · exact List.mem_of_getElem? hhead
  obtain ⟨t,ht,hsel⟩ := selectNextThread_ok hyield hwindow (hok.acyclic head hmem)
    (hok.computed head hmem) hsleep henabled curr
  exact ⟨t,ht,hsel.1⟩

/-- Three threads are enabled all the time. The first one yields three times, then the second one
twice, and both wait for the third one. -/
theorem yield_never_stalls_three : ∃ s head, Reachable ⟨0,1,true⟩ s ∧ s.getHead = some head ∧
    head.PriorityOver 0 2 ∧ head.PriorityOver 1 0 ∧ head.PriorityOver 1 2 ∧
    (∀ n ∈ s.nodeList, Acyclic n.PriorityOver) ∧
    ∀ currThreadIndex, ∃ t, selectNextThread ⟨0,1,true⟩ head [.enabled,.enabled,.enabled]
      currThreadIndex = .ok (some t,t) ∧ [EnabledType.enabled,.enabled,.enabled][t]? =
      some .enabled := by
  let yields (tid : ThreadId) : FairAction × EnabledArray :=
    (⟨tid,true,false⟩,[.enabled,.enabled,.enabled])
  obtain ⟨s,hs,hhead⟩ := exists_play ⟨0,1,true⟩ [yields 0,yields 0,yields 0,yields 1,yields 1]
    (fun s => s.getHead.any fun head => head.hasPriorityOver 0 2 = .ok true ∧
      head.hasPriorityOver 1 0 = .ok true ∧ head.hasPriorityOver 1 2 = .ok true)
    (by decide +kernel)
  obtain ⟨hacyclic,hsel⟩ := yield_never_stalls ⟨0,1,true⟩ rfl s hs
  cases hget : s.getHead with
  | none => simp [hget] at hhead
  | some head =>
    rw [hget] at hhead
    obtain ⟨h₀₂,h₁₀,h₁₂⟩ := of_decide_eq_true hhead
    exact ⟨s,head,hs,hget,h₀₂,h₁₀,h₁₂,hacyclic,hsel rfl head hget _ (by decide) (by decide)⟩

end FairStack
end CdsChecker
