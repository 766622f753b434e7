import CdsChecker.FairSchedule
import CdsChecker.Library.SlidingWindow

/-! The counters of the fairness window count the nodes in it. -/
namespace CdsChecker

open SlidingWindow

namespace FairnessInfo

variable (fi : FairnessInfo) (params : FairParams) (enabled turn : Bool)

theorem enter_turns : (fi.enter enabled turn).turns = fi.turns + if turn then 1 else 0 := by
  cases enabled <;> cases turn <;> simp [enter]

theorem enter_enabledCount :
    (fi.enter enabled turn).enabledCount = fi.enabledCount + if enabled then 1 else 0 := by
  cases enabled <;> cases turn <;> simp [enter]

theorem leave_turns : (fi.leave enabled turn).turns = fi.turns - if turn then 1 else 0 := by
  cases enabled <;> cases turn <;> simp [leave]

theorem leave_enabledCount :
    (fi.leave enabled turn).enabledCount = fi.enabledCount - if enabled then 1 else 0 := by
  cases enabled <;> cases turn <;> simp [leave]

@[simp] theorem evaluate_turns : (fi.evaluate params).turns = fi.turns := by
  unfold evaluate
  split <;> rfl

@[simp] theorem evaluate_enabledCount : (fi.evaluate params).enabledCount = fi.enabledCount := by
  unfold evaluate
  split <;> rfl

theorem evaluate_priority (henabled : params.enabledcount ≤ fi.enabledCount)
    (hturns : fi.turns = 0) : (fi.evaluate params).priority = true := by
  rw [evaluate,if_pos ⟨henabled,hturns⟩]

end FairnessInfo

namespace FairNode

/-- What the constructor copies from the parent. -/
def inherited (parent : Option FairNode) (i : ThreadId) : FairnessInfo :=
  (parent.bind (·.fairness[i]?)).getD {}

section Entry
variable (params : FairParams) (act : FairAction) (parent : Option FairNode)
  (prevfairness : Option (FairNode × FairNode)) (i : ThreadId)

theorem fairnessEntry_turns : (fairnessEntry params act parent prevfairness i).turns =
    (inherited parent i).turns + (if i == act.tid then 1 else 0) -
      (prevfairness.map fun x => if i == x.1.action.tid then 1 else 0).getD 0 := by
  unfold fairnessEntry inherited
  rcases prevfairness with _ | ⟨prev,prevParent⟩
  · simp [FairnessInfo.enter_turns]
  · simp [FairnessInfo.enter_turns,FairnessInfo.leave_turns]

theorem fairnessEntry_enabledCount : (fairnessEntry params act parent prevfairness i).enabledCount =
    (inherited parent i).enabledCount + (if parent.any (·.isEnabled i) then 1 else 0) -
      (prevfairness.map fun x => if x.2.isEnabled i then 1 else 0).getD 0 := by
  unfold fairnessEntry inherited
  rcases prevfairness with _ | ⟨prev,prevParent⟩
  · simp [FairnessInfo.enter_enabledCount]
  · simp [FairnessInfo.enter_enabledCount,FairnessInfo.leave_enabledCount]

theorem fairnessEntry_priority (hprev : prevfairness ≠ none)
    (henabled : params.enabledcount ≤ (fairnessEntry params act parent prevfairness i).enabledCount)
    (hturns : (fairnessEntry params act parent prevfairness i).turns = 0) :
    (fairnessEntry params act parent prevfairness i).priority = true := by
  obtain ⟨⟨prev,prevParent⟩,rfl⟩ := Option.ne_none_iff_exists'.mp hprev
  simp only [fairnessEntry,FairnessInfo.evaluate_enabledCount,FairnessInfo.evaluate_turns]
    at henabled hturns ⊢
  exact FairnessInfo.evaluate_priority _ _ henabled hturns

end Entry

/-- Yields do not touch what the window looks at. -/
theorem updateYield_frame {n n' : FairNode} {parent : Option FairNode} {scheduler : EnabledArray}
    (h : n.updateYield parent scheduler = .ok n') :
    n'.action = n.action ∧ n'.numThreads = n.numThreads ∧ n'.fairness = n.fairness ∧
      n'.enabledArray = n.enabledArray := by
  cases parent with
  | none =>
    cases h
    exact ⟨rfl,rfl,rfl,rfl⟩
  | some p =>
    obtain ⟨data,-,h⟩ := bind_eq_ok.mp h
    cases h
    exact ⟨rfl,rfl,rfl,rfl⟩

end FairNode

namespace FairStack

theorem slides_eq_some {params : FairParams} {k j : ℕ} : slides params k = some j ↔
    params.fairwindow ≠ 0 ∧ params.fairwindow + 1 < k ∧ k - 1 - params.fairwindow = j := by
  unfold slides
  split
  · simp [*]
  · simp
    tauto

theorem slides_orderly (params : FairParams) : Orderly (slides params) := by
  constructor
  · intro k j h
    obtain ⟨_,hlt,rfl⟩ := slides_eq_some.mp h
    omega
  · intro k l j hk hl
    obtain ⟨_,hlt,hj⟩ := slides_eq_some.mp hk
    obtain ⟨_,hlt',hj'⟩ := slides_eq_some.mp hl
    omega

/-- The nodes still inside the window when node `k` is the last. -/
def window (params : FairParams) (k : ℕ) : Finset ℕ := SlidingWindow.window (slides params) k

/-- The action of node `j` belongs to thread `i`. -/
def turnOf (nodes : List FairNode) (i : ThreadId) (j : ℕ) : Bool :=
  (nodes[j]?).any (i == ·.action.tid)

/-- Thread `i` was enabled at the parent of node `j`. -/
def enabledAtParent (nodes : List FairNode) (i : ThreadId) (j : ℕ) : Bool :=
  j != 0 && (nodes[j - 1]?).any (·.isEnabled i)

def turns (params : FairParams) (nodes : List FairNode) (k : ℕ) (i : ThreadId) : ℤ :=
  ∑ j ∈ window params k, if turnOf nodes i j then 1 else 0

def enabledCount (params : FairParams) (nodes : List FairNode) (k : ℕ) (i : ThreadId) : ℤ :=
  ∑ j ∈ window params k, if enabledAtParent nodes i j then 1 else 0

/-- The entry of thread `i` at node `k`. -/
structure Counts (params : FairParams) (nodes : List FairNode) (k : ℕ) (i : ThreadId)
    (fi : FairnessInfo) : Prop where
  turns : fi.turns = turns params nodes k i
  enabledCount : fi.enabledCount = enabledCount params nodes k i
  priority : slides params k ≠ none → params.enabledcount ≤ fi.enabledCount → fi.turns = 0 →
    fi.priority = true

theorem turns_eq_card (params : FairParams) (nodes : List FairNode) (k : ℕ) (i : ThreadId) :
    turns params nodes k i = ((window params k).filter fun j => turnOf nodes i j).card :=
  sum_window_eq_card _ k

theorem enabledCount_eq_card (params : FairParams) (nodes : List FairNode) (k : ℕ) (i : ThreadId) :
    enabledCount params nodes k i =
      ((window params k).filter fun j => enabledAtParent nodes i j).card :=
  sum_window_eq_card _ k

theorem le_of_mem_window {params : FairParams} {k j : ℕ} (h : j ∈ window params k) : j ≤ k :=
  (mem_window.mp h).1

/-- A node's counts depend on the nodes up to it. -/
theorem turns_congr {params : FairParams} {nodes nodes' : List FairNode} {k : ℕ} {i : ThreadId}
    (h : ∀ j ≤ k, turnOf nodes i j = turnOf nodes' i j) :
    turns params nodes k i = turns params nodes' k i :=
  Finset.sum_congr rfl fun j hj => by rw [h j (le_of_mem_window hj)]

theorem enabledCount_congr {params : FairParams} {nodes nodes' : List FairNode} {k : ℕ}
    {i : ThreadId} (h : ∀ j ≤ k, enabledAtParent nodes i j = enabledAtParent nodes' i j) :
    enabledCount params nodes k i = enabledCount params nodes' k i :=
  Finset.sum_congr rfl fun j hj => by rw [h j (le_of_mem_window hj)]

theorem Counts.congr {params : FairParams} {nodes nodes' : List FairNode} {k : ℕ} {i : ThreadId}
    {fi : FairnessInfo} (h : Counts params nodes k i fi)
    (hturns : ∀ j ≤ k, turnOf nodes i j = turnOf nodes' i j)
    (henabled : ∀ j ≤ k, enabledAtParent nodes i j = enabledAtParent nodes' i j) :
    Counts params nodes' k i fi :=
  ⟨h.turns.trans (turns_congr hturns),h.enabledCount.trans (enabledCount_congr henabled),h.priority⟩

/-- The invariant of the stack when a window is kept. -/
structure WindowOk (params : FairParams) (s : FairStack) : Prop where
  headIdx_le : s.headIdx ≤ s.nodeList.length
  fairness_length : ∀ n ∈ s.nodeList, n.fairness.length = n.numThreads
  tid_lt : ∀ n ∈ s.nodeList, n.action.tid < n.numThreads
  numThreads_mono : ∀ (j k : ℕ) (m n : FairNode), j ≤ k → s.nodeList[j]? = some m →
    s.nodeList[k]? = some n → m.numThreads ≤ n.numThreads
  counts : ∀ (k : ℕ) (n : FairNode), s.nodeList[k]? = some n → ∀ (i : ThreadId) (fi : FairnessInfo),
    n.fairness[i]? = some fi → Counts params s.nodeList k i fi

/-- Two stacks that differ at no node in what the window looks at; what was enabled at the last
node does not count yet. -/
theorem WindowOk.of_eq {params : FairParams} {s s' : FairStack} (h : WindowOk params s)
    (hle : s'.headIdx ≤ s'.nodeList.length)
    (hsub : ∀ (k : ℕ) (n' : FairNode), s'.nodeList[k]? = some n' → ∃ n, s.nodeList[k]? = some n ∧
      n'.action = n.action ∧ n'.numThreads = n.numThreads ∧ n'.fairness = n.fairness ∧
      (k + 1 < s'.nodeList.length → n'.enabledArray = n.enabledArray)) : WindowOk params s' := by
  have hturn : ∀ k n', s'.nodeList[k]? = some n' → ∀ i, ∀ j ≤ k,
      turnOf s.nodeList i j = turnOf s'.nodeList i j := fun k n' hn' i j hj => by
    have hlt := (List.getElem?_eq_some_iff.mp hn').1
    obtain ⟨m',hm'⟩ : ∃ m', s'.nodeList[j]? = some m' :=
      ⟨_,List.getElem?_eq_getElem (Nat.lt_of_le_of_lt hj hlt)⟩
    obtain ⟨m,hm,haction,-⟩ := hsub j m' hm'
    simp [turnOf,hm,hm',haction]
  have henabled : ∀ k n', s'.nodeList[k]? = some n' → ∀ i, ∀ j ≤ k,
      enabledAtParent s.nodeList i j = enabledAtParent s'.nodeList i j := fun k n' hn' i j hj => by
    have hlt := (List.getElem?_eq_some_iff.mp hn').1
    cases j with
    | zero => rfl
    | succ j =>
      obtain ⟨m',hm'⟩ : ∃ m', s'.nodeList[j]? = some m' :=
        ⟨_,List.getElem?_eq_getElem (by omega)⟩
      obtain ⟨m,hm,-,hthreads,-,harray⟩ := hsub j m' hm'
      simp [enabledAtParent,hm,hm',FairNode.isEnabled,hthreads,harray (by omega)]
  refine ⟨hle,fun n' hn' => ?_,fun n' hn' => ?_,fun j k m' n' hjk hm' hn' => ?_,
    fun k n' hn' i fi hfi => ?_⟩
  · obtain ⟨k,hk⟩ := List.mem_iff_getElem?.mp hn'
    obtain ⟨n,hn,-,hthreads,hfairness,-⟩ := hsub k n' hk
    rw [hfairness,hthreads]
    exact h.fairness_length n (List.mem_of_getElem? hn)
  · obtain ⟨k,hk⟩ := List.mem_iff_getElem?.mp hn'
    obtain ⟨n,hn,haction,hthreads,-⟩ := hsub k n' hk
    rw [haction,hthreads]
    exact h.tid_lt n (List.mem_of_getElem? hn)
  · obtain ⟨m,hm,-,hmt,-⟩ := hsub j m' hm'
    obtain ⟨n,hn,-,hnt,-⟩ := hsub k n' hn'
    rw [hmt,hnt]
    exact h.numThreads_mono j k m n hjk hm hn
  · obtain ⟨n,hn,-,-,hfairness,-⟩ := hsub k n' hn'
    rw [hfairness] at hfi
    exact (h.counts k n hn i fi hfi).congr (hturn k n' hn' i) (henabled k n' hn' i)

theorem WindowOk.updateYield {params : FairParams} {s s' : FairStack} (h : WindowOk params s)
    {scheduler : EnabledArray} (hstep : s.updateYield scheduler = .ok s') : WindowOk params s' := by
  unfold FairStack.updateYield at hstep
  simp only at hstep
  split at hstep
  · cases hstep
  · rename_i node hnode
    obtain ⟨node',hnode',hstep⟩ := bind_eq_ok.mp hstep
    cases hstep
    refine h.of_eq (by simpa using h.headIdx_le) fun k n' hn' => ?_
    by_cases hk : s.headIdx - 1 = k
    · subst hk
      rw [List.getElem?_set_self (List.getElem?_eq_some_iff.mp hnode).1] at hn'
      cases hn'
      obtain ⟨haction,hthreads,hfairness,harray⟩ := FairNode.updateYield_frame hnode'
      exact ⟨node,hnode,haction,hthreads,hfairness,fun _ => harray⟩
    · rw [List.getElem?_set_ne hk] at hn'
      exact ⟨n',hn',rfl,rfl,rfl,fun _ => rfl⟩

theorem turnOf_eq {nodes : List FairNode} {j : ℕ} {n : FairNode} (h : nodes[j]? = some n)
    (i : ThreadId) : turnOf nodes i j = (i == n.action.tid) := by
  simp [turnOf,h]

theorem enabledAtParent_eq {nodes : List FairNode} {j : ℕ} {n : FairNode} (hj : j ≠ 0)
    (h : nodes[j - 1]? = some n) (i : ThreadId) : enabledAtParent nodes i j = n.isEnabled i := by
  simp [enabledAtParent,h,hj]

/-- A thread that did not exist yet has neither turns nor been enabled. -/
theorem WindowOk.inherited {params : FairParams} {s : FairStack} (h : WindowOk params s) {k : ℕ}
    {n : FairNode} (hn : s.nodeList[k]? = some n) (i : ThreadId) :
    ((n.fairness[i]?).getD {}).turns = turns params s.nodeList k i ∧
    ((n.fairness[i]?).getD {}).enabledCount = enabledCount params s.nodeList k i := by
  cases hfi : n.fairness[i]? with
  | some fi => exact ⟨(h.counts k n hn i fi hfi).turns,(h.counts k n hn i fi hfi).enabledCount⟩
  | none =>
    have hge : n.numThreads ≤ i := by
      rw [← h.fairness_length n (List.mem_of_getElem? hn)]
      exact List.getElem?_eq_none_iff.mp hfi
    have hlt : k < s.nodeList.length := (List.getElem?_eq_some_iff.mp hn).1
    have hnode : ∀ j ≤ k, ∃ m, s.nodeList[j]? = some m ∧ m.numThreads ≤ i := fun j hj => by
      have hm : s.nodeList[j]? = some s.nodeList[j] := List.getElem?_eq_getElem (by omega)
      exact ⟨_,hm,(h.numThreads_mono j k _ n hj hm hn).trans hge⟩
    constructor
    · refine (Finset.sum_eq_zero fun j hj => ?_).symm
      obtain ⟨m,hm,hmi⟩ := hnode j (le_of_mem_window hj)
      have hne : i ≠ m.action.tid :=
        Nat.ne_of_gt (Nat.lt_of_lt_of_le (h.tid_lt m (List.mem_of_getElem? hm)) hmi)
      simp [turnOf_eq hm,hne]
    · refine (Finset.sum_eq_zero fun j hj => ?_).symm
      obtain ⟨m,hm,hmi⟩ := hnode (j - 1) ((Nat.sub_le _ _).trans (le_of_mem_window hj))
      have hout : m.isEnabled i = false := by simp [FairNode.isEnabled,hmi]
      simp [enabledAtParent,hm,hout]

/-- The node that leaves the window is there, with its parent. -/
theorem prevfairness_cases (params : FairParams) {s : FairStack}
    (hle : s.headIdx ≤ s.nodeList.length) :
    (slides params s.headIdx = none ∧ s.prevfairness params = none) ∨
    ∃ l prev parent, slides params s.headIdx = some l ∧ l ≠ 0 ∧ l + 1 < s.headIdx ∧
      s.nodeList[l]? = some prev ∧ s.nodeList[l - 1]? = some parent ∧
      s.prevfairness params = some (prev,parent) := by
  unfold prevfairness
  cases hslides : slides params s.headIdx with
  | none => exact .inl ⟨rfl,rfl⟩
  | some l =>
    obtain ⟨hwindow,hlt,hl⟩ := slides_eq_some.mp hslides
    have hprev : s.nodeList[l]? = some s.nodeList[l] := List.getElem?_eq_getElem (by omega)
    have hparent : s.nodeList[l - 1]? = some s.nodeList[l - 1] :=
      List.getElem?_eq_getElem (by omega)
    refine .inr ⟨l,_,_,rfl,by omega,by omega,hprev,hparent,?_⟩
    simp [hprev,hparent]

theorem turns_succ (params : FairParams) (nodes : List FairNode) (k : ℕ) (i : ThreadId) :
    turns params nodes (k + 1) i = turns params nodes k i +
      (if turnOf nodes i (k + 1) then 1 else 0) -
      ((slides params (k + 1)).map fun j => if turnOf nodes i j then 1 else 0).getD 0 :=
  sum_window_succ (slides_orderly params) _ k

theorem enabledCount_succ (params : FairParams) (nodes : List FairNode) (k : ℕ) (i : ThreadId) :
    enabledCount params nodes (k + 1) i = enabledCount params nodes k i +
      (if enabledAtParent nodes i (k + 1) then 1 else 0) -
      ((slides params (k + 1)).map fun j => if enabledAtParent nodes i j then 1 else 0).getD 0 :=
  sum_window_succ (slides_orderly params) _ k

theorem turns_zero (params : FairParams) (nodes : List FairNode) (i : ThreadId) :
    turns params nodes 0 i = if turnOf nodes i 0 then 1 else 0 := by
  rw [turns,window,window_zero (slides_orderly params),Finset.sum_singleton]

theorem enabledCount_zero (params : FairParams) (nodes : List FairNode) (i : ThreadId) :
    enabledCount params nodes 0 i = 0 := by
  rw [enabledCount,window,window_zero (slides_orderly params),Finset.sum_singleton]
  rfl

theorem getHead_succ {s : FairStack} {k : ℕ} (h : s.headIdx = k + 1) :
    s.getHead = s.nodeList[k]? := by
  simp [getHead,h]

/-- The counters of a new node, from those of the head. -/
theorem counts_create {params : FairParams} {nodes : List FairNode} {s : FairStack}
    {act : FairAction} {i : ThreadId} (hle : s.headIdx ≤ s.nodeList.length)
    (hnodes : ∀ j < s.headIdx, nodes[j]? = s.nodeList[j]?)
    (hnew : turnOf nodes i s.headIdx = (i == act.tid))
    (hinherited : ∀ k, s.headIdx = k + 1 →
      (FairNode.inherited s.getHead i).turns = turns params nodes k i ∧
      (FairNode.inherited s.getHead i).enabledCount = enabledCount params nodes k i) :
    Counts params nodes s.headIdx i
      (FairNode.fairnessEntry params act s.getHead (s.prevfairness params) i) := by
  have hslides : (s.prevfairness params).map (fun x => if i == x.1.action.tid then (1 : ℤ) else 0) =
        (slides params s.headIdx).map (fun j => if turnOf nodes i j then 1 else 0) ∧
      (s.prevfairness params).map (fun x => if x.2.isEnabled i then (1 : ℤ) else 0) =
        (slides params s.headIdx).map (fun j => if enabledAtParent nodes i j then 1 else 0) := by
    rcases prevfairness_cases params hle with ⟨hnone,hprev⟩ |
        ⟨l,prev,parent,hl,hl0,hlt,hprev,hparent,hsome⟩
    · rw [hnone,hprev]
      exact ⟨rfl,rfl⟩
    · rw [← hnodes l (by omega)] at hprev
      rw [← hnodes (l - 1) (by omega)] at hparent
      rw [hl,hsome]
      simp only [Option.map_some,turnOf_eq hprev,enabledAtParent_eq hl0 hparent]
      exact ⟨trivial,trivial⟩
  have hpriority : slides params s.headIdx ≠ none → s.prevfairness params ≠ none := by
    intro hs
    rcases prevfairness_cases params hle with ⟨hnone,-⟩ | ⟨l,prev,parent,-,-,-,-,-,hsome⟩
    · exact absurd hnone hs
    · rw [hsome]
      exact Option.some_ne_none _
  refine ⟨?_,?_,fun hs => FairNode.fairnessEntry_priority _ _ _ _ _ (hpriority hs)⟩
  · rw [FairNode.fairnessEntry_turns,hslides.1]
    cases hk : s.headIdx with
    | zero =>
      have hslide : slides params 0 = none := by simp [slides]
      rw [hk] at hnew
      simp [turns_zero,hnew,hslide,FairNode.inherited,getHead,hk]
    | succ k =>
      rw [hk] at hnew
      rw [turns_succ,(hinherited k hk).1,hnew]
  · rw [FairNode.fairnessEntry_enabledCount,hslides.2]
    cases hk : s.headIdx with
    | zero =>
      have hslide : slides params 0 = none := by simp [slides]
      simp [enabledCount_zero,hslide,FairNode.inherited,getHead,hk]
    | succ k =>
      have hhead : enabledAtParent nodes i (k + 1) = s.getHead.any (·.isEnabled i) := by
        rw [getHead_succ hk,← hnodes k (by omega)]
        simp [enabledAtParent]
      rw [enabledCount_succ,(hinherited k hk).2,hhead]

theorem WindowOk.exploreChild {params : FairParams} {s : FairStack} (h : WindowOk params s)
    (hlen : s.headIdx = s.nodeList.length) (isEnabled : EnabledArray) :
    WindowOk params (s.exploreChild isEnabled) := by
  refine h.of_eq (by simp [hlen]) fun k n' hn' => ?_
  rw [getElem?_exploreChild] at hn'
  split at hn'
  · rename_i hk
    obtain ⟨n,hn,rfl⟩ := Option.map_eq_some_iff.mp hn'
    refine ⟨n,hn,rfl,rfl,rfl,fun hlt => ?_⟩
    simp at hlt
    omega
  · exact ⟨n',hn',rfl,rfl,rfl,fun _ => rfl⟩

theorem length_create {params : FairParams} (act : FairAction) (parent : Option FairNode)
    (nthreads : ℕ) (prev : Option (FairNode × FairNode)) :
    (FairNode.create params act parent nthreads prev).fairness.length = nthreads := by
  unfold FairNode.create
  split <;> simp

/-- A new node on top. -/
theorem WindowOk.add {params : FairParams} {s : FairStack} (h : WindowOk params s)
    (hwindow : params.fairwindow ≠ 0) (act : FairAction) {nextThreads : ℕ}
    (hlen : s.headIdx = s.nodeList.length) (htid : act.tid < nextThreads)
    (hthreads : ∀ head, s.getHead = some head → head.numThreads ≤ nextThreads) :
    WindowOk params
      { nodeList := s.nodeList ++
          [FairNode.create params act s.getHead nextThreads (s.prevfairness params)]
        headIdx := s.headIdx + 1 } := by
  generalize hnew : FairNode.create params act s.getHead nextThreads (s.prevfairness params) = new
  have hnewThreads : new.numThreads = nextThreads := hnew ▸ rfl
  have hcases : ∀ (k : ℕ) (n : FairNode), (s.nodeList ++ [new])[k]? = some n →
      k < s.nodeList.length ∧ s.nodeList[k]? = some n ∨ k = s.nodeList.length ∧ n = new := by
    intro k n hn
    rcases Nat.lt_or_ge k s.nodeList.length with hlt | hge
    · exact .inl ⟨hlt,(List.getElem?_append_left hlt).symm.trans hn⟩
    · rw [List.getElem?_append_right hge,List.getElem?_singleton] at hn
      split at hn
      · exact .inr ⟨by omega,(Option.some.inj hn).symm⟩
      · cases hn
  have hold : ∀ j < s.nodeList.length, (s.nodeList ++ [new])[j]? = s.nodeList[j]? :=
    fun j hj => List.getElem?_append_left hj
  refine ⟨by simp [hlen],fun n hn => ?_,fun n hn => ?_,fun j k m n hjk hm hn => ?_,
    fun k n hn i fi hfi => ?_⟩
  · rcases List.mem_append.mp hn with hn | hn
    · exact h.fairness_length n hn
    · rw [List.mem_singleton.mp hn,hnewThreads,← hnew,length_create]
  · rcases List.mem_append.mp hn with hn | hn
    · exact h.tid_lt n hn
    · rw [List.mem_singleton.mp hn,hnewThreads,← hnew]
      exact htid
  · rcases hcases j m hm with ⟨hj,hm'⟩ | ⟨hj,rfl⟩ <;> rcases hcases k n hn with ⟨hk,hn'⟩ | ⟨hk,rfl⟩
    · exact h.numThreads_mono j k m n hjk hm' hn'
    · -- the head has the most threads of the nodes below
      obtain ⟨l,hl⟩ : ∃ l, s.headIdx = l + 1 := ⟨s.headIdx - 1,by omega⟩
      have hhead : s.nodeList[l]? = some s.nodeList[l] := List.getElem?_eq_getElem (by omega)
      rw [hnewThreads]
      exact (h.numThreads_mono j l m _ (by omega) hm' hhead).trans
        (hthreads _ ((getHead_succ hl).trans hhead))
    · omega
    · exact le_refl _
  · rcases hcases k n hn with ⟨hk,hn⟩ | ⟨rfl,rfl⟩
    · refine (h.counts k n hn i fi hfi).congr (fun j hj => ?_) fun j hj => ?_
      · rw [turnOf,turnOf,hold j (by omega)]
      · rw [enabledAtParent,enabledAtParent,hold (j - 1) (by omega)]
    · have hfi : ((List.range nextThreads).map (FairNode.fairnessEntry params act s.getHead
          (s.prevfairness params)))[i]? = some fi := by
        rw [← hfi,← hnew,FairNode.create]
        simp only [if_pos hwindow]
      obtain ⟨i',hi',rfl⟩ := Option.map_eq_some_iff.mp (List.getElem?_map.symm.trans hfi)
      obtain ⟨hlt,rfl⟩ := List.getElem?_eq_some_iff.mp hi'
      rw [List.getElem_range]
      rw [← hlen]
      refine counts_create (Nat.le_of_eq hlen) (fun j hj => hold j (hlen ▸ hj)) ?_ fun k hk => ?_
      · rw [hlen,turnOf_eq (n := n) (by simp),← hnew]
        rfl
      · have hhead : s.nodeList[k]? = some s.nodeList[k] := List.getElem?_eq_getElem (by omega)
        have hinherited :
            FairNode.inherited s.getHead i = (s.nodeList[k].fairness[i]?).getD {} := by
          rw [getHead_succ hk,hhead]
          rfl
        obtain ⟨hturns,henabled⟩ := h.inherited hhead i
        rw [hinherited,hturns,henabled]
        constructor
        · exact turns_congr fun j hj => by rw [turnOf,turnOf,hold j (by omega)]
        · exact enabledCount_congr fun j hj => by
            rw [enabledAtParent,enabledAtParent,hold (j - 1) (by omega)]

theorem WindowOk.exploreAction {params : FairParams} {s : FairStack} (h : WindowOk params s)
    (hwindow : params.fairwindow ≠ 0) (act : FairAction) (isEnabled : EnabledArray)
    {numThreads : ℕ} (htid : act.tid < numThreads)
    (hthreads : ∀ head, s.getHead = some head → head.numThreads ≤ numThreads) :
    WindowOk params (s.exploreAction params act isEnabled numThreads) := by
  unfold FairStack.exploreAction
  split
  · rename_i hlt
    exact h.of_eq hlt fun k n hn => ⟨n,hn,rfl,rfl,rfl,fun _ => rfl⟩
  · rename_i hge
    have hlen : s.headIdx = s.nodeList.length := Nat.le_antisymm h.headIdx_le (Nat.le_of_not_lt hge)
    have hnext : numThreads ≤ if act.isCreate then numThreads + 1 else numThreads := by
      split <;> omega
    refine (h.exploreChild hlen isEnabled).add hwindow act (by simp [hlen])
      (Nat.lt_of_lt_of_le htid hnext) fun head hhead => ?_
    unfold getHead at hhead
    split at hhead
    · cases hhead
    · rename_i hpos
      rw [headIdx_exploreChild] at hpos hhead
      rw [getElem?_exploreChild,if_pos rfl] at hhead
      obtain ⟨m,hm,rfl⟩ := Option.map_eq_some_iff.mp hhead
      exact (hthreads m (by rw [getHead,if_neg hpos,hm])).trans hnext

theorem WindowOk.step {params : FairParams} {s s' : FairStack} (h : WindowOk params s)
    (hwindow : params.fairwindow ≠ 0) (hstep : Step params s s') : WindowOk params s' := by
  cases hstep with
  | checkCurrentAction act isEnabled numThreads scheduler htid hthreads hstep =>
    have hexplore := h.exploreAction hwindow act isEnabled htid hthreads
    unfold checkCurrentAction at hstep
    simp only at hstep
    split at hstep
    · exact hexplore.updateYield hstep
    · cases hstep
      exact hexplore
  | updateYield scheduler _ hstep => exact h.updateYield hstep
  | popRestofstack numAhead hahead hlen =>
    have hle := h.headIdx_le
    refine h.of_eq (by simp only [popRestofstack,List.length_take]; omega) fun k n hn => ?_
    have hk := (List.getElem?_eq_some_iff.mp hn).1
    simp only [popRestofstack,List.length_take] at hk hn
    rw [List.getElem?_take_of_lt (by omega)] at hn
    exact ⟨n,hn,rfl,rfl,rfl,fun _ => rfl⟩
  | resetExecution => exact h.of_eq (Nat.zero_le _) fun k n hn => ⟨n,hn,rfl,rfl,rfl,fun _ => rfl⟩
  | fullReset => exact h.of_eq (Nat.zero_le _) fun k n hn => by cases hn

theorem Reachable.windowOk {params : FairParams} {s : FairStack} (h : Reachable params s)
    (hwindow : params.fairwindow ≠ 0) : WindowOk params s := by
  induction h with
  | init => exact ⟨Nat.zero_le _,by simp [empty],by simp [empty],by simp [empty],by simp [empty]⟩
  | step _ hstep ih => exact ih.step hwindow hstep

/-- At every node that slides the window, both counters of every thread count the nodes in it,
and a thread without a turn that was enabled often enough has priority. -/
theorem fairness_window_exact (params : FairParams) (hwindow : params.fairwindow ≠ 0)
    (s : FairStack) (h : Reachable params s) (k : ℕ) (n : FairNode)
    (hn : s.nodeList[k]? = some n) (hslides : slides params k ≠ none) (i : ThreadId)
    (hi : i < n.numThreads) : ∃ fi, n.fairness[i]? = some fi ∧
      fi.turns = ((window params k).filter fun j => turnOf s.nodeList i j).card ∧
      fi.enabledCount = ((window params k).filter fun j => enabledAtParent s.nodeList i j).card ∧
      0 ≤ fi.turns ∧ 0 ≤ fi.enabledCount ∧
      ((∀ j ∈ window params k, ¬ turnOf s.nodeList i j) →
        params.enabledcount ≤
        ((window params k).filter fun j => enabledAtParent s.nodeList i j).card →
        fi.priority = true) := by
  have hok := h.windowOk hwindow
  obtain ⟨fi,hfi⟩ : ∃ fi, n.fairness[i]? = some fi := by
    rw [← hok.fairness_length n (List.mem_of_getElem? hn)] at hi
    exact ⟨_,List.getElem?_eq_getElem hi⟩
  obtain ⟨hturns,henabled,hpriority⟩ := hok.counts k n hn i _ hfi
  rw [turns_eq_card] at hturns
  rw [enabledCount_eq_card] at henabled
  refine ⟨_,hfi,hturns,henabled,hturns ▸ Int.natCast_nonneg _,henabled ▸ Int.natCast_nonneg _,
    fun hnone hoften => hpriority hslides ?_ ?_⟩
  · rw [henabled]
    exact_mod_cast hoften
  · rw [hturns,Finset.filter_false_of_mem hnone]
    rfl

/-- Four actions of one thread and a window of one node: node 1 has left, node 0 has not. -/
theorem fairness_window_exact_four : ∃ s n fi, Reachable ⟨1,1,false⟩ s ∧
    s.nodeList[3]? = some n ∧ n.fairness[0]? = some fi ∧ fi.turns = 3 := by
  let params : FairParams := ⟨1,1,false⟩
  have hnext : ∀ {s s'}, Reachable params s →
    (∀ head, s.getHead = some head → head.numThreads ≤ 1) →
      s.checkCurrentAction params ⟨0,false,false⟩ [.enabled] 1 [.enabled] = .ok s' →
      Reachable params s' := fun h hthreads hstep =>
    h.step (.checkCurrentAction _ _ 1 _ (by decide) hthreads hstep)
  have hhead : ∀ {n : FairNode}, n.numThreads = 1 → ∀ head, some n = some head →
      head.numThreads ≤ 1 := fun hn head hhead => by
    cases hhead
    exact hn.le
  have hrun := hnext (hnext (hnext (hnext .init (by simp [empty,getHead]) rfl) (hhead rfl) rfl)
    (hhead rfl) rfl) (hhead rfl) rfl
  obtain ⟨fi,hfi,hturns,-⟩ := fairness_window_exact params (by decide) _ hrun 3 _ rfl (by decide) 0
    (by decide)
  exact ⟨_,_,fi,hrun,rfl,hfi,hturns.trans (by decide)⟩

end FairStack
end CdsChecker
