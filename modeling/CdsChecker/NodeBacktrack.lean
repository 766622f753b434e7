import CdsChecker.NodeCursors
import CdsChecker.NodeStack

/-! Backtrack points over whole runs of the node stack: they survive as long as every divergence
gives the next node a new behaviour. -/
namespace CdsChecker

/-! ### The threads of one node -/

namespace Node

theorem getD_set {l : List Bool} {i : ℕ} (h : i < l.length) (j : ℕ) (b : Bool) :
    (l.set i b).getD j false = if j = i then b else l.getD j false := by
  by_cases hj : j = i
  · rw [if_pos hj,hj,List.getD,List.getElem?_set_self h,Option.getD_some]
  · rw [if_neg hj,List.getD,List.getElem?_set_ne (Ne.symm hj),List.getD]

theorem getD_map_false (l : List Bool) (j : ℕ) : (l.map fun _ => false).getD j false = false := by
  rw [List.getD,List.getElem?_map]
  cases l[j]? <;> rfl

/-- Both sets have a bit for every thread. -/
def Sized (n : Node) : Prop := n.exploredChildren.length = n.backtrack.length

theorem explore_spec {n n' : Node} {tid : ThreadId} (hn : n.Sized) (h : n.explore tid = .ok n') :
    n'.Sized ∧ n'.tid = n.tid ∧
      (∀ t, n'.inBacktrack t = true ↔ n.inBacktrack t = true ∧ t ≠ tid) ∧
      ∀ t, n'.hasBeenExplored t = true ↔ n.hasBeenExplored t = true ∨ t = tid := by
  obtain ⟨_,hlen,heq⟩ := bind_eq_ok.mp h
  rw [assert_eq_ok,decide_eq_true_eq] at hlen
  rw [pure_eq_ok] at heq
  have hlen' : tid < n.exploredChildren.length := by
    rw [hn]
    exact hlen
  have hexplored : ∀ t, (n.exploredChildren.set tid true).getD t false = true ↔
      n.hasBeenExplored t = true ∨ t = tid := by
    intro t
    rw [getD_set hlen',hasBeenExplored]
    by_cases ht : t = tid <;> simp [ht]
  by_cases hin : n.inBacktrack tid = true
  · rw [if_pos hin] at heq
    rw [← heq]
    refine ⟨by simpa [Sized] using hn,rfl,?_,hexplored⟩
    intro t
    rw [inBacktrack,getD_set hlen,inBacktrack]
    by_cases ht : t = tid <;> simp [ht]
  · rw [if_neg hin] at heq
    rw [← heq]
    refine ⟨by simpa [Sized] using hn,rfl,?_,hexplored⟩
    intro t
    by_cases ht : t = tid
    · simp only [ht,ne_eq,not_true_eq_false,and_false,iff_false]
      exact hin
    · simp only [ht,ne_eq,not_false_eq_true,and_true]
      exact Iff.rfl

theorem setBacktrack_spec {n n' : Node} {tid : ThreadId} {b : Bool}
    (h : n.setBacktrack tid = .ok (n',b)) :
    (n.Sized → n'.Sized) ∧ n'.tid = n.tid ∧ n'.exploredChildren = n.exploredChildren ∧
      ∀ t, n'.inBacktrack t = true ↔ n.inBacktrack t = true ∨ t = tid := by
  obtain ⟨_,hlen,heq⟩ := bind_eq_ok.mp h
  rw [assert_eq_ok,decide_eq_true_eq] at hlen
  by_cases hin : n.inBacktrack tid = true
  · rw [if_pos hin,pure_eq_ok,Prod.mk.injEq] at heq
    rw [← heq.1]
    refine ⟨id,rfl,rfl,fun t => ?_⟩
    rw [or_iff_left_of_imp]
    exact fun ht => ht ▸ hin
  · rw [if_neg hin,pure_eq_ok,Prod.mk.injEq] at heq
    rw [← heq.1]
    refine ⟨fun hn => by simpa [Sized] using hn,rfl,rfl,fun t => ?_⟩
    rw [inBacktrack,getD_set hlen,inBacktrack]
    by_cases ht : t = tid <;> simp [ht]

theorem getNextBacktrack_spec {n n' : Node} {tid : ThreadId}
    (h : n.getNextBacktrack = .ok (n',tid)) :
    n.inBacktrack tid = true ∧ (n.Sized → n'.Sized) ∧ n'.tid = n.tid ∧
      n'.exploredChildren = n.exploredChildren ∧
      ∀ t, n'.inBacktrack t = true ↔ n.inBacktrack t = true ∧ t ≠ tid := by
  rw [getNextBacktrack] at h
  cases hfind : n.backtrack.findIdx? (· == true) with
  | none =>
    rw [hfind] at h
    cases h
  | some i =>
    obtain ⟨hlen,hmark,-⟩ := List.findIdx?_eq_some_iff_getElem.mp hfind
    rw [hfind,Except.ok.injEq,Prod.mk.injEq] at h
    obtain ⟨rfl,rfl⟩ := h
    refine ⟨?_,fun hn => by simpa [Sized] using hn,rfl,rfl,fun t => ?_⟩
    · rw [inBacktrack,List.getD_eq_getElem _ _ hlen]
      simpa using hmark
    · rw [inBacktrack,getD_set hlen,inBacktrack]
      by_cases ht : t = i <;> simp [ht]

theorem clearBacktracking_spec (n : Node) :
    (n.Sized → n.clearBacktracking.Sized) ∧ n.clearBacktracking.tid = n.tid ∧
      ∀ t, n.clearBacktracking.inBacktrack t = false ∧
        n.clearBacktracking.hasBeenExplored t = false := by
  refine ⟨fun hn => by simpa [Sized,clearBacktracking] using hn,rfl,fun t => ⟨?_,?_⟩⟩
  · exact getD_map_false n.backtrack t
  · exact getD_map_false n.exploredChildren t

/-- Two nodes with the same threads. -/
def SameThreads (n n' : Node) : Prop :=
  n'.tid = n.tid ∧ n'.backtrack = n.backtrack ∧ n'.exploredChildren = n.exploredChildren

theorem SameThreads.trans {n₁ n₂ n₃ : Node} (h : n₁.SameThreads n₂) (h' : n₂.SameThreads n₃) :
    n₁.SameThreads n₃ :=
  ⟨h'.1.trans h.1,h'.2.1.trans h.2.1,h'.2.2.trans h.2.2⟩

theorem SameThreads.sized {n n' : Node} (h : n.SameThreads n') (hn : n.Sized) : n'.Sized := by
  rw [Sized,h.2.1,h.2.2]
  exact hn

theorem SameThreads.inBacktrack {n n' : Node} (h : n.SameThreads n') (t : ThreadId) :
    n'.inBacktrack t = n.inBacktrack t := by
  rw [Node.inBacktrack,h.2.1,Node.inBacktrack]

theorem SameThreads.hasBeenExplored {n n' : Node} (h : n.SameThreads n') (t : ThreadId) :
    n'.hasBeenExplored t = n.hasBeenExplored t := by
  rw [Node.hasBeenExplored,h.2.2,Node.hasBeenExplored]

theorem incrementPromise_threads (n : Node) : n.SameThreads n.incrementPromise.1 := by
  rw [incrementPromise]
  split <;> exact ⟨rfl,rfl,rfl⟩

theorem incrementReadFrom_threads (n : Node) : n.SameThreads n.incrementReadFrom.1 := by
  rcases h : n.incrementReadFrom with ⟨n',more⟩
  obtain ⟨i,j,k,s,rfl,-⟩ := incrementReadFrom_cases h
  exact ⟨rfl,rfl,rfl⟩

theorem incrementBehaviors_threads (n : Node) : n.SameThreads n.incrementBehaviors.1 := by
  have hmisc : n.SameThreads n.incrementMisc.1 := ⟨rfl,rfl,rfl⟩
  rcases h₁ : n.incrementMisc with ⟨n₁,_ | _⟩ <;> rw [h₁] at hmisc
  · have hpromise := n₁.incrementPromise_threads
    rcases h₂ : n₁.incrementPromise with ⟨n₂,_ | _⟩ <;> rw [h₂] at hpromise
    · have hread := n₂.incrementReadFrom_threads
      rcases h₃ : n₂.incrementReadFrom with ⟨n₃,_ | _⟩ <;> rw [h₃] at hread
      · have hbreak : n₃.SameThreads n₃.incrementRelseqBreak.1 := ⟨rfl,rfl,rfl⟩
        simp only [incrementBehaviors,h₁,h₂,h₃]
        exact ((hmisc.trans hpromise).trans hread).trans hbreak
      · simp only [incrementBehaviors,h₁,h₂,h₃]
        exact (hmisc.trans hpromise).trans hread
    · simp only [incrementBehaviors,h₁,h₂]
      exact hmisc.trans hpromise
  · simp only [incrementBehaviors,h₁]
    exact hmisc

theorem supply_threads (params : ModelParams) (n : Node) (o : NodeStack.Supply) :
    n.SameThreads (NodeStack.supply params n o) := by
  cases o with
  | addFutureValue fv =>
    show n.SameThreads (n.addFutureValue params fv).1
    rw [addFutureValue]
    split
    · exact ⟨rfl,rfl,rfl⟩
    · split
      · exact ⟨rfl,rfl,rfl⟩
      · split
        · exact ⟨rfl,rfl,rfl⟩
        · split <;> exact ⟨rfl,rfl,rfl⟩
  | getReadFromStatus =>
    show n.SameThreads n.getReadFromStatus.1
    rw [getReadFromStatus]
    split
    · exact n.incrementReadFrom_threads
    · exact ⟨rfl,rfl,rfl⟩
  | incrementReadFrom => exact n.incrementReadFrom_threads
  | addReadFromPast act => exact ⟨rfl,rfl,rfl⟩
  | addReadFromPromise reader => exact ⟨rfl,rfl,rfl⟩
  | addRelseqBreak write => exact ⟨rfl,rfl,rfl⟩
  | setPromise i => exact ⟨rfl,rfl,rfl⟩
  | setMiscMax i => exact ⟨rfl,rfl,rfl⟩

end Node

/-! ### The stack -/

namespace NodeStack

/-- Every node but the last has explored the thread of the node above it. -/
structure WellFormed (s : NodeStack) : Prop where
  head : s.headIdx ≤ s.nodeList.length
  sized : ∀ n ∈ s.nodeList, n.Sized
  explored : ∀ i n n', s.nodeList[i]? = some n → s.nodeList[i + 1]? = some n' →
    n.hasBeenExplored n'.tid = true

theorem WellFormed.empty : WellFormed empty where
  head := le_refl 0
  sized := by simp [NodeStack.empty]
  explored := by simp [NodeStack.empty]

/-- What a node keeps in a step: its action, and its threads but for those that leave its
backtrack set. -/
structure Keeps (out : ThreadId → Prop) (n n' : Node) : Prop where
  tid : n'.tid = n.tid
  sized : n.Sized → n'.Sized
  backtrack : ∀ t, n.inBacktrack t = true → n'.inBacktrack t = true ∨ out t
  explored : ∀ t, n.hasBeenExplored t = true → n'.hasBeenExplored t = true

theorem Keeps.refl (out : ThreadId → Prop) (n : Node) : Keeps out n n where
  tid := rfl
  sized := id
  backtrack := fun _ => .inl
  explored := fun _ => id

theorem Keeps.of_same {n n' : Node} (out : ThreadId → Prop) (h : n.SameThreads n') :
    Keeps out n n' where
  tid := h.1
  sized := h.sized
  backtrack := fun t ht => .inl (by rw [h.inBacktrack,ht])
  explored := fun t ht => by rw [h.hasBeenExplored,ht]

/-- Every node of the second stack comes from the one in its place, and nodes below the last are
kept. -/
theorem WellFormed.of_nodes {s s' : NodeStack} (h : s.WellFormed)
    (hhead : s'.headIdx ≤ s'.nodeList.length)
    (hnodes : ∀ i n', s'.nodeList[i]? = some n' → ∃ n, s.nodeList[i]? = some n ∧
      n'.tid = n.tid ∧ (n.Sized → n'.Sized) ∧ (i + 1 < s'.nodeList.length →
        ∀ t, n.hasBeenExplored t = true → n'.hasBeenExplored t = true)) : s'.WellFormed where
  head := hhead
  sized := by
    intro n' hn'
    obtain ⟨i,hi⟩ := List.mem_iff_getElem?.mp hn'
    obtain ⟨n,hn,-,hsized,-⟩ := hnodes i n' hi
    exact hsized (h.sized n (List.mem_of_getElem? hn))
  explored := by
    intro i n' m' hn' hm'
    obtain ⟨n,hn,-,-,hexplored⟩ := hnodes i n' hn'
    obtain ⟨m,hm,htid,-,-⟩ := hnodes (i + 1) m' hm'
    have hlt : i + 1 < s'.nodeList.length := (List.getElem?_eq_some_iff.mp hm').1
    rw [htid]
    exact hexplored hlt _ (h.explored i n m hn hm)

/-- A node in the list is replaced. -/
theorem set_nodes {l : List Node} {i : ℕ} {n n' : Node} (hn : l[i]? = some n) (j : ℕ) (m' : Node)
    (h : (l.set i n')[j]? = some m') :
    ∃ m, l[j]? = some m ∧ ((j = i ∧ m = n ∧ m' = n') ∨ (j ≠ i ∧ m' = m)) := by
  have hlt : i < l.length := (List.getElem?_eq_some_iff.mp hn).1
  by_cases hj : j = i
  · rw [hj,List.getElem?_set_self hlt,Option.some.injEq] at h
    exact ⟨n,hj ▸ hn,.inl ⟨hj,rfl,h.symm⟩⟩
  · rw [List.getElem?_set_ne (Ne.symm hj)] at h
    exact ⟨m',h,.inr ⟨hj,rfl⟩⟩

/-- The part of a step that concerns one node. -/
def KeepsNode (s : NodeStack) (op : Op) (s' : NodeStack) (i : ℕ) (n : Node) : Prop :=
  ∃ n', s'.nodeList[i]? = some n' ∧ Keeps (fun t => s.Explores i t op) n n'

theorem create_sized (act : ActionId) (tid : ThreadId) (numThreads : ℕ) :
    (Node.create act tid numThreads).Sized := by
  simp [Node.Sized,Node.create]

/-- A new action: the thread leaves the backtrack set of the last node. -/
theorem exploreAction_new {s s' : NodeStack} {act : ActionId} {type : ActionType}
    {tid : ThreadId} {numThreads : ℕ} {r : Option ActionId} (hs : s.WellFormed)
    (hnext : s.getNext = none) (h : s.exploreAction act type tid numThreads = .ok (s',r)) :
    s'.WellFormed ∧ ∀ i n, s.nodeList[i]? = some n →
      KeepsNode s (.exploreAction act type tid numThreads) s' i n := by
  rw [exploreAction,hnext] at h
  obtain ⟨l,hl,heq⟩ := bind_eq_ok.mp h
  rw [pure_eq_ok,Prod.mk.injEq] at heq
  obtain ⟨rfl,-⟩ := heq
  have hlen : s.headIdx = s.nodeList.length :=
    le_antisymm hs.head (List.getElem?_eq_none_iff.mp hnext)
  rw [exploreChild,getHead] at hl
  by_cases hzero : s.headIdx = 0
  · rw [if_pos hzero,Except.ok.injEq] at hl
    have hnil : s.nodeList = [] := List.length_eq_zero_iff.mp (hlen ▸ hzero)
    rw [hnil] at hl
    subst hl
    refine ⟨⟨?_,?_,?_⟩,?_⟩
    · simp [hzero]
    · simp [create_sized]
    · intro i n n' _ hn'
      simp at hn'
    · intro i n hn
      simp [hnil] at hn
  · rw [if_neg hzero] at hl
    have hlt : s.headIdx - 1 < s.nodeList.length := by omega
    have hhead : s.nodeList[s.headIdx - 1]? = some s.nodeList[s.headIdx - 1] :=
      List.getElem?_eq_getElem hlt
    generalize s.nodeList[s.headIdx - 1] = head at hhead
    rw [hhead] at hl
    obtain ⟨head',hexplore,heq⟩ := bind_eq_ok.mp hl
    rw [pure_eq_ok] at heq
    subst heq
    have hsized := hs.sized head (List.mem_of_getElem? hhead)
    obtain ⟨hsized',htid,hback,hexplored⟩ := Node.explore_spec hsized hexplore
    have hget : ∀ i n, s.nodeList[i]? = some n →
        KeepsNode s (.exploreAction act type tid numThreads)
          { s with
            nodeList := s.nodeList.set (s.headIdx - 1) head' ++ [Node.create act tid
              (if type = .threadCreate then numThreads + 1 else numThreads)]
            totalNodes := s.totalNodes + 1
            headIdx := s.headIdx + 1 } i n := by
      intro i n hn
      have hi : i < s.nodeList.length := (List.getElem?_eq_some_iff.mp hn).1
      rw [KeepsNode,List.getElem?_append_left (by simpa using hi)]
      by_cases hi' : i = s.headIdx - 1
      · rw [hi',hhead,Option.some.injEq] at hn
        subst hn
        refine ⟨head',by rw [hi',List.getElem?_set_self hlt],htid,fun _ => hsized',?_,?_⟩
        · intro t ht
          by_cases heq : t = tid
          · exact .inr ⟨hnext,by omega,heq⟩
          · exact .inl ((hback t).mpr ⟨ht,heq⟩)
        · exact fun t ht => (hexplored t).mpr (.inl ht)
      · exact ⟨n,by rw [List.getElem?_set_ne (Ne.symm hi'),hn],.refl _ n⟩
    refine ⟨⟨?_,?_,?_⟩,hget⟩
    · simp [hlen]
    · intro n hn
      rcases List.mem_append.mp hn with hn | hn
      · rcases List.mem_or_eq_of_mem_set hn with hn | rfl
        · exact hs.sized n hn
        · exact hsized'
      · rw [List.mem_singleton.mp hn]
        exact create_sized ..
    · intro i n n' hn hn'
      have hi : i + 1 < s.nodeList.length + 1 := by
        simpa using (List.getElem?_eq_some_iff.mp hn').1
      rw [List.getElem?_append_left (by simp; omega)] at hn
      obtain ⟨m,hm,hcase⟩ := set_nodes hhead i n hn
      by_cases hlast : i + 1 = s.nodeList.length
      · rw [List.getElem?_append_right (by simp [hlast])] at hn'
        simp only [List.length_set,hlast,Nat.sub_self,List.getElem?_cons_zero,
          Option.some.injEq] at hn'
        rcases hcase with ⟨-,-,rfl⟩ | ⟨hne,-⟩
        · rw [← hn']
          exact (hexplored tid).mpr (.inr rfl)
        · omega
      · rw [List.getElem?_append_left (by simp; omega)] at hn'
        obtain ⟨m',hm',hcase'⟩ := set_nodes hhead (i + 1) n' hn'
        have hold := hs.explored i m m' hm hm'
        have htid' : n'.tid = m'.tid := by
          rcases hcase' with ⟨-,rfl,rfl⟩ | ⟨-,rfl⟩
          · exact htid
          · rfl
        rw [htid']
        rcases hcase with ⟨-,rfl,rfl⟩ | ⟨-,rfl⟩
        · exact (hexplored _).mpr (.inl hold)
        · exact hold

theorem exploreAction_spec {s s' : NodeStack} {act : ActionId} {type : ActionType}
    {tid : ThreadId} {numThreads : ℕ} {r : Option ActionId} (hs : s.WellFormed)
    (h : s.exploreAction act type tid numThreads = .ok (s',r)) :
    s'.WellFormed ∧ ∀ i n, s.nodeList[i]? = some n →
      KeepsNode s (.exploreAction act type tid numThreads) s' i n := by
  cases hnext : s.getNext with
  | none => exact exploreAction_new hs hnext h
  | some node =>
    rw [exploreAction,hnext,Except.ok.injEq,Prod.mk.injEq] at h
    obtain ⟨rfl,-⟩ := h
    have hlt : s.headIdx < s.nodeList.length := (List.getElem?_eq_some_iff.mp hnext).1
    exact ⟨⟨hlt,hs.sized,hs.explored⟩,fun i n hn => ⟨n,hn,.refl _ n⟩⟩

/-- One node changes and keeps its threads. -/
theorem set_spec {s : NodeStack} {op : Op} {i : ℕ} {n n' : Node} (hs : s.WellFormed)
    (hn : s.nodeList[i]? = some n) (hkeeps : Keeps (fun t => s.Explores i t op) n n') :
    WellFormed { s with nodeList := s.nodeList.set i n' } ∧
      ∀ j m, s.nodeList[j]? = some m →
        KeepsNode s op { s with nodeList := s.nodeList.set i n' } j m := by
  have hlt : i < s.nodeList.length := (List.getElem?_eq_some_iff.mp hn).1
  refine ⟨hs.of_nodes (by simpa using hs.head) ?_,?_⟩
  · intro j m' hm'
    obtain ⟨m,hm,hcase⟩ := set_nodes hn j m' hm'
    rcases hcase with ⟨-,rfl,rfl⟩ | ⟨-,rfl⟩
    · exact ⟨m,hm,hkeeps.tid,hkeeps.sized,fun _ => hkeeps.explored⟩
    · exact ⟨m',hm,rfl,id,fun _ _ => id⟩
  · intro j m hm
    by_cases hj : j = i
    · rw [hj,hn,Option.some.injEq] at hm
      rw [hj,← hm]
      exact ⟨n',List.getElem?_set_self hlt,hkeeps⟩
    · exact ⟨m,by rw [List.getElem?_set_ne (Ne.symm hj),hm],.refl _ m⟩

theorem setBacktrack_spec {s s' : NodeStack} {i : ℕ} {tid : ThreadId} (hs : s.WellFormed)
    (h : s.setBacktrack i tid = .ok s') :
    s'.WellFormed ∧ ∀ j n, s.nodeList[j]? = some n → KeepsNode s (.setBacktrack i tid) s' j n := by
  rw [setBacktrack] at h
  cases hn : s.nodeList[i]? with
  | none =>
    rw [hn] at h
    cases h
  | some n =>
    rw [hn] at h
    obtain ⟨⟨n',b⟩,hset,heq⟩ := bind_eq_ok.mp h
    rw [pure_eq_ok] at heq
    subst heq
    obtain ⟨hsized,htid,hexplored,hback⟩ := Node.setBacktrack_spec hset
    refine set_spec hs hn ⟨htid,hsized,fun t ht => .inl ((hback t).mpr (.inl ht)),?_⟩
    intro t ht
    rw [Node.hasBeenExplored,hexplored]
    exact ht

theorem supply_spec {s : NodeStack} (params : ModelParams) (i : ℕ) (o : Supply)
    (hs : s.WellFormed) :
    WellFormed { s with nodeList := s.nodeList.modify i (supply params · o) } ∧
      ∀ j n, s.nodeList[j]? = some n → KeepsNode s (.supply i o)
        { s with nodeList := s.nodeList.modify i (supply params · o) } j n := by
  cases hn : s.nodeList[i]? with
  | none =>
    have hle : s.nodeList.length ≤ i := List.getElem?_eq_none_iff.mp hn
    rw [List.modify_eq_self hle]
    exact ⟨hs,fun j n hn => ⟨n,hn,.refl _ n⟩⟩
  | some n =>
    have hlt : i < s.nodeList.length := (List.getElem?_eq_some_iff.mp hn).1
    have heq : s.nodeList.modify i (supply params · o) =
        s.nodeList.set i (supply params n o) := by
      rw [List.modify_eq_set_getElem?,hn]
      rfl
    rw [heq]
    exact set_spec hs hn (.of_same _ (Node.supply_threads params n o))

/-- The end of a divergence: a node changes, it becomes the last one, and it is cleared. -/
theorem popRestofstack_spec {s : NodeStack} {k : ℕ} {n n' : Node} (numAhead : ℕ) (hs : s.WellFormed)
    (hn : s.nodeList[k]? = some n) (htid : n'.tid = n.tid) (hsized : n.Sized → n'.Sized)
    (hk : s.headIdx + numAhead = k + 2) (hhead : s.headIdx ≤ k + 1) :
    let s' := { s with nodeList := s.nodeList.set k n' }.popRestofstack numAhead
    s'.WellFormed ∧ s'.nodeList.length = k + 1 ∧ s'.nodeList[k]? = some n'.clearBacktracking ∧
      ∀ i < k, s'.nodeList[i]? = s.nodeList[i]? := by
  have hlt : k < s.nodeList.length := (List.getElem?_eq_some_iff.mp hn).1
  have hit : s.headIdx + numAhead - 1 = k + 1 := by omega
  have hlist : ({ s with nodeList := s.nodeList.set k n' }.popRestofstack numAhead).nodeList =
      ((s.nodeList.set k n').take (k + 1)).modify k Node.clearBacktracking := by
    simp only [popRestofstack,hit,Nat.add_sub_cancel]
  have hlen : ({ s with nodeList := s.nodeList.set k n' }.popRestofstack numAhead).nodeList.length =
      k + 1 := by
    rw [hlist,List.length_modify,List.length_take,List.length_set]
    omega
  have hlast : ({ s with nodeList := s.nodeList.set k n' }.popRestofstack numAhead).nodeList[k]? =
      some n'.clearBacktracking := by
    rw [hlist,List.getElem?_modify,List.getElem?_take_of_lt (Nat.lt_succ_self k),
      List.getElem?_set_self hlt]
    simp
  have hbelow : ∀ i < k, ({ s with nodeList := s.nodeList.set k n' }.popRestofstack
      numAhead).nodeList[i]? = s.nodeList[i]? := by
    intro i hi
    have hne : k ≠ i := by omega
    rw [hlist,List.getElem?_modify,List.getElem?_take_of_lt (by omega),List.getElem?_set_ne hne]
    simp [hne]
  have hclear := n'.clearBacktracking_spec
  refine ⟨hs.of_nodes ?_ ?_,hlen,hlast,hbelow⟩
  · rw [hlen]
    exact hhead
  · intro i m' hm'
    have hi := (List.getElem?_eq_some_iff.mp hm').1
    rw [hlen] at hi ⊢
    by_cases hik : i = k
    · rw [hik,hlast,Option.some.injEq] at hm'
      rw [← hm',hik]
      refine ⟨n,hn,hclear.2.1.trans htid,fun h => hclear.1 (hsized h),fun hk => ?_⟩
      exact absurd hk (lt_irrefl _)
    · rw [hbelow i (by omega)] at hm'
      exact ⟨m',hm',rfl,id,fun _ _ => id⟩

/-- A new behaviour: the node is renewed, and those below it stay as they are. -/
theorem diverge_renews {s s' : NodeStack} {tid : ThreadId} (hs : s.WellFormed)
    (hleft : s.BehaviourLeft) (h : s.diverge = .ok (s',tid)) :
    s'.WellFormed ∧ ∀ i n, s.nodeList[i]? = some n → s'.nodeList.length ≤ i ∨
      s.Renews i .diverge ∨ KeepsNode s .diverge s' i n := by
  obtain ⟨n,hn,hempty⟩ := hleft
  have hmore := n.incrementBehaviors_snd
  have hsame := n.incrementBehaviors_threads
  rcases hinc : n.incrementBehaviors with ⟨n',more⟩
  rw [hinc] at hmore hsame
  simp only [hempty,Bool.not_false] at hmore
  rw [hmore] at hinc
  simp only [diverge,hn,hinc,Except.ok.injEq,Prod.mk.injEq] at h
  obtain ⟨rfl,-⟩ := h
  obtain ⟨hwf,hlen,-,hbelow⟩ :=
    popRestofstack_spec 2 hs hn hsame.1 hsame.sized rfl (by omega)
  refine ⟨hwf,fun i m hm => ?_⟩
  rw [hlen]
  rcases lt_trichotomy i s.headIdx with hi | hi | hi
  · exact .inr (.inr ⟨m,(hbelow i hi).trans hm,.refl _ m⟩)
  · exact .inr (.inl ⟨⟨n,hn,hempty⟩,hi⟩)
  · exact .inl hi

/-- Another thread: the node it is taken from is cleared. -/
theorem diverge_switches {s s' : NodeStack} {tid : ThreadId} (hs : s.WellFormed)
    (hleft : ¬ s.BehaviourLeft) (h : s.diverge = .ok (s',tid)) :
    s'.WellFormed ∧ ∃ k n m, k + 1 = s.headIdx ∧ s.nodeList[k]? = some n ∧
      s.nodeList[k + 1]? = some m ∧ n.inBacktrack tid = true ∧ s'.nodeList.length = k + 1 ∧
      (∃ n', s'.nodeList[k]? = some n' ∧
        ∀ t, n'.inBacktrack t = false ∧ n'.hasBeenExplored t = false) ∧
      ∀ i < k, s'.nodeList[i]? = s.nodeList[i]? := by
  cases hm : s.getNext with
  | none =>
    rw [diverge,hm] at h
    cases h
  | some m =>
    rcases hinc : m.incrementBehaviors with ⟨m',_ | _⟩
    · cases hhead : s.getHead with
      | none =>
        simp only [diverge,hm,hinc,hhead] at h
        cases h
      | some n =>
        simp only [diverge,hm,hinc,hhead] at h
        obtain ⟨⟨n',tid'⟩,hback,heq⟩ := bind_eq_ok.mp h
        rw [pure_eq_ok,Prod.mk.injEq] at heq
        obtain ⟨rfl,rfl⟩ := heq
        rw [getHead] at hhead
        by_cases hzero : s.headIdx = 0
        · simp [hzero] at hhead
        · rw [if_neg hzero] at hhead
          obtain ⟨hin,hsized,htid,-,-⟩ := Node.getNextBacktrack_spec hback
          obtain ⟨hwf,hlen,hlast,hbelow⟩ :=
            popRestofstack_spec 1 hs hhead htid hsized (by omega) (by omega)
          refine ⟨hwf,s.headIdx - 1,n,m,by omega,hhead,?_,hin,hlen,
            ⟨_,hlast,fun t => (n'.clearBacktracking_spec).2.2 t⟩,hbelow⟩
          rw [show s.headIdx - 1 + 1 = s.headIdx by omega]
          exact hm
    · have hmore := m.incrementBehaviors_snd
      rw [hinc] at hmore
      exact absurd ⟨m,hm,by simpa using hmore⟩ hleft

/-- The steps other than a divergence to another thread keep every node that stays. -/
theorem step_spec {params : ModelParams} {s s' : NodeStack} {op : Op} (hs : s.WellFormed)
    (h : step params s op = .ok s') :
    s'.WellFormed ∧ ((op = .diverge → s.BehaviourLeft) → ∀ i n, s.nodeList[i]? = some n →
      s'.nodeList.length ≤ i ∨ s.Renews i op ∨ KeepsNode s op s' i n) := by
  cases op with
  | exploreAction act type tid numThreads =>
    obtain ⟨⟨s'',r⟩,hstep,rfl⟩ := map_eq_ok.mp h
    obtain ⟨hwf,hkeeps⟩ := exploreAction_spec hs hstep
    exact ⟨hwf,fun _ i n hn => .inr (.inr (hkeeps i n hn))⟩
  | setBacktrack i tid =>
    obtain ⟨hwf,hkeeps⟩ := setBacktrack_spec hs h
    exact ⟨hwf,fun _ i n hn => .inr (.inr (hkeeps i n hn))⟩
  | supply i o =>
    rw [step,Except.ok.injEq] at h
    rw [← h]
    obtain ⟨hwf,hkeeps⟩ := supply_spec params i o hs
    exact ⟨hwf,fun _ i n hn => .inr (.inr (hkeeps i n hn))⟩
  | diverge =>
    obtain ⟨⟨s'',tid⟩,hstep,rfl⟩ := map_eq_ok.mp h
    by_cases hleft : s.BehaviourLeft
    · obtain ⟨hwf,hnodes⟩ := diverge_renews hs hleft hstep
      exact ⟨hwf,fun _ => hnodes⟩
    · exact ⟨(diverge_switches hs hleft hstep).1,fun h => absurd (h rfl) hleft⟩
  | resetExecution =>
    rw [step,Except.ok.injEq] at h
    rw [← h]
    exact ⟨⟨Nat.zero_le _,hs.sized,hs.explored⟩,
      fun _ i n hn => .inr (.inr ⟨n,hn,.refl _ n⟩)⟩
  | fullReset =>
    rw [step,Except.ok.injEq] at h
    rw [← h]
    exact ⟨.empty,fun _ i n _ => .inl (Nat.zero_le i)⟩

variable {params : ModelParams} {s s' : NodeStack} {op : Op}

theorem step_keeps (hs : s.WellFormed) (h : step params s op = .ok s')
    (hleft : op = .diverge → s.BehaviourLeft) : KeepsBacktracks s op s' ∧
    KeepsExplored s op s' := by
  have hnodes := (step_spec hs h).2 hleft
  constructor
  · intro i tid hin
    obtain ⟨n,hn,htid⟩ := hin
    rcases hnodes i n hn with hlen | hnew | ⟨n',hn',hkeeps⟩
    · exact .inr (.inr (.inl hlen))
    · exact .inr (.inr (.inr hnew))
    · rcases hkeeps.backtrack tid htid with htid' | hout
      · exact .inl ⟨n',hn',htid'⟩
      · exact .inr (.inl hout)
  · intro i tid hin
    obtain ⟨n,hn,htid⟩ := hin
    rcases hnodes i n hn with hlen | hnew | ⟨n',hn',hkeeps⟩
    · exact .inr (.inl hlen)
    · exact .inr (.inr hnew)
    · exact .inl ⟨n',hn',hkeeps.explored tid htid⟩

/-- The thread that a divergence turns away from has been explored, and the record of it goes. -/
theorem switch_loses (hs : s.WellFormed) (h : step params s .diverge = .ok s')
    (hleft : ¬ s.BehaviourLeft) : ¬ KeepsExplored s .diverge s' := by
  obtain ⟨⟨s'',tid⟩,hstep,rfl⟩ := map_eq_ok.mp h
  obtain ⟨-,k,n,m,hk,hn,hm,-,hlen,⟨n',hn',hclear⟩,-⟩ := diverge_switches hs hleft hstep
  intro hkeeps
  rcases hkeeps k m.tid ⟨n,hn,hs.explored k n m hn hm⟩ with ⟨n'',hn'',hin⟩ | hle | hnew
  · rw [hn',Option.some.injEq] at hn''
    rw [← hn'',(hclear m.tid).2] at hin
    exact absurd hin (by decide)
  · simp only [hlen] at hle
    omega
  · exact hleft hnew.1

/-- The only thread in the backtrack set of the head. -/
def SingleBacktrack (s : NodeStack) (tid : ThreadId) : Prop :=
  ∀ n, s.getHead = some n → ∀ t, n.inBacktrack t = true → t = tid

/-- A divergence to another thread keeps the backtrack sets when it takes the only one. -/
theorem switch_keepsBacktracks_iff {tid : ThreadId} (hs : s.WellFormed)
    (h : s.diverge = .ok (s',tid)) (hleft : ¬ s.BehaviourLeft) :
    KeepsBacktracks s .diverge s' ↔ s.SingleBacktrack tid := by
  obtain ⟨-,k,n,m,hk,hn,hm,hin,hlen,⟨n',hn',hclear⟩,hbelow⟩ :=
    diverge_switches hs hleft h
  have hhead : s.getHead = some n := by
    rw [getHead,if_neg (by omega),show s.headIdx - 1 = k by omega,hn]
  constructor
  · intro hkeeps n₁ hn₁ t ht
    rw [hhead,Option.some.injEq] at hn₁
    subst hn₁
    rcases hkeeps k t ⟨n,hn,ht⟩ with ⟨n'',hn'',hin'⟩ | ⟨-,-,s'',hs''⟩ | hle | hnew
    · rw [hn',Option.some.injEq] at hn''
      rw [← hn'',(hclear t).1] at hin'
      exact absurd hin' (by decide)
    · rw [h,Except.ok.injEq,Prod.mk.injEq] at hs''
      exact hs''.2.symm
    · omega
    · exact absurd hnew.1 hleft
  · intro hsingle i t hit
    obtain ⟨n₁,hn₁,ht⟩ := hit
    rcases lt_trichotomy i k with hi | hi | hi
    · exact .inl ⟨n₁,(hbelow i hi).trans hn₁,ht⟩
    · rw [hi,hn,Option.some.injEq] at hn₁
      subst hn₁
      refine .inr (.inl ⟨hleft,by omega,s',?_⟩)
      rw [hsingle n hhead t ht]
      exact h
    · exact .inr (.inr (.inl (by omega)))

theorem run_wellFormed (ops : List Op) (h : run params empty ops = .ok s) : s.WellFormed := by
  induction ops using List.reverseRecOn generalizing s with
  | nil =>
    rw [run,List.foldlM_nil,pure_eq_ok] at h
    exact h ▸ .empty
  | append_singleton ops op ih =>
    rw [run,List.foldlM_append] at h
    obtain ⟨s₁,hrun,hstep⟩ := bind_eq_ok.mp h
    rw [List.foldlM_cons] at hstep
    obtain ⟨s₂,hstep,heq⟩ := bind_eq_ok.mp hstep
    rw [List.foldlM_nil,pure_eq_ok] at heq
    exact heq ▸ (step_spec (ih hrun) hstep).1

/-- A run loses nothing when each of its divergences gives the next node a new behaviour; its
backtrack points alone survive also the divergences that take the only thread of a set. -/
theorem nothingLost_iff (params : ModelParams) (ops : List Op) :
    (NothingLost params ops ↔
      EveryStep params (fun s op _ => op = .diverge → s.BehaviourLeft) ops) ∧
    (EveryStep params KeepsBacktracks ops ↔
      EveryStep params (fun s op _ => op = .diverge → ¬ s.BehaviourLeft →
        ∀ s' tid, s.diverge = .ok (s',tid) → s.SingleBacktrack tid) ops) := by
  refine ⟨⟨?_,?_⟩,⟨?_,?_⟩⟩
  · intro h ops₁ op ops₂ s s' heq hrun hstep hop
    by_contra hleft
    rw [hop] at hstep heq
    exact switch_loses (run_wellFormed ops₁ hrun) hstep hleft
      (h ops₁ .diverge ops₂ s s' heq hrun hstep).2
  · intro h ops₁ op ops₂ s s' heq hrun hstep
    exact step_keeps (run_wellFormed ops₁ hrun) hstep (h ops₁ op ops₂ s s' heq hrun hstep)
  · intro h ops₁ op ops₂ s s' heq hrun hstep hop hleft s₁ tid hdiverge
    rw [hop] at heq hstep
    have hkeeps := h ops₁ .diverge ops₂ s s' heq hrun hstep
    rw [step,hdiverge] at hstep
    obtain rfl : s₁ = s' := by simpa [Except.map] using hstep
    exact (switch_keepsBacktracks_iff (run_wellFormed ops₁ hrun) hdiverge hleft).mp hkeeps
  · intro h ops₁ op ops₂ s s' heq hrun hstep
    have hs := run_wellFormed ops₁ hrun
    by_cases hop : op = .diverge → s.BehaviourLeft
    · exact (step_keeps hs hstep hop).1
    · rw [Classical.not_imp] at hop
      obtain ⟨hop,hleft⟩ := hop
      have hsingle := h ops₁ op ops₂ s s' heq hrun hstep hop hleft
      rw [hop] at hstep ⊢
      obtain ⟨⟨s₁,tid⟩,hdiverge,rfl⟩ := map_eq_ok.mp hstep
      exact (switch_keepsBacktracks_iff hs hdiverge hleft).mpr (hsingle s₁ tid hdiverge)

/-- Two threads wait at the root when the execution diverges there; only one of them is run. -/
def twoBacktracks : List Op :=
  [.exploreAction 0 .threadStart 1 4,.exploreAction 1 .atomicWrite 1 4,.setBacktrack 0 2,
    .setBacktrack 0 3,.resetExecution,.exploreAction 0 .threadStart 1 4,.diverge]

/-- The stack just before the divergence. -/
def twoWaiting : NodeStack where
  nodeList := [
    { action := 0,tid := 1,exploredChildren := [false,true,false,false]
      backtrack := [false,false,true,true],numBacktracks := 2 },
    Node.create 1 1 4]
  headIdx := 1
  totalNodes := 3

theorem twoBacktracks_lost : ¬ NothingLost defaultParams twoBacktracks ∧
    ¬ EveryStep defaultParams KeepsBacktracks twoBacktracks := by
  have hrun : run defaultParams empty (twoBacktracks.take 6) = .ok twoWaiting := by decide
  have hdiverge : twoWaiting.diverge = .ok
      ({ twoWaiting with nodeList := [(Node.create 0 1 4)] },2) := by decide
  have hwf := run_wellFormed _ hrun
  have hleft : ¬ twoWaiting.BehaviourLeft := by
    intro h
    obtain ⟨n,hn,hmore⟩ := h
    obtain rfl : Node.create 1 1 4 = n := by simpa [twoWaiting,getNext] using hn
    exact absurd hmore (by decide)
  have hlost : ¬ KeepsBacktracks twoWaiting .diverge
      { twoWaiting with nodeList := [(Node.create 0 1 4)] } := by
    rw [switch_keepsBacktracks_iff hwf hdiverge hleft]
    intro h
    exact absurd (h _ rfl 3 rfl) (by decide)
  have hstep : step defaultParams twoWaiting .diverge = .ok
      { twoWaiting with nodeList := [(Node.create 0 1 4)] } := by
    rw [step,hdiverge]
    rfl
  refine ⟨fun h => hlost ?_,fun h => hlost ?_⟩
  · exact (h _ .diverge [] _ _ rfl hrun hstep).1
  · exact h _ .diverge [] _ _ rfl hrun hstep

end NodeStack
end CdsChecker
