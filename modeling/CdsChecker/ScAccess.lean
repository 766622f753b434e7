import CdsChecker.ScReset

/-! Where the fast version looks into its vectors, with the sizes that they have then. -/
namespace CdsChecker

/-- An index into a vector of this size. -/
structure Access where
  index : ℕ
  size : ℕ

def Access.InBounds (x : Access) : Prop := x.index < x.size

namespace SCAnalysis

/-! ### Accesses -/

/-- The list of writes of the thread, and the thread's list. -/
def buildAccesses (e : Execution) (s : SCAnalysis) (act : ActionId) : List Access :=
  let t := (s.ensureCV e act).growThreads (e.acts act).tid
  let writeLists := t.writeMap (e.acts act).location
  let writeLists :=
    if writeLists.length < (e.acts act).tid then resize writeLists ((e.acts act).tid + 1) none
    else writeLists
  [⟨(e.acts act).tid,writeLists.length⟩,⟨(e.acts act).tid,t.threadlists.length⟩]

/-- The middles that `searchKnown` looks at. -/
def knownMiddles (e : Execution) (s : SCAnalysis) (cv : Option ClockVector) (list : List ActionId)
    (low high : ℕ) : List ℕ :=
  if _h : low + 1 < high then
    let mid := (low + high) / 2
    mid ::
      if list[mid]?.any fun write2 => (s.cvmap write2).isSome && knows e cv write2 then
        knownMiddles e s cv list mid high
      else knownMiddles e s cv list low (mid - 1)
  else []
termination_by high - low
decreasing_by all_goals omega

/-- The middles that `searchKnowing` looks at. -/
def knowingMiddles (e : Execution) (s : SCAnalysis) (write : ActionId) (list : List ActionId)
    (low high : ℕ) : List ℕ :=
  if _h : low + 1 < high then
    let mid := (low + high) / 2
    mid ::
      if list[mid]?.any fun write2 => knows e (s.cvmap write2) write then
        knowingMiddles e s write list low mid
      else knowingMiddles e s write list (mid + 1) high
  else []
termination_by high - low
decreasing_by all_goals omega

/-- The positions of `processKnown`: the middles, then the high end, then the low one. -/
def knownPositions (e : Execution) (s : SCAnalysis) (read : ActionId) (list : List ActionId) :
    List ℕ :=
  let (low,high) := searchKnown e s (s.cvmap read) list 0 (list.length - 1)
  let known := list[high]?.any fun write2 =>
    (s.cvmap write2).isSome && knows e (s.cvmap read) write2
  knownMiddles e s (s.cvmap read) list 0 (list.length - 1) ++ high ::
    if !known && low ≠ high then [low] else []

/-- The positions of `processKnowing`: the middles, then the low end, then the high one. -/
def knowingPositions (e : Execution) (s : SCAnalysis) (write : ActionId) (list : List ActionId)
    (earliestPos : Option ℕ) : List ℕ :=
  let start := earliestPos.elim 0 (· + 1)
  let start := if start = list.length then 0 else start
  let (low,high) := searchKnowing e s write list start (list.length - 1)
  let knowing := list[low]?.any fun write2 => knows e (s.cvmap write2) write
  knowingMiddles e s write list start (list.length - 1) ++ low ::
    if !knowing && high ≠ low then [high] else []

def threadPositions (e : Execution) (s : SCAnalysis) (read write : ActionId) (tid : ThreadId)
    (list : List ActionId) : List ℕ :=
  if tid = (e.acts write).tid then []
  else knownPositions e s read list ++
    match s.processKnown e read write list with
    | .ok (s,_,earliestPos) => knowingPositions e s write list earliestPos
    | .error _ => []

/-- The accesses of `processThreads`: the list of each thread, and what is looked at in it. -/
def threadsAccesses (e : Execution) (read write : ActionId) :
    List ThreadId → SCAnalysis → List Access
  | [],_ => []
  | tid :: tids,s =>
    if tid = (e.acts read).tid then threadsAccesses e read write tids s
    else
      let writeLists := s.writeMap (e.acts read).location
      if writeLists.length = tid then []
      else ⟨tid,writeLists.length⟩ ::
        match writeLists[tid]? with
        | none => []
        | some none | some (some []) => threadsAccesses e read write tids s
        | some (some list) =>
          (threadPositions e s read write tid list).map (fun i => ⟨i,list.length⟩) ++
            match s.processThread e read write tid list with
            | .ok (s,_) => threadsAccesses e read write tids s
            | .error _ => []

def readAccesses (e : Execution) (s : SCAnalysis) (read : ActionId) : List Access :=
  match (e.acts read).readsFrom with
  | none => []
  | some write => threadsAccesses e read write (List.range (s.maxthreads + 1)) s

/-! ### The searches stay in the list -/

variable {e : Execution} {s s' : SCAnalysis} {n : ℕ} {acts : List ActionId}

theorem searchKnown_within {cv : Option ClockVector} {list : List ActionId} {low high : ℕ}
    (h : low ≤ high) :
    (∀ i ∈ knownMiddles e s cv list low high, i ≤ high) ∧
      (searchKnown e s cv list low high).1 ≤ (searchKnown e s cv list low high).2 ∧
      (searchKnown e s cv list low high).2 ≤ high := by
  induction hsize : high - low using Nat.strong_induction_on generalizing low high with
  | _ size ih =>
    rw [searchKnown,knownMiddles]
    by_cases hlt : low + 1 < high
    · rw [dif_pos hlt,dif_pos hlt]
      dsimp only
      split
      · obtain ⟨hmid,hends,hhigh⟩ := ih (high - (low + high) / 2) (by omega)
          (show (low + high) / 2 ≤ high by omega) rfl
        exact ⟨List.forall_mem_cons.mpr ⟨by omega,hmid⟩,hends,hhigh⟩
      · obtain ⟨hmid,hends,hhigh⟩ := ih ((low + high) / 2 - 1 - low) (by omega)
          (show low ≤ (low + high) / 2 - 1 by omega) rfl
        refine ⟨List.forall_mem_cons.mpr ⟨by omega,fun i hi => ?_⟩,hends,by omega⟩
        have := hmid i hi
        omega
    · rw [dif_neg hlt,dif_neg hlt]
      exact ⟨by simp,h,le_rfl⟩

theorem searchKnowing_within {write : ActionId} {list : List ActionId} {low high : ℕ}
    (h : low ≤ high) :
    (∀ i ∈ knowingMiddles e s write list low high, i ≤ high) ∧
      (searchKnowing e s write list low high).1 ≤ (searchKnowing e s write list low high).2 ∧
      (searchKnowing e s write list low high).2 ≤ high := by
  induction hsize : high - low using Nat.strong_induction_on generalizing low high with
  | _ size ih =>
    rw [searchKnowing,knowingMiddles]
    by_cases hlt : low + 1 < high
    · rw [dif_pos hlt,dif_pos hlt]
      dsimp only
      split
      · obtain ⟨hmid,hends,hhigh⟩ := ih ((low + high) / 2 - low) (by omega)
          (show low ≤ (low + high) / 2 by omega) rfl
        refine ⟨List.forall_mem_cons.mpr ⟨by omega,fun i hi => ?_⟩,hends,by omega⟩
        have := hmid i hi
        omega
      · obtain ⟨hmid,hends,hhigh⟩ := ih (high - ((low + high) / 2 + 1)) (by omega)
          (show (low + high) / 2 + 1 ≤ high by omega) rfl
        exact ⟨List.forall_mem_cons.mpr ⟨by omega,hmid⟩,hends,hhigh⟩
    · rw [dif_neg hlt,dif_neg hlt]
      exact ⟨by simp,h,le_rfl⟩

theorem knownPositions_within {read : ActionId} {list : List ActionId} (hne : list ≠ []) :
    ∀ i ∈ knownPositions e s read list, i < list.length := by
  have hlen := List.length_pos_iff.mpr hne
  obtain ⟨hmid,hends,hhigh⟩ :
      _ ∧ (searchKnown e s (s.cvmap read) list 0 (list.length - 1)).1 ≤ _ ∧ _ :=
    searchKnown_within (Nat.zero_le (list.length - 1))
  intro i hi
  rw [knownPositions] at hi
  rcases List.mem_append.mp hi with hi | hi
  · have := hmid i hi
    omega
  rcases List.mem_cons.mp hi with rfl | hi
  · omega
  · split at hi
    · rw [List.mem_singleton.mp hi]
      omega
    · cases hi

theorem knowingPositions_within {write : ActionId} {list : List ActionId} {pos : Option ℕ}
    (hne : list ≠ []) (hpos : ∀ i, pos = some i → i < list.length) :
    ∀ i ∈ knowingPositions e s write list pos, i < list.length := by
  have hlen := List.length_pos_iff.mpr hne
  have hstart : (if pos.elim 0 (· + 1) = list.length then 0 else pos.elim 0 (· + 1)) ≤
      list.length - 1 := by
    split
    · exact Nat.zero_le _
    · rename_i hends
      cases pos with
      | none => exact Nat.zero_le _
      | some i =>
        have hi := hpos i rfl
        simp only [Option.elim_some] at hends ⊢
        omega
  intro i hi
  rw [knowingPositions] at hi
  dsimp only at hi
  generalize (if pos.elim 0 (· + 1) = list.length then 0 else pos.elim 0 (· + 1)) = start
    at hstart hi
  obtain ⟨hmid,hends,hhigh⟩ :
      _ ∧ (searchKnowing e s write list start (list.length - 1)).1 ≤ _ ∧ _ :=
    searchKnowing_within hstart
  rcases List.mem_append.mp hi with hi | hi
  · have := hmid i hi
    omega
  rcases List.mem_cons.mp hi with rfl | hi
  · omega
  · split at hi
    · rw [List.mem_singleton.mp hi]
      omega
    · cases hi

/-- The position that is handed on is one of the list. -/
theorem processKnown_position {read write : ActionId} {list : List ActionId} {c : Bool} {i : ℕ}
    (h : s.processKnown e read write list = .ok (s',c,some i)) : i < list.length := by
  unfold processKnown at h
  obtain ⟨write2,hwrite2,h⟩ := bind_eq_ok.mp h
  have hhigh := (List.getElem?_eq_some_iff.mp (deref_eq_ok.mp hwrite2)).1
  split at h
  · obtain ⟨⟨t,status⟩,-,h⟩ := bind_eq_ok.mp h
    cases h
    exact hhigh
  split at h
  · obtain ⟨write2,hlow,h⟩ := bind_eq_ok.mp h
    have hlow := (List.getElem?_eq_some_iff.mp (deref_eq_ok.mp hlow)).1
    split at h
    · obtain ⟨⟨t,status⟩,-,h⟩ := bind_eq_ok.mp h
      cases h
      exact hlow
    · cases h
  · cases h

theorem threadPositions_within {read write : ActionId} {tid : ThreadId} {list : List ActionId}
    (hne : list ≠ []) : ∀ i ∈ threadPositions e s read write tid list, i < list.length := by
  intro i hi
  rw [threadPositions] at hi
  split at hi
  · cases hi
  rcases List.mem_append.mp hi with hi | hi
  · exact knownPositions_within hne i hi
  · split at hi
    · rename_i t c pos hknown
      apply knowingPositions_within hne _ i hi
      intro j hj
      subst hj
      exact processKnown_position hknown
    · cases hi

/-- The lists of the threads are looked at up to the end, if the read's own is one of them. -/
theorem threadsAccesses_inBounds {read write : ActionId} {l : List (Option (List ActionId))}
    (hroom : (e.acts read).tid < l.length) (k : ℕ) {first : ℕ} (hfirst : first ≤ l.length)
    (hmap : s.writeMap (e.acts read).location = l) :
    ∀ x ∈ threadsAccesses e read write (List.range' first k) s, x.InBounds := by
  induction k generalizing first s with
  | zero => simp [threadsAccesses]
  | succ k ih =>
    intro x hx
    rw [List.range'_succ,threadsAccesses] at hx
    by_cases hown : first = (e.acts read).tid
    · rw [if_pos hown] at hx
      rw [← hown] at hroom
      have hnext : first + 1 ≤ l.length := hroom
      exact ih hnext hmap x hx
    rw [if_neg hown] at hx
    dsimp only at hx
    rw [hmap] at hx
    by_cases hend : l.length = first
    · rw [if_pos hend] at hx
      cases hx
    rw [if_neg hend] at hx
    have hlt : first < l.length := by omega
    rcases List.mem_cons.mp hx with rfl | hx
    · exact hlt
    rw [List.getElem?_eq_getElem hlt] at hx
    split at hx
    · rename_i hnone
      cases hnone
    · exact ih hlt hmap x hx
    · exact ih hlt hmap x hx
    · rename_i list hnil heq
      rcases List.mem_append.mp hx with hx | hx
      · obtain ⟨i,hi,rfl⟩ := List.mem_map.mp hx
        exact threadPositions_within hnil i hi
      · split at hx
        · rename_i t c hthread
          have hframe := (frame_kept s).processThread hthread (.refl s)
          exact ih hlt (by rw [hframe.writeMap,hmap]) x hx
        · cases hx

/-! ### Runs of the fast version -/

/-- The states that the vectors are built from in the fast pass. -/
inductive BuildStarts (e : Execution) (n : ℕ) (acts : List ActionId) : SCAnalysis → Prop
  | init : BuildStarts e n acts {}
  | rollBack {s : SCAnalysis} (h : Restarts e n acts s true) : BuildStarts e n acts (reset acts s)

/-- The states at the head of the loop of `computeCVFast`. -/
inductive Computing (e : Execution) (n : ℕ) (acts : List ActionId) : SCAnalysis → Prop
  | build {s s' : SCAnalysis} (h : BuildStarts e n acts s)
      (hbuild : buildVectors e acts s = .ok s') :
      Computing e n acts s'
  | constrain {b b₁ : Build} {array : List ActionId} {act : ActionId} {s' : SCAnalysis}
      (hb : Reaches e n acts {} b) (harray : b.s.getNextActions e = .ok array) (hne : array ≠ [])
      (hchoose : choose e b array = .ok (act,b₁))
      (hconstraints : (takeAct e b.s act).updateConstraints e act = .ok (s',true)) :
      Computing e n acts s'
  | turn {s s' : SCAnalysis} {act : ActionId} (h : Computing e n acts s)
      (hsize : s.updateSetSize ≠ 0) (hfirst : s.updateSet.head? = some act)
      (hturn : fastTurn e s act = .ok s') : Computing e n acts s'

/-- The states in which `processReadFast` is called. -/
structure Processes (e : Execution) (n : ℕ) (acts : List ActionId) (s : SCAnalysis)
    (read : ActionId) : Prop where
  called : ∃ t, Computing e n acts t ∧ t.updateSetSize ≠ 0 ∧ t.updateSet.head? = some read ∧
    t.popUpdateSet.passChange e read = .ok s
  isRead : (e.acts read).isRead = true

/-- Building the vectors and processing the reads stays within the vectors. -/
structure AccessesInBounds (e : Execution) (acts : List ActionId) : Prop where
  build : ∀ n s, BuildStarts e n acts s → ∀ pre act post t, acts = pre ++ act :: post →
    pre.foldlM (buildFast e) { s with maxthreads := 0 } = .ok t →
      ∀ x ∈ buildAccesses e t act, x.InBounds
  read : ∀ n s read, Processes e n acts s read → ∀ x ∈ readAccesses e s read, x.InBounds

/-- Up to the first action with a null pointer, none is by the thread just behind the lists of its
location. -/
def InBoundsReady (e : Execution) (acts : List ActionId) : Prop :=
  ∀ pre act post, acts = pre ++ act :: post → (∀ a ∈ pre, Ready e a) →
    (e.acts act).tid ≠ bound e pre (e.acts act).location

/-- A read that creates a thread or ends one is in the list, too. -/
structure Closed (e : Execution) (acts : List ActionId) : Prop where
  created : ∀ a ∈ acts, (e.acts a).isThreadStart = true → ∀ c,
    e.threads[(e.acts a).tid]?.bind Thread.creation = some c → (e.acts c).isRead = true → c ∈ acts
  finished : ∀ a ∈ acts, ∀ u, (e.acts a).getThreadOperand = some u → ∀ f,
    e.getLastAction u = some f → (e.acts f).isRead = true → f ∈ acts

/-- The reads that are to be updated are in the list, now and later. -/
structure Fed (e : Execution) (acts : List ActionId) (s : SCAnalysis) : Prop where
  updates : ∀ a ∈ s.updateSet, (e.acts a).isRead = true → a ∈ acts
  nodes : ∀ a node b, s.nodeMap a = some node → (node.sb = some b ∨ node.specialEdge = some b) →
    b ∈ acts

theorem merge_updateSet {act act2 : ActionId} {b : Bool} (h : s.merge e act act2 = .ok (s',b)) :
    s'.updateSet = s.updateSet := by
  unfold merge at h
  cases hcv2 : s.cvmap act2 with
  | none =>
    rw [hcv2] at h
    cases h
    rfl
  | some cv2 =>
    simp only [hcv2] at h
    split at h
    · cases h
      rfl
    obtain ⟨cv,-,h⟩ := bind_eq_ok.mp h
    split at h
    · cases h
      rfl
    split at h
    · cases h
      rfl
    split at h <;> cases h <;> rfl

theorem Fed.of_eq (h : Fed e acts s) (hset : s'.updateSet = s.updateSet)
    (hmap : s'.nodeMap = s.nodeMap) : Fed e acts s' := by
  refine ⟨?_,?_⟩
  · rw [hset]
    exact h.updates
  · rw [hmap]
    exact h.nodes

theorem Fed.pushChange {a : ActionId} (h : Fed e acts s)
    (ha : (e.acts a).isRead = true → a ∈ acts) : Fed e acts (s.pushChange a) := by
  refine ⟨fun b hb hread => ?_,h.nodes⟩
  rcases List.mem_append.mp hb with hb | hb
  · exact h.updates b hb hread
  · rw [List.mem_singleton.mp hb] at hread ⊢
    exact ha hread

theorem fed_kept : EdgeKept e (Fed e acts) where
  merge _ _ _ _ _ h hmerge := h.of_eq (merge_updateSet hmerge) (merge_frame hmerge).nodeMap
  push _ a node b h hnode hb := h.pushChange fun _ => h.nodes a node b hnode hb

theorem Fed.popUpdateSet (h : Fed e acts s) : Fed e acts s.popUpdateSet :=
  ⟨fun a ha => h.updates a (List.mem_of_mem_tail ha),h.nodes⟩

theorem Fed.setNode {a : ActionId} {node : ActionNode} (h : Fed e acts s)
    (hnode : ∀ b, (node.sb = some b ∨ node.specialEdge = some b) →
      b ∈ acts ∨ ((s.node a).sb = some b ∨ (s.node a).specialEdge = some b)) :
    Fed e acts (s.setNode a node) := by
  refine ⟨h.updates,fun a' node' b hnode' hb => ?_⟩
  rw [SCAnalysis.setNode] at hnode'
  by_cases ha : a' = a
  · simp only [ha,Function.update_self,Option.some.injEq] at hnode'
    subst hnode'
    rcases hnode b hb with hmem | hold
    · exact hmem
    · rw [SCAnalysis.node] at hold
      cases hmap : s.nodeMap a with
      | none => simp [hmap] at hold
      | some old =>
        rw [hmap] at hold
        exact h.nodes a old b hmap hold
  · simp only [Function.update_of_ne ha] at hnode'
    exact h.nodes a' node' b hnode' hb

theorem Fed.addSpecialEdge {a b : ActionId} (h : Fed e acts s) (hb : b ∈ acts) :
    Fed e acts (s.addSpecialEdge a b) := by
  apply h.setNode
  intro c hc
  rcases hc with hc | hc
  · exact .inr (.inl hc)
  · rw [← Option.some.inj hc]
    exact .inl hb

theorem Fed.addSb {a b : ActionId} (h : Fed e acts s) (hb : b ∈ acts) :
    Fed e acts (s.addSb a b) := by
  apply h.setNode
  intro c hc
  rcases hc with hc | hc
  · rw [← Option.some.inj hc]
    exact .inl hb
  · exact .inr (.inr hc)

theorem Fed.buildFast {act : ActionId} (hclosed : Closed e acts) (hact : act ∈ acts)
    (h : Fed e acts s) (hbuild : buildFast e s act = .ok s') : Fed e acts s' := by
  obtain ⟨s₁,hwrite,hbuild⟩ := bind_eq_ok.mp hbuild
  obtain ⟨s₂,hrf,hbuild⟩ := bind_eq_ok.mp hbuild
  obtain ⟨s₃,hjoin,hbuild⟩ := bind_eq_ok.mp hbuild
  cases hbuild
  have hgrow : Fed e acts ((s.ensureCV e act).growThreads (e.acts act).tid) := by
    apply h.of_eq <;> unfold ensureCV growThreads <;> split <;> split <;> rfl
  have h₁ : Fed e acts s₁ := by
    obtain ⟨found,-,hwrite⟩ := bind_eq_ok.mp hwrite
    cases hwrite
    exact hgrow.of_eq rfl rfl
  have hlast : Fed e acts (s₁.addLast e act) := by
    unfold addLast
    split
    · exact h₁
    · exact h₁.addSb hact
  have h₂ : Fed e acts s₂ := by
    unfold addRf at hrf
    split at hrf
    · obtain ⟨write,-,hrf⟩ := bind_eq_ok.mp hrf
      split at hrf
      · obtain ⟨⟨t,_⟩,ht,hrf⟩ := bind_eq_ok.mp hrf
        cases hrf
        have hensure : Fed e acts ((s₁.addLast e act).ensureCV e write) := by
          apply hlast.of_eq <;> unfold ensureCV <;> split <;> rfl
        have hmerged := hensure.of_eq (merge_updateSet ht) (merge_frame ht).nodeMap
        exact (hmerged.pushChange fun _ => hact).addSpecialEdge hact
      · cases hrf
        exact hlast
    · cases hrf
      exact hlast
  have hstart : Fed e acts (s₂.addStart e act) := by
    unfold addStart
    split
    · rename_i hisStart
      split
      · exact h₂
      · rename_i create hcreate
        exact (h₂.addSpecialEdge hact).pushChange (hclosed.created act hact hisStart create hcreate)
    · exact h₂
  have h₃ : Fed e acts s₃ := by
    unfold addJoin at hjoin
    split at hjoin
    · cases hjoin
      exact hstart
    · rename_i u hu
      obtain ⟨finish,hfinish,hjoin⟩ := bind_eq_ok.mp hjoin
      cases hjoin
      exact (hstart.addSpecialEdge hact).pushChange
        (hclosed.finished act hact u hu finish (deref_eq_ok.mp hfinish))
  exact h₃.of_eq rfl rfl

theorem Fed.buildVectors (hclosed : Closed e acts) {part : List ActionId}
    (hpart : ∀ a ∈ part, a ∈ acts) (h : Fed e acts s)
    (hbuild : part.foldlM (SCAnalysis.buildFast e) s = .ok s') : Fed e acts s' := by
  induction part generalizing s with
  | nil =>
    cases hbuild
    exact h
  | cons act part ih =>
    obtain ⟨hact,hrest⟩ := List.forall_mem_cons.mp hpart
    rw [List.foldlM_cons] at hbuild
    obtain ⟨s₁,h₁,hbuild⟩ := bind_eq_ok.mp hbuild
    exact ih hrest (h.buildFast hclosed hact h₁) hbuild

/-- In the fast pass, with a list for each thread. -/
structure Feeding (e : Execution) (acts : List ActionId) (s : SCAnalysis) : Prop extends
    InFast e acts s,Fed e acts s where
  lists : ListsThreads s

theorem Feeding.of_build (hclosed : Closed e acts) (hholds : HoldsOnly acts s)
    (hfast : s.fastVersion = true) (hfed : Fed e acts s) (hlists : s.threadlists ≠ [])
    (hbuild : buildVectors e acts s = .ok s') : Feeding e acts s' := by
  have hinFast := InFast.of_build hholds hfast hbuild
  rw [buildVectors] at hbuild
  dsimp only at hbuild
  rw [if_pos hfast] at hbuild
  have hfed₀ : Fed e acts { s with maxthreads := 0 } := hfed.of_eq rfl rfl
  have hlists₀ : ListsThreads { s with maxthreads := 0 } := List.length_pos_iff.mpr hlists
  exact ⟨hinFast,hfed₀.buildVectors hclosed (fun a ha => ha) hbuild,hlists₀.buildVectors hbuild⟩

theorem Feeding.of_frame (h : Feeding e acts s) (hframe : Frame s s') (hfed : Fed e acts s') :
    Feeding e acts s' := by
  refine ⟨h.toInFast.of_frame hframe,hfed,?_⟩
  rw [ListsThreads,hframe.maxthreads,hframe.threadlists]
  exact h.lists

theorem ListsThreads.ne_nil (h : ListsThreads s) : s.threadlists ≠ [] :=
  List.ne_nil_of_length_pos (Nat.zero_lt_of_lt h)

theorem Fed.reset (h : Fed e acts s) : Fed e acts (reset acts s) :=
  ⟨fun _ ha => absurd ha List.not_mem_nil,h.nodes⟩

theorem feeding_kept (hclosed : Closed e acts) : Kept e acts (Feeding e acts) where
  constraints _ _ _ _ h hconstraints :=
    h.of_frame (updateConstraints_frame hconstraints)
    (fed_kept.updateConstraints hconstraints h.toFed)
  compute s s' n h hcompute := by
    rw [computeCV,if_pos h.fast] at hcompute
    exact h.of_frame (computeCVFast_frame hcompute)
      (fed_kept.computeCVFast (fun _ => Fed.popUpdateSet) hcompute h.toFed)
  take s act h := by
    refine ⟨h.toInFast.take act,h.toFed.of_eq rfl rfl,?_⟩
    rw [ListsThreads,takeAct,List.length_modify]
    exact h.lists
  restart s s' h hbuild := by
    refine Feeding.of_build hclosed h.holds.reset h.fast h.toFed.reset ?_ hbuild
    intro hnil
    rw [SCAnalysis.reset,List.mapIdx_eq_nil_iff] at hnil
    exact h.lists.ne_nil hnil

theorem fed_init : Fed e acts {} :=
  ⟨fun _ ha => absurd ha List.not_mem_nil,fun _ _ _ hnode => by cases hnode⟩

theorem Feeding.of_init (hclosed : Closed e acts) (hbuild : buildVectors e acts {} = .ok s') :
    Feeding e acts s' :=
  Feeding.of_build hclosed holdsOnly_init rfl fed_init (List.cons_ne_nil _ _) hbuild

/-- A fast pass that starts over has come through the fast pass. -/
theorem restarts_feeding (hclosed : Closed e acts) (h : Restarts e n acts s true) :
    Feeding e acts s := by
  generalize hmode : true = mode at h
  cases h with
  | slow => cases hmode
  | rollBack hstart hb harray hne hconstrained hbefore hcycle hlast =>
    cases hstart with
    | fast =>
      exact (feeding_kept hclosed).constrained hconstrained
        ((feeding_kept hclosed).reaches (fun _ => Feeding.of_init hclosed) hb)
    | slow hgenerate hcycle₀ =>
      have hleft := left_of_generateSC hgenerate hcycle₀
      have hkept := inSlow_kept.reaches (s := { SCAnalysis.reset acts _ with fastVersion := false })
        (fun _ => InSlow.of_build ⟨hleft,rfl⟩) hb
      have hslow := (inSlow_kept.constrained hconstrained hkept).slow
      rw [hslow] at hmode
      cases hmode

theorem BuildStarts.feeding (hclosed : Closed e acts) (h : BuildStarts e n acts s)
    (hbuild : buildVectors e acts s = .ok s') : Feeding e acts s' := by
  cases h with
  | init => exact Feeding.of_init hclosed hbuild
  | rollBack hrestarts =>
    exact (feeding_kept hclosed).restart _ _ (restarts_feeding hclosed hrestarts) hbuild

theorem Computing.feeding (hclosed : Closed e acts) (h : Computing e n acts s) :
    Feeding e acts s := by
  induction h with
  | build hstart hbuild => exact hstart.feeding hclosed hbuild
  | constrain hb _ _ _ hconstraints =>
    have hkept := (feeding_kept hclosed).reaches (fun _ => Feeding.of_init hclosed) hb
    exact (feeding_kept hclosed).constraints _ _ _ _ ((feeding_kept hclosed).take _ _ hkept)
      hconstraints
  | turn _ _ _ hturn ih =>
    exact ih.of_frame (fastTurn_frame hturn)
      (fed_kept.fastTurn (fun _ => Fed.popUpdateSet) hturn ih.toFed)

/-! ### Every access -/

/-- The thread has a list of writes, if it is not just behind them. -/
theorem buildAccesses_inBounds {act : ActionId} (hlists : ListsThreads s) :
    (∀ x ∈ buildAccesses e s act, x.InBounds) ↔
      (e.acts act).tid ≠ (s.writeMap (e.acts act).location).length := by
  have hsame : ((s.ensureCV e act).growThreads (e.acts act).tid).writeMap = s.writeMap :=
    (growThreads_writeMap _ _).trans (ensureCV_writeMap e s act)
  have hthreads : ListsThreads (s.ensureCV e act) := by
    have hensure := ensureCV_sameThreads e s act
    rwa [ListsThreads,hensure.maxthreads,hensure.threadlists]
  have hroom := (hthreads.growThreads (e.acts act).tid).2
  simp only [buildAccesses,List.forall_mem_cons,hsame]
  constructor
  · rintro ⟨hwrites,-⟩ heq
    rw [Access.InBounds,if_neg (heq ▸ Nat.lt_irrefl _),← heq] at hwrites
    exact absurd hwrites (Nat.lt_irrefl _)
  · intro hne
    refine ⟨?_,hroom,fun _ h => absurd h List.not_mem_nil⟩
    dsimp only [Access.InBounds]
    split
    · rw [length_resize]
      exact Nat.lt_succ_self _
    · rename_i hge
      exact Nat.lt_of_le_of_ne (Nat.le_of_not_lt hge) hne

/-- The vectors of a list can be built, as long as its actions are ready and the lists have room. -/
theorem exists_build {part : List ActionId} (hempty : ∀ l, s.writeMap l = [])
    (hready : ∀ a ∈ part, Ready e a) (hin : InBounds e part) :
    ∃ t, part.foldlM (SCAnalysis.buildFast e) s = .ok t := by
  induction part using List.reverseRecOn with
  | nil => exact ⟨s,rfl⟩
  | append_singleton part act ih =>
    obtain ⟨hpart,hlast⟩ := inBounds_concat.mp hin
    obtain ⟨t,ht⟩ := ih (fun a ha => hready a (List.mem_append_left _ ha)) hpart
    have hne : (e.acts act).tid ≠ (t.writeMap (e.acts act).location).length := by
      rwa [(buildFast_inBounds hempty ht).2]
    obtain ⟨t',ht'⟩ := buildFast_ok (hready act (by simp)) hne
    exact ⟨t',foldlM_concat_ok.mpr ⟨t,ht,ht'⟩⟩

theorem ready_of_build {part : List ActionId}
    (hbuild : part.foldlM (SCAnalysis.buildFast e) s = .ok s') : ∀ a ∈ part, Ready e a :=
  fun a ha => ((buildVectors_length hbuild).2 a ha).1

/-- Where the actions before one can be built, it is not by the thread just behind the lists. -/
theorem AccessesInBounds.ne_bound (h : AccessesInBounds e acts) {pre post : List ActionId}
    {act : ActionId} (hacts : acts = pre ++ act :: post) (hready : ∀ a ∈ pre, Ready e a)
    (hin : InBounds e pre) : (e.acts act).tid ≠ bound e pre (e.acts act).location := by
  have hempty : ∀ l, ({} : SCAnalysis).writeMap l = [] := fun _ => rfl
  obtain ⟨t,ht⟩ := exists_build hempty hready hin
  have haccess := h.build 0 {} .init pre act post t hacts ht
  have hlists : ListsThreads ({} : SCAnalysis) := Nat.zero_lt_one
  rw [buildAccesses_inBounds (hlists.buildVectors ht),(buildFast_inBounds hempty ht).2] at haccess
  exact haccess

theorem AccessesInBounds.ready (h : AccessesInBounds e acts) : InBoundsReady e acts := by
  have hbefore : ∀ pre post, acts = pre ++ post → (∀ a ∈ pre, Ready e a) → InBounds e pre := by
    intro pre
    induction pre using List.reverseRecOn with
    | nil => exact fun _ _ _ pre act post hsplit => by simp at hsplit
    | append_singleton pre act ih =>
      intro post hacts hready
      have hacts' : acts = pre ++ act :: post := by simpa using hacts
      have hready' : ∀ a ∈ pre, Ready e a := fun a ha => hready a (List.mem_append_left _ ha)
      have hpre := ih (act :: post) hacts' hready'
      exact inBounds_concat.mpr ⟨hpre,h.ne_bound hacts' hready' hpre⟩
  intro pre act post hacts hready
  exact h.ne_bound hacts hready (hbefore pre (act :: post) hacts hready)

theorem InBounds.ready (h : InBounds e acts) : InBoundsReady e acts :=
  fun pre act post hacts _ => h pre act post hacts

/-- Building from a fast start: the lists that were built have room, and those of the first build
where none is by the thread just behind them. -/
theorem InBoundsReady.build (h : InBoundsReady e acts) (hclosed : Closed e acts)
    (hstart : BuildStarts e n acts s) {pre post : List ActionId} {act : ActionId} {t : SCAnalysis}
    (hacts : acts = pre ++ act :: post)
    (hbuild : pre.foldlM (SCAnalysis.buildFast e) { s with maxthreads := 0 } = .ok t) :
    ∀ x ∈ buildAccesses e t act, x.InBounds := by
  cases hstart with
  | init =>
    have hempty : ∀ l, ({} : SCAnalysis).writeMap l = [] := fun _ => rfl
    have hlists : ListsThreads ({} : SCAnalysis) := Nat.zero_lt_one
    rw [buildAccesses_inBounds (hlists.buildVectors hbuild),(buildFast_inBounds hempty hbuild).2]
    exact h pre act post hacts (ready_of_build hbuild)
  | @rollBack s₀ hrestarts =>
    have hfeeding := restarts_feeding hclosed hrestarts
    have hne : (SCAnalysis.reset acts s₀).threadlists ≠ [] := by
      intro hnil
      rw [SCAnalysis.reset,List.mapIdx_eq_nil_iff] at hnil
      exact hfeeding.lists.ne_nil hnil
    have hlists : ListsThreads { SCAnalysis.reset acts s₀ with maxthreads := 0 } :=
      List.length_pos_iff.mpr hne
    rw [buildAccesses_inBounds (hlists.buildVectors hbuild)]
    have hroom := hfeeding.room act (by simp [hacts])
    have hlen := (buildVectors_length hbuild).1 (e.acts act).location
    exact Nat.ne_of_lt (Nat.lt_of_lt_of_le hroom hlen)

/-- Reads are processed with lists that were built. -/
theorem processes_inBounds (hclosed : Closed e acts) {read : ActionId}
    (h : Processes e n acts s read) : ∀ x ∈ readAccesses e s read, x.InBounds := by
  obtain ⟨t,hcomputing,hsize,hfirst,hpass⟩ := h.called
  have hfeeding := hcomputing.feeding hclosed
  have hmem : read ∈ acts := hfeeding.updates read (List.mem_of_mem_head? hfirst) h.isRead
  have hframe : Frame t.popUpdateSet s := (frame_kept _).passChange hpass (.refl _)
  have hroom := hfeeding.room read hmem
  have hmap : s.writeMap = t.writeMap := hframe.writeMap
  rw [← hmap] at hroom
  intro x hx
  rw [readAccesses] at hx
  split at hx
  · cases hx
  · rw [List.range_eq_range'] at hx
    exact threadsAccesses_inBounds hroom _ (Nat.zero_le _) rfl x hx

/-- The lists of the threads and the searches stay in their vectors. Only the list of the thread
that an action is by may be just behind the end, where the vector is as long as its number. -/
theorem accesses_inBounds_iff (hclosed : Closed e acts) :
    AccessesInBounds e acts ↔ InBoundsReady e acts := by
  constructor
  · exact AccessesInBounds.ready
  · intro h
    constructor
    · exact fun n s hstart pre act post t hacts hbuild => h.build hclosed hstart hacts hbuild
    · exact fun n s read hread => processes_inBounds hclosed hread

/-- The checker's traces hold what their actions refer to. -/
theorem closed_of_reachable {params : ExecutionParams} {c : Config}
    (h : Config.Reachable params c) : Closed c.exec c.exec.actionTrace where
  created a ha _ create hcreate hread := by
    obtain ⟨th,hth,hcreation⟩ := Option.bind_eq_some_iff.mp hcreate
    have htype := (h.valid.exec.creation _ th create hth hcreation).2
    simp [ModelAction.isRead,htype] at hread
  finished a ha u hu f hf _ := by
    obtain ⟨hcomplete,-⟩ := h.recorded.joined a ha u hu
    obtain ⟨th,hth,hstate⟩ := Execution.isComplete_iff.mp hcomplete
    exact h.recorded.last u f (h.recorded.completed u th hth hstate).1 hf

theorem accesses_inBounds_iff_loadBuffering : ∃ c, Config.Reachable {} c ∧
    AccessesInBounds c.exec c.exec.actionTrace := by
  obtain ⟨c,hc,-,-,s,list,hgenerate,-⟩ := loadBuffering_cyclic
  obtain ⟨t,hbuild,-⟩ := bind_eq_ok.mp hgenerate
  have hin := (buildFast_inBounds (fun _ => rfl) hbuild).1
  exact ⟨c,hc,(accesses_inBounds_iff (closed_of_reachable hc)).mpr hin.ready⟩

open Input in
/-- One thread stores once. -/
def oneStore : List Input :=
  [ofThread .threadStart 1,go 1 {},store .relaxed 10 1,go 1 {},ofThread .threadFinish 1,go 1 {}]

/-- Building the vectors begins with the uninitialized action, and with empty lists. -/
theorem oneStore_outOfBounds : ¬ ∀ params c, Config.Reachable params c →
    AccessesInBounds c.exec c.exec.actionTrace := by
  intro hall
  obtain ⟨c,hc,hplay⟩ := Config.exists_play {} oneStore
    (fun c => (c.exec.actionTrace.map fun a => (c.exec.acts a).tid) = [0,1,1,1]) (by decide +kernel)
  have htids := of_decide_eq_true hplay
  have hready := (hall {} c hc).ready
  cases htrace : c.exec.actionTrace with
  | nil => simp [htrace] at htids
  | cons u rest =>
    rw [htrace,List.map_cons,List.cons.injEq] at htids
    exact hready [] u rest htrace (fun _ ha => absurd ha List.not_mem_nil) htids.1

end SCAnalysis
end CdsChecker
