import CdsChecker.ScBounds
import Mathlib.Algebra.Order.BigOperators.Group.Finset

/-! The analysis of a trace without atomic accesses: every edge follows the execution, so the
list is the trace. -/
namespace CdsChecker
namespace SCAnalysis

/-- A trace in execution order whose actions neither read nor write. -/
structure Quiet (e : Execution) (acts : List ActionId) : Prop where
  silent : ∀ a ∈ acts, (e.acts a).isRead = false ∧ (e.acts a).isWrite = false
  pos : ∀ a ∈ acts, 0 < (e.acts a).seqNumber
  sorted : acts.Pairwise fun a b => (e.acts a).seqNumber < (e.acts b).seqNumber
  created : ∀ a ∈ acts, (e.acts a).isThreadStart = true →
    ∀ create, e.threads[(e.acts a).tid]?.bind Thread.creation = some create →
      create ∈ acts ∧ (e.acts create).seqNumber < (e.acts a).seqNumber
  joined : ∀ a ∈ acts, ∀ u, (e.acts a).getThreadOperand = some u →
    ∃ finish, e.getLastAction u = some finish ∧ finish ∈ acts ∧
      (e.acts finish).seqNumber < (e.acts a).seqNumber

/-- A clock vector that knows older actions only. -/
structure Low (e : Execution) (n : ℕ) (a : ActionId) (cv : ClockVector) : Prop where
  own : cv.getClock (e.acts a).tid = (e.acts a).seqNumber
  other : ∀ u, u ≠ (e.acts a).tid → cv.getClock u < (e.acts a).seqNumber
  room : ∀ u, n ≤ u → cv.getClock u = 0

theorem Low.le {e : Execution} {n : ℕ} {a : ActionId} {cv : ClockVector} (h : Low e n a cv)
    (u : ThreadId) : cv.getClock u ≤ (e.acts a).seqNumber := by
  by_cases hu : u = (e.acts a).tid
  · rw [hu,h.own]
  · exact Nat.le_of_lt (h.other u hu)

theorem Low.create {e : Execution} {n : ℕ} {a : ActionId} (hpos : 0 < (e.acts a).seqNumber)
    (htid : (e.acts a).tid < n) :
    Low e n a (ClockVector.create none (e.acts a).tid (e.acts a).seqNumber) := by
  apply Low.mk
  · rw [ClockVector.getClock_create,if_pos rfl]
  · intro u hu
    rw [ClockVector.getClock_create,if_neg hu]
    exact hpos
  · intro u hu
    rw [ClockVector.getClock_create,if_neg (Nat.ne_of_gt (Nat.lt_of_lt_of_le htid hu))]
    rfl

theorem Low.merge {e : Execution} {n : ℕ} {a b : ActionId} {cv cv2 : ClockVector}
    (h : Low e n a cv) (h2 : Low e n b cv2) (hlt : (e.acts b).seqNumber < (e.acts a).seqNumber) :
    Low e n a (cv.merge cv2).1 := by
  have hsmall : ∀ u, cv2.getClock u < (e.acts a).seqNumber := fun u =>
    Nat.lt_of_le_of_lt (h2.le u) hlt
  apply Low.mk
  · rw [ClockVector.getClock_merge,h.own]
    exact max_eq_left (Nat.le_of_lt (hsmall _))
  · intro u hu
    rw [ClockVector.getClock_merge]
    exact max_lt (h.other u hu) (hsmall u)
  · intro u hu
    rw [ClockVector.getClock_merge,h.room u hu,h2.room u hu]
    rfl

/-- Where every edge is from an older action to a newer one of the trace. -/
structure Calm (e : Execution) (acts : List ActionId) (n : ℕ) (s : SCAnalysis) : Prop where
  fast : s.fastVersion = true
  acyclic : s.cyclic = false
  known : ∀ a ∈ acts, ∃ cv, s.cvmap a = some cv ∧ Low e n a cv
  nodes : ∀ a node b, s.nodeMap a = some node → (node.sb = some b ∨ node.specialEdge = some b) →
    a ∈ acts ∧ b ∈ acts ∧ (e.acts a).seqNumber < (e.acts b).seqNumber
  updates : ∀ a ∈ s.updateSet, a ∈ acts
  size : s.updateSetSize = s.updateSet.length

/-- The clocks of an action, zero where there are none. -/
def clock (s : SCAnalysis) (a : ActionId) (u : ThreadId) : ℕ := (s.cvmap a).elim 0 (·.getClock u)

/-- How far the clocks can still grow. -/
def room (e : Execution) (acts : List ActionId) (n : ℕ) (s : SCAnalysis) : ℕ :=
  ∑ a ∈ acts.toFinset, ∑ u ∈ Finset.range n, ((e.acts a).seqNumber - s.clock a u)

theorem room_congr {e : Execution} {acts : List ActionId} {n : ℕ} {s s' : SCAnalysis}
    (h : s'.cvmap = s.cvmap) : room e acts n s' = room e acts n s := by
  simp only [room,clock,h]

/-- What the propagation of clocks leaves alone. -/
structure SameLists (s s' : SCAnalysis) : Prop where
  threadlists : s'.threadlists = s.threadlists
  maxthreads : s'.maxthreads = s.maxthreads
  nodeMap : s'.nodeMap = s.nodeMap

theorem SameLists.refl (s : SCAnalysis) : SameLists s s := ⟨rfl,rfl,rfl⟩

theorem SameLists.trans {s t u : SCAnalysis} (h : SameLists s t) (h' : SameLists t u) :
    SameLists s u :=
  ⟨h'.threadlists.trans h.threadlists,h'.maxthreads.trans h.maxthreads,
    h'.nodeMap.trans h.nodeMap⟩

/-- One edge: nothing is cyclic, and a clock that grows takes room. -/
theorem Calm.merge {e : Execution} {acts : List ActionId} {n : ℕ} {s : SCAnalysis}
    (h : Calm e acts n s) {a b : ActionId} (ha : a ∈ acts) (hb : b ∈ acts)
    (hlt : (e.acts b).seqNumber < (e.acts a).seqNumber) :
    ∃ s' merged, s.merge e a b = .ok (s',merged) ∧ Calm e acts n s' ∧ SameLists s s' ∧
      s'.updateSet = s.updateSet ∧
      room e acts n s' + (if merged then 1 else 0) ≤ room e acts n s := by
  obtain ⟨cv,hcv,hlow⟩ := h.known a ha
  obtain ⟨cv2,hcv2,hlow2⟩ := h.known b hb
  have hforward : ¬ ((e.acts a).seqNumber ≤ cv2.getClock (e.acts a).tid ∧
      (e.acts a).seqNumber ≠ 0) := fun ⟨hle,_⟩ => by
    have := hlow2.le (e.acts a).tid
    omega
  let s' : SCAnalysis :=
    { s with cvmap := Function.update s.cvmap a (some (cv.merge cv2).1) }
  have hmerge : s.merge e a b = .ok (s',(cv.merge cv2).2) := by
    simp only [SCAnalysis.merge,hcv2,hforward,↓reduceIte,hcv,h.fast,s']
    rfl
  have hclock : ∀ u, s'.clock a u = max (cv.getClock u) (cv2.getClock u) := fun u => by
    simp [clock,s']
  have hother : ∀ c, c ≠ a → ∀ u, s'.clock c u = s.clock c u := fun c hc u => by
    simp [clock,s',hc]
  have hold : ∀ u, s.clock a u = cv.getClock u := fun u => by simp [clock,hcv]
  have hle : ∀ c, ∀ u, s.clock c u ≤ s'.clock c u := by
    intro c u
    by_cases hc : c = a
    · subst hc
      rw [hold,hclock]
      exact le_max_left _ _
    · rw [hother c hc]
  refine ⟨s',(cv.merge cv2).2,hmerge,?_,⟨rfl,rfl,rfl⟩,rfl,?_⟩
  · refine { h with known := fun c hc => ?_ }
    by_cases hca : c = a
    · subst hca
      exact ⟨_,by simp [s'],hlow.merge hlow2 hlt⟩
    · obtain ⟨cvc,hcvc,hlowc⟩ := h.known c hc
      exact ⟨cvc,by simpa [s',hca] using hcvc,hlowc⟩
  · cases hchanged : (cv.merge cv2).2 with
    | false =>
      simp only [Bool.false_eq_true,↓reduceIte,Nat.add_zero]
      exact Finset.sum_le_sum fun c _ => Finset.sum_le_sum fun u _ =>
        Nat.sub_le_sub_left (hle c u) _
    | true =>
      obtain ⟨u,hu⟩ := (ClockVector.merge_changed cv cv2).mp hchanged
      have hun : u < n := by
        by_contra hge
        rw [hlow2.room u (Nat.le_of_not_lt hge)] at hu
        exact absurd hu (Nat.not_lt_zero _)
      have hgrow : (e.acts a).seqNumber - s'.clock a u < (e.acts a).seqNumber - s.clock a u := by
        have := hlow2.le u
        rw [hold,hclock]
        omega
      have hrow : ∑ u ∈ Finset.range n, ((e.acts a).seqNumber - s'.clock a u) <
          ∑ u ∈ Finset.range n, ((e.acts a).seqNumber - s.clock a u) :=
        Finset.sum_lt_sum (fun u _ => Nat.sub_le_sub_left (hle a u) _)
          ⟨u,Finset.mem_range.mpr hun,hgrow⟩
      exact Finset.sum_lt_sum (fun c _ => Finset.sum_le_sum fun u _ =>
        Nat.sub_le_sub_left (hle c u) _) ⟨a,List.mem_toFinset.mpr ha,hrow⟩

/-- What the updates that wait and the clocks that can grow are worth. -/
def work (e : Execution) (acts : List ActionId) (n : ℕ) (s : SCAnalysis) : ℕ :=
  2 * room e acts n s + s.updateSet.length

theorem Calm.passEdge {e : Execution} {acts : List ActionId} {n : ℕ} {s : SCAnalysis}
    (h : Calm e acts n s) {act : ActionId} (next : Option ActionId)
    (hnext : ∀ b, next = some b → act ∈ acts ∧ b ∈ acts ∧
      (e.acts act).seqNumber < (e.acts b).seqNumber) :
    ∃ s', s.passEdge e act next = .ok s' ∧ Calm e acts n s' ∧ SameLists s s' ∧
      work e acts n s' ≤ work e acts n s := by
  cases next with
  | none => exact ⟨s,rfl,h,.refl s,Nat.le_refl _⟩
  | some b =>
    obtain ⟨hact,hb,hlt⟩ := hnext b rfl
    obtain ⟨s',merged,hmerge,hcalm,hlists,hset,hroom⟩ := h.merge hb hact hlt
    have hpass : s.passEdge e act (some b) = .ok (if merged then s'.pushChange b else s') := by
      simp only [SCAnalysis.passEdge,hmerge]
      rfl
    cases merged with
    | false =>
      refine ⟨s',hpass,hcalm,hlists,?_⟩
      simp only [work,hset]
      simp only [Bool.false_eq_true,↓reduceIte] at hroom
      omega
    | true =>
      refine ⟨s'.pushChange b,hpass,?_,hlists.trans ⟨rfl,rfl,rfl⟩,?_⟩
      · refine { hcalm with updates := fun a ha => ?_,size := ?_ }
        · rcases List.mem_append.mp ha with ha | ha
          · exact hcalm.updates a ha
          · exact List.mem_singleton.mp ha ▸ hb
        · simp [pushChange,hcalm.size]
      · have hsame : room e acts n (s'.pushChange b) = room e acts n s' := room_congr rfl
        have hpushed : (s'.pushChange b).updateSet = s.updateSet ++ [b] := by
          rw [pushChange,hset]
        rw [work,work,hsame,hpushed,List.length_append,List.length_singleton]
        simp only [↓reduceIte] at hroom
        omega

theorem Calm.passChange {e : Execution} {acts : List ActionId} {n : ℕ} {s : SCAnalysis}
    (h : Calm e acts n s) (act : ActionId) :
    ∃ s', s.passChange e act = .ok s' ∧ Calm e acts n s' ∧ SameLists s s' ∧
      work e acts n s' ≤ work e acts n s := by
  cases hnode : s.nodeMap act with
  | none => exact ⟨s,by simp [SCAnalysis.passChange,hnode],h,.refl s,Nat.le_refl _⟩
  | some node =>
    obtain ⟨s₁,hsb,hcalm₁,hlists₁,hwork₁⟩ := h.passEdge node.sb
      fun b hb => h.nodes act node b hnode (.inl hb)
    obtain ⟨s₂,hspecial,hcalm₂,hlists₂,hwork₂⟩ := hcalm₁.passEdge node.specialEdge
      fun b hb => h.nodes act node b hnode (.inr hb)
    refine ⟨s₂,?_,hcalm₂,hlists₁.trans hlists₂,hwork₂.trans hwork₁⟩
    simp only [SCAnalysis.passChange,hnode,hsb]
    exact hspecial

/-- The propagation ends with the updates. -/
theorem Calm.computeCVFast {e : Execution} {acts : List ActionId} {n : ℕ} {s : SCAnalysis}
    (hquiet : Quiet e acts) (h : Calm e acts n s) {m : ℕ} (hm : work e acts n s < m) :
    ∃ s', SCAnalysis.computeCVFast e m s = .ok s' ∧ Calm e acts n s' ∧ SameLists s s' := by
  induction m generalizing s with
  | zero => exact absurd hm (Nat.not_lt_zero _)
  | succ m ih =>
    rw [SCAnalysis.computeCVFast]
    cases hset : s.updateSet with
    | nil =>
      rw [if_pos (by rw [h.size,hset,List.length_nil])]
      exact ⟨s,rfl,h,.refl s⟩
    | cons act rest =>
      have hact : act ∈ acts := h.updates act (by simp [hset])
      have hsize : s.updateSetSize = rest.length + 1 := by rw [h.size,hset,List.length_cons]
      let t : SCAnalysis := { s with updateSet := rest,updateSetSize := s.updateSetSize - 1 }
      have hcalm : Calm e acts n t := {
        h with
        updates := fun a ha => h.updates a (by rw [hset]; exact List.mem_cons_of_mem _ ha)
        size := by simp [t,hsize] }
      have hwork : work e acts n t < m := by
        have hroom : room e acts n t = room e acts n s := room_congr rfl
        simp only [work,hset,List.length_cons] at hm
        simp only [work,hroom,t]
        omega
      obtain ⟨u,hpass,hcalm',hlists,hwork'⟩ := hcalm.passChange act
      obtain ⟨s',hrest,hcalm'',hlists'⟩ := ih hcalm' (Nat.lt_of_le_of_lt hwork' hwork)
      refine ⟨s',?_,hcalm'',
        (show SameLists s t from ⟨rfl,rfl,rfl⟩).trans (hlists.trans hlists')⟩
      rw [if_neg (by omega)]
      simp only [List.head?_cons,deref,List.tail_cons]
      change (t.passChange e act >>= fun s => _) = _
      rw [hpass]
      change (if (e.acts act).isRead = true then _ else _) = _
      rw [(hquiet.silent act hact).1]
      exact hrest

end SCAnalysis
end CdsChecker
