import CdsChecker.ScOrder
import CdsChecker.TraceRecord

/-! The verdict of the analysis over the traces that the checker records. -/
namespace CdsChecker

namespace Execution

def isYieldblocked (params : ExecutionParams) (e : Execution) : Bool :=
  params.yieldblock && e.threads.any fun t => t.pending.any ModelAction.isYield

/-- No thread can go on, and none waits in a yield. -/
def isCompleteExecution (params : ExecutionParams) (e : Execution) : Bool :=
  !e.isYieldblocked params && (List.range e.getNumThreads).all fun i => !e.isEnabled i

end Execution
namespace SCAnalysis

variable {e : Execution} {acts : List ActionId}

theorem hasBadRF_quiet {list : List ActionId} (hlist : ∀ a ∈ list, (e.acts a).isRead = false)
    (lastwrmap : Location → Option ActionId) : hasBadRF e list lastwrmap = false := by
  induction list generalizing lastwrmap with
  | nil => rfl
  | cons act list ih =>
    rw [hasBadRF,hlist act (by simp)]
    exact ih (fun a ha => hlist a (List.mem_cons_of_mem _ ha)) _

/-- A trace without atomic accesses is its own order. -/
theorem analyze_quiet (hquiet : Quiet e acts) (hin : InBounds e acts) :
    ∃ n s, analyze e n acts {} = .ok (s,acts) ∧ s.cyclic = false := by
  obtain ⟨s₁,hbuild,hbuilt⟩ := buildFast_built hquiet hin (List.prefix_refl acts)
  have hcalm₁ := hbuilt.calm hquiet
  let n := work e acts (s₁.maxthreads + 1) s₁ + acts.length + 1
  obtain ⟨s₂,hcompute,hcalm₂,hlists⟩ := hcalm₁.computeCVFast hquiet
    (show work e acts (s₁.maxthreads + 1) s₁ < n by omega)
  have hordering : Ordering e acts (s₁.maxthreads + 1) acts s₂ := {
    hcalm₂ with
    holds := fun t => by
      rw [threadlist,hlists.threadlists]
      exact hbuilt.holds t
    threads := fun a ha => by
      rw [hlists.maxthreads]
      exact hbuilt.threads a ha
    suffix := List.suffix_refl acts }
  obtain ⟨b,hloop,hlist,hacyclic⟩ :=
    hordering.generateLoop (b := { s := s₂,choices := List.replicate acts.length 0 }) hquiet n
      (show acts.length < n by omega)
  have hvectors : buildVectors e acts {} = .ok s₁ := hbuild
  have hcv : s₁.computeCV e n acts = .ok s₂ := by
    rw [computeCV,if_pos hcalm₁.fast]
    exact hcompute
  have hgen : generateSC e n acts {} = .ok (b.s,some acts) := by
    rw [generateSC,hvectors]
    change (s₁.computeCV e n acts >>= _) = _
    rw [hcv]
    change (if (s₂.fastVersion && s₂.cyclic) = true then _ else _) = _
    rw [hcalm₂.acyclic,Bool.and_false,if_neg Bool.false_ne_true]
    rw [hloop]
    simp only [List.nil_append] at hlist
    rw [← hlist]
    rfl
  have hcheck : checkRf e b.s acts = .ok () := by
    rw [checkRf,hasBadRF_quiet fun a ha => (hquiet.silent a ha).1,hacyclic]
    rfl
  refine ⟨n,b.s,?_,hacyclic⟩
  rw [analyze]
  change (generateSC e n acts {} >>= _) = _
  rw [hgen]
  change (if b.s.cyclic = true then _ else _) = _
  rw [hacyclic,if_neg Bool.false_ne_true]
  change (checkRf e b.s acts >>= _) = _
  rw [hcheck]
  rfl

/-- The latest write of the location in a list. -/
def latestWrite (e : Execution) (list : List ActionId) (l : Location) : Option ActionId :=
  list.reverse.find? fun a => (e.acts a).isWrite && (e.acts a).location == l

/-- Every read of the list reads the latest write of its location before it. -/
def ReadsLatest (e : Execution) (list : List ActionId) : Prop :=
  ∀ pre act post, list = pre ++ act :: post → (e.acts act).isRead = true →
    (e.acts act).readsFrom = latestWrite e pre (e.acts act).location

def Precedes (list : List ActionId) (a b : ActionId) : Prop :=
  ∃ pre post, list = pre ++ post ∧ a ∈ pre ∧ b ∈ post

/-- A permutation of the trace along the program order, the creations and the joins. -/
structure Ordered (e : Execution) (actions list : List ActionId) : Prop where
  perm : list.Perm actions
  programOrder : ∀ t, (list.filter fun a => (e.acts a).tid = t) =
    actions.filter fun a => (e.acts a).tid = t
  created : ∀ a ∈ list, (e.acts a).isThreadStart = true →
    ∀ create, e.threads[(e.acts a).tid]?.bind Thread.creation = some create →
      Precedes list create a
  joined : ∀ a ∈ list, ∀ u, (e.acts a).getThreadOperand = some u →
    ∃ finish, e.getLastAction u = some finish ∧ Precedes list finish a

/-- The analysis of the trace returns, the assertion in it holds, and what it says is right. -/
def RightVerdict (e : Execution) : Prop :=
  ∃ n s list, analyze e n e.actionTrace {} = .ok (s,list) ∧
    (s.cyclic = false ↔ ReadsLatest e list) ∧ (s.cyclic = false → Ordered e e.actionTrace list)

/-- Where there is an atomic access, the address is that of an atomic object. -/
def KindsApart (e : Execution) : Prop :=
  ∀ a ∈ e.actionTrace, ∀ b ∈ e.actionTrace, (e.acts a).isAtomicVar = true →
    Execution.onLocation (e.acts b) (e.acts a).location = true → (e.acts b).isAtomicVar = true

theorem precedes_of_sorted {f : ActionId → ℕ} {list : List ActionId}
    (hsorted : list.Pairwise fun a b => f a < f b) {a b : ActionId} (ha : a ∈ list)
    (hb : b ∈ list) (hlt : f a < f b) : Precedes list a b := by
  obtain ⟨pre,post,rfl⟩ := List.append_of_mem hb
  refine ⟨pre,b :: post,rfl,?_,by simp⟩
  rcases List.mem_append.mp ha with ha | ha
  · exact ha
  · rcases List.mem_cons.mp ha with rfl | ha
    · exact absurd hlt (Nat.lt_irrefl _)
    · have hafter := (List.pairwise_cons.mp (List.pairwise_append.mp hsorted).2.1).1 a ha
      exact absurd hlt (Nat.lt_asymm hafter)

/-- The trace itself. -/
theorem Quiet.ordered (h : Quiet e acts) : Ordered e acts acts where
  perm := List.Perm.refl acts
  programOrder _ := rfl
  created a ha hstart create hcreate := by
    obtain ⟨hmem,hlt⟩ := h.created a ha hstart create hcreate
    exact precedes_of_sorted h.sorted hmem ha hlt
  joined a ha u hu := by
    obtain ⟨finish,hlast,hmem,hlt⟩ := h.joined a ha u hu
    exact ⟨finish,hlast,precedes_of_sorted h.sorted hmem ha hlt⟩

/-- An uninitialized action would be the first of the trace, and behind the end of the lists. -/
theorem no_uninitialized (hrecorded : e.Recorded) (hin : InBounds e e.actionTrace) :
    ∀ a ∈ e.actionTrace, (e.acts a).tid ≠ 0 := by
  obtain ⟨us,rest,hsplit,hus,hrest,-⟩ := hrecorded.parts
  cases us with
  | nil =>
    intro a ha
    rw [hsplit,List.nil_append] at ha
    exact (hrest a ha).1
  | cons u us =>
    have hbehind := hin [] u (us ++ rest) (by simpa using hsplit)
    exact absurd (hus u (by simp)) hbehind

theorem no_atomic (hrecorded : e.Recorded) (hkinds : KindsApart e)
    (hin : InBounds e e.actionTrace) : ∀ a ∈ e.actionTrace, (e.acts a).isAtomicVar = false := by
  intro a ha
  cases hatomic : (e.acts a).isAtomicVar with
  | false => rfl
  | true =>
    rcases hrecorded.atomic a ha hatomic with ⟨u,hu,hzero⟩ | ⟨b,hb,hon,hother⟩
    · exact absurd hzero (no_uninitialized hrecorded hin u hu)
    · rw [hkinds a ha b hb hatomic hon] at hother
      cases hother

/-- A recorded trace that is in bounds has no atomic accesses. -/
theorem quiet_of_inBounds (hrecorded : e.Recorded) (hkinds : KindsApart e)
    (hin : InBounds e e.actionTrace) : Quiet e e.actionTrace := by
  have huser := no_uninitialized hrecorded hin
  have hatomic := no_atomic hrecorded hkinds hin
  obtain ⟨us,rest,hsplit,hus,hrest,hsorted⟩ := hrecorded.parts
  have hnil : us = [] := by
    apply List.eq_nil_iff_forall_not_mem.mpr
    intro u hu
    exact huser u (by rw [hsplit]; exact List.mem_append_left _ hu) (hus u hu)
  rw [hnil,List.nil_append] at hsplit
  apply Quiet.mk
  · intro a ha
    have hquiet := hatomic a ha
    rw [ModelAction.isAtomicVar,ModelAction.couldBeWrite,Bool.or_eq_false_iff,
      Bool.or_eq_false_iff] at hquiet
    exact ⟨hquiet.1,hquiet.2.1⟩
  · intro a ha
    rw [hsplit] at ha
    exact (hrest a ha).2
  · rw [hsplit]
    exact hsorted
  · intro a ha hstart create hcreate
    obtain ⟨th,hth,hcreation⟩ := Option.bind_eq_some_iff.mp hcreate
    obtain ⟨hmem,hafter⟩ := hrecorded.created _ th create hth (huser a ha) hcreation
    exact ⟨hmem,hafter a ha rfl⟩
  · intro a ha u hu
    obtain ⟨hcomplete,hafter⟩ := hrecorded.joined a ha u hu
    obtain ⟨th,hth,hstate⟩ := Execution.isComplete_iff.mp hcomplete
    obtain ⟨hne,finish,hlast⟩ := hrecorded.completed u th hth hstate
    exact ⟨finish,hlast,hrecorded.last u finish hne hlast,hafter finish hlast⟩

theorem Quiet.readsLatest (h : Quiet e acts) : ReadsLatest e acts := by
  intro pre act post hsplit hread
  rw [(h.silent act (hsplit ▸ by simp)).1] at hread
  cases hread

/-- The verdict on a trace is right exactly where the lists of writes have room: for programs
that keep atomic and other objects at different addresses, these are the traces without atomic
accesses. -/
theorem rightVerdict_iff_inBounds {params : ExecutionParams} {c : Config}
    (h : Config.Reachable params c) (hkinds : KindsApart c.exec) :
    RightVerdict c.exec ↔ InBounds c.exec c.exec.actionTrace := by
  constructor
  · rintro ⟨n,s,list,hanalyze,-⟩
    exact analyze_inBounds hanalyze
  · intro hin
    have hquiet := quiet_of_inBounds h.recorded hkinds hin
    obtain ⟨n,s,hanalyze,hacyclic⟩ := analyze_quiet hquiet hin
    exact ⟨n,s,c.exec.actionTrace,hanalyze,iff_of_true hacyclic hquiet.readsLatest,
      fun _ => hquiet.ordered⟩

end SCAnalysis
end CdsChecker
