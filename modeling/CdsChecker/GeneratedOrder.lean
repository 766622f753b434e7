import CdsChecker.CompleteTrace
import CdsChecker.ScFrame
import CdsChecker.Library.OrderGraph

/-! The order that the generator returns: along the program order, and of the whole trace unless
happens-before has a cycle. -/
namespace CdsChecker

open Relation OrderGraph

namespace SCGenerator

open SCAnalysis

variable {e : Execution} {s s' : SCAnalysis} {annotated : ActionId → Bool}

/-! ### What the clocks leave alone -/

section Frames
variable {read write write2 act : ActionId} {c c' f f' : Bool}

theorem mergeRead_frame (h : mergeRead e s write write2 = .ok (s',c)) : Frame s s' := by
  unfold mergeRead at h
  split at h
  · cases h
    exact .refl _
  · exact merge_frame h

theorem fastAfter_frame (h : fastAfter e read write write2 s c = .ok (s',c')) : Frame s s' := by
  unfold fastAfter at h
  split at h
  · obtain ⟨⟨t,status⟩,hmerge,h⟩ := bind_eq_ok.mp h
    cases h
    exact merge_frame hmerge
  · cases h
    exact .refl _

theorem fastWrites_frame {list : List ActionId} {r r' : SCAnalysis × Bool}
    (h : fastWrites e read write list r = .ok r') : Frame r.1 r'.1 := by
  induction list generalizing r with
  | nil =>
    cases h
    exact .refl _
  | cons write2 rest ih =>
    rw [fastWrites] at h
    split at h
    · exact ih h
    · obtain ⟨⟨t,c⟩,hafter,h⟩ := bind_eq_ok.mp h
      dsimp only at h
      split at h
      · obtain ⟨⟨u,status⟩,hread,h⟩ := bind_eq_ok.mp h
        cases h
        exact (fastAfter_frame hafter).trans (mergeRead_frame hread)
      · exact (fastAfter_frame hafter).trans (ih h)

theorem fastThreads_frame {tids : List ThreadId} {r r' : SCAnalysis × Bool}
    (h : fastThreads e read write tids r = .ok r') : Frame r.1 r'.1 := by
  induction tids generalizing r with
  | nil =>
    cases h
    exact .refl _
  | cons tid tids ih =>
    obtain ⟨t,hwrites,h⟩ := bind_eq_ok.mp h
    exact (fastWrites_frame hwrites).trans (ih h)

theorem processReadFast_frame (h : processReadFast e s read = .ok (s',c)) : Frame s s' := by
  unfold processReadFast at h
  split at h
  · cases h
    exact .refl _
  · obtain ⟨⟨t,merged⟩,hmerge,h⟩ := bind_eq_ok.mp h
    exact (merge_frame hmerge).trans (fastThreads_frame h)

theorem slowAfter_frame {r : SCAnalysis × Bool × Bool}
    (h : slowAfter e read write write2 s c f = .ok r) : Frame s r.1 := by
  unfold slowAfter at h
  split at h
  · obtain ⟨⟨t,status⟩,hmerge,h⟩ := bind_eq_ok.mp h
    cases h
    exact merge_frame hmerge
  · cases h
    exact .refl _

theorem slowBefore_frame {r : SCAnalysis × Bool × Bool}
    (h : slowBefore e write write2 s c f = .ok r) : Frame s r.1 := by
  unfold slowBefore at h
  split at h
  · obtain ⟨⟨t,status⟩,hmerge,h⟩ := bind_eq_ok.mp h
    cases h
    exact mergeRead_frame hmerge
  · cases h
    exact .refl _

theorem slowWrites_frame {list : List ActionId} {r r' : SCAnalysis × Bool × Bool}
    (h : slowWrites e read write list r = .ok r') : Frame r.1 r'.1 := by
  induction list generalizing r with
  | nil =>
    cases h
    exact .refl _
  | cons write2 rest ih =>
    rw [slowWrites] at h
    split at h
    · exact ih h
    · obtain ⟨⟨t,c,f⟩,hafter,h⟩ := bind_eq_ok.mp h
      dsimp only at h
      split at h
      · exact (slowAfter_frame hafter).trans (slowBefore_frame h)
      · exact (slowAfter_frame hafter).trans (ih h)

theorem slowThreads_frame {tids : List ThreadId} {r r' : SCAnalysis × Bool × Bool}
    (h : slowThreads e read write tids r = .ok r') : Frame r.1 r'.1 := by
  induction tids generalizing r with
  | nil =>
    cases h
    exact .refl _
  | cons tid tids ih =>
    obtain ⟨t,hwrites,h⟩ := bind_eq_ok.mp h
    exact (slowWrites_frame hwrites).trans (ih h)

theorem processAnnotatedReadSlow_frame {r : SCAnalysis × Bool × Bool}
    (h : processAnnotatedReadSlow e s read f = .ok r) : Frame s r.1 := by
  obtain ⟨write,-,h⟩ := bind_eq_ok.mp h
  dsimp only at h
  split at h
  · obtain ⟨⟨t,merged⟩,hmerge,h⟩ := bind_eq_ok.mp h
    cases h
    exact merge_frame hmerge
  · cases h
    exact .refl _

theorem processRead_frame {r : SCAnalysis × Bool × Bool}
    (h : processRead e annotated s read f = .ok r) : Frame s r.1 := by
  unfold processRead at h
  split at h
  · obtain ⟨⟨t,status⟩,hread,h⟩ := bind_eq_ok.mp h
    cases h
    exact processReadFast_frame hread
  split at h
  · exact processAnnotatedReadSlow_frame h
  · obtain ⟨write,-,h⟩ := bind_eq_ok.mp h
    obtain ⟨t,hread,h⟩ := bind_eq_ok.mp h
    exact (processAnnotatedReadSlow_frame hread).trans (slowThreads_frame h)

theorem passAct_frame {p p' : Pass} (h : passAct e annotated p act = .ok p') : Frame p.s p'.s := by
  obtain ⟨t,hlast,h⟩ := bind_eq_ok.mp h
  obtain ⟨⟨u,changed⟩,hfinish,h⟩ := bind_eq_ok.mp h
  have hframe := ((ensureCV_frame e p.s act).trans (mergeLast_frame hlast)).trans
    (mergeFinish_frame hfinish)
  dsimp only at h
  split at h
  · obtain ⟨⟨v,status,future⟩,hread,h⟩ := bind_eq_ok.mp h
    cases h
    exact hframe.trans (processRead_frame hread)
  · cases h
    exact hframe

theorem pass_frame {list : List ActionId} {p p' : Pass}
    (h : list.foldlM (passAct e annotated) p = .ok p') : Frame p.s p'.s := by
  induction list generalizing p with
  | nil =>
    cases h
    exact .refl _
  | cons act list ih =>
    rw [List.foldlM_cons] at h
    obtain ⟨q,hq,h⟩ := bind_eq_ok.mp h
    exact (passAct_frame hq).trans (ih h)

theorem computeLoop_frame {list : List ActionId} {n : ℕ} {first : Bool}
    {lastAct : ThreadId → Option ActionId}
    (h : computeLoop e annotated list n first lastAct s = .ok s') : Frame s s' := by
  induction n generalizing first lastAct s with
  | zero => cases h
  | succ n ih =>
    obtain ⟨p,hp,h⟩ := bind_eq_ok.mp h
    have hpass : Frame s p.s := pass_frame hp
    dsimp only at h
    split at h
    · exact hpass.trans (ih h)
    split at h
    · cases h
      exact hpass
    split at h
    · have hallow : Frame p.s { p.s with allowNonSC := true } :=
        ⟨rfl,rfl,rfl,rfl,rfl,fun _ h => h,id⟩
      exact (hpass.trans hallow).trans (ih h)
    · cases h
      exact hpass

theorem orderThread_frame {list : List ActionId} (h : orderThread e act list s = .ok (s',c)) :
    Frame s s' := by
  induction list with
  | nil =>
    cases h
    exact .refl _
  | cons write rest ih =>
    rw [orderThread] at h
    split at h
    · exact ih h
    split at h
    · cases h
      exact .refl _
    split at h
    · obtain ⟨⟨t,status⟩,hmerge,h⟩ := bind_eq_ok.mp h
      cases h
      exact merge_frame hmerge
    · exact ih h

theorem orderThreads_frame {tids : List ThreadId} (h : orderThreads e act tids s = .ok (s',c)) :
    Frame s s' := by
  induction tids generalizing s c with
  | nil =>
    cases h
    exact .refl _
  | cons tid tids ih =>
    rw [orderThreads] at h
    split at h
    · exact ih h
    · obtain ⟨⟨t,changed⟩,hone,h⟩ := bind_eq_ok.mp h
      obtain ⟨⟨u,changed'⟩,hrest,h⟩ := bind_eq_ok.mp h
      cases h
      exact (orderThread_frame hone).trans (ih hrest)

theorem propagate_frame {n : ℕ} {list : List ActionId}
    (h : propagate e annotated n list s c = .ok s') : Frame s s' := by
  unfold propagate at h
  split at h
  · exact computeLoop_frame h
  · cases h
    exact .refl _

end Frames

/-! ### The lists of the threads -/

/-- The order, and what is left of the threads, make up the trace. -/
structure Splits (e : Execution) (acts sclist : List ActionId) (s : SCAnalysis) : Prop where
  lists : ∀ t, (sclist.filter fun a => (e.acts a).tid = t) ++ s.threadlist t =
    acts.filter fun a => (e.acts a).tid = t
  threads : ∀ a ∈ acts, (e.acts a).tid ≤ s.maxthreads
  room : s.threadlists ≠ []

/-- Before the lists are built. -/
structure Cleared (s : SCAnalysis) : Prop where
  lists : ∀ t, s.threadlist t = []
  room : s.threadlists ≠ []

variable {acts sclist : List ActionId}

theorem Splits.frame (h : Splits e acts sclist s) (hframe : Frame s s') :
    Splits e acts sclist s' := by
  apply Splits.mk
  · intro t
    rw [threadlist,hframe.threadlists]
    exact h.lists t
  · rw [hframe.maxthreads]
    exact h.threads
  · rw [hframe.threadlists]
    exact h.room

theorem Splits.behind (h : Splits e acts sclist s) {t : ThreadId} (ht : s.maxthreads < t) :
    s.threadlist t = [] := by
  have hnone : (acts.filter fun a => (e.acts a).tid = t) = [] := by
    apply List.filter_eq_nil_iff.mpr
    intro a ha
    simp only [decide_eq_true_eq]
    rintro rfl
    exact absurd (h.threads a ha) (Nat.not_le_of_lt ht)
  have hlists := h.lists t
  rw [hnone,List.append_eq_nil_iff] at hlists
  exact hlists.2

theorem Splits.cleared (h : Splits e acts sclist s) : Cleared (reset acts s) := by
  constructor
  · intro t
    rw [threadlist,reset,List.getD_eq_getElem?_getD,List.getElem?_mapIdx]
    rcases Nat.lt_or_ge s.maxthreads t with ht | ht
    · have hbehind := h.behind ht
      rw [threadlist,List.getD_eq_getElem?_getD] at hbehind
      cases hl : s.threadlists[t]? with
      | none => rfl
      | some l =>
        rw [hl] at hbehind
        simpa using fun _ => hbehind
    · cases s.threadlists[t]? with
      | none => rfl
      | some l => simp [ht]
  · intro hnil
    apply h.room
    have hlength := congrArg List.length hnil
    simpa [reset] using hlength

theorem Cleared.build (h : Cleared s) (acts : List ActionId) :
    Splits e acts [] (build e acts s) := by
  obtain ⟨hroom,hthreads,hlists⟩ := buildVectors_lists (e := e) acts h.room h.lists
  refine ⟨hlists,hthreads,fun hnil => ?_⟩
  rw [show (buildVectors e acts s.threadlists).1 = [] from hnil] at hroom
  exact Nat.not_lt_zero _ hroom

theorem getD_modify_tail (l : List (List ActionId)) (t u : ThreadId) :
    (l.modify t List.tail).getD u [] = if u = t then (l.getD u []).tail else l.getD u [] := by
  rw [List.getD_eq_getElem?_getD,List.getD_eq_getElem?_getD,List.getElem?_modify]
  by_cases hut : u = t
  · subst hut
    cases l[u]? <;> simp
  · cases l[u]? <;> simp [hut,Ne.symm hut]

/-- The first action of a thread goes to the end of the order. -/
theorem Splits.take (h : Splits e acts sclist s) {act : ActionId} {t : ThreadId}
    {rest : List ActionId} (hact : s.threadlist t = act :: rest) :
    Splits e acts (sclist ++ [act])
      { s with threadlists := s.threadlists.modify (e.acts act).tid List.tail } := by
  have htid : (e.acts act).tid = t := by
    have hmem : act ∈ acts.filter fun a => (e.acts a).tid = t := by
      rw [← h.lists t,hact]
      simp
    simpa using List.of_mem_filter hmem
  refine ⟨fun u => ?_,h.threads,fun hnil => h.room ?_⟩
  · rw [threadlist,getD_modify_tail,List.filter_append,List.append_assoc,← h.lists u,htid]
    congr 1
    by_cases hut : u = t
    · rw [if_pos hut,List.filter_cons_of_pos (by simp [htid,hut])]
      rw [threadlist] at hact
      rw [hut,hact,threadlist,hact]
      rfl
    · rw [if_neg hut,List.filter_cons_of_neg (by simpa [htid] using Ne.symm hut)]
      rfl
  · have hlength := congrArg List.length hnil
    simpa using hlength

/-! ### The choices -/

theorem mem_of_foldl {α : Type} {f : Option α → α → Option α}
    (hf : ∀ found a, f found a = found ∨ f found a = some a) {l : List α} {found : Option α} {x : α}
    (h : l.foldl f found = some x) : found = some x ∨ x ∈ l := by
  induction l generalizing found with
  | nil => exact .inl h
  | cons a l ih =>
    rcases ih h with hfirst | hmem
    · rcases hf found a with hkeep | htake
      · exact .inl (hkeep.symm.trans hfirst)
      · exact .inr (Option.some.inj (htake.symm.trans hfirst) ▸ List.mem_cons_self)
    · exact .inr (List.mem_cons_of_mem _ hmem)

theorem mem_of_oldest {array : List ActionId} {act : ActionId} (h : oldest e array = some act) :
    act ∈ array := by
  unfold oldest at h
  refine (mem_of_foldl (fun found a => ?_) h).resolve_left (by simp)
  cases found with
  | none => exact .inr rfl
  | some best =>
    dsimp only
    split
    · exact .inr rfl
    · exact .inl rfl

theorem choose_spec {b b' : Build} {array : List ActionId} {act : ActionId}
    (h : choose e b array = .ok (act,b')) : act ∈ array ∧ b'.s = b.s ∧ b'.sclist = b.sclist := by
  unfold choose at h
  split at h
  · rename_i hprune
    cases h
    refine ⟨?_,rfl,rfl⟩
    unfold pruneArray at hprune
    split at hprune
    · cases hprune
      exact List.mem_singleton_self _
    split at hprune
    · rename_i holdest
      cases hprune
      exact List.mem_of_mem_filter (mem_of_oldest holdest)
    · exact List.mem_of_mem_filter (mem_of_oldest hprune)
  · obtain ⟨_,hget,h⟩ := bind_eq_ok.mp h
    cases h
    exact ⟨List.mem_of_getElem? (deref_eq_ok.mp hget),rfl,rfl⟩

theorem mem_available {cv : ActionId → Option ClockVector} {act : ActionId}
    (h : act ∈ s.available e cv) : ∃ t rest, s.threadlist t = act :: rest := by
  obtain ⟨t,-,ht⟩ := List.mem_filterMap.mp h
  cases hlist : s.threadlist t with
  | nil => simp [hlist] at ht
  | cons first rest =>
    simp only [hlist] at ht
    split at ht
    · cases ht
    · exact ⟨t,rest,by rw [hlist,Option.some.inj ht]⟩

theorem getNextActions_spec {array : List ActionId} (h : s.getNextActions e = .ok array) :
    (∀ act ∈ array, ∃ t rest, s.threadlist t = act :: rest) ∧
      (array = [] → s.available e (fun act => some (e.acts act).cv) = []) := by
  unfold getNextActions at h
  dsimp only at h
  split at h
  · rename_i hsome
    cases h
    exact ⟨fun act => mem_available,fun hnil => absurd hnil hsome⟩
  · obtain ⟨_,-,h⟩ := bind_eq_ok.mp h
    cases h
    exact ⟨fun act => mem_available,id⟩

/-- One turn of the loop: an action more, or all lists as they were in the beginning. -/
theorem Splits.step {b b' : Build} {n : ℕ} {array : List ActionId}
    (h : Splits e acts b.sclist b.s) (harray : b.s.getNextActions e = .ok array)
    (hstep : generateStep e annotated n acts array b = .ok b') : Splits e acts b'.sclist b'.s := by
  obtain ⟨⟨act,b₁⟩,hchoose,hstep⟩ := bind_eq_ok.mp hstep
  obtain ⟨⟨s₁,changed⟩,hconstraints,hstep⟩ := bind_eq_ok.mp hstep
  obtain ⟨s₂,hpropagate,hstep⟩ := bind_eq_ok.mp hstep
  obtain ⟨hmem,hs,hsclist⟩ := choose_spec hchoose
  obtain ⟨t,rest,hact⟩ := (getNextActions_spec harray).1 act hmem
  have htaken := h.take hact
  dsimp only at hconstraints
  rw [hs] at hconstraints
  have hnew : Splits e acts (b₁.sclist ++ [act]) s₂ := by
    rw [hsclist]
    exact htaken.frame ((orderThreads_frame hconstraints).trans (propagate_frame hpropagate))
  split at hstep
  · obtain ⟨s₃,hcompute,hstep⟩ := bind_eq_ok.mp hstep
    cases hstep
    exact (hnew.cleared.build acts).frame (computeLoop_frame hcompute)
  · cases hstep
    exact hnew

theorem Splits.loop {b b' : Build} {n m : ℕ} (h : Splits e acts b.sclist b.s)
    (hloop : generateLoop e annotated n acts m b = .ok b') :
    Splits e acts b'.sclist b'.s ∧ b'.s.getNextActions e = .ok [] := by
  induction m generalizing b with
  | zero => cases hloop
  | succ m ih =>
    obtain ⟨array,harray,hloop⟩ := bind_eq_ok.mp hloop
    split at hloop
    · rename_i hempty
      cases hloop
      rw [List.isEmpty_iff.mp hempty] at harray
      exact ⟨h,harray⟩
    · obtain ⟨b₁,hstep,hloop⟩ := bind_eq_ok.mp hloop
      exact ih (h.step harray hstep) hloop

/-! ### The order -/

/-- `b` happens before `a`, an action of another thread. -/
def Waits (e : Execution) (a b : ActionId) : Prop :=
  e.happensBefore b a = true ∧ (e.acts b).tid ≠ (e.acts a).tid

/-- Of the first actions of the threads one waits for none of the others, and can be taken. -/
theorem Splits.all_taken (h : Splits e acts sclist s) (hnext : s.getNextActions e = .ok [])
    (hacyclic : Acyclic (Waits e)) (t : ThreadId) : s.threadlist t = [] := by
  have htid : ∀ {u first}, (s.threadlist u).head? = some first → (e.acts first).tid = u := by
    intro u first hfirst
    have hmem : first ∈ acts.filter fun a => (e.acts a).tid = u := by
      rw [← h.lists u]
      exact List.mem_append_right _ (List.mem_of_head? hfirst)
    simpa using List.of_mem_filter hmem
  let heads := (List.range (s.maxthreads + 1)).filterMap fun u => (s.threadlist u).head?
  by_contra hsome
  have hheads : heads ≠ [] := by
    obtain ⟨first,rest,hlist⟩ := List.exists_cons_of_ne_nil hsome
    have hlt : t < s.maxthreads + 1 := by
      by_contra hge
      exact hsome (h.behind (Nat.lt_of_succ_le (Nat.le_of_not_lt hge)))
    exact List.ne_nil_of_mem (List.mem_filterMap.mpr
      ⟨t,List.mem_range.mpr hlt,by rw [hlist,List.head?_cons]⟩)
  obtain ⟨act,hact,hfree⟩ := hacyclic.exists_last hheads
  obtain ⟨u,hu,hfirst⟩ := List.mem_filterMap.mp hact
  have hnone := (getNextActions_spec hnext).2 rfl
  have hmem : act ∈ s.available e fun act => some (e.acts act).cv := by
    refine List.mem_filterMap.mpr ⟨u,hu,?_⟩
    cases hlist : s.threadlist u with
    | nil => simp [hlist] at hfirst
    | cons first rest =>
      obtain rfl : first = act := by simpa [hlist] using hfirst
      dsimp only
      rw [if_neg]
      simp only [List.any_eq_true,Bool.and_eq_true,not_exists,not_and,Option.any_eq_true]
      intro i hi hne other hother hknows
      refine hfree other (List.mem_filterMap.mpr ⟨i,hi,hother⟩) ⟨?_,?_⟩
      · rw [Execution.happensBefore,ModelAction.happensBefore]
        simpa [knows] using hknows
      · rw [htid hother,htid hfirst]
        simpa using hne
  rw [hnone] at hmem
  cases hmem

theorem perm_of_filters {f : ActionId → ThreadId} {l l' : List ActionId}
    (h : ∀ t, (l.filter fun a => f a = t) = l'.filter fun a => f a = t) : l.Perm l' := by
  rw [List.perm_iff_count]
  intro a
  have hcount : ∀ l : List ActionId, l.count a = (l.filter fun b => f b = f a).count a := fun l =>
    (List.count_filter (by simp)).symm
  rw [hcount l,hcount l',h (f a)]

/-- The order is made of first parts of the threads; it is one of the whole trace unless
happens-before goes round in a circle. -/
theorem generateSC_programOrder {n m : ℕ} {list : List ActionId} (h : Cleared s)
    (hgenerate : generateSC e annotated n m acts s = .ok (s',list)) :
    (∀ t, (list.filter fun a => (e.acts a).tid = t) <+: acts.filter fun a => (e.acts a).tid = t) ∧
      (Acyclic (Waits e) → list.Perm acts ∧ ∀ t, (list.filter fun a => (e.acts a).tid = t) =
        acts.filter fun a => (e.acts a).tid = t) := by
  obtain ⟨s₁,hcompute,hgenerate⟩ := bind_eq_ok.mp hgenerate
  obtain ⟨b,hloop,hgenerate⟩ := bind_eq_ok.mp hgenerate
  cases hgenerate
  have hfirst : Splits e acts [] s₁ := (h.build acts).frame (computeLoop_frame hcompute)
  obtain ⟨hsplits,hnext⟩ := Splits.loop (b := { s := s₁,choices := _ }) hfirst hloop
  refine ⟨fun t => ⟨_,hsplits.lists t⟩,fun hacyclic => ?_⟩
  have hall : ∀ t, (b.sclist.filter fun a => (e.acts a).tid = t) =
      acts.filter fun a => (e.acts a).tid = t := by
    intro t
    rw [← hsplits.lists t,hsplits.all_taken hnext hacyclic t,List.append_nil]
  exact ⟨perm_of_filters hall,hall⟩

end SCGenerator
end CdsChecker
