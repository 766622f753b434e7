import CdsChecker.ScGenerator
import CdsChecker.ScVerdict

/-! A complete trace, as fence inference finds it, and its lists of the threads. -/
namespace CdsChecker

/-- A recorded trace that leaves no read to a promise. The model thread only writes. -/
structure CompleteTrace (e : Execution) : Prop extends e.Recorded where
  reads : ∀ a ∈ e.actionTrace, (e.acts a).isRead = true →
    (e.acts a).tid ≠ 0 ∧ ∃ w ∈ e.actionTrace, (e.acts a).readsFrom = some w

namespace CompleteTrace

variable {e : Execution}

/-- The actions of a thread, in execution order. -/
theorem sorted (h : CompleteTrace e) {t : ThreadId} (ht : t ≠ 0) :
    (e.actionTrace.filter fun a => (e.acts a).tid = t).Pairwise fun a b =>
      (e.acts a).seqNumber < (e.acts b).seqNumber := by
  obtain ⟨us,rest,htrace,hus,-,hrest⟩ := h.parts
  have hempty : us.filter (fun a => (e.acts a).tid = t) = [] := by
    rw [List.filter_eq_nil_iff]
    intro a ha
    rw [hus a ha]
    simpa using ht.symm
  rw [htrace,List.filter_append,hempty,List.nil_append]
  exact hrest.filter _

/-- The last action of a joined thread. -/
theorem finish (h : CompleteTrace e) {a : ActionId} (ha : a ∈ e.actionTrace) {u : ThreadId}
    (hu : (e.acts a).getThreadOperand = some u) : ∃ f ∈ e.actionTrace,
    e.getLastAction u = some f := by
  obtain ⟨hcomplete,-⟩ := h.joined a ha u hu
  obtain ⟨th,hth,hstate⟩ := Execution.isComplete_iff.mp hcomplete
  obtain ⟨hne,f,hf⟩ := h.completed u th hth hstate
  exact ⟨f,h.last u f hne hf,hf⟩

end CompleteTrace

open Input in
/-- The second thread reads what the first one stored. -/
def handedOver : List Input :=
  [ofThread .threadStart 1,go 1 {},ofObject .threadCreate 100,go 1 {},store .relaxed 10 1,
    ofThread .threadStart 2,go 2 {},load .relaxed 10,go 1 {},ofThread .threadFinish 1,
    go 2 { readFrom := .past 3 },ofThread .threadFinish 2,go 1 {},go 2 {}]

theorem handedOver_complete : ∃ c, Config.Reachable {} c ∧ CompleteTrace c.exec ∧
    c.exec.actionTrace = [4,0,1,2,3,5,6,7] := by
  obtain ⟨c,hc,hplay⟩ := Config.exists_play {} handedOver
    (fun c => (∀ a ∈ c.exec.actionTrace, (c.exec.acts a).isRead = true →
      (c.exec.acts a).tid ≠ 0 ∧ ∃ w ∈ c.exec.actionTrace, (c.exec.acts a).readsFrom = some w) ∧
      c.exec.actionTrace = [4,0,1,2,3,5,6,7]) (by decide +kernel)
  obtain ⟨hreads,htrace⟩ := of_decide_eq_true hplay
  exact ⟨c,hc,⟨hc.recorded,hreads⟩,htrace⟩

namespace SCGenerator

open SCAnalysis

variable {e : Execution}

theorem buildVectors_concat (list : List ActionId) (act : ActionId)
    (threadlist : List (List ActionId)) :
    buildVectors e (list ++ [act]) threadlist =
      let r := buildVectors e list threadlist
      let threadid := (e.acts act).tid
      let r := if r.2 < threadid then (resize r.1 (threadid + 1) [],threadid) else r
      (r.1.modify threadid (· ++ [act]),r.2) := by
  rw [buildVectors,List.foldl_append]
  rfl

theorem getD_resize_of_lt {l : List (List ActionId)} {size : ℕ} {u : ThreadId} (hu : u < size) :
    (resize l size []).getD u [] = l.getD u [] := by
  rw [resize,List.getD_eq_getElem?_getD,List.getD_eq_getElem?_getD]
  by_cases hlt : u < l.length
  · rw [List.getElem?_append_left (by simp [hu,hlt]),List.getElem?_take_of_lt hu]
  · have hge : l.length ≤ u := Nat.le_of_not_lt hlt
    rw [List.getElem?_append_right
      (by rw [List.length_take]; exact (Nat.min_le_right _ _).trans hge),
      List.getElem?_replicate,List.getElem?_eq_none hge]
    split <;> rfl

/-- From empty lists, each list of a thread is its part of the trace, and there is one for the
last thread. -/
theorem buildVectors_lists (list : List ActionId) {threadlist : List (List ActionId)}
    (hroom : threadlist ≠ []) (hempty : ∀ t, threadlist.getD t [] = []) :
    (buildVectors e list threadlist).2 < (buildVectors e list threadlist).1.length ∧
    (∀ a ∈ list, (e.acts a).tid ≤ (buildVectors e list threadlist).2) ∧
    ∀ t, (buildVectors e list threadlist).1.getD t [] = list.filter fun a => (e.acts a).tid =
    t := by
  induction list using List.reverseRecOn with
  | nil => exact ⟨List.length_pos_iff.mpr hroom,by simp,hempty⟩
  | append_singleton list act ih =>
    obtain ⟨hlen,hmax,hlists⟩ := ih
    rw [buildVectors_concat]
    set r := buildVectors e list threadlist
    by_cases hlt : r.2 < (e.acts act).tid
    · have hroom : (e.acts act).tid < (resize r.1 ((e.acts act).tid + 1) []).length := by
        rw [length_resize]
        exact Nat.lt_succ_self _
      have hsame : ∀ t, (resize r.1 ((e.acts act).tid + 1) []).getD t [] =
          list.filter fun a => (e.acts a).tid = t := by
        intro t
        by_cases ht : t < (e.acts act).tid + 1
        · rw [getD_resize_of_lt ht,hlists t]
        · have hnone : (list.filter fun a => (e.acts a).tid = t) = [] := by
            apply List.filter_eq_nil_iff.mpr
            intro a ha
            have hlast := (hmax a ha).trans_lt hlt
            simp only [decide_eq_true_eq]
            rintro rfl
            exact ht (Nat.lt_succ_of_lt hlast)
          have hend : (resize r.1 ((e.acts act).tid + 1) []).length ≤ t := by
            rw [length_resize]
            exact Nat.le_of_not_lt ht
          rw [hnone,List.getD_eq_getElem?_getD,List.getElem?_eq_none hend]
          rfl
      simp only [if_pos hlt]
      refine ⟨?_,fun a ha => ?_,fun t => ?_⟩
      · rwa [List.length_modify]
      · rcases List.mem_append.mp ha with ha | ha
        · exact (hmax a ha).trans (Nat.le_of_lt hlt)
        · rw [List.mem_singleton.mp ha]
      · rw [getD_modify_append hroom,hsame t,List.filter_append,List.filter_singleton]
        simp [eq_comm]
    · have hroom : (e.acts act).tid < r.1.length := (Nat.le_of_not_lt hlt).trans_lt hlen
      simp only [if_neg hlt]
      refine ⟨?_,fun a ha => ?_,fun t => ?_⟩
      · rwa [List.length_modify]
      · rcases List.mem_append.mp ha with ha | ha
        · exact hmax a ha
        · rw [List.mem_singleton.mp ha]
          exact Nat.le_of_not_lt hlt
      · rw [getD_modify_append hroom,hlists t,List.filter_append,List.filter_singleton]
        simp [eq_comm]

/-- The list of the thread of an action of the trace. -/
theorem dupThreadlists_get {act : ActionId} {list : List ActionId} (h : act ∈ list) :
    (dupThreadlists e list)[(e.acts act).tid]? =
      some (list.filter fun a => (e.acts a).tid = (e.acts act).tid) := by
  have hempty : ∀ t, ([[]] : List (List ActionId)).getD t [] = [] := fun t => by cases t <;> rfl
  obtain ⟨hlen,hmax,hlists⟩ := buildVectors_lists (e := e) list (by simp) hempty
  have hlt : (e.acts act).tid < (dupThreadlists e list).length := (hmax act h).trans_lt hlen
  rw [List.getElem?_eq_getElem hlt,← hlists (e.acts act).tid,List.getD_eq_getElem?_getD,
    ← dupThreadlists,List.getElem?_eq_getElem hlt,Option.getD_some]

end SCGenerator
end CdsChecker
