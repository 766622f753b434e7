import CdsChecker.PromiseCounts

/-! A thread that blocks on another one and the promises that the other one reads from. -/
namespace CdsChecker
namespace Execution

/-- The readers of a promise that are in a thread. -/
def readersIn (e : Execution) (t : ThreadId) (p : PromiseId) : List ActionId :=
  (e.proms p).readers.filter fun r => (e.acts r).tid = t

/-- A promise with a reader in `blocker` that `waiting` could still keep. -/
def Affected (e : Execution) (blocker waiting : ThreadId) (p : PromiseId) : Prop :=
  e.readersIn blocker p ≠ [] ∧ (e.proms p).threadIsAvailable waiting = true

/-- No other thread can keep the promise, and `blocker` has read from it once. -/
def Lone (e : Execution) (blocker waiting : ThreadId) (p : PromiseId) : Prop :=
  (∀ u, (e.proms p).threadIsAvailable u = true → u = waiting) ∧
    (e.readersIn blocker p).length = 1

/-- `waiting` can keep no promise that `blocker` reads from, everything else is as before, and the
execution has failed iff it had or a promise has lost its last thread. -/
structure BlockingExact (e : Execution) (blocker waiting : ThreadId) (e' : Execution) : Prop where
  unavailable : ∀ p ∈ e.promises, e.readersIn blocker p ≠ [] →
    (e'.proms p).threadIsAvailable waiting = false
  otherPromise : ∀ p, (p ∉ e.promises ∨ e.readersIn blocker p = []) → e'.proms p = e.proms p
  otherThread : ∀ p u, u ≠ waiting →
    (e'.proms p).threadIsAvailable u = (e.proms p).threadIsAvailable u
  failed : e'.failedPromise = true ↔ e.failedPromise = true ∨ ∃ p ∈ e.promises,
    (∃ u, (e.proms p).threadIsAvailable u = true) ∧ ∀ u, (e'.proms p).threadIsAvailable u = false

/-- The thread is ruled out for a promise, which may fail by it. -/
def ruleOut (waiting : ThreadId) (e : Execution) (p : PromiseId) : Execution :=
  { (e.eliminateThread p waiting).1 with
    failedPromise := e.failedPromise || (e.eliminateThread p waiting).2 }

variable {e : Execution} {blocker waiting : ThreadId}

/-! ### One promise -/

theorem eliminateThread_gone {p : PromiseId} (h : (e.proms p).threadIsAvailable waiting = false) :
    e.eliminateThread p waiting = (e,false) := by
  have hgone : (e.proms p).eliminateThread waiting = (e.proms p,false) := by
    simp [Promise.eliminateThread,h]
  simp [eliminateThread,modifyPromise,hgone]

theorem blockingReaders_gone {p : PromiseId} {l : List ActionId}
    (h : (e.proms p).threadIsAvailable waiting = false) :
    blockingReaders blocker waiting p l e = (e,l.any fun r => (e.acts r).tid = blocker) := by
  induction l with
  | nil => rfl
  | cons reader rest ih =>
    rw [blockingReaders,List.any_cons]
    by_cases hr : (e.acts reader).tid = blocker
    · rw [if_neg (not_not.mpr hr),eliminateThread_gone h]
      simp [hr]
    · rw [if_pos hr,ih]
      simp [hr]

/-- The function returns unless the first reader is the only one and the promise fails with it. -/
theorem blockingReaders_some {p : PromiseId} {l : List ActionId}
    (hl : l.filter (fun r => (e.acts r).tid = blocker) ≠ []) :
    blockingReaders blocker waiting p l e = (ruleOut waiting e p,
      !((e.eliminateThread p waiting).2 &&
        (l.filter fun r => (e.acts r).tid = blocker).length == 1)) := by
  induction l with
  | nil => exact absurd rfl hl
  | cons reader rest ih =>
    rw [blockingReaders]
    by_cases hr : (e.acts reader).tid = blocker
    · rw [if_neg (not_not.mpr hr),List.filter_cons_of_pos (by simpa using hr)]
      cases hfail : e.eliminateThread p waiting with
      | mk e₁ failed =>
        have he₁ : e₁ = (e.eliminateThread p waiting).1 := by rw [hfail]
        have hrule : ruleOut waiting e p =
            { e₁ with failedPromise := e.failedPromise || failed } := by
          rw [ruleOut,hfail]
        rw [hrule]
        cases failed with
        | false =>
          have hsame : ({ e₁ with failedPromise := e.failedPromise || false } : Execution)
              = e₁ := by
            rw [he₁,Bool.or_false]
            rfl
          rw [hsame]
          rfl
        | true =>
          have hgone : (({ e₁ with failedPromise := true } : Execution).proms p).threadIsAvailable
              waiting = false := by
            change (e₁.proms p).threadIsAvailable waiting = false
            rw [he₁]
            simp [eliminateThread,modifyPromise,Promise.available_eliminateThread]
          dsimp only
          rw [blockingReaders_gone hgone,Bool.or_true]
          have hacts : e₁.acts = e.acts := by
            rw [he₁]
            rfl
          simp only [hacts,List.length_cons,Bool.true_and,Prod.mk.injEq,true_and]
          rw [Bool.eq_iff_iff]
          simp [List.length_eq_zero_iff,List.filter_eq_nil_iff]
    · rw [if_pos hr]
      rw [List.filter_cons_of_neg (by simpa using hr)] at hl ⊢
      exact ih hl

theorem blockingReaders_none {p : PromiseId} {l : List ActionId}
    (hl : l.filter (fun r => (e.acts r).tid = blocker) = []) :
    blockingReaders blocker waiting p l e = (e,false) := by
  induction l with
  | nil => rfl
  | cons reader rest ih =>
    have hr : (e.acts reader).tid ≠ blocker := by
      simpa using List.filter_eq_nil_iff.mp hl reader (by simp)
    rw [List.filter_cons_of_neg (by simpa using hr)] at hl
    rw [blockingReaders,if_pos hr,ih hl]

/-! ### All promises -/

theorem ruleOut_self (waiting : ThreadId) (e : Execution) (p : PromiseId) :
    (ruleOut waiting e p).proms p = ((e.proms p).eliminateThread waiting).1 := by
  simp [ruleOut,eliminateThread,modifyPromise]

theorem ruleOut_of_ne (waiting : ThreadId) (e : Execution) {p q : PromiseId} (hq : q ≠ p) :
    (ruleOut waiting e p).proms q = e.proms q := by
  simp [ruleOut,eliminateThread,modifyPromise,hq]

theorem affected_congr {e' : Execution} {p : PromiseId} (hproms : e'.proms p = e.proms p)
    (hacts : e'.acts = e.acts) :
    e'.Affected blocker waiting p ↔ e.Affected blocker waiting p := by
  rw [Affected,Affected,readersIn,readersIn,hproms,hacts]

theorem lone_congr {e' : Execution} {p : PromiseId} (hproms : e'.proms p = e.proms p)
    (hacts : e'.acts = e.acts) : e'.Lone blocker waiting p ↔ e.Lone blocker waiting p := by
  rw [Lone,Lone,readersIn,readersIn,hproms,hacts]

theorem pairwise_ruleOut {p : PromiseId} {ps : List PromiseId} (hp : p ∉ ps) :
    (ps.Pairwise fun q r => (ruleOut waiting e p).Affected blocker waiting q →
        (ruleOut waiting e p).Affected blocker waiting r →
        (ruleOut waiting e p).Lone blocker waiting q) ↔
      ps.Pairwise fun q r => e.Affected blocker waiting q → e.Affected blocker waiting r →
        e.Lone blocker waiting q := by
  refine List.Pairwise.iff_of_mem fun {q r} hq hr => ?_
  have hproms : ∀ x ∈ ps, (ruleOut waiting e p).proms x = e.proms x := fun x hx =>
    ruleOut_of_ne waiting e fun heq => hp (heq ▸ hx)
  rw [affected_congr (hproms q hq) rfl,affected_congr (hproms r hr) rfl,
    lone_congr (hproms q hq) rfl]

/-- The inner loop returns into the outer one exactly for a lone promise. -/
theorem lone_iff_failed {p : PromiseId} (hcounted : (e.proms p).Counted)
    (hp : e.Affected blocker waiting p) :
    e.Lone blocker waiting p ↔ ((e.eliminateThread p waiting).2 &&
      (e.readersIn blocker p).length == 1) = true := by
  rw [Bool.and_eq_true,beq_iff_eq,Lone]
  refine and_congr_left fun _ => ?_
  change _ ↔ ((e.proms p).eliminateThread waiting).2 = true
  rw [hcounted.eliminateThread_failed waiting]
  simp only [hp.2,true_and,Promise.available_eliminateThread,Bool.and_eq_false_iff,
    bne_eq_false_iff_eq]
  refine forall_congr' fun u => ?_
  cases (e.proms p).threadIsAvailable u <;> simp

/-- The promises that the function should rule the thread out for. -/
noncomputable def affectedOf (e : Execution) (blocker waiting : ThreadId) (ps : List PromiseId) :
    List PromiseId :=
  open Classical in ps.filter fun p => e.Affected blocker waiting p

theorem affectedOf_ruleOut {p : PromiseId} {ps : List PromiseId} (hp : p ∉ ps) :
    (ruleOut waiting e p).affectedOf blocker waiting ps = e.affectedOf blocker waiting ps := by
  classical
  refine List.filter_congr fun q hq => ?_
  have hproms : (ruleOut waiting e p).proms q = e.proms q :=
    ruleOut_of_ne waiting e fun heq => hp (heq ▸ hq)
  simp only [affected_congr hproms rfl]

theorem Counted.ruleOut (h : ∀ p, (e.proms p).Counted) (p q : PromiseId) :
    ((Execution.ruleOut waiting e p).proms q).Counted := by
  by_cases hq : q = p
  · rw [hq,ruleOut_self]
    exact (h p).eliminateThread waiting
  · rw [ruleOut_of_ne waiting e hq]
    exact h q

/-- All affected promises are treated if each but the last is lone. -/
theorem blockingPromises_all {ps : List PromiseId} (hnodup : ps.Nodup)
    (hcounted : ∀ p, (e.proms p).Counted)
    (hlone : ps.Pairwise fun p q => e.Affected blocker waiting p → e.Affected blocker waiting q →
      e.Lone blocker waiting p) :
    blockingPromises blocker waiting ps e =
      (e.affectedOf blocker waiting ps).foldl (ruleOut waiting) e := by
  classical
  induction ps generalizing e with
  | nil => rfl
  | cons p ps ih =>
    obtain ⟨hp,hnodup⟩ := List.nodup_cons.mp hnodup
    obtain ⟨hfirst,hrest⟩ := List.pairwise_cons.mp hlone
    rw [blockingPromises]
    by_cases haffected : e.Affected blocker waiting p
    · have hcons : e.affectedOf blocker waiting (p :: ps) =
          p :: e.affectedOf blocker waiting ps := List.filter_cons_of_pos (by simpa using haffected)
      rw [hcons,List.foldl_cons,if_neg (by simp [haffected.2]),
        blockingReaders_some (by simpa [readersIn] using haffected.1)]
      have hiff := lone_iff_failed (hcounted p) haffected
      cases hstop : (e.eliminateThread p waiting).2 && (e.readersIn blocker p).length == 1 with
      | true =>
        rw [readersIn] at hstop
        rw [hstop]
        simp only [Bool.not_true]
        rw [ih hnodup (Counted.ruleOut hcounted p) ((pairwise_ruleOut hp).mpr hrest),
          affectedOf_ruleOut hp]
      | false =>
        have hnone : e.affectedOf blocker waiting ps = [] := by
          refine List.filter_eq_nil_iff.mpr fun q hq hq' => ?_
          have hlone' := hiff.mp (hfirst q hq haffected (by simpa using hq'))
          rw [hstop] at hlone'
          cases hlone'
        rw [readersIn] at hstop
        rw [hstop,hnone]
        rfl
    · have hcons : e.affectedOf blocker waiting (p :: ps) = e.affectedOf blocker waiting ps :=
        List.filter_cons_of_neg (by simpa using haffected)
      rw [hcons]
      by_cases hav : (e.proms p).threadIsAvailable waiting = true
      · have hnone : e.readersIn blocker p = [] := by
          by_contra hne
          exact haffected ⟨hne,hav⟩
        rw [if_neg (by simp [hav]),blockingReaders_none hnone]
        exact ih hnodup hcounted hrest
      · rw [if_pos (by simpa using hav)]
        exact ih hnodup hcounted hrest

/-- Otherwise some affected promise is left as it is. -/
theorem blockingPromises_misses {ps : List PromiseId} (hnodup : ps.Nodup)
    (hcounted : ∀ p, (e.proms p).Counted)
    (hlone : ¬ ps.Pairwise fun p q => e.Affected blocker waiting p → e.Affected blocker waiting q →
      e.Lone blocker waiting p) :
    ∃ q ∈ ps, e.Affected blocker waiting q ∧
      (blockingPromises blocker waiting ps e).proms q = e.proms q := by
  induction ps generalizing e with
  | nil => exact absurd List.Pairwise.nil hlone
  | cons p ps ih =>
    obtain ⟨hp,hnodup⟩ := List.nodup_cons.mp hnodup
    rw [blockingPromises]
    by_cases haffected : e.Affected blocker waiting p
    · rw [if_neg (by simp [haffected.2]),
        blockingReaders_some (by simpa [readersIn] using haffected.1)]
      have hiff := lone_iff_failed (hcounted p) haffected
      have hne : ∀ q ∈ ps, q ≠ p := fun q hq heq => hp (heq ▸ hq)
      cases hstop : (e.eliminateThread p waiting).2 && (e.readersIn blocker p).length == 1 with
      | true =>
        have hrest : ¬ ps.Pairwise fun q r => e.Affected blocker waiting q →
            e.Affected blocker waiting r → e.Lone blocker waiting q := by
          intro hrest
          exact hlone (List.pairwise_cons.mpr ⟨fun _ _ _ _ => hiff.mpr hstop,hrest⟩)
        rw [readersIn] at hstop
        rw [hstop]
        simp only [Bool.not_true]
        obtain ⟨q,hq,hqa,hsame⟩ := ih hnodup (Counted.ruleOut hcounted p)
          ((pairwise_ruleOut hp).not.mpr hrest)
        have hproms := ruleOut_of_ne waiting e (hne q hq)
        exact ⟨q,List.mem_cons_of_mem p hq,(affected_congr hproms rfl).mp hqa,hsame.trans hproms⟩
      | false =>
        have hother : ∃ q ∈ ps, e.Affected blocker waiting q := by
          by_contra hnone
          refine hlone (List.pairwise_cons.mpr ⟨fun q hq _ hqa => absurd ⟨q,hq,hqa⟩ hnone,?_⟩)
          exact List.pairwise_of_forall_mem_list fun q hq _ _ hqa => absurd ⟨q,hq,hqa⟩ hnone
        obtain ⟨q,hq,hqa⟩ := hother
        rw [readersIn] at hstop
        rw [hstop]
        exact ⟨q,List.mem_cons_of_mem p hq,hqa,ruleOut_of_ne waiting e (hne q hq)⟩
    · have hrest : ¬ ps.Pairwise fun q r => e.Affected blocker waiting q →
          e.Affected blocker waiting r → e.Lone blocker waiting q := by
        intro hrest
        exact hlone (List.pairwise_cons.mpr ⟨fun _ _ hpa => absurd hpa haffected,hrest⟩)
      obtain ⟨q,hq,hqa,hsame⟩ := ih hnodup hcounted hrest
      refine ⟨q,List.mem_cons_of_mem p hq,hqa,?_⟩
      by_cases hav : (e.proms p).threadIsAvailable waiting = true
      · have hnone : e.readersIn blocker p = [] := by
          by_contra hne
          exact haffected ⟨hne,hav⟩
        rw [if_neg (by simp [hav]),blockingReaders_none hnone]
        exact hsame
      · rw [if_pos (by simpa using hav)]
        exact hsame

/-! ### Ruling out several promises -/

theorem foldl_ruleOut_proms {ps : List PromiseId} (hnodup : ps.Nodup) (q : PromiseId) :
    (ps.foldl (ruleOut waiting) e).proms q =
      if q ∈ ps then ((e.proms q).eliminateThread waiting).1 else e.proms q := by
  induction ps generalizing e with
  | nil => simp
  | cons p ps ih =>
    obtain ⟨hp,hnodup⟩ := List.nodup_cons.mp hnodup
    rw [List.foldl_cons,ih hnodup]
    by_cases hq : q = p
    · subst hq
      simp [hp,ruleOut_self]
    · simp [hq,ruleOut_of_ne waiting e hq]

theorem foldl_ruleOut_failed {ps : List PromiseId} (hnodup : ps.Nodup) :
    (ps.foldl (ruleOut waiting) e).failedPromise = true ↔ e.failedPromise = true ∨
      ∃ p ∈ ps, ((e.proms p).eliminateThread waiting).2 = true := by
  induction ps generalizing e with
  | nil => simp
  | cons p ps ih =>
    obtain ⟨hp,hnodup⟩ := List.nodup_cons.mp hnodup
    have hsame : (∃ q ∈ ps, (((ruleOut waiting e p).proms q).eliminateThread waiting).2 = true) ↔
        ∃ q ∈ ps, ((e.proms q).eliminateThread waiting).2 = true := by
      refine exists_congr fun q => and_congr_right fun hq => ?_
      have hne : q ≠ p := fun heq => hp (heq ▸ hq)
      rw [ruleOut_of_ne waiting e hne]
    rw [List.foldl_cons,ih hnodup,hsame]
    simp [ruleOut,eliminateThread,or_assoc]

theorem foldl_ruleOut_exact {ps : List PromiseId} (hvalid : e.PromisesValid)
    (hps : ps.Nodup) (hmem : ∀ p, p ∈ ps ↔ p ∈ e.promises ∧ e.Affected blocker waiting p) :
    e.BlockingExact blocker waiting (ps.foldl (ruleOut waiting) e) where
  unavailable p hp hreaders := by
    rw [foldl_ruleOut_proms hps]
    split
    · simp [Promise.available_eliminateThread]
    · rename_i hp'
      rw [hmem] at hp'
      by_contra hav
      exact hp' ⟨hp,hreaders,by simpa using hav⟩
  otherPromise p hp := by
    rw [foldl_ruleOut_proms hps,if_neg]
    rw [hmem]
    rintro ⟨hp₁,hp₂,_⟩
    exact hp.elim (fun h => h hp₁) hp₂
  otherThread p u hu := by
    rw [foldl_ruleOut_proms hps]
    split
    · simp [Promise.available_eliminateThread,hu]
    · rfl
  failed := by
    rw [foldl_ruleOut_failed hps]
    refine or_congr_right ⟨?_,?_⟩
    · rintro ⟨p,hp,hfail⟩
      obtain ⟨hav,hnone⟩ := ((hvalid.counted p).eliminateThread_failed waiting).mp hfail
      refine ⟨p,((hmem p).mp hp).1,⟨waiting,hav⟩,fun u => ?_⟩
      rw [foldl_ruleOut_proms hps,if_pos hp]
      exact hnone u
    · rintro ⟨p,_,⟨u,hu⟩,hnone⟩
      have hp : p ∈ ps := by
        by_contra hp
        have hu' := hnone u
        rw [foldl_ruleOut_proms hps,if_neg hp,hu] at hu'
        cases hu'
      refine ⟨p,hp,((hvalid.counted p).eliminateThread_failed waiting).mpr
        ⟨((hmem p).mp hp).2.2,fun v => ?_⟩⟩
      have hv := hnone v
      rwa [foldl_ruleOut_proms hps,if_pos hp] at hv

end Execution

namespace Config

open Execution

variable {params : ExecutionParams} {c : Config}

/-- The function does what it should unless an affected promise that is not lone comes before
another affected one. -/
theorem threadBlocking_exact_iff (h : Reachable params c) (blocker waiting : ThreadId) :
    c.exec.BlockingExact blocker waiting (c.exec.threadBlockingCheckPromises blocker waiting) ↔
      c.exec.promises.Pairwise fun p q => c.exec.Affected blocker waiting p →
        c.exec.Affected blocker waiting q → c.exec.Lone blocker waiting p := by
  classical
  have hvalid := h.promisesValid
  unfold threadBlockingCheckPromises
  constructor
  · intro hexact
    by_contra hlone
    obtain ⟨q,hq,⟨hreaders,hav⟩,hsame⟩ :=
      blockingPromises_misses hvalid.nodup hvalid.counted hlone
    have hgone := hexact.unavailable q hq hreaders
    rw [hsame,hav] at hgone
    cases hgone
  · intro hlone
    rw [blockingPromises_all hvalid.nodup hvalid.counted hlone]
    refine foldl_ruleOut_exact hvalid (hvalid.nodup.filter _) fun p => ?_
    simp [affectedOf]

open Input in
/-- The second thread reads from two promises, which only the third thread can keep. -/
def onceEach : List Input :=
  [ofThread .threadStart 1,go 1 {},ofObject .threadCreate 100,go 1 {},ofObject .threadCreate 101,
    ofThread .threadStart 2,go 2 {},load .relaxed 10,go 1 {},ofThread .threadJoin 2,
    ofThread .threadStart 3,go 3 {},store .relaxed 12 1,
    .takeStep 2 false { readFrom := .future ⟨5,100,3⟩ },load .relaxed 11,
    .takeStep 2 false { readFrom := .future ⟨5,100,3⟩ },store .relaxed 13 1,go 3 {}]

/-- The third thread joins the second one, and is ruled out for both promises. -/
theorem threadBlocking_exact_onceEach : ∃ c, Reachable {} c ∧ c.phase = .detect 3 ∧
    c.exec.threadWaitingOn 3 = some 2 ∧ c.exec.promises = [0,1] ∧
    c.exec.Affected 2 3 0 ∧ c.exec.Affected 2 3 1 ∧
    c.exec.BlockingExact 2 3 (c.exec.threadBlockingCheckPromises 2 3) := by
  obtain ⟨c,hc,hjoin⟩ := exists_play {} onceEach
    (fun c => (c.step {} (.ofThread .threadJoin 2)).any fun c =>
      c.phase = .detect 3 ∧ c.exec.threadWaitingOn 3 = some 2 ∧ c.exec.promises = [0,1] ∧
        (c.exec.readersIn 2 0).length = 1 ∧ c.exec.readersIn 2 1 ≠ [] ∧
        (c.exec.proms 0).availableThread = [false,false,false,true] ∧
        (c.exec.proms 1).threadIsAvailable 3 = true)
    (by decide +kernel)
  cases hstep : c.step {} (.ofThread .threadJoin 2) with
  | none => simp [hstep] at hjoin
  | some c' =>
    rw [hstep] at hjoin
    obtain ⟨hphase,hwaits,hproms,hone,hreaders,hav₀,hav₁⟩ := of_decide_eq_true hjoin
    have hlast : ∀ u, (c'.exec.proms 0).threadIsAvailable u = true → u = 3 := by
      unfold Promise.threadIsAvailable
      rw [hav₀]
      intro u hu
      match u,hu with
      | 3,_ => rfl
    have haffected : c'.exec.Affected 2 3 0 := by
      constructor
      · intro hnil
        rw [hnil] at hone
        cases hone
      · unfold Promise.threadIsAvailable
        rw [hav₀]
        rfl
    have hlone : c'.exec.Lone 2 3 0 := ⟨hlast,hone⟩
    refine ⟨c',hc.step hstep,hphase,hwaits,hproms,haffected,⟨hreaders,hav₁⟩,
      (threadBlocking_exact_iff (hc.step hstep) 2 3).mpr ?_⟩
    rw [hproms]
    simp [hlone]

open Input in
/-- The second thread reads twice from one promise and once from another one, and the third thread
could keep both. -/
def twoPromises : List Input :=
  [ofThread .threadStart 1,go 1 {},ofObject .threadCreate 100,go 1 {},ofObject .threadCreate 101,
    ofThread .threadStart 2,go 2 {},load .relaxed 10,go 1 {},ofThread .threadJoin 2,
    ofThread .threadStart 3,go 3 {},store .relaxed 12 1,
    .takeStep 2 false { readFrom := .future ⟨5,100,3⟩ },load .relaxed 10,
    go 2 { readFrom := .promise 0 },load .relaxed 11,
    .takeStep 2 false { readFrom := .future ⟨5,100,3⟩ },store .relaxed 13 1,go 3 {}]

/-- The third thread joins the second one, and still counts for the second promise. -/
theorem twoPromises_not_exact : ∃ c, Reachable {} c ∧ c.phase = .detect 3 ∧
    c.exec.enabled 3 = true ∧ c.exec.threadWaitingOn 3 = some 2 ∧
    ¬ c.exec.BlockingExact 2 3 (c.exec.threadBlockingCheckPromises 2 3) := by
  obtain ⟨c,hc,hjoin⟩ := exists_play {} twoPromises
    (fun c => (c.step {} (.ofThread .threadJoin 2)).any fun c =>
      c.phase = .detect 3 ∧ c.exec.enabled 3 = true ∧ c.exec.threadWaitingOn 3 = some 2 ∧
        1 ∈ c.exec.promises ∧ c.exec.readersIn 2 1 ≠ [] ∧
        ((c.exec.threadBlockingCheckPromises 2 3).proms 1).threadIsAvailable 3 = true)
    (by decide +kernel)
  cases hstep : c.step {} (.ofThread .threadJoin 2) with
  | none => simp [hstep] at hjoin
  | some c' =>
    rw [hstep] at hjoin
    obtain ⟨hphase,henabled,hwaits,hp,hreaders,hav⟩ := of_decide_eq_true hjoin
    refine ⟨c',hc.step hstep,hphase,henabled,hwaits,fun hexact => ?_⟩
    rw [hexact.unavailable 1 hp hreaders] at hav
    cases hav

end Config
end CdsChecker
