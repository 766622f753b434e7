import CdsChecker.Validity

/-! Deadlock detection: the walk of `is_waiting_on` along the threads that wait for each other. -/
namespace CdsChecker

open Relation OrderGraph

namespace Execution

/-- A pending join waits for the joined thread, a pending lock for the holder. -/
def WaitsFor (e : Execution) (s t : ThreadId) : Prop := e.threadWaitingOn s = some t

/-- The walk over at most `n` threads, the first of which is given. -/
theorem isWaitingOnLoop_some (e : Execution) (t w : ThreadId) (n : ℕ) :
    e.isWaitingOnLoop t n (some w) =
      match walk e.threadWaitingOn t n w with
      | none => .error .diverges
      | some x => .ok (x == t) := by
  induction n generalizing w with
  | zero => rfl
  | succ n ih =>
    rw [isWaitingOnLoop,walk]
    by_cases hw : w = t
    · simp [hw]
    · rw [if_neg hw,if_neg hw]
      cases hnext : e.threadWaitingOn w with
      | none =>
        have hne : (w == t) = false := by simpa using hw
        cases n <;> simp [isWaitingOnLoop,hne]
      | some m => exact ih m

theorem Valid.waitingOn_lt {e : Execution} (h : e.Valid) {s t : ThreadId} (hst : e.WaitsFor s t) :
    t < e.getNumThreads := by
  obtain ⟨th,hth,hw⟩ := Option.bind_eq_some_iff.mp hst
  unfold waitingOn at hw
  split at hw
  · cases hw
  · rename_i act hact
    split at hw
    · exact (h.pending s th act hth hact).operand t hw
    · split at hw
      · exact h.holder _ t hw
      · cases hw

/-- More steps than there are threads are of no use. -/
theorem Valid.isWaitingOn_eq_ok {e : Execution} (h : e.Valid) {s t : ThreadId} {b : Bool} :
    e.isWaitingOn s t = .ok b ↔ ∃ n, e.isWaitingOnLoop t n (e.threadWaitingOn s) = .ok b := by
  refine ⟨fun hok => ⟨_,hok⟩,?_⟩
  rintro ⟨n,hn⟩
  unfold isWaitingOn
  cases hs : e.threadWaitingOn s with
  | none =>
    rw [hs] at hn
    cases n <;> exact hn
  | some w =>
    rw [hs,isWaitingOnLoop_some] at hn
    rw [isWaitingOnLoop_some]
    cases hwalk : walk e.threadWaitingOn t n w with
    | none => simp [hwalk] at hn
    | some x =>
      have hU : ∀ x ∈ Finset.range e.getNumThreads, ∀ y, e.threadWaitingOn x = some y →
          y ∈ Finset.range e.getNumThreads :=
        fun x _ y hxy => Finset.mem_range.mpr (h.waitingOn_lt hxy)
      have hw : w ∈ Finset.range e.getNumThreads := Finset.mem_range.mpr (h.waitingOn_lt hs)
      have hfuel : (Finset.range e.getNumThreads).card ≤ e.getNumThreads + 1 := by simp
      rw [(walk_eq_some_iff hU hw hfuel).mpr (chainEnd_of_walk hwalk)]
      rw [hwalk] at hn
      exact hn

/-- The walk ends with an answer iff it ends at all. -/
theorem exists_isWaitingOnLoop_iff {e : Execution} {s t : ThreadId} :
    (∃ n b, e.isWaitingOnLoop t n (e.threadWaitingOn s) = .ok b) ↔
    WalkEnds e.threadWaitingOn t s := by
  constructor
  · rintro ⟨n,b,hb⟩ w hw
    rw [hw,isWaitingOnLoop_some] at hb
    cases hwalk : walk e.threadWaitingOn t n w with
    | none => simp [hwalk] at hb
    | some x => exact ⟨x,chainEnd_of_walk hwalk⟩
  · intro hends
    cases hs : e.threadWaitingOn s with
    | none => exact ⟨0,false,rfl⟩
    | some w =>
      obtain ⟨x,hx⟩ := hends w hs
      obtain ⟨k,_,hwalk⟩ := walk_of_chainEnd hx
      refine ⟨k,x == t,?_⟩
      rw [isWaitingOnLoop_some,hwalk k le_rfl]

/-- An answer is right. -/
theorem isWaitingOnLoop_sound {e : Execution} {s t : ThreadId} {n : ℕ} {b : Bool}
    (h : e.isWaitingOnLoop t n (e.threadWaitingOn s) = .ok b) :
    b = true ↔ TransGen e.WaitsFor s t := by
  cases hs : e.threadWaitingOn s with
  | none =>
    rw [hs] at h
    obtain rfl : false = b := by cases n <;> exact Except.ok.inj h
    simp only [Bool.false_eq_true,false_iff]
    intro htrans
    obtain ⟨w,hw,_⟩ := TransGen.head'_iff.mp htrans
    cases hs.symm.trans hw
  | some w =>
    rw [hs,isWaitingOnLoop_some] at h
    cases hwalk : walk e.threadWaitingOn t n w with
    | none => simp [hwalk] at h
    | some x =>
      rw [hwalk] at h
      obtain rfl := Except.ok.inj h
      rw [beq_iff_eq,(chainEnd_of_walk hwalk).eq_stop_iff]
      constructor
      · exact fun hreach => TransGen.head' hs hreach
      · intro htrans
        obtain ⟨w',hw',hreach⟩ := TransGen.head'_iff.mp htrans
        obtain rfl := Option.some.inj (hs.symm.trans hw')
        exact hreach

/-- Two threads that wait for each other keep the walk going for ever. -/
theorem isWaitingOnLoop_diverges {e : Execution} {a b t : ThreadId} (hab : e.WaitsFor a b)
    (hba : e.WaitsFor b a) (ha : a ≠ t) (hb : b ≠ t) (n : ℕ) :
    e.isWaitingOnLoop t n (some a) = .error .diverges ∧
      e.isWaitingOnLoop t n (some b) = .error .diverges := by
  induction n with
  | zero => exact ⟨rfl,rfl⟩
  | succ n ih =>
    constructor
    · rw [isWaitingOnLoop,if_neg ha,show e.threadWaitingOn a = some b from hab]
      exact ih.2
    · rw [isWaitingOnLoop,if_neg hb,show e.threadWaitingOn b = some a from hba]
      exact ih.1

/-- `is_waiting_on` returns, and says whether the first thread waits for the second one. -/
def WaitingOnExact (e : Execution) (s t : ThreadId) : Prop :=
  ∃ b, e.isWaitingOn s t = .ok b ∧ (b = true ↔ TransGen e.WaitsFor s t)

/-- A cycle of waiting threads without the thread `t`, which can be reached without it. -/
def CycleBehind (e : Execution) (s t : ThreadId) : Prop :=
  ∃ u, ReflTransGen (fun a b => e.WaitsFor a b ∧ b ≠ t) s u ∧
    TransGen (fun a b => e.WaitsFor a b ∧ b ≠ t) u u

end Execution

namespace Config

open Execution

variable {params : ExecutionParams} {c : Config}

/-- The detection is exact unless there is a deadlock behind which the caller waits. -/
theorem isWaitingOn_exact_iff (h : Reachable params c) (s t : ThreadId) :
    c.exec.WaitingOnExact s t ↔ ¬ c.exec.CycleBehind s t := by
  have hv := h.valid.exec
  have hends : WalkEnds c.exec.threadWaitingOn t s ↔ ¬ c.exec.CycleBehind s t :=
    walkEnds_iff fun x y hxy => Finset.mem_range.mpr (hv.waitingOn_lt hxy)
  refine Iff.trans ?_ hends
  rw [← exists_isWaitingOnLoop_iff]
  constructor
  · rintro ⟨b,hb,_⟩
    exact ⟨_,b,hb⟩
  · rintro ⟨n,b,hb⟩
    exact ⟨b,hv.isWaitingOn_eq_ok.mpr ⟨n,hb⟩,isWaitingOnLoop_sound hb⟩

open Input in
/-- The second thread holds a mutex, the third one waits for it, and the first one joins the third
one. -/
def chained : List Input :=
  [ofThread .threadStart 1,go 1 {},.constructMutex 200,ofObject .threadCreate 100,go 1 {},
    ofObject .threadCreate 101,ofThread .threadStart 2,go 2 {},ofObject .atomicLock 200,go 1 {},
    ofThread .threadJoin 3,ofThread .threadStart 3,go 3 {},ofObject .atomicLock 200,go 2 {},
    store .relaxed 10 1]

theorem isWaitingOn_exact_chained : ∃ c, Reachable {} c ∧ c.exec.WaitsFor 1 3 ∧
    c.exec.WaitsFor 3 2 ∧ c.exec.threadWaitingOn 2 = none ∧ c.exec.WaitingOnExact 1 2 := by
  obtain ⟨c,hc,hwait⟩ := exists_play {} chained
    (fun c => c.exec.threadWaitingOn 1 = some 3 ∧ c.exec.threadWaitingOn 3 = some 2 ∧
      c.exec.threadWaitingOn 2 = none) (by decide +kernel)
  obtain ⟨h₁,h₃,h₂⟩ := of_decide_eq_true hwait
  have hends : WalkEnds c.exec.threadWaitingOn 2 1 := by
    intro w hw
    obtain rfl := Option.some.inj (h₁.symm.trans hw)
    exact ⟨2,.step (by decide) h₃ .stop⟩
  refine ⟨c,hc,h₁,h₃,h₂,(isWaitingOn_exact_iff hc 1 2).mpr ?_⟩
  rintro ⟨u,hreach,hcycle⟩
  exact (hends.reach hreach).not_cycle hcycle

open Input in
/-- Two threads hold a mutex each and wait for the other one's, while a promise is pending. A third
thread takes the first mutex, too. -/
def deadlocked : List Input :=
  [ofThread .threadStart 1,go 1 {},.constructMutex 200,.constructMutex 201,
    ofObject .threadCreate 100,go 1 {},ofObject .threadCreate 101,
    ofThread .threadStart 2,go 2 {},load .relaxed 10,go 1 {},ofObject .atomicLock 200,
    ofThread .threadStart 3,go 3 {},store .relaxed 11 1,
    .takeStep 2 false { readFrom := .future ⟨5,100,3⟩ },ofObject .atomicLock 201,
    go 1 {},ofObject .atomicLock 201,go 2 {},ofObject .atomicLock 200,
    go 3 {},ofObject .atomicLock 200]

/-- The third thread is checked for a deadlock that it is not part of. -/
theorem deadlocked_diverges : ∃ c, Reachable {} c ∧ c.phase = .detect 3 ∧
    (∀ n, c.exec.isWaitingOnLoop 3 n (c.exec.threadWaitingOn 3) = .error .diverges) ∧
    ¬ c.exec.WaitingOnExact 3 3 := by
  obtain ⟨c,hc,hwait⟩ := exists_play {} deadlocked
    (fun c => c.phase = .detect 3 ∧ c.exec.threadWaitingOn 3 = some 1 ∧
      c.exec.threadWaitingOn 1 = some 2 ∧ c.exec.threadWaitingOn 2 = some 1) (by decide +kernel)
  obtain ⟨hphase,h₃,h₁,h₂⟩ := of_decide_eq_true hwait
  have hloop : ∀ n, c.exec.isWaitingOnLoop 3 n (c.exec.threadWaitingOn 3) = .error .diverges := by
    intro n
    rw [h₃]
    exact (isWaitingOnLoop_diverges h₁ h₂ (by decide) (by decide) n).1
  refine ⟨c,hc,hphase,hloop,?_⟩
  rintro ⟨b,hb,_⟩
  exact absurd ((hloop _).symm.trans hb) (by simp)

end Config
end CdsChecker
