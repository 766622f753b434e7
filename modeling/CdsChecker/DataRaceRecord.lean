import CdsChecker.DataRaceExact

/-! The packed word and the full record side by side: up to accesses with clock zero, which can
never race, both stand for the same reads and the same write. -/
namespace CdsChecker
namespace DataRace

open Access

variable {α : Type}

/-! ### Live entries -/

/-- The entries that can still race. -/
def live (l : List (ThreadId × ℕ)) : List (ThreadId × ℕ) := l.filter fun x => x.2 ≠ 0

/-- The reports of races with a list of older accesses. -/
def checkAll (b : Access α) (isoldwrite : Bool) (l : List (ThreadId × ℕ)) : List (Report α) :=
  l.flatMap fun x => checkRace b x.1 x.2 isoldwrite

theorem clockMayRace_zero (cv : ClockVector) (t t' : ThreadId) :
    clockMayRace cv t 0 t' = false := by
  simp [clockMayRace]

theorem checkAll_live (b : Access α) (k : Bool) (l : List (ThreadId × ℕ)) :
    checkAll b k (live l) = checkAll b k l := by
  induction l with
  | nil => rfl
  | cons x l ih =>
    by_cases hx : x.2 = 0
    · have hnone : checkRace b x.1 x.2 k = [] := by simp [checkRace,hx,clockMayRace_zero]
      have hlive : live (x :: l) = live l := by simp [live,hx]
      rw [hlive,ih,checkAll,checkAll,List.flatMap_cons,hnone,List.nil_append]
    · have hlive : live (x :: l) = x :: live l := by simp [live,hx]
      rw [hlive,checkAll,List.flatMap_cons]
      exact congrArg _ ih

theorem filter_stays_live (b : Access α) (l : List (ThreadId × ℕ)) :
    (live l).filter (stays b) = l.filter (stays b) := by
  rw [live,List.filter_filter]
  apply List.filter_congr
  intro x _
  by_cases hx : x.2 = 0
  · simp [stays,hx,clockMayRace_zero]
  · simp [hx]

theorem live_append (l l' : List (ThreadId × ℕ)) : live (l ++ l') = live l ++ live l' :=
  List.filter_append _ _

/-- The two fields of a packed word. -/
def wordRead (w : ℕ) : ThreadId × ℕ := (rdThreadId w,readVector w)
def wordWrite (w : ℕ) : ThreadId × ℕ := (wrThreadId w,writeVector w)

def recordWrite (record : RaceRecord) : ThreadId × ℕ := (record.writeThread,record.writeClock)

def shadowReads : Shadow → List (ThreadId × ℕ)
  | .word w => [wordRead w]
  | .record record => recordedReads record

def shadowWrite : Shadow → ThreadId × ℕ
  | .word w => wordWrite w
  | .record record => recordWrite record

/-- The two cells hold the same live accesses. -/
structure SameLive (s s' : Shadow) : Prop where
  reads : live (shadowReads s) = live (shadowReads s')
  write : live [shadowWrite s] = live [shadowWrite s']

theorem SameLive.trans {s₁ s₂ s₃ : Shadow} (h : SameLive s₁ s₂) (h' : SameLive s₂ s₃) :
    SameLive s₁ s₃ := ⟨h.reads.trans h'.reads,h.write.trans h'.write⟩

theorem SameLive.symm {s s' : Shadow} (h : SameLive s s') : SameLive s' s :=
  ⟨h.reads.symm,h.write.symm⟩

/-- The races of an access with a cell, as the full check finds them. -/
def cellRaces (s : Shadow) (b : Access α) : List (Report α) :=
  (if b.isWrite then checkAll b false (shadowReads s) else []) ++ checkAll b true [shadowWrite s]

theorem SameLive.cellRaces {s s' : Shadow} (h : SameLive s s') (b : Access α) :
    cellRaces s b = cellRaces s' b := by
  unfold DataRace.cellRaces
  rw [← checkAll_live b false (shadowReads s),← checkAll_live b true [shadowWrite s],h.reads,
    h.write,checkAll_live,checkAll_live]

/-- What a cell holds after an access. -/
structure After (s : Shadow) (b : Access α) (s' : Shadow) : Prop where
  reads : live (shadowReads s') =
    if b.isWrite then [] else (shadowReads s).filter (stays b) ++ live [entry b]
  write : live [shadowWrite s'] = live [if b.isWrite then entry b else shadowWrite s]

/-- Cells that hold the same still do so after the same access. -/
theorem SameLive.after {s₁ s₂ s₁' s₂' : Shadow} {b : Access α} (h : SameLive s₁ s₂)
    (h₁ : After s₁ b s₁') (h₂ : After s₂ b s₂') : SameLive s₁' s₂' := by
  refine ⟨?_,?_⟩
  · rw [h₁.reads,h₂.reads,← filter_stays_live b (shadowReads s₁),h.reads,filter_stays_live]
  · rw [h₁.write,h₂.write]
    split
    · rfl
    · exact h.write

/-! ### Full records -/

def fullRaceCheck (record : RaceRecord) (b : Access α) : Result (RaceRecord × List (Report α)) :=
  if b.isWrite then fullRaceCheckWrite record b else fullRaceCheckRead record b

theorem live_stays (b : Access α) (l : List (ThreadId × ℕ)) :
    live (l.filter (stays b)) = l.filter (stays b) := by
  rw [live,List.filter_filter]
  apply List.filter_congr
  intro x _
  by_cases hx : x.2 = 0
  · simp [stays,hx,clockMayRace_zero]
  · simp [hx]

theorem fullRaceCheck_write {record : RaceRecord} (h : Allocated record) {b : Access α}
    (hb : b.isWrite = true) :
    ∃ record', fullRaceCheck record b = .ok (record',cellRaces (.record record) b) ∧
      Allocated record' ∧ record'.capacity = record.capacity ∧
      After (.record record) b (.record record') := by
  refine ⟨{ record with numReads := 0,writeThread := b.thread,writeClock := b.clock },?_,
    ⟨h.length,Nat.zero_le _⟩,rfl,?_,?_⟩
  · rw [fullRaceCheck,if_pos hb,fullRaceCheckWrite_eq h b,cellRaces,if_pos hb,checkAll,
      checkAll,List.flatMap_singleton]
    rfl
  · simp [shadowReads,recordedReads,live,hb]
  · simp [shadowWrite,recordWrite,entry,hb]

theorem fullRaceCheck_read {record : RaceRecord} (h : Allocated record)
    (hcap : record.capacity ≠ 0) {b : Access α} (hb : b.isWrite = false) :
    ∃ record', fullRaceCheck record b = .ok (record',cellRaces (.record record) b) ∧
      Allocated record' ∧ record'.capacity ≠ 0 ∧ After (.record record) b (.record record') := by
  obtain ⟨record',hrun,halloc,hcap',hreads,hthread,hclock⟩ := fullRaceCheckRead_ok h hcap b
  refine ⟨record',?_,halloc,hcap',?_,?_⟩
  · rw [fullRaceCheck,if_neg (by simp [hb]),hrun,cellRaces,if_neg (by simp [hb]),checkAll,
      List.flatMap_singleton,List.nil_append]
    rfl
  · show live (recordedReads record') = _
    rw [hreads,live_append,live_stays,hb]
    rfl
  · show live [(record'.writeThread,record'.writeClock)] = _
    rw [hthread,hclock,hb]
    rfl

/-- With arrays every access goes through. -/
theorem fullRaceCheck_ok {record : RaceRecord} (h : Allocated record) (hcap : record.capacity ≠ 0)
    (b : Access α) :
    ∃ record', fullRaceCheck record b = .ok (record',cellRaces (.record record) b) ∧
      Allocated record' ∧ record'.capacity ≠ 0 ∧ After (.record record) b (.record record') := by
  cases hb : b.isWrite with
  | true =>
    obtain ⟨record',hrun,halloc,hcap',hafter⟩ := fullRaceCheck_write h hb
    exact ⟨record',hrun,halloc,by rw [hcap']; exact hcap,hafter⟩
  | false => exact fullRaceCheck_read h hcap hb

theorem fullRaceCheck_fault {record : RaceRecord} (h : Allocated record)
    (hcap : record.capacity = 0) {b : Access α} (hb : b.isWrite = false) :
    fullRaceCheck record b = .error .outOfBounds := by
  rw [fullRaceCheck,if_neg (by simp [hb])]
  exact fullRaceCheckRead_fault h b hcap

theorem raceCheck_record (record : RaceRecord) (b : Access α) :
    raceCheck (.record record) b =
      (fullRaceCheck record b).map fun r => (Shadow.record r.1,r.2) := by
  cases hb : b.isWrite with
  | true =>
    simp only [raceCheck,raceCheckWrite,fullRaceCheck,hb,if_true]
    cases fullRaceCheckWrite record b <;> rfl
  | false =>
    simp only [raceCheck,raceCheckRead,fullRaceCheck,hb,Bool.false_eq_true,if_false]
    cases fullRaceCheckRead record b <;> rfl

/-! ### Packed words -/

theorem expandRecord_allocated (w : ℕ) :
    Allocated (expandRecord w) ∧ SameLive (.word w) (.record (expandRecord w)) ∧
      ((expandRecord w).capacity = 0 ↔ readVector w = 0) := by
  by_cases hclock : readVector w = 0
  · have hexp : expandRecord w = ⟨[],0,0,wrThreadId w,writeVector w⟩ := by
      simp [expandRecord,hclock]
    rw [hexp]
    refine ⟨⟨rfl,le_rfl⟩,⟨?_,rfl⟩,by simp [hclock]⟩
    simp [shadowReads,wordRead,recordedReads,live,hclock]
  · have hexp : expandRecord w = ⟨(rdThreadId w,readVector w) ::
        List.replicate (initCapacity - 1) (0,0),initCapacity,1,wrThreadId w,
        writeVector w⟩ := by
      simp [expandRecord,hclock]
    rw [hexp]
    refine ⟨⟨by simp [initCapacity],by simp [initCapacity]⟩,⟨?_,rfl⟩,?_⟩
    · simp [shadowReads,wordRead,recordedReads]
    · simp [initCapacity,hclock]

/-- A clock that is too large sends the access to the record made from the word. -/
theorem raceCheck_large {b : Access α} (hlarge : tooLarge b = true) (w : ℕ) :
    raceCheck (.word w) b = raceCheck (.record (expandRecord w)) b := by
  unfold raceCheck raceCheckWrite raceCheckRead
  simp only [hlarge,if_true]

/-- An access that stays packed reports what the full check would. -/
theorem raceCheck_packed {b : Access α} (hsmall : tooLarge b = false) {w : ℕ}
    (hsub : b.isWrite = true ∨ stays b (wordRead w) = false) :
    ∃ w', raceCheck (.word w) b = .ok (.word w',cellRaces (.word w) b) ∧
      After (.word w) b (.word w') := by
  obtain ⟨ht,hc⟩ := small_bounds hsmall
  cases hb : b.isWrite with
  | true =>
    have h8 : 0 < 2 ^ 8 := by norm_num
    have h23 : 0 < 2 ^ 23 := by norm_num
    refine ⟨encodeOp 0 0 b.thread b.clock,?_,?_,?_⟩
    · rw [raceCheck,if_pos hb,raceCheckWrite,hsmall,cellRaces,if_pos hb,checkAll,checkAll,
        shadowReads,shadowWrite,List.flatMap_singleton,List.flatMap_singleton]
      rfl
    · simp [shadowReads,wordRead,live,hb,readVector_encodeOp h8 h23 ht hc]
    · simp [shadowWrite,wordWrite,hb,entry,wrThreadId_encodeOp h8 h23 ht hc,
        writeVector_encodeOp h8 h23 ht hc]
  | false =>
    have hwt := wrThreadId_lt w
    have hwc := writeVector_lt w
    have hno : stays b (wordRead w) = false := by simpa [hb] using hsub
    have hmay : clockMayRace b.cv b.thread (readVector w) (rdThreadId w) = false := hno
    refine ⟨encodeOp b.thread b.clock (wrThreadId w) (writeVector w),?_,?_,?_⟩
    · rw [raceCheck,if_neg (by simp [hb]),raceCheckRead,hsmall]
      simp only [hmay,Bool.false_eq_true,if_false]
      rw [cellRaces,if_neg (by simp [hb]),checkAll,shadowWrite,List.flatMap_singleton,
        List.nil_append]
      rfl
    · show live [wordRead _] = _
      rw [wordRead,rdThreadId_encodeOp ht hc hwt hwc,readVector_encodeOp ht hc hwt hwc,hb,
        shadowReads,List.filter_singleton,hno]
      rfl
    · simp [shadowWrite,wordWrite,hb,wrThreadId_encodeOp ht hc hwt hwc,
        writeVector_encodeOp ht hc hwt hwc]

/-- A read that does not subsume the packed one is checked against the last write twice. -/
theorem raceCheck_unpack {b : Access α} (hsmall : tooLarge b = false) (hb : b.isWrite = false)
    {w : ℕ} (hstays : stays b (wordRead w) = true) :
    ∃ record', raceCheck (.word w) b =
        .ok (.record record',cellRaces (.word w) b ++ cellRaces (.word w) b) ∧
      Allocated record' ∧ record'.capacity ≠ 0 ∧ After (.word w) b (.record record') := by
  obtain ⟨halloc,hsame,hcap⟩ := expandRecord_allocated w
  have hmay : clockMayRace b.cv b.thread (readVector w) (rdThreadId w) = true := hstays
  have hne : (expandRecord w).capacity ≠ 0 := by
    intro hzero
    rw [hcap.mp hzero,clockMayRace_zero] at hmay
    cases hmay
  obtain ⟨record',hrun,halloc',hcap',hafter⟩ := fullRaceCheck_read halloc hne hb
  have hraces := hsame.cellRaces b
  refine ⟨record',?_,halloc',hcap',?_⟩
  · have hread : fullRaceCheckRead (expandRecord w) b =
        .ok (record',cellRaces (.word w) b) := by
      rw [hraces,← hrun,fullRaceCheck,if_neg (by simp [hb])]
    have hwrite : checkRace b (wrThreadId w) (writeVector w) true = cellRaces (.word w) b := by
      rw [cellRaces,if_neg (by simp [hb]),checkAll,shadowWrite,List.flatMap_singleton,
        List.nil_append]
      rfl
    rw [raceCheck,if_neg (by simp [hb]),raceCheckRead,hsmall]
    simp only [hmay,if_true,Bool.false_eq_true,if_false,hread,hwrite]
    rfl
  · refine ⟨?_,?_⟩
    · rw [hafter.reads,← filter_stays_live b (shadowReads (.word w)),hsame.reads,
        filter_stays_live]
    · rw [hafter.write,hb]
      exact hsame.write.symm

end DataRace
end CdsChecker
