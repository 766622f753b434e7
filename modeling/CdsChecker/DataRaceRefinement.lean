import CdsChecker.DataRace
import CdsChecker.Library.RaceFrontier

/-! A shadow cell stands for a frontier of accesses: the packed word and the full record keep
the last write and the reads that no later read follows. -/
namespace CdsChecker
namespace DataRace

open RaceFrontier

variable {α : Type}

/-! ### Packing -/

theorem or_shiftLeft {x y i : ℕ} (h : y < 2 ^ i) : y ||| x <<< i = x * 2 ^ i + y := by
  rw [Nat.or_comm,← Nat.shiftLeft_add_eq_or_of_lt h,Nat.shiftLeft_eq]

/-- The fields of a packed word do not overlap. -/
theorem encodeOp_eq {rt rc wt wc : ℕ} (hrt : rt < 2 ^ 8) (hrc : rc < 2 ^ 23) (hwt : wt < 2 ^ 8)
    (hwc : wc < 2 ^ 23) :
    encodeOp rt rc wt wc = wc * 2 ^ 40 + (wt * 2 ^ 32 + (rc * 2 ^ 9 + (rt * 2 ^ 1 + 1))) := by
  have hmod : ∀ {x i k : ℕ}, x * 2 ^ i < 2 ^ k → x <<< i % 2 ^ k = x <<< i := by
    intro x i k h
    rw [Nat.mod_eq_of_lt]
    rwa [Nat.shiftLeft_eq]
  have h₁ : 1 ||| rt <<< 1 = rt * 2 ^ 1 + 1 := or_shiftLeft (by norm_num)
  have h₂ : (rt * 2 ^ 1 + 1) ||| rc <<< 9 = _ := or_shiftLeft (by omega)
  have h₃ : (rc * 2 ^ 9 + (rt * 2 ^ 1 + 1)) ||| wt <<< 32 = _ := or_shiftLeft (by omega)
  have h₄ : (wt * 2 ^ 32 + (rc * 2 ^ 9 + (rt * 2 ^ 1 + 1))) ||| wc <<< 40 = _ :=
    or_shiftLeft (by omega)
  rw [encodeOp,hmod (by omega),hmod (by omega),hmod (by omega),hmod (by omega),h₁,h₂,h₃,h₄]

theorem field_eq (x i k : ℕ) : (x >>> i) &&& (2 ^ k - 1) = x / 2 ^ i % 2 ^ k := by
  rw [Nat.and_two_pow_sub_one_eq_mod,Nat.shiftRight_eq_div_pow]

section Fields

variable {rt rc wt wc : ℕ} (hrt : rt < 2 ^ 8) (hrc : rc < 2 ^ 23) (hwt : wt < 2 ^ 8)
  (hwc : wc < 2 ^ 23)
include hrt hrc hwt hwc

theorem rdThreadId_encodeOp : rdThreadId (encodeOp rt rc wt wc) = rt := by
  have hf := field_eq (encodeOp rt rc wt wc) 1 8
  rw [encodeOp_eq hrt hrc hwt hwc] at hf ⊢
  exact hf.trans (by omega)

theorem readVector_encodeOp : readVector (encodeOp rt rc wt wc) = rc := by
  have hf := field_eq (encodeOp rt rc wt wc) 9 23
  rw [encodeOp_eq hrt hrc hwt hwc] at hf ⊢
  exact hf.trans (by omega)

theorem wrThreadId_encodeOp : wrThreadId (encodeOp rt rc wt wc) = wt := by
  have hf := field_eq (encodeOp rt rc wt wc) 32 8
  rw [encodeOp_eq hrt hrc hwt hwc] at hf ⊢
  exact hf.trans (by omega)

theorem writeVector_encodeOp : writeVector (encodeOp rt rc wt wc) = wc := by
  have hf := field_eq (encodeOp rt rc wt wc) 40 23
  rw [encodeOp_eq hrt hrc hwt hwc] at hf ⊢
  exact hf.trans (by omega)

end Fields

theorem field_lt (x i k : ℕ) : (x >>> i) &&& (2 ^ k - 1) < 2 ^ k := by
  rw [field_eq]
  exact Nat.mod_lt _ (Nat.two_pow_pos k)

theorem wrThreadId_lt (x : ℕ) : wrThreadId x < 2 ^ 8 := field_lt x 32 8
theorem writeVector_lt (x : ℕ) : writeVector x < 2 ^ 23 := field_lt x 40 23

/-! ### Ordered accesses -/

namespace Access

/-- The clock of the accessing thread's last action. -/
def clock (a : Access α) : ℕ := a.cv.getClock a.thread

/-- An earlier access is ordered before a later one: same thread, or the later one's vector
knows a newer clock of its thread. -/
def Before (a b : Access α) : Prop := a.thread = b.thread ∨ a.clock < b.cv.getClock a.thread

instance : DecidableRel (@Before α) := fun a b =>
  inferInstanceAs (Decidable (a.thread = b.thread ∨ a.clock < b.cv.getClock a.thread))

end Access

open Access

theorem clockMayRace_iff {a b : Access α} (ha : 0 < a.clock) :
    clockMayRace b.cv b.thread a.clock a.thread = true ↔ ¬ Before a b := by
  have hne : a.clock ≠ 0 := ha.ne'
  simp only [clockMayRace,Bool.and_eq_true,decide_eq_true_eq,Before,not_or,not_lt]
  tauto

theorem small_bounds {a : Access α} (h : tooLarge a = false) :
    a.thread < 2 ^ 8 ∧ a.clock < 2 ^ 23 := by
  have h' : ¬ a.thread > maxThreadId ∧ ¬ a.cv.getClock a.thread > maxWriteVector := by
    simpa [tooLarge] using h
  have h₁ : a.thread ≤ 254 := not_lt.mp h'.1
  have h₂ : a.clock ≤ 0x7ffffe := not_lt.mp h'.2
  exact ⟨lt_of_le_of_lt h₁ (by norm_num),lt_of_le_of_lt h₂ (by norm_num)⟩

/-! ### Allocated arrays -/

/-- The arrays of a record have the size it states, and the recorded reads fit in. -/
structure Allocated (record : RaceRecord) : Prop where
  length : record.slots.length = record.capacity
  numReads : record.numReads ≤ record.capacity

def recordedReads (record : RaceRecord) : List (ThreadId × ℕ) :=
  record.slots.take record.numReads

/-! ### What a cell stands for -/

def entry (a : Access α) : ThreadId × ℕ := (a.thread,a.clock)

/-- The write fields of a cell. -/
def HoldsWrite (thread : ThreadId) (clock : ℕ) (f : Frontier (Access α)) : Prop :=
  match f.write with
  | none => clock = 0
  | some w => thread = w.thread ∧ clock = w.clock

/-- The read fields of a packed word. -/
def HoldsRead (thread : ThreadId) (clock : ℕ) (f : Frontier (Access α)) : Prop :=
  (f.reads = [] ∧ clock = 0) ∨ ∃ r, f.reads = [r] ∧ thread = r.thread ∧ clock = r.clock

structure RecordHolds (record : RaceRecord) (f : Frontier (Access α)) : Prop where
  reads : record.slots.take record.numReads = f.reads.map entry
  length : record.slots.length = record.capacity
  numReads : record.numReads ≤ record.capacity
  write : HoldsWrite record.writeThread record.writeClock f

def Holds : Shadow → Frontier (Access α) → Prop
  | .word w,f => HoldsRead (rdThreadId w) (readVector w) f ∧
      HoldsWrite (wrThreadId w) (writeVector w) f
  | .record record,f => RecordHolds record f

/-- The accesses of a frontier have clocks, and are of the kind they are kept as. -/
structure Proper (f : Frontier (Access α)) : Prop where
  reads : ∀ r ∈ f.reads, r.isWrite = false ∧ 0 < r.clock
  write : ∀ w, f.write = some w → w.isWrite = true ∧ 0 < w.clock

/-- The report the detector makes of a conflict. -/
def report (p : Access α × Access α) : Report α :=
  ⟨p.1.thread,p.1.clock,p.1.isWrite,p.2.action,p.2.isWrite⟩

abbrev kind (a : Access α) : Bool := a.isWrite

theorem Proper.step {f : Frontier (Access α)} (h : Proper f) {b : Access α} (hb : 0 < b.clock) :
    Proper (step Before kind f b) := by
  cases hw : b.isWrite with
  | true =>
    refine ⟨by simp [RaceFrontier.step,kind,hw],fun w hw' => ?_⟩
    obtain rfl : b = w := by simpa [RaceFrontier.step,kind,hw] using hw'
    exact ⟨hw,hb⟩
  | false =>
    refine ⟨fun r hr => ?_,fun w hw' => h.write w (by simpa [RaceFrontier.step,kind,hw] using hw')⟩
    simp only [RaceFrontier.step,kind,hw,Bool.false_eq_true,if_false,List.mem_append,
      List.mem_filter,
      List.mem_singleton] at hr
    rcases hr with ⟨hr,_⟩ | rfl
    · exact h.reads r hr
    · exact ⟨hw,hb⟩

theorem mem_checkRace {a b : Access α} (ha : 0 < a.clock) {rep : Report α} :
    rep ∈ checkRace b a.thread a.clock a.isWrite ↔ ¬ Before a b ∧ rep = report (a,b) := by
  have hiff := clockMayRace_iff (b := b) ha
  unfold checkRace
  split
  · rename_i h
    simp [hiff.mp h,report]
  · rename_i h
    simp only [List.not_mem_nil,false_iff,not_and]
    intro hnot
    exact (h (hiff.mpr hnot)).elim

/-- The check against the last write reports its conflict. -/
theorem mem_checkWrite {f : Frontier (Access α)} (h : Proper f) {thread : ThreadId} {clock : ℕ}
    (hw : HoldsWrite thread clock f) {b : Access α} {rep : Report α} :
    rep ∈ checkRace b thread clock true ↔
      ∃ w, f.write = some w ∧ ¬ Before w b ∧ rep = report (w,b) := by
  unfold HoldsWrite at hw
  cases hf : f.write with
  | none =>
    rw [hf] at hw
    obtain rfl : clock = 0 := hw
    simp [checkRace,clockMayRace]
  | some w =>
    rw [hf] at hw
    obtain ⟨rfl,rfl⟩ := hw
    obtain ⟨hkind,hpos⟩ := h.write w hf
    rw [← hkind,mem_checkRace hpos]
    simp

/-- The check against the read of a packed word. -/
theorem mem_checkRead {f : Frontier (Access α)} (h : Proper f) {thread : ThreadId} {clock : ℕ}
    (hr : HoldsRead thread clock f) {b : Access α} {rep : Report α} :
    rep ∈ checkRace b thread clock false ↔
      ∃ r ∈ f.reads, ¬ Before r b ∧ rep = report (r,b) := by
  rcases hr with ⟨hnil,rfl⟩ | ⟨r,hone,rfl,rfl⟩
  · simp [checkRace,clockMayRace,hnil]
  · obtain ⟨hkind,hpos⟩ := h.reads r (by simp [hone])
    rw [← hkind,mem_checkRace hpos]
    simp [hone]

/-- The races of an access, as the checks find them. -/
theorem mem_races_report {f : Frontier (Access α)} {b : Access α} {rep : Report α} :
    (∃ p ∈ races Before kind f b, rep = report p) ↔
      (b.isWrite = true ∧ ∃ r ∈ f.reads, ¬ Before r b ∧ rep = report (r,b)) ∨
        ∃ w, f.write = some w ∧ ¬ Before w b ∧ rep = report (w,b) := by
  constructor
  · rintro ⟨⟨a,c⟩,hp,rfl⟩
    obtain ⟨hc,hnot,hcase⟩ := mem_races.mp hp
    dsimp only at hc hnot hcase
    subst hc
    rcases hcase with ⟨hb,hmem⟩ | hw
    · exact Or.inl ⟨hb,a,hmem,hnot,rfl⟩
    · exact Or.inr ⟨a,hw,hnot,rfl⟩
  · rintro (⟨hb,r,hmem,hnot,rfl⟩ | ⟨w,hw,hnot,rfl⟩)
    · exact ⟨(r,b),mem_races.mpr ⟨rfl,hnot,Or.inl ⟨hb,hmem⟩⟩,rfl⟩
    · exact ⟨(w,b),mem_races.mpr ⟨rfl,hnot,Or.inr hw⟩,rfl⟩

/-- The races of a read are with the last write. -/
theorem mem_races_read {f : Frontier (Access α)} {b : Access α} (hb : b.isWrite = false)
    {rep : Report α} :
    (∃ p ∈ races Before kind f b, rep = report p) ↔
      ∃ w, f.write = some w ∧ ¬ Before w b ∧ rep = report (w,b) := by
  rw [mem_races_report]
  simp [hb]

theorem mem_races_write {f : Frontier (Access α)} {b : Access α} (hb : b.isWrite = true)
    {rep : Report α} :
    (∃ p ∈ races Before kind f b, rep = report p) ↔
      (∃ r ∈ f.reads, ¬ Before r b ∧ rep = report (r,b)) ∨
        ∃ w, f.write = some w ∧ ¬ Before w b ∧ rep = report (w,b) := by
  rw [mem_races_report]
  simp [hb]

/-- A word read stays apart from the new one just when that does not follow it. -/
theorem mayRace_word_read {f : Frontier (Access α)} (h : Proper f) {thread : ThreadId} {clock : ℕ}
    (hr : HoldsRead thread clock f) {b : Access α} :
    clockMayRace b.cv b.thread clock thread = true ↔ ¬ ∀ r ∈ f.reads, Before r b := by
  rcases hr with ⟨hnil,rfl⟩ | ⟨r,hone,rfl,rfl⟩
  · simp [clockMayRace,hnil]
  · rw [clockMayRace_iff (h.reads r (by simp [hone])).2]
    simp [hone]

/-! ### Full records -/

theorem getSlot_eq_ok {slots : List (ThreadId × ℕ)} {i : ℕ} (h : i < slots.length) :
    getSlot slots i = .ok slots[i] := by
  simp [getSlot,h]

/-- The loop over a range of allocated slots. -/
theorem checkReads_eq {slots : List (ThreadId × ℕ)} {b : Access α} {i n : ℕ}
    (h : i + n ≤ slots.length) :
    checkReads slots b (List.range' i n) =
      .ok (((slots.drop i).take n).flatMap fun x => checkRace b x.1 x.2 false) := by
  induction n generalizing i with
  | zero => simp [checkReads]
  | succ n ih =>
    have hi : i < slots.length := by omega
    have hrest := ih (i := i + 1) (by omega)
    rw [List.range'_succ,checkReads,getSlot_eq_ok hi]
    simp only [bind,Except.bind,hrest,pure,Except.pure]
    rw [List.drop_eq_getElem_cons hi,List.take_succ_cons,List.flatMap_cons]

/-- Which recorded reads a new read leaves in place. -/
def stays (b : Access α) (x : ThreadId × ℕ) : Bool := clockMayRace b.cv b.thread x.2 x.1

/-- The shortening loop moves the reads that stay to the front. -/
theorem shortenReads_spec {b : Access α} {n : ℕ} {slots : List (ThreadId × ℕ)} {i k : ℕ}
    (hk : k ≤ i) (h : i + n ≤ slots.length) :
    ∃ slots' k', shortenReads b (List.range' i n) slots k = .ok (slots',k') ∧
      slots'.length = slots.length ∧ k' ≤ i + n ∧
      slots'.take k' = slots.take k ++ ((slots.drop i).take n).filter (stays b) := by
  induction n generalizing i k slots with
  | zero => exact ⟨slots,k,rfl,rfl,hk,by simp⟩
  | succ n ih =>
    have hi : i < slots.length := by omega
    rw [List.range'_succ,shortenReads,getSlot_eq_ok hi,List.drop_eq_getElem_cons hi,
      List.take_succ_cons]
    simp only [bind,Except.bind]
    by_cases hs : stays b slots[i] = true
    · -- the slots after the move, whether or not one was needed
      obtain ⟨slots₁,hset,hlen,htake,hdrop⟩ : ∃ slots₁,
          moveRead slots k i (slots[i].1,slots[i].2) = .ok slots₁ ∧
          slots₁.length = slots.length ∧ slots₁.take (k + 1) = slots.take k ++ [slots[i]] ∧
          slots₁.drop (i + 1) = slots.drop (i + 1) := by
        by_cases hki : k = i
        · subst hki
          exact ⟨slots,by simp [moveRead],rfl,(List.take_append_getElem hi).symm,rfl⟩
        · have hlt : k < slots.length := by omega
          refine ⟨slots.set k slots[i],by simp [moveRead,hki,setSlot,hlt],by simp,?_,?_⟩
          · rw [← List.take_append_getElem (by simpa using hlt)]
            simp [List.take_set_of_le le_rfl]
          · rw [List.drop_set_of_lt (by omega)]
      have hroom : (i + 1) + n ≤ slots₁.length := by omega
      obtain ⟨slots',k',hrun,hlen',hk',htake'⟩ := ih (k := k + 1) (by omega) hroom
      refine ⟨slots',k',?_,hlen'.trans hlen,by omega,?_⟩
      · have hs' : clockMayRace b.cv b.thread slots[i].2 slots[i].1 = true := hs
        rw [if_pos hs',hset]
        exact hrun
      · rw [htake',htake,hdrop,List.filter_cons_of_pos hs,List.append_assoc]
        rfl
    · have hs' : ¬ clockMayRace b.cv b.thread slots[i].2 slots[i].1 = true := hs
      have hroom : (i + 1) + n ≤ slots.length := by omega
      obtain ⟨slots',k',hrun,hlen',hk',htake'⟩ := ih (k := k) (by omega) hroom
      refine ⟨slots',k',?_,hlen',by omega,?_⟩
      · rw [if_neg hs']
        exact hrun
      · rw [htake',List.filter_cons_of_neg hs]

/-- The reads that stay are those the new read does not follow. -/
theorem filter_stays {f : Frontier (Access α)} (h : Proper f) (b : Access α) :
    (f.reads.map entry).filter (stays b) =
      (f.reads.filter fun a => ¬ Before a b).map entry := by
  rw [List.filter_map]
  congr 1
  refine List.filter_congr fun r hr => ?_
  have hiff := clockMayRace_iff (b := b) (h.reads r hr).2
  rw [Bool.eq_iff_iff,decide_eq_true_iff]
  exact hiff

theorem fullRaceCheckWrite_eq {record : RaceRecord} (h : Allocated record) (b : Access α) :
    fullRaceCheckWrite record b =
      .ok ({ record with numReads := 0,writeThread := b.thread,writeClock := b.clock },
        ((recordedReads record).flatMap fun x => checkRace b x.1 x.2 false) ++
          checkRace b record.writeThread record.writeClock true) := by
  have hroom : 0 + record.numReads ≤ record.slots.length := by
    have hlen := h.length
    have hnum := h.numReads
    omega
  have hreads : checkReads record.slots b (List.range record.numReads) =
      .ok ((recordedReads record).flatMap fun x => checkRace b x.1 x.2 false) := by
    rw [List.range_eq_range',checkReads_eq hroom,List.drop_zero,recordedReads]
  rw [fullRaceCheckWrite,hreads]
  rfl

/-- A read joins the recorded reads that stay, provided the record has arrays. -/
theorem fullRaceCheckRead_ok {record : RaceRecord} (h : Allocated record)
    (hcap : record.capacity ≠ 0) (b : Access α) :
    ∃ record', fullRaceCheckRead record b =
        .ok (record',checkRace b record.writeThread record.writeClock true) ∧
      Allocated record' ∧ record'.capacity ≠ 0 ∧
      recordedReads record' = (recordedReads record).filter (stays b) ++ [entry b] ∧
      record'.writeThread = record.writeThread ∧ record'.writeClock = record.writeClock := by
  have hlen := h.length
  have hnum := h.numReads
  have hroom : 0 + record.numReads ≤ record.slots.length := by omega
  obtain ⟨slots',k',hrun,hlen',hk',htake⟩ := shortenReads_spec (b := b) (le_refl 0) hroom
  rw [← List.range_eq_range'] at hrun
  rw [List.take_zero,List.nil_append,List.drop_zero] at htake
  -- growing keeps the reads and makes room for one more
  obtain ⟨hglen,hgroom,hgtake⟩ : (growReads slots' record.capacity k').1.length =
      (growReads slots' record.capacity k').2 ∧ k' < (growReads slots' record.capacity k').2 ∧
      (growReads slots' record.capacity k').1.take k' = slots'.take k' := by
    unfold growReads
    split
    · refine ⟨?_,by dsimp only; omega,?_⟩
      · simp only [List.length_append,List.length_take,List.length_replicate]
        omega
      · dsimp only
        rw [List.take_append_of_le_length (by simp; omega),List.take_take]
        congr 1
        omega
    · exact ⟨by dsimp only; omega,by dsimp only; omega,rfl⟩
  generalize hgrow : growReads slots' record.capacity k' = grown at hglen hgroom hgtake
  have hset : setSlot grown.1 k' (b.thread,b.cv.getClock b.thread) =
      .ok (grown.1.set k' (entry b)) := by
    simp [setSlot,hglen,hgroom,entry,clock]
  refine ⟨{ record with slots := grown.1.set k' (entry b),capacity := grown.2,numReads := k' + 1 },
    ?_,⟨by simp [hglen],hgroom⟩,by dsimp only; omega,?_,rfl,rfl⟩
  · rw [fullRaceCheckRead,hrun]
    simp only [bind,Except.bind,hgrow,hset]
    rfl
  · have hlt : k' < (grown.1.set k' (entry b)).length := by simp [hglen,hgroom]
    dsimp only [recordedReads]
    rw [← List.take_append_getElem hlt,List.take_set_of_le le_rfl,hgtake,htake]
    simp

/-- Without arrays there is nowhere to put the read. -/
theorem fullRaceCheckRead_fault {record : RaceRecord} (h : Allocated record) (b : Access α)
    (hcap : record.capacity = 0) : fullRaceCheckRead record b = .error .outOfBounds := by
  have hlen : record.slots = [] := List.eq_nil_of_length_eq_zero (h.length.trans hcap)
  have hnum : record.numReads = 0 := by have := h.numReads; omega
  simp [fullRaceCheckRead,hnum,hlen,hcap,shortenReads,growReads,setSlot,bind,Except.bind]

theorem RecordHolds.allocated {record : RaceRecord} {f : Frontier (Access α)}
    (h : RecordHolds record f) : Allocated record := ⟨h.length,h.numReads⟩

/-- A write is checked against every recorded read and the last write, and replaces them. -/
theorem fullRaceCheckWrite_spec {record : RaceRecord} {f : Frontier (Access α)} (h : Proper f)
    (hr : RecordHolds record f) {b : Access α} (hb : b.isWrite = true) :
    ∃ record' reps, fullRaceCheckWrite record b = .ok (record',reps) ∧
      RecordHolds record' (step Before kind f b) ∧ record'.capacity = record.capacity ∧
      ∀ rep, rep ∈ reps ↔ ∃ p ∈ races Before kind f b, rep = report p := by
  refine ⟨_,_,fullRaceCheckWrite_eq hr.allocated b,?_,rfl,fun rep => ?_⟩
  · refine ⟨by simp [RaceFrontier.step,kind,hb],hr.length,Nat.zero_le _,?_⟩
    simp [HoldsWrite,RaceFrontier.step,kind,hb,clock]
  · have hreads : recordedReads record = f.reads.map entry := hr.reads
    rw [List.mem_append,mem_checkWrite h hr.write,mem_races_write hb,hreads]
    apply or_congr_left
    simp only [List.mem_flatMap,List.mem_map]
    constructor
    · rintro ⟨_,⟨r,hmem,rfl⟩,hrep⟩
      obtain ⟨hkind,hpos⟩ := h.reads r hmem
      rw [← hkind] at hrep
      exact ⟨r,hmem,(mem_checkRace hpos).mp hrep⟩
    · rintro ⟨r,hmem,hrep⟩
      obtain ⟨hkind,hpos⟩ := h.reads r hmem
      refine ⟨entry r,⟨r,hmem,rfl⟩,?_⟩
      rw [← hkind]
      exact (mem_checkRace hpos).mpr hrep

theorem fullRaceCheckRead_spec {record : RaceRecord} {f : Frontier (Access α)} (h : Proper f)
    (hr : RecordHolds record f) {b : Access α} (hb : b.isWrite = false)
    (hcap : record.capacity ≠ 0) :
    ∃ record' reps, fullRaceCheckRead record b = .ok (record',reps) ∧
      RecordHolds record' (step Before kind f b) ∧ record'.capacity ≠ 0 ∧
      ∀ rep, rep ∈ reps ↔ ∃ p ∈ races Before kind f b, rep = report p := by
  obtain ⟨record',hrun,halloc,hcap',hreads,hthread,hclock⟩ :=
    fullRaceCheckRead_ok hr.allocated hcap b
  refine ⟨record',_,hrun,⟨?_,halloc.length,halloc.numReads,?_⟩,hcap',fun rep => ?_⟩
  · have hold : recordedReads record = f.reads.map entry := hr.reads
    rw [hold,filter_stays h] at hreads
    refine hreads.trans ?_
    simp [RaceFrontier.step,kind,hb]
  · have hw := hr.write
    rw [hthread,hclock]
    simpa [HoldsWrite,RaceFrontier.step,kind,hb] using hw
  · rw [mem_checkWrite h hr.write,mem_races_read hb]

/-! ### One call -/

/-- How a cell keeps its accesses; a bare record has no arrays for reads. -/
inductive Mode
  | word
  | arrays
  | bare
  deriving DecidableEq

def mode : Shadow → Mode
  | .word _ => .word
  | .record record => if record.capacity = 0 then .bare else .arrays

/-- The mode after a call. -/
def nextMode (f : Frontier (Access α)) (b : Access α) : Mode → Mode
  | .word =>
    if tooLarge b = true then (if f.reads = [] then .bare else .arrays)
    else if b.isWrite = true ∨ ∀ r ∈ f.reads, Before r b then .word else .arrays
  | .arrays => .arrays
  | .bare => .bare

/-- What a call on a cell does that stands for a frontier. -/
structure Checked (s : Shadow) (f : Frontier (Access α)) (b : Access α) (s' : Shadow)
    (reps : List (Report α)) : Prop where
  holds : Holds s' (step Before kind f b)
  mode : mode s' = nextMode f b (mode s)
  reports : ∀ rep, rep ∈ reps ↔ ∃ p ∈ races Before kind f b, rep = report p

section Calls

variable {f : Frontier (Access α)} (h : Proper f) {b : Access α}
include h

/-- A full record stands for the accesses of the word it is made from. -/
theorem expandRecord_holds {w : ℕ} (hs : Holds (.word w) f) :
    RecordHolds (expandRecord w) f ∧ ((expandRecord w).capacity = 0 ↔ f.reads = []) := by
  obtain ⟨hread,hwrite⟩ := hs
  rcases hread with ⟨hnil,hclock⟩ | ⟨r,hone,hthread,hclock⟩
  · have hexp : expandRecord w = ⟨[],0,0,wrThreadId w,writeVector w⟩ := by
      simp [expandRecord,hclock]
    rw [hexp]
    exact ⟨⟨by simp [hnil],rfl,le_rfl,hwrite⟩,by simp [hnil]⟩
  · have hpos : readVector w ≠ 0 := by
      have hr := (h.reads r (by simp [hone])).2
      omega
    have hexp : expandRecord w = ⟨(rdThreadId w,readVector w) ::
        List.replicate (initCapacity - 1) (0,0),initCapacity,1,wrThreadId w,
        writeVector w⟩ := by
      simp [expandRecord,hpos]
    rw [hexp]
    refine ⟨⟨?_,by simp [initCapacity],by simp [initCapacity],hwrite⟩,?_⟩
    · simp [hone,entry,hthread,hclock]
    · simp [hone,initCapacity]

theorem record_write {record : RaceRecord} (hr : RecordHolds record f) (hb : b.isWrite = true) :
    ∃ record' reps, fullRaceCheckWrite record b = .ok (record',reps) ∧
      Checked (.record record) f b (.record record') reps := by
  obtain ⟨record',reps,hrun,hholds,hcap,hreps⟩ := fullRaceCheckWrite_spec h hr hb
  refine ⟨record',reps,hrun,hholds,?_,hreps⟩
  simp only [mode,hcap]
  split <;> rfl

theorem record_read {record : RaceRecord} (hr : RecordHolds record f) (hb : b.isWrite = false)
    (hcap : record.capacity ≠ 0) :
    ∃ record' reps, fullRaceCheckRead record b = .ok (record',reps) ∧
      Checked (.record record) f b (.record record') reps := by
  obtain ⟨record',reps,hrun,hholds,hcap',hreps⟩ := fullRaceCheckRead_spec h hr hb hcap
  refine ⟨record',reps,hrun,hholds,?_,hreps⟩
  simp [mode,hcap,hcap',nextMode]

omit h in
/-- A word and the record made from it answer for the same frontier. -/
theorem Checked.of_expand {w : ℕ} {s' : Shadow} {reps : List (Report α)}
    (hc : Checked (.record (expandRecord w)) f b s' reps)
    (hmode : DataRace.mode (.record (expandRecord w)) = nextMode f b .word) :
    Checked (.word w) f b s' reps := by
  refine ⟨hc.holds,?_,hc.reports⟩
  show DataRace.mode s' = nextMode f b .word
  rw [hc.mode,← hmode]
  simp only [DataRace.mode]
  split <;> rfl

theorem word_write_small {w : ℕ} (hs : Holds (.word w) f) (hb : b.isWrite = true)
    (hsmall : tooLarge b = false) :
    Checked (.word w) f b (.word (encodeOp 0 0 b.thread b.clock))
      (checkRace b (rdThreadId w) (readVector w) false ++
        checkRace b (wrThreadId w) (writeVector w) true) := by
  obtain ⟨ht,hc⟩ := small_bounds hsmall
  have h8 : 0 < 2 ^ 8 := by norm_num
  have h23 : 0 < 2 ^ 23 := by norm_num
  refine ⟨⟨Or.inl ?_,?_⟩,?_,fun rep => ?_⟩
  · exact ⟨by simp [RaceFrontier.step,kind,hb],readVector_encodeOp h8 h23 ht hc⟩
  · simp only [HoldsWrite,RaceFrontier.step,kind,hb,if_true]
    exact ⟨wrThreadId_encodeOp h8 h23 ht hc,writeVector_encodeOp h8 h23 ht hc⟩
  · simp [mode,nextMode,hsmall,hb]
  · rw [List.mem_append,mem_checkRead h hs.1,mem_checkWrite h hs.2,mem_races_write hb]

theorem word_read_subsumes {w : ℕ} (hs : Holds (.word w) f) (hb : b.isWrite = false)
    (hsmall : tooLarge b = false) (hall : ∀ r ∈ f.reads, Before r b) :
    Checked (.word w) f b
      (.word (encodeOp b.thread b.clock (wrThreadId w) (writeVector w)))
      (checkRace b (wrThreadId w) (writeVector w) true) := by
  obtain ⟨ht,hc⟩ := small_bounds hsmall
  have hwt := wrThreadId_lt w
  have hwc := writeVector_lt w
  have hnone : f.reads.filter (fun a => ¬ Before a b) = [] := by
    apply List.filter_eq_nil_iff.mpr
    intro r hr
    simpa using hall r hr
  have hstep : step Before kind f b = ⟨[b],f.write⟩ := by
    simp only [RaceFrontier.step,kind,hb,hnone,Bool.false_eq_true,if_false,List.nil_append]
  refine ⟨⟨Or.inr ⟨b,?_⟩,?_⟩,?_,fun rep => ?_⟩
  · rw [hstep]
    exact ⟨rfl,rdThreadId_encodeOp ht hc hwt hwc,readVector_encodeOp ht hc hwt hwc⟩
  · rw [hstep,wrThreadId_encodeOp ht hc hwt hwc,writeVector_encodeOp ht hc hwt hwc]
    exact hs.2
  · simp only [mode,nextMode,hsmall,hb,Bool.false_eq_true,if_false,false_or]
    rw [if_pos hall]
  · rw [mem_checkWrite h hs.2,mem_races_read hb]

/-- A read that needs arrays on a cell without them. -/
theorem raceCheck_fault {s : Shadow} (hs : Holds s f) (hb : b.isWrite = false)
    (hbare : nextMode f b (mode s) = .bare) : raceCheck s b = .error .outOfBounds := by
  cases s with
  | record record =>
    have hcap : record.capacity = 0 := by
      by_contra hne
      simp [mode,hne,nextMode] at hbare
    have hrun := fullRaceCheckRead_fault hs.allocated b hcap
    simp [raceCheck,hb,raceCheckRead,hrun,bind,Except.bind]
  | word w =>
    have hlarge : tooLarge b = true ∧ f.reads = [] := by
      simp only [mode,nextMode] at hbare
      split at hbare
      · split at hbare
        · exact ⟨by assumption,by assumption⟩
        · cases hbare
      · split at hbare <;> cases hbare
    obtain ⟨hrec,hcap⟩ := expandRecord_holds h hs
    have hrun := fullRaceCheckRead_fault hrec.allocated b (hcap.mpr hlarge.2)
    simp [raceCheck,hb,raceCheckRead,hlarge.1,hrun,bind,Except.bind]

theorem mode_expandRecord {w : ℕ} (hs : Holds (.word w) f) (hlarge : tooLarge b = true) :
    mode (.record (expandRecord w)) = nextMode f b .word := by
  have hcap := (expandRecord_holds h hs).2
  simp only [mode,nextMode,hlarge,hcap]
  rfl

/-- Every other call keeps the cell and reports the races of its frontier. -/
theorem raceCheck_spec {s : Shadow} (hs : Holds s f)
    (hok : b.isWrite = true ∨ nextMode f b (mode s) ≠ .bare) :
    ∃ s' reps, raceCheck s b = .ok (s',reps) ∧ Checked s f b s' reps := by
  cases s with
  | record record =>
    cases hb : b.isWrite with
    | true =>
      obtain ⟨record',reps,hrun,hchecked⟩ := record_write h hs hb
      refine ⟨.record record',reps,?_,hchecked⟩
      simp [raceCheck,hb,raceCheckWrite,hrun,bind,Except.bind,pure,Except.pure]
    | false =>
      have hcap : record.capacity ≠ 0 := by
        intro hcap
        simp [hb,mode,hcap,nextMode] at hok
      obtain ⟨record',reps,hrun,hchecked⟩ := record_read h hs hb hcap
      refine ⟨.record record',reps,?_,hchecked⟩
      simp [raceCheck,hb,raceCheckRead,hrun,bind,Except.bind,pure,Except.pure]
  | word w =>
    obtain ⟨hrec,hcap⟩ := expandRecord_holds h hs
    cases hb : b.isWrite with
    | true =>
      cases hlarge : tooLarge b with
      | true =>
        obtain ⟨record',reps,hrun,hchecked⟩ := record_write h hrec hb
        refine ⟨.record record',reps,?_,hchecked.of_expand (mode_expandRecord h hs hlarge)⟩
        simp [raceCheck,hb,raceCheckWrite,hlarge,hrun,bind,Except.bind,pure,Except.pure]
      | false =>
        refine ⟨_,_,?_,word_write_small h hs hb hlarge⟩
        simp [raceCheck,hb,raceCheckWrite,hlarge,clock]
    | false =>
      cases hlarge : tooLarge b with
      | true =>
        have hmode := mode_expandRecord h hs hlarge
        have hne : (expandRecord w).capacity ≠ 0 := by
          intro hzero
          have hbare : nextMode f b .word = .bare := by rw [← hmode]; simp [mode,hzero]
          simp [hb,mode,hbare] at hok
        obtain ⟨record',reps,hrun,hchecked⟩ := record_read h hrec hb hne
        refine ⟨.record record',reps,?_,hchecked.of_expand hmode⟩
        simp [raceCheck,hb,raceCheckRead,hlarge,hrun,bind,Except.bind,pure,Except.pure]
      | false =>
        have hmay := mayRace_word_read h hs.1 (b := b)
        by_cases hall : ∀ r ∈ f.reads, Before r b
        · refine ⟨_,_,?_,word_read_subsumes h hs hb hlarge hall⟩
          have hno : clockMayRace b.cv b.thread (readVector w) (rdThreadId w) = false := by
            rw [← Bool.not_eq_true,hmay,not_not]
            exact hall
          simp [raceCheck,hb,raceCheckRead,hlarge,hno,clock]
        · have hyes := hmay.mpr hall
          have hne : (expandRecord w).capacity ≠ 0 := by
            intro hzero
            apply hall
            simp [hcap.mp hzero]
          obtain ⟨record',reps,hrun,hchecked⟩ := record_read h hrec hb hne
          have hmode : mode (.record (expandRecord w)) = nextMode f b .word := by
            simp only [mode,nextMode,if_neg hne,hlarge,hb,Bool.false_eq_true,if_false,
              false_or,if_neg hall]
          have hword := hchecked.of_expand hmode
          refine ⟨.record record',checkRace b (wrThreadId w) (writeVector w) true ++ reps,?_,
            hword.holds,hword.mode,fun rep => ?_⟩
          · simp [raceCheck,hb,raceCheckRead,hlarge,hyes,hrun,bind,Except.bind,pure,
              Except.pure]
          · -- the last write is checked twice on this path
            rw [List.mem_append,hword.reports,mem_checkWrite h hs.2,mem_races_read hb]
            tauto

end Calls

end DataRace
end CdsChecker
