import CdsChecker.DataRaceRefinement
import Mathlib.Data.List.Chain

/-! Which sequences of accesses the detector gets through, and that on those it reports a race
just when there is one. -/
namespace CdsChecker
namespace DataRace

open RaceFrontier Access

variable {α : Type}

/-! ### Runs -/

/-- Some read of the run finds a record without arrays. -/
def Faults : Mode → Frontier (Access α) → List (Access α) → Prop
  | _,_,[] => False
  | m,f,b :: l => (b.isWrite = false ∧ nextMode f b m = .bare) ∨
      Faults (nextMode f b m) (step Before kind f b) l

theorem runFrom_fault {l : List (Access α)} {s : Shadow} {f : Frontier (Access α)}
    (hs : Holds s f) (h : Proper f) (hl : ∀ b ∈ l, 0 < b.clock) (hf : Faults (mode s) f l) :
    runFrom s l = .error .outOfBounds := by
  induction l generalizing s f with
  | nil => exact hf.elim
  | cons b l ih =>
    rw [runFrom,bind_eq_error]
    by_cases hbare : b.isWrite = false ∧ nextMode f b (mode s) = .bare
    · left
      exact raceCheck_fault h hs hbare.1 hbare.2
    · right
      have hok : b.isWrite = true ∨ nextMode f b (mode s) ≠ .bare := by
        rw [← Bool.not_eq_false]
        tauto
      obtain ⟨s',reps,hrun,hchecked⟩ := raceCheck_spec h hs hok
      have hrest : Faults (mode s') (step Before kind f b) l := by
        rw [hchecked.mode]
        exact hf.resolve_left hbare
      have hih := ih hchecked.holds (h.step (hl b (by simp)))
        (fun b hb => hl b (List.mem_cons_of_mem _ hb)) hrest
      refine ⟨(s',reps),hrun,?_⟩
      rw [bind_eq_error]
      exact Or.inl hih

/-- A run without such a read reports what the frontier reports. -/
theorem runFrom_spec {l : List (Access α)} {s : Shadow} {f : Frontier (Access α)}
    (hs : Holds s f) (h : Proper f) (hl : ∀ b ∈ l, 0 < b.clock) (hf : ¬ Faults (mode s) f l) :
    ∃ reps, runFrom s l = .ok reps ∧
      ∀ rep, rep ∈ reps ↔ ∃ p ∈ RaceFrontier.run Before kind f l, rep = report p := by
  induction l generalizing s f with
  | nil => exact ⟨[],rfl,by simp [RaceFrontier.run]⟩
  | cons b l ih =>
    rw [Faults,not_or] at hf
    have hok : b.isWrite = true ∨ nextMode f b (mode s) ≠ .bare := by
      rw [← Bool.not_eq_false]
      tauto
    obtain ⟨s',reps,hrun,hchecked⟩ := raceCheck_spec h hs hok
    have hrest : ¬ Faults (mode s') (step Before kind f b) l := by
      rw [hchecked.mode]
      exact hf.2
    obtain ⟨reps',hrun',hreps'⟩ := ih hchecked.holds (h.step (hl b (by simp)))
      (fun b hb => hl b (List.mem_cons_of_mem _ hb)) hrest
    refine ⟨reps ++ reps',?_,fun rep => ?_⟩
    · rw [runFrom,bind_eq_ok]
      refine ⟨(s',reps),hrun,?_⟩
      rw [bind_eq_ok]
      exact ⟨reps',hrun',rfl⟩
    · rw [List.mem_append,hchecked.reports,hreps',RaceFrontier.run]
      simp only [List.mem_append,or_and_right,exists_or]

/-! ### When a cell expands without arrays -/

/-- Two reads in a row are ordered; a write may come at any time. -/
def Follows (a b : Access α) : Prop := a.isWrite = false → b.isWrite = false → Before a b

/-- After the accesses `pre`, the cell is still packed and holds no read when an access comes
that no packed word can hold, and this access or a later one is a read. -/
def BareAfter (pre l : List (Access α)) : Prop :=
  ∃ l₁ a l₂, l = l₁ ++ a :: l₂ ∧ (∀ b ∈ l₁, tooLarge b = false) ∧
    (pre ++ l₁).IsChain Follows ∧ (∀ b, (pre ++ l₁).getLast? = some b → b.isWrite = true) ∧
    tooLarge a = true ∧ ∃ b ∈ a :: l₂, b.isWrite = false

/-- The cell is expanded without arrays for its reads, and a read comes then. -/
def ExpandsBare (l : List (Access α)) : Prop := BareAfter [] l

theorem bareAfter_nil (pre : List (Access α)) : ¬ BareAfter pre [] := by
  rintro ⟨l₁,a,l₂,hl,_⟩
  simp at hl

theorem bareAfter_large {pre l : List (Access α)} {a : Access α} (ha : tooLarge a = true) :
    BareAfter pre (a :: l) ↔ pre.IsChain Follows ∧
      (∀ b, pre.getLast? = some b → b.isWrite = true) ∧ ∃ b ∈ a :: l, b.isWrite = false := by
  constructor
  · rintro ⟨l₁,c,l₂,hl,hsmall,hchain,hlast,hlarge,hread⟩
    cases l₁ with
    | nil =>
      obtain ⟨rfl,rfl⟩ : a = c ∧ l = l₂ := by simpa using hl
      rw [List.append_nil] at hchain hlast
      exact ⟨hchain,hlast,hread⟩
    | cons x l₁ =>
      obtain ⟨rfl,_⟩ : a = x ∧ l = l₁ ++ c :: l₂ := by simpa using hl
      have hfalse := hsmall a (by simp)
      rw [ha] at hfalse
      cases hfalse
  · rintro ⟨hchain,hlast,hread⟩
    refine ⟨[],a,l,rfl,by simp,?_,?_,ha,hread⟩
    · rw [List.append_nil]
      exact hchain
    · rw [List.append_nil]
      exact hlast

theorem bareAfter_small {pre l : List (Access α)} {b : Access α} (hb : tooLarge b = false) :
    BareAfter pre (b :: l) ↔ BareAfter (pre ++ [b]) l := by
  constructor
  · rintro ⟨l₁,c,l₂,hl,hsmall,hchain,hlast,hlarge,hread⟩
    cases l₁ with
    | nil =>
      obtain ⟨rfl,rfl⟩ : b = c ∧ l = l₂ := by simpa using hl
      rw [hb] at hlarge
      cases hlarge
    | cons x l₁ =>
      obtain ⟨rfl,rfl⟩ : b = x ∧ l = l₁ ++ c :: l₂ := by simpa using hl
      refine ⟨l₁,c,l₂,rfl,fun y hy => hsmall y (List.mem_cons_of_mem _ hy),?_,?_,hlarge,
        hread⟩
      · simpa using hchain
      · simpa using hlast
  · rintro ⟨l₁,c,l₂,rfl,hsmall,hchain,hlast,hlarge,hread⟩
    refine ⟨b :: l₁,c,l₂,rfl,?_,by simpa using hchain,by simpa using hlast,hlarge,hread⟩
    simpa [hb] using hsmall

/-- What comes before a link of the chain can be cut off. -/
theorem bareAfter_cons {a b : Access α} {l : List (Access α)} :
    BareAfter [a,b] l ↔ Follows a b ∧ BareAfter [b] l := by
  constructor
  · rintro ⟨l₁,c,l₂,hl,hsmall,hchain,hlast,hrest⟩
    have hchain' := List.isChain_cons_cons.mp hchain
    exact ⟨hchain'.1,l₁,c,l₂,hl,hsmall,hchain'.2,by simpa using hlast,hrest⟩
  · rintro ⟨hab,l₁,c,l₂,hl,hsmall,hchain,hlast,hrest⟩
    exact ⟨l₁,c,l₂,hl,hsmall,List.isChain_cons_cons.mpr ⟨hab,hchain⟩,
      by simpa using hlast,hrest⟩

/-- A write leaves nothing behind that a later access could depend on. -/
theorem bareAfter_write {b : Access α} {l : List (Access α)} (hb : b.isWrite = true) :
    BareAfter [b] l ↔ BareAfter [] l := by
  have hchain : ∀ l₁ : List (Access α), (b :: l₁).IsChain Follows ↔ l₁.IsChain Follows := by
    intro l₁
    cases l₁ with
    | nil => simp
    | cons c l₁ =>
      rw [List.isChain_cons_cons,and_iff_right]
      intro hfalse
      rw [hb] at hfalse
      cases hfalse
  have hlast : ∀ l₁ : List (Access α),
      (∀ c, (b :: l₁).getLast? = some c → c.isWrite = true) ↔
        ∀ c, l₁.getLast? = some c → c.isWrite = true := by
    intro l₁
    cases l₁ with
    | nil => simp [hb]
    | cons c l₁ => simp
  simp only [BareAfter,List.cons_append,List.nil_append,hchain,hlast]

theorem not_faults_arrays (f : Frontier (Access α)) (l : List (Access α)) :
    ¬ Faults .arrays f l := by
  induction l generalizing f with
  | nil => exact id
  | cons b l ih =>
    rintro (⟨_,hbare⟩ | hrest)
    · cases hbare
    · exact ih _ hrest

theorem faults_bare {f : Frontier (Access α)} {l : List (Access α)} :
    Faults .bare f l ↔ ∃ b ∈ l, b.isWrite = false := by
  induction l generalizing f with
  | nil => simp [Faults]
  | cons b l ih => simp [Faults,nextMode,ih]

/-- A word holds at most one access as its reads. -/
theorem faults_word {f : Frontier (Access α)} {l : List (Access α)} (h : Proper f)
    (hl : ∀ b ∈ l, 0 < b.clock) (hone : f.reads.length ≤ 1) :
    Faults .word f l ↔ BareAfter f.reads l := by
  induction l generalizing f with
  | nil => simp [Faults,bareAfter_nil]
  | cons b l ih =>
    have hih := ih (h.step (hl b (by simp))) (fun c hc => hl c (List.mem_cons_of_mem _ hc))
    cases hlarge : tooLarge b with
    | true =>
      rw [Faults,bareAfter_large hlarge]
      rcases hreads : f.reads with _ | ⟨r,rest⟩
      · simp [nextMode,hlarge,hreads,faults_bare]
      · obtain rfl : rest = [] := by simpa [hreads] using hone
        have hr := (h.reads r (by simp [hreads])).1
        simp [nextMode,hlarge,hreads,not_faults_arrays,hr]
    | false =>
      rw [Faults,bareAfter_small hlarge]
      cases hb : b.isWrite with
      | true =>
        have hstep : (step Before kind f b).reads = [] := by simp [RaceFrontier.step,kind,hb]
        rw [hstep] at hih
        have hrest := hih (by simp)
        rcases hreads : f.reads with _ | ⟨r,rest⟩
        · simp [nextMode,hlarge,hb,hrest,bareAfter_write hb]
        · obtain rfl : rest = [] := by simpa [hreads] using hone
          have hf : Follows r b := by simp [Follows,hb]
          simp [nextMode,hlarge,hb,hrest,bareAfter_cons,hf,bareAfter_write hb]
      | false =>
        rcases hreads : f.reads with _ | ⟨r,rest⟩
        · have hstep : (step Before kind f b).reads = [b] := by
            simp [RaceFrontier.step,kind,hb,hreads]
          rw [hstep] at hih
          simp [nextMode,hlarge,hreads,hih]
        · obtain rfl : rest = [] := by simpa [hreads] using hone
          have hr := (h.reads r (by simp [hreads])).1
          by_cases hrb : Before r b
          · have hstep : (step Before kind f b).reads = [b] := by
              simp [RaceFrontier.step,kind,hb,hreads,hrb]
            rw [hstep] at hih
            have hf : Follows r b := fun _ _ => hrb
            simp [nextMode,hlarge,hreads,hrb,hih,bareAfter_cons,hf]
          · have hf : ¬ Follows r b := fun hf => hrb (hf hr hb)
            simp [nextMode,hlarge,hreads,hrb,hb,bareAfter_cons,hf,not_faults_arrays]

theorem holds_init : Holds (.word 0) ({} : Frontier (Access α)) := by
  refine ⟨Or.inl ⟨rfl,?_⟩,?_⟩
  · simp [readVector]
  · simp [HoldsWrite,writeVector]

theorem proper_init : Proper ({} : Frontier (Access α)) := ⟨by simp,by simp⟩

/-- The detector stops at a fault just when the cell expands bare. -/
theorem run_cases {l : List (Access α)} (hl : ∀ b ∈ l, 0 < b.clock) :
    (ExpandsBare l ∧ run l = .error .outOfBounds) ∨
      (¬ ExpandsBare l ∧ ∃ reps, run l = .ok reps ∧
        ∀ rep, rep ∈ reps ↔ ∃ p ∈ RaceFrontier.run Before kind {} l, rep = report p) := by
  have hiff := faults_word proper_init hl (by simp)
  by_cases hbare : ExpandsBare l
  · left
    exact ⟨hbare,runFrom_fault holds_init proper_init hl (hiff.mpr hbare)⟩
  · right
    exact ⟨hbare,runFrom_spec holds_init proper_init hl (fun hf => hbare (hiff.mp hf))⟩

/-! ### Calls within a history -/

/-- The actions of an execution with their clock vectors. The clock a vector has for a thread is
that of an action of the thread which happens before. -/
structure History (α : Type) where
  thread : α → ThreadId
  seq : α → ℕ
  cv : α → ClockVector
  hb : α → α → Prop
  seq_pos : ∀ a, 0 < seq a
  own : ∀ a, (cv a).getClock (thread a) = seq a
  po : ∀ {a b}, thread a = thread b → seq a ≤ seq b → hb a b
  trans : ∀ {a b c}, hb a b → hb b c → hb a c
  known : ∀ {a b}, hb a b → seq a ≤ (cv b).getClock (thread a)
  synced : ∀ b t, 0 < (cv b).getClock t → ∃ a, thread a = t ∧ (cv b).getClock t ≤ seq a ∧ hb a b

/-- The calls on one cell in their order: the last action of the accessing thread, and whether
the access is a write. No earlier call comes after what its thread does later. -/
structure Calls (H : History α) where
  list : List (α × Bool)
  timely : ∀ c d, [c,d].Sublist list →
    ∀ a, H.thread a = H.thread d.1 → H.hb a c.1 → H.seq a ≤ H.seq d.1

namespace History

variable (H : History α)

def access (c : α × Bool) : Access α := ⟨H.thread c.1,c.1,H.cv c.1,c.2⟩

/-- The access lies between its thread's last action and the next one, so another thread's
access comes after it when a later action of the first thread does. -/
def HappensBefore (c d : α × Bool) : Prop :=
  ∃ a, H.thread a = H.thread c.1 ∧ H.seq c.1 < H.seq a ∧ H.hb a d.1

def Races (c d : α × Bool) : Prop :=
  H.thread c.1 ≠ H.thread d.1 ∧ (c.2 = true ∨ d.2 = true) ∧
    ¬ H.HappensBefore c d ∧ ¬ H.HappensBefore d c

def report (c d : α × Bool) : Report α := ⟨H.thread c.1,H.seq c.1,c.2,d.1,d.2⟩

variable {H}

theorem clock_access (c : α × Bool) : (H.access c).clock = H.seq c.1 := H.own c.1

theorem lt_clock_iff (c d : α × Bool) :
    H.seq c.1 < (H.cv d.1).getClock (H.thread c.1) ↔ H.HappensBefore c d := by
  constructor
  · intro hlt
    obtain ⟨a,ha,hle,hb⟩ := H.synced d.1 (H.thread c.1) (by omega)
    exact ⟨a,ha,by omega,hb⟩
  · rintro ⟨a,ha,hlt,hb⟩
    have hknown := H.known hb
    rw [ha] at hknown
    omega

theorem before_access (c d : α × Bool) :
    Before (H.access c) (H.access d) ↔
      H.thread c.1 = H.thread d.1 ∨ H.HappensBefore c d := by
  unfold Before
  rw [clock_access,← lt_clock_iff]
  rfl

theorem HappensBefore.hb {c d : α × Bool} (h : H.HappensBefore c d) : H.hb c.1 d.1 := by
  obtain ⟨a,ha,hlt,hb⟩ := h
  exact H.trans (H.po ha.symm hlt.le) hb

end History

namespace Calls

variable {H : History α} (calls : Calls H)

def accesses : List (Access α) := calls.list.map H.access

theorem pair_accesses {a b : Access α} :
    [a,b].Sublist calls.accesses ↔
      ∃ c d, [c,d].Sublist calls.list ∧ a = H.access c ∧ b = H.access d := by
  constructor
  · intro h
    obtain ⟨l,hl,heq⟩ := List.sublist_map_iff.mp h
    obtain ⟨c,l₁,rfl,rfl,h₁⟩ := List.map_eq_cons_iff.mp heq.symm
    obtain ⟨d,l₂,rfl,rfl,h₂⟩ := List.map_eq_cons_iff.mp h₁
    obtain rfl := List.map_eq_nil_iff.mp h₂
    exact ⟨c,d,hl,rfl,rfl⟩
  · rintro ⟨c,d,hcd,rfl,rfl⟩
    exact hcd.map H.access

variable {calls}

theorem seq_le {c d : α × Bool} (h : [c,d].Sublist calls.list)
    (ht : H.thread c.1 = H.thread d.1) : H.seq c.1 ≤ H.seq d.1 :=
  calls.timely c d h c.1 ht (H.po rfl le_rfl)

theorem not_happensBefore_back {c d : α × Bool} (h : [c,d].Sublist calls.list) :
    ¬ H.HappensBefore d c := by
  rintro ⟨a,ha,hlt,hb⟩
  have hle := calls.timely c d h a ha hb
  omega

/-- In the order of the calls, an unordered pair with a write is a race. -/
theorem conflict_iff {c d : α × Bool} (h : [c,d].Sublist calls.list) :
    Conflict Before kind (H.access c) (H.access d) ↔ H.Races c d := by
  have hback := not_happensBefore_back h
  unfold Conflict History.Races
  rw [History.before_access,not_or]
  show (c.2 = true ∨ d.2 = true) ∧ _ ↔ _
  tauto

theorem report_access (c d : α × Bool) :
    DataRace.report (H.access c,H.access d) = H.report c d := by
  show (⟨_,(H.access c).clock,_,_,_⟩ : Report α) = _
  rw [History.clock_access]
  rfl

theorem before_trans {c d e : α × Bool} (h : [c,d,e].Sublist calls.list)
    (hcd : Before (H.access c) (H.access d)) (hde : Before (H.access d) (H.access e)) :
    Before (H.access c) (H.access e) := by
  have hpair₁ : [c,d].Sublist calls.list := List.Sublist.trans (by simp) h
  have hpair₂ : [d,e].Sublist calls.list := List.Sublist.trans (by simp) h
  rw [History.before_access] at *
  rcases hcd with hcd | hcd
  · rcases hde with hde | ⟨a,ha,hlt,hb⟩
    · exact Or.inl (hcd.trans hde)
    · have hle := seq_le hpair₁ hcd
      exact Or.inr ⟨a,ha.trans hcd.symm,by omega,hb⟩
  · have hb : H.hb d.1 e.1 := by
      rcases hde with hde | hde
      · exact H.po hde (seq_le hpair₂ hde)
      · exact hde.hb
    obtain ⟨a,ha,hlt,hac⟩ := hcd
    exact Or.inr ⟨a,ha,hlt,H.trans hac hb⟩

theorem transOn : TransOn Before calls.accesses := by
  intro a b c habc hab hbc
  obtain ⟨l,hl,heq⟩ := List.sublist_map_iff.mp habc
  obtain ⟨x,l₁,rfl,rfl,h₁⟩ := List.map_eq_cons_iff.mp heq.symm
  obtain ⟨y,l₂,rfl,rfl,h₂⟩ := List.map_eq_cons_iff.mp h₁
  obtain ⟨z,l₃,rfl,rfl,h₃⟩ := List.map_eq_cons_iff.mp h₂
  obtain rfl := List.map_eq_nil_iff.mp h₃
  exact before_trans hl hab hbc

variable (calls) in
theorem clock_pos : ∀ b ∈ calls.accesses, 0 < b.clock := by
  intro b hb
  obtain ⟨c,_,rfl⟩ := List.mem_map.mp hb
  rw [History.clock_access]
  exact H.seq_pos c.1

end Calls

/-- The detector gets through the calls, reports some race if there is one, and only races. -/
def Exact {H : History α} (calls : Calls H) : Prop :=
  ∃ reps, run calls.accesses = .ok reps ∧
    (reps ≠ [] ↔ ∃ c d, [c,d].Sublist calls.list ∧ H.Races c d) ∧
    ∀ rep ∈ reps, ∃ c d, [c,d].Sublist calls.list ∧ H.Races c d ∧ rep = H.report c d

theorem raceCheck_exact_iff {H : History α} (calls : Calls H) :
    Exact calls ↔ ¬ ExpandsBare calls.accesses := by
  constructor
  · rintro ⟨reps,hrun,_⟩ hbare
    rcases run_cases calls.clock_pos with ⟨_,hfault⟩ | ⟨hnot,_⟩
    · rw [hfault] at hrun
      cases hrun
    · exact hnot hbare
  · intro hnot
    obtain ⟨hbare,_⟩ | ⟨_,reps,hrun,hreps⟩ := run_cases calls.clock_pos
    · exact (hnot hbare).elim
    have hsound : ∀ rep ∈ reps, ∃ c d, [c,d].Sublist calls.list ∧ H.Races c d ∧
        rep = H.report c d := by
      intro rep hrep
      obtain ⟨p,hp,rfl⟩ := (hreps rep).mp hrep
      obtain ⟨hsub,hconf⟩ := run_sound .init hp
      obtain ⟨c,d,hcd,h₁,h₂⟩ := calls.pair_accesses.mp (by simpa using hsub)
      obtain rfl : p = (H.access c,H.access d) := Prod.ext h₁ h₂
      exact ⟨c,d,hcd,(Calls.conflict_iff hcd).mp hconf,Calls.report_access c d⟩
    refine ⟨reps,hrun,⟨fun hne => ?_,?_⟩,hsound⟩
    · obtain ⟨rep,hrep⟩ := List.exists_mem_of_ne_nil reps hne
      obtain ⟨c,d,hcd,hrace,_⟩ := hsound rep hrep
      exact ⟨c,d,hcd,hrace⟩
    · rintro ⟨c,d,hcd,hrace⟩ rfl
      have hnil : RaceFrontier.run Before kind {} calls.accesses = [] := by
        apply List.eq_nil_iff_forall_not_mem.mpr
        intro p hp
        have hmem := (hreps (report p)).mpr ⟨p,hp,rfl⟩
        cases hmem
      have hsub := calls.pair_accesses.mpr ⟨c,d,hcd,rfl,rfl⟩
      exact (run_eq_nil_iff Calls.transOn).mp hnil _ _ hsub ((Calls.conflict_iff hcd).mpr hrace)

def lateOrder : List (Fin 4 × Fin 4) :=
  [(0,0),(1,1),(1,2),(1,3),(2,2),(2,3),(3,3)]

/-- Thread 1 acts once, thread 2 twice, and thread 3 synchronizes with the second action of
thread 2. The clocks are those of an execution that has passed the largest packed one. -/
def lateHistory : History (Fin 4) where
  thread := ![1,2,2,3]
  seq := ![0x7fffff,0x800000,0x800001,0x800002]
  cv := ![⟨[0,0x7fffff]⟩,⟨[0,0,0x800000]⟩,⟨[0,0,0x800001]⟩,
    ⟨[0,0,0x800001,0x800002]⟩]
  hb a b := (a,b) ∈ lateOrder
  seq_pos := by decide
  own := by decide
  po := by
    intro a b
    revert a b
    decide
  trans := by
    intro a b c
    revert a b c
    decide
  known := by
    intro a b
    revert a b
    decide
  synced := by
    intro b t
    rcases t with _ | _ | _ | _ | t
    · revert b; decide
    · revert b; decide
    · revert b; decide
    · revert b; decide
    · intro hpos
      fin_cases b <;> simp [ClockVector.getClock] at hpos

instance : DecidableRel lateHistory.hb := fun a b =>
  inferInstanceAs (Decidable ((a,b) ∈ lateOrder))

/-- Threads 1 and 2 read, then thread 3 writes. -/
def lateCalls : Calls lateHistory where
  list := [(0,false),(1,false),(3,true)]
  timely := by decide

/-- The first read makes a record without arrays and is written behind their end; thread 3 races
with it. -/
theorem lateCalls_not_exact : lateHistory.Races (0,false) (3,true) ∧ ¬ Exact lateCalls := by
  constructor
  · unfold History.Races History.HappensBefore
    decide
  · rintro ⟨reps,hrun,_⟩
    have hfault : run lateCalls.accesses = .error .outOfBounds := rfl
    rw [hfault] at hrun
    cases hrun

end DataRace
end CdsChecker
