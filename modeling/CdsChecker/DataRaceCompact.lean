import CdsChecker.DataRaceRecord

/-! The compact detector against one that keeps a full record from the first access on. A cell
stays packed for a while, is unpacked by one access, and is a full record from then on. -/
namespace CdsChecker
namespace DataRace

open Access

variable {α : Type}

/-- The cell after a sequence of calls, and the reports of each call. -/
def check (s : Shadow) : List (Access α) → Result (Shadow × List (List (Report α)))
  | [] => .ok (s,[])
  | a :: l => do
    let (s,races) ← raceCheck s a
    let (s,rest) ← check s l
    pure (s,races :: rest)

/-- A record as `expandRecord` makes it, with arrays and no accesses. -/
def emptyRecord : RaceRecord where
  slots := List.replicate initCapacity (0,0)
  capacity := initCapacity
  numReads := 0
  writeThread := 0
  writeClock := 0

/-- The detector that only runs `fullRaceCheckRead` and `fullRaceCheckWrite`. -/
def fullCheck (record : RaceRecord) : List (Access α) → Result (RaceRecord × List (List (Report α)))
  | [] => .ok (record,[])
  | a :: l => do
    let (record,races) ← fullRaceCheck record a
    let (record,rest) ← fullCheck record l
    pure (record,races :: rest)

theorem check_cons {s s' : Shadow} {b : Access α} {races : List (Report α)}
    (h : raceCheck s b = .ok (s',races)) (l : List (Access α)) :
    check s (b :: l) = (check s' l).map fun x => (x.1,races :: x.2) := by
  rw [check,h]
  cases hl : check s' l <;> simp [hl,bind,Except.bind,Except.map,pure,Except.pure]

theorem fullCheck_cons {record record' : RaceRecord} {b : Access α} {races : List (Report α)}
    (h : fullRaceCheck record b = .ok (record',races)) (l : List (Access α)) :
    fullCheck record (b :: l) = (fullCheck record' l).map fun x => (x.1,races :: x.2) := by
  rw [fullCheck,h]
  cases hl : fullCheck record' l <;> simp [hl,bind,Except.bind,Except.map,pure,Except.pure]

theorem check_append {s s₁ : Shadow} {l₁ : List (Access α)} {r₁ : List (List (Report α))}
    (h : check s l₁ = .ok (s₁,r₁)) (l₂ : List (Access α)) :
    check s (l₁ ++ l₂) = (check s₁ l₂).map fun x => (x.1,r₁ ++ x.2) := by
  induction l₁ generalizing s r₁ with
  | nil =>
    obtain ⟨rfl,rfl⟩ : s = s₁ ∧ [] = r₁ := by simpa [check] using h
    cases hl : check s l₂ <;> simp [hl,Except.map]
  | cons b l₁ ih =>
    rw [check,bind_eq_ok] at h
    obtain ⟨⟨s',races⟩,hb,h⟩ := h
    rw [bind_eq_ok] at h
    obtain ⟨⟨s'',rest⟩,hrest,h⟩ := h
    obtain ⟨rfl,rfl⟩ : s'' = s₁ ∧ races :: rest = r₁ := by simpa using h
    rw [List.cons_append,check_cons hb,ih hrest]
    cases check s'' l₂ <;> rfl

theorem fullCheck_append {record record₁ : RaceRecord} {l₁ : List (Access α)}
    {r₁ : List (List (Report α))} (h : fullCheck record l₁ = .ok (record₁,r₁))
    (l₂ : List (Access α)) :
    fullCheck record (l₁ ++ l₂) = (fullCheck record₁ l₂).map fun x => (x.1,r₁ ++ x.2) := by
  induction l₁ generalizing record r₁ with
  | nil =>
    obtain ⟨rfl,rfl⟩ : record = record₁ ∧ [] = r₁ := by simpa [fullCheck] using h
    cases hl : fullCheck record l₂ <;> simp [hl,Except.map]
  | cons b l₁ ih =>
    rw [fullCheck,bind_eq_ok] at h
    obtain ⟨⟨record',races⟩,hb,h⟩ := h
    rw [bind_eq_ok] at h
    obtain ⟨⟨record'',rest⟩,hrest,h⟩ := h
    obtain ⟨rfl,rfl⟩ : record'' = record₁ ∧ races :: rest = r₁ := by simpa using h
    rw [List.cons_append,fullCheck_cons hb,ih hrest]
    cases fullCheck record'' l₂ <;> rfl

/-! ### Full records -/

def Within : Shadow → Prop
  | .word _ => True
  | .record record => Allocated record

/-- A record with arrays, as every record of the full detector is. -/
structure Ready (record : RaceRecord) : Prop where
  allocated : Allocated record
  capacity : record.capacity ≠ 0

/-- Both detectors get through, with the same reports. -/
def Agree (s : Shadow) (record : RaceRecord) (l : List (Access α)) : Prop :=
  ∃ s' record' reps, check s l = .ok (s',reps) ∧ fullCheck record l = .ok (record',reps) ∧
    Within s'

theorem ready_emptyRecord : Ready emptyRecord :=
  ⟨⟨rfl,Nat.zero_le _⟩,by simp [emptyRecord,initCapacity]⟩

theorem Agree.cons {s s' : Shadow} {record record' : RaceRecord} {b : Access α}
    {races : List (Report α)} {l : List (Access α)} (h : Agree s' record' l)
    (hs : raceCheck s b = .ok (s',races)) (hr : fullRaceCheck record b = .ok (record',races)) :
    Agree s record (b :: l) := by
  obtain ⟨s'',record'',reps,hcheck,hfull,hwithin⟩ := h
  refine ⟨s'',record'',races :: reps,?_,?_,hwithin⟩
  · rw [check_cons hs,hcheck]
    rfl
  · rw [fullCheck_cons hr,hfull]
    rfl

theorem agree_record {record full : RaceRecord} {l : List (Access α)} (hr : Ready record)
    (hf : Ready full) (hsame : SameLive (.record record) (.record full)) :
    Agree (.record record) full l := by
  induction l generalizing record full with
  | nil => exact ⟨.record record,full,[],rfl,rfl,hr.allocated⟩
  | cons b l ih =>
    obtain ⟨record',hrun,halloc,hcap,hafter⟩ := fullRaceCheck_ok hr.allocated hr.capacity b
    obtain ⟨full',hrun',halloc',hcap',hafter'⟩ := fullRaceCheck_ok hf.allocated hf.capacity b
    have hrest := ih ⟨halloc,hcap⟩ ⟨halloc',hcap'⟩ (hsame.after hafter hafter')
    rw [← hsame.cellRaces b] at hrun'
    refine hrest.cons ?_ hrun'
    rw [raceCheck_record,hrun]
    rfl

/-- A record without arrays serves writes. -/
theorem agree_bare {record full : RaceRecord} {l : List (Access α)} (hr : Allocated record)
    (hf : Ready full) (hsame : SameLive (.record record) (.record full))
    (hl : ∀ b ∈ l, b.isWrite = true) : Agree (.record record) full l := by
  induction l generalizing record full with
  | nil => exact ⟨.record record,full,[],rfl,rfl,hr⟩
  | cons b l ih =>
    obtain ⟨record',hrun,halloc,_,hafter⟩ := fullRaceCheck_write hr (hl b (by simp))
    obtain ⟨full',hrun',halloc',hcap',hafter'⟩ := fullRaceCheck_ok hf.allocated hf.capacity b
    have hrest := ih halloc ⟨halloc',hcap'⟩ (hsame.after hafter hafter')
      fun c hc => hl c (List.mem_cons_of_mem b hc)
    rw [← hsame.cellRaces b] at hrun'
    refine hrest.cons ?_ hrun'
    rw [raceCheck_record,hrun]
    rfl

theorem fault_bare {record : RaceRecord} {l : List (Access α)} (hr : Allocated record)
    (hcap : record.capacity = 0) (hl : ∃ b ∈ l, b.isWrite = false) :
    check (.record record) l = .error .outOfBounds := by
  induction l generalizing record with
  | nil => simp at hl
  | cons b l ih =>
    cases hb : b.isWrite with
    | true =>
      obtain ⟨record',hrun,halloc,hcap',_⟩ := fullRaceCheck_write hr hb
      have hrest := ih halloc (hcap'.trans hcap) (by simpa [hb] using hl)
      have hcheck : raceCheck (.record record) b =
          .ok (.record record',cellRaces (.record record) b) := by
        rw [raceCheck_record,hrun]
        rfl
      rw [check_cons hcheck,hrest]
      rfl
    | false =>
      rw [check,raceCheck_record,fullRaceCheck_fault hr hcap hb]
      rfl

/-! ### Packed words -/

/-- The later access races with the older one, as far as its clock vector can tell. -/
def MayRace (r b : Access α) : Prop := clockMayRace b.cv b.thread r.clock r.thread = true

/-- Of two accesses in a row, the packed word needs to keep the second read only. -/
def Subsumed (r b : Access α) : Prop := r.isWrite = true ∨ b.isWrite = true ∨ ¬ MayRace r b

/-- The accesses leave a packed cell packed. -/
structure Packs (l : List (Access α)) : Prop where
  small : ∀ b ∈ l, tooLarge b = false
  chain : l.IsChain Subsumed

/-- The read a packed word holds: the last access, unless it was a write. -/
def packedRead (l : List (Access α)) : List (ThreadId × ℕ) :=
  ((l.getLast?.filter fun r => !r.isWrite).map entry).toList

/-- The write a packed word holds. -/
def packedWrite (l : List (Access α)) : List (ThreadId × ℕ) :=
  ((l.filter fun b => b.isWrite).getLast?.map entry).toList

theorem Packs.nil : Packs ([] : List (Access α)) := ⟨by simp,by simp⟩

theorem packs_concat {l : List (Access α)} {b : Access α} :
    Packs (l ++ [b]) ↔
      Packs l ∧ tooLarge b = false ∧ ∀ r, l.getLast? = some r → Subsumed r b := by
  constructor
  · intro h
    have hchain := List.isChain_append.mp h.chain
    refine ⟨⟨fun c hc => h.small c (List.mem_append_left _ hc),hchain.1⟩,h.small b (by simp),
      fun r hr => hchain.2.2 r hr b (by simp)⟩
  · rintro ⟨hl,hb,hlast⟩
    refine ⟨?_,List.isChain_append.mpr ⟨hl.chain,by simp,?_⟩⟩
    · intro c hc
      rcases List.mem_append.mp hc with hc | hc
      · exact hl.small c hc
      · obtain rfl : c = b := by simpa using hc
        exact hb
    · intro r hr c hc
      obtain rfl : b = c := by simpa using hc
      exact hlast r hr

/-- The packed cell and the full detector's record after accesses that stay packed. -/
structure Packed (l : List (Access α)) (w : ℕ) (full : RaceRecord)
    (reps : List (List (Report α))) : Prop where
  run : check (.word 0) l = .ok (.word w,reps)
  fullRun : fullCheck emptyRecord l = .ok (full,reps)
  ready : Ready full
  same : SameLive (.word w) (.record full)
  read : live [wordRead w] = live (packedRead l)
  write : live [wordWrite w] = live (packedWrite l)

/-- Which packed reads stay apart from a new access. -/
theorem Packed.stays_iff {l : List (Access α)} {w : ℕ} {full : RaceRecord}
    {reps : List (List (Report α))} (h : Packed l w full reps) (b : Access α) :
    stays b (wordRead w) = true ↔
      ∃ r, l.getLast? = some r ∧ r.isWrite = false ∧ MayRace r b := by
  have hfilter : [wordRead w].filter (stays b) = (packedRead l).filter (stays b) := by
    rw [← filter_stays_live,h.read,filter_stays_live]
  have hone : stays b (wordRead w) = true ↔ [wordRead w].filter (stays b) ≠ [] := by simp
  rw [hone,hfilter,packedRead]
  cases hlast : l.getLast? with
  | none => simp
  | some r => cases hr : r.isWrite <;> simp [hr,entry,stays,MayRace]

theorem Packed.concat {l : List (Access α)} {w : ℕ} {full : RaceRecord}
    {reps : List (List (Report α))} (h : Packed l w full reps) {b : Access α}
    (hsmall : tooLarge b = false) (hsub : ∀ r, l.getLast? = some r → Subsumed r b) :
    ∃ w' full' races, Packed (l ++ [b]) w' full' (reps ++ [races]) := by
  have hstays : b.isWrite = true ∨ stays b (wordRead w) = false := by
    cases hb : b.isWrite with
    | true => exact Or.inl rfl
    | false =>
      right
      rw [← Bool.not_eq_true,h.stays_iff b]
      rintro ⟨r,hr,hrw,hmay⟩
      have hs := hsub r hr
      simp [Subsumed,hrw,hb,hmay] at hs
  obtain ⟨w',hrun,hafter⟩ := raceCheck_packed hsmall hstays
  obtain ⟨full',hrun',halloc,hcap,hafter'⟩ :=
    fullRaceCheck_ok h.ready.allocated h.ready.capacity b
  rw [← h.same.cellRaces b] at hrun'
  refine ⟨w',full',cellRaces (.word w) b,?_,?_,⟨halloc,hcap⟩,h.same.after hafter hafter',
    ?_,?_⟩
  · rw [check_append h.run,check_cons hrun]
    rfl
  · rw [fullCheck_append h.fullRun,fullCheck_cons hrun']
    rfl
  · have hread := hafter.reads
    rw [packedRead,List.getLast?_concat]
    cases hb : b.isWrite with
    | true =>
      have hkeep : ((some b).filter fun r => !r.isWrite) = none := by simp [hb]
      rw [hb] at hread
      rw [hkeep]
      exact hread
    | false =>
      have hkeep : ((some b).filter fun r => !r.isWrite) = some b := by simp [hb]
      have hnone : [wordRead w].filter (stays b) = [] := by simpa [hb] using hstays
      have hread' : live [wordRead w'] = [wordRead w].filter (stays b) ++ live [entry b] := by
        rw [hb] at hread
        exact hread
      rw [hkeep,hread',hnone]
      rfl
  · have hwrite := hafter.write
    rw [packedWrite,List.filter_append]
    cases hb : b.isWrite with
    | true =>
      rw [hb] at hwrite
      have hfilter : List.filter (fun c : Access α => c.isWrite) [b] = [b] := by simp [hb]
      rw [hfilter,List.getLast?_concat]
      exact hwrite
    | false =>
      rw [hb] at hwrite
      have hfilter : List.filter (fun c : Access α => c.isWrite) [b] = [] := by simp [hb]
      rw [hfilter,List.append_nil,← packedWrite,← h.write]
      exact hwrite

theorem Packs.packed {l : List (Access α)} (h : Packs l) :
    ∃ w full reps, Packed l w full reps := by
  induction l using List.reverseRecOn with
  | nil =>
    refine ⟨0,emptyRecord,[],rfl,rfl,ready_emptyRecord,⟨?_,?_⟩,?_,?_⟩
    · simp [shadowReads,wordRead,readVector,recordedReads,emptyRecord,live]
    · simp [shadowWrite,wordWrite,writeVector,recordWrite,emptyRecord,live]
    · simp [wordRead,readVector,packedRead,live]
    · simp [wordWrite,writeVector,packedWrite,live]
  | append_singleton l b ih =>
    obtain ⟨hl,hsmall,hsub⟩ := packs_concat.mp h
    obtain ⟨w,full,reps,hpacked⟩ := ih hl
    obtain ⟨w',full',races,hpacked'⟩ := hpacked.concat hsmall hsub
    exact ⟨w',full',_,hpacked'⟩

/-! ### The access that unpacks the cell -/

/-- `a` is the access of the list that unpacks the cell. -/
structure Unpacks (l₁ : List (Access α)) (a : Access α) : Prop where
  packs : Packs l₁
  not_packs : ¬ Packs (l₁ ++ [a])

theorem packs_or_unpacks (l : List (Access α)) :
    Packs l ∨ ∃ l₁ a l₂, l = l₁ ++ a :: l₂ ∧ Unpacks l₁ a := by
  induction l using List.reverseRecOn with
  | nil => exact Or.inl .nil
  | append_singleton l b ih =>
    rcases ih with hl | ⟨l₁,a,l₂,rfl,h⟩
    · by_cases hb : Packs (l ++ [b])
      · exact Or.inl hb
      · exact Or.inr ⟨l,b,[],rfl,hl,hb⟩
    · exact Or.inr ⟨l₁,a,l₂ ++ [b],by simp,h⟩

theorem Packs.of_append {l₁ l₂ : List (Access α)} (h : Packs (l₁ ++ l₂)) : Packs l₁ :=
  ⟨fun b hb => h.small b (List.mem_append_left _ hb),(List.isChain_append.mp h.chain).1⟩

theorem Unpacks.prefix {l₁ l₁' l₂ l₂' : List (Access α)} {a a' : Access α} (h : Unpacks l₁ a)
    (h' : Unpacks l₁' a') {c : List (Access α)} (hl : l₁' = l₁ ++ c)
    (heq : a :: l₂ = c ++ a' :: l₂') : l₁ = l₁' ∧ a = a' ∧ l₂ = l₂' := by
  cases c with
  | nil =>
    obtain ⟨rfl,rfl⟩ : a = a' ∧ l₂ = l₂' := by simpa using heq
    exact ⟨by simp [hl],rfl,rfl⟩
  | cons x c =>
    obtain ⟨rfl,_⟩ : a = x ∧ l₂ = c ++ a' :: l₂' := by simpa using heq
    have hpacks : Packs ((l₁ ++ [a]) ++ c) := by simpa [hl] using h'.packs
    exact (h.not_packs hpacks.of_append).elim

/-- Only one access unpacks the cell. -/
theorem Unpacks.unique {l₁ l₁' l₂ l₂' : List (Access α)} {a a' : Access α} (h : Unpacks l₁ a)
    (h' : Unpacks l₁' a') (heq : l₁ ++ a :: l₂ = l₁' ++ a' :: l₂') :
    l₁ = l₁' ∧ a = a' ∧ l₂ = l₂' := by
  rcases List.append_eq_append_iff.mp heq with ⟨c,hl,hc⟩ | ⟨c,hl,hc⟩
  · exact h.prefix h' hl hc
  · obtain ⟨h₁,h₂,h₃⟩ := h'.prefix h hl hc
    exact ⟨h₁.symm,h₂.symm,h₃.symm⟩

theorem Unpacks.of_large {l₁ : List (Access α)} {a : Access α} (h : Packs l₁)
    (hlarge : tooLarge a = true) : Unpacks l₁ a := by
  refine ⟨h,fun hpacks => ?_⟩
  have hsmall := (packs_concat.mp hpacks).2.1
  rw [hlarge] at hsmall
  cases hsmall

/-- The read before the unpacking read, which the latter does not subsume. -/
def Apart (l₁ : List (Access α)) (a : Access α) : Prop :=
  a.isWrite = false ∧ ∃ r, l₁.getLast? = some r ∧ r.isWrite = false ∧ MayRace r a

theorem unpacks_iff {l₁ : List (Access α)} {a : Access α} :
    Unpacks l₁ a ↔ Packs l₁ ∧ (tooLarge a = true ∨ Apart l₁ a) := by
  constructor
  · rintro ⟨hpacks,hnot⟩
    refine ⟨hpacks,?_⟩
    by_contra hneither
    rw [not_or,Bool.not_eq_true] at hneither
    apply hnot
    refine packs_concat.mpr ⟨hpacks,hneither.1,fun r hr => ?_⟩
    by_contra hsub
    rw [Subsumed,not_or,not_or,Bool.not_eq_true,Bool.not_eq_true,not_not] at hsub
    exact hneither.2 ⟨hsub.2.1,r,hr,hsub.1,hsub.2.2⟩
  · rintro ⟨hpacks,hlarge | ⟨ha,r,hr,hrw,hmay⟩⟩
    · exact .of_large hpacks hlarge
    · refine ⟨hpacks,fun hnew => ?_⟩
      have hsub := (packs_concat.mp hnew).2.2 r hr
      simp [Subsumed,ha,hrw,hmay] at hsub

/-- Whether the packed word holds a read. -/
def HoldsNoRead (l₁ : List (Access α)) : Prop :=
  ∀ r, l₁.getLast? = some r → r.isWrite = true ∨ r.clock = 0

theorem Packed.readVector_iff {l : List (Access α)} {w : ℕ} {full : RaceRecord}
    {reps : List (List (Report α))} (h : Packed l w full reps) :
    readVector w = 0 ↔ HoldsNoRead l := by
  have hone : readVector w = 0 ↔ live [wordRead w] = [] := by simp [live,wordRead]
  rw [hone,h.read,packedRead,HoldsNoRead]
  cases hlast : l.getLast? with
  | none => simp [live]
  | some r => cases hr : r.isWrite <;> simp [hr,live,entry]

section Unpack

variable {l₁ l₂ : List (Access α)} {a : Access α}

theorem fault_of_large (hpacks : Packs l₁) (hlarge : tooLarge a = true) (hno : HoldsNoRead l₁)
    (hread : ∃ b ∈ a :: l₂, b.isWrite = false) :
    check (.word 0) (l₁ ++ a :: l₂) = .error .outOfBounds := by
  obtain ⟨w,full,reps,hpacked⟩ := hpacks.packed
  obtain ⟨halloc,_,hcap⟩ := expandRecord_allocated w
  have hfault := fault_bare halloc (hcap.mpr (hpacked.readVector_iff.mpr hno)) hread
  have hexpand : check (.word w) (a :: l₂) = check (.record (expandRecord w)) (a :: l₂) := by
    rw [check,check,raceCheck_large hlarge]
  rw [check_append hpacked.run,hexpand,hfault]
  rfl

theorem agree_append {w : ℕ} {full : RaceRecord} {reps : List (List (Report α))}
    (h : Packed l₁ w full reps) (hrest : Agree (.word w) full l₂) :
    Agree (.word 0) emptyRecord (l₁ ++ l₂) := by
  obtain ⟨s',full',reps',hcheck,hfull,hwithin⟩ := hrest
  refine ⟨s',full',reps ++ reps',?_,?_,hwithin⟩
  · rw [check_append h.run,hcheck]
    rfl
  · rw [fullCheck_append h.fullRun,hfull]
    rfl

theorem agree_of_large (hpacks : Packs l₁) (hlarge : tooLarge a = true)
    (hok : ¬ HoldsNoRead l₁ ∨ ∀ b ∈ a :: l₂, b.isWrite = true) :
    Agree (.word 0) emptyRecord (l₁ ++ a :: l₂) := by
  obtain ⟨w,full,reps,hpacked⟩ := hpacks.packed
  obtain ⟨halloc,hsame,hcap⟩ := expandRecord_allocated w
  have hrelated := hsame.symm.trans hpacked.same
  have hrest : Agree (.record (expandRecord w)) full (a :: l₂) := by
    rcases hok with hhas | hwrites
    · have hne : (expandRecord w).capacity ≠ 0 := by
        rw [Ne,hcap,hpacked.readVector_iff]
        exact hhas
      exact agree_record ⟨halloc,hne⟩ hpacked.ready hrelated
    · exact agree_bare halloc hpacked.ready hrelated hwrites
  apply agree_append hpacked
  obtain ⟨s',full',reps',hcheck,hrun⟩ := hrest
  refine ⟨s',full',reps',?_,hrun⟩
  rw [check,raceCheck_large hlarge,← check]
  exact hcheck

/-- An unpacking read that fits: its report of the last write appears twice. -/
theorem unpack_twice (hpacks : Packs l₁) (hsmall : tooLarge a = false) (hapart : Apart l₁ a) :
    ∃ s full r₁ r₂, check (.word 0) (l₁ ++ a :: l₂) =
        .ok (s,r₁ ++ (checkAll a true (packedWrite l₁) ++ checkAll a true (packedWrite l₁)) :: r₂) ∧
      fullCheck emptyRecord (l₁ ++ a :: l₂) =
        .ok (full,r₁ ++ checkAll a true (packedWrite l₁) :: r₂) ∧ Within s := by
  obtain ⟨w,full,reps,hpacked⟩ := hpacks.packed
  have hstays := (hpacked.stays_iff a).mpr hapart.2
  have hraces : cellRaces (.word w) a = checkAll a true (packedWrite l₁) := by
    rw [cellRaces,if_neg (by simp [hapart.1]),List.nil_append,← checkAll_live,shadowWrite,
      hpacked.write,checkAll_live]
  obtain ⟨record,hrun,halloc,hcap,hafter⟩ := raceCheck_unpack hsmall hapart.1 hstays
  obtain ⟨full',hrun',halloc',hcap',hafter'⟩ :=
    fullRaceCheck_ok hpacked.ready.allocated hpacked.ready.capacity a
  rw [← hpacked.same.cellRaces a] at hrun'
  rw [hraces] at hrun hrun'
  obtain ⟨s,full'',reps',hcheck,hfull,hwithin⟩ :
      Agree (.record record) full' l₂ :=
    agree_record ⟨halloc,hcap⟩ ⟨halloc',hcap'⟩ (hpacked.same.after hafter hafter')
  refine ⟨s,full'',reps,reps',?_,?_,hwithin⟩
  · rw [check_append hpacked.run,check_cons hrun,hcheck]
    rfl
  · rw [fullCheck_append hpacked.fullRun,fullCheck_cons hrun',hfull]
    rfl

end Unpack

/-! ### Bounds -/

/-- The cell is unpacked without arrays for its reads, and a read comes then. -/
def UnpacksBare (l : List (Access α)) : Prop :=
  ∃ l₁ a l₂, l = l₁ ++ a :: l₂ ∧ Packs l₁ ∧ tooLarge a = true ∧ HoldsNoRead l₁ ∧
    ∃ b ∈ a :: l₂, b.isWrite = false

/-- The access that unpacks the cell fits, and races with the packed write. -/
def ReportsTwice (l : List (Access α)) : Prop :=
  ∃ l₁ a l₂, l = l₁ ++ a :: l₂ ∧ Packs l₁ ∧ tooLarge a = false ∧ Apart l₁ a ∧
    checkAll a true (packedWrite l₁) ≠ []

/-- What can come of a sequence of calls. -/
theorem check_cases (l : List (Access α)) :
    (UnpacksBare l ∧ check (.word 0) l = .error .outOfBounds) ∨
      (¬ UnpacksBare l ∧ ¬ ReportsTwice l ∧ Agree (.word 0) emptyRecord l) ∨
      (¬ UnpacksBare l ∧ ReportsTwice l ∧ ∃ s full reps reps',
        check (.word 0) l = .ok (s,reps) ∧ fullCheck emptyRecord l = .ok (full,reps') ∧
          reps ≠ reps' ∧ Within s) := by
  rcases packs_or_unpacks l with hpacks | ⟨l₁,a,l₂,rfl,hunpacks⟩
  · right; left
    refine ⟨?_,?_,?_⟩
    · rintro ⟨l₁,a,l₂,rfl,-,hlarge,-⟩
      have hsmall := hpacks.small a (by simp)
      rw [hlarge] at hsmall
      cases hsmall
    · rintro ⟨l₁,a,l₂,rfl,hpacks₁,-,hapart,-⟩
      have hsplit : Packs ((l₁ ++ [a]) ++ l₂) := by simpa using hpacks
      exact (unpacks_iff.mpr ⟨hpacks₁,Or.inr hapart⟩).not_packs hsplit.of_append
    · obtain ⟨w,full,reps,hpacked⟩ := hpacks.packed
      exact ⟨.word w,full,reps,hpacked.run,hpacked.fullRun,trivial⟩
  · have hpacks := hunpacks.packs
    have hbare : UnpacksBare (l₁ ++ a :: l₂) ↔
        tooLarge a = true ∧ HoldsNoRead l₁ ∧ ∃ b ∈ a :: l₂, b.isWrite = false := by
      constructor
      · rintro ⟨l₁',a',l₂',heq,hpacks',hlarge,hrest⟩
        obtain ⟨rfl,rfl,rfl⟩ := hunpacks.unique (.of_large hpacks' hlarge) heq
        exact ⟨hlarge,hrest⟩
      · intro h
        exact ⟨l₁,a,l₂,rfl,hpacks,h⟩
    have htwice : ReportsTwice (l₁ ++ a :: l₂) ↔
        tooLarge a = false ∧ Apart l₁ a ∧ checkAll a true (packedWrite l₁) ≠ [] := by
      constructor
      · rintro ⟨l₁',a',l₂',heq,hpacks',hsmall,hapart,hrest⟩
        obtain ⟨rfl,rfl,rfl⟩ :=
          hunpacks.unique (unpacks_iff.mpr ⟨hpacks',Or.inr hapart⟩) heq
        exact ⟨hsmall,hapart,hrest⟩
      · intro h
        exact ⟨l₁,a,l₂,rfl,hpacks,h⟩
    rw [hbare,htwice]
    cases hlarge : tooLarge a with
    | true =>
      by_cases hfault : HoldsNoRead l₁ ∧ ∃ b ∈ a :: l₂, b.isWrite = false
      · left
        exact ⟨⟨rfl,hfault⟩,fault_of_large hpacks hlarge hfault.1 hfault.2⟩
      · right; left
        refine ⟨fun h => hfault h.2,by simp,agree_of_large hpacks hlarge ?_⟩
        rw [not_and_or] at hfault
        refine hfault.imp id fun h b hb => ?_
        by_contra hread
        exact h ⟨b,hb,by simpa using hread⟩
    | false =>
      have hapart : Apart l₁ a := by
        have h := (unpacks_iff.mp hunpacks).2
        rw [hlarge] at h
        exact h.resolve_left Bool.false_ne_true
      obtain ⟨s,full,r₁,r₂,hcheck,hfull,hwithin⟩ :=
        unpack_twice hpacks hlarge hapart
      by_cases hnil : checkAll a true (packedWrite l₁) = []
      · right; left
        rw [hnil] at hcheck hfull
        exact ⟨by simp,by simp [hnil],s,full,_,hcheck,hfull,hwithin⟩
      · right; right
        refine ⟨by simp,⟨rfl,hapart,hnil⟩,s,full,_,_,hcheck,hfull,?_,hwithin⟩
        intro heq
        apply hnil
        simpa using heq

theorem UnpacksBare.append {l l' : List (Access α)} (h : UnpacksBare l) :
    UnpacksBare (l ++ l') := by
  obtain ⟨l₁,a,l₂,rfl,hpacks,hlarge,hno,b,hb,hread⟩ := h
  refine ⟨l₁,a,l₂ ++ l',by simp,hpacks,hlarge,hno,b,?_,hread⟩
  rw [← List.cons_append]
  exact List.mem_append_left _ hb

/-- After every call the recorded reads fit in the allocated arrays, and no call writes behind
them. -/
def StaysWithin (l : List (Access α)) : Prop :=
  ∀ l₁ l₂, l = l₁ ++ l₂ → ∃ s reps, check (.word 0) l₁ = .ok (s,reps) ∧ Within s

theorem staysWithin_iff (l : List (Access α)) : StaysWithin l ↔ ¬ UnpacksBare l := by
  constructor
  · intro h hbare
    obtain ⟨s,reps,hcheck,_⟩ := h l [] (by simp)
    rcases check_cases l with ⟨_,hfault⟩ | ⟨hnot,_⟩ | ⟨hnot,_⟩
    · rw [hfault] at hcheck
      cases hcheck
    · exact hnot hbare
    · exact hnot hbare
  · rintro hnot l₁ l₂ rfl
    rcases check_cases l₁ with ⟨hbare,_⟩ | ⟨_,_,s,_,reps,hcheck,_,hwithin⟩ |
        ⟨_,_,s,_,reps,_,hcheck,_,_,hwithin⟩
    · exact (hnot hbare.append).elim
    · exact ⟨s,reps,hcheck,hwithin⟩
    · exact ⟨s,reps,hcheck,hwithin⟩

/-- The first clock that no packed word can hold. -/
def lateRead : Access (Fin 1) := ⟨1,0,⟨[0,0x7fffff]⟩,false⟩

/-- Read first on a fresh cell, it is written behind the end of arrays of size zero. -/
theorem lateRead_overflows : ¬ StaysWithin [lateRead] := by
  intro h
  obtain ⟨s,reps,hcheck,_⟩ := h [lateRead] [] rfl
  have hfault : check (.word 0) [lateRead] = .error .outOfBounds := rfl
  rw [hfault] at hcheck
  cases hcheck

/-- Both detectors return and report the same races at each call. -/
def AgreesWithFull (l : List (Access α)) : Prop :=
  ∃ s full reps, check (.word 0) l = .ok (s,reps) ∧ fullCheck emptyRecord l = .ok (full,reps)

theorem agreesWithFull_iff (l : List (Access α)) :
    AgreesWithFull l ↔ ¬ UnpacksBare l ∧ ¬ ReportsTwice l := by
  constructor
  · rintro ⟨s,full,reps,hcheck,hfull⟩
    rcases check_cases l with ⟨_,hfault⟩ | ⟨hbare,htwice,_⟩ |
        ⟨_,_,s',full',r₁,r₂,hcheck',hfull',hne,_⟩
    · rw [hfault] at hcheck
      cases hcheck
    · exact ⟨hbare,htwice⟩
    · rw [hcheck] at hcheck'
      rw [hfull] at hfull'
      cases hcheck'
      cases hfull'
      exact (hne rfl).elim
  · rintro ⟨hbare,htwice⟩
    rcases check_cases l with ⟨hb,_⟩ | ⟨_,_,s,full,reps,hcheck,hfull,_⟩ | ⟨_,ht,_⟩
    · exact (hbare hb).elim
    · exact ⟨s,full,reps,hcheck,hfull⟩
    · exact (htwice ht).elim

/-- Three threads without synchronization: one writes, the other two read. -/
def threeThreads : List (Access (Fin 3)) :=
  [⟨1,0,⟨[0,1]⟩,true⟩,⟨2,1,⟨[0,0,2]⟩,false⟩,⟨3,2,⟨[0,0,0,3]⟩,false⟩]

/-- The second read is reported as racing with the write twice. -/
theorem threeThreads_disagree : ¬ AgreesWithFull threeThreads := by
  rintro ⟨s,full,reps,hcheck,hfull⟩
  have hcompact : (check (.word 0) threeThreads).map (fun x => x.2.map List.length) =
      .ok [0,1,2] := rfl
  have hrecord : (fullCheck emptyRecord threeThreads).map (fun x => x.2.map List.length) =
      .ok [0,1,1] := rfl
  rw [hcheck] at hcompact
  rw [hfull] at hrecord
  have heq : (Except.ok [0,1,2] : Result (List ℕ)) = .ok [0,1,1] := hcompact.symm.trans hrecord
  cases heq

end DataRace
end CdsChecker
