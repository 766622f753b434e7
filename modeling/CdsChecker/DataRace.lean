import CdsChecker.ClockVector

/-! The data race detector for one shadow memory cell. A cell holds a packed word or, once it
has been expanded, a full record. -/
namespace CdsChecker
namespace DataRace

/-- One call of the detector: the thread, its last action with that action's clock vector, and
the kind of access. -/
structure Access (α : Type) where
  thread : ThreadId
  action : α
  cv : ClockVector
  isWrite : Bool

/-- A reported pair; the older access is known by its thread and clock. -/
structure Report (α : Type) where
  oldthread : ThreadId
  oldclock : ℕ
  isoldwrite : Bool
  newaction : α
  isnewwrite : Bool

/-- `slots` is the allocated part of the arrays `thread` and `readClock`, side by side. -/
structure RaceRecord where
  slots : List (ThreadId × ℕ)
  capacity : ℕ
  numReads : ℕ
  writeThread : ThreadId
  writeClock : ℕ
  deriving DecidableEq, Repr

inductive Shadow
  | word (w : ℕ)
  | record (r : RaceRecord)
  deriving DecidableEq, Repr

def initCapacity : ℕ := 4

/-! ### The packed word -/

def threadMask : ℕ := 0xff
def readMask : ℕ := 0x07fffff
def writeMask : ℕ := readMask
def maxThreadId : ℕ := threadMask - 1
def maxWriteVector : ℕ := writeMask - 1

def rdThreadId (x : ℕ) : ThreadId := (x >>> 1) &&& threadMask
def readVector (x : ℕ) : ℕ := (x >>> 9) &&& readMask
def wrThreadId (x : ℕ) : ThreadId := (x >>> 32) &&& threadMask
def writeVector (x : ℕ) : ℕ := (x >>> 40) &&& writeMask

/-- The first two fields are shifted as 32-bit numbers, the others as 64-bit numbers. -/
def encodeOp (rdthread : ThreadId) (rdtime : ℕ) (wrthread : ThreadId) (wrtime : ℕ) : ℕ :=
  1 ||| ((rdthread <<< 1) % 2 ^ 32) ||| ((rdtime <<< 9) % 2 ^ 32) |||
    ((wrthread <<< 32) % 2 ^ 64) ||| ((wrtime <<< 40) % 2 ^ 64)

/-! ### Checks -/

variable {α : Type}

def clockMayRace (clock1 : ClockVector) (tid1 : ThreadId) (clock2 : ℕ) (tid2 : ThreadId) : Bool :=
  tid1 ≠ tid2 && clock2 ≠ 0 && clock1.getClock tid2 ≤ clock2

/-- The report of a race with an older access, if there is one. -/
def checkRace (a : Access α) (oldthread : ThreadId) (oldclock : ℕ) (isoldwrite : Bool) :
    List (Report α) :=
  if clockMayRace a.cv a.thread oldclock oldthread then
    [⟨oldthread,oldclock,isoldwrite,a.action,a.isWrite⟩]
  else []

/-- A record without reads gets no arrays; the unwritten slots of fresh arrays are never
read. -/
def expandRecord (shadowval : ℕ) : RaceRecord :=
  if readVector shadowval ≠ 0 then
    { slots := (rdThreadId shadowval,readVector shadowval) ::
        List.replicate (initCapacity - 1) (0,0)
      capacity := initCapacity
      numReads := 1
      writeThread := wrThreadId shadowval
      writeClock := writeVector shadowval }
  else
    { slots := []
      capacity := 0
      numReads := 0
      writeThread := wrThreadId shadowval
      writeClock := writeVector shadowval }

def getSlot (slots : List (ThreadId × ℕ)) (i : ℕ) : Result (ThreadId × ℕ) :=
  match slots[i]? with
  | some x => .ok x
  | none => .error .outOfBounds

def setSlot (slots : List (ThreadId × ℕ)) (i : ℕ) (x : ThreadId × ℕ) :
    Result (List (ThreadId × ℕ)) :=
  if i < slots.length then .ok (slots.set i x) else .error .outOfBounds

/-- The loop over the recorded reads in `fullRaceCheckWrite`. -/
def checkReads (slots : List (ThreadId × ℕ)) (a : Access α) : List ℕ → Result (List (Report α))
  | [] => .ok []
  | i :: is => do
    let (readThread,readClock) ← getSlot slots i
    let rest ← checkReads slots a is
    pure (checkRace a readThread readClock false ++ rest)

def fullRaceCheckWrite (record : RaceRecord) (a : Access α) :
    Result (RaceRecord × List (Report α)) := do
  let reads ← checkReads record.slots a (List.range record.numReads)
  pure ({ record with
      numReads := 0
      writeThread := a.thread
      writeClock := a.cv.getClock a.thread },
    reads ++ checkRace a record.writeThread record.writeClock true)

/-- One assignment of the shortening loop, left out when the read is in place already. -/
def moveRead (slots : List (ThreadId × ℕ)) (copytoindex i : ℕ) (x : ThreadId × ℕ) :
    Result (List (ThreadId × ℕ)) :=
  if copytoindex ≠ i then setSlot slots copytoindex x else .ok slots

/-- The loop that shortens the vector of reads: the ones still needed move to the front. -/
def shortenReads (a : Access α) :
    List ℕ → List (ThreadId × ℕ) → ℕ → Result (List (ThreadId × ℕ) × ℕ)
  | [],slots,copytoindex => .ok (slots,copytoindex)
  | i :: is,slots,copytoindex => do
    let (readThread,readClock) ← getSlot slots i
    if clockMayRace a.cv a.thread readClock readThread then do
      let slots ← moveRead slots copytoindex i (readThread,readClock)
      shortenReads a is slots (copytoindex + 1)
    else shortenReads a is slots copytoindex

/-- Doubling the arrays when they are full; only `capacity` slots are copied. -/
def growReads (slots : List (ThreadId × ℕ)) (capacity copytoindex : ℕ) :
    List (ThreadId × ℕ) × ℕ :=
  if copytoindex ≥ capacity then
    (slots.take capacity ++ List.replicate (capacity * 2 - capacity) (0,0),capacity * 2)
  else (slots,capacity)

def fullRaceCheckRead (record : RaceRecord) (a : Access α) :
    Result (RaceRecord × List (Report α)) := do
  let (slots,copytoindex) ← shortenReads a (List.range record.numReads) record.slots 0
  let (slots,capacity) := growReads slots record.capacity copytoindex
  let slots ← setSlot slots copytoindex (a.thread,a.cv.getClock a.thread)
  pure ({ record with slots := slots,capacity := capacity,numReads := copytoindex + 1 },
    checkRace a record.writeThread record.writeClock true)

/-- Thread ids and clocks that no packed word can hold. -/
def tooLarge (a : Access α) : Bool :=
  a.thread > maxThreadId || a.cv.getClock a.thread > maxWriteVector

def raceCheckWrite (shadow : Shadow) (a : Access α) : Result (Shadow × List (Report α)) :=
  match shadow with
  | .record record => do
    let (record,races) ← fullRaceCheckWrite record a
    pure (.record record,races)
  | .word shadowval =>
    if tooLarge a then do
      let (record,races) ← fullRaceCheckWrite (expandRecord shadowval) a
      pure (.record record,races)
    else
      .ok (.word (encodeOp 0 0 a.thread (a.cv.getClock a.thread)),
        checkRace a (rdThreadId shadowval) (readVector shadowval) false ++
          checkRace a (wrThreadId shadowval) (writeVector shadowval) true)

def raceCheckRead (shadow : Shadow) (a : Access α) : Result (Shadow × List (Report α)) :=
  match shadow with
  | .record record => do
    let (record,races) ← fullRaceCheckRead record a
    pure (.record record,races)
  | .word shadowval =>
    if tooLarge a then do
      let (record,races) ← fullRaceCheckRead (expandRecord shadowval) a
      pure (.record record,races)
    else
      let writes := checkRace a (wrThreadId shadowval) (writeVector shadowval) true
      -- a read that the new one does not subsume needs a full record
      if clockMayRace a.cv a.thread (readVector shadowval) (rdThreadId shadowval) then do
        let (record,races) ← fullRaceCheckRead (expandRecord shadowval) a
        pure (.record record,writes ++ races)
      else
        .ok (.word (encodeOp a.thread (a.cv.getClock a.thread) (wrThreadId shadowval)
          (writeVector shadowval)),writes)

def raceCheck (shadow : Shadow) (a : Access α) : Result (Shadow × List (Report α)) :=
  if a.isWrite then raceCheckWrite shadow a else raceCheckRead shadow a

/-- The reports of a sequence of calls on one cell. -/
def runFrom (shadow : Shadow) : List (Access α) → Result (List (Report α))
  | [] => .ok []
  | a :: l => do
    let (shadow,races) ← raceCheck shadow a
    let rest ← runFrom shadow l
    pure (races ++ rest)

/-- A cell of fresh shadow memory is zero. -/
def run (l : List (Access α)) : Result (List (Report α)) := runFrom (.word 0) l

end DataRace
end CdsChecker
