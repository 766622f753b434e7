import CdsChecker.Library.AtomicCell
import Mathlib.Algebra.Order.Ring.Int
import Mathlib.Tactic.Ring

/-! `std::shared_mutex`: any number of clients, each between two atomic operations on
`_refcount`. -/
namespace CdsChecker.SharedMutex

def LOCK_WRITER : ℤ := -1

def LOCK_FREE : ℤ := 0

def INT_MAX : ℤ := 2 ^ 31 - 1

/-- The `int` an arithmetic result is stored as. -/
def toInt (x : ℤ) : ℤ := x.bmod (2 ^ 32)

theorem toInt_eq {x : ℤ} (hlow : -2 ^ 31 ≤ x) (hhigh : x ≤ INT_MAX) : toInt x = x := by
  unfold INT_MAX at hhigh
  exact Int.bmod_eq_of_le (by omega) (by omega)

/-- The `MODEL_ASSERT`s, in the order of the source. -/
inductive Assertion
  | lockVal | lockRefcount | unlockRefcount | lockSharedFree | lockSharedVal | lockSharedRefcount
  | unlockSharedRefcount
  deriving DecidableEq, Repr

/-- Where a client stands: before the named statement. -/
inductive Client
  | outside
  | lock (val : ℤ)
  | lockVal (val : ℤ)
  | lockRefcount
  | writing
  | unlockRefcount
  | lockShared (val : ℤ)
  | lockSharedFree (val : ℤ)
  | lockSharedExchange (val : ℤ)
  | lockSharedVal (val : ℤ)
  | lockSharedRefcount
  | reading
  | unlockSharedRefcount
  deriving DecidableEq, Repr

namespace Client

/-- From the successful exchange of `lock` to the store of `unlock`. -/
def insideWrite : Client → Bool
  | lockVal _ | lockRefcount | writing => true
  | _ => false

/-- From the successful exchange of `lock_shared` to the subtraction of `unlock_shared`. -/
def insideRead : Client → Bool
  | lockSharedVal _ | lockSharedRefcount | reading => true
  | _ => false

end Client

/-- Who moves next, and what the memory lets it see. A client outside calls `lock_shared`
or `lock`; a load reads the value of index `readsFrom`. -/
structure Choice where
  thread : ℕ
  shared : Bool := false
  readsFrom : ℕ := 0
  spurious : Bool := false
  deriving DecidableEq, Repr

structure Effect where
  refcount : AtomicCell ℤ
  client : Client
  failed : List Assertion := []
  deriving DecidableEq, Repr

/-- A failed assertion is recorded, and the client goes on. -/
def modelAssert (a : Assertion) (expr : Prop) [Decidable expr] : List Assertion :=
  if expr then [] else [a]

/-- Success, the expected value afterwards, and the location. -/
def compareExchangeWeak (a : AtomicCell ℤ) (c : Choice) (val desired : ℤ) :
    Option (Bool × ℤ × AtomicCell ℤ) :=
  (a.load c.readsFrom).map fun read =>
    if read = val ∧ c.readsFrom = a.position ∧ c.spurious = false then (true,val,a.store desired)
    else (false,read,a)

/-- The value before, and the location. -/
def fetchAdd (a : AtomicCell ℤ) (operand : ℤ) : ℤ × AtomicCell ℤ :=
  (a.latest,a.store (toInt (a.latest + operand)))

def fetchSub (a : AtomicCell ℤ) (operand : ℤ) : ℤ × AtomicCell ℤ :=
  (a.latest,a.store (toInt (a.latest - operand)))

/-- An assertion compares `_refcount` with a number: `operator ==`, `>` and `>=` all add 0 to it. -/
def assertRefcount (a : AtomicCell ℤ) (assertion : Assertion) (expr : ℤ → Prop) [DecidablePred expr]
    (next : Client) : Effect :=
  let (count,a') := fetchAdd a 0
  ⟨a',next,modelAssert assertion (expr count)⟩

/-- One statement of the client with an atomic operation or an assertion. -/
def Client.step (a : AtomicCell ℤ) (c : Choice) : Client → Option Effect
  | outside => some ⟨a,if c.shared then lockShared 0 else lock 0,[]⟩
  | lock _ =>
    -- `val` is reset at each turn of the loop
    (compareExchangeWeak a c 0 LOCK_WRITER).map fun (ok,val,a') =>
      ⟨a',if ok then lockVal val else lock val,[]⟩
  | lockVal val => some ⟨a,lockRefcount,modelAssert .lockVal (val = 0)⟩
  | lockRefcount => some (assertRefcount a .lockRefcount (· = LOCK_WRITER) writing)
  | writing => some ⟨a.store LOCK_FREE,unlockRefcount,[]⟩
  | unlockRefcount => some (assertRefcount a .unlockRefcount (LOCK_WRITER ≤ ·) outside)
  | lockShared _ => (a.load c.readsFrom).map fun val =>
      ⟨a,if val = LOCK_WRITER then lockShared val else lockSharedFree val,[]⟩
  | lockSharedFree val =>
      some ⟨a,lockSharedExchange val,modelAssert .lockSharedFree (val = 0)⟩
  | lockSharedExchange val =>
    (compareExchangeWeak a c val (toInt (val + 1))).map fun (ok,val,a') =>
      ⟨a',if ok then lockSharedVal val else lockShared val,[]⟩
  | lockSharedVal val => some ⟨a,lockSharedRefcount,modelAssert .lockSharedVal (0 ≤ val)⟩
  | lockSharedRefcount => some (assertRefcount a .lockSharedRefcount (0 < ·) reading)
  | reading => some ⟨(fetchSub a 1).2,unlockSharedRefcount,[]⟩
  | unlockSharedRefcount =>
      some (assertRefcount a .unlockSharedRefcount (LOCK_WRITER ≤ ·) outside)

structure State where
  refcount : AtomicCell ℤ
  clients : List Client
  failed : List Assertion := []
  deriving DecidableEq, Repr

namespace State

/-- The constructor stores over the initial value. -/
def init (n : ℕ) : State where
  refcount := ⟨[LOCK_FREE],LOCK_FREE⟩
  clients := List.replicate n .outside

def writers (s : State) : ℕ := s.clients.countP Client.insideWrite

def readers (s : State) : ℕ := s.clients.countP Client.insideRead

def step (s : State) (c : Choice) : Option State := do
  let client ← s.clients[c.thread]?
  let effect ← client.step s.refcount c
  some { refcount := effect.refcount
         clients := s.clients.set c.thread effect.client
         failed := s.failed ++ effect.failed }

theorem step_cases {s s' : State} {c : Choice} (h : s.step c = some s') :
    ∃ p effect, s.clients[c.thread]? = some p ∧ p.step s.refcount c = some effect ∧
      s' = { refcount := effect.refcount
             clients := s.clients.set c.thread effect.client
             failed := s.failed ++ effect.failed } := by
  obtain ⟨p,hp,h⟩ := Option.bind_eq_some_iff.mp h
  obtain ⟨effect,heffect,h⟩ := Option.bind_eq_some_iff.mp h
  exact ⟨p,effect,hp,heffect,(Option.some.inj h).symm⟩

end State

theorem modelAssert_eq_nil {a : Assertion} {expr : Prop} [Decidable expr] :
    modelAssert a expr = [] ↔ expr := by
  unfold modelAssert
  split <;> simp [*]

theorem compareExchangeWeak_cases {a a' : AtomicCell ℤ} {c : Choice} {val desired v : ℤ} {ok : Bool}
    (h : compareExchangeWeak a c val desired = some (ok,v,a')) :
    (ok = true ∧ v = val ∧ a.latest = val ∧ a' = a.store desired) ∨ (ok = false ∧ a' = a) := by
  obtain ⟨read,hread,h⟩ := Option.map_eq_some_iff.mp h
  split at h
  · rename_i hcond
    have hlatest := AtomicCell.load_eq_latest hread hcond.2.1.ge
    cases h
    exact .inl ⟨rfl,rfl,hlatest.symm.trans hcond.1,rfl⟩
  · cases h
    exact .inr ⟨rfl,rfl⟩

/-- What one step of a client does to the count and to its own place. -/
inductive Turn (a : AtomicCell ℤ) (p q : Client) : AtomicCell ℤ → Prop
  | stay (hw : q.insideWrite = p.insideWrite) (hr : q.insideRead = p.insideRead) : Turn a p q a
  | rewrite (hw : q.insideWrite = p.insideWrite) (hr : q.insideRead = p.insideRead) :
      Turn a p q (a.store (toInt (a.latest + 0)))
  | lock (hpw : p.insideWrite = false) (hqw : q.insideWrite = true) (hpr : p.insideRead = false)
      (hqr : q.insideRead = false) (hfree : a.latest = LOCK_FREE) : Turn a p q (a.store LOCK_WRITER)
  | unlock (hpw : p.insideWrite = true) (hqw : q.insideWrite = false) (hpr : p.insideRead = false)
      (hqr : q.insideRead = false) : Turn a p q (a.store LOCK_FREE)
  | lockShared (hpw : p.insideWrite = false) (hqw : q.insideWrite = false)
      (hpr : p.insideRead = false) (hqr : q.insideRead = true)
      (hp : p = .lockSharedExchange a.latest) : Turn a p q (a.store (toInt (a.latest + 1)))
  | unlockShared (hpw : p.insideWrite = false) (hqw : q.insideWrite = false)
      (hpr : p.insideRead = true) (hqr : q.insideRead = false) :
      Turn a p q (a.store (toInt (a.latest - 1)))

theorem Client.step_turn {a : AtomicCell ℤ} {c : Choice} {p : Client} {e : Effect}
    (h : p.step a c = some e) : Turn a p e.client e.refcount := by
  cases p with
  | outside =>
    cases h
    apply Turn.stay <;> by_cases hc : c.shared <;> simp [hc,insideWrite,insideRead]
  | lock val =>
    obtain ⟨⟨ok,v,a'⟩,hcas,rfl⟩ := Option.map_eq_some_iff.mp h
    rcases compareExchangeWeak_cases hcas with ⟨rfl,rfl,hfree,rfl⟩ | ⟨rfl,rfl⟩
    · exact .lock rfl rfl rfl rfl hfree
    · exact .stay rfl rfl
  | lockVal val | lockSharedFree val | lockSharedVal val =>
    cases h
    exact .stay rfl rfl
  | lockRefcount | unlockRefcount | lockSharedRefcount | unlockSharedRefcount =>
    cases h
    exact .rewrite rfl rfl
  | writing =>
    cases h
    exact .unlock rfl rfl rfl rfl
  | lockShared val =>
    obtain ⟨v,-,rfl⟩ := Option.map_eq_some_iff.mp h
    apply Turn.stay <;> by_cases hv : v = LOCK_WRITER <;> simp [hv,insideWrite,insideRead]
  | lockSharedExchange val =>
    obtain ⟨⟨ok,v,a'⟩,hcas,rfl⟩ := Option.map_eq_some_iff.mp h
    rcases compareExchangeWeak_cases hcas with ⟨rfl,rfl,hlatest,rfl⟩ | ⟨rfl,rfl⟩
    · rw [← hlatest]
      exact .lockShared rfl rfl rfl rfl (by rw [hlatest])
    · exact .stay rfl rfl
  | reading =>
    cases h
    exact .unlockShared rfl rfl rfl rfl

/-- The count, and nobody beside a writer. -/
structure Counted (s : State) : Prop where
  writer : s.writers = 0 ∨ s.writers = 1 ∧ s.readers = 0
  count : s.refcount.latest = if s.writers = 0 then (s.readers : ℤ) else LOCK_WRITER

theorem countP_set_of {p : Client → Bool} {l : List Client} {i : ℕ} {x y : Client}
    (h : l[i]? = some x) :
    (l.set i y).countP p + (if p x then 1 else 0) = l.countP p + (if p y then 1 else 0) := by
  obtain ⟨hi,rfl⟩ := List.getElem?_eq_some_iff.mp h
  have hmem : p l[i] → 0 < l.countP p := fun hp =>
    List.countP_pos_iff.mpr ⟨_,List.getElem_mem hi,hp⟩
  rw [List.countP_set hi]
  by_cases hx : p l[i]
  · have := hmem hx
    simp only [hx,if_true]
    omega
  · simp [hx]

theorem State.step_turn {s s' : State} {c : Choice} (h : s.step c = some s') :
    ∃ p q, s.clients[c.thread]? = some p ∧ Turn s.refcount p q s'.refcount ∧
      s'.writers + (if p.insideWrite then 1 else 0) = s.writers + (if q.insideWrite then 1 else 0) ∧
      s'.readers + (if p.insideRead then 1 else 0) =
        s.readers + (if q.insideRead then 1 else 0) := by
  obtain ⟨p,e,hp,he,rfl⟩ := step_cases h
  exact ⟨p,e.client,hp,Client.step_turn he,countP_set_of hp,countP_set_of hp⟩

/-- What a client knows of the value that it has read: it is no writer's. -/
def Client.Knows : Client → Prop
  | lockVal val => val = 0
  | lockSharedFree val | lockSharedExchange val | lockSharedVal val => 0 ≤ val
  | _ => True

theorem Counted.of_same {s s' : State} (h : Counted s) (hw : s'.writers = s.writers)
    (hr : s'.readers = s.readers) (hlatest : s'.refcount.latest = s.refcount.latest) :
    Counted s' where
  writer := by rw [hw,hr]; exact h.writer
  count := by rw [hlatest,hw,hr]; exact h.count

/-- The count is an `int` as long as there are fewer readers than that. -/
theorem Counted.toInt_latest {s : State} (h : Counted s) (hmax : (s.readers : ℤ) < INT_MAX) :
    toInt (s.refcount.latest + 0) = s.refcount.latest := by
  rw [add_zero]
  refine toInt_eq ?_ ?_ <;> rw [h.count] <;> unfold LOCK_WRITER <;> unfold INT_MAX at * <;> split <;>
    omega

theorem Counted.step {s s' : State} {c : Choice} (h : Counted s)
    (hknows : ∀ p ∈ s.clients, p.Knows) (hstep : s.step c = some s')
    (hmax : (s'.readers : ℤ) < INT_MAX) : Counted s' := by
  obtain ⟨p,q,hp,hturn,hw,hr⟩ := State.step_turn hstep
  have hsame : q.insideWrite = p.insideWrite → q.insideRead = p.insideRead →
      s'.writers = s.writers ∧ s'.readers = s.readers := fun hqw hqr =>
    ⟨Nat.add_right_cancel (hqw ▸ hw),Nat.add_right_cancel (hqr ▸ hr)⟩
  have hwriter := h.writer
  have hcount := h.count
  generalize ha : s'.refcount = a' at hturn
  cases hturn with
  | stay hqw hqr =>
    obtain ⟨hw',hr'⟩ := hsame hqw hqr
    exact h.of_same hw' hr' (congrArg AtomicCell.latest ha)
  | rewrite hqw hqr =>
    obtain ⟨hw',hr'⟩ := hsame hqw hqr
    refine h.of_same hw' hr' ?_
    rw [ha,AtomicCell.latest_store,h.toInt_latest (hr' ▸ hmax)]
  | lock hpw hqw hpr hqr hfree =>
    simp only [hpw,hqw,hpr,hqr,if_true,Bool.false_eq_true,if_false,Nat.add_zero] at hw hr
    have hnone : s.writers = 0 := by
      by_contra hne
      rw [if_neg hne,hfree] at hcount
      cases hcount
    rw [if_pos hnone,hfree] at hcount
    have hzero : s.readers = 0 := by simpa [LOCK_FREE] using hcount.symm
    constructor
    · exact .inr ⟨by omega,hr.trans hzero⟩
    · rw [ha,if_neg (by omega),AtomicCell.latest_store]
  | unlock hpw hqw hpr hqr =>
    simp only [hpw,hqw,hpr,hqr,if_true,Bool.false_eq_true,if_false,Nat.add_zero] at hw hr
    obtain ⟨hone,hzero⟩ := hwriter.resolve_left (by omega)
    have hnone : s'.writers = 0 := by omega
    constructor
    · exact .inl hnone
    · rw [ha,if_pos hnone,hr,hzero,AtomicCell.latest_store]
      rfl
  | lockShared hpw hqw hpr hqr hexchange =>
    simp only [hpw,hqw,hpr,hqr,if_true,Bool.false_eq_true,if_false,Nat.add_zero] at hw hr
    have hnotWriter : LOCK_WRITER ≠ s.refcount.latest := by
      have hnonneg := hknows p (List.mem_of_getElem? hp)
      rw [hexchange] at hnonneg
      exact (lt_of_lt_of_le (by decide) hnonneg).ne
    have hnone : s.writers = 0 := by
      by_contra hne
      rw [if_neg hne] at hcount
      exact hnotWriter hcount.symm
    rw [if_pos hnone] at hcount
    have hsucc : (s'.readers : ℤ) = s.readers + 1 := by exact_mod_cast hr
    constructor
    · exact .inl (hw.trans hnone)
    · rw [ha,if_pos (hw.trans hnone),AtomicCell.latest_store,hcount,toInt_eq (by omega) (by omega),
        hsucc]
  | unlockShared hpw hqw hpr hqr =>
    simp only [hpw,hqw,hpr,hqr,if_true,Bool.false_eq_true,if_false,Nat.add_zero] at hw hr
    have hnone : s.writers = 0 := by omega
    rw [if_pos hnone] at hcount
    have hpred : (s.readers : ℤ) = s'.readers + 1 := by exact_mod_cast hr.symm
    constructor
    · exact .inl (hw.trans hnone)
    · rw [ha,if_pos (hw.trans hnone),AtomicCell.latest_store,hcount,toInt_eq (by omega) (by omega),
        hpred]
      ring

/-- The count a client inside sees. -/
def Client.Sees (p : Client) (v : ℤ) : Prop :=
  (p.insideWrite = true → v = LOCK_WRITER) ∧ (p.insideRead = true → 0 < v)

theorem Counted.sees {s : State} (h : Counted s) {p : Client} (hp : p ∈ s.clients) :
    p.Sees s.refcount.latest := by
  have hin : ∀ f : Client → Bool, f p = true → 0 < s.clients.countP f := fun f hf =>
    List.countP_pos_iff.mpr ⟨p,hp,hf⟩
  constructor
  · intro hw
    have hpos := hin _ hw
    rw [h.count,if_neg (show s.writers ≠ 0 from hpos.ne')]
  · intro hr
    have hpos : 0 < s.readers := hin _ hr
    rw [h.count,if_pos (h.writer.resolve_right fun hone => hpos.ne' hone.2)]
    exact_mod_cast hpos

theorem Client.step_knows {a : AtomicCell ℤ} {c : Choice} {p : Client} {e : Effect}
    (h : p.step a c = some e) (hp : p.Knows) (hvalues : a.All (LOCK_WRITER ≤ ·)) :
    e.client.Knows := by
  cases p with
  | outside =>
    cases h
    by_cases hc : c.shared <;> simp [hc,Knows]
  | lock val | lockSharedExchange val =>
    obtain ⟨⟨ok,v,a'⟩,hcas,rfl⟩ := Option.map_eq_some_iff.mp h
    rcases compareExchangeWeak_cases hcas with ⟨rfl,rfl,-,rfl⟩ | ⟨rfl,rfl⟩
    · first | rfl | exact hp
    · trivial
  | lockVal val | lockSharedVal val | writing | reading | lockRefcount | unlockRefcount
  | lockSharedRefcount | unlockSharedRefcount =>
    cases h
    trivial
  | lockSharedFree val =>
    cases h
    exact hp
  | lockShared val =>
    obtain ⟨v,hv,rfl⟩ := Option.map_eq_some_iff.mp h
    have hlow : LOCK_WRITER ≤ v := hvalues _ _ hv
    by_cases hw : v = LOCK_WRITER
    · simp [hw,Knows]
    · simp only [hw,if_false]
      exact Int.add_one_le_of_lt (lt_of_le_of_ne hlow (Ne.symm hw))

theorem Client.step_refcount {a : AtomicCell ℤ} {c : Choice} {p : Client} {e : Effect}
    (h : p.step a c = some e) : e.refcount = a ∨ ∃ v, e.refcount = a.store v := by
  have hturn := step_turn h
  generalize e.refcount = a' at hturn
  cases hturn with
  | stay => exact .inl rfl
  | rewrite | lock | unlock | lockShared | unlockShared => exact .inr ⟨_,rfl⟩

/-- The invariant of runs with fewer than `INT_MAX` readers at once. -/
structure Inv (s : State) : Prop where
  counted : Counted s
  values : s.refcount.All (LOCK_WRITER ≤ ·)
  knows : ∀ p ∈ s.clients, p.Knows

theorem Counted.latest {s : State} (h : Counted s) : LOCK_WRITER ≤ s.refcount.latest := by
  rw [h.count]
  split
  · exact le_trans (by decide) (Int.natCast_nonneg _)
  · exact le_refl _

theorem Inv.init (n : ℕ) : Inv (State.init n) := by
  have hnone : ∀ f : Client → Bool, f .outside = false →
      (List.replicate n Client.outside).countP f = 0 := fun f hf => by
    simp [List.countP_replicate,hf]
  constructor
  · constructor
    · exact .inl (hnone _ rfl)
    · have hwriters : (State.init n).writers = 0 := hnone _ rfl
      have hreaders : (State.init n).readers = 0 := hnone _ rfl
      rw [if_pos hwriters,hreaders]
      rfl
  · intro i v hv
    have hmem : v ∈ [LOCK_FREE,LOCK_FREE] := List.mem_of_getElem? hv
    obtain rfl : v = LOCK_FREE := by simpa using hmem
    decide
  · intro p hp
    rw [(List.mem_replicate.mp hp).2]
    trivial

theorem Inv.step {s s' : State} {c : Choice} (h : Inv s) (hstep : s.step c = some s')
    (hmax : (s'.readers : ℤ) < INT_MAX) : Inv s' := by
  have hcounted := h.counted.step h.knows hstep hmax
  obtain ⟨p,e,hp,he,rfl⟩ := State.step_cases hstep
  refine ⟨hcounted,?_,?_⟩
  · rcases Client.step_refcount he with ha | ⟨v,ha⟩
    · exact ha ▸ h.values
    · have hlatest := hcounted.latest
      simp only [ha] at hlatest ⊢
      exact h.values.store hlatest
  · intro q hq
    rcases List.mem_or_eq_of_mem_set hq with hold | rfl
    · exact h.knows q hold
    · exact Client.step_knows he (h.knows p (List.mem_of_getElem? hp)) h.values

/-- A run of `n` clients: every state it leaves with the choice made there, newest first. -/
inductive Run (n : ℕ) : List (State × Choice) → State → Prop
  | init : Run n [] (State.init n)
  | step {trace : List (State × Choice)} {s s' : State} {c : Choice} (h : Run n trace s)
      (hstep : s.step c = some s') : Run n ((s,c) :: trace) s'

/-- The run that goes on with the choices. -/
def State.play (s : State) (trace : List (State × Choice)) :
    List Choice → Option (List (State × Choice) × State)
  | [] => some (trace,s)
  | c :: cs => (s.step c).bind fun s' => s'.play ((s,c) :: trace) cs

theorem Run.play {n : ℕ} {trace trace' : List (State × Choice)} {s s' : State} (h : Run n trace s)
    {cs : List Choice} (hplay : s.play trace cs = some (trace',s')) : Run n trace' s' := by
  induction cs generalizing s trace with
  | nil =>
    cases hplay
    exact h
  | cons c cs ih =>
    obtain ⟨t,hstep,hplay⟩ := Option.bind_eq_some_iff.mp hplay
    exact ih (h.step hstep) hplay

theorem Run.exists_play (n : ℕ) (cs : List Choice) (P : List (State × Choice) → State → Prop)
    (h : ∃ x, (State.init n).play [] cs = some x ∧ P x.1 x.2) :
    ∃ trace s, Run n trace s ∧ P trace s := by
  obtain ⟨x,hplay,hx⟩ := h
  exact ⟨x.1,x.2,Run.init.play hplay,hx⟩

theorem Run.inv {n : ℕ} {trace : List (State × Choice)} {s : State} (h : Run n trace s)
    (hfew : ∀ x ∈ trace, (x.1.readers : ℤ) < INT_MAX) (hs : (s.readers : ℤ) < INT_MAX) :
    Inv s := by
  induction h with
  | init => exact Inv.init n
  | step h hstep ih =>
    obtain ⟨hlast,hfew⟩ := List.forall_mem_cons.mp hfew
    exact (ih hfew hlast).step hstep hs

/-- The count tells who is inside, and a writer is alone. -/
theorem refcount_exact (n : ℕ) (trace : List (State × Choice)) (s : State) (h : Run n trace s)
    (hfew : ∀ x ∈ trace, (x.1.readers : ℤ) < INT_MAX) (hs : (s.readers : ℤ) < INT_MAX) :
    (s.refcount.latest = LOCK_WRITER ↔ s.writers = 1 ∧ s.readers = 0) ∧
    (s.refcount.latest ≠ LOCK_WRITER → s.refcount.latest = s.readers) ∧
    (s.writers = 0 ∨ s.writers = 1 ∧ s.readers = 0) := by
  obtain ⟨hwriter,hcount⟩ := (h.inv hfew hs).counted
  refine ⟨⟨fun hlatest => ?_,fun hone => ?_⟩,fun hlatest => ?_,hwriter⟩
  · refine hwriter.resolve_left fun hnone => ?_
    rw [hcount,if_pos hnone] at hlatest
    exact absurd hlatest (lt_of_lt_of_le (by decide) (Int.natCast_nonneg _)).ne'
  · rw [hcount,if_neg (by omega)]
  · by_cases hnone : s.writers = 0
    · rw [hcount,if_pos hnone]
    · rw [hcount,if_neg hnone] at hlatest
      exact absurd rfl hlatest

/-- Two clients read at once, a third one tries to get in to write. -/
def twoReaders : List Choice :=
  [⟨0,true,0,false⟩,⟨0,true,1,false⟩,⟨0,true,0,false⟩,⟨0,true,1,false⟩,⟨1,true,0,false⟩,
    ⟨1,true,2,false⟩,⟨1,true,0,false⟩,⟨2,false,0,false⟩,⟨1,true,2,false⟩,⟨0,true,0,false⟩,
    ⟨0,true,0,false⟩,⟨2,false,4,false⟩]

theorem refcount_exact_twoReaders : ∃ trace s, Run 3 trace s ∧
    s.clients = [.reading,.lockSharedVal 1,.lock 2] ∧
    (s.refcount.latest = LOCK_WRITER ↔ s.writers = 1 ∧ s.readers = 0) ∧
    (s.refcount.latest ≠ LOCK_WRITER → s.refcount.latest = s.readers) ∧
    (s.writers = 0 ∨ s.writers = 1 ∧ s.readers = 0) := by
  obtain ⟨trace,s,hrun,hclients,hfew,hs⟩ := Run.exists_play 3 twoReaders
    (fun trace s => s.clients = [.reading,.lockSharedVal 1,.lock 2] ∧
      (∀ x ∈ trace, (x.1.readers : ℤ) < INT_MAX) ∧ (s.readers : ℤ) < INT_MAX)
    ⟨_,rfl,by decide⟩
  exact ⟨trace,s,hrun,hclients,refcount_exact 3 trace s hrun hfew hs⟩

end CdsChecker.SharedMutex
