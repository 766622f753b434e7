import CdsChecker.ModelChecker

/-! What a step of the run loop can do, and the induction over runs. -/
namespace CdsChecker

theorem toOption_eq_some {α : Type} {x : Result α} {a : α} : x.toOption = some a ↔ x = .ok a := by
  cases x <;> simp [Except.toOption]

theorem guard_eq_some {p : Prop} [Decidable p] {u : Unit} :
    (guard p : Option Unit) = some u ↔ p := by
  by_cases hp : p <;> simp [guard,hp]

/-! ### What the library functions pass -/

namespace Input

def ofThread (type : ActionType) (t : ThreadId) : Input := .act type .seqCst (.thread t) valueNone

def ofObject (type : ActionType) (address : ℕ) : Input :=
  .act type .seqCst (.object address) valueNone

def store (order : MemoryOrder) (address value : ℕ) : Input :=
  .act .atomicWrite order (.object address) value

def load (order : MemoryOrder) (address : ℕ) : Input :=
  .act .atomicRead order (.object address) valueNone

/-- A thread takes a step that was not explored before. -/
def go (t : ThreadId) (node : Choices) : Input := .takeStep t true node

end Input

namespace Config

/-- One step, by what the run loop does in it. -/
inductive Change (params : ExecutionParams) (c : Config) : Config → Prop
  | constructMutex (i : ThreadId) (address : ℕ) (parent : ActionId) (hphase : c.phase = .stash i)
      (hneeds : c.exec.needsStash i = true) (hparent : c.exec.getParentAction i = some parent) :
      Change params c { c with exec := { c.exec with
        mutexes := Function.update c.exec.mutexes (.object address) {
          locked := none
          allocTid := i
          allocClock := (c.exec.acts parent).cv.getClock i } } }
  | reportBug (hphase : c.phase ≠ .schedule)
      (hdone : ∀ curr secondPartOfRmw node queue, c.phase = .work curr secondPartOfRmw node queue →
        WorkItem.checkCurrAction ∉ queue) :
      Change params c { c with exec := c.exec.assertBug }
  | act (i : ThreadId) (type : ActionType) (order : MemoryOrder) (location : Location) (value : ℕ)
      (e : Execution) (hphase : c.phase = .stash i) (hneeds : c.exec.needsStash i = true)
      (htyped : c.exec.wellTyped { type,order,location,value,tid := i } = true)
      (hfollows : c.exec.follows { type,order,location,value,tid := i } = true)
      (he : c.exec.switchFromMaster { type,order,location,value,tid := i } = .ok e) :
      Change params c { c with exec := e,phase := .detect i }
  | skip (i : ThreadId) (hphase : c.phase = .stash i) (hneeds : c.exec.needsStash i = false)
      (hi : i < c.exec.getNumThreads) : Change params c { c with phase := .stash (i + 1) }
  | sleepDisabled (i : ThreadId) (e : Execution) (hphase : c.phase = .stash i)
      (hneeds : c.exec.needsStash i = false) (hi : c.exec.getNumThreads ≤ i)
      (he : Execution.sleepDisabled params (List.range c.exec.getNumThreads) c.exec = .ok e) :
      Change params c { c with exec := e,phase := if e.asserted then .ended else .schedule }
  | detect (i : ThreadId) (deadlock : Bool) (hphase : c.phase = .detect i)
      (hdeadlock : c.exec.isWaitingOn i i = .ok deadlock) :
      Change params c { c with
        exec := if deadlock then c.exec.assertBug else c.exec
        phase := .stash (i + 1) }
  | work (curr : ActionId) (secondPartOfRmw : Bool) (node : Choices) (item : WorkItem)
      (queue items : List WorkItem) (e : Execution)
      (hphase : c.phase = .work curr secondPartOfRmw node (item :: queue))
      (hasserted : c.exec.asserted = false)
      (he : c.exec.processWork curr secondPartOfRmw node item = .ok (e,items)) :
      Change params c { c with
        exec := e
        phase := .work curr secondPartOfRmw node (queue ++ items) }
  | finish (curr : ActionId) (secondPartOfRmw : Bool) (node : Choices) (queue : List WorkItem)
      (hphase : c.phase = .work curr secondPartOfRmw node queue)
      (hdone : queue = [] ∨ c.exec.asserted = true) :
      Change params c (finishStep params c.exec curr)
  | takeStep (t : ThreadId) (newlyExplored : Bool) (node : Choices) (e e' : Execution)
      (act : ModelAction) (curr : ActionId) (hphase : c.phase = .schedule)
      (hnext : c.next = some t ∨ c.next = none ∧ c.exec.isEnabled t = true)
      (hpending : c.exec.takePending params t = some (e,act))
      (hbegin : e.beginAction params act newlyExplored node = some (e',curr)) :
      Change params c ⟨e',.work curr (act.isRmwc || act.isRmw) node [.checkCurrAction],none⟩

variable {params : ExecutionParams} {c c' : Config}

theorem proceed_change (h : c.proceed params = some c') : Change params c c' := by
  unfold proceed at h
  cases hphase : c.phase with
  | stash i =>
    simp only [hphase] at h
    by_cases hneeds : c.exec.needsStash i = true
    · simp [hneeds] at h
    · rw [if_neg hneeds] at h
      rw [Bool.not_eq_true] at hneeds
      by_cases hi : i < c.exec.getNumThreads
      · rw [if_pos hi] at h
        cases h
        exact .skip i hphase hneeds hi
      · rw [if_neg hi] at h
        obtain ⟨e,he,h⟩ := Option.bind_eq_some_iff.mp h
        cases h
        exact .sleepDisabled i e hphase hneeds (not_lt.mp hi) (toOption_eq_some.mp he)
  | detect i =>
    simp only [hphase] at h
    obtain ⟨deadlock,hd,h⟩ := Option.bind_eq_some_iff.mp h
    cases h
    exact .detect i deadlock hphase (toOption_eq_some.mp hd)
  | work curr secondPartOfRmw node queue =>
    simp only [hphase] at h
    cases queue with
    | nil =>
      cases h
      exact .finish curr secondPartOfRmw node [] hphase (.inl rfl)
    | cons item queue =>
      dsimp only at h
      by_cases hasserted : c.exec.asserted = true
      · rw [if_pos hasserted] at h
        cases h
        exact .finish curr secondPartOfRmw node _ hphase (.inr hasserted)
      · rw [if_neg hasserted] at h
        obtain ⟨⟨e,items⟩,he,h⟩ := Option.bind_eq_some_iff.mp h
        cases h
        exact .work curr secondPartOfRmw node item queue items e hphase
          (Bool.not_eq_true _ ▸ hasserted) (toOption_eq_some.mp he)
  | schedule => simp [hphase] at h
  | ended => simp [hphase] at h

theorem act_change {type : ActionType} {order : MemoryOrder} {location : Location} {value : ℕ}
    (h : c.act type order location value = some c') : Change params c c' := by
  unfold act at h
  cases hphase : c.phase with
  | stash i =>
    simp only [hphase] at h
    obtain ⟨_,hguard,h⟩ := Option.bind_eq_some_iff.mp h
    obtain ⟨e,he,h⟩ := Option.bind_eq_some_iff.mp h
    cases h
    have hguard := guard_eq_some.mp hguard
    simp only [Bool.and_eq_true] at hguard
    exact .act i type order location value e hphase hguard.1.1 hguard.1.2 hguard.2
      (toOption_eq_some.mp he)
  | _ => simp [hphase] at h

theorem constructMutex_change {address : ℕ} (h : c.constructMutex address = some c') :
    Change params c c' := by
  obtain ⟨exec,phase,next⟩ := c
  cases phase with
  | stash i =>
    obtain ⟨_,hguard,h⟩ := Option.bind_eq_some_iff.mp h
    obtain ⟨e,he,h⟩ := Option.bind_eq_some_iff.mp h
    obtain ⟨parent,hparent,rfl⟩ := Option.map_eq_some_iff.mp he
    cases h
    exact .constructMutex i address parent rfl (guard_eq_some.mp hguard) hparent
  | _ => cases h

theorem reportBug_change (h : c.reportBug = some c') : Change params c c' := by
  obtain ⟨exec,phase,next⟩ := c
  cases phase with
  | stash i =>
    cases h
    exact .reportBug (by simp) (by simp)
  | work curr secondPartOfRmw node queue =>
    simp only [reportBug,List.contains_eq_mem,decide_eq_true_eq] at h
    split at h
    · cases h
    · rename_i hdone
      cases h
      refine .reportBug (by simp) fun _ _ _ _ hphase => ?_
      cases hphase
      exact hdone
  | _ => cases h

theorem takeStep_change {t : ThreadId} {newlyExplored : Bool} {node : Choices}
    (h : c.takeStep params t newlyExplored node = some c') : Change params c c' := by
  obtain ⟨_,hphase,h⟩ := Option.bind_eq_some_iff.mp h
  obtain ⟨_,hnext,h⟩ := Option.bind_eq_some_iff.mp h
  obtain ⟨⟨e,act⟩,hpending,h⟩ := Option.bind_eq_some_iff.mp h
  obtain ⟨⟨e',curr⟩,hbegin,h⟩ := Option.bind_eq_some_iff.mp h
  cases h
  exact .takeStep t newlyExplored node e e' act curr (guard_eq_some.mp hphase)
    (guard_eq_some.mp hnext) hpending hbegin

theorem step_change {i : Input} (h : c.step params i = some c') : Change params c c' := by
  cases i with
  | constructMutex address => exact constructMutex_change h
  | reportBug => exact reportBug_change h
  | act type order location value => exact act_change h
  | proceed => exact proceed_change h
  | takeStep t newlyExplored node => exact takeStep_change h

/-! ### Runs -/

theorem run_append {inputs inputs' : List Input} :
    run params c (inputs ++ inputs') = (run params c inputs).bind fun c =>
    run params c inputs' := by
  simp [run,List.foldlM_append]

theorem run_concat {inputs : List Input} {i : Input} :
    run params c (inputs ++ [i]) = (run params c inputs).bind fun c => c.step params i := by
  rw [run_append]
  congr
  funext c
  simp [run]

/-- The checker goes on by itself for as long as it can, or for the given number of steps. -/
def settle (params : ExecutionParams) : ℕ → Config → Config
  | 0,c => c
  | n + 1,c =>
    match c.proceed params with
    | some c => settle params n c
    | none => c

/-- A run that is given by the inputs from outside only. -/
def play (params : ExecutionParams) : List Input → Config → Option Config
  | [],c => some (settle params 60 c)
  | i :: is,c => do
    let c ← (settle params 60 c).step params i
    play params is c

theorem exists_run_settle (n : ℕ) (c : Config) :
    ∃ inputs, run params c inputs = some (settle params n c) := by
  induction n generalizing c with
  | zero => exact ⟨[],rfl⟩
  | succ n ih =>
    rw [settle]
    split
    · rename_i c₁ hc₁
      obtain ⟨inputs,hrun⟩ := ih c₁
      refine ⟨.proceed :: inputs,?_⟩
      rw [← hrun]
      simp [run,step,hc₁]
    · exact ⟨[],rfl⟩

theorem exists_run_play {inputs : List Input} (h : play params inputs c = some c') :
    ∃ inputs', run params c inputs' = some c' := by
  induction inputs generalizing c with
  | nil =>
    obtain rfl := Option.some.inj h
    exact exists_run_settle 60 c
  | cons i is ih =>
    obtain ⟨c₁,hstep,h⟩ := Option.bind_eq_some_iff.mp h
    obtain ⟨inputs₁,h₁⟩ : ∃ inputs, run params c inputs = _ := exists_run_settle 60 c
    obtain ⟨inputs₂,h₂⟩ := ih h
    refine ⟨inputs₁ ++ i :: inputs₂,?_⟩
    rw [run_append,h₁]
    simpa [run,hstep] using h₂

theorem reachable_of_play {inputs : List Input} (h : play params inputs init = some c) :
    Reachable params c :=
  exists_run_play h

theorem Reachable.step {i : Input} (h : Reachable params c) (hi : c.step params i = some c') :
    Reachable params c' := by
  obtain ⟨inputs,hrun⟩ := h
  exact ⟨inputs ++ [i],by rw [run_concat,hrun]; exact hi⟩

theorem exists_play (params : ExecutionParams) (inputs : List Input) (p : Config → Bool)
    (h : (play params inputs init).any p = true) : ∃ c, Reachable params c ∧ p c = true := by
  cases hplay : play params inputs init with
  | none => simp [hplay] at h
  | some c => exact ⟨c,reachable_of_play hplay,by simpa [hplay] using h⟩

/-- What the start satisfies and every step of a run keeps holds in every reachable
configuration. -/
theorem reachable_invariant {p : Config → Prop} (hinit : p init)
    (hstep : ∀ c c', Reachable params c → p c → Change params c c' → p c')
    (h : Reachable params c) : p c := by
  obtain ⟨inputs,hrun⟩ := h
  induction inputs using List.reverseRecOn generalizing c with
  | nil =>
    obtain rfl : init = c := by simpa [run] using hrun
    exact hinit
  | append_singleton inputs i ih =>
    rw [run_concat] at hrun
    obtain ⟨c₁,h₁,hi⟩ := Option.bind_eq_some_iff.mp hrun
    exact hstep c₁ c ⟨inputs,h₁⟩ (ih h₁) (step_change hi)

/-- The same for what every step keeps. -/
theorem reachable_induction {p : Config → Prop} (hinit : p init)
    (hstep : ∀ c c', p c → Change params c c' → p c') (h : Reachable params c) : p c :=
  reachable_invariant hinit (fun c c' _ => hstep c c') h

end Config
end CdsChecker
