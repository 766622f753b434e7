import CdsChecker.NodeCursors

/-! The behaviours of a node are enumerated once each, as long as the future values arrive before
the read-from options run out. -/
namespace CdsChecker
namespace Node
open Enumeration

/-! ### Runs -/

inductive Event
  | setPromise (i : ℕ)
  | addFutureValue (fv : FutureValue)
  | incrementBehaviors
  deriving DecidableEq, Repr

variable (params : ModelParams)

def exec (n : Node) : Event → Node
  | .setPromise i => n.setPromise i
  | .addFutureValue fv => (n.addFutureValue params fv).1
  | .incrementBehaviors => n.incrementBehaviors.1

def run (n : Node) (es : List Event) : Node := es.foldl (exec params) n

def newOutcomes (n : Node) : Event → List (Option Behaviour)
  | .setPromise _ => []
  | .addFutureValue _ => []
  | .incrementBehaviors => [n.advance.2]

/-- The behaviour that each increment moved to, none where it returned false. -/
def outcomes : Node → List Event → List (Option Behaviour)
  | _,[] => []
  | n,e :: es => n.newOutcomes e ++ outcomes (exec params n e) es

def newMarks (n : Node) : Event → List (ReadChoice × ℕ)
  | .setPromise i => [(n.readChoice,i)]
  | .addFutureValue _ => []
  | .incrementBehaviors => []

/-- The promises set for each read-from option. -/
def marks : Node → List Event → List (ReadChoice × ℕ)
  | _,[] => []
  | n,e :: es => n.newMarks e ++ marks (exec params n e) es

def visited (n : Node) (es : List Event) : List Behaviour := (outcomes params n es).filterMap id

/-- The read-from options. -/
def HasOption (n : Node) : ReadChoice → Prop
  | .none => False
  | .past i => i < n.readFromPast.length
  | .promise i => i < n.readFromPromises.length
  | .future i => i < n.futureValues.length

instance (n : Node) : DecidablePred n.HasOption := fun c =>
  match c with
  | .none => .isFalse id
  | .past i => inferInstanceAs (Decidable (i < n.readFromPast.length))
  | .promise i => inferInstanceAs (Decidable (i < n.readFromPromises.length))
  | .future i => inferInstanceAs (Decidable (i < n.futureValues.length))

/-- The behaviours, apart from the first one of each kind, that a node has at the end of a run:
its misc values, its read-from options with the promises set for them, its breaks. -/
def Supplied (n n' : Node) (set : List (ReadChoice × ℕ)) : Behaviour → Prop
  | .misc v => 0 < v ∧ v < n'.miscMax
  | .read c none => n'.HasOption c ∧ c ≠ n.readChoice
  | .read c (some i) => (c,i) ∈ set
  | .relseqBreak i => 0 < i ∧ i < n'.relseqBreakWrites.length

theorem outcomes_append (n : Node) (es es' : List Event) :
    outcomes params n (es ++ es') =
      outcomes params n es ++ outcomes params (run params n es) es' := by
  induction es generalizing n with
  | nil => rfl
  | cons e es ih =>
    rw [List.cons_append,outcomes,outcomes,ih,List.append_assoc]
    rfl

theorem marks_append (n : Node) (es es' : List Event) :
    marks params n (es ++ es') = marks params n es ++ marks params (run params n es) es' := by
  induction es generalizing n with
  | nil => rfl
  | cons e es ih =>
    rw [List.cons_append,marks,marks,ih,List.append_assoc]
    rfl

theorem run_append (n : Node) (es es' : List Event) :
    run params n (es ++ es') = run params (run params n es) es' := by
  rw [run,List.foldl_append]
  rfl

/-- What can be the current option. -/
def Known (n : Node) (c : ReadChoice) : Prop := c = .none ∨ n.HasOption c

/-- The state of an enumeration: what is ahead, what was visited and what was supplied fit
together, and so do the promises set for the current option. -/
structure Explored (n₀ n : Node) (set : List (ReadChoice × ℕ)) (vs : List Behaviour) : Prop where
  wellFormed : n.WellFormed
  balanced : Balanced (Supplied n₀ n set) vs n.Pending
  set_iff : n.readFromStatus ≠ .none →
    ∀ i, n.resolvePromise.getD i false = true ↔ (n.readChoice,i) ∈ set
  reached : ∀ c i, (c,i) ∈ set → n.Known c ∧ ¬ n.Unread c
  done : n.readFromStatus = .none → ∀ i, n.resolvePromise.getD i false = false
  first : n.Known n₀.readChoice

variable {params} {n₀ n : Node} {set : List (ReadChoice × ℕ)} {vs : List Behaviour}

theorem setPromise_marked (n : Node) (i j : ℕ) : (n.setPromise i).resolvePromise.getD j false =
    if j = i then true else n.resolvePromise.getD j false :=
  getD_setPadded _ _ _ _ _

theorem WellFormed.not_unread (h : n.WellFormed) : ¬ n.Unread n.readChoice := by
  cases hs : n.readFromStatus with
  | past =>
    rw [readChoice,hs]
    by_cases hnil : n.readFromPast = []
    · simp [hnil,Unread]
    · simp [hnil,Unread]
  | promise =>
    have := h.promise hs
    simp only [readChoice,hs,Unread]
    omega
  | future =>
    have := h.future hs
    simp only [readChoice,hs,Unread]
    omega
  | none => simp [readChoice,hs,Unread]

theorem WellFormed.known (h : n.WellFormed) : n.Known n.readChoice := by
  cases hs : n.readFromStatus with
  | past =>
    by_cases hnil : n.readFromPast = []
    · exact .inl (by simp [readChoice,hs,hnil])
    · have hlt := (h.past hs).1.resolve_left hnil
      exact .inr (by simp [readChoice,hs,hnil,HasOption,hlt])
  | promise =>
    have := h.promise hs
    refine .inr ?_
    simp only [readChoice,hs,HasOption]
    omega
  | future =>
    have := h.future hs
    refine .inr ?_
    simp only [readChoice,hs,HasOption]
    omega
  | none => exact .inl (by simp [readChoice,hs])

/-- Setting a promise again changes nothing. -/
theorem Explored.setPromise_again (h : Explored n₀ n set vs) {i : ℕ}
    (hset : n.resolvePromise.getD i false = true) :
    Explored n₀ (n.setPromise i) (set ++ [(n.readChoice,i)]) vs := by
  have hs : n.readFromStatus ≠ .none := by
    intro hs
    rw [h.done hs i] at hset
    exact absurd hset (by decide)
  have hmem := (h.set_iff hs i).mp hset
  have hsame : ∀ x, x ∈ set ++ [(n.readChoice,i)] ↔ x ∈ set := by
    intro x
    rw [List.mem_append,List.mem_singleton,or_iff_left_iff_imp]
    intro hx
    rw [hx]
    exact hmem
  have hmarked : ∀ j, (n.setPromise i).resolvePromise.getD j false =
      n.resolvePromise.getD j false := by
    intro j
    rw [setPromise_marked]
    split
    next hj => rw [hj,hset]
    next => rfl
  refine ⟨⟨h.wellFormed.1,h.wellFormed.2,h.wellFormed.3,h.wellFormed.4,h.wellFormed.5,
    h.wellFormed.6⟩,h.balanced.congr ?_ ?_,?_,?_,fun h => absurd h hs,
    by cases hc : n₀.readChoice <;> exact hc ▸ h.first⟩
  · intro v
    cases v with
    | misc v => exact Iff.rfl
    | relseqBreak j => exact Iff.rfl
    | read c r =>
      cases r with
      | none => cases c <;> exact Iff.rfl
      | some j => exact hsame (c,j)
  · intro v
    cases v with
    | misc v => exact Iff.rfl
    | relseqBreak j => exact Iff.rfl
    | read c r =>
      cases r with
      | none => cases c <;> exact Iff.rfl
      | some j =>
        simp only [Pending,hmarked]
        exact Iff.rfl
  · intro _ j
    rw [hmarked,hsame]
    exact h.set_iff hs j
  · intro c j hc
    have hreached := h.reached c j ((hsame (c,j)).mp hc)
    cases c <;> exact hreached

/-- A new promise for an option, before any of its promises is resolved, is ahead. -/
theorem Explored.setPromise_new (h : Explored n₀ n set vs) {i : ℕ} (hs : n.readFromStatus ≠ .none)
    (hidx : n.resolvePromiseIdx = -1) (hnew : ¬ n.resolvePromise.getD i false = true) :
    Explored n₀ (n.setPromise i) (set ++ [(n.readChoice,i)]) vs := by
  have hmem : (n.readChoice,i) ∉ set := fun hm => hnew ((h.set_iff hs i).mpr hm)
  refine ⟨⟨h.wellFormed.1,h.wellFormed.2,h.wellFormed.3,h.wellFormed.4,h.wellFormed.5,
    h.wellFormed.6⟩,h.balanced.supply (v := .read n.readChoice (some i)) hmem ?_ ?_,?_,?_,
    fun h => absurd h hs,by cases hc : n₀.readChoice <;> exact hc ▸ h.first⟩
  · intro v
    cases v with
    | misc v => simp [Supplied,Node.setPromise]
    | relseqBreak j => simp [Supplied,Node.setPromise]
    | read c r =>
      cases r with
      | none => cases c <;> simp [Supplied,Node.setPromise,HasOption]
      | some j => simp [Supplied]
  · intro v
    cases v with
    | misc v => simp [Pending,Node.setPromise]
    | relseqBreak j => simp [Pending,Node.setPromise]
    | read c r =>
      cases r with
      | none => cases c <;> simp [Pending,Unread,Node.setPromise]
      | some j =>
        have hchoice : (n.setPromise i).readChoice = n.readChoice := rfl
        have hidx' : (n.setPromise i).resolvePromiseIdx = n.resolvePromiseIdx := rfl
        simp only [Pending,setPromise_marked,hchoice,hidx',Behaviour.read.injEq,
          Option.some.injEq]
        by_cases hj : j = i
        · rw [if_pos hj,hidx]
          constructor
          · intro hw
            exact .inr ⟨hw.1,hj⟩
          · intro hw
            refine ⟨?_,by omega,rfl⟩
            rcases hw with hw | hw
            · exact hw.1
            · exact hw.1
        · simp [hj]
  · intro _ j
    have hchoice : (n.setPromise i).readChoice = n.readChoice := rfl
    rw [setPromise_marked,List.mem_append,List.mem_singleton,Prod.mk.injEq,hchoice]
    by_cases hj : j = i
    · simp [hj]
    · rw [if_neg hj,h.set_iff hs j,or_iff_left fun hj' => hj hj'.2]
  · intro c j hc
    rw [List.mem_append,List.mem_singleton,Prod.mk.injEq] at hc
    have hreached : n.Known c ∧ ¬ n.Unread c := by
      rcases hc with hc | ⟨rfl,-⟩
      · exact h.reached c j hc
      · exact ⟨h.wellFormed.known,h.wellFormed.not_unread⟩
    cases c <;> exact hreached

/-- Adding a future value changes an expiration or adds an option at the end. -/
theorem addFutureValue_cases (params : ModelParams) (n : Node) (fv : FutureValue) :
    ∃ l, (n.addFutureValue params fv).1 = { n with futureValues := l } ∧
      (l.length = n.futureValues.length ∨ l = n.futureValues ++ [fv]) := by
  rw [addFutureValue]
  split
  · exact ⟨n.futureValues,rfl,.inl rfl⟩
  · split
    · exact ⟨_,rfl,.inl (List.length_modify ..)⟩
    · split
      · exact ⟨n.futureValues,rfl,.inl rfl⟩
      · split
        · exact ⟨n.futureValues,rfl,.inl rfl⟩
        · exact ⟨_,rfl,.inr rfl⟩

theorem WellFormed.future_lt (h : n.WellFormed) (hs : n.readFromStatus ≠ .none) :
    n.futureIndex < n.futureValues.length := by
  cases hstatus : n.readFromStatus with
  | past =>
    have := h.past hstatus
    omega
  | promise =>
    have := h.promise hstatus
    omega
  | future =>
    have := h.future hstatus
    omega
  | none => exact absurd hstatus hs

/-- Only the number of future values counts. -/
theorem Explored.addFutureValue_same (h : Explored n₀ n set vs) {l : List FutureValue}
    (hs : n.readFromStatus ≠ .none) (hl : l.length = n.futureValues.length) :
    Explored n₀ { n with futureValues := l } set vs := by
  have hunread : ∀ c, Unread { n with futureValues := l } c ↔ n.Unread c := by
    intro c
    cases c <;> simp [Unread,hl]
  have hknown : ∀ c, Known { n with futureValues := l } c ↔ n.Known c := by
    intro c
    cases c <;> simp [Known,HasOption,hl]
  refine ⟨⟨h.wellFormed.1,h.wellFormed.2,h.wellFormed.3,h.wellFormed.4,?_,?_⟩,
    h.balanced.congr ?_ ?_,h.set_iff,?_,h.done,?_⟩
  · intro hstatus
    simp only [hl]
    exact h.wellFormed.future hstatus
  · exact fun hstatus => absurd hstatus hs
  · intro v
    cases v with
    | misc v => exact Iff.rfl
    | relseqBreak i => exact Iff.rfl
    | read c r =>
      cases r with
      | none => cases c <;> simp [Supplied,HasOption,hl]
      | some j => exact Iff.rfl
  · intro v
    cases v with
    | misc v => exact Iff.rfl
    | relseqBreak i => exact Iff.rfl
    | read c r =>
      cases r with
      | none => exact hunread c
      | some j => exact Iff.rfl
  · intro c i hc
    rw [hknown,hunread]
    exact h.reached c i hc
  · rw [hknown]
    exact h.first

/-- A future value that arrives before the read-from options are exhausted is ahead. -/
theorem Explored.addFutureValue_new (h : Explored n₀ n set vs) (fv : FutureValue)
    (hs : n.readFromStatus ≠ .none) :
    Explored n₀ { n with futureValues := n.futureValues ++ [fv] } set vs := by
  have hlt := h.wellFormed.future_lt hs
  have hunread : ∀ c, Unread { n with futureValues := n.futureValues ++ [fv] } c ↔
      n.Unread c ∨ c = .future n.futureValues.length := by
    intro c
    cases c with
    | none => simp [Unread]
    | past i => simp [Unread]
    | promise i => simp [Unread]
    | future i =>
      simp [Unread]
      omega
  have hknown : ∀ c, n.Known c → c ≠ .future n.futureValues.length ∧
      Known { n with futureValues := n.futureValues ++ [fv] } c := by
    intro c hc
    rcases hc with rfl | hc
    · exact ⟨by simp,.inl rfl⟩
    · cases c with
      | none => exact hc.elim
      | past i => exact ⟨by simp,.inr hc⟩
      | promise i => exact ⟨by simp,.inr hc⟩
      | future i =>
        have hlt : i < n.futureValues.length := hc
        refine ⟨by simp; omega,.inr ?_⟩
        simp only [HasOption,List.length_append]
        omega
  refine ⟨⟨h.wellFormed.1,h.wellFormed.2,h.wellFormed.3,h.wellFormed.4,?_,?_⟩,
    h.balanced.supply (v := .read (.future n.futureValues.length) none) ?_ ?_ ?_,h.set_iff,?_,
    h.done,?_⟩
  · intro hstatus
    have := h.wellFormed.future hstatus
    simp
    omega
  · exact fun hstatus => absurd hstatus hs
  · intro hsupplied
    exact absurd hsupplied.1 (lt_irrefl _)
  · intro v
    cases v with
    | misc v => simp [Supplied]
    | relseqBreak i => simp [Supplied]
    | read c r =>
      cases r with
      | some j => simp [Supplied]
      | none =>
        cases c with
        | none => simp [Supplied,HasOption]
        | past i => simp [Supplied,HasOption]
        | promise i => simp [Supplied,HasOption]
        | future i =>
          have hfirst := (hknown _ h.first).1.symm
          simp only [Supplied,HasOption,List.length_append,List.length_singleton,
            Behaviour.read.injEq,ReadChoice.future.injEq,and_true]
          constructor
          · intro hv
            by_cases hi : i = n.futureValues.length
            · exact .inr hi
            · exact .inl ⟨by omega,hv.2⟩
          · intro hv
            rcases hv with hv | hv
            · exact ⟨by omega,hv.2⟩
            · rw [hv]
              exact ⟨by omega,hfirst⟩
  · intro v
    cases v with
    | misc v => simp [Pending]
    | relseqBreak i => simp [Pending]
    | read c r =>
      cases r with
      | some j => simp [Pending,readChoice]
      | none =>
        simp only [Pending,Behaviour.read.injEq,and_true]
        exact hunread c
  · intro c i hc
    obtain ⟨hc₁,hc₂⟩ := h.reached c i hc
    rw [hunread,not_or]
    exact ⟨(hknown c hc₁).2,hc₂,(hknown c hc₁).1⟩
  · exact (hknown _ h.first).2

theorem Explored.addFutureValue (h : Explored n₀ n set vs) (fv : FutureValue)
    (hs : n.readFromStatus ≠ .none) : Explored n₀ (n.addFutureValue params fv).1 set vs := by
  obtain ⟨l,heq,hl⟩ := addFutureValue_cases params n fv
  rw [heq]
  rcases hl with hl | rfl
  · exact h.addFutureValue_same hs hl
  · exact h.addFutureValue_new fv hs

theorem SameOptions.hasOption {n n' : Node} (h : n.SameOptions n') (c : ReadChoice) :
    n'.HasOption c ↔ n.HasOption c := by
  obtain ⟨hp,hq,hf,-,-⟩ := h
  cases c <;> simp [HasOption,hp,hq,hf]

/-- The balance of an increment. -/
theorem Explored.advance (h : Explored n₀ n set vs) :
    Explored n₀ n.advance.1 set (vs ++ n.advance.2.toList) := by
  obtain ⟨⟨hwf,hopts,hchoice⟩,-⟩ := advance_frame h.wellFormed
  have htakes := advance_takes h.wellFormed
  have hsupplied : ∀ v, Supplied n₀ n.advance.1 set v ↔ Supplied n₀ n set v := by
    intro v
    cases v with
    | misc v => simp only [Supplied,hopts.2.2.2.2]
    | relseqBreak i => simp only [Supplied,hopts.2.2.2.1]
    | read c r =>
      cases r with
      | none => simp only [Supplied,hopts.hasOption]
      | some j => exact Iff.rfl
  have hunread : ∀ c, n.advance.1.Unread c → n.Unread c := by
    intro c hc
    have hpending : n.advance.1.Pending (.read c none) := hc
    cases hout : n.advance.2 with
    | none =>
      rw [hout] at htakes
      exact absurd hpending (htakes _).2
    | some v =>
      rw [hout] at htakes
      exact ((htakes.2 _).mp hpending).1
  refine ⟨hwf,?_,?_,?_,?_,?_⟩
  · cases hout : n.advance.2 with
    | none =>
      rw [hout] at htakes
      rw [Option.toList_none,List.append_nil]
      exact h.balanced.congr hsupplied fun v => by simp [htakes v]
    | some v =>
      rw [hout] at htakes
      exact (h.balanced.take htakes).congr hsupplied fun _ => Iff.rfl
  · intro hs i
    rcases hchoice with ⟨hc,hstatus,hmarks⟩ | ⟨hmarks,-,hc | hnone⟩
    · rw [hmarks,hc]
      exact h.set_iff (hstatus ▸ hs) i
    · rw [hmarks,List.getD_nil]
      constructor
      · exact fun hf => absurd hf (by decide)
      · exact fun hmem => absurd hc (h.reached _ _ hmem).2
    · exact absurd hnone hs
  · intro c i hc
    obtain ⟨hknown,hc⟩ := h.reached c i hc
    refine ⟨?_,fun hu => hc (hunread c hu)⟩
    rw [Known,hopts.hasOption]
    exact hknown
  · intro hs i
    rcases hchoice with ⟨-,hstatus,hmarks⟩ | ⟨hmarks,-,-⟩
    · rw [hmarks]
      exact h.done (hstatus ▸ hs) i
    · rw [hmarks]
      rfl
  · rw [Known,hopts.hasOption]
    exact h.first

/-! ### The start -/

/-- What a node is created with. -/
structure Options where
  action : ActionId
  tid : ThreadId
  nthreads : ℕ
  past : List ActionId := []
  readers : List ActionId := []
  futures : List FutureValue := []
  misc : ℤ := 0
  breaks : List (Option ActionId) := []
  isRead : Bool
  deriving Repr

/-- The constructor, the options, and for a read the first of them. -/
def start (params : ModelParams) (o : Options) : Node :=
  let n := create o.action o.tid o.nthreads
  let n := o.past.foldl addReadFromPast n
  let n := o.readers.foldl addReadFromPromise n
  let n := o.futures.foldl (fun n fv => (n.addFutureValue params fv).1) n
  let n := o.breaks.foldl addRelseqBreak (n.setMiscMax o.misc)
  if o.isRead then n.getReadFromStatus.1 else n

/-- No cursor has moved. -/
structure Fresh (n : Node) : Prop where
  status : n.readFromStatus = .past
  past : n.readFromPastIdx = 0
  promise : n.readFromPromiseIdx = -1
  future : n.futureIndex = -1
  marks : n.resolvePromise = []
  resolve : n.resolvePromiseIdx = -1
  relseqBreak : n.relseqBreakIndex = 0
  misc : n.miscIndex = 0

theorem Fresh.foldl {α : Type} {f : Node → α → Node} (hf : ∀ n x, Fresh n → Fresh (f n x))
    (l : List α) : ∀ n : Node, n.Fresh → (l.foldl f n).Fresh := by
  induction l with
  | nil => exact fun n h => h
  | cons x l ih => exact fun n h => ih (f n x) (hf n x h)

theorem Fresh.wellFormed (h : n.Fresh) : n.WellFormed where
  resolve := h.resolve.ge
  relseqBreak := h.relseqBreak.ge
  past := by
    intro _
    rw [h.past,h.promise,h.future]
    refine ⟨?_,rfl,rfl⟩
    by_cases hnil : n.readFromPast = []
    · exact .inl hnil
    · exact .inr (List.length_pos_iff.mpr hnil)
  promise := fun hs => by simp [h.status] at hs
  future := fun hs => by simp [h.status] at hs
  none := fun hs => by simp [h.status] at hs

/-- With fresh counters everything but the first option is ahead. -/
theorem Explored.start (hwf : n.WellFormed) (hmarks : n.resolvePromise = [])
    (hmisc : n.miscIndex = 0) (hbreak : n.relseqBreakIndex = 0)
    (hunread : ∀ c, n.Unread c ↔ n.HasOption c ∧ c ≠ n.readChoice) : Explored n n [] [] where
  wellFormed := hwf
  balanced := by
    refine (Balanced.start n.Pending).congr ?_ fun _ => Iff.rfl
    intro v
    cases v with
    | misc v => simp only [Supplied,Pending,hmisc]
    | relseqBreak i =>
      simp only [Supplied,Pending,hbreak]
      omega
    | read c r =>
      cases r with
      | none => exact (hunread c).symm
      | some j => simp [Supplied,Pending,hmarks]
  set_iff := by simp [hmarks]
  reached := by simp
  done := by simp [hmarks]
  first := hwf.known

theorem Fresh.unread (h : n.Fresh) (c : ReadChoice) :
    n.Unread c ↔ n.HasOption c ∧ c ≠ n.readChoice := by
  by_cases hnil : n.readFromPast = []
  · have hchoice : n.readChoice = .none := by simp [readChoice,h.status,hnil]
    rw [hchoice]
    cases c <;> simp [Unread,HasOption,h.promise,h.future,hnil] <;> omega
  · have hchoice : n.readChoice = .past 0 := by simp [readChoice,h.status,hnil,h.past]
    rw [hchoice]
    cases c <;> simp [Unread,HasOption,h.past,h.promise,h.future] <;> omega

theorem Fresh.explored (h : n.Fresh) : Explored n n [] [] :=
  .start h.wellFormed h.marks h.misc h.relseqBreak h.unread

/-- A read without past writes starts with the option behind them. -/
theorem Fresh.explored_getReadFromStatus (h : n.Fresh) :
    Explored n.getReadFromStatus.1 n.getReadFromStatus.1 [] [] := by
  rw [getReadFromStatus]
  split
  next hcond =>
    have hoption : ∀ c, n.Unread c ↔ n.HasOption c := by
      intro c
      rw [h.unread,and_iff_left_iff_imp]
      intro hc hchoice
      have hnone : n.readChoice = .none := by simp [readChoice,h.status,hcond.2]
      rw [hchoice,hnone] at hc
      exact hc
    rcases hinc : n.incrementReadFrom with ⟨n',_ | _⟩
    · obtain ⟨hwf,hopts,⟨hmarks,-,hmisc,hbreak⟩,-,hunread⟩ :=
        incrementReadFrom_false h.wellFormed hinc
      refine .start hwf hmarks (hmisc.trans h.misc) (hbreak.trans h.relseqBreak) ?_
      intro c
      rw [hopts.hasOption,← hoption]
      simp [(hunread c).1,(hunread c).2]
    · obtain ⟨hwf,hopts,⟨hmarks,-,hmisc,hbreak⟩,-,-,hunread⟩ :=
        incrementReadFrom_true h.wellFormed hinc
      refine .start hwf hmarks (hmisc.trans h.misc) (hbreak.trans h.relseqBreak) ?_
      intro c
      rw [hopts.hasOption,← hoption]
      exact hunread c
  next => exact h.explored

theorem start_explored (params : ModelParams) (o : Options) :
    Explored (start params o) (start params o) [] [] := by
  have hcreate : (create o.action o.tid o.nthreads).Fresh := ⟨rfl,rfl,rfl,rfl,rfl,rfl,rfl,rfl⟩
  have hpast := Fresh.foldl (f := addReadFromPast)
    (fun n x h => ⟨h.1,h.2,h.3,h.4,h.5,h.6,h.7,h.8⟩) o.past _ hcreate
  have hreaders := Fresh.foldl (f := addReadFromPromise)
    (fun n x h => ⟨h.1,h.2,h.3,h.4,h.5,h.6,h.7,h.8⟩) o.readers _ hpast
  have hfutures := Fresh.foldl (f := fun n fv => (n.addFutureValue params fv).1)
    (fun n x h => by
      obtain ⟨l,heq,-⟩ := addFutureValue_cases params n x
      rw [heq]
      exact ⟨h.1,h.2,h.3,h.4,h.5,h.6,h.7,h.8⟩) o.futures _ hreaders
  have hmisc : Fresh (setMiscMax _ o.misc) :=
    ⟨hfutures.1,hfutures.2,hfutures.3,hfutures.4,hfutures.5,hfutures.6,hfutures.7,hfutures.8⟩
  have hbreaks := Fresh.foldl (f := addRelseqBreak)
    (fun n x h => ⟨h.1,h.2,h.3,h.4,h.5,h.6,h.7,h.8⟩) o.breaks _ hmisc
  rw [start]
  split
  · exact hbreaks.explored_getReadFromStatus
  · exact hbreaks.explored

/-! ### Whole enumerations -/

/-- A promise is set for the current read-from option before one of the option's promises is
resolved, or it was set before. -/
def PromisesInTime (params : ModelParams) (n : Node) (es : List Event) : Prop :=
  ∀ es₁ i es₂, es = es₁ ++ .setPromise i :: es₂ →
    (run params n es₁).resolvePromise.getD i false = true ∨
      ((run params n es₁).readFromStatus ≠ .none ∧ (run params n es₁).resolvePromiseIdx = -1)

/-- The runs in which every future value is added while `isOpen` holds. -/
def FuturesWhile (isOpen : List Event → Prop) (es : List Event) : Prop :=
  ∀ es₁ fv es₂, es = es₁ ++ .addFutureValue fv :: es₂ → isOpen es₁

/-- No increment has returned false. -/
def Unexhausted (params : ModelParams) (n : Node) (es : List Event) : Prop :=
  none ∉ outcomes params n es

instance (n : Node) : DecidablePred (Unexhausted params n) := fun es =>
  inferInstanceAs (Decidable (none ∉ outcomes params n es))

/-- A read-from option is current. -/
def ReadsLeft (params : ModelParams) (n : Node) (es : List Event) : Prop :=
  (run params n es).readFromStatus ≠ .none

/-- A run visits what was supplied once each, and then the increments return false. -/
structure EnumeratesOnce (params : ModelParams) (n : Node) (es : List Event) : Prop where
  shape : ∃ k, outcomes params n es =
    (visited params n es).map some ++ List.replicate k none
  nodup : (visited params n es).Nodup
  sound : ∀ v ∈ visited params n es, Supplied n (run params n es) (marks params n es) v
  complete : ¬ Unexhausted params n es →
    ∀ v, Supplied n (run params n es) (marks params n es) v → v ∈ visited params n es
  ends : ∃ m, ¬ Unexhausted params n (es ++ List.replicate m .incrementBehaviors)

theorem FuturesWhile.of_append {isOpen : List Event → Prop} {es es' : List Event}
    (h : FuturesWhile isOpen (es ++ es')) : FuturesWhile isOpen es := by
  intro es₁ fv es₂ heq
  exact h es₁ fv (es₂ ++ es') (by rw [heq,List.append_assoc,List.cons_append])

theorem PromisesInTime.of_append {es es' : List Event} (h : PromisesInTime params n (es ++ es')) :
    PromisesInTime params n es := by
  intro es₁ i es₂ heq
  exact h es₁ i (es₂ ++ es') (by rw [heq,List.append_assoc,List.cons_append])

theorem outcomes_concat (n : Node) (es : List Event) (e : Event) :
    outcomes params n (es ++ [e]) = outcomes params n es ++ (run params n es).newOutcomes e := by
  rw [outcomes_append,outcomes,outcomes,List.append_nil]

theorem marks_concat (n : Node) (es : List Event) (e : Event) :
    marks params n (es ++ [e]) = marks params n es ++ (run params n es).newMarks e := by
  rw [marks_append,marks,marks,List.append_nil]

theorem run_concat (n : Node) (es : List Event) (e : Event) :
    run params n (es ++ [e]) = exec params (run params n es) e := by
  rw [run_append]
  rfl

theorem exec_increment (n : Node) : exec params n .incrementBehaviors = n.advance.1 := by
  rw [exec,incrementBehaviors_eq]

/-- The balance holds throughout a run with timely options. -/
theorem run_explored (o : Options) (es : List Event)
    (hpromises : PromisesInTime params (start params o) es)
    (hfutures : FuturesWhile (ReadsLeft params (start params o)) es) :
    Explored (start params o) (run params (start params o) es) (marks params (start params o) es)
      (visited params (start params o) es) := by
  induction es using List.reverseRecOn with
  | nil => exact start_explored params o
  | append_singleton es e ih =>
    have h := ih hpromises.of_append hfutures.of_append
    rw [run_concat,marks_concat,visited,outcomes_concat,List.filterMap_append,← visited]
    cases e with
    | setPromise i =>
      rw [newOutcomes,List.filterMap_nil,List.append_nil]
      rcases hpromises es i [] rfl with hset | ⟨hs,hidx⟩
      · exact h.setPromise_again hset
      · by_cases hset : (run params (start params o) es).resolvePromise.getD i false = true
        · exact h.setPromise_again hset
        · exact h.setPromise_new hs hidx hset
    | addFutureValue fv =>
      rw [newOutcomes,newMarks,List.filterMap_nil,List.append_nil,List.append_nil]
      exact h.addFutureValue fv (hfutures es fv [] rfl)
    | incrementBehaviors =>
      rw [newMarks,List.append_nil,exec_increment,newOutcomes]
      have hlist : List.filterMap id [(run params (start params o) es).advance.2] =
          (run params (start params o) es).advance.2.toList := by
        cases (run params (start params o) es).advance.2 <;> rfl
      rw [hlist]
      exact h.advance

/-- After a false increment nothing is ahead, and nothing can be added. -/
theorem run_exhausted (o : Options) (es : List Event)
    (hpromises : PromisesInTime params (start params o) es)
    (hfutures : FuturesWhile (ReadsLeft params (start params o)) es) :
    (∃ k, outcomes params (start params o) es =
      (visited params (start params o) es).map some ++ List.replicate k none) ∧
    (¬ Unexhausted params (start params o) es →
      (run params (start params o) es).readFromStatus = .none ∧
        ∀ v, ¬ (run params (start params o) es).Pending v) := by
  induction es using List.reverseRecOn with
  | nil => exact ⟨⟨0,rfl⟩,fun h => absurd (by simp [Unexhausted,outcomes]) h⟩
  | append_singleton es e ih =>
    obtain ⟨⟨k,hk⟩,hend⟩ := ih hpromises.of_append hfutures.of_append
    have h := run_explored o es hpromises.of_append hfutures.of_append
    have htakes := advance_takes h.wellFormed
    have hframe := (advance_frame h.wellFormed).2
    rw [Unexhausted,visited,outcomes_concat,List.filterMap_append,← visited,run_concat]
    by_cases hopen : Unexhausted params (start params o) es
    · have hk₀ : k = 0 := by
        by_contra hne
        apply hopen
        rw [hk]
        simp [hne]
      rw [hk₀,List.replicate_zero,List.append_nil] at hk
      cases e with
      | setPromise i =>
        rw [newOutcomes,List.append_nil,List.filterMap_nil,List.append_nil]
        exact ⟨⟨0,by simpa using hk⟩,fun h => absurd hopen h⟩
      | addFutureValue fv =>
        rw [newOutcomes,List.append_nil,List.filterMap_nil,List.append_nil]
        exact ⟨⟨0,by simpa using hk⟩,fun h => absurd hopen h⟩
      | incrementBehaviors =>
        rw [newOutcomes,exec_increment,hk]
        cases hout : (run params (start params o) es).advance.2 with
        | none =>
          rw [hout] at htakes
          exact ⟨⟨1,by simp⟩,fun _ => ⟨hframe hout,fun v => (htakes v).2⟩⟩
        | some v =>
          refine ⟨⟨0,by simp⟩,fun hclosed => absurd ?_ hclosed⟩
          simp
    · obtain ⟨hs,hnone⟩ := hend hopen
      cases e with
      | setPromise i =>
        rcases hpromises es i [] rfl with hset | ⟨hs',_⟩
        · rw [h.done hs i] at hset
          exact absurd hset (by decide)
        · exact absurd hs hs'
      | addFutureValue fv => exact absurd hs (hfutures es fv [] rfl)
      | incrementBehaviors =>
        cases hout : (run params (start params o) es).advance.2 with
        | some v =>
          rw [hout] at htakes
          exact absurd htakes.1 (hnone v)
        | none =>
          rw [hout] at htakes
          rw [newOutcomes,exec_increment,hk,hout]
          refine ⟨⟨k + 1,?_⟩,fun _ => ⟨hframe hout,fun v => (htakes v).2⟩⟩
          simp [List.replicate_succ']

theorem pending_finite (n : Node) : {v | n.Pending v}.Finite := by
  have hmisc := (Set.finite_Ioo n.miscIndex n.miscMax).image Behaviour.misc
  have hpast := (Set.finite_Iio n.readFromPast.length).image fun i => Behaviour.read (.past i) none
  have hpromise := (Set.finite_Iio n.readFromPromises.length).image
    fun i => Behaviour.read (.promise i) none
  have hfuture := (Set.finite_Iio n.futureValues.length).image
    fun i => Behaviour.read (.future i) none
  have hresolve := (Set.finite_Iio n.resolvePromise.length).image
    fun i => Behaviour.read n.readChoice (some i)
  have hbreak := (Set.finite_Iio n.relseqBreakWrites.length).image Behaviour.relseqBreak
  refine (hmisc.union (hpast.union (hpromise.union (hfuture.union
    (hresolve.union hbreak))))).subset ?_
  intro v hv
  cases v with
  | misc v => exact .inl ⟨v,hv,rfl⟩
  | relseqBreak i => exact .inr (.inr (.inr (.inr (.inr ⟨i,hv.2,rfl⟩))))
  | read c r =>
    cases r with
    | some i =>
      refine .inr (.inr (.inr (.inr (.inl ⟨i,?_,by rw [hv.1]⟩))))
      show i < n.resolvePromise.length
      by_contra hlen
      have hmark := hv.2.2
      rw [List.getD_eq_default _ _ (not_lt.mp hlen)] at hmark
      exact absurd hmark (by decide)
    | none =>
      cases c with
      | none => exact hv.elim
      | past i => exact .inr (.inl ⟨i,hv.2,rfl⟩)
      | promise i => exact .inr (.inr (.inl ⟨i,hv.2,rfl⟩))
      | future i => exact .inr (.inr (.inr (.inl ⟨i,hv.2,rfl⟩)))

/-- Increments alone end. -/
theorem increments_end (params : ModelParams) (hwf : n.WellFormed) :
    ∃ m, none ∈ outcomes params n (List.replicate m .incrementBehaviors) := by
  obtain ⟨m,hm⟩ := exists_end advance WellFormed Pending
    (fun n hn => (advance_frame hn).1.wellFormed) (fun n hn => advance_takes hn) n hwf
    (pending_finite n)
  have hrun : ∀ m, run params n (List.replicate m .incrementBehaviors) =
      (fun n => (advance n).1)^[m] n := by
    intro m
    induction m with
    | zero => rfl
    | succ m ih => rw [List.replicate_succ',run_concat,ih,exec_increment,
        Function.iterate_succ_apply']
  refine ⟨m + 1,?_⟩
  rw [List.replicate_succ',outcomes_concat,hrun,newOutcomes,List.mem_append,
    List.mem_singleton]
  exact .inr hm.symm

/-- The behaviours of a node are enumerated once each when the future values come before the
read-from options are exhausted, and the emptiness tests tell whether one is left. -/
theorem enumeratesOnce (params : ModelParams) (o : Options) (es : List Event)
    (hpromises : PromisesInTime params (start params o) es)
    (hfutures : FuturesWhile (ReadsLeft params (start params o)) es) :
    EnumeratesOnce params (start params o) es ∧
      ((run params (start params o) es).allEmpty = true ↔
        (run params (start params o) es).incrementBehaviors.2 = false) := by
  have h := run_explored o es hpromises hfutures
  obtain ⟨hshape,hend⟩ := run_exhausted o es hpromises hfutures
  refine ⟨⟨hshape,h.balanced.nodup,?_,?_,?_⟩,allEmpty_iff _⟩
  · exact fun v hv => (h.balanced.total v).mpr (.inl hv)
  · exact fun hclosed v hv => (h.balanced.complete (hend hclosed).2 v).mp hv
  · obtain ⟨m,hm⟩ := increments_end params h.wellFormed
    refine ⟨m,fun hopen => hopen ?_⟩
    rw [outcomes_append,List.mem_append]
    exact .inr hm

theorem enumeratesOnce_rmw :
    let o : Options := { action := 3,tid := 1,nthreads := 2,past := [1,2],isRead := true }
    let es : List Event := [.setPromise 0,.addFutureValue ⟨7,20,1⟩,.incrementBehaviors]
    EnumeratesOnce defaultParams (start defaultParams o) es ∧
      ((run defaultParams (start defaultParams o) es).allEmpty = true ↔
        (run defaultParams (start defaultParams o) es).incrementBehaviors.2 = false) := by
  apply enumeratesOnce
  · intro es₁ i es₂ heq
    match es₁ with
    | [] => exact .inr ⟨by decide,by decide⟩
    | [_] => simp at heq
    | [_,_] => simp at heq
    | _ :: _ :: _ :: _ => simp at heq
  · intro es₁ fv es₂ heq
    match es₁ with
    | [] => simp at heq
    | [e] =>
      simp only [List.cons_append,List.nil_append,List.cons.injEq] at heq
      rw [← heq.1]
      show ReadFromType.past ≠ .none
      decide
    | [_,_] => simp at heq
    | _ :: _ :: _ :: _ => simp at heq

/-- A read that has no option when it asks for the first one never reads the future value that
comes later. -/
theorem lateFuture_not_enumerated :
    let o : Options := { action := 3,tid := 1,nthreads := 2,isRead := true }
    let es : List Event := [.addFutureValue ⟨7,20,1⟩,.incrementBehaviors]
    PromisesInTime defaultParams (start defaultParams o) es ∧
      FuturesWhile (Unexhausted defaultParams (start defaultParams o)) es ∧
      ¬ EnumeratesOnce defaultParams (start defaultParams o) es := by
  refine ⟨?_,?_,?_⟩
  · intro es₁ i es₂ heq
    match es₁ with
    | [] => simp at heq
    | [_] => simp at heq
    | _ :: _ :: _ => simp at heq
  · intro es₁ fv es₂ heq
    match es₁ with
    | [] => simp [Unexhausted,outcomes]
    | [_] => simp at heq
    | _ :: _ :: _ => simp at heq
  · intro h
    have hvisited := h.complete (by decide) (.read (.future 0) none) ⟨by decide,by decide⟩
    exact absurd hvisited (by decide)

end Node
end CdsChecker
