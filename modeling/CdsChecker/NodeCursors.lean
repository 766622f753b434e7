import CdsChecker.Library.Enumeration
import CdsChecker.Node

/-! One increment of the behaviours of a node: which behaviour it moves to, and what stays ahead. -/
namespace CdsChecker
namespace Node
open Enumeration

/-- What a node reads: nothing, or an option by its index. -/
inductive ReadChoice
  | none
  | past (i : ℕ)
  | promise (i : ℕ)
  | future (i : ℕ)
  deriving DecidableEq, Repr

/-- A behaviour that an increment moves to. -/
inductive Behaviour
  | misc (value : ℤ)
  | read (choice : ReadChoice) (resolved : Option ℕ)
  | relseqBreak (i : ℕ)
  deriving DecidableEq, Repr

def readChoice (n : Node) : ReadChoice :=
  match n.readFromStatus with
  | .past => if n.readFromPast = [] then .none else .past n.readFromPastIdx
  | .promise => .promise n.readFromPromiseIdx.toNat
  | .future => .future n.futureIndex.toNat
  | .none => .none

/-- `increment_behaviors` with the behaviour it moves to. -/
def advance (n : Node) : Node × Option Behaviour :=
  match n.incrementMisc with
  | (n,true) => (n,some (.misc n.getMisc))
  | (n,false) =>
    match n.incrementPromise with
    | (n,true) => (n,some (.read n.readChoice (some n.resolvePromiseIdx.toNat)))
    | (n,false) =>
      match n.incrementReadFrom with
      | (n,true) => (n,some (.read n.readChoice none))
      | (n,false) =>
        match n.incrementRelseqBreak with
        | (n,true) => (n,some (.relseqBreak n.relseqBreakIndex.toNat))
        | (n,false) => (n,none)

/-- The source's function is the first and the last part of it. -/
theorem incrementBehaviors_eq (n : Node) :
    n.incrementBehaviors = (n.advance.1,n.advance.2.isSome) := by
  rcases h₁ : n.incrementMisc with ⟨n₁,_ | _⟩
  · rcases h₂ : n₁.incrementPromise with ⟨n₂,_ | _⟩
    · rcases h₃ : n₂.incrementReadFrom with ⟨n₃,_ | _⟩
      · rcases h₄ : n₃.incrementRelseqBreak with ⟨n₄,_ | _⟩ <;>
          simp [incrementBehaviors,advance,h₁,h₂,h₃,h₄]
      · simp [incrementBehaviors,advance,h₁,h₂,h₃]
    · simp [incrementBehaviors,advance,h₁,h₂]
  · simp [incrementBehaviors,advance,h₁]

/-- The read-from options behind the current one. -/
def Unread (n : Node) : ReadChoice → Prop
  | .none => False
  | .past i => n.readFromPastIdx < i ∧ i < n.readFromPast.length
  | .promise i => n.readFromPromiseIdx < i ∧ i < n.readFromPromises.length
  | .future i => n.futureIndex < i ∧ i < n.futureValues.length

/-- The behaviours that are still ahead of the cursors. -/
def Pending (n : Node) : Behaviour → Prop
  | .misc v => n.miscIndex < v ∧ v < n.miscMax
  | .read c none => n.Unread c
  | .read c (some i) =>
    c = n.readChoice ∧ n.resolvePromiseIdx < i ∧ n.resolvePromise.getD i false = true
  | .relseqBreak i => n.relseqBreakIndex < i ∧ i < n.relseqBreakWrites.length

/-- The indices agree with the kind of option that is current. -/
structure WellFormed (n : Node) : Prop where
  resolve : -1 ≤ n.resolvePromiseIdx
  relseqBreak : 0 ≤ n.relseqBreakIndex
  past : n.readFromStatus = .past →
    (n.readFromPast = [] ∨ n.readFromPastIdx < n.readFromPast.length) ∧
    n.readFromPromiseIdx = -1 ∧ n.futureIndex = -1
  promise : n.readFromStatus = .promise → n.readFromPast.length ≤ n.readFromPastIdx ∧
    0 ≤ n.readFromPromiseIdx ∧ n.readFromPromiseIdx < n.readFromPromises.length ∧
    n.futureIndex = -1
  future : n.readFromStatus = .future → n.readFromPast.length ≤ n.readFromPastIdx ∧
    n.readFromPromises.length ≤ n.readFromPromiseIdx ∧
    0 ≤ n.futureIndex ∧ n.futureIndex < n.futureValues.length
  none : n.readFromStatus = .none → n.readFromPast.length ≤ n.readFromPastIdx ∧
    n.readFromPromises.length ≤ n.readFromPromiseIdx ∧ n.futureValues.length ≤ n.futureIndex

/-! ### The cursors -/

theorem incrementMisc_true {n n' : Node} (h : n.incrementMisc = (n',true)) :
    n' = { n with miscIndex := n.miscIndex + 1 } ∧ n.miscIndex + 1 < n.miscMax := by
  rcases hi : advanceIndex n.miscIndex n.miscMax with ⟨i,more⟩
  simp only [incrementMisc,hi,Prod.mk.injEq] at h
  obtain ⟨rfl,rfl⟩ := h
  obtain ⟨_,rfl,hlt⟩ := advanceIndex_eq_true hi
  exact ⟨rfl,hlt⟩

theorem incrementMisc_false {n n' : Node} (h : n.incrementMisc = (n',false)) :
    ∃ i, n' = { n with miscIndex := i } ∧ n.miscMax ≤ n.miscIndex + 1 ∧ n.miscMax ≤ i := by
  rcases hi : advanceIndex n.miscIndex n.miscMax with ⟨i,more⟩
  simp only [incrementMisc,hi,Prod.mk.injEq] at h
  obtain ⟨rfl,rfl⟩ := h
  have hend := advanceIndex_eq_false hi
  exact ⟨i,rfl,by omega,by omega⟩

theorem incrementPromise_true {n n' : Node} (hn : n.WellFormed)
    (h : n.incrementPromise = (n',true)) :
    ∃ i : ℕ, n' = { n with resolvePromiseIdx := i } ∧ n.resolvePromiseIdx < i ∧
      n.resolvePromise.getD i false = true ∧
      ∀ j : ℕ, n.resolvePromiseIdx < j → j < i → n.resolvePromise.getD j false = false := by
  have hidx := hn.resolve
  cases hnext : nextPromise n.resolvePromise (n.resolvePromiseIdx + 1).toNat with
  | none => simp [incrementPromise,hnext] at h
  | some i =>
    simp only [incrementPromise,hnext,Prod.mk.injEq,and_true] at h
    obtain ⟨hle,hmark,hfirst⟩ := nextPromise_eq_some hnext
    exact ⟨i,h.symm,by omega,hmark,fun j hj hji => hfirst j (by omega) hji⟩

theorem incrementPromise_false {n n' : Node} (hn : n.WellFormed)
    (h : n.incrementPromise = (n',false)) :
    n' = n ∧ ∀ j : ℕ, n.resolvePromiseIdx < j → n.resolvePromise.getD j false = false := by
  have hidx := hn.resolve
  cases hnext : nextPromise n.resolvePromise (n.resolvePromiseIdx + 1).toNat with
  | some i => simp [incrementPromise,hnext] at h
  | none =>
    simp only [incrementPromise,hnext,Prod.mk.injEq,and_true] at h
    exact ⟨h.symm,fun j hj => nextPromise_eq_none.mp hnext j (by omega)⟩

theorem incrementRelseqBreak_true {n n' : Node} (h : n.incrementRelseqBreak = (n',true)) :
    n' = { n with relseqBreakIndex := n.relseqBreakIndex + 1 } ∧
      n.relseqBreakIndex + 1 < n.relseqBreakWrites.length := by
  rcases hi : advanceIndex n.relseqBreakIndex (n.relseqBreakWrites.length : ℤ) with ⟨i,more⟩
  simp only [incrementRelseqBreak,hi,Prod.mk.injEq] at h
  obtain ⟨rfl,rfl⟩ := h
  obtain ⟨_,rfl,hlt⟩ := advanceIndex_eq_true hi
  exact ⟨rfl,hlt⟩

theorem incrementRelseqBreak_false {n n' : Node} (h : n.incrementRelseqBreak = (n',false)) :
    ∃ i, n' = { n with relseqBreakIndex := i } ∧
      n.relseqBreakWrites.length ≤ n.relseqBreakIndex + 1 ∧
      n.relseqBreakWrites.length ≤ i ∧ n.relseqBreakIndex ≤ i := by
  rcases hi : advanceIndex n.relseqBreakIndex (n.relseqBreakWrites.length : ℤ) with ⟨i,more⟩
  simp only [incrementRelseqBreak,hi,Prod.mk.injEq] at h
  obtain ⟨rfl,rfl⟩ := h
  have hend := advanceIndex_eq_false hi
  exact ⟨i,rfl,by omega,by omega,by omega⟩

/-- The three cursors of the reads one after the other. -/
theorem incrementReadFrom_cases {n n' : Node} {more : Bool} (h : n.incrementReadFrom = (n',more)) :
    ∃ (i : ℕ) (j k : ℤ) (s : ReadFromType),
      n' = { n with
        resolvePromise := [],resolvePromiseIdx := -1,readFromStatus := s
        readFromPastIdx := i,readFromPromiseIdx := j,futureIndex := k } ∧
      ((s = .past ∧ more = true ∧ i = n.readFromPastIdx + 1 ∧ i < n.readFromPast.length ∧
          j = n.readFromPromiseIdx ∧ k = n.futureIndex) ∨
        (n.readFromPast.length ≤ n.readFromPastIdx + 1 ∧ n.readFromPast.length ≤ i ∧
          ((s = .promise ∧ more = true ∧ j = n.readFromPromiseIdx + 1 ∧
              j < n.readFromPromises.length ∧ k = n.futureIndex) ∨
            (n.readFromPromises.length ≤ n.readFromPromiseIdx + 1 ∧
              n.readFromPromises.length ≤ j ∧
              ((s = .future ∧ more = true ∧ k = n.futureIndex + 1 ∧ k < n.futureValues.length) ∨
                (s = .none ∧ more = false ∧ n.futureValues.length ≤ n.futureIndex + 1 ∧
                  n.futureValues.length ≤ k)))))) := by
  rcases hi : advanceIndex n.readFromPastIdx n.readFromPast.length with ⟨i,_ | _⟩
  · have hpast := advanceIndex_eq_false hi
    rcases hj : advanceIndex n.readFromPromiseIdx (n.readFromPromises.length : ℤ) with ⟨j,_ | _⟩
    · have hpromise := advanceIndex_eq_false hj
      rcases hk : advanceIndex n.futureIndex (n.futureValues.length : ℤ) with ⟨k,_ | _⟩
      · have hfuture := advanceIndex_eq_false hk
        simp only [incrementReadFrom,incrementReadFromPast,clearPromiseResolutions,hi,
          incrementReadFromPromise,hj,incrementFutureValue,hk,Prod.mk.injEq] at h
        exact ⟨i,j,k,.none,h.1.symm,.inr ⟨by omega,by omega,.inr ⟨by omega,by omega,
          .inr ⟨rfl,h.2.symm,by omega,by omega⟩⟩⟩⟩
      · have hfuture := advanceIndex_eq_true hk
        simp only [incrementReadFrom,incrementReadFromPast,clearPromiseResolutions,hi,
          incrementReadFromPromise,hj,incrementFutureValue,hk,Prod.mk.injEq] at h
        exact ⟨i,j,k,.future,h.1.symm,.inr ⟨by omega,by omega,.inr ⟨by omega,by omega,
          .inl ⟨rfl,h.2.symm,hfuture.2.1,hfuture.2.2⟩⟩⟩⟩
    · have hpromise := advanceIndex_eq_true hj
      simp only [incrementReadFrom,incrementReadFromPast,clearPromiseResolutions,hi,
        incrementReadFromPromise,hj,Prod.mk.injEq] at h
      exact ⟨i,j,n.futureIndex,.promise,h.1.symm,.inr ⟨by omega,by omega,
        .inl ⟨rfl,h.2.symm,hpromise.2.1,hpromise.2.2,rfl⟩⟩⟩
  · have hpast := advanceIndex_eq_true hi
    simp only [incrementReadFrom,incrementReadFromPast,clearPromiseResolutions,hi,
      Prod.mk.injEq] at h
    exact ⟨i,n.readFromPromiseIdx,n.futureIndex,.past,h.1.symm,
      .inl ⟨rfl,h.2.symm,hpast.2.1,hpast.2.2,rfl,rfl⟩⟩

/-- The options of a node, which no increment changes. -/
def SameOptions (n n' : Node) : Prop :=
  n'.readFromPast = n.readFromPast ∧ n'.readFromPromises = n.readFromPromises ∧
    n'.futureValues = n.futureValues ∧ n'.relseqBreakWrites = n.relseqBreakWrites ∧
    n'.miscMax = n.miscMax

/-- What an increment of the read-from option does to the other cursors. -/
def NextRead (n n' : Node) : Prop :=
  n'.resolvePromise = [] ∧ n'.resolvePromiseIdx = -1 ∧
    n'.miscIndex = n.miscIndex ∧ n'.relseqBreakIndex = n.relseqBreakIndex

/-- While past writes are left, the later cursors have not moved. -/
theorem WellFormed.of_past_left {n : Node} (hn : n.WellFormed)
    (h : n.readFromPastIdx + 1 < n.readFromPast.length) :
    n.readFromPromiseIdx = -1 ∧ n.futureIndex = -1 := by
  cases hs : n.readFromStatus with
  | past => exact (hn.past hs).2
  | promise => exact absurd (hn.promise hs).1 (by omega)
  | future => exact absurd (hn.future hs).1 (by omega)
  | none => exact absurd (hn.none hs).1 (by omega)

theorem WellFormed.of_promise_left {n : Node} (hn : n.WellFormed)
    (h : n.readFromPromiseIdx + 1 < n.readFromPromises.length) :
    -1 ≤ n.readFromPromiseIdx ∧ n.futureIndex = -1 := by
  cases hs : n.readFromStatus with
  | past =>
    have := hn.past hs
    omega
  | promise =>
    have := hn.promise hs
    omega
  | future => exact absurd (hn.future hs).2.1 (by omega)
  | none => exact absurd (hn.none hs).2.1 (by omega)

theorem WellFormed.of_future_left {n : Node} (hn : n.WellFormed)
    (h : n.futureIndex + 1 < n.futureValues.length) : -1 ≤ n.futureIndex := by
  cases hs : n.readFromStatus with
  | past => exact (hn.past hs).2.2.ge
  | promise => exact (hn.promise hs).2.2.2.ge
  | future =>
    have := hn.future hs
    omega
  | none => exact absurd (hn.none hs).2.2 (by omega)

/-- The next read-from option becomes the current one. -/
theorem incrementReadFrom_true {n n' : Node} (hn : n.WellFormed)
    (h : n.incrementReadFrom = (n',true)) :
    n'.WellFormed ∧ n.SameOptions n' ∧ n.NextRead n' ∧ n'.readFromStatus ≠ .none ∧
    n.Unread n'.readChoice ∧
      ∀ c, n'.Unread c ↔ n.Unread c ∧ c ≠ n'.readChoice := by
  obtain ⟨i,j,k,s,rfl,hcases⟩ := incrementReadFrom_cases h
  have hbreak := hn.relseqBreak
  rcases hcases with ⟨rfl,-,hi,hilt,hj,hk⟩ | ⟨hi,hile,hcases⟩
  · have hne : n.readFromPast ≠ [] := by
      intro hnil
      simp [hnil] at hilt
    have hstart := hn.of_past_left (by omega)
    refine ⟨⟨by simp,hbreak,?_,by simp,by simp,by simp⟩,by simp [SameOptions],by simp [NextRead],
      by simp,?_,?_⟩
    · simp
      omega
    · simp [readChoice,hne,Unread]
      omega
    · intro c
      cases c <;> simp [readChoice,hne,Unread] <;> omega
  · rcases hcases with ⟨rfl,-,hj,hjlt,hk⟩ | ⟨hj,hjle,hcases⟩
    · have hstart := hn.of_promise_left (by omega)
      refine ⟨⟨by simp,hbreak,by simp,?_,by simp,by simp⟩,by simp [SameOptions],by simp [NextRead],
      by simp,?_,?_⟩
      · simp
        omega
      · simp [readChoice,Unread]
        omega
      · intro c
        cases c <;> simp [readChoice,Unread] <;> omega
    · rcases hcases with ⟨rfl,-,hk,hklt⟩ | ⟨_,hfalse,_⟩
      · have hstart := hn.of_future_left (by omega)
        refine ⟨⟨by simp,hbreak,by simp,by simp,?_,by simp⟩,
          by simp [SameOptions],by simp [NextRead],
      by simp,?_,?_⟩
        · simp
          omega
        · simp [readChoice,Unread]
          omega
        · intro c
          cases c <;> simp [readChoice,Unread] <;> omega
      · exact absurd hfalse (by decide)

/-- No read-from option is left, and the increment stays at the end. -/
theorem incrementReadFrom_false {n n' : Node} (hn : n.WellFormed)
    (h : n.incrementReadFrom = (n',false)) :
    n'.WellFormed ∧ n.SameOptions n' ∧ n.NextRead n' ∧ n'.readFromStatus = .none ∧
      ∀ c, ¬ n.Unread c ∧ ¬ n'.Unread c := by
  obtain ⟨i,j,k,s,rfl,hcases⟩ := incrementReadFrom_cases h
  rcases hcases with ⟨-,htrue,-⟩ | ⟨hi,hile,⟨-,htrue,-⟩ | ⟨hj,hjle,
    ⟨-,htrue,-⟩ | ⟨rfl,-,hk,hkle⟩⟩⟩
  · exact absurd htrue (by decide)
  · exact absurd htrue (by decide)
  · exact absurd htrue (by decide)
  · refine ⟨⟨by simp,hn.relseqBreak,by simp,by simp,by simp,?_⟩,
      by simp [SameOptions],by simp [NextRead],
      rfl,?_⟩
    · intro _
      exact ⟨hile,hjle,hkle⟩
    · intro c
      cases c <;> simp [Unread] <;> omega

/-! ### One increment -/

theorem takes_misc {n n' : Node} (h : n.incrementMisc = (n',true)) :
    Takes n.Pending n'.Pending (some (.misc n'.getMisc)) := by
  obtain ⟨rfl,hlt⟩ := incrementMisc_true h
  refine ⟨⟨by simp [getMisc],hlt⟩,fun w => ?_⟩
  cases w with
  | misc v =>
    simp [Pending,getMisc]
    omega
  | read c r => cases r <;> simp [Pending,Unread,readChoice]
  | relseqBreak i => simp [Pending]

theorem same_misc {n n' : Node} (h : n.incrementMisc = (n',false)) (w : Behaviour) :
    n'.Pending w ↔ n.Pending w := by
  obtain ⟨i,rfl,hend,hle⟩ := incrementMisc_false h
  cases w with
  | misc v =>
    simp [Pending]
    omega
  | read c r => cases r <;> simp [Pending,Unread,readChoice]
  | relseqBreak i => simp [Pending]

theorem takes_promise {n n' : Node} (hn : n.WellFormed) (h : n.incrementPromise = (n',true)) :
    Takes n.Pending n'.Pending (some (.read n'.readChoice (some n'.resolvePromiseIdx.toNat))) := by
  obtain ⟨i,rfl,hlt,hmark,hfirst⟩ := incrementPromise_true hn h
  refine ⟨⟨rfl,hlt,hmark⟩,fun w => ?_⟩
  cases w with
  | misc v => simp [Pending]
  | relseqBreak j => simp [Pending]
  | read c r =>
    cases r with
    | none => cases c <;> simp [Pending,Unread]
    | some j =>
      show c = n.readChoice ∧ (i : ℤ) < j ∧ n.resolvePromise.getD j false = true ↔
        (c = n.readChoice ∧ n.resolvePromiseIdx < j ∧ n.resolvePromise.getD j false = true) ∧
          Behaviour.read c (some j) ≠ .read n.readChoice (some i)
      constructor
      · intro ⟨hc,hij,hj⟩
        refine ⟨⟨hc,by omega,hj⟩,?_⟩
        intro heq
        injection heq with _ heq
        injection heq
        omega
      · intro ⟨⟨hc,hij,hj⟩,hne⟩
        refine ⟨hc,?_,hj⟩
        by_contra hle
        by_cases hji : j = i
        · exact hne (by rw [hc,hji])
        · have hj' := hfirst j hij (by omega)
          rw [hj] at hj'
          exact absurd hj' (by decide)

theorem takes_read {n n' : Node} (hn : n.WellFormed)
    (hnone : ∀ j : ℕ, n.resolvePromiseIdx < j → n.resolvePromise.getD j false = false)
    (h : n.incrementReadFrom = (n',true)) :
    Takes n.Pending n'.Pending (some (.read n'.readChoice none)) := by
  obtain ⟨_,⟨_,_,_,hbw,hmm⟩,⟨hp,hidx,hmi,hbi⟩,_,hunread,hothers⟩ := incrementReadFrom_true hn h
  refine ⟨hunread,fun w => ?_⟩
  cases w with
  | misc v => simp [Pending,hmi,hmm]
  | relseqBreak j => simp [Pending,hbi,hbw]
  | read c r =>
    cases r with
    | none => simp [Pending,hothers]
    | some j =>
      simp only [Pending,hp,List.getD_nil]
      constructor
      · intro hw
        exact absurd hw.2.2 (by decide)
      · intro hw
        have hj := hnone j hw.1.2.1
        rw [hw.1.2.2] at hj
        exact absurd hj (by decide)

/-- An exhausted cursor of the reads leaves the release sequences ahead. -/
theorem same_read {n n' : Node} (hn : n.WellFormed)
    (hnone : ∀ j : ℕ, n.resolvePromiseIdx < j → n.resolvePromise.getD j false = false)
    (h : n.incrementReadFrom = (n',false)) (w : Behaviour) : n'.Pending w ↔ n.Pending w := by
  obtain ⟨_,⟨_,_,_,hbw,hmm⟩,⟨hp,hidx,hmi,hbi⟩,_,hunread⟩ := incrementReadFrom_false hn h
  cases w with
  | misc v => simp [Pending,hmi,hmm]
  | relseqBreak j => simp [Pending,hbi,hbw]
  | read c r =>
    cases r with
    | none => simp [Pending,hunread c]
    | some j =>
      simp only [Pending,hp,List.getD_nil]
      constructor
      · intro hw
        exact absurd hw.2.2 (by decide)
      · intro hw
        have hj := hnone j hw.2.1
        rw [hw.2.2] at hj
        exact absurd hj (by decide)

theorem takes_relseqBreak {n n' : Node} (hn : n.WellFormed)
    (h : n.incrementRelseqBreak = (n',true)) :
    Takes n.Pending n'.Pending (some (.relseqBreak n'.relseqBreakIndex.toNat)) := by
  have hidx := hn.relseqBreak
  obtain ⟨rfl,hlt⟩ := incrementRelseqBreak_true h
  refine ⟨⟨by simp only; omega,by simp only; omega⟩,fun w => ?_⟩
  cases w with
  | misc v => simp [Pending]
  | read c r => cases r <;> simp [Pending,Unread,readChoice]
  | relseqBreak i =>
    simp [Pending]
    omega

theorem same_relseqBreak {n n' : Node} (h : n.incrementRelseqBreak = (n',false)) (w : Behaviour) :
    n'.Pending w ↔ n.Pending w := by
  obtain ⟨i,rfl,hend,hle,_⟩ := incrementRelseqBreak_false h
  cases w with
  | misc v => simp [Pending]
  | read c r => cases r <;> simp [Pending,Unread,readChoice]
  | relseqBreak j =>
    simp [Pending]
    omega

/-- An increment takes out the behaviour it moves to. -/
theorem advance_takes {n : Node} (hn : n.WellFormed) :
    Takes n.Pending n.advance.1.Pending n.advance.2 := by
  rcases h₁ : n.incrementMisc with ⟨n₁,_ | _⟩
  · have hsame₁ := same_misc h₁
    obtain ⟨m,rfl,hm,hmle⟩ := incrementMisc_false h₁
    have hn₁ : WellFormed { n with miscIndex := m } := ⟨hn.1,hn.2,hn.3,hn.4,hn.5,hn.6⟩
    refine Takes.of_same hsame₁ ?_
    rcases h₂ : incrementPromise { n with miscIndex := m } with ⟨n₂,_ | _⟩
    · obtain ⟨rfl,hnone⟩ := incrementPromise_false hn₁ h₂
      rcases h₃ : incrementReadFrom { n with miscIndex := m } with ⟨n₃,_ | _⟩
      · refine Takes.of_same (same_read hn₁ hnone h₃) ?_
        obtain ⟨hn₃,⟨_,_,_,hbw,hmm⟩,⟨hp,hidx,hmi,hbi⟩,hs,hunread⟩ := incrementReadFrom_false hn₁ h₃
        rcases h₄ : n₃.incrementRelseqBreak with ⟨n₄,_ | _⟩
        · have hadvance : n.advance = (n₄,none) := by simp [advance,h₁,h₂,h₃,h₄]
          have hsame₄ := same_relseqBreak h₄
          obtain ⟨i,-,hend,-⟩ := incrementRelseqBreak_false h₄
          rw [hadvance]
          intro w
          rw [hsame₄ w,and_self]
          intro hw
          cases w with
          | misc v =>
            simp only [Pending,hmi,hmm] at hw
            omega
          | relseqBreak j =>
            simp only [Pending] at hw
            omega
          | read c r =>
            cases r with
            | none => exact (hunread c).2 hw
            | some j => simp [Pending,hp] at hw
        · have hadvance : n.advance = (n₄,some (.relseqBreak n₄.relseqBreakIndex.toNat)) := by
            simp [advance,h₁,h₂,h₃,h₄]
          rw [hadvance]
          exact takes_relseqBreak hn₃ h₄
      · have hadvance : n.advance = (n₃,some (.read n₃.readChoice none)) := by
          simp [advance,h₁,h₂,h₃]
        rw [hadvance]
        exact takes_read hn₁ hnone h₃
    · have hadvance : n.advance =
          (n₂,some (.read n₂.readChoice (some n₂.resolvePromiseIdx.toNat))) := by
        simp [advance,h₁,h₂]
      rw [hadvance]
      exact takes_promise hn₁ h₂
  · have hadvance : n.advance = (n₁,some (.misc n₁.getMisc)) := by simp [advance,h₁]
    rw [hadvance]
    exact takes_misc h₁

/-- What an increment leaves: the options, and either the read-from option with the promises to
resolve or a fresh option with none. -/
structure Frame (n n' : Node) : Prop where
  wellFormed : n'.WellFormed
  options : n.SameOptions n'
  choice : (n'.readChoice = n.readChoice ∧ n'.readFromStatus = n.readFromStatus ∧
      n'.resolvePromise = n.resolvePromise) ∨
    (n'.resolvePromise = [] ∧ n'.resolvePromiseIdx = -1 ∧
      (n.Unread n'.readChoice ∨ n'.readFromStatus = .none))

theorem advance_frame {n : Node} (hn : n.WellFormed) :
    n.Frame n.advance.1 ∧ (n.advance.2 = none → n.advance.1.readFromStatus = .none) := by
  rcases h₁ : n.incrementMisc with ⟨n₁,_ | _⟩
  · obtain ⟨m,rfl,hm,hmle⟩ := incrementMisc_false h₁
    have hn₁ : WellFormed { n with miscIndex := m } := ⟨hn.1,hn.2,hn.3,hn.4,hn.5,hn.6⟩
    rcases h₂ : incrementPromise { n with miscIndex := m } with ⟨n₂,_ | _⟩
    · obtain ⟨rfl,hnone⟩ := incrementPromise_false hn₁ h₂
      rcases h₃ : incrementReadFrom { n with miscIndex := m } with ⟨n₃,_ | _⟩
      · obtain ⟨hn₃,hopts,⟨hp,hidx,-,-⟩,hs,-⟩ := incrementReadFrom_false hn₁ h₃
        rcases h₄ : n₃.incrementRelseqBreak with ⟨n₄,_ | _⟩
        · have hadvance : n.advance = (n₄,none) := by simp [advance,h₁,h₂,h₃,h₄]
          obtain ⟨i,rfl,-,-,hi⟩ := incrementRelseqBreak_false h₄
          rw [hadvance]
          refine ⟨⟨⟨hn₃.1,?_,hn₃.3,hn₃.4,hn₃.5,hn₃.6⟩,hopts,.inr ⟨hp,hidx,.inr hs⟩⟩,
            fun _ => hs⟩
          exact le_trans hn₃.relseqBreak hi
        · have hadvance : n.advance = (n₄,some (.relseqBreak n₄.relseqBreakIndex.toNat)) := by
            simp [advance,h₁,h₂,h₃,h₄]
          obtain ⟨rfl,hlt⟩ := incrementRelseqBreak_true h₄
          rw [hadvance]
          refine ⟨⟨⟨hn₃.1,?_,hn₃.3,hn₃.4,hn₃.5,hn₃.6⟩,hopts,.inr ⟨hp,hidx,.inr hs⟩⟩,
            fun h => absurd h (by simp)⟩
          have hbreak := hn₃.relseqBreak
          show 0 ≤ n₃.relseqBreakIndex + 1
          omega
      · have hadvance : n.advance = (n₃,some (.read n₃.readChoice none)) := by
          simp [advance,h₁,h₂,h₃]
        obtain ⟨hn₃,hopts,⟨hp,hidx,-,-⟩,-,hunread,-⟩ := incrementReadFrom_true hn₁ h₃
        have hunread' : n.Unread n₃.readChoice := by
          cases hc : n₃.readChoice <;> rw [hc] at hunread <;> exact hunread
        rw [hadvance]
        exact ⟨⟨hn₃,hopts,.inr ⟨hp,hidx,.inl hunread'⟩⟩,fun h => absurd h (by simp)⟩
    · have hadvance : n.advance =
          (n₂,some (.read n₂.readChoice (some n₂.resolvePromiseIdx.toNat))) := by
        simp [advance,h₁,h₂]
      obtain ⟨i,rfl,hlt,-⟩ := incrementPromise_true hn₁ h₂
      rw [hadvance]
      refine ⟨⟨⟨?_,hn.2,hn.3,hn.4,hn.5,hn.6⟩,⟨rfl,rfl,rfl,rfl,rfl⟩,
        .inl ⟨rfl,rfl,rfl⟩⟩,fun h => absurd h (by simp)⟩
      show (-1 : ℤ) ≤ i
      omega
  · have hadvance : n.advance = (n₁,some (.misc n₁.getMisc)) := by simp [advance,h₁]
    obtain ⟨rfl,-⟩ := incrementMisc_true h₁
    rw [hadvance]
    exact ⟨⟨⟨hn.1,hn.2,hn.3,hn.4,hn.5,hn.6⟩,⟨rfl,rfl,rfl,rfl,rfl⟩,
      .inl ⟨rfl,rfl,rfl⟩⟩,fun h => absurd h (by simp)⟩

/-! ### The emptiness tests -/

theorem advanceIndex_snd {α : Type} [LinearOrder α] [Add α] [One α] {index size : α}
    (h : index < index + 1) : (advanceIndex index size).2 = !indexAtEnd index size := by
  by_cases hlt : index < size
  · by_cases hnext : index + 1 < size
    · simp [advanceIndex,indexAtEnd,hlt,hnext]
    · simp [advanceIndex,indexAtEnd,hlt,hnext,not_lt.mp hnext]
  · have hend : size ≤ index + 1 := (not_lt.mp hlt).trans h.le
    simp [advanceIndex,indexAtEnd,hlt,hend]

theorem incrementMisc_snd (n : Node) : n.incrementMisc.2 = !n.miscEmpty :=
  advanceIndex_snd (lt_add_one n.miscIndex)

theorem incrementPromise_snd (n : Node) : n.incrementPromise.2 = !n.promiseEmpty := by
  have hiff := promiseEmpty_iff n
  cases hnext : nextPromise n.resolvePromise (n.resolvePromiseIdx + 1).toNat with
  | none => simp [incrementPromise,hnext,hiff.mpr hnext]
  | some i =>
    have hne : n.promiseEmpty = false := by
      rw [Bool.eq_false_iff,ne_eq,hiff,hnext]
      simp
    simp [incrementPromise,hnext,hne]

theorem incrementReadFrom_snd (n : Node) : n.incrementReadFrom.2 = !n.readFromEmpty := by
  rcases hinc : n.incrementReadFrom with ⟨n',more⟩
  obtain ⟨i,j,k,s,-,hcases⟩ := incrementReadFrom_cases hinc
  rw [Bool.eq_iff_iff]
  simp only [readFromEmpty,readFromPastEmpty,readFromPromiseEmpty,futureValueEmpty,indexAtEnd,
    ge_iff_le,Bool.not_eq_true',Bool.and_eq_false_iff,decide_eq_false_iff_not,not_le]
  rcases hcases with ⟨-,rfl,hi,hilt,-⟩ | ⟨hi,-,⟨-,rfl,hj,hjlt,-⟩ | ⟨hj,-,
    ⟨-,rfl,hk,hklt⟩ | ⟨-,rfl,hk,-⟩⟩⟩
  · exact iff_of_true rfl (.inl (.inl (by omega)))
  · exact iff_of_true rfl (.inl (.inr (by omega)))
  · exact iff_of_true rfl (.inr (by omega))
  · exact iff_of_false (by decide) (by omega)

theorem incrementRelseqBreak_snd (n : Node) : n.incrementRelseqBreak.2 = !n.relseqBreakEmpty :=
  advanceIndex_snd (lt_add_one n.relseqBreakIndex)

theorem incrementPromise_fst {n n' : Node} (h : n.incrementPromise = (n',false)) : n' = n := by
  rw [incrementPromise] at h
  split at h
  · exact absurd (Prod.mk.inj h).2 (by decide)
  · exact (Prod.mk.inj h).1.symm

/-- The tests ask for the same as the functions they belong to. -/
theorem allEmpty_iff (n : Node) : n.allEmpty = true ↔ n.incrementBehaviors.2 = false := by
  have hmisc := n.incrementMisc_snd
  rcases h₁ : n.incrementMisc with ⟨n₁,_ | _⟩
  · obtain ⟨m,rfl,-⟩ := incrementMisc_false h₁
    have hpromise : (incrementPromise { n with miscIndex := m }).2 = !n.promiseEmpty :=
      incrementPromise_snd _
    rcases h₂ : incrementPromise { n with miscIndex := m } with ⟨n₂,_ | _⟩
    · obtain rfl := incrementPromise_fst h₂
      have hread : (incrementReadFrom { n with miscIndex := m }).2 = !n.readFromEmpty :=
        incrementReadFrom_snd _
      rcases h₃ : incrementReadFrom { n with miscIndex := m } with ⟨n₃,_ | _⟩
      · have hbreak := n₃.incrementRelseqBreak_snd
        obtain ⟨i,j,k,s,rfl,-⟩ := incrementReadFrom_cases h₃
        rw [h₁] at hmisc
        rw [h₂] at hpromise
        rw [h₃] at hread
        have hm : n.miscEmpty = true := by simpa using hmisc
        have hp : n.promiseEmpty = true := by simpa using hpromise
        have hr : n.readFromEmpty = true := by simpa using hread
        simp only [allEmpty,incrementBehaviors,h₁,h₂,h₃,hm,hp,hr,hbreak,Bool.true_and]
        rw [Bool.not_eq_false']
        exact Iff.rfl
      · rw [h₃] at hread
        have hr : n.readFromEmpty = false := by simpa using hread
        simp [allEmpty,incrementBehaviors,h₁,h₂,h₃,hr]
    · rw [h₂] at hpromise
      have hp : n.promiseEmpty = false := by simpa using hpromise
      simp [allEmpty,incrementBehaviors,h₁,h₂,hp]
  · rw [h₁] at hmisc
    have hm : n.miscEmpty = false := by simpa using hmisc
    simp [allEmpty,incrementBehaviors,h₁,hm]

theorem incrementBehaviors_snd (n : Node) : n.incrementBehaviors.2 = !n.allEmpty := by
  have h := n.allEmpty_iff
  cases hempty : n.allEmpty <;> cases hmore : n.incrementBehaviors.2 <;>
    simp [hempty,hmore] at h ⊢

end Node
end CdsChecker
