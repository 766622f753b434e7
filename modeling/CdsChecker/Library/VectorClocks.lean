import Mathlib.Logic.Relation
import Mathlib.Logic.Function.Basic
import Mathlib.Tactic

/-! Vector clocks of events that may learn late: an event of the past learns what another one
knows, and passes it on to all events that know of it. -/

namespace VectorClocks

open Relation

/-- Events with their threads, their numbers and their clocks. -/
structure Clocks (α ι : Type) where
  tid : α → ι
  seq : α → ℕ
  know : α → ι → ℕ

variable {α ι : Type} {C : Clocks α ι} {a b q : α}

/-- The clock of `b` has reached `a`. -/
def Knows (C : Clocks α ι) (a b : α) : Prop := C.seq a ≤ C.know b (C.tid a)

/-- A clock shows its own event, and no later one. -/
structure Sound (C : Clocks α ι) : Prop where
  own : ∀ a, C.know a (C.tid a) = C.seq a
  bound : ∀ a t, C.know a t ≤ C.seq a

/-- An event knows all that the events know that it knows of. -/
def Closed (C : Clocks α ι) : Prop := ∀ a b, Knows C a b → ∀ t, C.know a t ≤ C.know b t

/-- The same, up to what has been learned by one event and not passed on yet. -/
def ClosedBut (C : Clocks α ι) (q : α) : Prop :=
  ∀ a b, a ≠ q → Knows C a b → ∀ t, C.know a t ≤ C.know b t

theorem Sound.le_of_knows (h : Sound C) (hk : Knows C a b) : C.seq a ≤ C.seq b :=
  hk.trans (h.bound b _)

theorem Sound.knows_self (h : Sound C) (a : α) : Knows C a a := (h.own a).ge

/-- Events without a number know nothing, and are known to all. -/
theorem Sound.know_zero (h : Sound C) (ha : C.seq a = 0) (t : ι) : C.know a t = 0 :=
  Nat.le_zero.mp (ha ▸ h.bound a t)

theorem Closed.knows_trans (h : Closed C) {c : α} (hab : Knows C a b) (hbc : Knows C b c) :
    Knows C a c :=
  le_trans hab (h b c hbc _)

theorem Closed.but (h : Closed C) (q : α) : ClosedBut C q := fun a b _ => h a b

/-- Nobody else knows of the event. -/
theorem ClosedBut.closed (h : ClosedBut C q) (hq : ∀ b, Knows C q b → b = q) : Closed C := by
  intro a b hab t
  by_cases ha : a = q
  · subst ha
    rw [hq b hab]
  · exact h a b ha hab t

/-! ### Learning -/

section Learning

variable [DecidableEq α]

/-- `b` learns what `a` knows. -/
def learn (C : Clocks α ι) (a b : α) : Clocks α ι :=
  { C with know := Function.update C.know b fun t => max (C.know b t) (C.know a t) }

@[simp] theorem learn_tid (C : Clocks α ι) (a b : α) : (learn C a b).tid = C.tid := rfl

@[simp] theorem learn_seq (C : Clocks α ι) (a b : α) : (learn C a b).seq = C.seq := rfl

@[simp] theorem learn_know_self (C : Clocks α ι) (a b : α) (t : ι) :
    (learn C a b).know b t = max (C.know b t) (C.know a t) := by
  simp [learn]

theorem learn_know_of_ne (C : Clocks α ι) {a b x : α} (hx : x ≠ b) :
    (learn C a b).know x = C.know x :=
  Function.update_of_ne hx _ _

theorem knows_learn_of_ne {x y : α} (hy : y ≠ b) : Knows (learn C a b) x y ↔ Knows C x y := by
  unfold Knows
  rw [learn_know_of_ne C hy]
  rfl

theorem knows_learn_self {x : α} : Knows (learn C a b) x b ↔ Knows C x b ∨ Knows C x a := by
  unfold Knows
  rw [learn_know_self,learn_tid,learn_seq,le_max_iff]

theorem Knows.learn {x y : α} (h : Knows C x y) (a b : α) : Knows (learn C a b) x y := by
  by_cases hy : y = b
  · subst hy
    exact knows_learn_self.mpr (.inl h)
  · exact (knows_learn_of_ne hy).mpr h

theorem Sound.learn (h : Sound C) (hab : C.seq a ≤ C.seq b) : Sound (learn C a b) where
  own x := by
    by_cases hx : x = b
    · subst hx
      rw [learn_know_self,learn_tid,h.own,learn_seq]
      exact max_eq_left ((h.bound a _).trans hab)
    · rw [learn_know_of_ne C hx]
      exact h.own x
  bound x t := by
    by_cases hx : x = b
    · subst hx
      rw [learn_know_self]
      exact max_le (h.bound x t) ((h.bound a t).trans hab)
    · rw [learn_know_of_ne C hx]
      exact h.bound x t

/-- What `b` learns is closed but for the events that know `b`. -/
theorem ClosedBut.learn (h : ClosedBut C b) (a : α) : ClosedBut (learn C a b) b := by
  intro x y hx hxy t
  rw [learn_know_of_ne C hx]
  by_cases hy : y = b
  · subst hy
    rw [learn_know_self]
    rcases knows_learn_self.mp hxy with hk | hk
    · exact (h x y hx hk t).trans (le_max_left _ _)
    · exact (h x a hx hk t).trans (le_max_right _ _)
  · rw [learn_know_of_ne C hy]
    exact h x y hx ((knows_learn_of_ne hy).mp hxy) t

/-- The later events that know of `q` learn what `q` knows, the newest first. Those that know it
already may be left out. -/
inductive Propagates (q : α) : List α → Clocks α ι → Clocks α ι → Prop
  | done {C : Clocks α ι} : Propagates q [] C C
  | learns {x : α} {l : List α} {C C' : Clocks α ι} (h : Knows C q x)
      (hrest : Propagates q l (learn C q x) C') : Propagates q (x :: l) C C'
  | skips {x : α} {l : List α} {C C' : Clocks α ι}
      (h : Knows C q x → ∀ t, C.know q t ≤ C.know x t) (hrest : Propagates q l C C') :
      Propagates q (x :: l) C C'

/-- What has not been passed on yet is passed on to the events in the list. -/
theorem Propagates.closed {l : List α} {C' : Clocks α ι} (h : Propagates q l C C') (hs : Sound C)
    (hc : ClosedBut C q) (hq : q ∉ l) (hsorted : l.Pairwise fun x y => C.seq y < C.seq x)
    (hrest : ∀ b, b ≠ q → Knows C q b → b ∉ l → ∀ t, C.know q t ≤ C.know b t) : Closed C' := by
  induction h with
  | done =>
    intro a b hab t
    by_cases ha : a = q
    · subst ha
      by_cases hb : b = a
      · rw [hb]
      · exact hrest b hb hab List.not_mem_nil t
    · exact hc a b ha hab t
  | @learns x l C C' hknows _ ih =>
    rw [List.mem_cons,not_or] at hq
    rw [List.pairwise_cons] at hsorted
    have hxq : x ≠ q := Ne.symm hq.1
    -- an event that knows of `x` has been served, or it is `q` itself
    have hserved : ∀ b, b ≠ x → Knows C x b → ∀ t, C.know q t ≤ C.know b t := by
      intro b hbx hxb t
      by_cases hb : b = q
      · rw [hb]
      · have hnot : b ∉ x :: l := by
          rw [List.mem_cons]
          rintro (rfl | hmem)
          · exact hbx rfl
          · exact absurd (hs.le_of_knows hxb) (Nat.not_le.mpr (hsorted.1 b hmem))
        exact hrest b hb (le_trans hknows (hc x b hxq hxb _)) hnot t
    have hqsame : (learn C q x).know q = C.know q := learn_know_of_ne C hq.1
    refine ih (hs.learn (hs.le_of_knows hknows)) ?_ hq.2 hsorted.2 ?_
    · intro a b ha hab t
      by_cases hax : a = x
      · subst hax
        by_cases hb : b = a
        · rw [hb]
        · rw [knows_learn_of_ne hb] at hab
          rw [learn_know_self,learn_know_of_ne C hb]
          exact max_le (hc a b ha hab t) (hserved b hb hab t)
      · rw [learn_know_of_ne C hax]
        by_cases hb : b = x
        · subst hb
          rw [learn_know_self]
          rcases knows_learn_self.mp hab with hk | hk
          · exact (hc a b ha hk t).trans (le_max_left _ _)
          · exact (hc a q ha hk t).trans (le_max_right _ _)
        · rw [learn_know_of_ne C hb]
          exact hc a b ha ((knows_learn_of_ne hb).mp hab) t
    · intro b hb hqb hbl t
      rw [hqsame]
      by_cases hbx : b = x
      · subst hbx
        rw [learn_know_self]
        exact le_max_right _ _
      · rw [learn_know_of_ne C hbx]
        refine hrest b hb ((knows_learn_of_ne hbx).mp hqb) ?_ t
        rw [List.mem_cons,not_or]
        exact ⟨hbx,hbl⟩
  | @skips x l C C' hknows _ ih =>
    rw [List.mem_cons,not_or] at hq
    rw [List.pairwise_cons] at hsorted
    refine ih hs hc hq.2 hsorted.2 fun b hb hqb hbl t => ?_
    by_cases hbx : b = x
    · subst hbx
      exact hknows hqb t
    · refine hrest b hb hqb ?_ t
      rw [List.mem_cons,not_or]
      exact ⟨hbx,hbl⟩

/-- Nothing is passed on by an event that knows nothing. -/
theorem Propagates.eq_of_zero {l : List α} {C' : Clocks α ι} (h : Propagates q l C C')
    (hq : ∀ t, C.know q t = 0) : C' = C := by
  induction h with
  | done => rfl
  | @learns x l C C' _ _ ih =>
    have hsame : learn C q x = C := by
      unfold learn
      simp only [hq,Nat.max_zero,Function.update_eq_self]
    rw [hsame] at ih
    exact ih hq
  | skips _ _ ih => exact ih hq

/-! ### A new event -/

variable [DecidableEq ι]

/-- A new event knows what its parent knows. -/
def enter (C : Clocks α ι) (n : α) (t : ι) (s : ℕ) (parent : Option α) : Clocks α ι where
  tid := Function.update C.tid n t
  seq := Function.update C.seq n s
  know := Function.update C.know n fun u =>
    if u = t then s else (parent.map fun p => C.know p u).getD 0

/-- The event is new, and its parent knows the earlier events of its thread. -/
structure Enters (C : Clocks α ι) (n : α) (t : ι) (s : ℕ) (parent : Option α) : Prop where
  free : C.seq n = 0
  newest : ∀ b, C.seq b < s
  earlier : ∀ a, C.tid a = t → 0 < C.seq a → ∃ p, parent = some p ∧ Knows C a p

variable {n : α} {t : ι} {s : ℕ} {parent : Option α}

theorem enter_tid_of_ne (ha : a ≠ n) : (enter C n t s parent).tid a = C.tid a :=
  Function.update_of_ne ha _ _

theorem enter_seq_of_ne (ha : a ≠ n) : (enter C n t s parent).seq a = C.seq a :=
  Function.update_of_ne ha _ _

theorem enter_know_of_ne (ha : a ≠ n) : (enter C n t s parent).know a = C.know a :=
  Function.update_of_ne ha _ _

@[simp] theorem enter_tid : (enter C n t s parent).tid n = t := Function.update_self _ _ _

@[simp] theorem enter_seq : (enter C n t s parent).seq n = s := Function.update_self _ _ _

@[simp] theorem enter_know (u : ι) : (enter C n t s parent).know n u =
    if u = t then s else (parent.map fun p => C.know p u).getD 0 := by
  simp [enter]

theorem enter_know_parent {p : α} (hs : Sound C) (h : Enters C n t s parent)
    (hp : parent = some p) (u : ι) : C.know p u ≤ (enter C n t s parent).know n u := by
  rw [enter_know,hp]
  split
  · exact (hs.bound p u).trans (Nat.le_of_lt (h.newest p))
  · exact le_rfl

theorem Sound.enter (hs : Sound C) (h : Enters C n t s parent) : Sound (enter C n t s parent) where
  own a := by
    by_cases ha : a = n
    · subst ha
      simp
    · rw [enter_know_of_ne ha,enter_tid_of_ne ha,enter_seq_of_ne ha]
      exact hs.own a
  bound a u := by
    by_cases ha : a = n
    · subst ha
      rw [enter_know,enter_seq]
      split
      · exact le_rfl
      · cases parent with
        | none => exact Nat.zero_le _
        | some p => exact (hs.bound p u).trans (Nat.le_of_lt (h.newest p))
    · rw [enter_know_of_ne ha,enter_seq_of_ne ha]
      exact hs.bound a u

theorem knows_enter_of_ne (ha : a ≠ n) (hb : b ≠ n) :
    Knows (enter C n t s parent) a b ↔ Knows C a b := by
  unfold Knows
  rw [enter_know_of_ne hb,enter_tid_of_ne ha,enter_seq_of_ne ha]

/-- What the new event knows, it knows from its parent. -/
theorem knows_enter_self (h : Enters C n t s parent) (ha : a ≠ n)
    (hk : Knows (enter C n t s parent) a n) :
    C.seq a = 0 ∨ ∃ p, parent = some p ∧ Knows C a p := by
  rcases Nat.eq_zero_or_pos (C.seq a) with hzero | hpos
  · exact .inl hzero
  refine .inr ?_
  unfold Knows at hk
  rw [enter_seq_of_ne ha,enter_tid_of_ne ha,enter_know] at hk
  split at hk
  · rename_i ht
    exact h.earlier a ht hpos
  · cases parent with
    | none => exact absurd hk (Nat.not_le.mpr hpos)
    | some p => exact ⟨p,rfl,hk⟩

/-- Nobody knows of the new event yet. -/
theorem not_knows_enter (hs : Sound C) (h : Enters C n t s parent) (hb : b ≠ n) :
    ¬ Knows (enter C n t s parent) n b := by
  unfold Knows
  rw [enter_seq,enter_know_of_ne hb,Nat.not_le]
  exact (hs.bound b _).trans_lt (h.newest b)

theorem Closed.enter (hc : Closed C) (hs : Sound C) (h : Enters C n t s parent) :
    Closed (enter C n t s parent) := by
  intro a b hab u
  by_cases ha : a = n
  · subst ha
    by_cases hb : b = a
    · rw [hb]
    · exact absurd hab (not_knows_enter hs h hb)
  · rw [enter_know_of_ne ha]
    by_cases hb : b = n
    · subst hb
      rcases knows_enter_self h ha hab with hzero | ⟨p,hp,hk⟩
      · rw [hs.know_zero hzero]
        exact Nat.zero_le _
      · exact (hc a p hk u).trans (enter_know_parent hs h hp u)
    · rw [enter_know_of_ne hb]
      exact hc a b ((knows_enter_of_ne ha hb).mp hab) u

end Learning

/-! ### Causes -/

/-- What a clock shows comes from an event that leads to its own. -/
def Backed (C : Clocks α ι) (E : α → α → Prop) : Prop :=
  ∀ b t, 0 < C.know b t → ∃ y, C.tid y = t ∧ C.seq y = C.know b t ∧ ReflTransGen E y b

variable {E E' : α → α → Prop}

theorem Backed.mono (h : Backed C E) (hE : ∀ a b, E a b → E' a b) : Backed C E' := by
  intro b t hpos
  obtain ⟨y,htid,hseq,hpath⟩ := h b t hpos
  exact ⟨y,htid,hseq,ReflTransGen.mono hE _ _ hpath⟩

theorem Backed.learn [DecidableEq α] (h : Backed C E) (hab : E a b) : Backed (learn C a b) E := by
  intro x t hpos
  by_cases hx : x = b
  · subst hx
    rw [learn_know_self] at hpos ⊢
    rcases le_total (C.know x t) (C.know a t) with hle | hle
    · rw [max_eq_right hle] at hpos ⊢
      obtain ⟨y,htid,hseq,hpath⟩ := h a t hpos
      exact ⟨y,htid,hseq,hpath.tail hab⟩
    · rw [max_eq_left hle] at hpos ⊢
      exact h x t hpos
  · rw [learn_know_of_ne C hx] at hpos ⊢
    exact h x t hpos

/-- A new event is led to by its parent. -/
theorem Backed.enter [DecidableEq α] [DecidableEq ι] {n : α} {t : ι} {s : ℕ} {parent : Option α}
    (h : Backed C E) (hfree : C.seq n = 0) (hE : ∀ a b, E a b → E' a b)
    (hparent : ∀ p, parent = some p → E' p n) : Backed (enter C n t s parent) E' := by
  have hold : ∀ b u, 0 < C.know b u → ∃ y, (VectorClocks.enter C n t s parent).tid y = u ∧
      (VectorClocks.enter C n t s parent).seq y = C.know b u ∧ ReflTransGen E' y b := by
    intro b u hpos
    obtain ⟨y,htid,hseq,hpath⟩ := h b u hpos
    have hy : y ≠ n := by
      rintro rfl
      rw [hfree] at hseq
      exact absurd hseq.symm hpos.ne'
    exact ⟨y,(enter_tid_of_ne hy).trans htid,(enter_seq_of_ne hy).trans hseq,
      ReflTransGen.mono hE _ _ hpath⟩
  intro b u hpos
  by_cases hb : b = n
  · subst hb
    rw [enter_know] at hpos ⊢
    split at hpos
    · rename_i hu
      exact ⟨b,by rw [enter_tid,hu],by rw [enter_seq,if_pos hu],.refl⟩
    · rename_i hu
      rw [if_neg hu]
      cases parent with
      | none => cases hpos
      | some p =>
        obtain ⟨y,htid,hseq,hpath⟩ := hold p u hpos
        exact ⟨y,htid,hseq,hpath.tail (hparent p rfl)⟩
  · rw [enter_know_of_ne hb] at hpos ⊢
    exact hold b u hpos

/-- The clocks of closed events are exact: they show what leads to an event, where the edges of
a thread follow its numbers. -/
theorem knows_iff_reaches (hs : Sound C) (hc : Closed C) (hb : Backed C E)
    (hE : ∀ a b, E a b → Knows C a b) (ha : 0 < C.seq a)
    (hthread : ∀ y, C.tid a = C.tid y → C.seq a ≤ C.seq y → ReflTransGen E a y) :
    Knows C a b ↔ ReflTransGen E a b := by
  constructor
  · intro hk
    obtain ⟨y,htid,hseq,hpath⟩ := hb b (C.tid a) (ha.trans_le hk)
    exact (hthread y htid.symm (hseq ▸ hk)).trans hpath
  · intro hpath
    induction hpath with
    | refl => exact hs.knows_self a
    | tail _ hedge ih => exact hc.knows_trans ih (hE _ _ hedge)

end VectorClocks
