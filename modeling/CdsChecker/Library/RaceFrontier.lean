import Mathlib.Data.List.Sublists
import Mathlib.Tactic

/-! Detecting conflicting accesses from a frontier: the last write, and the reads since then
that no later read follows. Accesses come in the order of a list; `before` says which earlier
access a later one is ordered after. -/

namespace RaceFrontier

variable {α : Type*}

structure Frontier (α : Type*) where
  reads : List α := []
  write : Option α := none

variable (before : α → α → Prop) [DecidableRel before] (isWrite : α → Bool)

/-- Two unordered accesses, one of them a write. -/
def Conflict (a b : α) : Prop := (isWrite a = true ∨ isWrite b = true) ∧ ¬ before a b

/-- The conflicts of an access with the frontier. -/
def races (f : Frontier α) (b : α) : List (α × α) :=
  ((if isWrite b then f.reads else []) ++ f.write.toList).filterMap
    fun a => if before a b then none else some (a,b)

def step (f : Frontier α) (b : α) : Frontier α :=
  if isWrite b then ⟨[],some b⟩ else ⟨(f.reads.filter fun a => ¬ before a b) ++ [b],f.write⟩

def run : Frontier α → List α → List (α × α)
  | _,[] => []
  | f,b :: l => races before isWrite f b ++ run (step before isWrite f b) l

variable {before isWrite}

theorem mem_races {f : Frontier α} {b : α} {p : α × α} :
    p ∈ races before isWrite f b ↔
      p.2 = b ∧ ¬ before p.1 b ∧ ((isWrite b = true ∧ p.1 ∈ f.reads) ∨ f.write = some p.1) := by
  obtain ⟨a,c⟩ := p
  simp only [races,List.mem_filterMap,List.mem_append,Option.mem_toList]
  constructor
  · rintro ⟨x,hx,hp⟩
    split at hp
    · cases hp
    · rename_i hxb
      obtain ⟨rfl,rfl⟩ : x = a ∧ b = c := by simpa using hp
      refine ⟨rfl,hxb,hx.imp (fun h => ?_) id⟩
      split at h <;> simp_all
  · rintro ⟨rfl,hxb,h⟩
    exact ⟨a,h.imp (fun h => by simpa [h.1] using h.2) id,by simp [hxb]⟩

/-- What the frontier keeps are earlier accesses of the right kind. -/
structure Sound (isWrite : α → Bool) (pre : List α) (f : Frontier α) : Prop where
  reads : ∀ a ∈ f.reads, a ∈ pre ∧ isWrite a = false
  write : ∀ a, f.write = some a → a ∈ pre ∧ isWrite a = true

/-- Every earlier access is in the frontier or ordered before something in it. -/
structure Covers (before : α → α → Prop) (isWrite : α → Bool) (pre : List α) (f : Frontier α) :
    Prop where
  write : ∀ a ∈ pre, isWrite a = true →
    ∃ w, f.write = some w ∧ (a = w ∨ [a,w].Sublist pre ∧ before a w)
  read : ∀ a ∈ pre, isWrite a = false →
    (∃ r ∈ f.reads, a = r ∨ [a,r].Sublist pre ∧ before a r) ∨
      ∃ w, f.write = some w ∧ [a,w].Sublist pre ∧ before a w

theorem pair_sublist_concat {pre : List α} {a b : α} (h : a ∈ pre) :
    [a,b].Sublist (pre ++ [b]) :=
  (List.singleton_sublist.mpr h).append (List.Sublist.refl [b])

theorem Sound.step {pre : List α} {f : Frontier α} (h : Sound isWrite pre f) (b : α) :
    Sound isWrite (pre ++ [b]) (step before isWrite f b) := by
  cases hb : isWrite b with
  | true =>
    refine ⟨by simp [RaceFrontier.step,hb],fun a ha => ?_⟩
    obtain rfl : b = a := by simpa [RaceFrontier.step,hb] using ha
    exact ⟨by simp,hb⟩
  | false =>
    refine ⟨fun a ha => ?_,fun a ha => ?_⟩
    · simp only [RaceFrontier.step,hb,Bool.false_eq_true,if_false,List.mem_append,
        List.mem_filter,List.mem_singleton] at ha
      rcases ha with ⟨ha,_⟩ | rfl
      · exact ⟨List.mem_append_left _ (h.reads a ha).1,(h.reads a ha).2⟩
      · exact ⟨by simp,hb⟩
    · have hw : f.write = some a := by simpa [RaceFrontier.step,hb] using ha
      exact ⟨List.mem_append_left _ (h.write a hw).1,(h.write a hw).2⟩

/-- The orderings used are transitive along the list. -/
def TransOn (before : α → α → Prop) (l : List α) : Prop :=
  ∀ a b c, [a,b,c].Sublist l → before a b → before b c → before a c

omit [DecidableRel before] in
theorem TransOn.mono {l l' : List α} (h : TransOn before l') (hl : l.Sublist l') :
    TransOn before l := fun a b c habc => h a b c (habc.trans hl)

section Step

variable {pre : List α} {f : Frontier α} {b : α}

/-- Through the frontier, an access without races is ordered after all it could conflict
with. -/
theorem Covers.before_of_no_races (h : Covers before isWrite pre f)
    (ht : TransOn before (pre ++ [b])) (hr : races before isWrite f b = []) :
    (∀ a ∈ pre, isWrite a = true → before a b) ∧
      (isWrite b = true → ∀ a ∈ pre, before a b) := by
  have hno : ∀ a, ((isWrite b = true ∧ a ∈ f.reads) ∨ f.write = some a) → before a b := by
    intro a ha
    by_contra hab
    have hmem : (a,b) ∈ races before isWrite f b := mem_races.mpr ⟨rfl,hab,ha⟩
    simp [hr] at hmem
  have hthrough : ∀ {a x}, [a,x].Sublist pre → before a x → before x b → before a b := by
    intro a x hax h₁ h₂
    exact ht a x b (hax.append (List.Sublist.refl [b])) h₁ h₂
  have hwrite : ∀ a ∈ pre, isWrite a = true → before a b := by
    intro a ha haw
    obtain ⟨w,hw,rfl | ⟨haw,hlt⟩⟩ := h.write a ha haw
    · exact hno a (Or.inr hw)
    · exact hthrough haw hlt (hno w (Or.inr hw))
  refine ⟨hwrite,fun hb a ha => ?_⟩
  cases haw : isWrite a with
  | true => exact hwrite a ha haw
  | false =>
    rcases h.read a ha haw with ⟨r,hr',rfl | ⟨har,hlt⟩⟩ | ⟨w,hw,haw',hlt⟩
    · exact hno a (Or.inl ⟨hb,hr'⟩)
    · exact hthrough har hlt (hno r (Or.inl ⟨hb,hr'⟩))
    · exact hthrough haw' hlt (hno w (Or.inr hw))

theorem Covers.step (h : Covers before isWrite pre f) (ht : TransOn before (pre ++ [b]))
    (hr : races before isWrite f b = []) :
    Covers before isWrite (pre ++ [b]) (step before isWrite f b) := by
  obtain ⟨hwrites,hall⟩ := h.before_of_no_races ht hr
  have hsub : ∀ {a x}, [a,x].Sublist pre → [a,x].Sublist (pre ++ [b]) :=
    fun hax => hax.trans (List.sublist_append_left _ _)
  cases hb : isWrite b with
  | true =>
    have hstep : RaceFrontier.step before isWrite f b = ⟨[],some b⟩ := by
      simp [RaceFrontier.step,hb]
    rw [hstep]
    refine ⟨fun a ha _ => ?_,fun a ha haw => Or.inr ?_⟩
    · rcases List.mem_append.mp ha with ha | ha
      · exact ⟨b,rfl,Or.inr ⟨pair_sublist_concat ha,hall hb a ha⟩⟩
      · obtain rfl : a = b := by simpa using ha
        exact ⟨a,rfl,Or.inl rfl⟩
    · rcases List.mem_append.mp ha with ha | ha
      · exact ⟨b,rfl,pair_sublist_concat ha,hall hb a ha⟩
      · obtain rfl : a = b := by simpa using ha
        simp [hb] at haw
  | false =>
    have hstep : RaceFrontier.step before isWrite f b =
        ⟨(f.reads.filter fun a => ¬ before a b) ++ [b],f.write⟩ := by
      simp [RaceFrontier.step,hb]
    rw [hstep]
    have hkeep : ∀ r ∈ f.reads, ¬ before r b →
        r ∈ (f.reads.filter fun a => ¬ before a b) ++ [b] := by
      intro r hr' hrb
      exact List.mem_append_left _ (List.mem_filter.mpr ⟨hr',by simpa using hrb⟩)
    refine ⟨fun a ha haw => ?_,fun a ha haw => ?_⟩
    · rcases List.mem_append.mp ha with ha | ha
      · obtain ⟨w,hw,rfl | ⟨hsubw,hlt⟩⟩ := h.write a ha haw
        · exact ⟨a,hw,Or.inl rfl⟩
        · exact ⟨w,hw,Or.inr ⟨hsub hsubw,hlt⟩⟩
      · obtain rfl : a = b := by simpa using ha
        simp [hb] at haw
    · rcases List.mem_append.mp ha with ha | ha
      · rcases h.read a ha haw with ⟨r,hr',hcase⟩ | ⟨w,hw,hsubw,hlt⟩
        · left
          by_cases hrb : before r b
          · -- the new read takes the place of the one it follows
            refine ⟨b,by simp,Or.inr ⟨pair_sublist_concat ha,?_⟩⟩
            rcases hcase with rfl | ⟨hsubr,hlt⟩
            · exact hrb
            · exact ht a r b (hsubr.append (List.Sublist.refl [b])) hlt hrb
          · refine ⟨r,hkeep r hr' hrb,hcase.imp id fun hc => ⟨hsub hc.1,hc.2⟩⟩
        · exact Or.inr ⟨w,hw,hsub hsubw,hlt⟩
      · obtain rfl : a = b := by simpa using ha
        exact Or.inl ⟨a,by simp,Or.inl rfl⟩

end Step

/-- Every reported pair is a conflict of two accesses of the list, in order. -/
theorem run_sound {pre l : List α} {f : Frontier α} (h : Sound isWrite pre f) {p : α × α}
    (hp : p ∈ run before isWrite f l) :
    [p.1,p.2].Sublist (pre ++ l) ∧ Conflict before isWrite p.1 p.2 := by
  induction l generalizing pre f with
  | nil => simp [run] at hp
  | cons b l ih =>
    rw [run,List.mem_append] at hp
    rcases hp with hp | hp
    · obtain ⟨hb,hnot,hcase⟩ := mem_races.mp hp
      rw [hb]
      have hpre : p.1 ∈ pre ∧ (isWrite p.1 = true ∨ isWrite b = true) := by
        rcases hcase with ⟨hbw,hr⟩ | hw
        · exact ⟨(h.reads _ hr).1,Or.inr hbw⟩
        · exact ⟨(h.write _ hw).1,Or.inl (h.write _ hw).2⟩
      refine ⟨?_,hpre.2,hnot⟩
      have hsub := pair_sublist_concat (b := b) hpre.1
      exact hsub.trans (by simp)
    · have hstep : Sound isWrite (pre ++ [b]) (step before isWrite f b) := h.step b
      have hrest := ih hstep hp
      simpa using hrest

/-- With no report there is no conflict. -/
theorem run_complete {pre l : List α} {f : Frontier α} (h : Covers before isWrite pre f)
    (ht : TransOn before (pre ++ l)) (hrun : run before isWrite f l = [])
    (hpre : ∀ a b, [a,b].Sublist pre → ¬ Conflict before isWrite a b) :
    ∀ a b, [a,b].Sublist (pre ++ l) → ¬ Conflict before isWrite a b := by
  induction l generalizing pre f with
  | nil => simpa using hpre
  | cons b l ih =>
    rw [run,List.append_eq_nil_iff] at hrun
    have ht' : TransOn before (pre ++ [b]) := ht.mono (by simp)
    obtain ⟨hwrites,hall⟩ := h.before_of_no_races ht' hrun.1
    have hnew : ∀ a c, [a,c].Sublist (pre ++ [b]) → ¬ Conflict before isWrite a c := by
      rintro a c hac ⟨hkind,hnot⟩
      obtain ⟨l₁,l₂,hl,h₁,h₂⟩ := List.sublist_append_iff.mp hac
      rcases l₁ with _ | ⟨x,_ | ⟨y,l₁⟩⟩
      · -- both accesses would have to be the last one
        have hlen := h₂.length_le
        simp only [List.nil_append] at hl
        simp [← hl] at hlen
      · obtain ⟨rfl,rfl⟩ : a = x ∧ l₂ = [c] := by simpa [eq_comm] using hl
        obtain rfl : c = b := by simpa using h₂
        have ha : a ∈ pre := List.singleton_sublist.mp h₁
        rcases hkind with haw | hcw
        · exact hnot (hwrites a ha haw)
        · exact hnot (hall hcw a ha)
      · obtain ⟨rfl,rfl,rfl,rfl⟩ : a = x ∧ c = y ∧ l₁ = [] ∧ l₂ = [] := by
          simpa [eq_comm] using hl
        exact hpre a c h₁ ⟨hkind,hnot⟩
    have hrest := ih (h.step ht' hrun.1) (by simpa using ht) hrun.2 hnew
    simpa using hrest

theorem Sound.init : Sound isWrite [] {} := ⟨by simp,by simp⟩

omit [DecidableRel before] in
theorem Covers.init : Covers before isWrite [] {} := ⟨by simp,by simp⟩

/-- The detector reports a race just when there is one. -/
theorem run_eq_nil_iff {l : List α} (ht : TransOn before l) :
    run before isWrite {} l = [] ↔
      ∀ a b, [a,b].Sublist l → ¬ Conflict before isWrite a b := by
  constructor
  · intro hrun
    exact run_complete .init (by simpa using ht) hrun (by simp)
  · intro hno
    refine List.eq_nil_iff_forall_not_mem.mpr fun p hp => ?_
    obtain ⟨hsub,hc⟩ := run_sound .init hp
    exact hno _ _ (by simpa using hsub) hc

end RaceFrontier
