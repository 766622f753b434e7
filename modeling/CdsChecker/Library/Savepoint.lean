import Mathlib.Data.List.Basic

/-! State with one savepoint: changes are tentative until they are kept, and undoing
returns to the last savepoint. A run reaches the state its surviving changes reach. -/

namespace Savepoint

/-- One step of a run over changes of type `α`. -/
inductive Op (α : Type*)
  | change (a : α)
  | keep
  | undo

variable {σ α : Type*}

/-- A run of changes under a transition relation. -/
inductive Steps (R : σ → α → σ → Prop) : σ → List α → σ → Prop
  | nil (s : σ) : Steps R s [] s
  | cons {s t u : σ} {a : α} {l : List α} (h : R s a t) (hl : Steps R t l u) :
      Steps R s (a :: l) u

/-- A run with a savepoint: the first component is the saved state. -/
inductive Run (R : σ → α → σ → Prop) : σ → σ → List (Op α) → σ → σ → Prop
  | nil (b s : σ) : Run R b s [] b s
  | change {b s t b' u : σ} {a : α} {l : List (Op α)} (h : R s a t) (hl : Run R b t l b' u) :
      Run R b s (.change a :: l) b' u
  | keep {b s b' u : σ} {l : List (Op α)} (hl : Run R s s l b' u) : Run R b s (.keep :: l) b' u
  | undo {b s b' u : σ} {l : List (Op α)} (hl : Run R b b l b' u) : Run R b s (.undo :: l) b' u

/-- The changes no `undo` takes back, after those in `kept` and, tentatively, `pending`. -/
def survivorsFrom (kept pending : List α) : List (Op α) → List α
  | [] => kept ++ pending
  | .change a :: l => survivorsFrom kept (pending ++ [a]) l
  | .keep :: l => survivorsFrom (kept ++ pending) [] l
  | .undo :: l => survivorsFrom kept [] l

def survivors (l : List (Op α)) : List α := survivorsFrom [] [] l

namespace Steps

variable {R : σ → α → σ → Prop} {s t u : σ} {l l' : List α}

theorem append (h : Steps R s l t) (h' : Steps R t l' u) : Steps R s (l ++ l') u := by
  induction h with
  | nil => exact h'
  | cons hR _ ih => exact .cons hR (ih h')

theorem concat {a : α} (h : Steps R s l t) (ha : R t a u) : Steps R s (l ++ [a]) u :=
  h.append (.cons ha (.nil u))

/-- A run splits wherever its list of changes does. -/
theorem split (h : Steps R s (l ++ l') u) : ∃ t, Steps R s l t ∧ Steps R t l' u := by
  induction l generalizing s with
  | nil => exact ⟨s,.nil s,h⟩
  | cons a l ih =>
    cases h with
    | cons hR hl =>
      obtain ⟨t,ht,hu⟩ := ih hl
      exact ⟨t,.cons hR ht,hu⟩

/-- What each change preserves, a run preserves. -/
theorem invariant {P : σ → Prop} (hP : ∀ {s t a}, R s a t → P s → P t) (h : Steps R s l t)
    (hs : P s) : P t := by
  induction h with
  | nil => exact hs
  | cons hR _ ih => exact ih (hP hR hs)

/-- Deterministic changes reach one state. -/
theorem unique (hR : ∀ {s a t t'}, R s a t → R s a t' → t = t') (h : Steps R s l t)
    (h' : Steps R s l u) : t = u := by
  induction h with
  | nil => cases h'; rfl
  | cons ha _ ih =>
    cases h' with
    | cons ha' hl' =>
      obtain rfl := hR ha ha'
      exact ih hl'

end Steps

theorem Run.survivorsFrom {R : σ → α → σ → Prop} {o b s b' t : σ} {kept pending : List α}
    {l : List (Op α)} (h : Run R b s l b' t) (hb : Steps R o kept b) (hs : Steps R b pending s) :
    Steps R o (Savepoint.survivorsFrom kept pending l) t := by
  induction h generalizing kept pending with
  | nil => exact hb.append hs
  | change hR _ ih => exact ih hb (hs.concat hR)
  | keep _ ih => exact ih (hb.append hs) (.nil _)
  | undo _ ih => exact ih hb (.nil _)

/-- A run ends where its surviving changes lead. -/
theorem Run.survivors {R : σ → α → σ → Prop} {s b t : σ} {l : List (Op α)}
    (h : Run R s s l b t) : Steps R s (Savepoint.survivors l) t :=
  h.survivorsFrom (.nil s) (.nil s)

end Savepoint
