import Mathlib.Data.List.Basic
import Mathlib.Logic.Function.Basic

/-! Undo logs: the value of a key is saved before the key first changes, so the first entry
of each key tells what was there when the log began. -/

namespace UndoLog

variable {κ β : Type*} [DecidableEq κ]

/-- The contents when the log began, from the contents now. -/
def undone : List (κ × β) → (κ → β) → κ → β
  | [],mem => mem
  | (k,v) :: log,mem => Function.update (undone log mem) k v

/-- Every entry written back, in order. -/
def replay : List (κ × β) → (κ → β) → κ → β
  | [],mem => mem
  | (k,v) :: log,mem => replay log (Function.update mem k v)

/-- Entries written back in order, but those of keys already seen. -/
def replayFirst : List κ → List (κ × β) → (κ → β) → κ → β
  | _,[],mem => mem
  | seen,(k,v) :: log,mem =>
    if k ∈ seen then replayFirst seen log mem
    else replayFirst (k :: seen) log (Function.update mem k v)

@[simp] theorem undone_cons (k : κ) (v : β) (log : List (κ × β)) (mem : κ → β) :
    undone ((k,v) :: log) mem = Function.update (undone log mem) k v := rfl

theorem undone_append (l₁ l₂ : List (κ × β)) (mem : κ → β) :
    undone (l₁ ++ l₂) mem = undone l₁ (undone l₂ mem) := by
  induction l₁ with
  | nil => rfl
  | cons x l₁ ih => rw [List.cons_append,undone_cons,undone_cons,ih]

/-- A change after its key was saved. -/
theorem undone_save (mem : κ → β) (k : κ) (v : β) :
    undone [(k,mem k)] (Function.update mem k v) = mem := by
  simp [undone]

theorem undone_of_not_mem {log : List (κ × β)} {k : κ} (h : k ∉ log.map Prod.fst) (mem : κ → β) :
    undone log mem k = mem k := by
  induction log with
  | nil => rfl
  | cons x log ih =>
    obtain ⟨hne,hlog⟩ := List.ne_and_not_mem_of_not_mem_cons h
    rw [undone_cons,Function.update_of_ne hne,ih hlog]

/-- A saved key is restored whatever it holds now. -/
theorem undone_of_mem {log : List (κ × β)} {k : κ} (h : k ∈ log.map Prod.fst) (mem mem' : κ → β) :
    undone log mem k = undone log mem' k := by
  induction log with
  | nil => cases h
  | cons x log ih =>
    rw [undone_cons,undone_cons]
    by_cases hx : k = x.1
    · rw [hx,Function.update_self,Function.update_self]
    · rw [Function.update_of_ne hx,Function.update_of_ne hx]
      exact ih ((List.mem_cons.mp h).resolve_left hx)

theorem undone_update_of_ne {k q : κ} (h : q ≠ k) (log : List (κ × β)) (mem : κ → β) (v : β) :
    undone log (Function.update mem k v) q = undone log mem q := by
  by_cases hq : q ∈ log.map Prod.fst
  · exact undone_of_mem hq _ _
  · rw [undone_of_not_mem hq,undone_of_not_mem hq,Function.update_of_ne h]

theorem undone_idem (log : List (κ × β)) (mem : κ → β) :
    undone log (undone log mem) = undone log mem := by
  funext q
  by_cases hq : q ∈ log.map Prod.fst
  · exact undone_of_mem hq _ _
  · rw [undone_of_not_mem hq]

/-- With one entry a key, the order of writing back does not matter. -/
theorem replay_eq_undone {log : List (κ × β)} (h : (log.map Prod.fst).Nodup) (mem : κ → β) :
    replay log mem = undone log mem := by
  induction log generalizing mem with
  | nil => rfl
  | cons x log ih =>
    obtain ⟨hx,hlog⟩ := List.nodup_cons.mp h
    rw [undone_cons]
    funext q
    rw [replay,ih hlog]
    by_cases hq : q = x.1
    · rw [hq,undone_of_not_mem hx,Function.update_self,Function.update_self]
    · rw [Function.update_of_ne hq]
      by_cases hmem : q ∈ log.map Prod.fst
      · exact undone_of_mem hmem _ _
      · rw [undone_of_not_mem hmem,undone_of_not_mem hmem,Function.update_of_ne hq]

theorem replayFirst_apply (seen : List κ) (log : List (κ × β)) (mem : κ → β) (q : κ) :
    replayFirst seen log mem q = if q ∈ seen then mem q else undone log mem q := by
  induction log generalizing seen mem with
  | nil => simp [replayFirst,undone]
  | cons x log ih =>
    obtain ⟨k,v⟩ := x
    rw [replayFirst,undone_cons]
    by_cases hk : k ∈ seen
    · rw [if_pos hk,ih]
      by_cases hq : q ∈ seen
      · rw [if_pos hq,if_pos hq]
      · have hne : q ≠ k := fun heq => hq (heq ▸ hk)
        rw [if_neg hq,if_neg hq,Function.update_of_ne hne]
    · rw [if_neg hk,ih]
      by_cases hq : q = k
      · subst hq
        simp [hk]
      · rw [Function.update_of_ne hq,Function.update_of_ne hq]
        simp only [List.mem_cons,hq,false_or]
        by_cases hmem : q ∈ log.map Prod.fst
        · rw [undone_of_mem hmem (Function.update mem k v) mem]
        · rw [undone_of_not_mem hmem,undone_of_not_mem hmem,Function.update_of_ne hq]

theorem replayFirst_nil (log : List (κ × β)) (mem : κ → β) :
    replayFirst [] log mem = undone log mem := by
  funext q
  simp [replayFirst_apply]

end UndoLog
