import CdsChecker.Library.PairOrder
import Mathlib.Data.Fintype.EquivFin
import Mathlib.Logic.Relation
import Mathlib.Order.WellFounded

/-! The linear extensions of an order, enumerated by the elements that have nothing before them. -/
namespace CdsChecker

open Relation

variable {α : Type} [DecidableEq α] (l : List α) (before : α → α → Prop) [DecidableRel before]

/-- All elements, each behind those that are before it. -/
def LinearExtension (e : List α) : Prop :=
  e.Perm l ∧ ∀ x ∈ l, ∀ y ∈ l, before x y → [x,y].Sublist e

/-- What is left with nothing left before it. -/
def roots (cur : List α) : List α :=
  l.filter fun m => decide (m ∉ cur ∧ ∀ y ∈ l, before y m → y ∈ cur)

def extensions : ℕ → List α → List (List α)
  | 0,cur => [cur]
  | n + 1,cur => (roots l before cur).flatMap fun m => extensions n (cur ++ [m])

variable {l before} {cur e : List α} {m : α} {n : ℕ}

theorem mem_roots : m ∈ roots l before cur ↔
    m ∈ l ∧ m ∉ cur ∧ ∀ y ∈ l, before y m → y ∈ cur := by
  rw [roots,List.mem_filter,decide_eq_true_eq]

theorem append_of_mem_extensions (h : e ∈ extensions l before n cur) : ∃ r, e = cur ++ r := by
  induction n generalizing cur with
  | zero => exact ⟨[],by simpa [extensions] using h⟩
  | succ n ih =>
    obtain ⟨m,-,hm⟩ := List.mem_flatMap.mp h
    obtain ⟨r,rfl⟩ := ih hm
    exact ⟨m :: r,by simp⟩

/-- No extension comes twice. -/
theorem nodup_extensions (hnodup : l.Nodup) : (extensions l before n cur).Nodup := by
  induction n generalizing cur with
  | zero => exact List.nodup_singleton _
  | succ n ih =>
    refine List.nodup_flatMap.mpr ⟨fun m _ => ih,?_⟩
    have hroots : (roots l before cur).Nodup := hnodup.filter _
    refine hroots.imp fun {a b} hne => ?_
    intro e ha hb
    obtain ⟨r,hr⟩ := append_of_mem_extensions ha
    obtain ⟨r',hr'⟩ := append_of_mem_extensions hb
    rw [hr,List.append_assoc,List.append_assoc] at hr'
    exact hne (List.cons.inj (List.append_cancel_left hr')).1

/-- A beginning of a linear extension. -/
structure Begun (l : List α) (before : α → α → Prop) (cur : List α) : Prop where
  nodup : cur.Nodup
  subset : cur ⊆ l
  past : ∀ x ∈ cur, ∀ y ∈ l, before y x → [y,x].Sublist cur

omit [DecidableEq α] [DecidableRel before] in
theorem begun_nil : Begun l before [] := ⟨List.nodup_nil,List.nil_subset _,fun _ h => by cases h⟩

theorem Begun.append (h : Begun l before cur) (hm : m ∈ roots l before cur) :
    Begun l before (cur ++ [m]) := by
  obtain ⟨hml,hnew,hpast⟩ := mem_roots.mp hm
  refine ⟨?_,?_,?_⟩
  · exact List.nodup_append.mpr ⟨h.nodup,List.nodup_singleton m,fun a ha b hb => by
      rw [List.mem_singleton.mp hb]
      exact ne_of_mem_of_not_mem ha hnew⟩
  · intro x hx
    rcases List.mem_append.mp hx with hx | hx
    · exact h.subset hx
    · exact List.mem_singleton.mp hx ▸ hml
  · intro x hx y hy hyx
    rcases List.mem_append.mp hx with hx | hx
    · exact (h.past x hx y hy hyx).trans (List.sublist_append_left _ _)
    · obtain rfl := List.mem_singleton.mp hx
      exact pair_sublist_append.mpr (.inr ⟨hpast y hy hyx,rfl⟩)

/-- The extensions of a beginning are the linear extensions that begin so. -/
theorem mem_extensions (hnodup : l.Nodup) (h : Begun l before cur)
    (hlen : cur.length + n = l.length) :
    e ∈ extensions l before n cur ↔ (∃ r, e = cur ++ r) ∧ LinearExtension l before e := by
  induction n generalizing cur with
  | zero =>
    have hperm : cur.Perm l := (List.subperm_of_subset h.nodup h.subset).perm_of_length_le
      (by omega)
    rw [extensions,List.mem_singleton]
    constructor
    · rintro rfl
      exact ⟨⟨[],by simp⟩,hperm,fun x _ y hy hxy => h.past y (hperm.mem_iff.mpr hy) x ‹_› hxy⟩
    · rintro ⟨⟨r,rfl⟩,hext⟩
      have hlen' := hext.1.length_eq
      rw [List.length_append] at hlen'
      rw [List.length_eq_zero_iff.mp (show r.length = 0 by omega),List.append_nil]
  | succ n ih =>
    rw [extensions,List.mem_flatMap]
    constructor
    · rintro ⟨m,hm,he⟩
      obtain ⟨⟨r,rfl⟩,hext⟩ := (ih (h.append hm) (by simp; omega)).mp he
      exact ⟨⟨m :: r,by simp⟩,hext⟩
    · rintro ⟨⟨r,rfl⟩,hext⟩
      cases r with
      | nil =>
        have hlen' := hext.1.length_eq
        simp at hlen'
        omega
      | cons m r =>
        have hnodup' : (cur ++ m :: r).Nodup := hext.1.nodup_iff.mpr hnodup
        have hml : m ∈ l := hext.1.mem_iff.mp (by simp)
        have hm : m ∈ roots l before cur := by
          refine mem_roots.mpr ⟨hml,fun hcur => ?_,fun y hy hym => ?_⟩
          · exact (List.nodup_append.mp hnodup').2.2 m hcur m (List.mem_cons_self ..) rfl
          · exact mem_of_pair_sublist hnodup' (hext.2 y hy m hml hym)
        refine ⟨m,hm,(ih (h.append hm) (by simp; omega)).mpr ⟨⟨r,by simp⟩,hext⟩⟩

/-- Where there is no cycle something can come next. -/
theorem roots_ne_nil (hacyclic : ∀ x ∈ l, ¬TransGen (fun a b => a ∈ l ∧ before a b) x x)
    (hm : m ∈ l) (hnew : m ∉ cur) : roots l before cur ≠ [] := by
  have hfinite : Finite { x // x ∈ l } := (List.finite_toSet l).to_subtype
  have htrans : IsTrans { x // x ∈ l } fun a b => TransGen
    (fun a b => a ∈ l ∧ before a b) a.1 b.1 :=
    ⟨fun _ _ _ hab hbc => hab.trans hbc⟩
  have hirrefl : Std.Irrefl fun a b : { x // x ∈ l } =>
      TransGen (fun a b => a ∈ l ∧ before a b) a.1 b.1 := ⟨fun a => hacyclic a.1 a.2⟩
  have hwf := Finite.wellFounded_of_trans_of_irrefl fun a b : { x // x ∈ l } =>
    TransGen (fun a b => a ∈ l ∧ before a b) a.1 b.1
  obtain ⟨x,hx,hmin⟩ := hwf.has_min { x | x.1 ∉ cur } ⟨⟨m,hm⟩,hnew⟩
  refine List.ne_nil_of_mem (mem_roots.mpr ⟨x.2,hx,fun y hy hyx => ?_⟩)
  by_contra hnot
  exact hmin ⟨y,hy⟩ hnot (.single ⟨hy,hyx⟩)

end CdsChecker
