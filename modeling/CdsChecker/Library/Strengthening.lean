import Mathlib.Data.List.Forall2
import Mathlib.Order.Hom.Lattice
import Mathlib.Tactic

/-! Strengthening one value by one of several demands at each link of a chain, where a demand
that is met already counts as a dead end, and the chain starts over when nothing is left. -/

namespace Strengthening

variable {L M : Type*} [SemilatticeSup L] [SemilatticeSup M]

/-- The value with all of these demands. -/
def total (x : L) (demands : List L) : L := demands.foldl (· ⊔ ·) x

/-- One demand of each link. -/
def Choice (links : List (List L)) (demands : List L) : Prop := List.Forall₂ (· ∈ ·) demands links

/-- One link: each value is extended by the demands it does not meet, the first one where no
value is left. -/
def link (x : L) (values : Set L) (demands : List L) : Set L :=
  { z | ∃ y, (y ∈ values ∨ values = ∅ ∧ y = x) ∧ ∃ p ∈ demands, ¬ p ≤ y ∧ y ⊔ p = z }

def chain (x : L) (links : List (List L)) : Set L := links.foldl (link x) ∅

theorem total_append (x : L) (demands : List L) (p : L) :
    total x (demands ++ [p]) = total x demands ⊔ p := by
  simp [total]

theorem total_le {x z : L} {demands : List L} :
    total x demands ≤ z ↔ x ≤ z ∧ ∀ p ∈ demands, p ≤ z := by
  induction demands generalizing x with
  | nil => simp [total]
  | cons p demands ih =>
    rw [List.forall_mem_cons,← and_assoc,← sup_le_iff]
    exact ih

omit [SemilatticeSup L] in
theorem choice_append {links : List (List L)} {demands options : List L} :
    Choice (links ++ [options]) demands ↔
      ∃ earlier p, Choice links earlier ∧ p ∈ options ∧ demands = earlier ++ [p] := by
  constructor
  · intro h
    have hearlier := List.forall₂_take_append demands links [options] h
    have hlast := List.forall₂_drop_append demands links [options] h
    obtain ⟨p,rest,hp,hrest,hdrop⟩ := List.forall₂_cons_right_iff.mp hlast
    cases hrest
    refine ⟨demands.take links.length,p,hearlier,hp,?_⟩
    rw [← hdrop,List.take_append_drop]
  · rintro ⟨earlier,p,hearlier,hp,rfl⟩
    exact List.rel_append hearlier (List.Forall₂.cons hp List.Forall₂.nil)

/-! ### What a link loses -/

/-- What the choices from the links amount to. -/
def totals (x : L) (links : List (List L)) : Set L := { z | ∃ c, Choice links c ∧ total x c = z }

theorem totals_nil (x : L) : totals x [] = {x} := by
  ext z
  constructor
  · rintro ⟨c,hc,rfl⟩
    cases hc
    rfl
  · rintro rfl
    exact ⟨[],.nil,rfl⟩

theorem mem_totals_append {x z : L} {links : List (List L)} {options : List L} :
    z ∈ totals x (links ++ [options]) ↔ ∃ y ∈ totals x links, ∃ p ∈ options, y ⊔ p = z := by
  constructor
  · rintro ⟨c,hc,rfl⟩
    obtain ⟨earlier,p,hearlier,hp,rfl⟩ := choice_append.mp hc
    exact ⟨_,⟨earlier,hearlier,rfl⟩,p,hp,(total_append x earlier p).symm⟩
  · rintro ⟨_,⟨earlier,hearlier,rfl⟩,p,hp,rfl⟩
    exact ⟨earlier ++ [p],choice_append.mpr ⟨earlier,p,hearlier,hp,rfl⟩,total_append x earlier p⟩

theorem totals_nonempty (x : L) {links : List (List L)} (h : ∀ options ∈ links, options ≠ []) :
    (totals x links).Nonempty := by
  induction links using List.reverseRecOn with
  | nil => exact ⟨x,[],.nil,rfl⟩
  | append_singleton links options ih =>
    obtain ⟨y,hy⟩ := ih fun o ho => h o (by simp [ho])
    obtain ⟨p,hp⟩ := List.exists_mem_of_ne_nil options (h options (by simp))
    exact ⟨y ⊔ p,mem_totals_append.mpr ⟨y,hy,p,hp,rfl⟩⟩

theorem le_of_mem_totals {x z : L} {links : List (List L)} (h : z ∈ totals x links) : x ≤ z := by
  obtain ⟨c,-,rfl⟩ := h
  exact (total_le.mp le_rfl).1

/-- Nothing is asked of the first value where every link has a demand that it meets. -/
theorem self_mem_totals {x : L} {links : List (List L)} :
    x ∈ totals x links ↔ ∀ options ∈ links, ∃ p ∈ options, p ≤ x := by
  induction links using List.reverseRecOn with
  | nil => simp [totals_nil]
  | append_singleton links options ih =>
    rw [mem_totals_append,List.forall_mem_append,← ih]
    constructor
    · rintro ⟨y,hy,p,hp,hyp⟩
      have hyx : y = x := le_antisymm (hyp ▸ le_sup_left) (le_of_mem_totals hy)
      subst hyx
      refine ⟨hy,?_⟩
      simpa using ⟨p,hp,sup_eq_left.mp hyp⟩
    · rintro ⟨hx,hlast⟩
      obtain ⟨p,hp,hle⟩ : ∃ p ∈ options, p ≤ x := by simpa using hlast
      exact ⟨x,hx,p,hp,sup_eq_left.mpr hle⟩

/-- A link at which nothing is lost: a value that meets a demand arises again from another one,
a first demand asks for something, and a value that nothing was asked of so far gets the demands
that it does not meet from another value. -/
structure Lossless (o : SupHom L M) (x : L) (values : Set L) (idle : Prop) (demands : List L) :
    Prop where
  again : ∀ y ∈ values, ∀ p ∈ demands, p ≤ y → ∃ z ∈ link x values demands, o z = o y
  asks : values = ∅ → ∀ p ∈ demands, ¬ p ≤ x → ¬ o p ≤ o x
  idle : idle → values.Nonempty → ∀ p ∈ demands, ¬ o p ≤ o x →
    ∃ z ∈ link x values demands, o z = o x ⊔ o p

theorem mem_link_of_mem {x y p : L} {values : Set L} {demands : List L} (hy : y ∈ values)
    (hp : p ∈ demands) (h : ¬ p ≤ y) : y ⊔ p ∈ link x values demands :=
  ⟨y,.inl hy,p,hp,h,rfl⟩

/-- As far as `o` tells values apart, a link extends each of the values so far by each demand
exactly when it is lossless. -/
theorem image_link_iff {o : SupHom L M} {x : L} {values : Set L} {sofar : Set M}
    {demands : List L} (hsome : sofar.Nonempty) (habove : ∀ f ∈ sofar, o x ≤ f)
    (hvalues : ∀ f, f ∈ o '' values ↔ f ∈ sofar ∧ f ≠ o x) :
    (∀ f, f ∈ o '' link x values demands ↔ (∃ g ∈ sofar, ∃ p ∈ demands, g ⊔ o p = f) ∧ f ≠ o x) ↔
      Lossless o x values (o x ∈ sofar) demands := by
  have hfirst : values = ∅ → o x ∈ sofar := by
    intro hempty
    obtain ⟨g,hg⟩ := hsome
    by_contra hnot
    have hmem := (hvalues g).mpr ⟨hg,fun heq => hnot (heq ▸ hg)⟩
    rw [hempty,Set.image_empty] at hmem
    exact hmem
  constructor
  · intro h
    refine ⟨fun y hy p hp hle => ?_,fun hempty p hp hnew hle => ?_,fun hidle _ p hp hnew => ?_⟩
    · have hsofar := (hvalues (o y)).mp ⟨y,hy,rfl⟩
      have hmet : o p ≤ o y := OrderHomClass.mono o hle
      exact (h (o y)).mpr ⟨⟨o y,hsofar.1,p,hp,sup_eq_left.mpr hmet⟩,hsofar.2⟩
    · have hmem : x ⊔ p ∈ link x values demands := ⟨x,.inr ⟨hempty,rfl⟩,p,hp,hnew,rfl⟩
      apply ((h (o (x ⊔ p))).mp ⟨_,hmem,rfl⟩).2
      rw [map_sup,sup_eq_left]
      exact hle
    · refine (h (o x ⊔ o p)).mpr ⟨⟨o x,hidle,p,hp,rfl⟩,fun heq => ?_⟩
      exact hnew (sup_eq_left.mp heq)
  · intro h f
    constructor
    · rintro ⟨_,⟨y,hy,p,hp,hnew,rfl⟩,rfl⟩
      rcases hy with hy | ⟨hempty,rfl⟩
      · obtain ⟨hsofar,hne⟩ := (hvalues (o y)).mp ⟨y,hy,rfl⟩
        refine ⟨⟨o y,hsofar,p,hp,(map_sup o y p).symm⟩,fun heq => hne ?_⟩
        refine le_antisymm ?_ (habove _ hsofar)
        rw [← heq,map_sup]
        exact le_sup_left
      · refine ⟨⟨o y,hfirst hempty,p,hp,(map_sup o y p).symm⟩,fun heq => ?_⟩
        rw [map_sup,sup_eq_left] at heq
        exact h.asks hempty p hp hnew heq
    · rintro ⟨⟨g,hg,p,hp,rfl⟩,hne⟩
      by_cases hgx : g = o x
      · subst hgx
        have hnew : ¬ o p ≤ o x := fun hle => hne (sup_eq_left.mpr hle)
        rcases values.eq_empty_or_nonempty with hempty | hnonempty
        · refine ⟨x ⊔ p,⟨x,.inr ⟨hempty,rfl⟩,p,hp,?_,rfl⟩,map_sup o x p⟩
          exact fun hle => hnew (OrderHomClass.mono o hle)
        · exact h.idle hg hnonempty p hp hnew
      · obtain ⟨y,hy,rfl⟩ := (hvalues g).mpr ⟨hg,hgx⟩
        by_cases hle : p ≤ y
        · obtain ⟨z,hz,hzy⟩ := h.again y hy p hp hle
          refine ⟨z,hz,?_⟩
          rw [hzy,sup_eq_left.mpr (OrderHomClass.mono o hle)]
        · exact ⟨y ⊔ p,mem_link_of_mem hy hp hle,map_sup o y p⟩

end Strengthening
