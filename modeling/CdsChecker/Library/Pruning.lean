import Mathlib.Data.List.Nodup
import Mathlib.Data.List.Pairwise
import Mathlib.Order.Basic
import Mathlib.Tactic

/-! One pass that prunes a list: each newcomer drops earlier entries and is kept itself, until a
later one drops it. -/

namespace Pruning

variable {α β : Type*}

section

variable (drops : α → α → Bool) (skips : α → Bool)

/-- A newcomer drops the entries it is compared with and joins the list. -/
def push (l : List α) (x : α) : List α := l.filter (fun a => !drops a x) ++ [x]

/-- The pass, which leaves some newcomers out at once. -/
def prune (l : List α) : List α :=
  l.foldl (fun kept x => if skips x then kept else push drops kept x) []

/-- Some entry of the list that is not left out drops this one. -/
def droppedBy (a : α) (l : List α) : Bool := l.any fun x => !skips x && drops a x

/-- What is left in the end. -/
def survivors : List α → List α
  | [] => []
  | x :: l => if skips x || droppedBy drops skips x l then survivors l else x :: survivors l

/-- The entry at this place is left in the end. -/
def Alive (l : List α) (i : ℕ) (x : α) : Prop := l[i]? = some x ∧ skips x = false ∧
  ∀ (j : ℕ) (y : α), i < j → l[j]? = some y → skips y = false → drops x y = false

end

variable {drops : α → α → Bool} {skips : α → Bool}

theorem foldl_push (l acc : List α) :
    l.foldl (fun kept x => if skips x then kept else push drops kept x) acc =
      acc.filter (fun a => !droppedBy drops skips a l) ++ survivors drops skips l := by
  induction l generalizing acc with
  | nil => simp [droppedBy,survivors]
  | cons x l ih =>
    rw [List.foldl_cons,survivors]
    by_cases hskip : skips x = true
    · rw [if_pos hskip,ih]
      simp [droppedBy,hskip]
    · have hfilter : acc.filter (fun a => !droppedBy drops skips a (x :: l)) =
          (acc.filter (fun a => !drops a x)).filter (fun a => !droppedBy drops skips a l) := by
        rw [List.filter_filter]
        apply List.filter_congr
        intro a _
        simp [droppedBy,hskip,Bool.and_comm]
      rw [if_neg hskip,ih,push,List.filter_append,hfilter]
      by_cases hdrop : droppedBy drops skips x l = true
      · simp [hdrop]
      · simp [hskip,hdrop]

theorem prune_eq (l : List α) : prune drops skips l = survivors drops skips l := by
  rw [prune,foldl_push,List.filter_nil,List.nil_append]

theorem droppedBy_eq_false {a : α} {l : List α} : droppedBy drops skips a l = false ↔
    ∀ (j : ℕ) (y : α), l[j]? = some y → skips y = false → drops a y = false := by
  simp only [droppedBy,List.any_eq_false,Bool.and_eq_true,Bool.not_eq_true',not_and,
    Bool.not_eq_true]
  constructor
  · intro h j y hy
    exact h y (List.mem_of_getElem? hy)
  · intro h y hy
    obtain ⟨j,hj⟩ := List.mem_iff_getElem?.mp hy
    exact h j y hj

theorem alive_zero {x y : α} {l : List α} : Alive drops skips (x :: l) 0 y ↔
    y = x ∧ skips x = false ∧ droppedBy drops skips x l = false := by
  rw [droppedBy_eq_false]
  constructor
  · rintro ⟨hx,hskip,hdrop⟩
    cases hx
    refine ⟨rfl,hskip,fun j z hz => ?_⟩
    exact hdrop (j + 1) z j.succ_pos hz
  · rintro ⟨rfl,hskip,hdrop⟩
    refine ⟨rfl,hskip,fun j z hj hz => ?_⟩
    cases j with
    | zero => cases hj
    | succ j => exact hdrop j z hz

theorem alive_succ {x y : α} {l : List α} {i : ℕ} :
    Alive drops skips (x :: l) (i + 1) y ↔ Alive drops skips l i y := by
  constructor
  · rintro ⟨hy,hskip,hdrop⟩
    exact ⟨hy,hskip,fun j z hj hz => hdrop (j + 1) z (by omega) hz⟩
  · rintro ⟨hy,hskip,hdrop⟩
    refine ⟨hy,hskip,fun j z hj hz => ?_⟩
    cases j with
    | zero => cases hj
    | succ j => exact hdrop j z (by omega) hz

theorem mem_survivors {x : α} {l : List α} :
    x ∈ survivors drops skips l ↔ ∃ i, Alive drops skips l i x := by
  induction l with
  | nil => simp [survivors,Alive]
  | cons y l ih =>
    have hsplit : (∃ i, Alive drops skips (y :: l) i x) ↔
        Alive drops skips (y :: l) 0 x ∨ ∃ i, Alive drops skips l i x := by
      constructor
      · rintro ⟨_ | i,h⟩
        · exact .inl h
        · exact .inr ⟨i,alive_succ.mp h⟩
      · rintro (h | ⟨i,h⟩)
        · exact ⟨0,h⟩
        · exact ⟨i + 1,alive_succ.mpr h⟩
    rw [hsplit,survivors,alive_zero]
    split
    · rename_i hgone
      have hnot : ¬ (x = y ∧ skips y = false ∧ droppedBy drops skips y l = false) := by
        rintro ⟨-,hskip,hdrop⟩
        simp [hskip,hdrop] at hgone
      rw [ih,or_iff_right hnot]
    · rename_i hstay
      rw [Bool.not_eq_true,Bool.or_eq_false_iff] at hstay
      rw [List.mem_cons,ih]
      simp [hstay]

/-- Each value once, if no two places that are left share it. -/
theorem nodup_map_survivors {f : α → β} {l : List α} : ((survivors drops skips l).map f).Nodup ↔
    ∀ (i j : ℕ) (x y : α), Alive drops skips l i x → Alive drops skips l j y → f x = f y →
    i = j := by
  induction l with
  | nil => simp [survivors,Alive]
  | cons z l ih =>
    have htail : (∀ (i j : ℕ) (x y : α), Alive drops skips (z :: l) i x →
        Alive drops skips (z :: l) j y → f x = f y → i = j) →
        ((survivors drops skips l).map f).Nodup := by
      intro h
      apply ih.mpr
      intro i j x y hx hy hf
      have := h (i + 1) (j + 1) x y (alive_succ.mpr hx) (alive_succ.mpr hy) hf
      omega
    rw [survivors]
    split
    · rename_i hgone
      refine ⟨fun hnodup => ?_,htail⟩
      rintro (_ | i) (_ | j) x y hx hy hf
      · rfl
      · obtain ⟨-,hskip,hdrop⟩ := alive_zero.mp hx
        simp [hskip,hdrop] at hgone
      · obtain ⟨-,hskip,hdrop⟩ := alive_zero.mp hy
        simp [hskip,hdrop] at hgone
      · exact congrArg Nat.succ (ih.mp hnodup i j x y (alive_succ.mp hx) (alive_succ.mp hy) hf)
    · rename_i hstay
      rw [Bool.not_eq_true,Bool.or_eq_false_iff] at hstay
      have hhead : Alive drops skips (z :: l) 0 z := alive_zero.mpr ⟨rfl,hstay.1,hstay.2⟩
      rw [List.map_cons,List.nodup_cons]
      constructor
      · rintro ⟨hfresh,hnodup⟩
        rintro (_ | i) (_ | j) x y hx hy hf
        · rfl
        · obtain ⟨rfl,-⟩ := alive_zero.mp hx
          exact absurd (List.mem_map.mpr ⟨y,mem_survivors.mpr ⟨j,alive_succ.mp hy⟩,hf.symm⟩) hfresh
        · obtain ⟨rfl,-⟩ := alive_zero.mp hy
          exact absurd (List.mem_map.mpr ⟨x,mem_survivors.mpr ⟨i,alive_succ.mp hx⟩,hf⟩) hfresh
        · exact congrArg Nat.succ (ih.mp hnodup i j x y (alive_succ.mp hx) (alive_succ.mp hy) hf)
      · intro h
        refine ⟨fun hmem => ?_,htail h⟩
        obtain ⟨y,hy,hf⟩ := List.mem_map.mp hmem
        obtain ⟨j,hj⟩ := mem_survivors.mp hy
        have := h (j + 1) 0 y z (alive_succ.mpr hj) hhead hf
        omega

/-! ### Which values are left -/

/-- These values and no others are left, each once. -/
structure Keeps (drops : α → α → Bool) (skips : α → Bool) (f : α → β) (wanted : β → Prop)
    (l : List α) : Prop where
  once : ((survivors drops skips l).map f).Nodup
  wanted : ∀ b, b ∈ (survivors drops skips l).map f ↔ wanted b

/-- Where only entries with the same value drop an entry with this one, the last of them is left. -/
theorem mem_map_survivors {f : α → β} {l : List α} {b : β} (h : ∃ x ∈ l, skips x = false ∧ f x = b)
    (hdrop : ∀ x ∈ l, ∀ y ∈ l, skips x = false → skips y = false → f x = b → drops x y = true →
      f y = b) :
    b ∈ (survivors drops skips l).map f := by
  induction l with
  | nil =>
    obtain ⟨x,hx,-⟩ := h
    cases hx
  | cons z l ih =>
    have hsub : b ∈ (survivors drops skips l).map f →
      b ∈ (survivors drops skips (z :: l)).map f := by
      intro hmem
      rw [survivors]
      split
      · exact hmem
      · exact List.mem_cons_of_mem _ hmem
    by_cases hlater : ∃ x ∈ l, skips x = false ∧ f x = b
    · exact hsub (ih hlater fun x hx y hy =>
        hdrop x (List.mem_cons_of_mem _ hx) y (List.mem_cons_of_mem _ hy))
    · obtain ⟨x,hx,hskip,hb⟩ := h
      obtain rfl : x = z := (List.mem_cons.mp hx).resolve_right fun hmem => hlater ⟨x,hmem,hskip,hb⟩
      have hstays : droppedBy drops skips x l = false := by
        apply droppedBy_eq_false.mpr
        intro j y hy hyskip
        by_contra hxy
        have hmem := List.mem_of_getElem? hy
        exact hlater ⟨y,hmem,hyskip,hdrop x List.mem_cons_self y (List.mem_cons_of_mem _ hmem) hskip
          hyskip hb (by simpa using hxy)⟩
      rw [survivors,if_neg (by simp [hskip,hstays]),List.map_cons,← hb]
      exact List.mem_cons_self

/-- Places that are left do not drop each other. -/
theorem nodup_of_drops {f : α → β} {l : List α} (hdrop : ∀ x ∈ l, ∀ y ∈ l, skips x = false →
    skips y = false → f x = f y → drops x y = true) : ((survivors drops skips l).map f).Nodup := by
  apply nodup_map_survivors.mpr
  have hle : ∀ (i j : ℕ) (x y : α), Alive drops skips l i x → Alive drops skips l j y → f x = f y →
      j ≤ i := by
    intro i j x y hx hy hf
    by_contra hlt
    have hstays := hx.2.2 j y (Nat.lt_of_not_le hlt) hy.1 hy.2.1
    rw [hdrop x (List.mem_of_getElem? hx.1) y
      (List.mem_of_getElem? hy.1) hx.2.1 hy.2.1 hf] at hstays
    cases hstays
  intro i j x y hx hy hf
  exact le_antisymm (hle j i y x hy hx hf.symm) (hle i j x y hx hy hf)

theorem alive_last {r : List α} {x : α} (hskip : skips x = false) :
    Alive drops skips (r ++ [x]) r.length x := by
  refine ⟨List.getElem?_concat_length,hskip,fun j y hj hy => ?_⟩
  rw [List.getElem?_eq_none (by simp; omega)] at hy
  cases hy

theorem alive_before_last {r : List α} {x y : α} (hskip : skips x = false)
    (hdrop : drops x y = false) : Alive drops skips (r ++ [x,y]) r.length x := by
  refine ⟨by simp,hskip,fun j z hj hz _ => ?_⟩
  have hlt := (List.getElem?_eq_some_iff.mp hz).1
  obtain rfl : j = r.length + 1 := by
    simp at hlt
    omega
  obtain rfl : y = z := by simpa using hz
  exact hdrop

theorem perm_last {l : List α} {x : α} (hx : x ∈ l) : ∃ r : List α, (r ++ [x]).Perm l := by
  obtain ⟨s,t,rfl⟩ := List.append_of_mem hx
  exact ⟨s ++ t,List.perm_append_singleton x (s ++ t) |>.trans List.perm_middle.symm⟩

theorem perm_last_two {l : List α} {x y : α} (hx : x ∈ l) (hy : y ∈ l) (hne : x ≠ y) :
    ∃ r : List α, (r ++ [x,y]).Perm l := by
  obtain ⟨r,hr⟩ := perm_last hy
  have hmem : x ∈ r := by
    rcases List.mem_append.mp (hr.mem_iff.mpr hx) with hmem | hmem
    · exact hmem
    · exact absurd (List.mem_singleton.mp hmem) hne
  obtain ⟨q,hq⟩ := perm_last hmem
  refine ⟨q,?_⟩
  have happend : q ++ [x,y] = q ++ [x] ++ [y] := by simp
  rw [happend]
  exact (hq.append_right [y]).trans hr

section EveryOrder
variable {f : α → β} {wanted : β → Prop} {l : List α}

theorem wanted_of_every_order (h : ∀ l', l'.Perm l → Keeps drops skips f wanted l') {x : α}
    (hx : x ∈ l) (hskip : skips x = false) : wanted (f x) := by
  obtain ⟨r,hr⟩ := perm_last hx
  exact ((h _ hr).wanted (f x)).mp
    (List.mem_map_of_mem (mem_survivors.mpr ⟨r.length,alive_last hskip⟩))

/-- Two entries with one value drop each other: at the end of the list both would be left. -/
theorem drops_of_every_order (h : ∀ l', l'.Perm l → Keeps drops skips f wanted l')
    (hself : ∀ x, drops x x = true) {x y : α} (hx : x ∈ l) (hy : y ∈ l) (hxskip : skips x = false)
    (hyskip : skips y = false) (hf : f x = f y) : drops x y = true := by
  by_cases hxy : x = y
  · exact hxy ▸ hself x
  obtain ⟨r,hr⟩ := perm_last_two hx hy hxy
  by_contra hdrop
  have hlast : Alive drops skips (r ++ [x,y]) (r.length + 1) y := by
    have happend : r ++ [x,y] = r ++ [x] ++ [y] := by simp
    rw [happend,← List.length_singleton (a := x),← List.length_append]
    exact alive_last hyskip
  have hplaces := nodup_map_survivors.mp (h _ hr).once r.length (r.length + 1) x y
    (alive_before_last hxskip (by simpa using hdrop)) hlast hf
  omega

/-- An entry that is dropped at the end of the list has its value left in the last one. -/
theorem same_of_every_order (h : ∀ l', l'.Perm l → Keeps drops skips f wanted l')
    (hself : ∀ x, drops x x = true) {x y : α} (hx : x ∈ l) (hy : y ∈ l) (hxskip : skips x = false)
    (hyskip : skips y = false) (hdrop : drops x y = true) : f x = f y := by
  by_contra hf
  have hxy : x ≠ y := fun hxy => hf (hxy ▸ rfl)
  obtain ⟨r,hr⟩ := perm_last_two hx hy hxy
  -- whoever has the value of `x` comes before `x`, which `y` drops
  obtain ⟨z,hz,hzx⟩ := List.mem_map.mp
    (((h _ hr).wanted (f x)).mpr (wanted_of_every_order h hx hxskip))
  obtain ⟨k,hzk,hzskip,hzlater⟩ := mem_survivors.mp hz
  have hlt := (List.getElem?_eq_some_iff.mp hzk).1
  simp only [List.length_append,List.length_cons,List.length_nil] at hlt
  rcases Nat.lt_trichotomy k r.length with hk | rfl | hk
  · have hzr : z ∈ l := hr.mem_iff.mp (List.mem_of_getElem? hzk)
    have hstays := hzlater r.length x hk (by simp) hxskip
    rw [drops_of_every_order h hself hzr hx hzskip hxskip hzx] at hstays
    cases hstays
  · obtain rfl : x = z := by simpa using hzk
    have hstays := hzlater (r.length + 1) y (by omega) (by simp) hyskip
    rw [hdrop] at hstays
    cases hstays
  · obtain rfl : k = r.length + 1 := by omega
    obtain rfl : y = z := by simpa using hzk
    exact hf hzx.symm

/-- The pass is right in every order exactly when it has nothing to do but to recognise values
that come again: each entry that it does not leave out is wanted, and one drops another exactly if
they have the same value. -/
theorem keeps_every_order_iff (hself : ∀ x, drops x x = true)
    (hoffered : ∀ b, wanted b → ∃ x ∈ l, skips x = false ∧ f x = b) :
    (∀ l', l'.Perm l → Keeps drops skips f wanted l') ↔
      (∀ x ∈ l, skips x = false → wanted (f x)) ∧ ∀ x ∈ l, ∀ y ∈ l, skips x = false →
        skips y = false → (drops x y = true ↔ f x = f y) := by
  constructor
  · exact fun h => ⟨fun x hx hskip => wanted_of_every_order h hx hskip,
      fun x hx y hy hxskip hyskip => ⟨same_of_every_order h hself hx hy hxskip hyskip,
        drops_of_every_order h hself hx hy hxskip hyskip⟩⟩
  · rintro ⟨hwanted,hdrop⟩ l' hperm
    have hmem : ∀ {x}, x ∈ l' → x ∈ l := fun hx => hperm.mem_iff.mp hx
    refine ⟨nodup_of_drops fun x hx y hy hxskip hyskip hf =>
      (hdrop x (hmem hx) y (hmem hy) hxskip hyskip).mpr hf,fun b => ⟨fun hb => ?_,fun hb => ?_⟩⟩
    · obtain ⟨x,hx,rfl⟩ := List.mem_map.mp hb
      obtain ⟨i,halive⟩ := mem_survivors.mp hx
      exact hwanted x (hmem (List.mem_of_getElem? halive.1)) halive.2.1
    · obtain ⟨x,hx,hskip,hxb⟩ := hoffered b hb
      refine mem_map_survivors ⟨x,hperm.mem_iff.mpr hx,hskip,hxb⟩ ?_
      intro y hy z hz hyskip hzskip hyb hyz
      rw [← hyb]
      exact ((hdrop y (hmem hy) z (hmem hz) hyskip hzskip).mp hyz).symm

end EveryOrder

/-! ### The values of the entries in a partial order -/

variable {P : Type*} [PartialOrder P]

/-- Where an entry drops those that are not below it, exactly the minimal values are left if after
each entry that is not minimal there is one below it. -/
theorem keeps_minimal_iff {f : α → P} {l : List α} (hdrop : ∀ x ∈ l, ∀ y ∈ l, skips x = false →
    skips y = false → (drops x y = true ↔ f y ≤ f x)) :
    Keeps drops skips f (fun b => (∃ x ∈ l, skips x = false ∧ f x = b) ∧
        ∀ y ∈ l, skips y = false → ¬ f y < b) l ↔
      ∀ (i : ℕ) (x : α), l[i]? = some x → skips x = false →
        (∃ y ∈ l, skips y = false ∧ f y < f x) →
          ∃ (j : ℕ) (y : α), i < j ∧ l[j]? = some y ∧ skips y = false ∧ f y ≤ f x := by
  constructor
  · intro h i x hx hskip hlower
    by_contra hnone
    have halive : Alive drops skips l i x := by
      refine ⟨hx,hskip,fun j y hj hy hyskip => ?_⟩
      by_contra hxy
      refine hnone ⟨j,y,hj,hy,hyskip,?_⟩
      exact (hdrop x (List.mem_of_getElem? hx) y (List.mem_of_getElem? hy) hskip hyskip).mp
        (by simpa using hxy)
    obtain ⟨-,hminimal⟩ := (h.wanted (f x)).mp (List.mem_map_of_mem (mem_survivors.mpr ⟨i,halive⟩))
    obtain ⟨y,hy,hyskip,hlt⟩ := hlower
    exact hminimal y hy hyskip hlt
  · intro h
    refine ⟨nodup_of_drops fun x hx y hy hxskip hyskip hf =>
      (hdrop x hx y hy hxskip hyskip).mpr hf.ge,fun b => ⟨fun hb => ?_,fun hb => ?_⟩⟩
    · obtain ⟨x,hx,rfl⟩ := List.mem_map.mp hb
      obtain ⟨i,hxi,hskip,hlater⟩ := mem_survivors.mp hx
      have hxmem := List.mem_of_getElem? hxi
      refine ⟨⟨x,hxmem,hskip,rfl⟩,fun y hy hyskip hlt => ?_⟩
      obtain ⟨j,z,hj,hz,hzskip,hle⟩ := h i x hxi hskip ⟨y,hy,hyskip,hlt⟩
      have hstays := hlater j z hj hz hzskip
      rw [(hdrop x hxmem z (List.mem_of_getElem? hz) hskip hzskip).mpr hle] at hstays
      cases hstays
    · refine mem_map_survivors hb.1 fun x hx y hy hxskip hyskip hxb hxy => ?_
      have hle : f y ≤ b := hxb ▸ (hdrop x hx y hy hxskip hyskip).mp hxy
      exact hle.eq_or_lt.resolve_right (hb.2 y hy hyskip)

def Incomparable (p q : P) : Prop := ¬ p ≤ q ∧ ¬ q ≤ p

theorem Incomparable.symm {p q : P} (h : Incomparable p q) : Incomparable q p := ⟨h.2,h.1⟩

/-- No entry is as strong as another, and some entry is below each value that was offered. -/
structure Frontier (f : α → P) (offered : Set P) (l : List α) : Prop where
  antichain : l.Pairwise fun a b => Incomparable (f a) (f b)
  covers : ∀ p ∈ offered, ∃ a ∈ l, f a ≤ p

namespace Frontier

variable {f : α → P} {offered : Set P} {l : List α}

theorem eq_of_le (h : Frontier f offered l) {a b : α} (ha : a ∈ l) (hb : b ∈ l)
    (hle : f a ≤ f b) : a = b := by
  by_contra hne
  have : Std.Symm fun a b : α => Incomparable (f a) (f b) := ⟨fun _ _ => Incomparable.symm⟩
  exact (h.antichain.forall ha hb hne).1 hle

/-- Only the values count. -/
theorem map_iff : Frontier (fun p => p) offered (l.map f) ↔ Frontier f offered l := by
  constructor
  · intro ⟨hanti,hcovers⟩
    refine ⟨List.pairwise_map.mp hanti,fun p hp => ?_⟩
    obtain ⟨_,hmem,hle⟩ := hcovers p hp
    obtain ⟨a,ha,rfl⟩ := List.mem_map.mp hmem
    exact ⟨a,ha,hle⟩
  · intro ⟨hanti,hcovers⟩
    refine ⟨List.pairwise_map.mpr hanti,fun p hp => ?_⟩
    obtain ⟨a,ha,hle⟩ := hcovers p hp
    exact ⟨f a,List.mem_map_of_mem ha,hle⟩

/-- One newcomer: what it drops has to be above it, and what stays beside it. -/
theorem push_iff (h : Frontier f offered l) (hoffered : ∀ a ∈ l, f a ∈ offered) (x : α) :
    Frontier f (insert (f x) offered) (push drops l x) ↔
      ∀ a ∈ l, (drops a x = true → f x ≤ f a) ∧ (drops a x = false → Incomparable (f a) (f x)) := by
  have hkept : ∀ {a : α}, a ∈ l.filter (fun a => !drops a x) ↔ a ∈ l ∧ drops a x = false := by
    intro a
    simp
  constructor
  · intro h' a ha
    constructor
    · intro hdrop
      obtain ⟨b,hb,hle⟩ := h'.covers (f a) (.inr (hoffered a ha))
      rcases List.mem_append.mp hb with hb | hb
      · obtain ⟨hb,hstay⟩ := hkept.mp hb
        rw [h.eq_of_le hb ha hle,hdrop] at hstay
        cases hstay
      · rw [List.mem_singleton.mp hb] at hle
        exact hle
    · intro hstay
      exact (List.pairwise_append.mp h'.antichain).2.2 a (hkept.mpr ⟨ha,hstay⟩) x (by simp)
  · intro hall
    constructor
    · apply List.pairwise_append.mpr
      refine ⟨h.antichain.filter _,List.pairwise_singleton _ _,fun a ha b hb => ?_⟩
      obtain ⟨ha,hstay⟩ := hkept.mp ha
      rw [List.mem_singleton.mp hb]
      exact (hall a ha).2 hstay
    · rintro p (rfl | hp)
      · exact ⟨x,by simp [push],le_refl _⟩
      · obtain ⟨a,ha,hle⟩ := h.covers p hp
        cases hdrop : drops a x with
        | true => exact ⟨x,by simp [push],((hall a ha).1 hdrop).trans hle⟩
        | false => exact ⟨a,List.mem_append_left _ (hkept.mpr ⟨ha,hdrop⟩),hle⟩

end Frontier
end Pruning
