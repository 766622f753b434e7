import CdsChecker.ExecutionGraph
import CdsChecker.Library.PairOrder

/-! What the edges of the execution graph are. -/
namespace CdsChecker

namespace ExecutionGraph

variable {g g' g'' : ExecutionGraph} {m1 m2 m x y : Method}

/-! ### The conflict of two method calls -/

theorem conflictActions_ne_selfCycle {act1 act2 : ModelAction} :
    conflictActions act1 act2 ≠ .selfCycle := by
  unfold conflictActions
  split
  · simp
  · split
    · simp
    · split
      · split <;> simp
      · simp

/-- A direction that is found stays, unless another pair has the other one. -/
theorem conflictOPs_of_ne {acts : ActionId → ModelAction} {pairs : List (ActionId × ActionId)}
    {val : Conflict} (hval : val ≠ .commute) {r : Conflict} (hr : r ≠ .selfCycle) :
    conflictOPs acts pairs val = r ↔
      val = r ∧ ∀ p ∈ pairs, conflictActions (acts p.1) (acts p.2) = .commute ∨
        conflictActions (acts p.1) (acts p.2) = r := by
  induction pairs with
  | nil => simp [conflictOPs]
  | cons p pairs ih =>
    obtain ⟨act1,act2⟩ := p
    simp only [conflictOPs,List.forall_mem_cons]
    by_cases hres : conflictActions (acts act1) (acts act2) = .commute
    · rw [if_pos hres,ih]
      simp [hres]
    · rw [if_neg hres,if_neg hval]
      by_cases hne : val = conflictActions (acts act1) (acts act2)
      · rw [if_neg (not_not.mpr hne),ih]
        constructor
        · rintro ⟨rfl,hall⟩
          exact ⟨rfl,.inr hne.symm,hall⟩
        · rintro ⟨rfl,-,hall⟩
          exact ⟨rfl,hall⟩
      · rw [if_pos hne]
        constructor
        · intro h
          exact absurd h.symm hr
        · rintro ⟨rfl,hfirst,-⟩
          rcases hfirst with h | h
          · exact absurd h hres
          · exact absurd h.symm hne

/-- The pairs that do not commute have one direction. -/
theorem conflictOPs_eq {acts : ActionId → ModelAction} {pairs : List (ActionId × ActionId)}
    {r : Conflict} (hcommute : r ≠ .commute) (hself : r ≠ .selfCycle) :
    conflictOPs acts pairs .commute = r ↔
      (∀ p ∈ pairs, conflictActions (acts p.1) (acts p.2) = .commute ∨
        conflictActions (acts p.1) (acts p.2) = r) ∧
      ∃ p ∈ pairs, conflictActions (acts p.1) (acts p.2) = r := by
  induction pairs with
  | nil => simp [conflictOPs,hcommute.symm]
  | cons p pairs ih =>
    obtain ⟨act1,act2⟩ := p
    simp only [conflictOPs,List.forall_mem_cons,List.exists_mem_cons_iff]
    by_cases hres : conflictActions (acts act1) (acts act2) = .commute
    · rw [if_pos hres,ih]
      simp [hres,hcommute.symm]
    · rw [if_neg hres,if_pos trivial,conflictOPs_of_ne hres hself]
      constructor
      · rintro ⟨hr,hall⟩
        exact ⟨⟨.inr hr,hall⟩,.inl hr⟩
      · rintro ⟨⟨hfirst,hall⟩,-⟩
        exact ⟨hfirst.resolve_left hres,hall⟩

theorem conflictOPs_eq_commute {acts : ActionId → ModelAction}
    {pairs : List (ActionId × ActionId)} :
    conflictOPs acts pairs .commute = .commute ↔
      ∀ p ∈ pairs, conflictActions (acts p.1) (acts p.2) = .commute := by
  induction pairs with
  | nil => simp [conflictOPs]
  | cons p pairs ih =>
    obtain ⟨act1,act2⟩ := p
    simp only [conflictOPs,List.forall_mem_cons]
    by_cases hres : conflictActions (acts act1) (acts act2) = .commute
    · rw [if_pos hres,ih]
      simp [hres]
    · rw [if_neg hres,if_pos trivial,conflictOPs_of_ne hres (by simp)]
      simp [hres]

/-- Neither the start nor the finish of the graph. -/
def Interface (g : ExecutionGraph) (m : Method) : Prop :=
  (g.methods m).name ≠ .start ∧ (g.methods m).name ≠ .finish

/-- Without ordering points there is no pair. -/
theorem conflictVal_eq (h1 : g.Interface m1) (h2 : g.Interface m2) :
    g.conflictVal m1 m2 = conflictOPs g.acts
      ((g.methods m1).orderingPoints ×ˢ (g.methods m2).orderingPoints) .commute := by
  have hstart : (g.methods m1).isStartMethod = false := beq_false_of_ne h1.1
  have hfinish : (g.methods m2).isFinishMethod = false := beq_false_of_ne h2.2
  simp only [conflictVal,hstart,hfinish,Bool.false_eq_true,if_false]
  split
  · rename_i hempty
    rcases Bool.or_eq_true _ _ ▸ hempty with hnil | hnil
    · rw [List.isEmpty_iff.mp hnil]
      rfl
    · rw [List.isEmpty_iff.mp hnil,List.product_nil]
      rfl
  · rfl

theorem conflictVal_eq_iff (h1 : g.Interface m1) (h2 : g.Interface m2) {r : Conflict}
    (hcommute : r ≠ .commute) (hself : r ≠ .selfCycle) :
    g.conflictVal m1 m2 = r ↔
      (∀ act1 ∈ (g.methods m1).orderingPoints, ∀ act2 ∈ (g.methods m2).orderingPoints,
        conflictActions (g.acts act1) (g.acts act2) = .commute ∨
          conflictActions (g.acts act1) (g.acts act2) = r) ∧
      ∃ act1 ∈ (g.methods m1).orderingPoints, ∃ act2 ∈ (g.methods m2).orderingPoints,
        conflictActions (g.acts act1) (g.acts act2) = r := by
  rw [conflictVal_eq h1 h2,conflictOPs_eq hcommute hself]
  simp only [Prod.forall,Prod.exists,List.mem_product]
  constructor
  · rintro ⟨hall,act1,act2,⟨hact1,hact2⟩,hr⟩
    exact ⟨fun a ha b hb => hall a b ⟨ha,hb⟩,act1,hact1,act2,hact2,hr⟩
  · rintro ⟨hall,act1,hact1,act2,hact2,hr⟩
    exact ⟨fun a b hab => hall a hab.1 b hab.2,act1,act2,⟨hact1,hact2⟩,hr⟩

theorem conflictVal_eq_commute (h1 : g.Interface m1) (h2 : g.Interface m2) :
    g.conflictVal m1 m2 = .commute ↔
      ∀ act1 ∈ (g.methods m1).orderingPoints, ∀ act2 ∈ (g.methods m2).orderingPoints,
        conflictActions (g.acts act1) (g.acts act2) = .commute := by
  rw [conflictVal_eq h1 h2,conflictOPs_eq_commute]
  simp only [Prod.forall,List.mem_product]
  exact ⟨fun h a ha b hb => h a b ⟨ha,hb⟩,fun h a b hab => h a hab.1 b hab.2⟩

theorem conflictVal_start (h : (g.methods m1).name = .start) : g.conflictVal m1 m2 = .before := by
  have hstart : (g.methods m1).isStartMethod = true := by
    rw [MethodCall.isStartMethod,h]
    rfl
  simp only [conflictVal,hstart,if_true]

theorem conflictVal_finish (h : (g.methods m2).name = .finish)
    (hne : (g.methods m1).name ≠ .start) :
    g.conflictVal m1 m2 = .before := by
  have hstart : (g.methods m1).isStartMethod = false := beq_false_of_ne hne
  have hfinish : (g.methods m2).isFinishMethod = true := by
    rw [MethodCall.isFinishMethod,h]
    rfl
  simp only [conflictVal,hstart,hfinish,Bool.false_eq_true,if_false,if_true]

theorem conflictVal_congr (hacts : g'.acts = g.acts)
    (hname1 : (g'.methods m1).name = (g.methods m1).name)
    (hname2 : (g'.methods m2).name = (g.methods m2).name)
    (hOPs1 : (g'.methods m1).orderingPoints = (g.methods m1).orderingPoints)
    (hOPs2 : (g'.methods m2).orderingPoints = (g.methods m2).orderingPoints) :
    g'.conflictVal m1 m2 = g.conflictVal m1 m2 := by
  unfold conflictVal MethodCall.isStartMethod MethodCall.isFinishMethod
  dsimp only
  rw [hname1,hname2,hOPs1,hOPs2,hacts]

/-! ### Adding edges -/

/-- The same method calls in the same list. -/
structure SameCalls (g g' : ExecutionGraph) : Prop where
  acts : g'.acts = g.acts
  methodList : g'.methodList = g.methodList
  allowCyclic : g'.allowCyclic = g.allowCyclic
  name : ∀ m, (g'.methods m).name = (g.methods m).name
  orderingPoints : ∀ m, (g'.methods m).orderingPoints = (g.methods m).orderingPoints

theorem SameCalls.refl (g : ExecutionGraph) : SameCalls g g :=
  ⟨rfl,rfl,rfl,fun _ => rfl,fun _ => rfl⟩

theorem SameCalls.trans (h : SameCalls g g') (h' : SameCalls g' g'') : SameCalls g g'' where
  acts := h'.acts.trans h.acts
  methodList := h'.methodList.trans h.methodList
  allowCyclic := h'.allowCyclic.trans h.allowCyclic
  name m := (h'.name m).trans (h.name m)
  orderingPoints m := (h'.orderingPoints m).trans (h.orderingPoints m)

theorem SameCalls.conflictVal (h : SameCalls g g') : g'.conflictVal m1 m2 = g.conflictVal m1 m2 :=
  conflictVal_congr h.acts (h.name m1) (h.name m2) (h.orderingPoints m1) (h.orderingPoints m2)

/-- The edges of `R` are added, in both directions. -/
structure Adds (g g' : ExecutionGraph) (R : Method → Method → Prop)  : Prop
    extends SameCalls g g' where
  allNext : ∀ x y, y ∈ (g'.methods x).allNext ↔ y ∈ (g.methods x).allNext ∨ R x y
  allPrev : ∀ x y, y ∈ (g'.methods x).allPrev ↔ y ∈ (g.methods x).allPrev ∨ R y x
  prev : ∀ m, (g'.methods m).prev = (g.methods m).prev
  next : ∀ m, (g'.methods m).next = (g.methods m).next
  concurrent : ∀ m, (g'.methods m).concurrent = (g.methods m).concurrent

theorem Adds.trans {R S : Method → Method → Prop} (h : Adds g g' R) (h' : Adds g' g'' S) :
    Adds g g'' fun x y => R x y ∨ S x y where
  toSameCalls := h.toSameCalls.trans h'.toSameCalls
  allNext x y := by rw [h'.allNext,h.allNext,or_assoc]
  allPrev x y := by rw [h'.allPrev,h.allPrev,or_assoc]
  prev m := (h'.prev m).trans (h.prev m)
  next m := (h'.next m).trans (h.next m)
  concurrent m := (h'.concurrent m).trans (h.concurrent m)

theorem Adds.congr {R S : Method → Method → Prop} (h : Adds g g' R) (hRS : ∀ x y, R x y ↔ S x y) :
    Adds g g' S where
  toSameCalls := h.toSameCalls
  allNext x y := by rw [h.allNext,hRS]
  allPrev x y := by rw [h.allPrev,hRS]
  prev := h.prev
  next := h.next
  concurrent := h.concurrent

theorem Adds.none (h : SameCalls g g') (hmethods : g'.methods = g.methods) :
    Adds g g' fun _ _ => False where
  toSameCalls := h
  allNext x y := by rw [hmethods,or_false]
  allPrev x y := by rw [hmethods,or_false]
  prev m := by rw [hmethods]
  next m := by rw [hmethods]
  concurrent m := by rw [hmethods]

@[simp] theorem modify_self (g : ExecutionGraph) (m : Method) (f : MethodCall → MethodCall) :
    (g.modify m f).methods m = f (g.methods m) := Function.update_self ..

theorem modify_of_ne (g : ExecutionGraph) (f : MethodCall → MethodCall) (h : x ≠ m) :
    (g.modify m f).methods x = g.methods x := Function.update_of_ne h ..

theorem addEdge_methods (g : ExecutionGraph) (m1 m2 x : Method) :
    (g.addEdge m1 m2).methods x = {
      g.methods x with
      allNext := if x = m1 then (g.methods x).allNext.insert m2 else (g.methods x).allNext
      allPrev := if x = m2 then (g.methods x).allPrev.insert m1 else (g.methods x).allPrev } := by
  unfold addEdge
  by_cases h1 : x = m1 <;> by_cases h2 : x = m2
  · subst h1 h2
    simp
  · subst h1
    rw [modify_of_ne _ _ h2]
    simp [h2]
  · subst h2
    rw [modify_self,modify_of_ne _ _ h1]
    simp [h1]
  · rw [modify_of_ne _ _ h2,modify_of_ne _ _ h1]
    simp [h1,h2]

theorem addEdge_adds (g : ExecutionGraph) (m1 m2 : Method) :
    Adds g (g.addEdge m1 m2) fun x y => x = m1 ∧ y = m2 where
  acts := rfl
  methodList := rfl
  allowCyclic := rfl
  name m := by rw [addEdge_methods]
  orderingPoints m := by rw [addEdge_methods]
  allNext x y := by
    rw [addEdge_methods]
    by_cases hx : x = m1 <;> simp [hx]
  allPrev x y := by
    rw [addEdge_methods]
    by_cases hx : x = m2 <;> simp [hx]
  prev m := by rw [addEdge_methods]
  next m := by rw [addEdge_methods]
  concurrent m := by rw [addEdge_methods]

/-! ### The loops that build the edges -/

theorem conflict_eq (hne : m1 ≠ m2) (h : g.conflictVal m1 m2 ≠ .selfCycle) :
    g.conflict m1 m2 = .ok (g.conflictVal m1 m2,g) := by
  refine bind_eq_ok.mpr ⟨(),assert_eq_ok.mpr (decide_eq_true hne),?_⟩
  dsimp only
  rw [if_neg h]
  rfl

theorem conflict_selfCycle (hne : m1 ≠ m2) (h : g.conflictVal m1 m2 = .selfCycle) :
    g.conflict m1 m2 =
      .ok (.selfCycle,{ g with cyclic := true,broken := g.broken || !g.allowCyclic }) := by
  refine bind_eq_ok.mpr ⟨(),assert_eq_ok.mpr (decide_eq_true hne),?_⟩
  dsimp only
  rw [if_pos h,h]
  rfl

/-- The pair gets its edge, or the graph is cyclic. -/
theorem orderPair_spec (hne : m1 ≠ m2) :
    ∃ g', orderPair m1 g m2 = .ok g' ∧ SameCalls g g' ∧ (g.cyclic = true → g'.cyclic = true) ∧
      (g'.cyclic = false → g.conflictVal m1 m2 ≠ .selfCycle ∧
        Adds g g' fun x y => x = m1 ∧ y = m2 ∧ g.conflictVal m1 m2 = .before ∨
          x = m2 ∧ y = m1 ∧ g.conflictVal m1 m2 = .after) := by
  by_cases hself : g.conflictVal m1 m2 = .selfCycle
  · have hconf := conflict_selfCycle hne hself
    set g₁ : ExecutionGraph := { g with cyclic := true,broken := g.broken || !g.allowCyclic }
    have hsame : SameCalls g g₁ := ⟨rfl,rfl,rfl,fun _ => rfl,fun _ => rfl⟩
    by_cases hallow : g₁.allowCyclic
    · refine ⟨(g₁.addEdge m1 m2).addEdge m2 m1,?_,?_,fun _ => rfl,?_⟩
      · refine bind_eq_ok.mpr ⟨_,hconf,?_⟩
        dsimp only
        rw [if_pos hallow]
        rfl
      · exact (hsame.trans (addEdge_adds g₁ m1 m2).toSameCalls).trans
          (addEdge_adds _ m2 m1).toSameCalls
      · intro hfalse
        cases hfalse
    · refine ⟨g₁,?_,hsame,fun _ => rfl,?_⟩
      · refine bind_eq_ok.mpr ⟨_,hconf,?_⟩
        dsimp only
        rw [if_neg hallow]
        rfl
      · intro hfalse
        cases hfalse
  · have hconf := conflict_eq hne hself
    cases hval : g.conflictVal m1 m2 with
    | selfCycle => exact absurd hval hself
    | commute =>
      rw [hval] at hconf
      refine ⟨g,bind_eq_ok.mpr ⟨_,hconf,rfl⟩,SameCalls.refl g,id,fun _ => ⟨by simp,?_⟩⟩
      exact (Adds.none (SameCalls.refl g) rfl).congr fun x y => by simp
    | before =>
      rw [hval] at hconf
      have hadds := addEdge_adds g m1 m2
      refine ⟨_,bind_eq_ok.mpr ⟨_,hconf,rfl⟩,hadds.toSameCalls,id,fun _ => ⟨by simp,?_⟩⟩
      exact hadds.congr fun x y => by simp
    | after =>
      rw [hval] at hconf
      have hadds := addEdge_adds g m2 m1
      refine ⟨_,bind_eq_ok.mpr ⟨_,hconf,rfl⟩,hadds.toSameCalls,id,fun _ => ⟨by simp,?_⟩⟩
      exact hadds.congr fun x y => by simp

theorem foldlM_orderPair {ms : List Method} (hne : m1 ∉ ms) :
    ∃ g', ms.foldlM (orderPair m1) g = .ok g' ∧ SameCalls g g' ∧
      (g.cyclic = true → g'.cyclic = true) ∧
      (g'.cyclic = false → (∀ m2 ∈ ms, g.conflictVal m1 m2 ≠ .selfCycle) ∧
        Adds g g' fun x y => x = m1 ∧ y ∈ ms ∧ g.conflictVal x y = .before ∨
          y = m1 ∧ x ∈ ms ∧ g.conflictVal y x = .after) := by
  induction ms generalizing g with
  | nil =>
    refine ⟨g,rfl,SameCalls.refl g,id,fun _ => ⟨by simp,?_⟩⟩
    exact (Adds.none (SameCalls.refl g) rfl).congr fun x y => by simp
  | cons m2 ms ih =>
    rw [List.mem_cons,not_or] at hne
    obtain ⟨g₁,hpair,hsame₁,hcyc₁,hadds₁⟩ := orderPair_spec (g := g) hne.1
    obtain ⟨g₂,hfold,hsame₂,hcyc₂,hadds₂⟩ := ih (g := g₁) hne.2
    refine ⟨g₂,?_,hsame₁.trans hsame₂,fun h => hcyc₂ (hcyc₁ h),?_⟩
    · rw [List.foldlM_cons]
      exact bind_eq_ok.mpr ⟨g₁,hpair,hfold⟩
    · intro hfalse
      have hfalse₁ : g₁.cyclic = false := by
        by_contra htrue
        rw [hcyc₂ (eq_true_of_ne_false htrue)] at hfalse
        cases hfalse
      obtain ⟨hval₁,hadds₁⟩ := hadds₁ hfalse₁
      obtain ⟨hval₂,hadds₂⟩ := hadds₂ hfalse
      simp only [hsame₁.conflictVal] at hval₂ hadds₂
      refine ⟨List.forall_mem_cons.mpr ⟨hval₁,hval₂⟩,(hadds₁.trans hadds₂).congr fun x y => ?_⟩
      simp only [List.mem_cons]
      constructor
      · rintro ((⟨rfl,rfl,h⟩ | ⟨rfl,rfl,h⟩) | ⟨rfl,hy,h⟩ | ⟨rfl,hx,h⟩)
        · exact .inl ⟨rfl,.inl rfl,h⟩
        · exact .inr ⟨rfl,.inl rfl,h⟩
        · exact .inl ⟨rfl,.inr hy,h⟩
        · exact .inr ⟨rfl,.inr hx,h⟩
      · rintro (⟨rfl,rfl | hy,h⟩ | ⟨rfl,rfl | hx,h⟩)
        · exact .inl (.inl ⟨rfl,rfl,h⟩)
        · exact .inr (.inl ⟨rfl,hy,h⟩)
        · exact .inl (.inr ⟨rfl,rfl,h⟩)
        · exact .inr (.inr ⟨rfl,hx,h⟩)

/-- Each pair is asked about once, with the one that is first in the list as the first argument. -/
def Ordered (g : ExecutionGraph) (l : List Method) (x y : Method) : Prop :=
  [x,y].Sublist l ∧ g.conflictVal x y = .before ∨ [y,x].Sublist l ∧ g.conflictVal y x = .after

theorem SameCalls.ordered (h : SameCalls g g') (l : List Method) : g'.Ordered l = g.Ordered l := by
  funext x y
  unfold Ordered
  rw [h.conflictVal,h.conflictVal]

theorem orderMethods_spec {l : List Method} (hnodup : l.Nodup) :
    ∃ g', orderMethods l g = .ok g' ∧ SameCalls g g' ∧ (g.cyclic = true → g'.cyclic = true) ∧
      (g'.cyclic = false → (∀ x y, [x,y].Sublist l → g.conflictVal x y ≠ .selfCycle) ∧
        Adds g g' (g.Ordered l)) := by
  induction l generalizing g with
  | nil =>
    refine ⟨g,rfl,SameCalls.refl g,id,fun _ => ⟨by simp,?_⟩⟩
    exact (Adds.none (SameCalls.refl g) rfl).congr fun x y => by simp [Ordered]
  | cons m1 ms ih =>
    obtain ⟨hm1,hms⟩ := List.nodup_cons.mp hnodup
    obtain ⟨g₁,hfold,hsame₁,hcyc₁,hadds₁⟩ := foldlM_orderPair (g := g) hm1
    obtain ⟨g₂,horder,hsame₂,hcyc₂,hadds₂⟩ := ih (g := g₁) hms
    refine ⟨g₂,bind_eq_ok.mpr ⟨g₁,hfold,horder⟩,hsame₁.trans hsame₂,fun h => hcyc₂ (hcyc₁ h),?_⟩
    intro hfalse
    have hfalse₁ : g₁.cyclic = false := by
      by_contra htrue
      rw [hcyc₂ (eq_true_of_ne_false htrue)] at hfalse
      cases hfalse
    obtain ⟨hval₁,hadds₁⟩ := hadds₁ hfalse₁
    obtain ⟨hval₂,hadds₂⟩ := hadds₂ hfalse
    simp only [hsame₁.conflictVal] at hval₂
    rw [hsame₁.ordered] at hadds₂
    constructor
    · intro x y hxy
      rcases pair_sublist_cons.mp hxy with ⟨rfl,hy⟩ | hxy
      · exact hval₁ y hy
      · exact hval₂ x y hxy
    · refine (hadds₁.trans hadds₂).congr fun x y => ?_
      simp only [Ordered,pair_sublist_cons]
      constructor
      · rintro ((⟨hx,hy,h⟩ | ⟨hy,hx,h⟩) | ⟨hxy,h⟩ | ⟨hyx,h⟩)
        · exact .inl ⟨.inl ⟨hx,hy⟩,h⟩
        · exact .inr ⟨.inl ⟨hy,hx⟩,h⟩
        · exact .inl ⟨.inr hxy,h⟩
        · exact .inr ⟨.inr hyx,h⟩
      · rintro (⟨⟨hx,hy⟩ | hxy,h⟩ | ⟨⟨hy,hx⟩ | hyx,h⟩)
        · exact .inl (.inl ⟨hx,hy,h⟩)
        · exact .inr (.inl ⟨hxy,h⟩)
        · exact .inl (.inr ⟨hy,hx,h⟩)
        · exact .inr (.inr ⟨hyx,h⟩)

/-! ### The start and the finish -/

theorem foldl_addFakeEdges (g : ExecutionGraph) (startMethod finishMethod : Method)
    (l : List Method) :
    Adds g (l.foldl (addFakeEdges startMethod finishMethod) g) (fun x y =>
      x = startMethod ∧ y ∈ l ∨ x ∈ l ∧ y = finishMethod) ∧
    (l.foldl (addFakeEdges startMethod finishMethod) g).cyclic = g.cyclic := by
  induction l generalizing g with
  | nil => exact ⟨(Adds.none (SameCalls.refl g) rfl).congr fun x y => by simp,rfl⟩
  | cons m ms ih =>
    obtain ⟨hadds,hcyc⟩ := ih (addFakeEdges startMethod finishMethod g m)
    have hfirst := (addEdge_adds g startMethod m).trans
      (addEdge_adds (g.addEdge startMethod m) m finishMethod)
    refine ⟨(hfirst.trans hadds).congr fun x y => ?_,hcyc⟩
    simp only [List.mem_cons]
    constructor
    · rintro ((⟨hx,hy⟩ | ⟨hx,hy⟩) | ⟨hx,hy⟩ | ⟨hx,hy⟩)
      · exact .inl ⟨hx,.inl hy⟩
      · exact .inr ⟨.inl hx,hy⟩
      · exact .inl ⟨hx,.inr hy⟩
      · exact .inr ⟨.inr hx,hy⟩
    · rintro (⟨hx,hy | hy⟩ | ⟨hx | hx,hy⟩)
      · exact .inl (.inl ⟨hx,hy⟩)
      · exact .inr (.inl ⟨hx,hy⟩)
      · exact .inl (.inr ⟨hx,hy⟩)
      · exact .inr (.inr ⟨hx,hy⟩)

/-- What `extractMethod` leaves: method calls without any edge. -/
structure Extracted (g : ExecutionGraph) : Prop where
  nodup : g.methodList.Nodup
  fresh : ∀ m ∈ g.methodList, ∃ label begin OPs,
    g.methods m = { name := .interface label,begin := begin,orderingPoints := OPs }
  cyclic : g.cyclic = false

/-- The two addresses are new, and they differ. -/
structure NewFake (g : ExecutionGraph) (startMethod finishMethod : Method) : Prop where
  start : startMethod ∉ g.methodList
  finish : finishMethod ∉ g.methodList
  ne : startMethod ≠ finishMethod

/-- The list between the start and the finish. -/
structure Ends (g : ExecutionGraph) (l : List Method) (startMethod finishMethod : Method) :
    Prop where
  methodList : g.methodList = startMethod :: l ++ [finishMethod]
  nodup : g.methodList.Nodup
  start : (g.methods startMethod).name = .start
  startOPs : (g.methods startMethod).orderingPoints = []
  finish : (g.methods finishMethod).name = .finish
  finishOPs : (g.methods finishMethod).orderingPoints = []
  interface : ∀ m ∈ l, g.Interface m

variable {l : List Method} {startMethod finishMethod : Method}

theorem Ends.ordered_iff (h : g.Ends l startMethod finishMethod) :
    g.Ordered g.methodList x y ↔ g.Ordered l x y ∨ x = startMethod ∧ y ∈ l ∨
      x ∈ l ∧ y = finishMethod ∨ x = startMethod ∧ y = finishMethod := by
  have hstart : ∀ z, g.conflictVal startMethod z = .before := fun z => conflictVal_start h.start
  have hfinish : ∀ z ∈ l, g.conflictVal z finishMethod = .before :=
    fun z hz => conflictVal_finish h.finish (h.interface z hz).1
  unfold Ordered
  rw [h.methodList,List.cons_append,pair_sublist_cons,pair_sublist_cons,pair_sublist_append,
    pair_sublist_append]
  simp only [List.mem_append,List.mem_singleton]
  constructor
  · rintro (⟨⟨rfl,hy | rfl⟩ | hxy | ⟨hx,rfl⟩,hval⟩ | ⟨⟨rfl,-⟩ | hyx | ⟨hy,rfl⟩,hval⟩)
    · exact .inr (.inl ⟨rfl,hy⟩)
    · exact .inr (.inr (.inr ⟨rfl,rfl⟩))
    · exact .inl (.inl ⟨hxy,hval⟩)
    · exact .inr (.inr (.inl ⟨hx,rfl⟩))
    · rw [hstart] at hval
      cases hval
    · exact .inl (.inr ⟨hyx,hval⟩)
    · rw [hfinish y hy] at hval
      cases hval
  · rintro ((⟨hxy,hval⟩ | ⟨hyx,hval⟩) | ⟨rfl,hy⟩ | ⟨hx,rfl⟩ | ⟨rfl,rfl⟩)
    · exact .inl ⟨.inr (.inl hxy),hval⟩
    · exact .inr ⟨.inr (.inl hyx),hval⟩
    · exact .inl ⟨.inl ⟨rfl,.inl hy⟩,hstart _⟩
    · exact .inl ⟨.inr (.inr ⟨hx,rfl⟩),hfinish x hx⟩
    · exact .inl ⟨.inl ⟨rfl,.inr rfl⟩,hstart _⟩

/-- The sets before and after each method call, and nothing more yet. -/
structure OrderedSets (g : ExecutionGraph) : Prop where
  allNext : ∀ x ∈ g.methodList, ∀ y, y ∈ (g.methods x).allNext ↔ g.Ordered g.methodList x y
  allPrev : ∀ x ∈ g.methodList, ∀ y, y ∈ (g.methods x).allPrev ↔ g.Ordered g.methodList y x

/-- No edge set other than those. -/
def Unlinked (g : ExecutionGraph) : Prop := ∀ x ∈ g.methodList,
  (g.methods x).prev = .empty ∧ (g.methods x).next = .empty ∧ (g.methods x).concurrent = .empty

theorem Ordered.mem (h : g.Ordered l x y) : x ∈ l ∧ y ∈ l := by
  rcases h with ⟨h,-⟩ | ⟨h,-⟩
  · exact ⟨h.subset (by simp),h.subset (by simp)⟩
  · exact ⟨h.subset (by simp),h.subset (by simp)⟩

theorem ordered_congr (h : ∀ x ∈ l, ∀ y ∈ l, g'.conflictVal x y = g.conflictVal x y) :
    g'.Ordered l x y ↔ g.Ordered l x y := by
  constructor
  · intro hxy
    obtain ⟨hx,hy⟩ := hxy.mem
    rwa [Ordered,h x hx y hy,h y hy x hx] at hxy
  · intro hxy
    obtain ⟨hx,hy⟩ := hxy.mem
    rwa [Ordered,h x hx y hy,h y hy x hx]

/-- The two new objects, before their edges. -/
def withFakeMethods (startMethod finishMethod : Method) (g : ExecutionGraph) : ExecutionGraph :=
  (g.modify startMethod fun _ => { name := .start }).modify finishMethod fun _ =>
  { name := .finish }

theorem addFakeMethods_adds (startMethod finishMethod : Method) (g : ExecutionGraph) :
    ∃ g₁, g.addFakeMethods startMethod finishMethod =
        { g₁ with methodList := startMethod :: g₁.methodList ++ [finishMethod] } ∧
      g₁.cyclic = g.cyclic ∧
      Adds (g.withFakeMethods startMethod finishMethod) g₁ fun x y =>
        x = startMethod ∧ y = finishMethod ∨
          x = startMethod ∧ y ∈ g.methodList ∨ x ∈ g.methodList ∧ y = finishMethod := by
  obtain ⟨hfold,hcyc⟩ := foldl_addFakeEdges
    ((g.withFakeMethods startMethod finishMethod).addEdge startMethod finishMethod)
    startMethod finishMethod g.methodList
  exact ⟨_,rfl,hcyc,(addEdge_adds _ startMethod finishMethod).trans hfold⟩

theorem addFakeMethods_spec {g₀ : ExecutionGraph} (hext : g₀.Extracted)
    (hnew : g₀.NewFake startMethod finishMethod) (hadds : Adds g₀ g (g₀.Ordered g₀.methodList)) :
    ∃ g', g.addFakeMethods startMethod finishMethod = g' ∧ g'.cyclic = g.cyclic ∧
      g'.acts = g₀.acts ∧ Ends g' g₀.methodList startMethod finishMethod ∧ OrderedSets g' ∧
      Unlinked g' ∧ ∀ m ∈ g₀.methodList,
        (g'.methods m).orderingPoints = (g₀.methods m).orderingPoints := by
  obtain ⟨g₂,hresult,hcyc,hadds₂⟩ := addFakeMethods_adds startMethod finishMethod g
  rw [hadds.methodList] at hadds₂
  set g₁ := g.withFakeMethods startMethod finishMethod with hg₁
  have hlist₂ : g₂.methodList = g₀.methodList := hadds₂.methodList.trans hadds.methodList
  rw [hlist₂] at hresult
  have hstart₁ : g₁.methods startMethod = { name := .start } := by
    rw [hg₁,withFakeMethods,modify_of_ne _ _ hnew.ne,modify_self]
  have hfinish₁ : g₁.methods finishMethod = { name := .finish } := by
    rw [hg₁,withFakeMethods,modify_self]
  have hother₁ : ∀ m ∈ g₀.methodList, g₁.methods m = g.methods m := by
    intro m hm
    have hms : m ≠ startMethod := ne_of_mem_of_not_mem hm hnew.start
    have hmf : m ≠ finishMethod := ne_of_mem_of_not_mem hm hnew.finish
    rw [hg₁,withFakeMethods,modify_of_ne _ _ hmf,modify_of_ne _ _ hms]
  have hname : ∀ m ∈ g₀.methodList, (g₂.methods m).name = (g₀.methods m).name := by
    intro m hm
    rw [hadds₂.name,hother₁ m hm,hadds.name]
  have hOPs : ∀ m ∈ g₀.methodList,
      (g₂.methods m).orderingPoints = (g₀.methods m).orderingPoints := by
    intro m hm
    rw [hadds₂.orderingPoints,hother₁ m hm,hadds.orderingPoints]
  have hacts : g₂.acts = g₀.acts := hadds₂.acts.trans hadds.acts
  set g' : ExecutionGraph :=
    { g₂ with methodList := startMethod :: g₀.methodList ++ [finishMethod] } with hg'
  have hordered : ∀ x y, g'.Ordered g₀.methodList x y ↔ g₀.Ordered g₀.methodList x y :=
    fun x y => ordered_congr fun x hx y hy =>
      conflictVal_congr hacts (hname x hx) (hname y hy) (hOPs x hx) (hOPs y hy)
  have hends : Ends g' g₀.methodList startMethod finishMethod := by
    refine ⟨rfl,?_,?_,?_,?_,?_,?_⟩
    · have hdisj : ∀ m ∈ g₀.methodList, m ≠ finishMethod :=
        fun m hm => ne_of_mem_of_not_mem hm hnew.finish
      change (startMethod :: g₀.methodList ++ [finishMethod]).Nodup
      simp only [List.cons_append,List.nodup_cons,List.mem_append,List.mem_singleton,not_or,
        List.nodup_append]
      exact ⟨⟨hnew.start,hnew.ne⟩,hext.nodup,
        by simp,fun m hm n hn => by simpa using hn ▸ hdisj m hm⟩
    · exact (hadds₂.name _).trans (by rw [hstart₁])
    · exact (hadds₂.orderingPoints _).trans (by rw [hstart₁])
    · exact (hadds₂.name _).trans (by rw [hfinish₁])
    · exact (hadds₂.orderingPoints _).trans (by rw [hfinish₁])
    · intro m hm
      obtain ⟨label,begin,OPs,hfresh⟩ := hext.fresh m hm
      have hlabel : (g'.methods m).name = .interface label := (hname m hm).trans (by rw [hfresh])
      constructor <;> rw [hlabel] <;> simp
  have hmem : ∀ x, x ∈ g'.methodList ↔ x = startMethod ∨ x ∈ g₀.methodList ∨ x = finishMethod := by
    intro x
    rw [hends.methodList]
    simp
  -- the new objects have no edge yet, the others have those of the list
  have hnext₁ : ∀ x ∈ g'.methodList, ∀ y,
      y ∈ (g₁.methods x).allNext ↔ g₀.Ordered g₀.methodList x y := by
    intro x hx y
    rcases (hmem x).mp hx with rfl | hx | rfl
    · rw [hstart₁]
      simp only [MethodSet.not_mem_empty,false_iff]
      exact fun h => hnew.start h.mem.1
    · obtain ⟨label,begin,OPs,hfresh⟩ := hext.fresh x hx
      rw [hother₁ x hx,hadds.allNext,hfresh]
      simp
    · rw [hfinish₁]
      simp only [MethodSet.not_mem_empty,false_iff]
      exact fun h => hnew.finish h.mem.1
  have hprev₁ : ∀ x ∈ g'.methodList, ∀ y,
      y ∈ (g₁.methods x).allPrev ↔ g₀.Ordered g₀.methodList y x := by
    intro x hx y
    rcases (hmem x).mp hx with rfl | hx | rfl
    · rw [hstart₁]
      simp only [MethodSet.not_mem_empty,false_iff]
      exact fun h => hnew.start h.mem.2
    · obtain ⟨label,begin,OPs,hfresh⟩ := hext.fresh x hx
      rw [hother₁ x hx,hadds.allPrev,hfresh]
      simp
    · rw [hfinish₁]
      simp only [MethodSet.not_mem_empty,false_iff]
      exact fun h => hnew.finish h.mem.2
  refine ⟨g',hresult,hcyc,hacts,hends,⟨?_,?_⟩,?_,hOPs⟩
  · intro x hx y
    rw [hends.ordered_iff,hordered]
    refine (hadds₂.allNext x y).trans ?_
    rw [hnext₁ x hx]
    tauto
  · intro x hx y
    rw [hends.ordered_iff,hordered]
    refine (hadds₂.allPrev x y).trans ?_
    rw [hprev₁ x hx]
    tauto
  · intro x hx
    change (g₂.methods x).prev = _ ∧ (g₂.methods x).next = _ ∧ (g₂.methods x).concurrent = _
    rw [hadds₂.prev,hadds₂.next,hadds₂.concurrent]
    rcases (hmem x).mp hx with rfl | hx | rfl
    · rw [hstart₁]
      exact ⟨rfl,rfl,rfl⟩
    · obtain ⟨label,begin,OPs,hfresh⟩ := hext.fresh x hx
      rw [hother₁ x hx,hadds.prev,hadds.next,hadds.concurrent,hfresh]
      exact ⟨rfl,rfl,rfl⟩
    · rw [hfinish₁]
      exact ⟨rfl,rfl,rfl⟩

/-! ### The direct edges -/

/-- The direct edges of `P` and the concurrent pairs of `C` are added. -/
structure Links (g g' : ExecutionGraph) (P C : Method → Method → Prop) : Prop
    extends SameCalls g g' where
  cyclic : g'.cyclic = g.cyclic
  allNext : ∀ m, (g'.methods m).allNext = (g.methods m).allNext
  allPrev : ∀ m, (g'.methods m).allPrev = (g.methods m).allPrev
  prev : ∀ x y, y ∈ (g'.methods x).prev ↔ y ∈ (g.methods x).prev ∨ P x y
  next : ∀ x y, y ∈ (g'.methods x).next ↔ y ∈ (g.methods x).next ∨ P y x
  concurrent : ∀ x y, y ∈ (g'.methods x).concurrent ↔ y ∈ (g.methods x).concurrent ∨ C x y

theorem Links.refl (g : ExecutionGraph) : Links g g (fun _ _ => False) fun _ _ => False :=
  ⟨SameCalls.refl g,rfl,fun _ => rfl,fun _ => rfl,by simp,by simp,by simp⟩

theorem Links.trans {P C Q D : Method → Method → Prop} (h : Links g g' P C)
    (h' : Links g' g'' Q D) :
    Links g g'' (fun x y => P x y ∨ Q x y) fun x y => C x y ∨ D x y where
  toSameCalls := h.toSameCalls.trans h'.toSameCalls
  cyclic := h'.cyclic.trans h.cyclic
  allNext m := (h'.allNext m).trans (h.allNext m)
  allPrev m := (h'.allPrev m).trans (h.allPrev m)
  prev x y := by rw [h'.prev,h.prev,or_assoc]
  next x y := by rw [h'.next,h.next,or_assoc]
  concurrent x y := by rw [h'.concurrent,h.concurrent,or_assoc]

theorem Links.congr {P C Q D : Method → Method → Prop} (h : Links g g' P C)
    (hP : ∀ x y, P x y ↔ Q x y) (hC : ∀ x y, C x y ↔ D x y) : Links g g' Q D where
  toSameCalls := h.toSameCalls
  cyclic := h.cyclic
  allNext := h.allNext
  allPrev := h.allPrev
  prev x y := by rw [h.prev,hP]
  next x y := by rw [h.next,hP]
  concurrent x y := by rw [h.concurrent,hC]

/-- A loop adds what its turns add. The turns may look at the sets that no turn changes. -/
theorem Links.foldl {α : Type} {f : ExecutionGraph → α → ExecutionGraph}
    {P C : α → Method → Method → Prop} {l : List α}
    (hturn : ∀ g' Q D, Links g g' Q D → ∀ a ∈ l, Links g' (f g' a) (P a) (C a)) :
    Links g (l.foldl f g) (fun x y => ∃ a ∈ l, P a x y) fun x y => ∃ a ∈ l, C a x y := by
  suffices hrest : ∀ l' ⊆ l, ∀ g' Q D, Links g g' Q D →
      Links g' (l'.foldl f g') (fun x y => ∃ a ∈ l', P a x y) fun x y => ∃ a ∈ l', C a x y from
    hrest l (fun _ h => h) g _ _ (Links.refl g)
  intro l'
  induction l' with
  | nil =>
    intro _ g' Q D _
    exact (Links.refl g').congr (by simp) (by simp)
  | cons a l' ih =>
    intro hsub g' Q D hlinks
    have hfirst := hturn g' Q D hlinks a (hsub (List.mem_cons_self ..))
    have hrest := ih (fun _ h => hsub (List.mem_cons_of_mem _ h)) _ _ _ (hlinks.trans hfirst)
    exact (hfirst.trans hrest).congr (by simp) (by simp)

/-- The one before with none between. -/
def DirectPrev (g : ExecutionGraph) (m prevMethod : Method) : Prop :=
  prevMethod ∈ (g.methods m).allPrev ∧
    ∀ q ∈ (g.methods m).allPrev, q ∉ (g.methods prevMethod).allNext

def IsConcurrent (g : ExecutionGraph) (m concur : Method) : Prop :=
  concur ∈ g.methodList ∧ concur ≠ m ∧ concur ∉ (g.methods m).allPrev ∧
    concur ∉ (g.methods m).allNext

theorem linkPrev_links (g : ExecutionGraph) (m prevMethod : Method) :
    Links g (linkPrev m g prevMethod)
      (fun x y => x = m ∧ y = prevMethod ∧
        ∀ q ∈ (g.methods m).allPrev, q ∉ (g.methods prevMethod).allNext) fun _ _ => False := by
  unfold linkPrev
  split
  · rename_i hdisj
    have hdisj := MethodSet.disjoint_iff.mp hdisj
    -- the two updates as one, with the cases for each record
    have hmethods : ∀ x, ((g.modify m fun c => { c with prev := c.prev.insert prevMethod }).modify
        prevMethod fun c => { c with next := c.next.insert m }).methods x = {
          g.methods x with
          prev := if x = m then (g.methods x).prev.insert prevMethod else (g.methods x).prev
          next := if x = prevMethod then (g.methods x).next.insert m else (g.methods x).next } := by
      intro x
      by_cases h1 : x = m <;> by_cases h2 : x = prevMethod
      · subst h1 h2
        simp
      · subst h1
        rw [modify_of_ne _ _ h2]
        simp [h2]
      · subst h2
        rw [modify_self,modify_of_ne _ _ h1]
        simp [h1]
      · rw [modify_of_ne _ _ h2,modify_of_ne _ _ h1]
        simp [h1,h2]
    refine ⟨⟨rfl,rfl,rfl,fun x => by rw [hmethods],fun x => by rw [hmethods]⟩,rfl,
      fun x => by rw [hmethods],fun x => by rw [hmethods],fun x y => ?_,fun x y => ?_,
      fun x y => by rw [hmethods,or_false]⟩
    · rw [hmethods]
      by_cases hx : x = m
      · subst hx
        simp only [if_true,MethodSet.mem_insert,true_and,and_iff_left hdisj]
      · simp [hx]
    · rw [hmethods]
      by_cases hx : x = prevMethod
      · subst hx
        simp only [if_true,MethodSet.mem_insert,and_true,and_iff_left hdisj]
      · simp [hx]
  · rename_i hdisj
    rw [MethodSet.disjoint_iff] at hdisj
    exact (Links.refl g).congr (by simp [hdisj]) (by simp)

theorem linkConcurrent_links (g : ExecutionGraph) (m concur : Method) :
    Links g (linkConcurrent m g concur) (fun _ _ => False) fun x y => x = m ∧ y = concur ∧
      concur ≠ m ∧ concur ∉ (g.methods m).allPrev ∧ concur ∉ (g.methods m).allNext := by
  unfold linkConcurrent
  split
  · rename_i hconcur
    have hmethods : ∀ x, (g.modify m fun c => { c with
        concurrent := c.concurrent.insert concur }).methods x = {
          g.methods x with
          concurrent := if x = m then (g.methods x).concurrent.insert concur
            else (g.methods x).concurrent } := by
      intro x
      by_cases h1 : x = m
      · subst h1
        simp
      · rw [modify_of_ne _ _ h1]
        simp [h1]
    refine ⟨⟨rfl,rfl,rfl,fun x => by rw [hmethods],fun x => by rw [hmethods]⟩,rfl,
      fun x => by rw [hmethods],fun x => by rw [hmethods],fun x y => by rw [hmethods,or_false],
      fun x y => by rw [hmethods,or_false],fun x y => ?_⟩
    rw [hmethods]
    by_cases hx : x = m
    · subst hx
      simp only [if_true,MethodSet.mem_insert,true_and,and_iff_left hconcur]
    · simp [hx]
  · rename_i hconcur
    exact (Links.refl g).congr (by simp) (by simp [hconcur])

theorem linkMethod_links (g : ExecutionGraph) (m : Method) :
    Links g (linkMethod g m) (fun x y => x = m ∧ g.DirectPrev x y) fun x y =>
      x = m ∧ g.IsConcurrent x y := by
  have hprev : Links g ((g.methods m).allPrev.toList.foldl (linkPrev m) g)
      (fun x y => x = m ∧ g.DirectPrev x y) fun _ _ => False := by
    have hfold := Links.foldl (l := (g.methods m).allPrev.toList)
      fun g' Q D (hlinks : Links g g' Q D) prevMethod _ => by
        have hturn := linkPrev_links g' m prevMethod
        rw [hlinks.allPrev,hlinks.allNext] at hturn
        exact hturn
    refine hfold.congr (fun x y => ?_) (by simp)
    unfold DirectPrev
    constructor
    · rintro ⟨p,hp,rfl,rfl,hdisj⟩
      exact ⟨rfl,hp,hdisj⟩
    · rintro ⟨rfl,hy,hdisj⟩
      exact ⟨y,hy,rfl,rfl,hdisj⟩
  set g₁ := (g.methods m).allPrev.toList.foldl (linkPrev m) g
  have hconcur : Links g₁ (g₁.methodList.foldl (linkConcurrent m) g₁) (fun _ _ => False)
      fun x y => x = m ∧ g₁.IsConcurrent x y := by
    have hfold := Links.foldl (l := g₁.methodList)
      fun g' Q D (hlinks : Links g₁ g' Q D) concur _ => by
        have hturn := linkConcurrent_links g' m concur
        rw [hlinks.allPrev,hlinks.allNext] at hturn
        exact hturn
    refine hfold.congr (by simp) fun x y => ?_
    unfold IsConcurrent
    constructor
    · rintro ⟨c,hc,rfl,rfl,hconcur⟩
      exact ⟨rfl,hc,hconcur⟩
    · rintro ⟨rfl,hy,hconcur⟩
      exact ⟨y,hy,rfl,rfl,hconcur⟩
  refine (hprev.trans hconcur).congr (by simp) fun x y => ?_
  unfold IsConcurrent
  rw [hprev.methodList,hprev.allPrev,hprev.allNext,false_or]

/-- The edge sets of a graph that is built. -/
structure Linked (g : ExecutionGraph) : Prop extends OrderedSets g where
  prev : ∀ x ∈ g.methodList, ∀ y, y ∈ (g.methods x).prev ↔ g.DirectPrev x y
  next : ∀ x ∈ g.methodList, ∀ y, y ∈ (g.methods x).next ↔ y ∈ g.methodList ∧ g.DirectPrev y x
  concurrent : ∀ x ∈ g.methodList, ∀ y, y ∈ (g.methods x).concurrent ↔ g.IsConcurrent x y

theorem foldl_linkMethod_links (g : ExecutionGraph) :
    Links g (g.methodList.foldl linkMethod g) (fun x y => x ∈ g.methodList ∧ g.DirectPrev x y)
      fun x y => x ∈ g.methodList ∧ g.IsConcurrent x y := by
  have hfold := Links.foldl fun g' Q D (hlinks : Links g g' Q D) m (_ : m ∈ g.methodList) => by
    have hturn := linkMethod_links g' m
    unfold DirectPrev IsConcurrent at hturn
    simp only [hlinks.allPrev,hlinks.allNext,hlinks.methodList] at hturn
    exact hturn
  refine hfold.congr (fun x y => ?_) fun x y => ?_
  · constructor
    · rintro ⟨m,hm,rfl,h⟩
      exact ⟨hm,h⟩
    · rintro ⟨hx,h⟩
      exact ⟨x,hx,rfl,h⟩
  · constructor
    · rintro ⟨m,hm,rfl,h⟩
      exact ⟨hm,h⟩
    · rintro ⟨hx,h⟩
      exact ⟨x,hx,rfl,h⟩

theorem linked_foldl (hsets : OrderedSets g) (hunlinked : Unlinked g) :
    Linked (g.methodList.foldl linkMethod g) := by
  have hfold := foldl_linkMethod_links g
  set g' := g.methodList.foldl linkMethod g
  have hordered : ∀ l, g'.Ordered l = g.Ordered l := hfold.toSameCalls.ordered
  have hdirect : ∀ x y, g'.DirectPrev x y ↔ g.DirectPrev x y := by
    intro x y
    unfold DirectPrev
    rw [hfold.allPrev,hfold.allNext]
  refine ⟨⟨?_,?_⟩,?_,?_,?_⟩
  · intro x hx y
    rw [hfold.methodList] at hx ⊢
    rw [hfold.allNext,hordered]
    exact hsets.allNext x hx y
  · intro x hx y
    rw [hfold.methodList] at hx ⊢
    rw [hfold.allPrev,hordered]
    exact hsets.allPrev x hx y
  · intro x hx y
    rw [hfold.methodList] at hx
    rw [hfold.prev,(hunlinked x hx).1,hdirect]
    simp [hx]
  · intro x hx y
    rw [hfold.methodList] at hx ⊢
    rw [hfold.next,(hunlinked x hx).2.1,hdirect]
    simp
  · intro x hx y
    rw [hfold.methodList] at hx
    rw [hfold.concurrent,(hunlinked x hx).2.2]
    unfold IsConcurrent
    rw [hfold.methodList,hfold.allPrev,hfold.allNext]
    simp [hx]

/-- The graph that `buildEdges` checks. -/
structure Built (g₀ g : ExecutionGraph) (startMethod finishMethod : Method) : Prop
    extends Linked g where
  ends : Ends g g₀.methodList startMethod finishMethod
  acts : g.acts = g₀.acts
  orderingPoints : ∀ m ∈ g₀.methodList, (g.methods m).orderingPoints = (g₀.methods m).orderingPoints
  noSelfCycle : ∀ x y, [x,y].Sublist g₀.methodList → g.conflictVal x y ≠ .selfCycle

/-- Where no pair is in a self cycle the sets are what they should be. -/
theorem linkEdges_spec (hext : g.Extracted) (hnew : g.NewFake startMethod finishMethod) :
    ∃ g', g.linkEdges startMethod finishMethod = .ok g' ∧
      (g'.cyclic = false → Built g g' startMethod finishMethod) := by
  obtain ⟨g₁,horder,hsame,-,hadds⟩ := orderMethods_spec (g := g) hext.nodup
  refine ⟨_,bind_eq_ok.mpr ⟨g₁,horder,rfl⟩,fun hfalse => ?_⟩
  have hlinks := foldl_linkMethod_links (g₁.addFakeMethods startMethod finishMethod)
  have hfalse₁ : g₁.cyclic = false := by
    obtain ⟨g₂,hresult,hcyc,-⟩ := addFakeMethods_adds startMethod finishMethod g₁
    rw [← hcyc,← hfalse,hlinks.cyclic,hresult]
  obtain ⟨hself,hadds⟩ := hadds hfalse₁
  obtain ⟨g₂,hfake,-,hacts,hends,hsets,hunlinked,hOPs⟩ := addFakeMethods_spec hext hnew hadds
  rw [hfake] at hlinks ⊢
  refine ⟨linked_foldl hsets hunlinked,?_,hlinks.acts.trans hacts,?_,?_⟩
  · refine ⟨hlinks.methodList.trans hends.methodList,?_,(hlinks.name _).trans hends.start,
      (hlinks.orderingPoints _).trans hends.startOPs,(hlinks.name _).trans hends.finish,
      (hlinks.orderingPoints _).trans hends.finishOPs,fun m hm => ?_⟩
    · rw [hlinks.methodList]
      exact hends.nodup
    · rw [Interface,hlinks.name]
      exact hends.interface m hm
  · intro m hm
    exact (hlinks.orderingPoints m).trans (hOPs m hm)
  · intro x y hxy
    have hx : x ∈ g.methodList := hxy.subset (by simp)
    have hy : y ∈ g.methodList := hxy.subset (by simp)
    have hinterface : ∀ m ∈ g.methodList, g.Interface m := by
      intro m hm
      obtain ⟨label,begin,OPs,hfresh⟩ := hext.fresh m hm
      rw [Interface,hfresh]
      simp
    rw [hlinks.toSameCalls.conflictVal,conflictVal_eq (hends.interface x hx) (hends.interface y hy),
      hacts,hOPs x hx,hOPs y hy,← conflictVal_eq (hinterface x hx) (hinterface y hy)]
    exact hself x y hxy

end ExecutionGraph
end CdsChecker
