import CdsChecker.EdgeAsserts
import CdsChecker.Library.ChainWalk

/-! The walk to the justified method call before each method call. -/
namespace CdsChecker.ExecutionGraph

open Relation

variable {g₀ g g' : ExecutionGraph} {startMethod finishMethod m x y j : Method} {fuel : ℕ}

/-- `*setIt`, where the set is not empty. -/
def firstPrev (g : ExecutionGraph) (x : Method) : Option Method := (g.methods x).prev.toList.head?

/-- It is ordered with all that is before `m`. -/
def Justifies (g : ExecutionGraph) (m y : Method) : Prop :=
  ∀ c ∈ (g.methods y).concurrent, c ∉ (g.methods m).allPrev

theorem findJustified_succ : g.findJustified m (fuel + 1) x = .ok j ↔
    ∃ y, g.firstPrev x = some y ∧ (g.Justifies m y ∧ j = y ∨
      ¬g.Justifies m y ∧ g.findJustified m fuel y = .ok j) := by
  rw [findJustified,firstPrev]
  cases (g.methods x).prev.toList with
  | nil => simp
  | cons first rest =>
    simp only [List.head?_cons,Option.some.injEq,exists_eq_left',Justifies,
      ← MethodSet.disjoint_iff]
    by_cases hdisj : (g.methods first).concurrent.disjoint (g.methods m).allPrev = true
    · rw [if_pos hdisj]
      simp [hdisj,eq_comm]
    · rw [if_neg hdisj]
      simp [hdisj]

theorem findJustified_pass (hfirst : g.firstPrev x = some y) (hnot : ¬g.Justifies m y) :
    g.findJustified m (fuel + 1) x = g.findJustified m fuel y := by
  rw [findJustified]
  rw [firstPrev] at hfirst
  cases hprev : (g.methods x).prev.toList with
  | nil =>
    rw [hprev] at hfirst
    cases hfirst
  | cons first rest =>
    rw [hprev] at hfirst
    cases hfirst
    exact if_neg fun hdisj => hnot (MethodSet.disjoint_iff.mp hdisj)

theorem reaches_of_findJustified (h : g.findJustified m fuel x = .ok j) :
    Reaches g.firstPrev (g.Justifies m) x j := by
  induction fuel generalizing x with
  | zero => cases h
  | succ fuel ih =>
    obtain ⟨y,hfirst,⟨hjust,rfl⟩ | ⟨hnot,hrest⟩⟩ := findJustified_succ.mp h
    · exact .found hfirst hjust
    · exact .pass ⟨hfirst,hnot⟩ (ih hrest)

theorem findJustified_mono {fuel' : ℕ} (hle : fuel ≤ fuel') (h : g.findJustified m fuel x = .ok j) :
    g.findJustified m fuel' x = .ok j := by
  induction fuel generalizing x fuel' with
  | zero => cases h
  | succ fuel ih =>
    cases fuel' with
    | zero => omega
    | succ fuel' =>
      obtain ⟨y,hfirst,hcase⟩ := findJustified_succ.mp h
      refine findJustified_succ.mpr ⟨y,hfirst,hcase.imp_right fun hrest => ?_⟩
      exact ⟨hrest.1,ih (Nat.le_of_succ_le_succ hle) hrest.2⟩

theorem exists_findJustified (h : Reaches g.firstPrev (g.Justifies m) x j) :
    ∃ fuel, g.findJustified m fuel x = .ok j := by
  induction h with
  | found hfirst hjust => exact ⟨1,findJustified_succ.mpr ⟨_,hfirst,.inl ⟨hjust,rfl⟩⟩⟩
  | pass hpass _ ih =>
    obtain ⟨fuel,hfind⟩ := ih
    exact ⟨fuel + 1,findJustified_succ.mpr ⟨_,hpass.1,.inr ⟨hpass.2,hfind⟩⟩⟩

/-! ### The loop over the method calls -/

/-- The edge sets are not touched. -/
structure SameSets (g g' : ExecutionGraph) : Prop where
  prev : ∀ m, (g'.methods m).prev = (g.methods m).prev
  concurrent : ∀ m, (g'.methods m).concurrent = (g.methods m).concurrent
  allPrev : ∀ m, (g'.methods m).allPrev = (g.methods m).allPrev

theorem SameSets.findJustified (h : SameSets g g') :
    g'.findJustified m fuel x = g.findJustified m fuel x := by
  induction fuel generalizing x with
  | zero => rfl
  | succ fuel ih =>
    rw [ExecutionGraph.findJustified,ExecutionGraph.findJustified,h.prev]
    cases (g.methods x).prev.toList with
    | nil => rfl
    | cons first rest =>
      dsimp only
      rw [h.concurrent,h.allPrev,ih]

theorem justifyMethod_eq_ok : g.justifyMethod fuel m = .ok g' ↔
    ∃ j, g.findJustified m fuel m = .ok j ∧ j ≠ m ∧
      g' = g.modify m fun c => { c with justifiedMethod := some j,justified := false } := by
  constructor
  · intro h
    obtain ⟨j,hfind,h⟩ := bind_eq_ok.mp h
    obtain ⟨_,hassert,h⟩ := bind_eq_ok.mp h
    exact ⟨j,hfind,of_decide_eq_true (assert_eq_ok.mp hassert),(pure_eq_ok.mp h).symm⟩
  · rintro ⟨j,hfind,hne,rfl⟩
    exact bind_eq_ok.mpr ⟨j,hfind,bind_eq_ok.mpr ⟨(),assert_eq_ok.mpr (decide_eq_true hne),rfl⟩⟩

theorem sameSets_modify (g : ExecutionGraph) (m j : Method) :
    SameSets g (g.modify m fun c => { c with justifiedMethod := some j,justified := false }) := by
  constructor <;> intro x <;> by_cases hx : x = m
  · subst hx
    rw [modify_self]
  · rw [modify_of_ne _ _ hx]
  · subst hx
    rw [modify_self]
  · rw [modify_of_ne _ _ hx]
  · subst hx
    rw [modify_self]
  · rw [modify_of_ne _ _ hx]

theorem foldlM_justifyMethod_spec {ms : List Method}
    (h : ms.foldlM (justifyMethod fuel) g = .ok g') :
    SameSets g g' ∧ (∀ x ∉ ms, g'.methods x = g.methods x) ∧ ∀ m ∈ ms,
      ∃ j, g.findJustified m fuel m = .ok j ∧ j ≠ m ∧ (g'.methods m).justifiedMethod = some j := by
  induction ms generalizing g with
  | nil =>
    cases h
    exact ⟨⟨fun _ => rfl,fun _ => rfl,fun _ => rfl⟩,fun _ _ => rfl,by simp⟩
  | cons m ms ih =>
    rw [List.foldlM_cons] at h
    obtain ⟨g₁,hfirst,hrest⟩ := bind_eq_ok.mp h
    obtain ⟨j,hfind,hne,rfl⟩ := justifyMethod_eq_ok.mp hfirst
    have hsame := sameSets_modify g m j
    obtain ⟨hsame',hother,hall⟩ := ih hrest
    have hall' : ∀ x ∈ ms, ∃ j, g.findJustified x fuel x = .ok j ∧ j ≠ x ∧
        (g'.methods x).justifiedMethod = some j := by
      intro x hx
      obtain ⟨k,hfind',hrest'⟩ := hall x hx
      rw [hsame.findJustified] at hfind'
      exact ⟨k,hfind',hrest'⟩
    refine ⟨⟨fun x => (hsame'.prev x).trans (hsame.prev x),
      fun x => (hsame'.concurrent x).trans (hsame.concurrent x),
      fun x => (hsame'.allPrev x).trans (hsame.allPrev x)⟩,fun x hx => ?_,fun x hx => ?_⟩
    · rw [List.mem_cons,not_or] at hx
      rw [hother x hx.2,modify_of_ne _ _ hx.1]
    · by_cases hin : x ∈ ms
      · exact hall' x hin
      · obtain rfl : x = m := (List.mem_cons.mp hx).resolve_right hin
        refine ⟨j,hfind,hne,?_⟩
        rw [hother x hin,modify_self]

theorem foldlM_justifyMethod_ok {ms : List Method}
    (h : ∀ m ∈ ms, ∃ j, g.findJustified m fuel m = .ok j ∧ j ≠ m) :
    ∃ g', ms.foldlM (justifyMethod fuel) g = .ok g' := by
  induction ms generalizing g with
  | nil => exact ⟨g,rfl⟩
  | cons m ms ih =>
    obtain ⟨j,hfind,hne⟩ := h m (List.mem_cons_self ..)
    have hsame := sameSets_modify g m j
    obtain ⟨g',hrest⟩ := ih fun x hx => by
      obtain ⟨k,hfind',hne'⟩ := h x (List.mem_cons_of_mem _ hx)
      exact ⟨k,hsame.findJustified.trans hfind',hne'⟩
    refine ⟨g',?_⟩
    rw [List.foldlM_cons]
    exact bind_eq_ok.mpr ⟨_,justifyMethod_eq_ok.mpr ⟨j,hfind,hne,rfl⟩,hrest⟩

/-! ### When the walks end -/

/-- The loop returns, and what it assigns is an ancestor that is ordered with all that is before the
method call. -/
def Justified (g : ExecutionGraph) : Prop :=
  ∃ fuel g', g.initializeJustifiedNode fuel = .ok g' ∧ ∀ m ∈ g.methodList.tail,
    ∃ j, (g'.methods m).justifiedMethod = some j ∧ TransGen (g.Ordered g.methodList) j m ∧
      ∀ c ∈ (g'.methods j).concurrent, c ∉ (g'.methods m).allPrev

/-- Going up the first elements of the `prev` sets from `m`, past method calls that do not justify
it, one comes to no empty set, not back to `m` and not round. -/
def Unstuck (g : ExecutionGraph) (m : Method) : Prop :=
  ∀ y, ReflTransGen (Passes g.firstPrev (g.Justifies m)) m y →
    g.firstPrev y ≠ none ∧ g.firstPrev y ≠ some m ∧
      ¬TransGen (Passes g.firstPrev (g.Justifies m)) y y

/-- The order of the method calls has no cycle. -/
def Acyclic (g : ExecutionGraph) : Prop := ∀ x, ¬TransGen (g.Ordered g.methodList) x x

namespace Built

variable (h : Built g₀ g startMethod finishMethod)

include h

theorem ordered_of_firstPrev (hx : x ∈ g.methodList) (hfirst : g.firstPrev x = some y) :
    g.Ordered g.methodList y x := by
  have hmem : y ∈ (g.methods x).prev := List.mem_of_head? hfirst
  exact (h.allPrev x hx y).mp ((h.prev x hx y).mp hmem).1

/-- No method call is concurrent with one before it. -/
theorem justifies_self (hm : m ∈ g.methodList) : g.Justifies m m := fun c hc =>
  ((h.concurrent m hm c).mp hc).2.2.1

theorem ordered_of_reaches (hx : x ∈ g.methodList)
    (hreach : Reaches g.firstPrev (g.Justifies m) x j) : TransGen (g.Ordered g.methodList) j x := by
  induction hreach with
  | found hfirst _ => exact .single (h.ordered_of_firstPrev hx hfirst)
  | pass hpass _ ih =>
    have hord := h.ordered_of_firstPrev hx hpass.1
    exact (ih hord.mem.1).tail hord

theorem ordered_of_passes (hm : x ∈ g.methodList)
    (hpath : ReflTransGen (Passes g.firstPrev (g.Justifies m)) x y) :
    ReflTransGen (g.Ordered g.methodList) y x ∧ y ∈ g.methodList := by
  induction hpath with
  | refl => exact ⟨.refl,hm⟩
  | tail _ hpass ih =>
    have hord := h.ordered_of_firstPrev ih.2 hpass.1
    exact ⟨.head hord ih.1,hord.mem.1⟩

/-- One walk ends, at another method call, exactly where it does not get stuck. -/
theorem reaches_iff_unstuck (hm : m ∈ g.methodList) :
    (∃ j, Reaches g.firstPrev (g.Justifies m) m j ∧ j ≠ m) ↔ g.Unstuck m := by
  have hclosed : ∀ x ∈ { x | x ∈ g.methodList }, ∀ y, g.firstPrev x = some y →
      y ∈ { x | x ∈ g.methodList } := fun x hx y hfirst => (h.ordered_of_firstPrev hx hfirst).mem.1
  have hfinite : { x | x ∈ g.methodList }.Finite := List.finite_toSet g.methodList
  constructor
  · rintro ⟨j,hreach,hne⟩ y hpath
    have hrest := hreach.tails hpath
    refine ⟨hrest.next_ne_none,fun hback => hne ?_,hrest.not_cycle⟩
    exact hrest.unique (.found hback (h.justifies_self hm))
  · intro hun
    obtain ⟨j,hreach⟩ := (CdsChecker.reaches_iff hfinite hclosed hm).mpr fun y hpath =>
      ⟨(hun y hpath).1,(hun y hpath).2.2⟩
    obtain ⟨y,hpath,hlast,-⟩ := hreach.last
    refine ⟨j,hreach,?_⟩
    rintro rfl
    exact (hun y hpath).2.1 hlast

omit h in
theorem exists_fuel {ms : List Method} (hall : ∀ m ∈ ms,
    ∃ j, Reaches g.firstPrev (g.Justifies m) m j ∧ j ≠ m) :
    ∃ fuel, ∀ m ∈ ms, ∃ j, g.findJustified m fuel m = .ok j ∧ j ≠ m := by
  induction ms with
  | nil => exact ⟨0,by simp⟩
  | cons m ms ih =>
    obtain ⟨fuel,hrest⟩ := ih fun x hx => hall x (List.mem_cons_of_mem _ hx)
    obtain ⟨j,hreach,hne⟩ := hall m (List.mem_cons_self ..)
    obtain ⟨fuel',hfind⟩ := exists_findJustified hreach
    refine ⟨max fuel fuel',List.forall_mem_cons.mpr ⟨?_,fun x hx => ?_⟩⟩
    · exact ⟨j,findJustified_mono (Nat.le_max_right ..) hfind,hne⟩
    · obtain ⟨k,hfind',hne'⟩ := hrest x hx
      exact ⟨k,findJustified_mono (Nat.le_max_left ..) hfind',hne'⟩

theorem tail_eq : g.methodList.tail = g₀.methodList ++ [finishMethod] := by
  rw [h.ends.methodList]
  rfl

theorem mem_tail : m ∈ g.methodList.tail ↔ m ∈ g.methodList ∧ m ≠ startMethod := by
  have hnodup := h.ends.nodup
  rw [h.ends.methodList,List.cons_append,List.nodup_cons] at hnodup
  rw [h.tail_eq,h.ends.methodList,List.cons_append,List.mem_cons]
  constructor
  · intro hm
    exact ⟨.inr hm,ne_of_mem_of_not_mem hm hnodup.1⟩
  · rintro ⟨rfl | hm,hne⟩
    · exact absurd rfl hne
    · exact hm

theorem justified_iff : g.Justified ↔ ∀ m ∈ g.methodList.tail, g.Unstuck m := by
  constructor
  · rintro ⟨fuel,g',hloop,-⟩ m hm
    obtain ⟨-,-,hall⟩ := foldlM_justifyMethod_spec hloop
    obtain ⟨j,hfind,hne,-⟩ := hall m hm
    exact (h.reaches_iff_unstuck (h.mem_tail.mp hm).1).mp ⟨j,reaches_of_findJustified hfind,hne⟩
  · intro hun
    obtain ⟨fuel,hfind⟩ := exists_fuel fun m hm =>
      (h.reaches_iff_unstuck (h.mem_tail.mp hm).1).mpr (hun m hm)
    obtain ⟨g',hloop⟩ := foldlM_justifyMethod_ok hfind
    obtain ⟨hsame,-,hall⟩ := foldlM_justifyMethod_spec hloop
    refine ⟨fuel,g',hloop,fun m hm => ?_⟩
    obtain ⟨j,hfindj,-,hassigned⟩ := hall m hm
    have hreach := reaches_of_findJustified hfindj
    obtain ⟨y,-,-,hjust⟩ := hreach.last
    refine ⟨j,hassigned,h.ordered_of_reaches (h.mem_tail.mp hm).1 hreach,?_⟩
    rw [hsame.concurrent,hsame.allPrev]
    exact hjust

/-- Nothing is concurrent with the start. -/
theorem justifies_start : g.Justifies m startMethod := by
  intro c hc
  obtain ⟨hcm,hne,-,hnext⟩ := (h.concurrent _ h.start_mem c).mp hc
  exact absurd ((h.allNext _ h.start_mem c).mpr (h.start_ordered hcm hne)) hnext

/-- Without a cycle there is a nearest one before each method call but the start. -/
theorem exists_directPrev (hacyclic : g.Acyclic) (hx : x ∈ g.methodList) (hne : x ≠ startMethod) :
    ∃ p, g.DirectPrev x p := by
  have hstart : startMethod ∈ (g.methods x).allPrev :=
    (h.allPrev x hx _).mpr (h.start_ordered hx hne)
  have hwf : WellFounded fun a b : { m // m ∈ g.methodList } =>
      TransGen (g.Ordered g.methodList) b.1 a.1 := by
    have hfinite : Finite { m // m ∈ g.methodList } := (List.finite_toSet g.methodList).to_subtype
    have htrans : IsTrans { m // m ∈ g.methodList } fun a b =>
        TransGen (g.Ordered g.methodList) b.1 a.1 := ⟨fun _ _ _ hab hbc => hbc.trans hab⟩
    have hirrefl : Std.Irrefl fun a b : { m // m ∈ g.methodList } =>
        TransGen (g.Ordered g.methodList) b.1 a.1 := ⟨fun a => hacyclic a.1⟩
    exact Finite.wellFounded_of_trans_of_irrefl _
  obtain ⟨p,hp,hmin⟩ := hwf.has_min { p | p.1 ∈ (g.methods x).allPrev }
    ⟨⟨startMethod,h.start_mem⟩,hstart⟩
  refine ⟨p.1,hp,fun q hq hqp => ?_⟩
  have hqx := (h.allPrev x hx q).mp hq
  exact hmin ⟨q,hqx.mem.1⟩ hq (.single ((h.allNext p.1 p.2 q).mp hqp))

theorem unstuck_of_acyclic (hacyclic : g.Acyclic) (hm : m ∈ g.methodList) (hne : m ≠ startMethod) :
    g.Unstuck m := by
  intro y hpath
  obtain ⟨hback,hy⟩ := h.ordered_of_passes hm hpath
  refine ⟨?_,fun hfirst => ?_,fun hcycle => ?_⟩
  · have hys : y ≠ startMethod := by
      rcases ReflTransGen.cases_tail hpath with rfl | ⟨z,-,hpass⟩
      · exact hne
      · rintro rfl
        exact hpass.2 h.justifies_start
    obtain ⟨p,hp⟩ := h.exists_directPrev hacyclic hy hys
    have hmem : p ∈ (g.methods y).prev := (h.prev y hy p).mpr hp
    rw [firstPrev,ne_eq,List.head?_eq_none_iff]
    exact List.ne_nil_of_mem hmem
  · exact hacyclic m (.head' (h.ordered_of_firstPrev hy hfirst) hback)
  · refine hacyclic y ?_
    suffices hpass : ∀ z, TransGen (Passes g.firstPrev (g.Justifies m)) y z →
        TransGen (g.Ordered g.methodList) z y ∧ z ∈ g.methodList from (hpass y hcycle).1
    intro z hz
    induction hz with
    | single hpass =>
      have hord := h.ordered_of_firstPrev hy hpass.1
      exact ⟨.single hord,hord.mem.1⟩
    | tail _ hpass ih =>
      have hord := h.ordered_of_firstPrev ih.2 hpass.1
      exact ⟨.head hord ih.1,hord.mem.1⟩

end Built

/-- The loop ends as it should exactly where no walk gets stuck, as in every order without a
cycle. -/
theorem linkEdges_justified_iff (hext : g.Extracted) (hnew : g.NewFake startMethod finishMethod) :
    ∃ g', g.linkEdges startMethod finishMethod = .ok g' ∧ (g'.cyclic = false →
      (g'.Justified ↔ ∀ m ∈ g'.methodList.tail, g'.Unstuck m) ∧
        (g'.Acyclic → ∀ m ∈ g'.methodList.tail, g'.Unstuck m)) := by
  obtain ⟨g',hlink,hbuilt⟩ := linkEdges_spec hext hnew
  refine ⟨g',hlink,fun hcyclic => ?_⟩
  have hb := hbuilt hcyclic
  refine ⟨hb.justified_iff,fun hacyclic m hm => ?_⟩
  exact hb.unstuck_of_acyclic hacyclic (hb.mem_tail.mp hm).1 (hb.mem_tail.mp hm).2

/-- Three threads, each of which stores and then reads what another one has stored. Each of their
method calls has both as its ordering points, so that they are ordered in a round, and no pair of
them is ordered both ways. A fourth thread has two more calls; the second one reads the store of
the third thread. -/
def threeRound : ExecutionGraph where
  acts := fun a => {
    type := if a < 4 ∨ a = 7 then .atomicWrite else .atomicRead
    order := if a < 4 ∨ a = 7 then .release else .acquire
    location := .object (if a < 4 then a else if a = 4 ∨ a = 8 then 3 else if a = 7 then 4 else
      a - 4)
    tid := if a < 4 then a else if a < 7 then a - 3 else 4
    seqNumber := a
    cv := ([⟨[]⟩,⟨[0,1]⟩,⟨[0,0,2]⟩,⟨[0,0,0,3]⟩,⟨[0,4,0,3]⟩,⟨[0,1,5]⟩,⟨[0,0,2,6]⟩,⟨[0,0,0,0,7]⟩,
      ⟨[0,0,0,3,8]⟩] : List ClockVector).getD a ⟨[]⟩ }
  methods := fun m => {
    name := .interface m
    orderingPoints := if m < 4 then [m,m + 3] else [m + 3] }
  methodList := [1,2,3,4,5]

theorem threeRound_extracted : threeRound.Extracted :=
  ⟨by decide,fun m _ => ⟨m,none,_,rfl⟩,rfl⟩

theorem threeRound_newFake : threeRound.NewFake 0 6 := ⟨by decide,by decide,by decide⟩

/-- No walk from the last call ends: it goes round for ever. -/
theorem threeRound_diverges : threeRound.Extracted ∧ threeRound.NewFake 0 6 ∧ threeRound.OneWay ∧
    ∃ g, threeRound.linkEdges 0 6 = .ok g ∧ g.cyclic = false ∧
      (∀ fuel, g.findJustified 5 fuel 5 = .error .diverges) ∧
      ∀ fuel g', g.initializeJustifiedNode fuel ≠ .ok g' := by
  have hone : threeRound.OneWay := by
    unfold OneWay
    decide
  have hsets : ∃ g, threeRound.linkEdges 0 6 = .ok g ∧ g.cyclic = false ∧ 5 ∈ g.methodList.tail ∧
      g.firstPrev 5 = some 3 ∧ g.firstPrev 3 = some 2 ∧ g.firstPrev 2 = some 1 ∧
      g.firstPrev 1 = some 3 ∧ (g.methods 1).concurrent.disjoint (g.methods 5).allPrev = false ∧
      (g.methods 2).concurrent.disjoint (g.methods 5).allPrev = false ∧
      (g.methods 3).concurrent.disjoint (g.methods 5).allPrev = false :=
    ⟨_,rfl,rfl,by decide,rfl,rfl,rfl,rfl,rfl,rfl,rfl⟩
  obtain ⟨g,hlink,hcyclic,htail,h5,h3,h2,h1,hd1,hd2,hd3⟩ := hsets
  have hnot : ∀ m, (g.methods m).concurrent.disjoint (g.methods 5).allPrev = false →
      ¬g.Justifies 5 m := by
    intro m hd hjust
    rw [MethodSet.disjoint_iff.mpr hjust] at hd
    cases hd
  have hwalk : ∀ fuel x, x = 5 ∨ x = 1 ∨ x = 2 ∨ x = 3 →
      g.findJustified 5 fuel x = .error .diverges := by
    intro fuel
    induction fuel with
    | zero => exact fun _ _ => rfl
    | succ fuel ih =>
      rintro x (rfl | rfl | rfl | rfl)
      · exact (findJustified_pass h5 (hnot 3 hd3)).trans (ih 3 (by simp))
      · exact (findJustified_pass h1 (hnot 3 hd3)).trans (ih 3 (by simp))
      · exact (findJustified_pass h2 (hnot 1 hd1)).trans (ih 1 (by simp))
      · exact (findJustified_pass h3 (hnot 2 hd2)).trans (ih 2 (by simp))
  refine ⟨threeRound_extracted,threeRound_newFake,hone,g,hlink,hcyclic,
    fun fuel => hwalk fuel 5 (.inl rfl),fun fuel g' hloop => ?_⟩
  obtain ⟨-,-,hall⟩ := foldlM_justifyMethod_spec hloop
  obtain ⟨j,hfind,-⟩ := hall 5 htail
  rw [hwalk fuel 5 (.inl rfl)] at hfind
  cases hfind

theorem linkEdges_justified_iff_twoPoints : twoPoints.Extracted ∧ twoPoints.NewFake 0 3 ∧
    ∃ g, twoPoints.linkEdges 0 3 = .ok g ∧ g.cyclic = false ∧ g.Acyclic ∧ g.Justified := by
  have hext : twoPoints.Extracted := ⟨by decide,fun m _ => ⟨m,none,[m],rfl⟩,rfl⟩
  have hnew : twoPoints.NewFake 0 3 := ⟨by decide,by decide,by decide⟩
  have hsets : ∃ g, twoPoints.linkEdges 0 3 = .ok g ∧ g.cyclic = false ∧
      ∀ x ∈ g.methodList, ∀ y ∈ (g.methods x).allNext.toList, x < y := ⟨_,rfl,rfl,by decide⟩
  obtain ⟨g,hlink,hiff⟩ := linkEdges_justified_iff hext hnew
  obtain ⟨g',hlink',hcyclic,hlt⟩ := hsets
  rw [hlink] at hlink'
  cases hlink'
  obtain ⟨g',hlink',hbuilt⟩ := linkEdges_spec hext hnew
  rw [hlink] at hlink'
  cases hlink'
  have hacyclic : g.Acyclic := by
    suffices hpath : ∀ x y, TransGen (g.Ordered g.methodList) x y → x < y from
      fun x hcycle => Nat.lt_irrefl x (hpath x x hcycle)
    intro x y hpath
    have hone : ∀ x y, g.Ordered g.methodList x y → x < y := fun x y hord =>
      hlt x hord.mem.1 y (((hbuilt hcyclic).allNext x hord.mem.1 y).mpr hord)
    induction hpath with
    | single hord => exact hone _ _ hord
    | tail _ hord ih => exact Nat.lt_trans ih (hone _ _ hord)
  exact ⟨hext,hnew,g,hlink,hcyclic,hacyclic,(hiff hcyclic).1.mpr ((hiff hcyclic).2 hacyclic)⟩

end CdsChecker.ExecutionGraph
