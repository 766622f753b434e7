import CdsChecker.MethodEdges

/-! When the assertions about the edges hold. -/
namespace CdsChecker

theorem foldlM_fixed {α σ : Type} {f : σ → α → Result σ} {s : σ} {l : List α}
    (h : ∀ a ∈ l, f s a = .ok s) : l.foldlM f s = .ok s := by
  induction l with
  | nil => rfl
  | cons a l ih =>
    rw [List.foldlM_cons]
    exact bind_eq_ok.mpr ⟨s,h a (List.mem_cons_self ..),
      ih fun b hb => h b (List.mem_cons_of_mem _ hb)⟩

/-- The direction that is asked for the other way round. -/
def Conflict.flip : Conflict → Conflict
  | .before => .after
  | .after => .before
  | .commute => .commute
  | .selfCycle => .selfCycle

namespace ExecutionGraph

variable {g₀ g : ExecutionGraph} {startMethod finishMethod x y : Method}

/-- Of the two orders in which the relation of two ordering points can be asked for, the one gives
the opposite of the other. -/
def OneWay (g : ExecutionGraph) : Prop :=
  ∀ m1 ∈ g.methodList, ∀ m2 ∈ g.methodList, m1 ≠ m2 →
    ∀ act1 ∈ (g.methods m1).orderingPoints, ∀ act2 ∈ (g.methods m2).orderingPoints,
      conflictActions (g.acts act1) (g.acts act2) = .commute ∨
        conflictActions (g.acts act1) (g.acts act2) ≠ conflictActions (g.acts act2) (g.acts act1)

theorem conflictActions_commute {act1 act2 : ModelAction} :
    conflictActions act1 act2 = .commute ↔ conflictActions act2 act1 = .commute := by
  suffices hone : ∀ a b : ModelAction, conflictActions a b = .commute →
      conflictActions b a = .commute from ⟨hone act1 act2,hone act2 act1⟩
  intro a b h
  unfold conflictActions at h ⊢
  split at h
  · cases h
  · split at h
    · cases h
    · split at h
      · split at h <;> cases h
      · rename_i hab hba hsc
        rw [if_neg hba,if_neg hab,if_neg]
        rwa [Bool.and_comm]

theorem conflictActions_flip {act1 act2 : ModelAction}
    (h : conflictActions act1 act2 = .commute ∨
      conflictActions act1 act2 ≠ conflictActions act2 act1) :
    conflictActions act2 act1 = Conflict.flip (conflictActions act1 act2) := by
  have hself1 : conflictActions act1 act2 ≠ .selfCycle := conflictActions_ne_selfCycle
  have hself2 : conflictActions act2 act1 ≠ .selfCycle := conflictActions_ne_selfCycle
  have hcomm : conflictActions act1 act2 = .commute ↔ conflictActions act2 act1 = .commute :=
    conflictActions_commute
  generalize conflictActions act1 act2 = r1 at *
  generalize conflictActions act2 act1 = r2 at *
  cases r1 <;> cases r2 <;> simp_all [Conflict.flip]

theorem conflictVal_flip {m1 m2 : Method} (h1 : g.Interface m1) (h2 : g.Interface m2)
    (hone : ∀ act1 ∈ (g.methods m1).orderingPoints, ∀ act2 ∈ (g.methods m2).orderingPoints,
      conflictActions (g.acts act2) (g.acts act1) =
        Conflict.flip (conflictActions (g.acts act1) (g.acts act2)))
    (hself : g.conflictVal m1 m2 ≠ .selfCycle) :
    g.conflictVal m2 m1 = Conflict.flip (g.conflictVal m1 m2) := by
  cases hval : g.conflictVal m1 m2 with
  | selfCycle => exact absurd hval hself
  | commute =>
    rw [conflictVal_eq_commute h1 h2] at hval
    refine (conflictVal_eq_commute h2 h1).mpr fun b hb a ha => ?_
    rw [hone a ha b hb,hval a ha b hb]
    rfl
  | before =>
    obtain ⟨hall,a,ha,b,hb,hab⟩ := (conflictVal_eq_iff h1 h2 (by simp) (by simp)).mp hval
    refine (conflictVal_eq_iff h2 h1 (by simp [Conflict.flip]) (by simp [Conflict.flip])).mpr
      ⟨fun b hb a ha => ?_,b,hb,a,ha,?_⟩
    · rw [hone a ha b hb]
      rcases hall a ha b hb with h | h
      · exact .inl (by rw [h]; rfl)
      · exact .inr (by rw [h])
    · rw [hone a ha b hb,hab]
  | after =>
    obtain ⟨hall,a,ha,b,hb,hab⟩ := (conflictVal_eq_iff h1 h2 (by simp) (by simp)).mp hval
    refine (conflictVal_eq_iff h2 h1 (by simp [Conflict.flip]) (by simp [Conflict.flip])).mpr
      ⟨fun b hb a ha => ?_,b,hb,a,ha,?_⟩
    · rw [hone a ha b hb]
      rcases hall a ha b hb with h | h
      · exact .inl (by rw [h]; rfl)
      · exact .inr (by rw [h])
    · rw [hone a ha b hb,hab]

namespace Built

variable (h : Built g₀ g startMethod finishMethod)

include h

theorem mem_methodList : x ∈ g.methodList ↔ x = startMethod ∨ x ∈ g₀.methodList ∨
    x = finishMethod := by
  rw [h.ends.methodList]
  simp

theorem flip (hone : g₀.OneWay) (hx : x ∈ g₀.methodList) (hy : y ∈ g₀.methodList) (hne : x ≠ y) :
    g.conflictVal y x = Conflict.flip (g.conflictVal x y) ∧ g.conflictVal x y ≠ .selfCycle := by
  have hflip : ∀ a ∈ g₀.methodList, ∀ b ∈ g₀.methodList, a ≠ b → [a,b].Sublist g₀.methodList →
      g.conflictVal b a = Conflict.flip (g.conflictVal a b) := by
    intro a ha b hb hab hsub
    refine conflictVal_flip (h.ends.interface a ha) (h.ends.interface b hb) ?_
      (h.noSelfCycle a b hsub)
    rw [h.acts,h.orderingPoints a ha,h.orderingPoints b hb]
    exact fun act1 h1 act2 h2 => conflictActions_flip (hone a ha b hb hab act1 h1 act2 h2)
  rcases pair_sublist_or hx hy hne with hsub | hsub
  · exact ⟨hflip x hx y hy hne hsub,h.noSelfCycle x y hsub⟩
  · have hyx := hflip y hy x hx hne.symm hsub
    have hself := h.noSelfCycle y x hsub
    rw [hyx]
    cases hval : g.conflictVal y x with
    | selfCycle => exact absurd hval hself
    | _ => simp [Conflict.flip]

theorem conflictVal_start (hx : x ∈ g.methodList) (hne : x ≠ startMethod) :
    g.conflictVal x startMethod = .commute := by
  have hname : (g.methods x).isStartMethod = false := by
    rcases h.mem_methodList.mp hx with rfl | hx | rfl
    · exact absurd rfl hne
    · exact beq_false_of_ne (h.ends.interface x hx).1
    · rw [MethodCall.isStartMethod,h.ends.finish]
      rfl
  have hname' : (g.methods startMethod).isFinishMethod = false := by
    rw [MethodCall.isFinishMethod,h.ends.start]
    rfl
  simp [conflictVal,hname,hname',h.ends.startOPs]

theorem conflictVal_finish (hx : x ∈ g.methodList) (hne : x ≠ finishMethod) :
    g.conflictVal finishMethod x = .commute := by
  have hname : (g.methods x).isFinishMethod = false := by
    rcases h.mem_methodList.mp hx with rfl | hx | rfl
    · rw [MethodCall.isFinishMethod,h.ends.start]
      rfl
    · exact beq_false_of_ne (h.ends.interface x hx).2
    · exact absurd rfl hne
  have hname' : (g.methods finishMethod).isStartMethod = false := by
    rw [MethodCall.isStartMethod,h.ends.finish]
    rfl
  simp [conflictVal,hname,hname',h.ends.finishOPs]

/-- The start and the finish are asked about as the first or the second argument. -/
theorem pair_cases (hx : x ∈ g.methodList) (hy : y ∈ g.methodList) (hne : x ≠ y) :
    (y = startMethod ∨ x = finishMethod) ∧ g.conflictVal x y = .commute ∨
      (x = startMethod ∨ x ∈ g₀.methodList ∧ y = finishMethod) ∧ g.conflictVal x y = .before ∨
      x ∈ g₀.methodList ∧ y ∈ g₀.methodList := by
  rcases h.mem_methodList.mp hx with rfl | hxl | rfl
  · exact .inr (.inl ⟨.inl rfl,ExecutionGraph.conflictVal_start h.ends.start⟩)
  · rcases h.mem_methodList.mp hy with rfl | hyl | rfl
    · exact .inl ⟨.inl rfl,h.conflictVal_start hx hne⟩
    · exact .inr (.inr ⟨hxl,hyl⟩)
    · exact .inr (.inl ⟨.inr ⟨hxl,rfl⟩,
        ExecutionGraph.conflictVal_finish h.ends.finish (h.ends.interface x hxl).1⟩)
  · exact .inl ⟨.inr rfl,h.conflictVal_finish hy hne.symm⟩

/-- The start has nothing before it, and the finish nothing behind it. -/
theorem not_ordered (hends : y = startMethod ∨ x = finishMethod) : ¬g.Ordered g.methodList x y := by
  have hnodup := h.ends.nodup
  rw [h.ends.methodList,List.cons_append,List.nodup_cons,List.nodup_append] at hnodup
  obtain ⟨hstart,-,-,hfinish⟩ := hnodup
  rw [h.ends.ordered_iff]
  rcases hends with rfl | rfl
  · rintro (hord | ⟨-,hl⟩ | ⟨-,rfl⟩ | ⟨-,rfl⟩)
    · exact hstart (List.mem_append_left _ hord.mem.2)
    · exact hstart (List.mem_append_left _ hl)
    · simp at hstart
    · simp at hstart
  · rintro (hord | ⟨rfl,-⟩ | ⟨hl,-⟩ | ⟨rfl,-⟩)
    · exact hfinish x hord.mem.1 x (by simp) rfl
    · simp at hstart
    · exact hfinish x hl x (by simp) rfl
    · simp at hstart

/-- What `conflict` says in the one order is what the sets say. -/
theorem ordered_iff (hone : g₀.OneWay) (hx : x ∈ g.methodList) (hy : y ∈ g.methodList)
    (hne : x ≠ y) :
    g.Ordered g.methodList x y ↔ g.conflictVal x y = .before := by
  rcases h.pair_cases hx hy hne with ⟨hends,hval⟩ | ⟨hends,hval⟩ | ⟨hxl,hyl⟩
  · rw [hval]
    simpa using h.not_ordered hends
  · rw [hval,h.ends.ordered_iff]
    rcases hends with rfl | ⟨hxl,rfl⟩
    · rcases h.mem_methodList.mp hy with rfl | hyl | rfl
      · exact absurd rfl hne
      · simp [hyl]
      · simp
    · simp [hxl]
  · obtain ⟨hflip,-⟩ := h.flip hone hxl hyl hne
    constructor
    · rintro (⟨-,hval⟩ | ⟨-,hval⟩)
      · exact hval
      · rw [hflip] at hval
        cases hxy : g.conflictVal x y with
        | before => rfl
        | _ => simp [hxy,Conflict.flip] at hval
    · intro hval
      rw [h.ends.ordered_iff]
      left
      rcases pair_sublist_or hxl hyl hne with hsub | hsub
      · exact .inl ⟨hsub,hval⟩
      · exact .inr ⟨hsub,by rw [hflip,hval]; rfl⟩

theorem ne_of_ordered (hord : g.Ordered g.methodList x y) : x ≠ y := by
  rintro rfl
  have hnodup := h.ends.nodup
  rcases hord with ⟨hsub,-⟩ | ⟨hsub,-⟩
  · exact pair_sublist_asymm hnodup hsub hsub
  · exact pair_sublist_asymm hnodup hsub hsub

/-- Not both before and after. -/
theorem ordered_asymm (hord : g.Ordered g.methodList x y) : ¬g.Ordered g.methodList y x := by
  have hnodup := h.ends.nodup
  intro hback
  rcases hord with ⟨hxy,hval⟩ | ⟨hyx,hval⟩
  · rcases hback with ⟨hyx,-⟩ | ⟨-,hval'⟩
    · exact pair_sublist_asymm hnodup hxy hyx
    · rw [hval] at hval'
      cases hval'
  · rcases hback with ⟨-,hval'⟩ | ⟨hxy,-⟩
    · rw [hval] at hval'
      cases hval'
    · exact pair_sublist_asymm hnodup hxy hyx

theorem not_selfCycle (hone : g₀.OneWay) (hx : x ∈ g.methodList) (hy : y ∈ g.methodList)
    (hne : x ≠ y) : g.conflictVal x y ≠ .selfCycle := by
  rcases h.pair_cases hx hy hne with ⟨-,hval⟩ | ⟨-,hval⟩ | ⟨hxl,hyl⟩
  · simp [hval]
  · simp [hval]
  · exact (h.flip hone hxl hyl hne).2

theorem concurrent_commute (hone : g₀.OneWay) (hx : x ∈ g.methodList) (hcon : g.IsConcurrent x y) :
    g.conflictVal x y = .commute := by
  obtain ⟨hy,hne,hprev,hnext⟩ := hcon
  rw [h.allPrev x hx,h.ordered_iff hone hy hx hne] at hprev
  rw [h.allNext x hx,h.ordered_iff hone hx hy hne.symm] at hnext
  rcases h.pair_cases hx hy hne.symm with ⟨-,hval⟩ | ⟨-,hval⟩ | ⟨hxl,hyl⟩
  · exact hval
  · exact absurd hval hnext
  · obtain ⟨hflip,hself⟩ := h.flip hone hxl hyl hne.symm
    cases hval : g.conflictVal x y with
    | commute => rfl
    | before => exact absurd hval hnext
    | selfCycle => exact absurd hval hself
    | after =>
      rw [hval] at hflip
      exact absurd hflip hprev

/-! ### The assertions -/

theorem assertConflict_ok (hone : g₀.OneWay) (hx : x ∈ g.methodList) (hy : y ∈ g.methodList)
    (hne : x ≠ y) {expected : Conflict → Bool} (hexp : expected (g.conflictVal x y) = true) :
    g.assertConflict x y expected = .ok g :=
  bind_eq_ok.mpr ⟨_,conflict_eq hne (h.not_selfCycle hone hx hy hne),
    bind_eq_ok.mpr ⟨(),assert_eq_ok.mpr hexp,rfl⟩⟩

theorem assertSound_ok (hone : g₀.OneWay) {arrange : Method → Method → Method × Method}
    {direct all : MethodSet} (hsub : ∀ z ∈ direct, z ∈ all) (hall : ∀ z ∈ all, z ∈ g.methodList)
    (harrange : ∀ z w, arrange z w = (z,w) ∨ arrange z w = (w,z))
    (hnone : ∀ z ∈ direct, ∀ w ∈ all, w ≠ z →
      g.conflictVal (arrange z w).1 (arrange z w).2 ≠ .before) :
    g.assertSound arrange direct all = .ok g := by
  refine foldlM_fixed fun z hz => bind_eq_ok.mpr
    ⟨(),assert_eq_ok.mpr (decide_eq_true (hsub z hz)),?_⟩
  refine foldlM_fixed fun w hw => ?_
  split
  · rfl
  · rename_i hne
    have hval := hnone z hz w hw hne
    rcases harrange z w with harr | harr
    · rw [harr] at hval ⊢
      exact h.assertConflict_ok hone (hall z (hsub z hz)) (hall w hw) (Ne.symm hne)
        (decide_eq_true hval)
    · rw [harr] at hval ⊢
      exact h.assertConflict_ok hone (hall w hw) (hall z (hsub z hz)) hne (decide_eq_true hval)

/-- The search for one between finds it where there is one. -/
theorem foldlM_findMiddle (hone : g₀.OneWay) {arrange : Method → Method → Method × Method}
    {z : Method} (hz : z ∈ g.methodList)
    (harrange : ∀ w, arrange z w = (z,w) ∨ arrange z w = (w,z)) {ws : List Method}
    (hws : ∀ w ∈ ws, w ∈ g.methodList) (has : Bool) :
    ∃ has', ws.foldlM (findMiddle arrange z) (has,g) = .ok (has',g) ∧ (has' = true ↔ has = true ∨
      ∃ w ∈ ws, w ≠ z ∧ g.conflictVal (arrange z w).1 (arrange z w).2 = .before) := by
  induction ws generalizing has with
  | nil => exact ⟨has,rfl,by simp⟩
  | cons w ws ih =>
    have hw := hws w (List.mem_cons_self ..)
    have hws' : ∀ w ∈ ws, w ∈ g.methodList := fun w hw => hws w (List.mem_cons_of_mem _ hw)
    by_cases hne : w = z
    · obtain ⟨has',hfold,hiff⟩ := ih hws' has
      refine ⟨has',?_,?_⟩
      · rw [List.foldlM_cons]
        refine bind_eq_ok.mpr ⟨(has,g),?_,hfold⟩
        rw [findMiddle,if_pos hne]
      · rw [hiff]
        simp [hne]
    · obtain ⟨has',hfold,hiff⟩ :=
        ih hws' (has || g.conflictVal (arrange z w).1 (arrange z w).2 == .before)
      refine ⟨has',?_,?_⟩
      · rw [List.foldlM_cons]
        refine bind_eq_ok.mpr ⟨_,?_,hfold⟩
        rw [findMiddle,if_neg hne]
        refine bind_eq_ok.mpr ⟨_,conflict_eq ?_ ?_,rfl⟩
        · rcases harrange w with harr | harr <;> rw [harr]
          · exact Ne.symm hne
          · exact hne
        · rcases harrange w with harr | harr <;> rw [harr]
          · exact h.not_selfCycle hone hz hw (Ne.symm hne)
          · exact h.not_selfCycle hone hw hz hne
      · rw [hiff]
        simp [hne,or_assoc]

theorem assertComplete_ok (hone : g₀.OneWay) {arrange : Method → Method → Method × Method}
    {direct all : MethodSet} (hall : ∀ z ∈ all, z ∈ g.methodList)
    (harrange : ∀ z w, arrange z w = (z,w) ∨ arrange z w = (w,z))
    (hmiddle : ∀ z ∈ all, z ∉ direct → ∃ w ∈ all, w ≠ z ∧
      g.conflictVal (arrange z w).1 (arrange z w).2 = .before) :
    g.assertComplete arrange direct all = .ok g := by
  refine foldlM_fixed fun z hz => ?_
  split
  · rfl
  · rename_i hnot
    obtain ⟨has,hfold,hiff⟩ := h.foldlM_findMiddle hone (hall z hz) (harrange z) hall false
    refine bind_eq_ok.mpr ⟨_,hfold,bind_eq_ok.mpr ⟨(),assert_eq_ok.mpr ?_,rfl⟩⟩
    exact hiff.mpr (.inr (hmiddle z hz hnot))

theorem length_sets (hx : x ∈ g.methodList) :
    1 + (g.methods x).allPrev.toList.length + (g.methods x).allNext.toList.length +
      (g.methods x).concurrent.toList.length = g.methodList.length := by
  set c := g.methods x
  have hperm : (x :: c.allPrev.toList ++ c.allNext.toList ++ c.concurrent.toList).Perm
    g.methodList := by
    have hprev : ∀ y, y ∈ c.allPrev.toList ↔ g.Ordered g.methodList y x := h.allPrev x hx
    have hnext : ∀ y, y ∈ c.allNext.toList ↔ g.Ordered g.methodList x y := h.allNext x hx
    have hcon : ∀ y, y ∈ c.concurrent.toList ↔ y ∈ g.methodList ∧ y ≠ x ∧
        y ∉ c.allPrev ∧ y ∉ c.allNext := h.concurrent x hx
    refine (List.perm_ext_iff_of_nodup ?_ h.ends.nodup).mpr fun y => ?_
    · refine List.nodup_append.mpr ⟨List.nodup_append.mpr ⟨List.nodup_cons.mpr ⟨?_,c.allPrev.nodup⟩,
        c.allNext.nodup,?_⟩,c.concurrent.nodup,?_⟩
      · intro hself
        exact h.ne_of_ordered ((hprev x).mp hself) rfl
      · rintro y hy z hz rfl
        rcases List.mem_cons.mp hy with rfl | hy
        · exact h.ne_of_ordered ((hnext y).mp hz) rfl
        · exact h.ordered_asymm ((hprev y).mp hy) ((hnext y).mp hz)
      · rintro y hy z hz rfl
        obtain ⟨-,hne,hp,hn⟩ := (hcon y).mp hz
        rcases List.mem_append.mp hy with hy | hy
        · rcases List.mem_cons.mp hy with rfl | hy
          · exact hne rfl
          · exact hp hy
        · exact hn hy
    · simp only [List.mem_append,List.mem_cons,hprev,hnext,hcon,← MethodSet.mem_toList]
      constructor
      · rintro (((rfl | hord) | hord) | ⟨hy,-⟩)
        · exact hx
        · exact hord.mem.1
        · exact hord.mem.2
        · exact hy
      · intro hy
        tauto
  rw [← hperm.length_eq]
  simp only [List.length_append,List.length_cons]
  omega

theorem assertMethod_ok (hone : g₀.OneWay) (hx : x ∈ g.methodList) : g.assertMethod x = .ok g := by
  have hprev := h.allPrev x hx
  have hnext := h.allNext x hx
  refine bind_eq_ok.mpr ⟨g,foldlM_fixed fun p hp => ?_,bind_eq_ok.mpr
    ⟨g,foldlM_fixed fun n hn => ?_,
    bind_eq_ok.mpr ⟨g,foldlM_fixed fun c hc => ?_,bind_eq_ok.mpr ⟨(),assert_eq_ok.mpr ?_,
    bind_eq_ok.mpr ⟨g,?_,bind_eq_ok.mpr ⟨g,?_,bind_eq_ok.mpr ⟨g,?_,?_⟩⟩⟩⟩⟩⟩⟩
  · have hord := (hprev p).mp hp
    have hne := h.ne_of_ordered hord
    exact h.assertConflict_ok hone hord.mem.1 hx hne
      (decide_eq_true ((h.ordered_iff hone hord.mem.1 hx hne).mp hord))
  · have hord := (hnext n).mp hn
    have hne := h.ne_of_ordered hord
    exact h.assertConflict_ok hone hx hord.mem.2 hne
      (decide_eq_true ((h.ordered_iff hone hx hord.mem.2 hne).mp hord))
  · have hcon := (h.concurrent x hx c).mp hc
    exact h.assertConflict_ok hone hx hcon.1 (Ne.symm hcon.2.1)
      (decide_eq_true (h.concurrent_commute hone hx hcon))
  · exact decide_eq_true (h.length_sets hx)
  · refine h.assertSound_ok hone (fun p hp => ((h.prev x hx p).mp hp).1)
      (fun p hp => ((hprev p).mp hp).mem.1) (fun _ _ => .inl rfl) fun p hp q hq hne hval => ?_
    obtain ⟨hpx,hnone⟩ := (h.prev x hx p).mp hp
    have hp' := ((hprev p).mp hpx).mem.1
    have hq' := ((hprev q).mp hq).mem.1
    exact hnone q hq ((h.allNext p hp' q).mpr ((h.ordered_iff hone hp' hq' (Ne.symm hne)).mpr hval))
  · refine h.assertComplete_ok hone (fun p hp => ((hprev p).mp hp).mem.1) (fun _ _ => .inl rfl)
      fun p hp hnot => ?_
    have hp' := ((hprev p).mp hp).mem.1
    rw [h.prev x hx,DirectPrev] at hnot
    push Not at hnot
    obtain ⟨q,hq,hqp⟩ := hnot hp
    have hord := (h.allNext p hp' q).mp hqp
    have hne := h.ne_of_ordered hord
    exact ⟨q,hq,Ne.symm hne,(h.ordered_iff hone hp' hord.mem.2 hne).mp hord⟩
  · have hin : ∀ n ∈ (g.methods x).next, n ∈ (g.methods x).allNext := by
      intro n hn
      obtain ⟨hn',hdirect⟩ := (h.next x hx n).mp hn
      exact (hnext n).mpr ((h.allPrev n hn' x).mp hdirect.1)
    refine h.assertSound_ok hone hin (fun n hn => ((hnext n).mp hn).mem.2) (fun _ _ => .inr rfl)
      fun n hn q hq hne hval => ?_
    obtain ⟨hn',hdirect⟩ := (h.next x hx n).mp hn
    have hq' := ((hnext q).mp hq).mem.2
    exact hdirect.2 q ((h.allPrev n hn' q).mpr ((h.ordered_iff hone hq' hn' hne).mpr hval)) hq
  · refine h.assertComplete_ok hone (fun n hn => ((hnext n).mp hn).mem.2) (fun _ _ => .inr rfl)
      fun n hn hnot => ?_
    have hn' := ((hnext n).mp hn).mem.2
    rw [h.next x hx,DirectPrev] at hnot
    push Not at hnot
    obtain ⟨q,hq,hqx⟩ := hnot hn' ((h.allPrev n hn' x).mpr ((hnext n).mp hn))
    have hord := (h.allPrev n hn' q).mp hq
    have hne := h.ne_of_ordered hord
    exact ⟨q,hqx,hne,(h.ordered_iff hone hord.mem.1 hn' hne).mp hord⟩

theorem assertEdges_ok (hone : g₀.OneWay) (hcyclic : g.cyclic = false) : g.assertEdges = .ok g :=
  bind_eq_ok.mpr ⟨(),assert_eq_ok.mpr (by simp [hcyclic]),
    foldlM_fixed fun _ hx => h.assertMethod_ok hone hx⟩

end Built

/-! ### Consistent edges -/

/-- The assertions hold: the sets are a partition in agreement with `conflict` in both orders, and
`prev` and `next` are what is nearest in them. -/
structure Consistent (g₀ g : ExecutionGraph) (startMethod finishMethod : Method) : Prop where
  asserts : ∃ g', g.assertEdges = .ok g'
  others : ∀ x ∈ g.methodList, ∀ y, y ∈ (g.methods x).allPrev ∨ y ∈ (g.methods x).allNext ∨
    y ∈ (g.methods x).concurrent ↔ y ∈ g.methodList ∧ y ≠ x
  notBoth : ∀ x ∈ g.methodList, ∀ y, ¬(y ∈ (g.methods x).allPrev ∧ y ∈ (g.methods x).allNext)
  notConcurrent : ∀ x ∈ g.methodList, ∀ y ∈ (g.methods x).concurrent,
    y ∉ (g.methods x).allPrev ∧ y ∉ (g.methods x).allNext
  before : ∀ x ∈ g₀.methodList, ∀ y ∈ g₀.methodList, x ≠ y →
    (y ∈ (g.methods x).allNext ↔ g.conflictVal x y = .before)
  after : ∀ x ∈ g₀.methodList, ∀ y ∈ g₀.methodList, x ≠ y →
    (y ∈ (g.methods x).allPrev ↔ g.conflictVal x y = .after)
  commute : ∀ x ∈ g₀.methodList, ∀ y ∈ g₀.methodList, x ≠ y →
    (y ∈ (g.methods x).concurrent ↔ g.conflictVal x y = .commute)
  start : ∀ y ∈ g.methodList, y ≠ startMethod → y ∈ (g.methods startMethod).allNext ∧
    startMethod ∈ (g.methods y).allPrev ∧ g.conflictVal startMethod y = .before
  finish : ∀ x ∈ g.methodList, x ≠ finishMethod → finishMethod ∈ (g.methods x).allNext ∧
    x ∈ (g.methods finishMethod).allPrev ∧ g.conflictVal x finishMethod = .before
  prev : ∀ x ∈ g.methodList, ∀ y, y ∈ (g.methods x).prev ↔
    y ∈ (g.methods x).allPrev ∧ ∀ q ∈ (g.methods x).allPrev, q ∉ (g.methods y).allNext
  next : ∀ x ∈ g.methodList, ∀ y, y ∈ (g.methods x).next ↔
    y ∈ (g.methods x).allNext ∧ ∀ q ∈ (g.methods x).allNext, q ∉ (g.methods y).allPrev

namespace Built

variable (h : Built g₀ g startMethod finishMethod)

include h

theorem start_mem : startMethod ∈ g.methodList := h.mem_methodList.mpr (.inl rfl)

theorem finish_mem : finishMethod ∈ g.methodList := h.mem_methodList.mpr (.inr (.inr rfl))

theorem start_ordered (hy : y ∈ g.methodList) (hne : y ≠ startMethod) :
    g.Ordered g.methodList startMethod y := by
  rw [h.ends.ordered_iff]
  rcases h.mem_methodList.mp hy with rfl | hyl | rfl
  · exact absurd rfl hne
  · exact .inr (.inl ⟨rfl,hyl⟩)
  · exact .inr (.inr (.inr ⟨rfl,rfl⟩))

theorem ordered_finish (hx : x ∈ g.methodList) (hne : x ≠ finishMethod) :
    g.Ordered g.methodList x finishMethod := by
  rw [h.ends.ordered_iff]
  rcases h.mem_methodList.mp hx with rfl | hxl | rfl
  · exact .inr (.inr (.inr ⟨rfl,rfl⟩))
  · exact .inr (.inr (.inl ⟨hxl,rfl⟩))
  · exact absurd rfl hne

theorem consistent (hone : g₀.OneWay) (hcyclic : g.cyclic = false) :
    Consistent g₀ g startMethod finishMethod := by
  have hmem : ∀ z ∈ g₀.methodList, z ∈ g.methodList :=
    fun z hz => h.mem_methodList.mpr (.inr (.inl hz))
  refine ⟨⟨g,h.assertEdges_ok hone hcyclic⟩,?_,?_,?_,?_,?_,?_,?_,?_,h.prev,?_⟩
  · intro x hx y
    rw [h.concurrent x hx,IsConcurrent,h.allPrev x hx,h.allNext x hx]
    constructor
    · rintro (hord | hord | ⟨hy,hne,-⟩)
      · exact ⟨hord.mem.1,h.ne_of_ordered hord⟩
      · exact ⟨hord.mem.2,(h.ne_of_ordered hord).symm⟩
      · exact ⟨hy,hne⟩
    · tauto
  · rintro x hx y ⟨hprev,hnext⟩
    exact h.ordered_asymm ((h.allPrev x hx y).mp hprev) ((h.allNext x hx y).mp hnext)
  · intro x hx y hy
    exact ((h.concurrent x hx y).mp hy).2.2
  · intro x hx y hy hne
    rw [h.allNext x (hmem x hx),h.ordered_iff hone (hmem x hx) (hmem y hy) hne]
  · intro x hx y hy hne
    obtain ⟨hflip,-⟩ := h.flip hone hx hy hne
    rw [h.allPrev x (hmem x hx),h.ordered_iff hone (hmem y hy) (hmem x hx) hne.symm,hflip]
    cases g.conflictVal x y <;> simp [Conflict.flip]
  · intro x hx y hy hne
    obtain ⟨hflip,hself⟩ := h.flip hone hx hy hne
    constructor
    · intro hcon
      exact h.concurrent_commute hone (hmem x hx) ((h.concurrent x (hmem x hx) y).mp hcon)
    · intro hval
      refine (h.concurrent x (hmem x hx) y).mpr ⟨hmem y hy,hne.symm,?_,?_⟩
      · rw [h.allPrev x (hmem x hx),h.ordered_iff hone (hmem y hy) (hmem x hx) hne.symm,hflip,hval]
        simp [Conflict.flip]
      · rw [h.allNext x (hmem x hx),h.ordered_iff hone (hmem x hx) (hmem y hy) hne,hval]
        simp
  · intro y hy hne
    have hord := h.start_ordered hy hne
    exact ⟨(h.allNext _ h.start_mem y).mpr hord,(h.allPrev y hy _).mpr hord,
      ExecutionGraph.conflictVal_start h.ends.start⟩
  · intro x hx hne
    have hord := h.ordered_finish hx hne
    exact ⟨(h.allNext x hx _).mpr hord,(h.allPrev _ h.finish_mem x).mpr hord,
      (h.ordered_iff hone hx h.finish_mem hne).mp hord⟩
  · intro x hx y
    rw [h.next x hx,h.allNext x hx,DirectPrev]
    constructor
    · rintro ⟨hy,hxy,hnone⟩
      exact ⟨(h.allPrev y hy x).mp hxy,fun q hq hqy => hnone q hqy hq⟩
    · rintro ⟨hord,hnone⟩
      have hy := hord.mem.2
      exact ⟨hy,(h.allPrev y hy x).mpr hord,fun q hqy hq => hnone q hq hqy⟩

/-- In the order in which the pair is asked about, its direction is that of each pair of ordering
points. -/
theorem conflictVal_of_actions (hsub : [x,y].Sublist g₀.methodList) {act1 act2 : ActionId}
    (h1 : act1 ∈ (g.methods x).orderingPoints) (h2 : act2 ∈ (g.methods y).orderingPoints)
    (hne : conflictActions (g.acts act1) (g.acts act2) ≠ .commute) :
    g.conflictVal x y = conflictActions (g.acts act1) (g.acts act2) := by
  have hx := h.ends.interface x (hsub.subset (by simp))
  have hy := h.ends.interface y (hsub.subset (by simp))
  cases hval : g.conflictVal x y with
  | selfCycle => exact absurd hval (h.noSelfCycle x y hsub)
  | commute => exact absurd ((conflictVal_eq_commute hx hy).mp hval act1 h1 act2 h2) hne
  | before =>
    have hall := ((conflictVal_eq_iff hx hy (by simp) (by simp)).mp hval).1
    exact ((hall act1 h1 act2 h2).resolve_left hne).symm
  | after =>
    have hall := ((conflictVal_eq_iff hx hy (by simp) (by simp)).mp hval).1
    exact ((hall act1 h1 act2 h2).resolve_left hne).symm

theorem oneWay_of_consistent (hcons : Consistent g₀ g startMethod finishMethod) : g₀.OneWay := by
  have hmem : ∀ z ∈ g₀.methodList, z ∈ g.methodList :=
    fun z hz => h.mem_methodList.mpr (.inr (.inl hz))
  suffices hpair : ∀ x y, [x,y].Sublist g₀.methodList → ∀ act1 ∈ (g₀.methods x).orderingPoints,
      ∀ act2 ∈ (g₀.methods y).orderingPoints,
      conflictActions (g₀.acts act1) (g₀.acts act2) = .commute ∨
        conflictActions (g₀.acts act1) (g₀.acts act2) ≠
          conflictActions (g₀.acts act2) (g₀.acts act1) by
    intro x hx y hy hne act1 h1 act2 h2
    rcases pair_sublist_or hx hy hne with hsub | hsub
    · exact hpair x y hsub act1 h1 act2 h2
    · rcases hpair y x hsub act2 h2 act1 h1 with hcomm | hdiff
      · exact .inl (conflictActions_commute.mp hcomm)
      · exact .inr hdiff.symm
  intro x y hsub act1 h1 act2 h2
  by_contra hnot
  push Not at hnot
  obtain ⟨hne,hsame⟩ := hnot
  have hx : x ∈ g₀.methodList := hsub.subset (by simp)
  have hy : y ∈ g₀.methodList := hsub.subset (by simp)
  have hxy : x ≠ y := by
    rintro rfl
    have hfull : [x,x].Sublist g.methodList := by
      rw [h.ends.methodList]
      exact (hsub.trans (List.sublist_append_left _ _)).cons _
    exact pair_sublist_asymm h.ends.nodup hfull hfull
  rw [← h.acts] at hne hsame
  rw [← h.orderingPoints x hx] at h1
  rw [← h.orderingPoints y hy] at h2
  have hval := h.conflictVal_of_actions hsub h1 h2 hne
  -- the other order has to give the opposite
  have hback : ∀ r, r ≠ .commute → r ≠ .selfCycle → g.conflictVal y x = r →
      conflictActions (g.acts act2) (g.acts act1) = .commute ∨
        conflictActions (g.acts act2) (g.acts act1) = r := fun r hr hself hyx =>
    ((conflictVal_eq_iff (h.ends.interface y hy) (h.ends.interface x hx) hr hself).mp hyx).1
      act2 h2 act1 h1
  rw [← hsame] at hback
  cases hact : conflictActions (g.acts act1) (g.acts act2) with
  | commute => exact hne hact
  | selfCycle => exact conflictActions_ne_selfCycle hact
  | before =>
    rw [hact] at hval hback
    have hnext := (hcons.before x hx y hy hxy).mpr hval
    have hprev := (h.allPrev y (hmem y hy) x).mpr ((h.allNext x (hmem x hx) y).mp hnext)
    have hyx := (hcons.after y hy x hx hxy.symm).mp hprev
    simpa using hback .after (by simp) (by simp) hyx
  | after =>
    rw [hact] at hval hback
    have hprev := (hcons.after x hx y hy hxy).mpr hval
    have hnext := (h.allNext y (hmem y hy) x).mpr ((h.allPrev x (hmem x hx) y).mp hprev)
    have hyx := (hcons.before y hy x hx hxy.symm).mp hnext
    simpa using hback .before (by simp) (by simp) hyx

end Built

/-- In an execution an action happens before itself, and before later actions only. -/
structure Clocked (g : ExecutionGraph) (OPs : List ActionId) : Prop where
  refl : ∀ a ∈ OPs, (g.acts a).happensBefore (g.acts a) = true
  le : ∀ a ∈ OPs, ∀ b ∈ OPs, (g.acts a).happensBefore (g.acts b) = true →
    (g.acts a).seqNumber ≤ (g.acts b).seqNumber
  seqNumber : ∀ a ∈ OPs, ∀ b ∈ OPs, (g.acts a).seqNumber = (g.acts b).seqNumber → a = b

theorem Clocked.same {OPs : List ActionId} (h : g.Clocked OPs) {a b : ActionId} (ha : a ∈ OPs)
    (hb : b ∈ OPs) : (conflictActions (g.acts a) (g.acts b) = .commute ∨
      conflictActions (g.acts a) (g.acts b) ≠ conflictActions (g.acts b) (g.acts a)) ↔ a ≠ b := by
  constructor
  · rintro hone rfl
    have hself : conflictActions (g.acts a) (g.acts a) = .before := by
      rw [conflictActions,if_pos (h.refl a ha)]
    rw [hself] at hone
    simp at hone
  · intro hne
    have hseq : (g.acts a).seqNumber ≠ (g.acts b).seqNumber :=
      fun heq => hne (h.seqNumber a ha b hb heq)
    have hab := h.le a ha b hb
    have hba := h.le b hb a ha
    unfold conflictActions
    rw [Bool.and_comm (g.acts b).isSeqcst]
    by_cases h1 : (g.acts a).happensBefore (g.acts b) = true
    · have h2 : ¬(g.acts b).happensBefore (g.acts a) = true :=
        fun h2 => hseq (Nat.le_antisymm (hab h1) (hba h2))
      simp [h1,h2]
    · by_cases h2 : (g.acts b).happensBefore (g.acts a) = true
      · simp [h1,h2]
      · rcases Nat.lt_or_gt_of_ne hseq with hlt | hlt
        · cases (g.acts a).isSeqcst <;> cases (g.acts b).isSeqcst <;>
            simp [h1,h2,hlt,Nat.lt_asymm hlt]
        · cases (g.acts a).isSeqcst <;> cases (g.acts b).isSeqcst <;>
            simp [h1,h2,hlt,Nat.lt_asymm hlt]

/-- In an execution: no two method calls have a common ordering point. -/
theorem oneWay_iff_disjoint {OPs : List ActionId} (h : g.Clocked OPs)
    (hOPs : ∀ m ∈ g.methodList, (g.methods m).orderingPoints ⊆ OPs) :
    g.OneWay ↔ ∀ m1 ∈ g.methodList, ∀ m2 ∈ g.methodList, m1 ≠ m2 →
      (g.methods m1).orderingPoints.Disjoint (g.methods m2).orderingPoints := by
  constructor
  · intro hone m1 h1 m2 h2 hne act hact1 hact2
    exact (h.same (hOPs m1 h1 hact1) (hOPs m2 h2 hact2)).mp
      (hone m1 h1 m2 h2 hne act hact1 act hact2) rfl
  · intro hdisj m1 h1 m2 h2 hne act1 hact1 act2 hact2
    refine (h.same (hOPs m1 h1 hact1) (hOPs m2 h2 hact2)).mpr ?_
    rintro rfl
    exact hdisj m1 h1 m2 h2 hne hact1 hact2

/-- The edges are consistent where no two ordering points are each before the other. -/
theorem linkEdges_consistent_iff (hext : g.Extracted) (hnew : g.NewFake startMethod finishMethod) :
    ∃ g', g.linkEdges startMethod finishMethod = .ok g' ∧
      (g'.cyclic = false → (Consistent g g' startMethod finishMethod ↔ g.OneWay)) := by
  obtain ⟨g',hlink,hbuilt⟩ := linkEdges_spec hext hnew
  refine ⟨g',hlink,fun hcyclic => ?_⟩
  have hb := hbuilt hcyclic
  exact ⟨hb.oneWay_of_consistent,fun hone => hb.consistent hone hcyclic⟩

/-- Two method calls with the one action as their ordering point. -/
def sharedPoint : ExecutionGraph where
  acts := fun _ => {
    type := .atomicWrite
    order := .relaxed
    location := .object 1
    tid := 1
    seqNumber := 1
    cv := ⟨[0,1]⟩ }
  methods := fun m => { name := .interface m,orderingPoints := [0] }
  methodList := [1,2]

theorem sharedPoint_extracted : sharedPoint.Extracted :=
  ⟨by decide,fun m _ => ⟨m,none,[0],rfl⟩,rfl⟩

theorem sharedPoint_newFake : sharedPoint.NewFake 0 3 := ⟨by decide,by decide,by decide⟩

/-- The later one is then before the earlier one, which is before the finish as well. -/
theorem sharedPoint_fails : sharedPoint.Extracted ∧ sharedPoint.NewFake 0 3 ∧
    ∃ g, sharedPoint.linkEdges 0 3 = .ok g ∧ g.cyclic = false ∧ g.assertEdges = .error .assertion :=
  ⟨sharedPoint_extracted,sharedPoint_newFake,_,rfl,rfl,rfl⟩

/-- Two method calls in different threads, the one after the other. -/
def twoPoints : ExecutionGraph where
  acts := fun a => {
    type := .atomicWrite
    order := .relaxed
    location := .object 1
    tid := a
    seqNumber := a
    cv := if a = 1 then ⟨[0,1]⟩ else ⟨[0,1,2]⟩ }
  methods := fun m => { name := .interface m,orderingPoints := [m] }
  methodList := [2,1]

theorem linkEdges_consistent_iff_twoPoints : twoPoints.Extracted ∧ twoPoints.NewFake 0 3 ∧
    ∃ g, twoPoints.linkEdges 0 3 = .ok g ∧ g.cyclic = false ∧ twoPoints.OneWay ∧
      Consistent twoPoints g 0 3 := by
  have hext : twoPoints.Extracted := ⟨by decide,fun m _ => ⟨m,none,[m],rfl⟩,rfl⟩
  have hnew : twoPoints.NewFake 0 3 := ⟨by decide,by decide,by decide⟩
  have hone : twoPoints.OneWay := by
    unfold OneWay
    decide
  have hcyclic : ∃ g, twoPoints.linkEdges 0 3 = .ok g ∧ g.cyclic = false := ⟨_,rfl,rfl⟩
  obtain ⟨g,hlink,hiff⟩ := linkEdges_consistent_iff hext hnew
  obtain ⟨g',hlink',hcyclic⟩ := hcyclic
  rw [hlink] at hlink'
  cases hlink'
  exact ⟨hext,hnew,g,hlink,hcyclic,hone,(hiff hcyclic).mpr hone⟩

end ExecutionGraph
end CdsChecker
