import CdsChecker.Library.OrderGraphMerge

/-! Order graphs whose constraints join vertices of one place only. -/

open Relation

namespace OrderGraph

variable {κ ν : Type*}

/-- Both vertices are in the graph, at one place. -/
def SamePlace (place : κ → Option ν) (x y : κ) : Prop := ∃ l, place x = some l ∧ place y = some l

namespace SamePlace

variable {place place' : κ → Option ν} {x y z : κ}

theorem symm (h : SamePlace place x y) : SamePlace place y x := by
  obtain ⟨l,hx,hy⟩ := h
  exact ⟨l,hy,hx⟩

theorem trans (h : SamePlace place x y) (h' : SamePlace place y z) : SamePlace place x z := by
  obtain ⟨l,hx,hy⟩ := h
  obtain ⟨l',hy',hz⟩ := h'
  obtain rfl := Option.some.inj (hy.symm.trans hy')
  exact ⟨l,hx,hz⟩

theorem mono (h : SamePlace place x y) (hplace : ∀ z l, place z = some l → place' z = some l) :
    SamePlace place' x y := by
  obtain ⟨l,hx,hy⟩ := h
  exact ⟨l,hplace x l hx,hplace y l hy⟩

end SamePlace

/-- Constraints and exclusive successors stay at their places. -/
structure Within (place : κ → Option ν) (o : OrderGraph κ) : Prop where
  edge : ∀ x y, o.edge x y → SamePlace place x y
  next : ∀ x y, o.next x = some y → SamePlace place x y

namespace Within

variable {place place' : κ → Option ν} {o o' : OrderGraph κ} {a b w p r : κ}

theorem mono (h : o.Within place) (hplace : ∀ z l, place z = some l → place' z = some l) :
    o.Within place' :=
  ⟨fun x y hxy => (h.edge x y hxy).mono hplace,fun x y hxy => (h.next x y hxy).mono hplace⟩

theorem unlink (h : o.Within place) (a b : κ) : (o.unlink a b).Within place :=
  ⟨fun x y hxy => h.edge x y hxy.1,h.next⟩

theorem push (h : o.Within place) (hab : SamePlace place a b) : (o.push a b).Within place where
  edge x y hxy := by
    rcases hxy with hxy | ⟨rfl,rfl⟩
    · exact h.edge x y hxy
    · exact hab
  next := h.next

theorem reach (h : o.Within place) {x y : κ} (hxy : ReflTransGen o.edge x y) :
    x = y ∨ SamePlace place x y := by
  induction hxy with
  | refl => exact .inl rfl
  | tail _ hstep ih =>
    have hlast := h.edge _ _ hstep
    rcases ih with rfl | ih
    · exact .inr hlast
    · exact .inr (ih.trans hlast)

/-- The end of a chain is where the chain starts. -/
theorem chainEnd (h : o.Within place) {stop n e : κ} (hchain : ChainEnd o.next stop n e) :
    n = e ∨ SamePlace place n e := by
  induction hchain with
  | stop => exact .inl rfl
  | last => exact .inl rfl
  | step _ hn _ ih =>
    have hfirst := h.next _ _ hn
    rcases ih with rfl | ih
    · exact .inr hfirst
    · exact .inr (hfirst.trans ih)

theorem addEdge (h : o.Within place) (hab : SamePlace place a b) (hadd : AddEdge o a b o') :
    o'.Within place := by
  cases hadd with
  | old => exact h
  | plain => exact h.push hab
  | onChain => exact h.push hab
  | @behind r e _ hn hchain _ =>
    have hfirst := h.next a r hn
    have hend : SamePlace place a e := by
      rcases h.chainEnd hchain with rfl | hre
      · exact hfirst
      · exact hfirst.trans hre
    exact (h.push hab).push (hend.symm.trans hab)

/-- What was ordered with the merged vertex is at the place of the other. -/
theorem mergeStep (h : o.Within place) (hwp : SamePlace place w p) (hs : MergeStep w p o o') :
    o'.Within place := by
  cases hs with
  | dropIn => exact h.unlink w p
  | dropOut => exact h.unlink p w
  | moveIn hx hadd => exact (h.unlink _ p).addEdge ((h.edge _ p hx).trans hwp.symm) hadd
  | moveOut hy hadd => exact (h.unlink p _).addEdge (hwp.trans (h.edge p _ hy)) hadd

theorem mergeSteps (h : o.Within place) (hwp : SamePlace place w p)
    (hs : ReflTransGen (MergeStep w p) o o') : o'.Within place := by
  induction hs with
  | refl => exact h
  | tail _ hstep ih => exact ih.mergeStep hwp hstep

/-- A vertex that nothing is ordered with may lose its place. -/
theorem leave (h : o.Within place) (hiso : o.Isolated p) (hnone : o.next p = none)
    (htarget : ∀ x, o.next x ≠ some p) (hplace : ∀ x, x ≠ p → place' x = place x) :
    o.Within place' where
  edge x y hxy := by
    have hx : x ≠ p := fun he => (hiso y).2 (he ▸ hxy)
    have hy : y ≠ p := fun he => (hiso x).1 (he ▸ hxy)
    rw [SamePlace,hplace x hx,hplace y hy]
    exact h.edge x y hxy
  next x y hxy := by
    have hx : x ≠ p := fun he => by cases hnone.symm.trans (he ▸ hxy)
    have hy : y ≠ p := fun he => htarget x (he ▸ hxy)
    rw [SamePlace,hplace x hx,hplace y hy]
    exact h.next x y hxy

variable [DecidableEq κ]

theorem addNext (h : o.Within place) (hwr : SamePlace place w r) (hadd : AddNext o w r o') :
    o'.Within place := by
  refine addEdge ⟨fun x y hxy => ?_,fun x y hxy => ?_⟩ hwr hadd
  · rcases hxy with hxy | ⟨rfl,hwy,-⟩
    · exact h.edge x y (by rwa [attach_edge] at hxy)
    · exact hwr.symm.trans (h.edge w y (by rwa [attach_edge] at hwy))
  · rw [transfer_next] at hxy
    cases hn : o.next w with
    | some m =>
      rw [attach_next_of_some r hn] at hxy
      exact h.next x y hxy
    | none =>
      rw [attach_next_of_none r hn] at hxy
      by_cases hxw : x = w
      · subst hxw
        obtain rfl : r = y := by simpa using hxy
        exact hwr
      · rw [Function.update_of_ne hxw] at hxy
        exact h.next x y hxy

/-- What takes over the successor of a vertex is at the place of that vertex. -/
theorem adopt (h : o.Within place) (hwp : SamePlace place w p) : (o.adopt w p).Within place where
  edge := h.edge
  next x y hxy := by
    cases hw : o.next w with
    | some m =>
      rw [adopt_of_some hw] at hxy
      exact h.next x y hxy
    | none =>
      rw [adopt_next_of_none hw] at hxy
      by_cases hxw : x = w
      · subst hxw
        rw [Function.update_self] at hxy
        exact hwp.trans (h.next p y hxy)
      · rw [Function.update_of_ne hxw] at hxy
        exact h.next x y hxy

theorem forget (h : o.Within place) (p : κ) : (o.forget p).Within place where
  edge := h.edge
  next x y hxy := by
    by_cases hxp : x = p
    · subst hxp
      simp [OrderGraph.forget] at hxy
    · exact h.next x y (by simpa [OrderGraph.forget,hxp] using hxy)

end Within

/-- Unless both had one, the successors of a vertex go to the one that it is merged into. -/
theorem adopt_forget_next [DecidableEq κ] {o : OrderGraph κ} {w p : κ} (hne : w ≠ p)
    (h : o.next w = none ∨ o.next p = none ∨ o.next w = o.next p) (y r : κ) :
    ((o.adopt w p).forget p).next y = some r ↔ ∃ x, merged w p x = y ∧ o.next x = some r := by
  have hmerged : ∀ x, merged w p x = w ↔ x = w ∨ x = p := fun x => by
    simp only [merged]
    split <;> simp_all
  by_cases hp : y = p
  · subst hp
    have hnever : ∀ x, merged w y x ≠ y := fun x => by
      simp only [merged]
      split <;> simp_all
    simp [forget,hnever]
  · have hforget : ((o.adopt w p).forget p).next y = (o.adopt w p).next y := by
      simp [forget,Function.update_of_ne hp]
    rw [hforget]
    by_cases hw : y = w
    · subst hw
      simp only [hmerged,or_and_right,exists_or,exists_eq_left]
      cases hn : o.next y with
      | none => simp [adopt_next_of_none hn]
      | some m =>
        rw [adopt_of_some hn,hn]
        rcases h with h | h | h
        · cases hn.symm.trans h
        · simp [h]
        · simp [← h,hn]
    · have hself : ∀ x, merged w p x = y ↔ x = y := fun x => by
        simp only [merged]
        split <;> grind
      simp only [hself,exists_eq_left]
      cases hn : o.next w with
      | none => rw [adopt_next_of_none hn,Function.update_of_ne hw]
      | some m => rw [adopt_of_some hn]

theorem mergeSteps_next {w p : κ} {o o' : OrderGraph κ}
    (hs : ReflTransGen (MergeStep w p) o o') : o'.next = o.next := by
  induction hs with
  | refl => rfl
  | tail _ hstep ih => exact hstep.next_eq.trans ih

end OrderGraph
