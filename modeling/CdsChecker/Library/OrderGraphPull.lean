import CdsChecker.Library.OrderGraph

/-! Reading an order graph through names. The vertices are allocated cells, the names are
the objects they stand for; cells without a name carry no constraint. -/

open Relation

namespace OrderGraph

variable {κ ν : Type*}

/-- `find` looks a name up, `name` reads it back, and constraints join named vertices. -/
structure Naming (find : κ → Option ν) (name : ν → Option κ) (O : OrderGraph ν) : Prop where
  name_find : ∀ {x n}, find x = some n → name n = some x
  edge_source : ∀ {m n}, O.edge m n → ∃ x, find x = some m
  edge_target : ∀ {m n}, O.edge m n → ∃ y, find y = some n
  next_target : ∀ {m n}, O.next m = some n → ∃ y, find y = some n

/-- The constraints between names. -/
def pull (find : κ → Option ν) (name : ν → Option κ) (O : OrderGraph ν) : OrderGraph κ where
  edge := fun x y => ∃ m n, find x = some m ∧ find y = some n ∧ O.edge m n
  next := fun x => (find x).bind fun m => (O.next m).bind name
  cyclic := O.cyclic

variable {find : κ → Option ν} {name : ν → Option κ} {O O' : OrderGraph ν} {x y : κ} {m n : ν}

theorem pull_edge_iff (hx : find x = some m) (hy : find y = some n) :
    (pull find name O).edge x y ↔ O.edge m n := by
  constructor
  · rintro ⟨m',n',hm,hn,he⟩
    obtain rfl := Option.some.inj (hx.symm.trans hm)
    obtain rfl := Option.some.inj (hy.symm.trans hn)
    exact he
  · intro he
    exact ⟨m,n,hx,hy,he⟩

theorem pull_reach_find (hx : find x = some m)
    (hr : ReflTransGen (pull find name O).edge x y) :
    ∃ n, find y = some n ∧ ReflTransGen O.edge m n := by
  induction hr with
  | refl => exact ⟨m,hx,.refl⟩
  | tail _ hyz ih =>
    obtain ⟨n,hn,hmn⟩ := ih
    obtain ⟨n',k,hn',hk,he⟩ := hyz
    obtain rfl := Option.some.inj (hn.symm.trans hn')
    exact ⟨k,hk,hmn.tail he⟩

namespace Naming

/-- Two names never share a vertex. -/
theorem find_inj (h : Naming find name O) (hx : find x = some m) (hy : find y = some m) :
    x = y := Option.some.inj ((h.name_find hx).symm.trans (h.name_find hy))

theorem next_iff (h : Naming find name O) (hx : find x = some m) (hy : find y = some n) :
    (pull find name O).next x = some y ↔ O.next m = some n := by
  simp only [pull,hx,Option.bind_some]
  cases hn : O.next m with
  | none => simp
  | some k =>
    obtain ⟨z,hz⟩ := h.next_target hn
    simp only [Option.bind_some,h.name_find hz,Option.some.injEq]
    constructor
    · rintro rfl
      exact Option.some.inj (hz.symm.trans hy)
    · rintro rfl
      exact h.find_inj hz hy

theorem next_none (h : Naming find name O) (hx : find x = some m) :
    (pull find name O).next x = none ↔ O.next m = none := by
  simp only [pull,hx,Option.bind_some]
  cases hn : O.next m with
  | none => simp
  | some k =>
    obtain ⟨z,hz⟩ := h.next_target hn
    simp [h.name_find hz]

/-- A successor of a named vertex has a name. -/
theorem next_some (h : Naming find name O) (hx : find x = some m) (hn : O.next m = some n) :
    ∃ y, find y = some n ∧ (pull find name O).next x = some y := by
  obtain ⟨y,hy⟩ := h.next_target hn
  exact ⟨y,hy,(h.next_iff hx hy).mpr hn⟩

/-- Every named successor is a vertex's successor. -/
theorem find_of_next (h : Naming find name O) (hx : find x = some m)
    (hy : (pull find name O).next x = some y) : ∃ n, find y = some n ∧ O.next m = some n := by
  cases hn : O.next m with
  | none => rw [(h.next_none hx).mpr hn] at hy; cases hy
  | some n =>
    obtain ⟨z,hz,hxz⟩ := h.next_some hx hn
    obtain rfl := Option.some.inj (hxz.symm.trans hy)
    exact ⟨n,hz,rfl⟩

theorem reach_name (h : Naming find name O) (hx : find x = some m)
    (hr : ReflTransGen O.edge m n) :
    ∃ y, find y = some n ∧ ReflTransGen (pull find name O).edge x y := by
  induction hr with
  | refl => exact ⟨x,hx,.refl⟩
  | tail _ hnk ih =>
    obtain ⟨y,hy,hxy⟩ := ih
    obtain ⟨z,hz⟩ := h.edge_target hnk
    exact ⟨z,hz,hxy.tail ⟨_,_,hy,hz,hnk⟩⟩

/-- Paths between names are paths between their vertices. -/
theorem reach_iff (h : Naming find name O) (hx : find x = some m) (hy : find y = some n) :
    ReflTransGen (pull find name O).edge x y ↔ ReflTransGen O.edge m n := by
  constructor
  · intro hr
    obtain ⟨n',hn',hmn⟩ := pull_reach_find hx hr
    obtain rfl := Option.some.inj (hy.symm.trans hn')
    exact hmn
  · intro hr
    obtain ⟨z,hz,hxz⟩ := h.reach_name hx hr
    obtain rfl := h.find_inj hz hy
    exact hxz

/-- A directed cycle of vertices is one of names. -/
theorem acyclic_iff (h : Naming find name O) :
    Acyclic (pull find name O).edge ↔ Acyclic O.edge := by
  constructor
  · intro ha m hm
    obtain ⟨k,hmk,hkm⟩ := TransGen.head'_iff.mp hm
    obtain ⟨x,hx⟩ := h.edge_source hmk
    obtain ⟨y,hy⟩ := h.edge_target hmk
    exact ha x (TransGen.head' ⟨m,k,hx,hy,hmk⟩ ((h.reach_iff hy hx).mpr hkm))
  · intro ha x hx
    obtain ⟨y,hxy,hyx⟩ := TransGen.head'_iff.mp hx
    obtain ⟨m,k,hm,hk,he⟩ := hxy
    exact ha m (TransGen.head' he ((h.reach_iff hk hm).mp hyx))

/-- Walks along successors agree. -/
theorem chainEnd_pull (h : Naming find name O) (hx : find x = some m) (hy : find y = some n)
    {e : ν} (he : ChainEnd O.next n m e) :
    ∃ z, find z = some e ∧ ChainEnd (pull find name O).next y x z := by
  induction he generalizing x with
  | stop =>
    obtain rfl := h.find_inj hx hy
    exact ⟨x,hx,.stop⟩
  | last hne hn =>
    refine ⟨x,hx,.last ?_ ((h.next_none hx).mpr hn)⟩
    rintro rfl
    exact hne (Option.some.inj (hx.symm.trans hy))
  | step hne hn _ ih =>
    obtain ⟨w,hw,hxw⟩ := h.next_some hx hn
    obtain ⟨z,hz,hc⟩ := ih hw
    refine ⟨z,hz,.step ?_ hxw hc⟩
    rintro rfl
    exact hne (Option.some.inj (hx.symm.trans hy))

theorem chainEnd_of_pull (h : Naming find name O) (hx : find x = some m) (hy : find y = some n)
    {z : κ} (hz : ChainEnd (pull find name O).next y x z) :
    ∃ e, find z = some e ∧ ChainEnd O.next n m e := by
  induction hz generalizing m with
  | stop =>
    obtain rfl := Option.some.inj (hx.symm.trans hy)
    exact ⟨m,hx,.stop⟩
  | @last x hne hn =>
    refine ⟨m,hx,.last ?_ ((h.next_none hx).mp hn)⟩
    rintro rfl
    exact hne (h.find_inj hx hy)
  | @step x w _ hne hn _ ih =>
    obtain ⟨k,hk,hmk⟩ := h.find_of_next hx hn
    obtain ⟨e,he,hc⟩ := ih hk
    refine ⟨e,he,.step ?_ hmk hc⟩
    rintro rfl
    exact hne (h.find_inj hx hy)

/-- Naming further vertices that carry no constraint changes nothing. -/
theorem pull_extend {find' : κ → Option ν} {name' : ν → Option κ} (h : Naming find name O)
    (h' : Naming find' name' O) (hmono : ∀ x n, find x = some n → find' x = some n)
    (hnew : ∀ x m, find x = none → find' x = some m → O.next m = none) :
    pull find' name' O = pull find name O := by
  have hback : ∀ {a m}, find' a = some m → (∃ b, find b = some m) → find a = some m := by
    rintro a m ha ⟨b,hb⟩
    obtain rfl := h'.find_inj ha (hmono b m hb)
    exact hb
  ext a b
  · constructor
    · rintro ⟨m,n,hm,hn,he⟩
      exact ⟨m,n,hback hm (h.edge_source he),hback hn (h.edge_target he),he⟩
    · rintro ⟨m,n,hm,hn,he⟩
      exact ⟨m,n,hmono a m hm,hmono b n hn,he⟩
  · cases ha : find a with
    | some m =>
      have ha' := hmono a m ha
      cases hr : O.next m with
      | none => simp [pull,ha,ha',hr]
      | some k =>
        obtain ⟨c,hc⟩ := h.next_target hr
        simp [pull,ha,ha',hr,h.name_find hc,h'.name_find (hmono c k hc)]
    | none =>
      cases ha' : find' a with
      | none => simp [pull,ha,ha']
      | some m => simp [pull,ha,ha',hnew a m ha ha']
  · rfl

/-! ### Operations -/

theorem push (h : Naming find name O) (hx : find x = some m) (hy : find y = some n) :
    Naming find name (O.push m n) where
  name_find := h.name_find
  edge_source := by
    rintro m' n' (he | ⟨rfl,rfl⟩)
    · exact h.edge_source he
    · exact ⟨x,hx⟩
  edge_target := by
    rintro m' n' (he | ⟨rfl,rfl⟩)
    · exact h.edge_target he
    · exact ⟨y,hy⟩
  next_target := h.next_target

theorem pull_push (h : Naming find name O) (hx : find x = some m) (hy : find y = some n) :
    pull find name (O.push m n) = (pull find name O).push x y := by
  have hcyc : (pull find name (O.push m n)).cyclic ↔ ((pull find name O).push x y).cyclic := by
    have hxy : (pull find name O).edge x y ↔ O.edge m n := pull_edge_iff hx hy
    have hyx := h.reach_iff hy hx
    simp only [OrderGraph.push,hxy,hyx]
    rfl
  ext a b
  · constructor
    · rintro ⟨m',n',ha,hb,he | ⟨rfl,rfl⟩⟩
      · exact Or.inl ⟨m',n',ha,hb,he⟩
      · exact Or.inr ⟨h.find_inj ha hx,h.find_inj hb hy⟩
    · rintro (⟨m',n',ha,hb,he⟩ | ⟨rfl,rfl⟩)
      · exact ⟨m',n',ha,hb,Or.inl he⟩
      · exact ⟨m,n,hx,hy,Or.inr ⟨rfl,rfl⟩⟩
  · rfl
  · exact hcyc

theorem attach [DecidableEq ν] (h : Naming find name O) {r : κ} {k : ν} (w : ν)
    (hr : find r = some k) : Naming find name (O.attach w k) where
  name_find := h.name_find
  edge_source := by rw [attach_edge]; exact h.edge_source
  edge_target := by rw [attach_edge]; exact h.edge_target
  next_target := by
    intro m n hmn
    cases hw : O.next w with
    | some _ => rw [attach_next_of_some k hw] at hmn; exact h.next_target hmn
    | none =>
      rw [attach_next_of_none k hw] at hmn
      by_cases hm : m = w
      · subst hm
        obtain rfl : k = n := by simpa using hmn
        exact ⟨r,hr⟩
      · rw [Function.update_of_ne hm] at hmn
        exact h.next_target hmn

theorem pull_attach [DecidableEq κ] [DecidableEq ν] (h : Naming find name O)
    (hx : find x = some m) (hy : find y = some n) :
    pull find name (O.attach m n) = (pull find name O).attach x y := by
  cases hm : O.next m with
  | some k =>
    obtain ⟨z,_,hz⟩ := h.next_some hx hm
    simp only [OrderGraph.attach,hm,hz]
    rfl
  | none =>
    have hx' : (pull find name O).next x = none := (h.next_none hx).mpr hm
    simp only [OrderGraph.attach,hm,hx']
    ext a b
    · rfl
    · by_cases ha : a = x
      · subst ha
        simp [pull,hx,h.name_find hy]
      · have hne : ∀ k, find a = some k → k ≠ m := by
          rintro k hk rfl
          exact ha (h.find_inj hk hx)
        dsimp only
        rw [Function.update_of_ne ha]
        cases hk : find a with
        | none => simp [pull,hk]
        | some k => simp [pull,hk,hne k hk]
    · rfl

theorem transfer (h : Naming find name O) {k : ν} (w : ν) (hr : find x = some k) :
    Naming find name (O.transfer w k) where
  name_find := h.name_find
  edge_source := by
    rintro m' n' (he | ⟨rfl,_⟩)
    · exact h.edge_source he
    · exact ⟨x,hr⟩
  edge_target := by
    rintro m' n' (he | ⟨_,he,_⟩)
    · exact h.edge_target he
    · exact h.edge_target he
  next_target := h.next_target

theorem pull_transfer (h : Naming find name O) (hx : find x = some m) (hy : find y = some n) :
    pull find name (O.transfer m n) = (pull find name O).transfer x y := by
  ext a b
  · constructor
    · rintro ⟨m',n',ha,hb,he | ⟨rfl,he,hne⟩⟩
      · exact Or.inl ⟨m',n',ha,hb,he⟩
      · refine Or.inr ⟨h.find_inj ha hy,⟨m,n',hx,hb,he⟩,?_⟩
        rintro rfl
        exact hne (Option.some.inj (hb.symm.trans hy))
    · rintro (⟨m',n',ha,hb,he⟩ | ⟨rfl,⟨m',n',ha,hb,he⟩,hne⟩)
      · exact ⟨m',n',ha,hb,Or.inl he⟩
      · obtain rfl := Option.some.inj (hx.symm.trans ha)
        refine ⟨n,n',hy,hb,Or.inr ⟨rfl,he,?_⟩⟩
        rintro rfl
        exact hne (h.find_inj hb hy)
  · rfl
  · rfl

/-- Ordering two vertices orders their names. -/
theorem addEdge (h : Naming find name O) (hx : find x = some m) (hy : find y = some n)
    (ha : AddEdge O m n O') : AddEdge (pull find name O) x y (pull find name O') := by
  have hmn : (pull find name O).edge x y ↔ O.edge m n := pull_edge_iff hx hy
  cases ha with
  | old he => exact .old (hmn.mpr he)
  | plain he hn =>
    rw [h.pull_push hx hy]
    exact .plain (mt hmn.mp he) ((h.next_none hx).mpr hn)
  | @onChain r he hn hc =>
    obtain ⟨z,hz,hxz⟩ := h.next_some hx hn
    obtain ⟨e,hfe,hce⟩ := h.chainEnd_pull hz hy hc
    obtain rfl := h.find_inj hfe hy
    rw [h.pull_push hx hy]
    exact .onChain (mt hmn.mp he) hxz hce
  | @behind r k he hn hc hk =>
    obtain ⟨z,hz,hxz⟩ := h.next_some hx hn
    obtain ⟨e,hfe,hce⟩ := h.chainEnd_pull hz hy hc
    rw [(h.push hx hy).pull_push hfe hy,h.pull_push hx hy]
    refine .behind (mt hmn.mp he) hxz hce ?_
    rintro rfl
    exact hk (Option.some.inj (hfe.symm.trans hy))

/-- If ordering two names has an outcome, so has ordering their vertices. -/
theorem exists_addEdge (h : Naming find name O) (hx : find x = some m) (hy : find y = some n)
    {o : OrderGraph κ} (ha : AddEdge (pull find name O) x y o) : ∃ O', AddEdge O m n O' := by
  have hmn : (pull find name O).edge x y ↔ O.edge m n := pull_edge_iff hx hy
  cases ha with
  | old he => exact ⟨O,.old (hmn.mp he)⟩
  | plain he hn => exact ⟨_,.plain (mt hmn.mpr he) ((h.next_none hx).mp hn)⟩
  | @onChain r he hn hc =>
    obtain ⟨k,hk,hmk⟩ := h.find_of_next hx hn
    obtain ⟨e,hfe,hce⟩ := h.chainEnd_of_pull hk hy hc
    obtain rfl := Option.some.inj (hfe.symm.trans hy)
    exact ⟨_,.onChain (mt hmn.mpr he) hmk hce⟩
  | @behind r z he hn hc hz =>
    obtain ⟨k,hk,hmk⟩ := h.find_of_next hx hn
    obtain ⟨e,hfe,hce⟩ := h.chainEnd_of_pull hk hy hc
    refine ⟨_,.behind (mt hmn.mpr he) hmk hce ?_⟩
    rintro rfl
    exact hz (h.find_inj hfe hy)

/-- Both statements for exclusive successors. -/
theorem addNext [DecidableEq κ] [DecidableEq ν] (h : Naming find name O)
    (hx : find x = some m) (hy : find y = some n) (ha : AddNext O m n O') :
    AddNext (pull find name O) x y (pull find name O') := by
  have hatt := h.attach m hy
  have htr := hatt.transfer m hy
  have hpull : pull find name ((O.attach m n).transfer m n) =
      ((pull find name O).attach x y).transfer x y := by
    rw [hatt.pull_transfer hx hy,h.pull_attach hx hy]
  have hadd := htr.addEdge hx hy ha
  rw [hpull] at hadd
  exact hadd

theorem exists_addNext [DecidableEq κ] [DecidableEq ν] (h : Naming find name O)
    (hx : find x = some m) (hy : find y = some n) {o : OrderGraph κ}
    (ha : AddNext (pull find name O) x y o) : ∃ O', AddNext O m n O' := by
  have hatt := h.attach m hy
  have htr := hatt.transfer m hy
  refine htr.exists_addEdge hx hy (o := o) ?_
  rw [hatt.pull_transfer hx hy,h.pull_attach hx hy]
  exact ha

end Naming
end OrderGraph
