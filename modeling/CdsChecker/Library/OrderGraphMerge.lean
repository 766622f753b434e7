import CdsChecker.Library.OrderGraphPull

/-! Merging one vertex of an order graph into another, one constraint at a time. Between the
steps the two vertices are read as one, so that no path is lost on the way. -/

open Relation

namespace OrderGraph

variable {κ : Type*}

def unlink (o : OrderGraph κ) (a b : κ) : OrderGraph κ :=
  { o with edge := fun x y => o.edge x y ∧ ¬ (x = a ∧ y = b) }

theorem unlink_edge {o : OrderGraph κ} {a b x y : κ} (h : (o.unlink a b).edge x y) :
    o.edge x y := h.1

theorem unlink_next (o : OrderGraph κ) (a b : κ) : (o.unlink a b).next = o.next := rfl

/-- `w` takes over the exclusive successor of `p` when it has none. -/
def adopt [DecidableEq κ] (o : OrderGraph κ) (w p : κ) : OrderGraph κ :=
  { o with next := if o.next w = none then Function.update o.next w (o.next p) else o.next }

theorem adopt_next_of_none [DecidableEq κ] {o : OrderGraph κ} {w p : κ} (hw : o.next w = none) :
    (o.adopt w p).next = Function.update o.next w (o.next p) := by
  simp [adopt,hw]

theorem adopt_of_some [DecidableEq κ] {o : OrderGraph κ} {w p r : κ} (hw : o.next w = some r) :
    o.adopt w p = o := by
  simp [adopt,hw]

/-- There is nothing to take over. -/
theorem adopt_of_none [DecidableEq κ] {o : OrderGraph κ} {w p : κ} (hp : o.next p = none) :
    o.adopt w p = o := by
  cases hw : o.next w with
  | some r => exact adopt_of_some hw
  | none =>
    ext a b
    · rfl
    · rw [adopt_next_of_none hw]
      by_cases ha : a = w
      · subst ha; simp [hp,hw]
      · simp [ha]
    · rfl

/-- `p` loses its exclusive successor. -/
def forget [DecidableEq κ] (o : OrderGraph κ) (p : κ) : OrderGraph κ :=
  { o with next := Function.update o.next p none }

/-- One constraint on `p` moves to `w`, or is dropped when it joins the two. -/
inductive MergeStep (w p : κ) : OrderGraph κ → OrderGraph κ → Prop
  | dropIn (o : OrderGraph κ) : MergeStep w p o (o.unlink w p)
  | dropOut (o : OrderGraph κ) : MergeStep w p o (o.unlink p w)
  | moveIn {o o' : OrderGraph κ} {x : κ} (hx : o.edge x p) (h : AddEdge (o.unlink x p) x w o') :
      MergeStep w p o o'
  | moveOut {o o' : OrderGraph κ} {y : κ} (hy : o.edge p y) (h : AddEdge (o.unlink p y) w y o') :
      MergeStep w p o o'

/-- The constraints when `w` and `p` count as one vertex. -/
def glue (E : κ → κ → Prop) (w p : κ) : κ → κ → Prop :=
  fun x y => E x y ∨ (x = w ∧ y = p) ∨ (x = p ∧ y = w)

theorem glue_of_edge {E : κ → κ → Prop} (w p : κ) {x y : κ} (h : E x y) : glue E w p x y :=
  Or.inl h

theorem glue_reach_of_reach {E : κ → κ → Prop} (w p : κ) {x y : κ} (h : ReflTransGen E x y) :
    ReflTransGen (glue E w p) x y :=
  ReflTransGen.mono (fun _ _ => glue_of_edge w p) _ _ h

theorem glue_wp (E : κ → κ → Prop) (w p : κ) : ReflTransGen (glue E w p) w p :=
  .single (Or.inr (Or.inl ⟨rfl,rfl⟩))

theorem glue_pw (E : κ → κ → Prop) (w p : κ) : ReflTransGen (glue E w p) p w :=
  .single (Or.inr (Or.inr ⟨rfl,rfl⟩))

/-- Paths survive when every edge is a glued path afterwards. -/
theorem glue_reach_lift {E F : κ → κ → Prop} {w p : κ}
    (h : ∀ {x y}, E x y → ReflTransGen (glue F w p) x y) {x y : κ}
    (hr : ReflTransGen (glue E w p) x y) : ReflTransGen (glue F w p) x y := by
  induction hr with
  | refl => exact .refl
  | tail _ hyz ih =>
    rcases hyz with hyz | ⟨rfl,rfl⟩ | ⟨rfl,rfl⟩
    · exact ih.trans (h hyz)
    · exact ih.trans (glue_wp F _ _)
    · exact ih.trans (glue_pw F _ _)

namespace MergeStep

variable {o o' : OrderGraph κ} {w p : κ}

theorem next_eq (h : MergeStep w p o o') : o'.next = o.next := by
  cases h with
  | dropIn => rfl
  | dropOut => rfl
  | moveIn _ h => exact h.next_eq
  | moveOut _ h => exact h.next_eq

theorem cyclic_mono (h : MergeStep w p o o') (hc : o.cyclic) : o'.cyclic := by
  cases h with
  | dropIn => exact hc
  | dropOut => exact hc
  | moveIn _ h => exact h.cyclic_mono hc
  | moveOut _ h => exact h.cyclic_mono hc

/-- No path between the glued vertices is lost. -/
theorem reach (h : MergeStep w p o o') {x y : κ} (hr : ReflTransGen (glue o.edge w p) x y) :
    ReflTransGen (glue o'.edge w p) x y := by
  refine glue_reach_lift (fun {a b} hab => ?_) hr
  cases h with
  | dropIn =>
    by_cases hd : a = w ∧ b = p
    · obtain ⟨rfl,rfl⟩ := hd
      exact glue_wp _ _ _
    · exact .single (Or.inl ⟨hab,hd⟩)
  | dropOut =>
    by_cases hd : a = p ∧ b = w
    · obtain ⟨rfl,rfl⟩ := hd
      exact glue_pw _ _ _
    · exact .single (Or.inl ⟨hab,hd⟩)
  | @moveIn _ x _ h =>
    by_cases hd : a = x ∧ b = p
    · obtain ⟨rfl,rfl⟩ := hd
      have haw : ReflTransGen (glue o'.edge w b) a w := .single (glue_of_edge w b h.edge_new)
      exact haw.trans (glue_wp _ _ _)
    · exact .single (Or.inl (h.edge_mono ⟨hab,hd⟩))
  | @moveOut _ y _ h =>
    by_cases hd : a = p ∧ b = y
    · obtain ⟨rfl,rfl⟩ := hd
      exact (glue_pw _ _ _).tail (Or.inl h.edge_new)
    · exact .single (Or.inl (h.edge_mono ⟨hab,hd⟩))

theorem unlink_acyclic {a b : κ} (h : Acyclic o.edge) : Acyclic (o.unlink a b).edge :=
  fun x hx => h x (TransGen.mono (fun _ _ hxy => hxy.1) _ _ hx)

theorem sound (h : MergeStep w p o o') (ho : ¬ o.cyclic → Acyclic o.edge) :
    ¬ o'.cyclic → Acyclic o'.edge := by
  cases h with
  | dropIn => exact fun hc => unlink_acyclic (ho hc)
  | dropOut => exact fun hc => unlink_acyclic (ho hc)
  | moveIn _ h => exact h.sound fun hc => unlink_acyclic (ho hc)
  | moveOut _ h => exact h.sound fun hc => unlink_acyclic (ho hc)

end MergeStep

/-! ### Exclusivity while merging -/

/-- Exclusivity of the glued vertices; `p` itself is on its way out. -/
structure GluedExclusive (w p : κ) (o : OrderGraph κ) : Prop where
  link : ∀ {n r}, o.next n = some r → ReflTransGen (glue o.edge w p) n r
  behind : ∀ {n r t}, n ≠ p → o.next n = some r → o.edge n t → t ≠ r →
    (n = w ∧ t = p) ∨ ReflTransGen (glue o.edge w p) r t

/-- A merged order is exclusive if what follows `w` follows the successor `w` adopts. -/
theorem Exclusive.glued_adopt [DecidableEq κ] {o : OrderGraph κ} {w p : κ} (h : Exclusive o)
    (hsafe : ∀ {r t}, o.next p = some r → o.next w = none → o.edge w t →
      t = r ∨ t = p ∨ ReflTransGen o.edge r t) :
    GluedExclusive w p (o.adopt w p) := by
  have hnext : ∀ {n r}, (o.adopt w p).next n = some r →
      o.next n = some r ∨ (n = w ∧ o.next w = none ∧ o.next p = some r) := by
    intro n r hn
    by_cases hw : o.next w = none
    · by_cases hnw : n = w
      · subst hnw
        exact Or.inr ⟨rfl,hw,by simpa [adopt,hw] using hn⟩
      · exact Or.inl (by simpa [adopt,hw,hnw] using hn)
    · exact Or.inl (by simpa [adopt,hw] using hn)
  refine ⟨fun {n r} hn => ?_,fun {n r t} hnp hn ht htr => ?_⟩
  · rcases hnext hn with hn | ⟨rfl,_,hp⟩
    · exact glue_reach_of_reach w p (h.link hn)
    · exact (glue_wp _ _ _).trans (glue_reach_of_reach _ _ (h.link hp))
  · rcases hnext hn with hn | ⟨rfl,hw,hp⟩
    · exact Or.inr (glue_reach_of_reach w p (h.behind hn ht htr))
    · rcases hsafe hp hw ht with htr' | rfl | hr
      · exact (htr htr').elim
      · exact Or.inl ⟨rfl,rfl⟩
      · exact Or.inr (glue_reach_of_reach _ _ hr)

/-- The common part of the merge steps: some constraints go, one is added. -/
theorem GluedExclusive.addEdge {w p a b : κ} {o o₁ o' : OrderGraph κ} (h : GluedExclusive w p o)
    (hsub : ∀ {x y}, o₁.edge x y → o.edge x y) (hnext : o₁.next = o.next)
    (hadd : AddEdge o₁ a b o')
    (hmono : ∀ {x y}, ReflTransGen (glue o.edge w p) x y → ReflTransGen (glue o'.edge w p) x y) :
    GluedExclusive w p o' := by
  have hnext' : o'.next = o.next := hadd.next_eq.trans hnext
  refine ⟨fun hn => hmono (h.link (hnext' ▸ hn)),fun {n r t} hnp hn ht htr => ?_⟩
  rw [hnext'] at hn
  have hold : o₁.edge n t → (n = w ∧ t = p) ∨ ReflTransGen (glue o'.edge w p) r t :=
    fun he => (h.behind hnp hn (hsub he) htr).imp id hmono
  rcases hadd.edge_cases ht with ht | ⟨rfl,rfl | hnone⟩
  · exact hold ht
  · cases hadd with
    | old he => exact hold he
    | plain _ hn' => simp [hnext,hn] at hn'
    | @onChain r' _ hn' hc =>
      rw [hnext] at hn' hc
      obtain rfl := Option.some.inj (hn.symm.trans hn')
      exact Or.inr (hmono (hc.reach fun _ _ => h.link))
    | @behind r' e _ hn' hc _ =>
      rw [hnext] at hn' hc
      obtain rfl := Option.some.inj (hn.symm.trans hn')
      exact Or.inr ((hmono (hc.reach fun _ _ => h.link)).tail (Or.inl (push_edge_new _ _ _)))
  · simp [hnext,hn] at hnone

theorem GluedExclusive.step {w p : κ} {o o' : OrderGraph κ} (h : GluedExclusive w p o)
    (hs : MergeStep w p o o') : GluedExclusive w p o' := by
  have hmono : ∀ {x y}, ReflTransGen (glue o.edge w p) x y →
      ReflTransGen (glue o'.edge w p) x y := fun hr => hs.reach hr
  cases hs with
  | dropIn =>
    exact ⟨fun hn => hmono (h.link hn),
      fun hnp hn ht htr => (h.behind hnp hn ht.1 htr).imp id hmono⟩
  | dropOut =>
    exact ⟨fun hn => hmono (h.link hn),
      fun hnp hn ht htr => (h.behind hnp hn ht.1 htr).imp id hmono⟩
  | moveIn _ hadd => exact h.addEdge unlink_edge (unlink_next _ _ _) hadd hmono
  | moveOut _ hadd => exact h.addEdge unlink_edge (unlink_next _ _ _) hadd hmono

/-! ### The end of a merge -/

/-- Where a vertex ends up. -/
def merged [DecidableEq κ] (w p x : κ) : κ := if x = p then w else x

/-- Nothing is ordered with `p` any more. -/
def Isolated (o : OrderGraph κ) (p : κ) : Prop := ∀ x, ¬ o.edge x p ∧ ¬ o.edge p x

/-- Once `p` carries no constraint, glued paths are paths between merged vertices. -/
theorem Isolated.reach [DecidableEq κ] {o : OrderGraph κ} {w p : κ} (h : Isolated o p) {x y : κ}
    (hr : ReflTransGen (glue o.edge w p) x y) :
    ReflTransGen o.edge (merged w p x) (merged w p y) := by
  induction hr with
  | refl => exact .refl
  | @tail y z _ hyz ih =>
    rcases hyz with hyz | ⟨rfl,rfl⟩ | ⟨rfl,rfl⟩
    · have hy : y ≠ p := by rintro rfl; exact (h z).2 hyz
      have hz : z ≠ p := by rintro rfl; exact (h y).1 hyz
      simp only [merged,hy,hz,if_false] at ih ⊢
      exact ih.tail hyz
    · by_cases hyp : y = z
      · exact hyp ▸ ih
      · simpa [merged,hyp] using ih
    · by_cases hyp : z = y
      · exact hyp ▸ ih
      · simpa [merged,hyp] using ih

/-- Every path of the start is one of the end, between merged vertices. -/
theorem merge_reach [DecidableEq κ] {w p : κ} {o o' : OrderGraph κ}
    (hs : ReflTransGen (MergeStep w p) o o') (h : Isolated o' p) {x y : κ}
    (hr : ReflTransGen o.edge x y) : ReflTransGen o'.edge (merged w p x) (merged w p y) := by
  have hglue : ReflTransGen (glue o'.edge w p) x y := by
    clear h
    induction hs with
    | refl => exact glue_reach_of_reach w p hr
    | tail _ hstep ih => exact hstep.reach ih
  exact h.reach hglue

theorem merge_sound {w p : κ} {o o' : OrderGraph κ} (hs : ReflTransGen (MergeStep w p) o o')
    (ho : ¬ o.cyclic → Acyclic o.edge) : ¬ o'.cyclic → Acyclic o'.edge := by
  induction hs with
  | refl => exact ho
  | tail _ hstep ih => exact hstep.sound ih

theorem merge_cyclic_mono {w p : κ} {o o' : OrderGraph κ}
    (hs : ReflTransGen (MergeStep w p) o o') (ho : o.cyclic) : o'.cyclic := by
  induction hs with
  | refl => exact ho
  | tail _ hstep ih => exact hstep.cyclic_mono ih

/-- A completed merge is exclusive again; successors are never `p`. -/
theorem merge_exclusive [DecidableEq κ] {w p : κ} {o o' : OrderGraph κ}
    (hs : ReflTransGen (MergeStep w p) o o') (ho : GluedExclusive w p o) (h : Isolated o' p)
    (hp : ∀ n, o'.next n ≠ some p) : Exclusive (o'.forget p) := by
  have hg : GluedExclusive w p o' := by
    clear h hp
    induction hs with
    | refl => exact ho
    | tail _ hstep ih => exact ih.step hstep
  have hnext : ∀ {n r}, (o'.forget p).next n = some r → n ≠ p ∧ r ≠ p ∧ o'.next n = some r := by
    intro n r hn
    by_cases hnp : n = p
    · subst hnp; simp [forget] at hn
    · have hn' : o'.next n = some r := by simpa [forget,hnp] using hn
      refine ⟨hnp,?_,hn'⟩
      rintro rfl
      exact hp n hn'
  refine ⟨fun {n r} hn => ?_,fun {n r t} hn ht htr => ?_⟩
  · obtain ⟨hnp,hrp,hn'⟩ := hnext hn
    have hr := h.reach (hg.link hn')
    simp only [merged,hnp,hrp,if_false] at hr
    exact hr
  · obtain ⟨hnp,hrp,hn'⟩ := hnext hn
    have htp : t ≠ p := by rintro rfl; exact (h n).1 ht
    rcases hg.behind hnp hn' ht htr with ⟨_,rfl⟩ | hr
    · exact (htp rfl).elim
    · have hr' := h.reach hr
      simp only [merged,hrp,htp,if_false] at hr'
      exact hr'

/-! ### Names -/

namespace Naming

variable {ν : Type*} {find : κ → Option ν} {name : ν → Option κ} {O : OrderGraph ν} {x y : κ}
  {m n : ν}

theorem pull_unlink (h : Naming find name O) (hx : find x = some m) (hy : find y = some n) :
    pull find name (O.unlink m n) = (pull find name O).unlink x y := by
  ext a b
  · constructor
    · rintro ⟨m',n',ha,hb,he,hne⟩
      refine ⟨⟨m',n',ha,hb,he⟩,?_⟩
      rintro ⟨rfl,rfl⟩
      exact hne ⟨Option.some.inj (ha.symm.trans hx),Option.some.inj (hb.symm.trans hy)⟩
    · rintro ⟨⟨m',n',ha,hb,he⟩,hne⟩
      refine ⟨m',n',ha,hb,he,?_⟩
      rintro ⟨rfl,rfl⟩
      exact hne ⟨h.find_inj ha hx,h.find_inj hb hy⟩
  · rfl
  · rfl

theorem pull_adopt [DecidableEq κ] [DecidableEq ν] (h : Naming find name O)
    (hx : find x = some m) (hy : find y = some n) :
    pull find name (O.adopt m n) = (pull find name O).adopt x y := by
  have hiff := h.next_none hx
  by_cases hm : O.next m = none
  · have hx' := hiff.mpr hm
    simp only [adopt,hm,hx',if_true]
    ext a b
    · rfl
    · by_cases ha : a = x
      · subst ha
        simp [pull,hx,hy]
      · have hne : ∀ k, find a = some k → k ≠ m := by
          rintro k hk rfl
          exact ha (h.find_inj hk hx)
        dsimp only
        rw [Function.update_of_ne ha]
        cases hk : find a with
        | none => simp [pull,hk]
        | some k => simp [pull,hk,hne k hk]
    · rfl
  · have hx' : (pull find name O).next x ≠ none := fun hn => hm (hiff.mp hn)
    simp only [adopt,hm,hx',if_false]

end Naming
end OrderGraph
