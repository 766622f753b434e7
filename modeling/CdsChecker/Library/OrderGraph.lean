import Mathlib.Logic.Relation
import Mathlib.Data.Option.Basic
import Mathlib.Logic.Function.Basic
import Mathlib.Tactic

/-! Order constraint graphs whose vertices may carry one exclusive successor.
A vertex's exclusive successor must follow it immediately, so whatever is ordered after
the vertex is pushed behind the end of its successor chain. -/

open Relation

/-- Ordering constraints, exclusive successors, and whether a contradiction was met. -/
@[ext] structure OrderGraph (κ : Type*) where
  edge : κ → κ → Prop
  next : κ → Option κ
  cyclic : Prop

namespace OrderGraph

variable {κ : Type*}

/-! ### Inserting edges in a relation -/

def insertEdge (E : κ → κ → Prop) (a b : κ) : κ → κ → Prop :=
  fun x y => E x y ∨ (x = a ∧ y = b)

/-- No vertex reaches itself by one or more edges; a self loop is a cycle. -/
def Acyclic (E : κ → κ → Prop) : Prop := ∀ x, ¬ TransGen E x x

theorem insertEdge_new (E : κ → κ → Prop) (a b : κ) : insertEdge E a b a b :=
  Or.inr ⟨rfl,rfl⟩

theorem insertEdge_of_mem {E : κ → κ → Prop} {a b : κ} (h : E a b) : insertEdge E a b = E := by
  funext x y
  refine propext ⟨?_,Or.inl⟩
  rintro (hxy | ⟨rfl,rfl⟩)
  · exact hxy
  · exact h

/-- A path after an insertion avoids the new edge or passes from its last use onwards. -/
theorem reach_insertEdge_iff (E : κ → κ → Prop) (a b x y : κ) :
    ReflTransGen (insertEdge E a b) x y ↔
      ReflTransGen E x y ∨ (ReflTransGen E x a ∧ ReflTransGen E b y) := by
  constructor
  · intro h
    induction h with
    | refl => exact Or.inl .refl
    | tail _ hyz ih =>
      rcases hyz with hyz | ⟨rfl,rfl⟩
      · rcases ih with ih | ⟨hxa,hby⟩
        · exact Or.inl (ih.tail hyz)
        · exact Or.inr ⟨hxa,hby.tail hyz⟩
      · rcases ih with ih | ⟨hxa,_⟩
        · exact Or.inr ⟨ih,.refl⟩
        · exact Or.inr ⟨hxa,.refl⟩
  · have hmono : ∀ {x y}, ReflTransGen E x y → ReflTransGen (insertEdge E a b) x y :=
      fun h => ReflTransGen.mono (fun _ _ => Or.inl) _ _ h
    rintro (h | ⟨hxa,hby⟩)
    · exact hmono h
    · exact ((hmono hxa).tail (insertEdge_new E a b)).trans (hmono hby)

theorem trans_insertEdge_iff (E : κ → κ → Prop) (a b x y : κ) :
    TransGen (insertEdge E a b) x y ↔
      TransGen E x y ∨ (ReflTransGen E x a ∧ ReflTransGen E b y) := by
  constructor
  · intro h
    obtain ⟨z,hxz,hzy⟩ := TransGen.tail'_iff.mp h
    rcases (reach_insertEdge_iff E a b x z).mp hxz with hxz | ⟨hxa,hbz⟩
    · rcases hzy with hzy | ⟨rfl,rfl⟩
      · exact Or.inl (TransGen.tail' hxz hzy)
      · exact Or.inr ⟨‹_›,.refl⟩
    · rcases hzy with hzy | ⟨rfl,rfl⟩
      · exact Or.inr ⟨hxa,hbz.tail hzy⟩
      · exact Or.inr ⟨hxa,.refl⟩
  · rintro (h | ⟨hxa,hby⟩)
    · exact TransGen.mono (fun _ _ => Or.inl) _ _ h
    · have hmono : ∀ {x y}, ReflTransGen E x y → ReflTransGen (insertEdge E a b) x y :=
        fun h => ReflTransGen.mono (fun _ _ => Or.inl) _ _ h
      exact (TransGen.tail' (hmono hxa) (insertEdge_new E a b)).trans_left (hmono hby)

/-- Whether the new edge is already present does not change who can close a cycle with it. -/
theorem reach_back_insertEdge_iff (E : κ → κ → Prop) (a b : κ) :
    ReflTransGen (insertEdge E a b) b a ↔ ReflTransGen E b a := by
  rw [reach_insertEdge_iff]
  exact ⟨fun h => h.elim id And.left,Or.inl⟩

theorem acyclic_insertEdge_iff (E : κ → κ → Prop) (a b : κ) :
    Acyclic (insertEdge E a b) ↔ Acyclic E ∧ ¬ ReflTransGen E b a := by
  constructor
  · intro h
    refine ⟨fun x hx => h x (TransGen.mono (fun _ _ => Or.inl) _ _ hx),fun hba => h a ?_⟩
    exact (trans_insertEdge_iff E a b a a).mpr (Or.inr ⟨.refl,hba⟩)
  · rintro ⟨hE,hba⟩ x hx
    rcases (trans_insertEdge_iff E a b x x).mp hx with hx | ⟨hxa,hbx⟩
    · exact hE x hx
    · exact hba (hbx.trans hxa)

/-- Edges out of a vertex that nothing points to cannot close a cycle. -/
theorem acyclic_source {E : κ → κ → Prop} {r : κ} {S : κ → Prop} (hE : Acyclic E)
    (hin : ∀ x, ¬ E x r) (hS : ∀ y, S y → y ≠ r) :
    Acyclic fun x y => E x y ∨ (x = r ∧ S y) := by
  have hnone : ∀ x, ¬ (E x r ∨ (x = r ∧ S r)) := by
    rintro x (h | ⟨_,h⟩)
    · exact hin x h
    · exact hS r h rfl
  -- a path that starts elsewhere never meets `r`, hence uses old edges only
  have hold : ∀ {x y}, TransGen (fun x y => E x y ∨ (x = r ∧ S y)) x y → x ≠ r →
    TransGen E x y := by
    intro x y h hx
    induction h with
    | single h => exact .single (h.resolve_right fun h' => hx h'.1)
    | @tail y z hxy hyz ih =>
      rcases hyz with hyz | ⟨rfl,_⟩
      · exact ih.tail hyz
      · obtain ⟨w,_,hw⟩ := TransGen.tail'_iff.mp hxy
        exact (hnone w hw).elim
  intro x hx
  by_cases hxr : x = r
  · subst hxr
    obtain ⟨w,_,hw⟩ := TransGen.tail'_iff.mp hx
    exact hnone w hw
  · exact hE x (hold hx hxr)

/-- Some member of a list has no edge to a member. -/
theorem Acyclic.exists_last {E : κ → κ → Prop} (hE : Acyclic E) {l : List κ} (hl : l ≠ []) :
    ∃ x ∈ l, ∀ y ∈ l, ¬ E x y := by
  have : Finite {x // x ∈ l} := l.finite_toSet
  let R : {x // x ∈ l} → {x // x ∈ l} → Prop := fun x y => TransGen E y x
  have : Std.Irrefl R := ⟨fun x => hE x⟩
  have : IsTrans _ R := ⟨fun _ _ _ hxy hyz => hyz.trans hxy⟩
  obtain ⟨x,-,hx⟩ := (Finite.wellFounded_of_trans_of_irrefl R).has_min Set.univ
    ⟨⟨l.head hl,List.head_mem hl⟩,trivial⟩
  exact ⟨x.1,x.2,fun y hy hxy => hx ⟨y,hy⟩ trivial (.single hxy)⟩

/-! ### Walking a chain of exclusive successors -/

/-- The walk along `next` from a vertex stops at `stop`, or at the end of the chain. -/
inductive ChainEnd (next : κ → Option κ) (stop : κ) : κ → κ → Prop
  | stop : ChainEnd next stop stop stop
  | last {n : κ} (hne : n ≠ stop) (hn : next n = none) : ChainEnd next stop n n
  | step {n m e : κ} (hne : n ≠ stop) (hn : next n = some m) (h : ChainEnd next stop m e) :
      ChainEnd next stop n e

theorem ChainEnd.unique {next : κ → Option κ} {stop n e e' : κ} (h : ChainEnd next stop n e)
    (h' : ChainEnd next stop n e') : e = e' := by
  induction h with
  | stop =>
    cases h' with
    | stop => rfl
    | last hne _ => exact (hne rfl).elim
    | step hne _ _ => exact (hne rfl).elim
  | last hne hn =>
    cases h' with
    | stop => exact (hne rfl).elim
    | last => rfl
    | step _ hn' _ => simp [hn] at hn'
  | step hne hn _ ih =>
    cases h' with
    | stop => exact (hne rfl).elim
    | last _ hn' => simp [hn] at hn'
    | step _ hn' h' =>
      obtain rfl : _ = _ := Option.some.inj (hn.symm.trans hn')
      exact ih h'

theorem ChainEnd.next_eq_none {next : κ → Option κ} {stop n e : κ}
    (h : ChainEnd next stop n e) (he : e ≠ stop) : next e = none := by
  induction h with
  | stop => exact (he rfl).elim
  | last _ hn => exact hn
  | step _ _ _ ih => exact ih he

theorem ChainEnd.reach {next : κ → Option κ} {E : κ → κ → Prop} {stop n e : κ}
    (hE : ∀ n m, next n = some m → ReflTransGen E n m) (h : ChainEnd next stop n e) :
    ReflTransGen E n e := by
  induction h with
  | stop => exact .refl
  | last => exact .refl
  | step _ hn _ ih => exact (hE _ _ hn).trans ih

/-- A walk that starts at a successor ends at one. -/
theorem ChainEnd.target {next : κ → Option κ} {stop m n e : κ} (h : ChainEnd next stop n e)
    (hm : next m = some n) : ∃ k, next k = some e := by
  induction h generalizing m with
  | stop => exact ⟨m,hm⟩
  | last => exact ⟨m,hm⟩
  | step _ hn _ ih => exact ih hn

/-- The walk itself, giving up when the fuel is spent. -/
def walk [DecidableEq κ] (next : κ → Option κ) (stop : κ) : ℕ → κ → Option κ
  | 0,_ => none
  | fuel + 1,n =>
    if n = stop then some n
    else
      match next n with
      | none => some n
      | some m => walk next stop fuel m

theorem chainEnd_of_walk [DecidableEq κ] {next : κ → Option κ} {stop e : κ} {fuel : ℕ} {n : κ}
    (h : walk next stop fuel n = some e) : ChainEnd next stop n e := by
  induction fuel generalizing n with
  | zero => simp [walk] at h
  | succ fuel ih =>
    by_cases hs : n = stop
    · subst hs
      obtain rfl : n = e := by simpa [walk] using h
      exact .stop
    · cases hn : next n with
      | none =>
        obtain rfl : n = e := by simpa [walk,hs,hn] using h
        exact .last hs hn
      | some m => exact .step hs hn (ih (by simpa [walk,hs,hn] using h))

/-- The number of vertices a walk visits. -/
inductive ChainLength (next : κ → Option κ) (stop : κ) : κ → ℕ → Prop
  | stop : ChainLength next stop stop 1
  | last {n : κ} (hne : n ≠ stop) (hn : next n = none) : ChainLength next stop n 1
  | step {n m : κ} {k : ℕ} (hne : n ≠ stop) (hn : next n = some m)
      (h : ChainLength next stop m k) : ChainLength next stop n (k + 1)

theorem ChainLength.unique {next : κ → Option κ} {stop n : κ} {k k' : ℕ}
    (h : ChainLength next stop n k) (h' : ChainLength next stop n k') : k = k' := by
  induction h generalizing k' with
  | stop =>
    cases h' with
    | stop => rfl
    | last hne _ => exact (hne rfl).elim
    | step hne _ _ => exact (hne rfl).elim
  | last hne hn =>
    cases h' with
    | stop => exact (hne rfl).elim
    | last => rfl
    | step _ hn' _ => simp [hn] at hn'
  | step hne hn _ ih =>
    cases h' with
    | stop => exact (hne rfl).elim
    | last _ hn' => simp [hn] at hn'
    | step _ hn' h' =>
      obtain rfl := Option.some.inj (hn.symm.trans hn')
      rw [ih h']

/-- A walk that ends visits no vertex twice. -/
theorem ChainLength.visited {next : κ → Option κ} {stop : κ} {U : Finset κ}
    (hU : ∀ x ∈ U, ∀ y, next x = some y → y ∈ U) {n : κ} {k : ℕ}
    (h : ChainLength next stop n k) (hn : n ∈ U) :
    ∃ l : List κ, l.Nodup ∧ l.length = k ∧
      ∀ x ∈ l, x ∈ U ∧ ∃ j ≤ k, ChainLength next stop x j := by
  induction h with
  | stop => exact ⟨[stop],by simp,rfl,by simpa [hn] using ⟨1,le_rfl,.stop⟩⟩
  | @last n hne hnone => exact ⟨[n],by simp,rfl,by simpa [hn] using ⟨1,le_rfl,.last hne hnone⟩⟩
  | @step n m k hne hnm h ih =>
    obtain ⟨l,hnd,hlen,hl⟩ := ih (hU n hn m hnm)
    have hself : ChainLength next stop n (k + 1) := .step hne hnm h
    have hnl : n ∉ l := by
      intro hmem
      obtain ⟨_,j,hj,hlj⟩ := hl n hmem
      have := hself.unique hlj
      omega
    refine ⟨n :: l,List.nodup_cons.mpr ⟨hnl,hnd⟩,by simp [hlen],?_⟩
    intro x hx
    rcases List.mem_cons.mp hx with rfl | hx
    · exact ⟨hn,k + 1,le_rfl,hself⟩
    · obtain ⟨hxU,j,hj,hxj⟩ := hl x hx
      exact ⟨hxU,j,by omega,hxj⟩

theorem walk_of_chainEnd [DecidableEq κ] {next : κ → Option κ} {stop n e : κ}
    (h : ChainEnd next stop n e) :
    ∃ k, ChainLength next stop n k ∧ ∀ fuel, k ≤ fuel → walk next stop fuel n = some e := by
  induction h with
  | stop =>
    refine ⟨1,.stop,fun fuel hf => ?_⟩
    obtain ⟨fuel,rfl⟩ := Nat.exists_eq_add_of_le' hf
    simp [walk]
  | last hne hn =>
    refine ⟨1,.last hne hn,fun fuel hf => ?_⟩
    obtain ⟨fuel,rfl⟩ := Nat.exists_eq_add_of_le' hf
    simp [walk,hne,hn]
  | step hne hn _ ih =>
    obtain ⟨k,hk,hw⟩ := ih
    refine ⟨k + 1,.step hne hn hk,fun fuel hf => ?_⟩
    obtain ⟨fuel,rfl⟩ := Nat.exists_eq_add_of_le' (Nat.le_of_add_left_le hf)
    simpa [walk,hne,hn] using hw fuel (by omega)

/-- Over a finite universe the walk runs out of fuel only if it never ends. -/
theorem walk_eq_some_iff [DecidableEq κ] {next : κ → Option κ} {stop n e : κ} {U : Finset κ}
    (hU : ∀ x ∈ U, ∀ y, next x = some y → y ∈ U) (hn : n ∈ U) {fuel : ℕ} (hf : U.card ≤ fuel) :
    walk next stop fuel n = some e ↔ ChainEnd next stop n e := by
  refine ⟨chainEnd_of_walk,fun h => ?_⟩
  obtain ⟨k,hk,hw⟩ := walk_of_chainEnd h
  obtain ⟨l,hnd,hlen,hl⟩ := hk.visited hU hn
  refine hw fuel (le_trans ?_ hf)
  rw [← hlen,← List.toFinset_card_of_nodup hnd]
  exact Finset.card_le_card fun x hx => (hl x (List.mem_toFinset.mp hx)).1

/-- One step of a walk that goes on. -/
def Passing (next : κ → Option κ) (stop n m : κ) : Prop := next n = some m ∧ m ≠ stop

/-- The walk from the successor of a vertex ends. -/
def WalkEnds (next : κ → Option κ) (stop n : κ) : Prop :=
  ∀ m, next n = some m → ∃ e, ChainEnd next stop m e

theorem ChainEnd.not_cycle {next : κ → Option κ} {stop n e : κ} (h : ChainEnd next stop n e)
    (hne : n ≠ stop) : ¬ TransGen (Passing next stop) n n := by
  induction h with
  | stop => exact absurd rfl hne
  | last _ hn =>
    intro hcycle
    obtain ⟨m,hnm,_⟩ := TransGen.head'_iff.mp hcycle
    cases hn.symm.trans hnm.1
  | @step n m e _ hn _ ih =>
    intro hcycle
    obtain ⟨m',hnm',hback⟩ := TransGen.head'_iff.mp hcycle
    obtain rfl := Option.some.inj (hn.symm.trans hnm'.1)
    exact ih hnm'.2 (TransGen.tail' hback hnm')

theorem WalkEnds.passing {next : κ → Option κ} {stop n m : κ} (h : WalkEnds next stop n)
    (hnm : Passing next stop n m) : WalkEnds next stop m := by
  intro k hk
  obtain ⟨e,he⟩ := h m hnm.1
  cases he with
  | stop => exact absurd rfl hnm.2
  | last _ hm => cases hm.symm.trans hk
  | step _ hm he =>
    obtain rfl := Option.some.inj (hm.symm.trans hk)
    exact ⟨e,he⟩

theorem WalkEnds.reach {next : κ → Option κ} {stop n m : κ} (h : WalkEnds next stop n)
    (hnm : ReflTransGen (Passing next stop) n m) : WalkEnds next stop m := by
  induction hnm with
  | refl => exact h
  | tail _ hstep ih => exact ih.passing hstep

theorem WalkEnds.not_cycle {next : κ → Option κ} {stop n : κ} (h : WalkEnds next stop n) :
    ¬ TransGen (Passing next stop) n n := by
  intro hcycle
  obtain ⟨m,hnm,hback⟩ := TransGen.head'_iff.mp hcycle
  obtain ⟨e,he⟩ := h m hnm.1
  exact he.not_cycle hnm.2 (TransGen.tail' hback hnm)

/-- Over a finite universe a walk ends unless it comes to a cycle that does not pass its goal. -/
theorem walkEnds_iff {next : κ → Option κ} {stop n : κ} {U : Finset κ}
    (hU : ∀ x y, next x = some y → y ∈ U) : WalkEnds next stop n ↔
      ¬ ∃ u, ReflTransGen (Passing next stop) n u ∧ TransGen (Passing next stop) u u := by
  constructor
  · rintro h ⟨u,hreach,hcycle⟩
    exact (h.reach hreach).not_cycle hcycle
  · intro h
    -- without a cycle, what the walk can reach is well founded
    let S := {x // ReflTransGen (Passing next stop) n x}
    have hfinite : Finite S := by
      refine Set.Finite.subset (U.finite_toSet.insert n) (fun x hx => ?_)
      rcases ReflTransGen.cases_tail hx with rfl | ⟨y,_,hyx⟩
      · exact Set.mem_insert x _
      · exact Set.mem_insert_of_mem n (hU y x hyx.1)
    have hirrefl : Std.Irrefl fun y x : S => TransGen (Passing next stop) x.1 y.1 :=
      ⟨fun x hx => h ⟨x.1,x.2,hx⟩⟩
    have htrans : IsTrans S fun y x => TransGen (Passing next stop) x.1 y.1 :=
      ⟨fun _ _ _ hyx hzy => hzy.trans hyx⟩
    have hwf := Finite.wellFounded_of_trans_of_irrefl
      fun y x : S => TransGen (Passing next stop) x.1 y.1
    have hends : ∀ x : S, WalkEnds next stop x.1 := by
      intro x
      induction hwf.apply x with
      | intro x _ ih =>
        intro m hm
        by_cases hs : m = stop
        · exact ⟨m,hs ▸ .stop⟩
        · have hxm : Passing next stop x.1 m := ⟨hm,hs⟩
          have hmends := ih ⟨m,x.2.tail hxm⟩ (.single hxm)
          cases hk : next m with
          | none => exact ⟨m,.last hs hk⟩
          | some k =>
            obtain ⟨e,he⟩ := hmends k hk
            exact ⟨e,.step hs hk he⟩
    exact hends ⟨n,.refl⟩

/-- A walk that ends does so at its goal iff the goal can be reached. -/
theorem ChainEnd.eq_stop_iff {next : κ → Option κ} {stop n e : κ} (h : ChainEnd next stop n e) :
    e = stop ↔ ReflTransGen (fun n m => next n = some m) n stop := by
  constructor
  · rintro rfl
    exact h.reach fun _ _ hnm => .single hnm
  · intro hreach
    induction h with
    | stop => rfl
    | last hne hn =>
      rcases ReflTransGen.cases_head hreach with heq | ⟨m,hnm,_⟩
      · exact heq
      · cases hn.symm.trans hnm
    | step hne hn _ ih =>
      rcases ReflTransGen.cases_head hreach with heq | ⟨m,hnm,hmt⟩
      · exact absurd heq hne
      · obtain rfl := Option.some.inj (hn.symm.trans hnm)
        exact ih hmt

/-- The chain relation: the second vertex's exclusive successor is the first. -/
def Chain (next : κ → Option κ) (m n : κ) : Prop := next n = some m

/-- A walk along a well-founded chain ends. -/
theorem exists_chainEnd {next : κ → Option κ} (stop : κ) {n : κ} (h : Acc (Chain next) n) :
    ∃ e, ChainEnd next stop n e := by
  induction h with
  | intro n _ ih =>
    by_cases hs : n = stop
    · subst hs; exact ⟨n,.stop⟩
    · cases hn : next n with
      | none => exact ⟨n,.last hs hn⟩
      | some m =>
        obtain ⟨e,he⟩ := ih m hn
        exact ⟨e,.step hs hn he⟩

/-- Attaching an unattached vertex as the successor of another keeps chains well founded. -/
theorem chain_wf_update [DecidableEq κ] {next : κ → Option κ} {w r : κ} (hwr : w ≠ r)
    (hr : next r = none) (h : WellFounded (Chain next)) :
    WellFounded (Chain (Function.update next w (some r))) := by
  have hacc : Acc (Chain (Function.update next w (some r))) r := by
    refine ⟨_,fun m hm => ?_⟩
    simp [Chain,Function.update_of_ne hwr.symm,hr] at hm
  refine ⟨fun n => ?_⟩
  induction h.apply n with
  | intro n _ ih =>
    refine ⟨_,fun m hm => ?_⟩
    by_cases hn : n = w
    · subst hn
      simp only [Chain,Function.update_self,Option.some.injEq] at hm
      exact hm ▸ hacc
    · simp only [Chain,Function.update_of_ne hn] at hm
      exact ih m hm

/-! ### Adding constraints -/

/-- Record one constraint; a new one that can be walked back is a contradiction. -/
def push (o : OrderGraph κ) (a b : κ) : OrderGraph κ where
  edge := insertEdge o.edge a b
  next := o.next
  cyclic := o.cyclic ∨ (¬ o.edge a b ∧ ReflTransGen o.edge b a)

/-- Order `b` after `a`: a new constraint is pushed behind `a`'s chain as well. -/
inductive AddEdge (o : OrderGraph κ) (a b : κ) : OrderGraph κ → Prop
  | old (h : o.edge a b) : AddEdge o a b o
  | plain (h : ¬ o.edge a b) (hn : o.next a = none) : AddEdge o a b (o.push a b)
  | onChain {r : κ} (h : ¬ o.edge a b) (hn : o.next a = some r)
      (hc : ChainEnd o.next b r b) : AddEdge o a b (o.push a b)
  | behind {r e : κ} (h : ¬ o.edge a b) (hn : o.next a = some r)
      (hc : ChainEnd o.next b r e) (he : e ≠ b) : AddEdge o a b ((o.push a b).push e b)

/-- Claim `r` as the exclusive successor of `w`; a second claim is a contradiction. -/
def attach [DecidableEq κ] (o : OrderGraph κ) (w r : κ) : OrderGraph κ :=
  match o.next w with
  | some _ => { o with cyclic := True }
  | none => { o with next := Function.update o.next w (some r) }

/-- Copy the constraints on what follows `w` to its exclusive successor. -/
def transfer (o : OrderGraph κ) (w r : κ) : OrderGraph κ :=
  { o with edge := fun x y => o.edge x y ∨ (x = r ∧ (o.edge w y ∧ y ≠ r)) }

/-- Make `r` the exclusive successor of `w`. -/
def AddNext [DecidableEq κ] (o : OrderGraph κ) (w r : κ) (o' : OrderGraph κ) : Prop :=
  AddEdge ((o.attach w r).transfer w r) w r o'

theorem push_edge_mono (o : OrderGraph κ) (a b : κ) {x y : κ} (h : o.edge x y) :
    (o.push a b).edge x y := Or.inl h

theorem push_edge_new (o : OrderGraph κ) (a b : κ) : (o.push a b).edge a b :=
  insertEdge_new _ _ _

theorem push_of_edge {o : OrderGraph κ} {a b : κ} (h : o.edge a b) : o.push a b = o := by
  ext x y
  · exact iff_of_eq (congrFun (congrFun (insertEdge_of_mem h) x) y)
  · rfl
  · simp [push,h]

theorem push_reach_mono (o : OrderGraph κ) (a b : κ) {x y : κ} (h : ReflTransGen o.edge x y) :
    ReflTransGen (o.push a b).edge x y :=
  ReflTransGen.mono (fun _ _ => push_edge_mono o a b) _ _ h

@[simp] theorem attach_edge [DecidableEq κ] (o : OrderGraph κ) (w r : κ) :
    (o.attach w r).edge = o.edge := by
  unfold attach; split <;> rfl

theorem attach_next_of_none [DecidableEq κ] {o : OrderGraph κ} {w : κ} (r : κ)
    (h : o.next w = none) : (o.attach w r).next = Function.update o.next w (some r) := by
  simp [attach,h]

theorem attach_next_of_some [DecidableEq κ] {o : OrderGraph κ} {w m : κ} (r : κ)
    (h : o.next w = some m) : (o.attach w r).next = o.next := by
  simp [attach,h]

@[simp] theorem transfer_next (o : OrderGraph κ) (w r : κ) :
    (o.transfer w r).next = o.next := rfl

namespace AddEdge

variable {o o' o'' : OrderGraph κ} {a b : κ}

/-- The outcome is determined, although the walk that finds it may fail to end. -/
theorem unique (h : AddEdge o a b o') (h' : AddEdge o a b o'') : o' = o'' := by
  cases h with
  | old h =>
    cases h' with
    | old => rfl
    | plain hn _ => exact (hn h).elim
    | onChain hn _ _ => exact (hn h).elim
    | behind hn _ _ _ => exact (hn h).elim
  | plain h hn =>
    cases h' with
    | old h' => exact (h h').elim
    | plain => rfl
    | onChain _ hn' _ => simp [hn] at hn'
    | behind _ hn' _ _ => simp [hn] at hn'
  | onChain h hn hc =>
    cases h' with
    | old h' => exact (h h').elim
    | plain _ hn' => simp [hn] at hn'
    | onChain => rfl
    | behind _ hn' hc' he =>
      obtain rfl := Option.some.inj (hn.symm.trans hn')
      exact (he (hc'.unique hc)).elim
  | behind h hn hc he =>
    cases h' with
    | old h' => exact (h h').elim
    | plain _ hn' => simp [hn] at hn'
    | onChain _ hn' hc' =>
      obtain rfl := Option.some.inj (hn.symm.trans hn')
      exact (he (hc.unique hc')).elim
    | behind _ hn' hc' _ =>
      obtain rfl := Option.some.inj (hn.symm.trans hn')
      rw [hc.unique hc']

theorem next_eq (h : AddEdge o a b o') : o'.next = o.next := by
  cases h <;> rfl

theorem edge_mono (h : AddEdge o a b o') {x y : κ} (hxy : o.edge x y) : o'.edge x y := by
  cases h with
  | old => exact hxy
  | plain => exact push_edge_mono _ _ _ hxy
  | onChain => exact push_edge_mono _ _ _ hxy
  | behind => exact push_edge_mono _ _ _ (push_edge_mono _ _ _ hxy)

theorem reach_mono (h : AddEdge o a b o') {x y : κ} (hxy : ReflTransGen o.edge x y) :
    ReflTransGen o'.edge x y :=
  ReflTransGen.mono (fun _ _ => h.edge_mono) _ _ hxy

theorem edge_new (h : AddEdge o a b o') : o'.edge a b := by
  cases h with
  | old h => exact h
  | plain => exact push_edge_new _ _ _
  | onChain => exact push_edge_new _ _ _
  | behind => exact push_edge_mono _ _ _ (push_edge_new _ _ _)

/-- Every new constraint ends in `b` and starts at `a` or at a vertex with no successor. -/
theorem edge_cases (h : AddEdge o a b o') {x y : κ} (hxy : o'.edge x y) :
    o.edge x y ∨ y = b ∧ (x = a ∨ o.next x = none) := by
  cases h with
  | old => exact Or.inl hxy
  | plain => exact hxy.imp id fun h => ⟨h.2,Or.inl h.1⟩
  | onChain => exact hxy.imp id fun h => ⟨h.2,Or.inl h.1⟩
  | behind _ _ hc he =>
    rcases hxy with (hxy | ⟨rfl,rfl⟩) | ⟨rfl,rfl⟩
    · exact Or.inl hxy
    · exact Or.inr ⟨rfl,Or.inl rfl⟩
    · exact Or.inr ⟨rfl,Or.inr (hc.next_eq_none he)⟩

theorem total (hwf : WellFounded (Chain o.next)) (a b : κ) : ∃ o', AddEdge o a b o' := by
  by_cases h : o.edge a b
  · exact ⟨o,.old h⟩
  · cases hn : o.next a with
    | none => exact ⟨_,.plain h hn⟩
    | some r =>
      obtain ⟨e,he⟩ := exists_chainEnd b (hwf.apply r)
      by_cases heb : e = b
      · exact ⟨_,.onChain h hn (heb ▸ he)⟩
      · exact ⟨_,.behind h hn he heb⟩

end AddEdge

/-! ### The contradiction flag -/

theorem push_sound {o : OrderGraph κ} (a b : κ) (h : ¬ o.cyclic → Acyclic o.edge)
    (hc : ¬ (o.push a b).cyclic) : Acyclic (o.push a b).edge := by
  simp only [push,not_or,not_and] at hc
  by_cases hab : o.edge a b
  · rw [push_of_edge hab]; exact h hc.1
  · exact (acyclic_insertEdge_iff _ _ _).mpr ⟨h hc.1,hc.2 hab⟩

theorem push_cause {o : OrderGraph κ} {a b : κ} (hc : (o.push a b).cyclic) :
    o.cyclic ∨ ¬ Acyclic (o.push a b).edge := by
  rcases hc with hc | ⟨_,hba⟩
  · exact Or.inl hc
  · exact Or.inr fun h => ((acyclic_insertEdge_iff _ _ _).mp h).2 hba

theorem not_acyclic_mono {E F : κ → κ → Prop} (hEF : ∀ x y, E x y → F x y)
    (h : ¬ Acyclic E) : ¬ Acyclic F := fun hF =>
  h fun x hx => hF x (TransGen.mono hEF _ _ hx)

/-- An unset flag stays truthful: each inserted constraint was checked. -/
theorem AddEdge.sound {o o' : OrderGraph κ} {a b : κ} (h : AddEdge o a b o')
    (ho : ¬ o.cyclic → Acyclic o.edge) : ¬ o'.cyclic → Acyclic o'.edge := by
  cases h with
  | old => exact ho
  | plain => exact push_sound a b ho
  | onChain => exact push_sound a b ho
  | behind => exact push_sound _ b (push_sound a b ho)

/-- A flag that rises has a directed cycle to show. -/
theorem AddEdge.cause {o o' : OrderGraph κ} {a b : κ} (h : AddEdge o a b o')
    (hc : o'.cyclic) : o.cyclic ∨ ¬ Acyclic o'.edge := by
  cases h with
  | old => exact Or.inl hc
  | plain => exact push_cause hc
  | onChain => exact push_cause hc
  | @behind r e _ _ _ _ =>
    rcases push_cause hc with hc | hc
    · exact (push_cause hc).imp id (not_acyclic_mono fun _ _ => push_edge_mono _ _ _)
    · exact Or.inr hc

theorem AddEdge.cyclic_mono {o o' : OrderGraph κ} {a b : κ} (h : AddEdge o a b o')
    (hc : o.cyclic) : o'.cyclic := by
  cases h with
  | old => exact hc
  | plain => exact Or.inl hc
  | onChain => exact Or.inl hc
  | behind => exact Or.inl (Or.inl hc)

theorem attach_cyclic_mono [DecidableEq κ] {o : OrderGraph κ} {w r : κ} (h : o.cyclic) :
    (o.attach w r).cyclic := by
  unfold attach; split <;> simp [h]

theorem AddNext.cyclic_mono [DecidableEq κ] {o o' : OrderGraph κ} {w r : κ}
    (h : AddNext o w r o') (hc : o.cyclic) : o'.cyclic :=
  AddEdge.cyclic_mono h (attach_cyclic_mono hc)

/-- Transferred constraints are not checked; a fresh successor makes that harmless. -/
theorem AddNext.sound [DecidableEq κ] {o o' : OrderGraph κ} {w r : κ} (h : AddNext o w r o')
    (hin : ∀ x, ¬ o.edge x r) (ho : ¬ o.cyclic → Acyclic o.edge) :
    ¬ o'.cyclic → Acyclic o'.edge := by
  refine AddEdge.sound h fun hc => ?_
  have hacyc : Acyclic o.edge := ho fun h => hc (attach_cyclic_mono h)
  have := acyclic_source (S := fun y => o.edge w y ∧ y ≠ r) hacyc hin fun y hy => hy.2
  simpa only [transfer,attach_edge] using this

theorem AddNext.cause [DecidableEq κ] {o o' : OrderGraph κ} {w r : κ} (h : AddNext o w r o')
    (hc : o'.cyclic) : o.cyclic ∨ ¬ Acyclic o'.edge ∨ ∃ m, o.next w = some m := by
  rcases AddEdge.cause h hc with hc | hc
  · cases hn : o.next w with
    | none => left; simpa [attach,transfer,hn] using hc
    | some m => exact Or.inr (Or.inr ⟨m,rfl⟩)
  · exact Or.inr (Or.inl hc)

theorem AddNext.cyclic_of_next [DecidableEq κ] {o o' : OrderGraph κ} {w r m : κ}
    (h : AddNext o w r o') (hn : o.next w = some m) : o'.cyclic := by
  refine AddEdge.cyclic_mono h ?_
  simp [attach,transfer,hn]

theorem AddNext.edge_mono [DecidableEq κ] {o o' : OrderGraph κ} {w r x y : κ}
    (h : AddNext o w r o') (hxy : o.edge x y) : o'.edge x y :=
  AddEdge.edge_mono h (Or.inl (by rwa [attach_edge]))

theorem AddNext.edge_new [DecidableEq κ] {o o' : OrderGraph κ} {w r : κ}
    (h : AddNext o w r o') : o'.edge w r := AddEdge.edge_new h

theorem AddNext.next_eq [DecidableEq κ] {o o' : OrderGraph κ} {w r : κ}
    (h : AddNext o w r o') : o'.next = (o.attach w r).next := by
  rw [AddEdge.next_eq h,transfer_next]

theorem AddNext.unique [DecidableEq κ] {o o' o'' : OrderGraph κ} {w r : κ}
    (h : AddNext o w r o') (h' : AddNext o w r o'') : o' = o'' := AddEdge.unique h h'

/-! ### Exclusivity -/

/-- Whatever is ordered after a vertex is its exclusive successor or lies behind it. -/
structure Exclusive (o : OrderGraph κ) : Prop where
  link : ∀ {n r}, o.next n = some r → ReflTransGen o.edge n r
  behind : ∀ {n r t}, o.next n = some r → o.edge n t → t ≠ r → ReflTransGen o.edge r t

theorem AddEdge.exclusive {o o' : OrderGraph κ} {a b : κ} (h : AddEdge o a b o')
    (ho : Exclusive o) : Exclusive o' := by
  refine ⟨fun hn => h.reach_mono (ho.link (h.next_eq ▸ hn)),fun {n r t} hn ht htr => ?_⟩
  rw [h.next_eq] at hn
  rcases h.edge_cases ht with ht | ⟨rfl,rfl | hnone⟩
  · exact h.reach_mono (ho.behind hn ht htr)
  · cases h with
    | old hab => exact ho.behind hn hab htr
    | plain _ hn' => simp [hn] at hn'
    | onChain _ hn' hc =>
      obtain rfl := Option.some.inj (hn.symm.trans hn')
      exact push_reach_mono _ _ _ (hc.reach fun _ _ => ho.link)
    | @behind _ e _ hn' hc _ =>
      obtain rfl := Option.some.inj (hn.symm.trans hn')
      have hre : ReflTransGen ((o.push n t).push e t).edge r e :=
        push_reach_mono _ _ _ (push_reach_mono o n t (hc.reach fun _ _ => ho.link))
      exact hre.tail (push_edge_new _ _ _)
  · simp [hn] at hnone

/-- Attaching a fresh successor to a vertex that has none keeps exclusivity. -/
theorem AddNext.exclusive [DecidableEq κ] {o o' : OrderGraph κ} {w r : κ}
    (h : AddNext o w r o') (ho : Exclusive o) (hin : ∀ x, ¬ o.edge x r) (hr : o.next r = none)
    (hw : o.next w = none) : Exclusive o' := by
  have hnext : o'.next = Function.update o.next w (some r) := by
    rw [h.next_eq,attach_next_of_none r hw]
  -- with `r` at hand the walk from `w` stops at once, so `w → r` is the only checked edge
  have hpush : o' = ((o.attach w r).transfer w r).push w r := by
    have hn : ((o.attach w r).transfer w r).next w = some r := by
      simp [attach_next_of_none r hw]
    cases h with
    | old h => exact (push_of_edge h).symm
    | plain _ hn' => simp [hn] at hn'
    | onChain => rfl
    | behind _ hn' hc he =>
      obtain rfl := Option.some.inj (hn.symm.trans hn')
      exact (he (hc.unique .stop)).elim
  have hmono : ∀ {x y}, o.edge x y → o'.edge x y := fun hxy => h.edge_mono hxy
  have hcases : ∀ {x y}, o'.edge x y → o.edge x y ∨ (x = r ∧ o.edge w y ∧ y ≠ r) ∨
    (x = w ∧ y = r) := by
    intro x y hxy
    rw [hpush] at hxy
    rcases hxy with hxy | hxy
    · simp only [transfer,attach_edge] at hxy
      exact hxy.imp id Or.inl
    · exact Or.inr (Or.inr hxy)
  refine ⟨fun {n m} hn => ?_,fun {n m t} hn ht htm => ?_⟩
  · rw [hnext] at hn
    by_cases hnw : n = w
    · subst hnw
      obtain rfl : r = m := by simpa using hn
      exact .single h.edge_new
    · rw [Function.update_of_ne hnw] at hn
      exact ReflTransGen.mono (fun _ _ => hmono) _ _ (ho.link hn)
  · rw [hnext] at hn
    by_cases hnw : n = w
    · subst hnw
      obtain rfl : r = m := by simpa using hn
      rcases hcases ht with ht | ⟨rfl,ht,_⟩ | ⟨_,rfl⟩
      · refine ReflTransGen.single ?_
        rw [hpush]
        exact push_edge_mono _ _ _ (Or.inr ⟨rfl,by rwa [attach_edge],htm⟩)
      · exact ReflTransGen.single (hmono ht)
      · exact (htm rfl).elim
    · rw [Function.update_of_ne hnw] at hn
      rcases hcases ht with ht | ⟨rfl,_,_⟩ | ⟨rfl,_⟩
      · exact ReflTransGen.mono (fun _ _ => hmono) _ _ (ho.behind hn ht htm)
      · simp [hr] at hn
      · exact (hnw rfl).elim

end OrderGraph
