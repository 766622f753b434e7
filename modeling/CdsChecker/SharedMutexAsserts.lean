import CdsChecker.SharedMutex

/-! The assertions of `std::shared_mutex`: one of them rejects a second reader. -/
namespace CdsChecker.SharedMutex

/-- The load of `lock_shared`, if it is one, sees no reader. -/
def State.SpinLow (s : State) (c : Choice) : Prop :=
  ∀ val, s.clients[c.thread]? = some (.lockShared val) →
    ∀ v, s.refcount.load c.readsFrom = some v → v ≤ 0

def State.spinsLow (s : State) (c : Choice) : Bool :=
  match s.clients[c.thread]? with
  | some (.lockShared _) => (s.refcount.load c.readsFrom).all (· ≤ 0)
  | _ => true

theorem State.spinsLow_iff {s : State} {c : Choice} : s.spinsLow c = true ↔ s.SpinLow c := by
  unfold spinsLow SpinLow
  split
  · rename_i hclient
    simp [hclient,Option.all_eq_true]
  · rename_i hclient
    exact iff_of_true rfl fun val hval => (hclient val hval).elim

instance (s : State) (c : Choice) : Decidable (s.SpinLow c) :=
  decidable_of_iff _ State.spinsLow_iff

theorem assertRefcount_failed {a : AtomicCell ℤ} {assertion : Assertion} {expr : ℤ → Prop}
    [DecidablePred expr] {next : Client} :
    (assertRefcount a assertion expr next).failed = [] ↔ expr a.latest := modelAssert_eq_nil

/-- Only the assertion between the two loops of `lock_shared` can fail. -/
theorem Client.step_failed {a : AtomicCell ℤ} {c : Choice} {p : Client} {e : Effect}
    (h : p.step a c = some e) (hp : p.Knows) (hsees : p.Sees a.latest)
    (hvalues : a.All (LOCK_WRITER ≤ ·)) :
    e.failed = [] ↔ ∀ val, p = .lockSharedFree val → val = 0 := by
  cases p with
  | outside | writing | reading =>
    cases h
    simp
  | lock val | lockSharedExchange val =>
    obtain ⟨⟨ok,v,a'⟩,-,rfl⟩ := Option.map_eq_some_iff.mp h
    simp
  | lockShared val =>
    obtain ⟨v,-,rfl⟩ := Option.map_eq_some_iff.mp h
    simp
  | lockVal val =>
    cases h
    have hzero : val = 0 := hp
    simp [modelAssert_eq_nil,hzero]
  | lockSharedVal val =>
    cases h
    have hlow : 0 ≤ val := hp
    simp [modelAssert_eq_nil,hlow]
  | lockRefcount =>
    cases h
    simp [assertRefcount_failed,hsees.1 rfl]
  | lockSharedRefcount =>
    cases h
    simp [assertRefcount_failed,hsees.2 rfl]
  | unlockRefcount | unlockSharedRefcount =>
    cases h
    simp [assertRefcount_failed,hvalues.latest]
  | lockSharedFree val =>
    cases h
    simp [modelAssert_eq_nil]

/-- No reader is about to act on the count of another. -/
def Client.Quiet : Client → Prop
  | lockSharedFree val | lockSharedExchange val => val ≤ 0
  | _ => True

theorem Client.step_quiet {a : AtomicCell ℤ} {c : Choice} {p : Client} {e : Effect}
    (h : p.step a c = some e) (hp : p.Quiet)
    (hlow : ∀ val, p = .lockShared val → ∀ v, a.load c.readsFrom = some v → v ≤ 0) :
    e.client.Quiet := by
  cases p with
  | outside =>
    cases h
    by_cases hc : c.shared <;> simp [hc,Quiet]
  | lock val | lockSharedExchange val =>
    obtain ⟨⟨ok,v,a'⟩,-,rfl⟩ := Option.map_eq_some_iff.mp h
    cases ok <;> trivial
  | lockVal val | lockSharedVal val | writing | reading | lockRefcount | unlockRefcount
  | lockSharedRefcount | unlockSharedRefcount =>
    cases h
    trivial
  | lockSharedFree val =>
    cases h
    exact hp
  | lockShared val =>
    obtain ⟨v,hv,rfl⟩ := Option.map_eq_some_iff.mp h
    by_cases hw : v = LOCK_WRITER
    · simp [hw,Quiet]
    · simp only [hw,if_false]
      exact hlow val rfl v hv

/-- The invariant of runs in which no reader sees another. -/
structure Calm (s : State) : Prop where
  inv : Inv s
  quiet : ∀ p ∈ s.clients, p.Quiet
  readers : s.readers ≤ 1
  failed : s.failed = []

theorem Calm.readers_step {s s' : State} {c : Choice} (h : Calm s) (hstep : s.step c = some s') :
    s'.readers ≤ 1 := by
  obtain ⟨p,q,hp,hturn,hw,hr⟩ := State.step_turn hstep
  have hone := h.readers
  generalize s'.refcount = a' at hturn
  cases hturn with
  | stay _ hqr | rewrite _ hqr =>
    rw [hqr] at hr
    omega
  | lock _ _ hpr hqr | unlock _ _ hpr hqr | unlockShared _ _ hpr hqr =>
    simp only [hpr,hqr,if_true,Bool.false_eq_true,if_false,Nat.add_zero] at hr
    omega
  | lockShared _ _ hpr hqr hexchange =>
    simp only [hpr,hqr,if_true,Bool.false_eq_true,if_false,Nat.add_zero] at hr
    have hmem := List.mem_of_getElem? hp
    have hlow := h.quiet p hmem
    have hnonneg := h.inv.knows p hmem
    rw [hexchange] at hlow hnonneg
    change s.refcount.latest ≤ 0 at hlow
    change 0 ≤ s.refcount.latest at hnonneg
    have hcount := h.inv.counted.count
    split at hcount
    · omega
    · rw [hcount] at hnonneg
      exact absurd hnonneg (by decide)

theorem Calm.step_failed {s s' : State} {c : Choice} (h : Calm s) (hstep : s.step c = some s') :
    s'.failed = [] := by
  obtain ⟨p,e,hp,he,rfl⟩ := State.step_cases hstep
  have hmem := List.mem_of_getElem? hp
  have hpass := (Client.step_failed he (h.inv.knows p hmem) (h.inv.counted.sees hmem)
    h.inv.values).mpr fun val hval => by
    have hlow := h.quiet p hmem
    have hnonneg := h.inv.knows p hmem
    subst hval
    exact le_antisymm hlow hnonneg
  simp [h.failed,hpass]

theorem Calm.init (n : ℕ) : Calm (State.init n) := by
  refine ⟨Inv.init n,fun p hp => ?_,?_,rfl⟩
  · rw [(List.mem_replicate.mp hp).2]
    trivial
  · have hreaders : (State.init n).readers = 0 := by
      simp [State.readers,State.init,List.countP_replicate,Client.insideRead]
    omega

theorem Calm.step {s s' : State} {c : Choice} (h : Calm s) (hlow : s.SpinLow c)
    (hstep : s.step c = some s') : Calm s' := by
  have hreaders := h.readers_step hstep
  have hmax : (s'.readers : ℤ) < INT_MAX := lt_of_le_of_lt (Int.ofNat_le.mpr hreaders) (by decide)
  refine ⟨h.inv.step hstep hmax,?_,hreaders,h.step_failed hstep⟩
  obtain ⟨p,e,hp,he,rfl⟩ := State.step_cases hstep
  intro q hq
  rcases List.mem_or_eq_of_mem_set hq with hold | rfl
  · exact h.quiet q hold
  · exact Client.step_quiet he (h.quiet p (List.mem_of_getElem? hp)) fun val hval =>
      hlow val (hval ▸ hp)

/-- An assertion has failed, or the next statement of a client is one that fails. -/
def State.Doomed (s : State) : Prop :=
  s.failed ≠ [] ∨
    ∃ (t : ℕ) (val : ℤ), s.clients[t]? = some (Client.lockSharedFree val) ∧ val ≠ 0

theorem State.Doomed.step {s s' : State} {c : Choice} (h : s.Doomed) (hstep : s.step c = some s') :
    s'.Doomed := by
  obtain ⟨p,e,hp,he,rfl⟩ := State.step_cases hstep
  rcases h with hfailed | ⟨t,val,ht,hval⟩
  · exact .inl fun hnil => hfailed (List.append_eq_nil_iff.mp hnil).1
  · by_cases hct : c.thread = t
    · subst hct
      cases Option.some.inj (hp.symm.trans ht)
      cases he
      refine .inl fun hnil => hval ?_
      exact modelAssert_eq_nil.mp (List.append_eq_nil_iff.mp hnil).2
    · refine .inr ⟨t,val,?_,hval⟩
      simp only [List.getElem?_set_ne hct,ht]

theorem State.doomed_of_not_spinLow {s s' : State} {c : Choice} (h : ¬ s.SpinLow c)
    (hstep : s.step c = some s') : s'.Doomed := by
  obtain ⟨p,e,hp,he,rfl⟩ := State.step_cases hstep
  simp only [SpinLow,not_forall] at h
  obtain ⟨val,hval,v,hv,hpos⟩ := h
  cases Option.some.inj (hp.symm.trans hval)
  have hne : v ≠ LOCK_WRITER := fun hv => hpos (hv ▸ by decide)
  simp only [Client.step,hv,Option.map_some,if_neg hne,Option.some.injEq] at he
  subst he
  have hi := (List.getElem?_eq_some_iff.mp hp).1
  exact .inr ⟨c.thread,v,by simp [hi],fun hzero => hpos hzero.le⟩

theorem State.Doomed.exists_failed {s : State} (h : s.Doomed) :
    s.failed ≠ [] ∨ ∃ c s', s.step c = some s' ∧ s'.failed ≠ [] := by
  rcases h with hfailed | ⟨t,val,ht,hval⟩
  · exact .inl hfailed
  · have hstep : s.step ⟨t,false,0,false⟩ = some
        { refcount := s.refcount
          clients := s.clients.set t (.lockSharedExchange val)
          failed := s.failed ++ modelAssert .lockSharedFree (val = 0) } := by
      simp [State.step,ht,Client.step]
    exact .inr ⟨_,_,hstep,by simp [modelAssert,hval]⟩

/-- Two clients call `lock_shared`, and the second loads the count of the first. -/
theorem lockShared_twice_fails : ¬ ∀ (n : ℕ) (trace : List (State × Choice)) (s : State),
    Run n trace s → s.failed = [] := by
  intro hclaim
  obtain ⟨trace,s,hrun,hfailed⟩ := Run.exists_play 2
    [⟨0,true,0,false⟩,⟨0,true,1,false⟩,⟨0,true,1,false⟩,⟨0,true,1,false⟩,⟨1,true,0,false⟩,
      ⟨1,true,2,false⟩,⟨1,true,0,false⟩]
    (fun _ s => s.failed = [.lockSharedFree]) ⟨_,rfl,by decide⟩
  rw [hclaim 2 trace s hrun] at hfailed
  cases hfailed

/-- No assertion fails in a run, or at its next step, exactly when no load of `lock_shared`
sees another reader. -/
theorem assertions_hold_iff (n : ℕ) (trace : List (State × Choice)) (s : State)
    (h : Run n trace s) :
    (∀ x ∈ trace, x.1.SpinLow x.2) ↔
      s.failed = [] ∧ ∀ c s', s.step c = some s' → s'.failed = [] := by
  have hcalm : (∀ x ∈ trace, x.1.SpinLow x.2) → Calm s := by
    induction h with
    | init => exact fun _ => Calm.init n
    | step h hstep ih =>
      intro hlow
      obtain ⟨hlast,hlow⟩ := List.forall_mem_cons.mp hlow
      exact (ih hlow).step hlast hstep
  have hdoomed : (∃ x ∈ trace, ¬ x.1.SpinLow x.2) → s.Doomed := by
    clear hcalm
    induction h with
    | init => simp
    | step h hstep ih =>
      rintro ⟨x,hx,hlow⟩
      rcases List.mem_cons.mp hx with rfl | hx
      · exact State.doomed_of_not_spinLow hlow hstep
      · exact (ih ⟨x,hx,hlow⟩).step hstep
  constructor
  · exact fun hlow => ⟨(hcalm hlow).failed,fun c s' => (hcalm hlow).step_failed⟩
  · rintro ⟨hfailed,hnext⟩ x hx
    by_contra hlow
    rcases (hdoomed ⟨x,hx,hlow⟩).exists_failed with hbad | ⟨c,s',hstep,hbad⟩
    · exact hbad hfailed
    · exact hbad (hnext c s' hstep)

/-- A reader waits for a writer, which comes back while the reader is inside. -/
def handover : List Choice :=
  [⟨0,false,0,false⟩,⟨0,false,1,false⟩,⟨1,true,0,false⟩,⟨1,true,2,false⟩,⟨0,false,0,false⟩,
    ⟨0,false,0,false⟩,⟨0,false,0,false⟩,⟨1,true,4,false⟩,⟨0,false,0,false⟩,⟨1,true,0,false⟩,
    ⟨1,true,5,false⟩,⟨1,true,0,false⟩,⟨0,false,0,false⟩,⟨0,false,6,false⟩,⟨1,true,0,false⟩,
    ⟨1,true,0,false⟩,⟨0,false,8,false⟩,⟨1,true,0,false⟩]

theorem assertions_hold_iff_handover : ∃ trace s, Run 2 trace s ∧
    s.refcount.values = [0,0,-1,-1,0,0,1,1,0,-1,-1] ∧ s.clients = [.lockVal 0,.outside] ∧
    ((∀ x ∈ trace, x.1.SpinLow x.2) ↔
      s.failed = [] ∧ ∀ c s', s.step c = some s' → s'.failed = []) ∧
    ∀ x ∈ trace, x.1.SpinLow x.2 := by
  obtain ⟨trace,s,hrun,hvalues,hclients,hlow⟩ := Run.exists_play 2 handover
    (fun trace s => s.refcount.values = [0,0,-1,-1,0,0,1,1,0,-1,-1] ∧
      s.clients = [.lockVal 0,.outside] ∧ ∀ x ∈ trace, x.1.SpinLow x.2) ⟨_,rfl,by decide⟩
  exact ⟨trace,s,hrun,hvalues,hclients,assertions_hold_iff 2 trace s hrun,hlow⟩

end CdsChecker.SharedMutex
