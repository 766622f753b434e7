import CdsChecker.ScQuiet

/-! What the analysis makes of a trace without atomic accesses. -/
namespace CdsChecker
namespace SCAnalysis

theorem getD_modify_append {l : List (List ActionId)} {t : ThreadId} (ht : t < l.length)
    (a : ActionId) (u : ThreadId) :
    (l.modify t fun m => m ++ [a]).getD u [] = l.getD u [] ++ if u = t then [a] else [] := by
  rw [List.getD_eq_getElem?_getD,List.getD_eq_getElem?_getD,List.getElem?_modify]
  by_cases hut : u = t
  · subst hut
    rw [List.getElem?_eq_getElem ht]
    simp
  · cases l[u]? <;> simp [hut,Ne.symm hut]

theorem getD_resize {l : List (List ActionId)} {size : ℕ} (h : l.length ≤ size) (u : ThreadId) :
    (resize l size []).getD u [] = l.getD u [] := by
  rw [resize,List.take_of_length_le h,List.getD_eq_getElem?_getD,List.getD_eq_getElem?_getD]
  by_cases hu : u < l.length
  · rw [List.getElem?_append_left hu]
  · rw [List.getElem?_append_right (Nat.le_of_not_lt hu),List.getElem?_replicate,
      List.getElem?_eq_none (Nat.le_of_not_lt hu)]
    split <;> rfl

/-- The threads' lists of a part of the trace. -/
def Holds (e : Execution) (s : SCAnalysis) (part : List ActionId) : Prop :=
  ∀ t, s.threadlist t = part.filter fun a => (e.acts a).tid = t

/-- After the vectors of a first part of the trace were built: `seen` has clock vectors and room
for its threads, and `pre` is in the lists. -/
structure Built (e : Execution) (acts seen pre : List ActionId) (s : SCAnalysis) : Prop where
  fast : s.fastVersion = true
  acyclic : s.cyclic = false
  cvmap : ∀ a cv, s.cvmap a = some cv →
    cv = ClockVector.create none (e.acts a).tid (e.acts a).seqNumber
  known : ∀ a ∈ seen, (s.cvmap a).isSome
  nodes : ∀ a node b, s.nodeMap a = some node → (node.sb = some b ∨ node.specialEdge = some b) →
    a ∈ acts ∧ b ∈ acts ∧ (e.acts a).seqNumber < (e.acts b).seqNumber
  updates : ∀ a ∈ s.updateSet, a ∈ acts
  size : s.updateSetSize = s.updateSet.length
  holds : Holds e s pre
  threads : ∀ a ∈ seen, (e.acts a).tid ≤ s.maxthreads
  length : s.threadlists.length = s.maxthreads + 1

variable {e : Execution} {acts seen pre : List ActionId} {s : SCAnalysis} {act : ActionId}

theorem Built.setNode (h : Built e acts seen pre s) {a b : ActionId} {node : ActionNode}
    (ha : a ∈ acts) (hb : b ∈ acts) (hlt : (e.acts a).seqNumber < (e.acts b).seqNumber)
    (hnode : ∀ c, node.sb = some c ∨ node.specialEdge = some c →
      c = b ∨ (s.node a).sb = some c ∨ (s.node a).specialEdge = some c) :
    Built e acts seen pre (s.setNode a node) := by
  refine { h with nodes := fun x node' c hx hc => ?_ }
  by_cases hxa : x = a
  · subst hxa
    obtain rfl : node = node' := by simpa [SCAnalysis.setNode] using hx
    rcases hnode c hc with rfl | hold
    · exact ⟨ha,hb,hlt⟩
    · cases hs : s.nodeMap x with
      | none => simp [SCAnalysis.node,hs] at hold
      | some old => exact h.nodes x old c hs (by simpa [SCAnalysis.node,hs] using hold)
  · exact h.nodes x node' c (by simpa [SCAnalysis.setNode,hxa] using hx) hc

theorem Built.addSb (h : Built e acts seen pre s) {a b : ActionId} (ha : a ∈ acts) (hb : b ∈ acts)
    (hlt : (e.acts a).seqNumber < (e.acts b).seqNumber) : Built e acts seen pre (s.addSb a b) := by
  refine h.setNode ha hb hlt fun c hc => ?_
  rcases hc with hc | hc
  · exact .inl (Option.some.inj hc).symm
  · exact .inr (.inr hc)

theorem Built.addSpecialEdge (h : Built e acts seen pre s) {a b : ActionId} (ha : a ∈ acts)
    (hb : b ∈ acts) (hlt : (e.acts a).seqNumber < (e.acts b).seqNumber) :
    Built e acts seen pre (s.addSpecialEdge a b) := by
  refine h.setNode ha hb hlt fun c hc => ?_
  rcases hc with hc | hc
  · exact .inr (.inl hc)
  · exact .inl (Option.some.inj hc).symm

theorem Built.pushChange (h : Built e acts seen pre s) {a : ActionId} (ha : a ∈ acts) :
    Built e acts seen pre (s.pushChange a) := by
  refine { h with updates := fun b hb => ?_,size := ?_ }
  · rcases List.mem_append.mp hb with hb | hb
    · exact h.updates b hb
    · exact List.mem_singleton.mp hb ▸ ha
  · simp [SCAnalysis.pushChange,h.size]

theorem Built.ensureCV (h : Built e acts seen pre s) (act : ActionId) :
    Built e acts seen pre (s.ensureCV e act) ∧ ((s.ensureCV e act).cvmap act).isSome := by
  unfold SCAnalysis.ensureCV
  split
  · exact ⟨h,by assumption⟩
  · refine ⟨{ h with cvmap := fun a cv ha => ?_,known := fun a ha => ?_ },by simp⟩
    · by_cases hne : a = act
      · subst hne
        simpa using ha.symm
      · exact h.cvmap a cv (by simpa [hne] using ha)
    · by_cases hne : a = act
      · simp [hne]
      · simpa [hne] using h.known a ha

/-- A clock vector and room for the next action. -/
theorem Built.grow (h : Built e acts seen pre s) (act : ActionId) :
    Built e acts (seen ++ [act]) pre ((s.ensureCV e act).growThreads (e.acts act).tid) := by
  obtain ⟨hbuilt,hsome⟩ := h.ensureCV act
  have hknown : ∀ a ∈ seen ++ [act], ((s.ensureCV e act).cvmap a).isSome := fun a ha => by
    rcases List.mem_append.mp ha with ha | ha
    · exact hbuilt.known a ha
    · rw [List.mem_singleton.mp ha]
      exact hsome
  unfold SCAnalysis.growThreads
  split
  · rename_i hlt
    have hlen : (s.ensureCV e act).threadlists.length ≤ (e.acts act).tid + 1 := by
      rw [hbuilt.length]
      exact Nat.succ_le_succ (Nat.le_of_lt hlt)
    refine { hbuilt with
      known := hknown,holds := fun u => ?_,threads := fun a ha => ?_,length := ?_ }
    · exact (getD_resize hlen u).trans (hbuilt.holds u)
    · rcases List.mem_append.mp ha with ha | ha
      · exact (hbuilt.threads a ha).trans (Nat.le_of_lt hlt)
      · rw [List.mem_singleton.mp ha]
    · exact length_resize _ _ _
  · rename_i hge
    refine { hbuilt with known := hknown,threads := fun a ha => ?_ }
    rcases List.mem_append.mp ha with ha | ha
    · exact hbuilt.threads a ha
    · rw [List.mem_singleton.mp ha]
      exact Nat.le_of_not_lt hge

/-- There is room for the write lists of an action that is in bounds. -/
theorem addWrite_ok (hne : (e.acts act).tid ≠ (s.writeMap (e.acts act).location).length) :
    ∃ lists, s.addWrite e act =
      .ok { s with writeMap := Function.update s.writeMap (e.acts act).location lists } := by
  have hroom : ∃ x, (if (s.writeMap (e.acts act).location).length < (e.acts act).tid then
      resize (s.writeMap (e.acts act).location) ((e.acts act).tid + 1) none
      else s.writeMap (e.acts act).location)[(e.acts act).tid]? = some x := by
    by_cases hshort : (s.writeMap (e.acts act).location).length < (e.acts act).tid
    · rw [if_pos hshort]
      exact ⟨_,List.getElem?_eq_getElem (by rw [length_resize]; exact Nat.lt_succ_self _)⟩
    · rw [if_neg hshort]
      exact ⟨_,List.getElem?_eq_getElem
        (Nat.lt_of_le_of_ne (Nat.le_of_not_lt hshort) hne)⟩
  obtain ⟨x,hx⟩ := hroom
  simp only [SCAnalysis.addWrite,hx,deref]
  exact ⟨_,rfl⟩

theorem Built.addLast (h : Built e acts seen pre s) (hpre : ∀ a ∈ pre, a ∈ acts ∧
    (e.acts a).seqNumber < (e.acts act).seqNumber) (hact : act ∈ acts) :
    Built e acts seen pre (s.addLast e act) := by
  unfold SCAnalysis.addLast
  split
  · exact h
  · rename_i last hlast
    have hmem := List.mem_of_getLast? hlast
    rw [h.holds] at hmem
    obtain ⟨hacts,hlt⟩ := hpre last (List.mem_of_mem_filter hmem)
    exact h.addSb hacts hact hlt

theorem Built.addStart (h : Built e acts seen pre s) (hquiet : Quiet e acts) (hact : act ∈ acts) :
    Built e acts seen pre (s.addStart e act) := by
  unfold SCAnalysis.addStart
  split
  · rename_i hstart
    split
    · exact h
    · rename_i create hcreate
      obtain ⟨hmem,hlt⟩ := hquiet.created act hact hstart create hcreate
      exact (h.addSpecialEdge hmem hact hlt).pushChange hmem
  · exact h

theorem Built.addJoin (h : Built e acts seen pre s) (hquiet : Quiet e acts) (hact : act ∈ acts) :
    ∃ s', s.addJoin e act = .ok s' ∧ Built e acts seen pre s' := by
  unfold SCAnalysis.addJoin
  cases hjoin : (e.acts act).getThreadOperand with
  | none => exact ⟨s,rfl,h⟩
  | some u =>
    obtain ⟨finish,hlast,hmem,hlt⟩ := hquiet.joined act hact u hjoin
    refine ⟨(s.addSpecialEdge finish act).pushChange finish,?_,
      (h.addSpecialEdge hmem hact hlt).pushChange hmem⟩
    simp only [hlast,deref]
    rfl

theorem Built.pushBack (h : Built e acts (pre ++ [act]) pre s) :
    Built e acts (pre ++ [act]) (pre ++ [act]) (s.pushBack (e.acts act).tid act) := by
  have htid : (e.acts act).tid < s.threadlists.length := by
    rw [h.length]
    exact Nat.lt_succ_of_le (h.threads act (by simp))
  refine { h with holds := fun u => ?_,length := ?_ }
  · have hu := getD_modify_append htid act u
    rw [List.filter_append,← h.holds u]
    refine hu.trans ?_
    congr 1
    by_cases heq : u = (e.acts act).tid
    · simp [heq]
    · simp [heq,Ne.symm heq]
  · simpa [SCAnalysis.pushBack] using h.length

/-- One action of the trace. -/
theorem Built.buildFast (h : Built e acts pre pre s) (hquiet : Quiet e acts)
    (hpre : ∀ a ∈ pre, a ∈ acts ∧ (e.acts a).seqNumber < (e.acts act).seqNumber)
    (hact : act ∈ acts) (hne : (e.acts act).tid ≠ (s.writeMap (e.acts act).location).length) :
    ∃ s', SCAnalysis.buildFast e s act = .ok s' ∧
      Built e acts (pre ++ [act]) (pre ++ [act]) s' := by
  rw [← ensureCV_writeMap e s act,← growThreads_writeMap _ (e.acts act).tid] at hne
  obtain ⟨lists,hwrite⟩ := addWrite_ok hne
  let t : SCAnalysis := (s.ensureCV e act).growThreads (e.acts act).tid
  let u : SCAnalysis :=
    { t with writeMap := Function.update t.writeMap (e.acts act).location lists }
  have hgrow : Built e acts (pre ++ [act]) pre t := h.grow act
  have hlast : Built e acts (pre ++ [act]) pre (u.addLast e act) :=
    Built.addLast { hgrow with } hpre hact
  have hrf : (u.addLast e act).addRf e act = .ok (u.addLast e act) := by
    rw [addRf,if_neg (by simp [(hquiet.silent act hact).1])]
  obtain ⟨v,hjoin,hv⟩ := (hlast.addStart hquiet hact).addJoin hquiet hact
  refine ⟨v.pushBack (e.acts act).tid act,?_,hv.pushBack⟩
  change (t.addWrite e act >>= fun s => (s.addLast e act).addRf e act >>= fun s =>
    (s.addStart e act).addJoin e act >>= fun s => pure (s.pushBack (e.acts act).tid act)) = _
  rw [hwrite]
  change ((u.addLast e act).addRf e act >>= _) = _
  rw [hrf]
  change (((u.addLast e act).addStart e act).addJoin e act >>= _) = _
  rw [hjoin]
  rfl

theorem Built.init (e : Execution) (acts : List ActionId) : Built e acts [] [] {} where
  fast := rfl
  acyclic := rfl
  cvmap := fun _ _ h => by cases h
  known := by simp
  nodes := fun _ _ _ h => by cases h
  updates := by simp
  size := rfl
  holds := fun t => by cases t <;> rfl
  threads := by simp
  length := rfl

/-- The vectors of the trace are built where it is in bounds. -/
theorem buildFast_built (hquiet : Quiet e acts) (hin : InBounds e acts) (hpre : pre <+: acts) :
    ∃ s, pre.foldlM (SCAnalysis.buildFast e) {} = .ok s ∧ Built e acts pre pre s := by
  induction pre using List.reverseRecOn with
  | nil => exact ⟨{},rfl,.init e acts⟩
  | append_singleton pre act ih =>
    obtain ⟨post,hpost⟩ := hpre
    rw [List.append_assoc] at hpost
    obtain ⟨s,hs,hbuilt⟩ := ih ⟨_,hpost⟩
    have hlen := (buildFast_inBounds (fun _ => rfl) hs).2 (e.acts act).location
    have hne := hin pre act post hpost.symm
    rw [← hlen] at hne
    have hsorted := hquiet.sorted
    rw [← hpost] at hsorted
    have hold : ∀ a ∈ pre, a ∈ acts ∧ (e.acts a).seqNumber < (e.acts act).seqNumber :=
      fun a ha => ⟨hpost ▸ List.mem_append_left _ ha,
        (List.pairwise_append.mp hsorted).2.2 a ha act (by simp)⟩
    obtain ⟨s',hs',hbuilt'⟩ := hbuilt.buildFast hquiet hold (hpost ▸ by simp) hne
    exact ⟨s',foldlM_concat_ok.mpr ⟨s,hs,hs'⟩,hbuilt'⟩

theorem Built.calm (h : Built e acts acts acts s) (hquiet : Quiet e acts) :
    Calm e acts (s.maxthreads + 1) s where
  fast := h.fast
  acyclic := h.acyclic
  known a ha := by
    obtain ⟨cv,hcv⟩ := Option.isSome_iff_exists.mp (h.known a ha)
    refine ⟨cv,hcv,?_⟩
    rw [h.cvmap a cv hcv]
    exact Low.create (hquiet.pos a ha) (Nat.lt_succ_of_le (h.threads a ha))
  nodes := h.nodes
  updates := h.updates
  size := h.size

/-! ### The order -/

/-- The only oldest action is found. -/
theorem oldest_eq {e : Execution} {array : List ActionId} {a : ActionId} (ha : a ∈ array)
    (hmin : ∀ b ∈ array, b = a ∨ (e.acts a).seqNumber < (e.acts b).seqNumber) :
    oldest e array = some a := by
  obtain ⟨choose,hchoose,hfirst,hbetter⟩ :
      ∃ choose : Option ActionId → ActionId → Option ActionId,
        oldest e array = array.foldl choose none ∧ (∀ act, choose none act = some act) ∧
        ∀ best act, choose (some best) act = if e.before act best then some act else some best :=
    ⟨_,rfl,fun _ => rfl,fun _ _ => rfl⟩
  have hfold : ∀ (l : List ActionId) (found : Option ActionId), (a ∈ l ∨ found = some a) →
      (∀ b, b ∈ l ∨ found = some b → b = a ∨ (e.acts a).seqNumber < (e.acts b).seqNumber) →
      l.foldl choose found = some a := by
    intro l
    induction l with
    | nil => exact fun found hmem _ => hmem.resolve_left (by simp)
    | cons b l ih =>
      intro found hmem hall
      have hb := hall b (.inl (by simp))
      rw [List.foldl_cons]
      apply ih
      · rcases hmem with hmem | rfl
        · rcases List.mem_cons.mp hmem with rfl | hmem
          · right
            cases found with
            | none => exact hfirst _
            | some best =>
              rw [hbetter]
              rcases hall best (.inr rfl) with rfl | hlt
              · simp
              · simp [Execution.before,ModelAction.before,hlt]
          · exact .inl hmem
        · right
          rw [hbetter]
          rcases hb with rfl | hlt
          · simp
          · have : ¬ (e.acts b).seqNumber < (e.acts a).seqNumber := Nat.lt_asymm hlt
            simp [Execution.before,ModelAction.before,this]
      · intro c hc
        rcases hc with hc | hc
        · exact hall c (.inl (List.mem_cons_of_mem _ hc))
        · cases found with
          | none =>
            rw [hfirst] at hc
            cases hc
            exact hb
          | some best =>
            rw [hbetter] at hc
            split at hc
            · cases hc
              exact hb
            · exact hall c (.inr hc)
  rw [hchoose]
  exact hfold array none (.inl ha) fun b hb => hmin b (hb.resolve_right (by simp))

/-- The state of the order with some of the trace still to come. -/
structure Ordering (e : Execution) (acts : List ActionId) (n : ℕ) (rest : List ActionId)
    (s : SCAnalysis) : Prop extends Calm e acts n s where
  holds : Holds e s rest
  threads : ∀ a ∈ acts, (e.acts a).tid ≤ s.maxthreads
  suffix : rest <:+ acts

variable {n : ℕ} {rest : List ActionId}

theorem Ordering.mem_of_head (h : Ordering e acts n rest s) {t : ThreadId}
    (hhead : (s.threadlist t).head? = some act) : act ∈ rest ∧ (e.acts act).tid = t := by
  have hmem := List.mem_of_head? hhead
  rw [h.holds t] at hmem
  exact ⟨List.mem_of_mem_filter hmem,by simpa using List.of_mem_filter hmem⟩

/-- The oldest action that is left is available. -/
theorem Ordering.available (h : Ordering e acts n (act :: rest) s) (hquiet : Quiet e acts) :
    act ∈ s.available e s.cvmap ∧ ∀ b ∈ s.available e s.cvmap, b ∈ act :: rest := by
  have hact : act ∈ acts := h.suffix.subset (by simp)
  have hsorted := hquiet.sorted.sublist h.suffix.sublist
  have hlist : s.threadlist (e.acts act).tid =
      act :: rest.filter fun a => (e.acts a).tid = (e.acts act).tid := by
    rw [h.holds,List.filter_cons_of_pos (by simp)]
  constructor
  · apply List.mem_filterMap.mpr
    refine ⟨(e.acts act).tid,List.mem_range.mpr (Nat.lt_succ_of_le (h.threads act hact)),?_⟩
    simp only [hlist]
    rw [if_neg]
    simp only [List.any_eq_true,Bool.and_eq_true,not_exists,not_and,Option.any_eq_true]
    intro i _ hi first hfirst
    obtain ⟨hmem,htid⟩ := h.mem_of_head hfirst
    obtain ⟨cv,hcv,hlow⟩ := h.known act hact
    have hlater : (e.acts act).seqNumber < (e.acts first).seqNumber := by
      rcases List.mem_cons.mp hmem with rfl | hmem
      · simp [htid] at hi
      · exact (List.pairwise_cons.mp hsorted).1 first hmem
    have hpos := hquiet.pos first (h.suffix.subset hmem)
    simp only [knows,hcv,Option.any_some]
    rw [ClockVector.synchronizedSince_iff hpos]
    have := hlow.le (e.acts first).tid
    omega
  · intro b hb
    obtain ⟨t,-,hb⟩ := List.mem_filterMap.mp hb
    cases hthread : s.threadlist t with
    | nil => simp [hthread] at hb
    | cons c l =>
      simp only [hthread] at hb
      split at hb
      · cases hb
      · cases hb
        exact (h.mem_of_head (t := t) (by simp [hthread])).1

theorem Ordering.pruneArray (h : Ordering e acts n (act :: rest) s) (hquiet : Quiet e acts) :
    s.pruneArray e (s.available e s.cvmap) = some act := by
  obtain ⟨hmem,hall⟩ := h.available hquiet
  have hsorted := hquiet.sorted.sublist h.suffix.sublist
  have hmin : ∀ b ∈ s.available e s.cvmap,
      b = act ∨ (e.acts act).seqNumber < (e.acts b).seqNumber := fun b hb => by
    rcases List.mem_cons.mp (hall b hb) with rfl | hb
    · exact .inl rfl
    · exact .inr ((List.pairwise_cons.mp hsorted).1 b hb)
  have hfilter : (s.available e s.cvmap).filter (fun a => !(e.acts a).isWrite) =
      s.available e s.cvmap := by
    apply List.filter_eq_self.mpr
    intro b hb
    simp [(hquiet.silent b (h.suffix.subset (hall b hb))).2]
  have holdest := oldest_eq hmem hmin
  unfold SCAnalysis.pruneArray
  split
  · rename_i only honly
    rw [honly] at hmem
    rw [List.mem_singleton.mp hmem]
  · rw [hfilter,holdest]

theorem orderThread_quiet {list : List ActionId}
    (hlist : ∀ a ∈ list, (e.acts a).isWrite = false) :
    orderThread e act list s = .ok (s,false) := by
  induction list with
  | nil => rfl
  | cons a list ih =>
    rw [orderThread,hlist a (by simp)]
    exact ih fun b hb => hlist b (List.mem_cons_of_mem _ hb)

theorem orderThreads_quiet (tids : List ThreadId)
    (hlists : ∀ t, ∀ a ∈ s.threadlist t, (e.acts a).isWrite = false) :
    orderThreads e act tids s = .ok (s,false) := by
  induction tids with
  | nil => rfl
  | cons t tids ih =>
    rw [orderThreads]
    split
    · exact ih
    · rw [orderThread_quiet (hlists t)]
      change (orderThreads e act tids s >>= _) = _
      rw [ih]
      rfl

theorem Holds.pop (h : Holds e s (act :: rest)) : Holds e
    { s with threadlists := s.threadlists.modify (e.acts act).tid List.tail } rest := by
  intro t
  have hold := h t
  simp only [threadlist,List.getD_eq_getElem?_getD] at hold ⊢
  rw [List.getElem?_modify]
  by_cases ht : (e.acts act).tid = t
  · rw [List.filter_cons_of_pos (by simp [ht])] at hold
    cases hl : s.threadlists[t]? with
    | none => simp [hl] at hold
    | some l =>
      rw [hl] at hold
      simp only [Option.getD_some] at hold
      simp [ht,hold]
  · rw [List.filter_cons_of_neg (by simp [ht])] at hold
    cases hl : s.threadlists[t]? with
    | none => simpa [hl,ht] using hold
    | some l => simpa [hl,ht] using hold

/-- One step takes the oldest action. -/
theorem Ordering.step {b : Build} (h : Ordering e acts n (act :: rest) b.s)
    (hquiet : Quiet e acts) (m : ℕ) : ∃ s', Ordering e acts n rest s' ∧
      generateStep e m acts (b.s.available e b.s.cvmap) b =
        .ok ({ b with s := s',sclist := b.sclist ++ [act] },false) := by
  let s' : SCAnalysis :=
    { b.s with threadlists := b.s.threadlists.modify (e.acts act).tid List.tail }
  have hpop : Holds e s' rest := h.holds.pop
  have hrest : rest <:+ acts := (List.suffix_cons act rest).trans h.suffix
  have hcalm : Calm e acts n s' := { h.toCalm with }
  refine ⟨s',{ hcalm with holds := hpop,threads := h.threads,suffix := hrest },?_⟩
  have hchoose : choose e b (b.s.available e b.s.cvmap) = .ok (act,b) := by
    rw [choose,h.pruneArray hquiet]
  have hupdate : s'.updateConstraints e act = .ok (s',false) := by
    apply orderThreads_quiet
    intro t a ha
    rw [hpop t] at ha
    exact (hquiet.silent a (hrest.subset (List.mem_of_mem_filter ha))).2
  rw [generateStep,hchoose]
  change (s'.updateConstraints e act >>= _) = _
  rw [hupdate]
  rfl

/-- The list is the trace. -/
theorem Ordering.generateLoop {b : Build} (h : Ordering e acts n rest b.s) (hquiet : Quiet e acts)
    (m : ℕ) {k : ℕ} (hk : rest.length < k) : ∃ b', SCAnalysis.generateLoop e m acts k b = .ok b' ∧
      b'.sclist = b.sclist ++ rest ∧ b'.s.cyclic = false := by
  induction k generalizing b rest with
  | zero => exact absurd hk (Nat.not_lt_zero _)
  | succ k ih =>
    rw [SCAnalysis.generateLoop]
    cases rest with
    | nil =>
      have hnone : ∀ cv, b.s.available e cv = [] := fun cv => by
        apply List.filterMap_eq_nil_iff.mpr
        intro t _
        rw [h.holds t]
        rfl
      have hnext : b.s.getNextActions e = .ok [] := by
        simp only [getNextActions,hnone]
        rfl
      rw [hnext]
      exact ⟨b,rfl,by simp,h.acyclic⟩
    | cons act rest =>
      have hmem := (h.available hquiet).1
      have hnext : b.s.getNextActions e = .ok (b.s.available e b.s.cvmap) := by
        rw [getNextActions]
        exact if_pos (List.ne_nil_of_mem hmem)
      obtain ⟨s',hordering,hstep⟩ := h.step hquiet m
      obtain ⟨b',hloop,hlist,hacyclic⟩ := ih
        (b := { b with s := s',sclist := b.sclist ++ [act] }) hordering (Nat.lt_of_succ_lt_succ hk)
      refine ⟨b',?_,by simp [hlist],hacyclic⟩
      rw [hnext]
      change (if (b.s.available e b.s.cvmap).isEmpty = true then _ else
        (generateStep e m acts (b.s.available e b.s.cvmap) b >>= _)) = _
      rw [if_neg (by simpa using List.ne_nil_of_mem hmem),hstep]
      exact hloop

end SCAnalysis
end CdsChecker
