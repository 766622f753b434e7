import CdsChecker.Knowledge

/-! The parts of a step that synchronize: what is known stays known, and is passed on. -/
namespace CdsChecker
namespace Execution

open VectorClocks Relation

/-- What is known stays known. -/
structure Gains (e e' : Execution) : Prop where
  tid : ∀ a, (e'.acts a).tid = (e.acts a).tid
  seqNumber : ∀ a, (e'.acts a).seqNumber = (e.acts a).seqNumber
  know : ∀ a t, (e.acts a).cv.getClock t ≤ (e'.acts a).cv.getClock t
  bad : e.badSynchronization = true → e'.badSynchronization = true

/-- And no pending sequence is dropped. -/
structure Grows (e e' : Execution) : Prop extends Gains e e' where
  pending : e.pendingRelSeqs ⊆ e'.pendingRelSeqs

variable {e e' e'' : Execution} {q : ActionId}

theorem Gains.trans (h : Gains e e') (h' : Gains e' e'') : Gains e e'' where
  tid a := (h'.tid a).trans (h.tid a)
  seqNumber a := (h'.seqNumber a).trans (h.seqNumber a)
  know a t := (h.know a t).trans (h'.know a t)
  bad := fun hb => h'.bad (h.bad hb)

theorem Gains.knows (h : Gains e e') {a b : ActionId} (hab : Knows e.clocks a b) :
    Knows e'.clocks a b := by
  have hle := hab.trans (h.know b _)
  unfold Knows
  change (e'.acts a).seqNumber ≤ (e'.acts b).cv.getClock (e'.acts a).tid
  rw [h.seqNumber,h.tid]
  exact hle

theorem Gains.headed (h : Gains e e') {s : ReleaseSeq} (hs : e.Headed s) : e'.Headed s :=
  fun r hr => (h.seqNumber r).symm ▸ hs r hr

theorem Grows.refl (e : Execution) : Grows e e :=
  ⟨⟨fun _ => rfl,fun _ => rfl,fun _ _ => le_rfl,id⟩,fun _ => id⟩

theorem Grows.trans (h : Grows e e') (h' : Grows e' e'') : Grows e e'' :=
  ⟨h.toGains.trans h'.toGains,fun _ hs => h'.pending (h.pending hs)⟩

theorem Quiet.grows (h : Quiet e e') : Grows e e' :=
  ⟨⟨h.tid,h.seqNumber,fun a t => (h.getClock a t).ge,h.bad⟩,h.pending ▸ List.Subset.refl _⟩

theorem Learned.grows {first second : ActionId} (h : Learned e e' first second) : Grows e e' where
  tid := h.tid
  seqNumber := h.seqNumber
  know a t := by
    have hknow : (e'.acts a).cv.getClock t = (learn e.clocks first second).know a t :=
      congrFun (congrFun (congrArg Clocks.know h.clocks) a) t
    rw [hknow]
    by_cases ha : a = second
    · subst ha
      rw [learn_know_self]
      exact le_max_left _ _
    · rw [learn_know_of_ne _ ha]
      exact le_rfl
  bad := h.bad
  pending := h.pending ▸ List.Subset.refl _

theorem synchronize_grows (e : Execution) (first second : ActionId) :
    Grows e (e.synchronize first second).1 := by
  cases hsync : (e.synchronize first second).2 with
  | false => exact (synchronize_failed hsync).1.grows
  | true => exact (synchronize_learned hsync).grows

theorem synchronizeAll_grows (e : Execution) (q : ActionId) (l : List ActionId) :
    Grows e (e.synchronizeAll q l).1 := by
  induction l generalizing e with
  | nil => exact .refl e
  | cons first rest ih => exact (synchronize_grows e first q).trans (ih _)

theorem synchronizeNew_grows (e : Execution) (q : ActionId) (l : List ActionId) :
    Grows e (e.synchronizeNew q l).1 := by
  induction l generalizing e with
  | nil => exact .refl e
  | cons head rest ih =>
    rw [Execution.synchronizeNew]
    split
    · exact ih e
    · exact (synchronize_grows e head q).trans (ih _)

theorem propagateLoop_grows {l : List ActionId} {items : List WorkItem}
    (h : propagateLoop q l e = .ok (e',items)) : Grows e e' := by
  induction l generalizing e items with
  | nil => cases h
  | cons act rest ih =>
    rw [propagateLoop] at h
    split at h
    · obtain ⟨rfl,-⟩ : e = e' ∧ _ := by simpa using h
      exact .refl e
    · split at h
      · obtain ⟨⟨e₁,items'⟩,h₁,h⟩ := bind_eq_ok.mp h
        obtain ⟨rfl,-⟩ : e₁ = e' ∧ _ := by simpa using h
        exact (synchronize_grows e q act).trans (ih h₁)
      · exact ih h

theorem propagateClockvector_grows {items : List WorkItem}
    (h : e.propagateClockvector q = .ok (e',items)) : Grows e e' := by
  obtain ⟨⟨e₁,items'⟩,h₁,h⟩ := bind_eq_ok.mp h
  obtain ⟨rfl,-⟩ : e₁ = e' ∧ _ := by simpa using h
  exact propagateLoop_grows h₁

/-! ### Release sequences -/

theorem Clocked.numbered (h : e.Clocked) {a : ActionId} (ha : (e.acts a).isRelease = true) :
    0 < (e.acts a).seqNumber := by
  refine Nat.pos_of_ne_zero fun hzero => ?_
  simp [ModelAction.isRelease,h.relaxed a hzero] at ha

theorem chainHeads_numbered {n : ℕ} {rf last : Option ActionId} {heads heads' : List ActionId}
    {complete : Bool} (hc : e.Clocked) (hheads : ∀ a ∈ heads, 0 < (e.acts a).seqNumber)
    (h : e.chainHeads n rf heads = .ok (heads',complete,last)) :
    ∀ a ∈ heads', 0 < (e.acts a).seqNumber := by
  induction n generalizing rf heads with
  | zero =>
    cases rf with
    | none =>
      obtain ⟨rfl,-⟩ : heads = heads' ∧ _ := by simpa [chainHeads] using h
      exact hheads
    | some rf => cases h
  | succ n ih =>
    cases rf with
    | none =>
      obtain ⟨rfl,-⟩ : heads = heads' ∧ _ := by simpa [chainHeads] using h
      exact hheads
    | some rf =>
      obtain ⟨_,-,h⟩ := bind_eq_ok.mp h
      extract_lets more at h
      have hnext : ∀ a ∈ more, 0 < (e.acts a).seqNumber := by
        intro a ha
        dsimp only [more] at ha
        split at ha
        · rename_i hrelease
          rcases List.mem_append.mp ha with ha | ha
          · exact hheads a ha
          · rw [List.mem_singleton.mp ha]
            exact hc.numbered hrelease
        · split at ha
          · rename_i fence hfence
            rcases List.mem_append.mp ha with ha | ha
            · exact hheads a ha
            · rw [List.mem_singleton.mp ha]
              exact hc.fences rf fence hfence
          · exact hheads a ha
      split at h
      · have hsame : more = heads' := congrArg Prod.fst (Except.ok.inj h)
        exact hsame ▸ hnext
      · split at h
        · have hsame : more = heads' := congrArg Prod.fst (Except.ok.inj h)
          exact hsame ▸ hnext
        · exact ih hnext h

theorem findRelease_isRelease {fence : Option ActionId} {l : List ActionId} {release : ActionId}
    (h : e.findRelease fence l = some release) : (e.acts release).isRelease = true := by
  induction l with
  | nil => cases h
  | cons act rest ih =>
    rw [findRelease] at h
    split at h
    · cases h
    · split at h
      · rename_i hrelease
        exact Option.some.inj h ▸ hrelease
      · exact ih h

/-- Only actions with a number head a release sequence. The record of a sequence is still about the
same read. -/
theorem releaseSeqHeads_spec {rf : Option ActionId} {pending sequence : ReleaseSeq}
    {heads : List ActionId} {complete : Bool} (hc : e.Clocked)
    (h : e.releaseSeqHeads rf pending = .ok (heads,complete,sequence)) :
    (∀ a ∈ heads, 0 < (e.acts a).seqNumber) ∧
      (sequence.acquire = pending.acquire ∧ sequence.read = pending.read) ∧
      (e.Headed pending → e.Headed sequence) := by
  unfold releaseSeqHeads at h
  split at h
  · obtain ⟨rfl,-,rfl⟩ : [] = heads ∧ false = complete ∧ pending = sequence := by simpa using h
    exact ⟨by simp,⟨rfl,rfl⟩,id⟩
  obtain ⟨⟨found,stop,last⟩,hchain,h⟩ := bind_eq_ok.mp h
  have hfound := chainHeads_numbered hc (by simp) hchain
  dsimp only at h
  split at h
  · obtain ⟨rfl,-,rfl⟩ : found = heads ∧ _ ∧ pending = sequence := by simpa using h
    exact ⟨hfound,⟨rfl,rfl⟩,id⟩
  split at h
  · obtain ⟨rfl,-,rfl⟩ : found = heads ∧ _ ∧ { pending with rf := none } = sequence := by
      simpa using h
    exact ⟨hfound,⟨rfl,rfl⟩,id⟩
  rename_i rf
  split at h
  · obtain ⟨rfl,-,rfl⟩ : found = heads ∧ _ ∧ pending = sequence := by simpa using h
    exact ⟨hfound,⟨rfl,rfl⟩,id⟩
  have hfences : ∀ a ∈ found ++ (e.acts rf).lastFenceRelease.toList,
      0 < (e.acts a).seqNumber := by
    intro a ha
    rcases List.mem_append.mp ha with ha | ha
    · exact hfound a ha
    · exact hc.fences rf a (Option.mem_toList.mp ha)
  obtain ⟨_,-,h⟩ := bind_eq_ok.mp h
  split at h
  · obtain ⟨rfl,-,rfl⟩ : _ = heads ∧ _ ∧ pending = sequence := by simpa using h
    exact ⟨hfences,⟨rfl,rfl⟩,id⟩
  rename_i release hfind
  have hrelease := hc.numbered (findRelease_isRelease hfind)
  obtain ⟨⟨broken,certain,writes⟩,-,h⟩ := bind_eq_ok.mp h
  dsimp only at h
  split at h
  · obtain ⟨rfl,-,rfl⟩ : _ = heads ∧ _ ∧ _ = sequence := by simpa using h
    exact ⟨hfences,⟨rfl,rfl⟩,id⟩
  split at h
  · obtain ⟨rfl,-,rfl⟩ : _ = heads ∧ _ ∧ _ = sequence := by simpa using h
    refine ⟨fun a ha => ?_,⟨rfl,rfl⟩,id⟩
    rw [← List.append_assoc] at ha
    rcases List.mem_append.mp ha with ha | ha
    · exact hfences a ha
    · rw [List.mem_singleton.mp ha]
      exact hrelease
  · obtain ⟨rfl,-,rfl⟩ : _ = heads ∧ _ ∧ _ = sequence := by simpa using h
    refine ⟨hfences,⟨rfl,rfl⟩,fun _ r hr => ?_⟩
    exact Option.some.inj hr ▸ hrelease

/-- An uncertain sequence is added to those that are pending. -/
theorem getReleaseSeqHeads_spec {acquire read : ActionId} {heads : List ActionId}
    (h : e.getReleaseSeqHeads acquire read = .ok (e',heads)) : ∃ complete sequence,
      e.releaseSeqHeads (e.acts read).readsFrom { acquire := acquire,read := read } =
        .ok (heads,complete,sequence) ∧
      e' = { e with pendingRelSeqs :=
        e.pendingRelSeqs ++ if complete then [] else [sequence] } := by
  obtain ⟨⟨found,complete,sequence⟩,h₁,h⟩ := bind_eq_ok.mp h
  refine ⟨complete,sequence,?_⟩
  dsimp only at h
  split at h
  · rename_i hcomplete
    obtain ⟨rfl,rfl⟩ : e = e' ∧ found = heads := by simpa using h
    exact ⟨h₁,by simp [hcomplete]⟩
  · rename_i hcomplete
    obtain ⟨rfl,rfl⟩ : _ = e' ∧ found = heads := by simpa using h
    exact ⟨h₁,by simp [hcomplete]⟩

theorem Informed.setPending {l : List ReleaseSeq} (h : e.Informed)
    (hl : ∀ s ∈ l, e.Headed s) :
    ({ e with pendingRelSeqs := l } : Execution).Informed := by
  refine ⟨{ h.toClocked with releases := hl,backed := ?_ },h.closed⟩
  exact h.backed.mono fun a b hab => hab.transfer rfl (fun _ => rfl) (fun _ => rfl)
    (fun _ _ => id) fun _ => id

theorem Informed.getReleaseSeqHeads {acquire read : ActionId} {heads : List ActionId}
    (h : e.Informed) (hheads : e.getReleaseSeqHeads acquire read = .ok (e',heads)) :
    e'.Informed ∧ ∀ a ∈ heads, a < e'.numActs := by
  obtain ⟨complete,sequence,h₁,rfl⟩ := getReleaseSeqHeads_spec hheads
  obtain ⟨hnumbered,-,hrelease⟩ := releaseSeqHeads_spec h.toClocked h₁
  refine ⟨h.setPending fun s hs => ?_,fun a ha => h.lt_of_pos (hnumbered a ha)⟩
  rcases List.mem_append.mp hs with hs | hs
  · exact h.releases s hs
  · split at hs
    · cases hs
    · rw [List.mem_singleton.mp hs]
      exact hrelease (by simp [Headed])

theorem getReleaseSeqHeads_grows {acquire read : ActionId} {heads : List ActionId}
    (h : e.getReleaseSeqHeads acquire read = .ok (e',heads)) : Grows e e' := by
  obtain ⟨complete,sequence,-,rfl⟩ := getReleaseSeqHeads_spec h
  exact ⟨⟨fun _ => rfl,fun _ => rfl,fun _ _ => le_rfl,id⟩,List.subset_append_left _ _⟩

theorem getReleaseSeqHeads_clocks {acquire read : ActionId} {heads : List ActionId}
    (h : e.getReleaseSeqHeads acquire read = .ok (e',heads)) : e'.clocks = e.clocks := by
  obtain ⟨complete,sequence,-,rfl⟩ := getReleaseSeqHeads_spec h
  rfl

/-! ### Reads -/

/-- A read synchronizes with the heads that it finds. -/
theorem readFrom_spec {act rf : ActionId} {b : Bool} (h : e.readFrom act rf = .ok (e',b)) :
    ∃ e₁ heads, (e.Informed → e₁.Informed ∧ ∀ a ∈ heads, a < e₁.numActs) ∧
      e₁.clocks = e.clocks ∧ Grows e e₁ ∧ e₁.synchronizeAll act heads = (e',b) := by
  obtain ⟨_,-,h⟩ := bind_eq_ok.mp h
  dsimp only at h
  set e₀ := e.modifyAct act fun a => a.setReadFrom rf with he₀
  have hread : Quiet e e₀ := .modifyAct e act _ rfl rfl rfl ⟨rfl,rfl,rfl⟩
  split at h
  · obtain ⟨⟨e₁,heads⟩,h₁,h⟩ := bind_eq_ok.mp h
    exact ⟨e₁,heads,fun hi => (hi.quiet hread).getReleaseSeqHeads h₁,
      (getReleaseSeqHeads_clocks h₁).trans hread.clocks,
      hread.grows.trans (getReleaseSeqHeads_grows h₁),Except.ok.inj h⟩
  · exact ⟨e₀,[],fun hi => ⟨hi.quiet hread,by simp⟩,hread.clocks,hread.grows,Except.ok.inj h⟩

theorem readFrom_grows {act rf : ActionId} {b : Bool} (h : e.readFrom act rf = .ok (e',b)) :
    Grows e e' := by
  obtain ⟨e₁,heads,-,-,hgrows,hsync⟩ := readFrom_spec h
  have hall := synchronizeAll_grows e₁ act heads
  rw [hsync] at hall
  exact hgrows.trans hall

theorem Unknown.of_clocks (h : e.Unknown q) (hclocks : e'.clocks = e.clocks) : e'.Unknown q := by
  unfold Unknown
  rw [hclocks]
  exact h

/-- The current action reads. -/
theorem Informed.readFrom {rf : ActionId} {b : Bool} (h : e.Informed) (hq : e.Unknown q)
    (hread : e.readFrom q rf = .ok (e',b)) : e'.Informed ∧ e'.Unknown q := by
  obtain ⟨e₁,heads,hinformed,hclocks,-,hsync⟩ := readFrom_spec hread
  obtain ⟨hi,hheads⟩ := hinformed h
  have hu := hq.of_clocks hclocks
  have hinformed := hi.synchronizeAll hu hheads
  have hunknown := hu.synchronizeAll heads
  rw [hsync] at hinformed hunknown
  exact ⟨hinformed,hunknown⟩

/-- An action of the past learns from what it reads now, and passes it on. -/
theorem readersReadFrom_informed {write : ActionId} {l : List ActionId} {items : List WorkItem}
    (h : e.Informed) (hreads : readersReadFrom write l e = .ok (e',items)) :
    e'.Informed ∧ Grows e e' := by
  induction l generalizing e items with
  | nil =>
    obtain ⟨rfl,-⟩ : e = e' ∧ _ := by simpa [readersReadFrom] using hreads
    exact ⟨h,.refl e⟩
  | cons read reads ih =>
    obtain ⟨⟨e₁,updated⟩,h₁,hreads⟩ := bind_eq_ok.mp hreads
    obtain ⟨⟨e₂,_⟩,h₂,hreads⟩ := ite_bind_eq_ok.mp hreads
    obtain ⟨⟨e₃,_⟩,h₃,hreads⟩ := bind_eq_ok.mp hreads
    obtain ⟨rfl,-⟩ : e₃ = e' ∧ _ := by simpa using hreads
    obtain ⟨e₀,heads,hspec,-,-,hsync⟩ := readFrom_spec h₁
    obtain ⟨hi,hheads⟩ := hspec h
    have hgrows := readFrom_grows h₁
    have hfirst : e₂.Informed ∧ Grows e₁ e₂ := by
      cases updated with
      | true =>
        have hbut := (hi.but read).synchronizeAll hheads
        rw [hsync] at hbut
        exact ⟨hbut.propagate h₂,propagateClockvector_grows h₂⟩
      | false =>
        obtain ⟨rfl,-⟩ : e₁ = e₂ ∧ _ := by simpa using h₂
        have hfailed : Quiet e₀ (e₀.synchronizeAll read heads).1 :=
          synchronizeAll_false (by rw [hsync])
        rw [hsync] at hfailed
        exact ⟨hi.quiet hfailed,.refl e₁⟩
    obtain ⟨hinformed,hrest⟩ := ih hfirst.1 h₃
    exact ⟨hinformed,(hgrows.trans hfirst.2).trans hrest⟩

theorem resolvePromise_informed {write : ActionId} {p : PromiseId} {items : List WorkItem}
    (h : e.Informed) (hr : e.resolvePromise write p = .ok (e',items)) :
    e'.Informed ∧ Grows e e' := by
  obtain ⟨⟨e₁,_⟩,h₁,hr⟩ := bind_eq_ok.mp hr
  obtain ⟨_,-,hr⟩ := bind_eq_ok.mp hr
  obtain ⟨⟨g,resolved⟩,-,hr⟩ := bind_eq_ok.mp hr
  obtain ⟨e₃,h₃,hr⟩ := bind_eq_ok.mp hr
  obtain ⟨rfl,-⟩ : e₃ = e' ∧ _ := by simpa using hr
  obtain ⟨hinformed,hgrows⟩ := readersReadFrom_informed h h₁
  have hgraph : Quiet e₁ { e₁ with
      moGraph := g
      hardFailedPromise := e₁.hardFailedPromise || !resolved } :=
    ⟨rfl,rfl,rfl,rfl,id,fun _ => rfl,rfl,fun _ => .refl _⟩
  have hquiet := hgraph.trans (moCheckReads_quiet h₃)
  exact ⟨hinformed.quiet hquiet,hgrows.trans hquiet.grows⟩

theorem processRead_informed {node : Choices} {b : Bool} (h : e.Informed) (hq : e.Unknown q)
    (hread : e.processRead q node = .ok (e',b)) : e'.Informed ∧ e'.Unknown q ∧ Grows e e' := by
  cases hnode : node.readFrom with
  | past rf =>
    simp only [processRead,hnode] at hread
    obtain ⟨e₁,h₁,hread⟩ := bind_eq_ok.mp hread
    obtain ⟨_,-,hread⟩ := bind_eq_ok.mp hread
    obtain ⟨⟨e₂,_⟩,h₂,hread⟩ := bind_eq_ok.mp hread
    obtain ⟨⟨e₃,_⟩,h₃,hread⟩ := bind_eq_ok.mp hread
    obtain ⟨e₄,h₄,hread⟩ := bind_eq_ok.mp hread
    obtain ⟨rfl,-⟩ : e₄ = e' ∧ _ := by simpa using hread
    have hbefore : Quiet e e₂ := ((startChanges_quiet h₁).trans
      (markStale_quiet e₁ node.stale)).trans
      (rModificationOrder_quiet h₂)
    have hafter : Quiet e₃ e₄ := (commitChanges_quiet e₃).trans (moCheckPromises_quiet h₄)
    obtain ⟨hinformed,hunknown⟩ := (h.quiet hbefore).readFrom (hq.quiet hbefore) h₃
    exact ⟨hinformed.quiet hafter,hunknown.quiet hafter,
      (hbefore.grows.trans (readFrom_grows h₃)).trans hafter.grows⟩
  | promise p =>
    simp only [processRead,hnode] at hread
    obtain ⟨e₁,h₁,hread⟩ := bind_eq_ok.mp hread
    obtain ⟨⟨e₂,_⟩,h₂,hread⟩ := bind_eq_ok.mp hread
    obtain ⟨rfl,-⟩ : _ = e' ∧ _ := by simpa using hread
    have hreader : ∀ e : Execution, Quiet e (e.modifyAct q fun a => a.setReadFromPromise p) :=
      fun e => .modifyAct e q _ rfl rfl rfl ⟨rfl,rfl,rfl⟩
    have hfirst : Quiet e e₁ := by
      refine Quiet.trans ?_ (startChanges_quiet h₁)
      refine Quiet.trans ?_ (hreader _)
      split <;> exact ⟨rfl,rfl,rfl,rfl,id,fun _ => rfl,rfl,fun _ => .refl _⟩
    have hquiet := ((hfirst.trans (markStale_quiet e₁ node.stale)).trans
      (rModificationOrder_quiet h₂)).trans (commitChanges_quiet e₂)
    exact ⟨h.quiet hquiet,hq.quiet hquiet,hquiet.grows⟩
  | future fv =>
    simp only [processRead,hnode] at hread
    obtain ⟨e₁,h₁,hread⟩ := bind_eq_ok.mp hread
    obtain ⟨⟨e₂,_⟩,h₂,hread⟩ := bind_eq_ok.mp hread
    obtain ⟨rfl,-⟩ : _ = e' ∧ _ := by simpa using hread
    set n := e.numProms with hn
    set e₀ : Execution := { e with
      proms := Function.update e.proms n (Promise.create q (e.acts q).tid fv)
      numProms := n + 1 } with he₀
    have hpromise : Quiet e e₀ := ⟨rfl,rfl,rfl,rfl,id,fun _ => rfl,rfl,fun _ => .refl _⟩
    have hreader : Quiet e₀ (e₀.modifyAct q fun a => a.setReadFromPromise n) :=
      .modifyAct e₀ q _ rfl rfl rfl ⟨rfl,rfl,rfl⟩
    have hpending : Quiet (e₀.modifyAct q fun a => a.setReadFromPromise n)
        { (e₀.modifyAct q fun a => a.setReadFromPromise n) with promises := e.promises ++ [n] } :=
      ⟨rfl,rfl,rfl,rfl,id,fun _ => rfl,rfl,fun _ => .refl _⟩
    have hquiet := ((((hpromise.trans hreader).trans hpending).trans (startChanges_quiet h₁)).trans
      (rModificationOrder_quiet h₂)).trans (commitChanges_quiet e₂)
    exact ⟨h.quiet hquiet,hq.quiet hquiet,hquiet.grows⟩

/-! ### Writes and fences -/

theorem keepPromise_informed {index : Option ℕ} {b : Bool} {items : List WorkItem}
    (h : e.Informed) (hkeep : e.keepPromise q index = .ok (e',b,items)) :
    e'.Informed ∧ Grows e e' := by
  cases index with
  | none =>
    obtain rfl : e = e' := congrArg Prod.fst (Except.ok.inj hkeep)
    exact ⟨h,.refl e⟩
  | some i =>
    cases hp : e.promises[i]? with
    | none =>
      simp only [keepPromise,hp] at hkeep
      obtain rfl : e = e' := congrArg Prod.fst (Except.ok.inj hkeep)
      exact ⟨h,.refl e⟩
    | some p =>
      simp only [keepPromise,hp] at hkeep
      obtain ⟨⟨e₁,_⟩,h₁,hkeep⟩ := bind_eq_ok.mp hkeep
      obtain rfl : e₁ = e' := congrArg Prod.fst (Except.ok.inj hkeep)
      have herase : Quiet e { e with promises := e.promises.eraseIdx i } :=
        ⟨rfl,rfl,rfl,rfl,id,fun _ => rfl,rfl,fun _ => .refl _⟩
      obtain ⟨hinformed,hgrows⟩ := resolvePromise_informed (h.quiet herase) h₁
      exact ⟨hinformed,herase.grows.trans hgrows⟩

theorem processWrite_informed {node : Choices} {b : Bool} {items : List WorkItem} (h : e.Informed)
    (hwrite : e.processWrite q node = .ok (e',b,items)) : e'.Informed ∧ Grows e e' := by
  obtain ⟨⟨e₁,_⟩,h₁,hwrite⟩ := bind_eq_ok.mp hwrite
  obtain ⟨⟨e₂,_,_⟩,h₂,hwrite⟩ := bind_eq_ok.mp hwrite
  obtain ⟨e₃,h₃,hwrite⟩ := bind_eq_ok.mp hwrite
  obtain rfl : e₃ = e' := congrArg Prod.fst (Except.ok.inj hwrite)
  have hedges : Quiet e e₁ := wModificationOrder_quiet h₁
  obtain ⟨hinformed,hgrows⟩ := keepPromise_informed (h.quiet hedges) h₂
  have hafter : Quiet e₂ e₃ := (commitChanges_quiet e₂).trans (moCheckPromises_quiet h₃)
  exact ⟨hinformed.quiet hafter,(hedges.grows.trans hgrows).trans hafter.grows⟩

theorem fenceLoop_informed {l : List ActionId} {b : Bool} (h : e.Informed) (hq : e.Unknown q)
    (hloop : fenceLoop q l e = .ok (e',b)) : e'.Informed ∧ Grows e e' := by
  induction l generalizing e b with
  | nil =>
    obtain ⟨rfl,-⟩ : e = e' ∧ _ := by simpa [fenceLoop] using hloop
    exact ⟨h,.refl e⟩
  | cons act rest ih =>
    have hstop : (Except.ok (e,false) : Result (Execution × Bool)) = .ok (e',b) →
        e'.Informed ∧ Grows e e' := by
      intro hstop
      obtain ⟨rfl,-⟩ : e = e' ∧ _ := by simpa using hstop
      exact ⟨h,.refl e⟩
    rw [fenceLoop] at hloop
    split at hloop
    · exact ih h hq hloop
    split at hloop
    · exact ih h hq hloop
    split at hloop
    · exact hstop hloop
    split at hloop
    · exact hstop hloop
    split at hloop
    · exact ih h hq hloop
    · obtain ⟨⟨e₁,heads⟩,h₁,hloop⟩ := bind_eq_ok.mp hloop
      obtain ⟨⟨e₂,_⟩,h₂,hloop⟩ := bind_eq_ok.mp hloop
      obtain ⟨rfl,-⟩ : e₂ = e' ∧ _ := by simpa using hloop
      obtain ⟨hi,hheads⟩ := h.getReleaseSeqHeads h₁
      have hu := hq.of_clocks (getReleaseSeqHeads_clocks h₁)
      obtain ⟨hinformed,hgrows⟩ := ih (hi.synchronizeAll hu hheads) (hu.synchronizeAll heads) h₂
      exact ⟨hinformed,((getReleaseSeqHeads_grows h₁).trans
        (synchronizeAll_grows e₁ q heads)).trans hgrows⟩

theorem processFence_informed {b : Bool} (h : e.Informed) (hq : e.Unknown q)
    (hfence : e.processFence q = .ok (e',b)) : e'.Informed ∧ Grows e e' := by
  unfold processFence at hfence
  split at hfence
  · exact fenceLoop_informed h hq hfence
  · obtain ⟨rfl,-⟩ : e = e' ∧ _ := by simpa using hfence
    exact ⟨h,.refl e⟩

/-! ### Mutexes and threads -/

/-- The current action learns from one other. -/
theorem Informed.synchronize {first : ActionId} (h : e.Informed) (hq : e.Unknown q)
    (hfirst : first < e.numActs) : (e.synchronize first q).1.Informed :=
  ((h.but q).synchronize hfirst).informed (hq.synchronize first)

theorem Clocked.lastUnlock (h : e.Clocked) {act unlock : ActionId}
    (hunlock : e.getLastUnlock act = some unlock) : unlock < e.numActs := by
  have htype := List.find?_some hunlock
  by_contra hfree
  simp [ModelAction.isUnlock,ModelAction.isWait,(h.free unlock (not_lt.mp hfree)).1] at htype

theorem grabLock_informed (h : e.Informed) (hq : e.Unknown q) (m : Location) :
    (e.grabLock q m).1.Informed ∧ Grows e (e.grabLock q m).1 := by
  rw [grabLock]
  set e₁ := if (e.acts q).cv.getClock (e.mutexes m).allocTid ≤ (e.mutexes m).allocClock then
    e.assertBug else e with he₁
  have hquiet : Quiet e (e₁.setLocked m (some (e₁.acts q).tid)) := by
    refine Quiet.trans ?_ (setLocked_quiet e₁ m _)
    rw [he₁]
    split
    · exact assertBug_quiet e
    · exact .refl e
  split
  · rename_i unlock hunlock
    have hi := h.quiet hquiet
    exact ⟨hi.synchronize (hq.quiet hquiet) (hi.lastUnlock hunlock),
      hquiet.grows.trans (synchronize_grows _ _ q)⟩
  · exact ⟨h.quiet hquiet,hquiet.grows⟩

theorem setTryLock_quiet (e : Execution) (a : ActionId) (b : Bool) :
    Quiet e (e.modifyAct a fun a => a.setTryLock b) :=
  .modifyAct e a _ rfl rfl rfl ⟨rfl,rfl,rfl⟩

theorem sleepWaiting_quiet {misc : ℕ} (h : e.sleepWaiting q misc = .ok e') : Quiet e e' := by
  unfold sleepWaiting at h
  split at h
  · exact (setWaiters_quiet e _ _).trans (sleep_quiet h)
  · obtain rfl : e = e' := by simpa using h
    exact .refl e

theorem notifyAll_quiet (h : e.notifyAll q = .ok e') : Quiet e e' := by
  obtain ⟨e₁,h₁,h⟩ := bind_eq_ok.mp h
  obtain rfl : _ = e' := Except.ok.inj h
  exact (wakeAll_quiet h₁).trans (setWaiters_quiet e₁ _ _)

theorem notifyOne_quiet {misc : ℕ} (h : e.notifyOne q misc = .ok e') : Quiet e e' := by
  unfold notifyOne at h
  dsimp only at h
  split at h
  · cases h
  · obtain ⟨e₁,h₁,h⟩ := bind_eq_ok.mp h
    obtain rfl : _ = e' := Except.ok.inj h
    exact (wake_quiet h₁).trans (setWaiters_quiet e₁ _ _)

theorem processMutex_informed {misc : ℕ} {b : Bool} (h : e.Informed) (hq : e.Unknown q)
    (hmutex : e.processMutex q misc = .ok (e',b)) : e'.Informed ∧ Grows e e' := by
  have hdone : ∀ {e₁ : Execution}, Quiet e e₁ → e₁.Informed ∧ Grows e e₁ := fun hquiet =>
    ⟨h.quiet hquiet,hquiet.grows⟩
  unfold processMutex at hmutex
  split at hmutex
  · obtain ⟨m,-,hmutex⟩ := bind_eq_ok.mp hmutex
    have htry := setTryLock_quiet e q (e.mutexes m).locked.isNone
    dsimp only at hmutex
    split at hmutex
    · obtain rfl : _ = e' := congrArg Prod.fst (Except.ok.inj hmutex)
      obtain ⟨hinformed,hgrows⟩ := grabLock_informed (h.quiet htry) (hq.quiet htry) m
      exact ⟨hinformed,htry.grows.trans hgrows⟩
    · obtain rfl : _ = e' := congrArg Prod.fst (Except.ok.inj hmutex)
      exact hdone htry
  · obtain ⟨m,-,hmutex⟩ := bind_eq_ok.mp hmutex
    obtain rfl : _ = e' := congrArg Prod.fst (Except.ok.inj hmutex)
    exact grabLock_informed h hq m
  · obtain ⟨m,-,hmutex⟩ := bind_eq_ok.mp hmutex
    obtain ⟨e₁,h₁,hmutex⟩ := bind_eq_ok.mp hmutex
    obtain rfl : e₁ = e' := congrArg Prod.fst (Except.ok.inj hmutex)
    exact hdone (releaseLock_quiet h₁)
  · obtain ⟨m,-,hmutex⟩ := bind_eq_ok.mp hmutex
    obtain ⟨e₁,h₁,hmutex⟩ := bind_eq_ok.mp hmutex
    obtain ⟨e₂,h₂,hmutex⟩ := bind_eq_ok.mp hmutex
    obtain rfl : e₂ = e' := congrArg Prod.fst (Except.ok.inj hmutex)
    exact hdone ((releaseLock_quiet h₁).trans (sleepWaiting_quiet h₂))
  · obtain ⟨e₁,h₁,hmutex⟩ := bind_eq_ok.mp hmutex
    obtain rfl : e₁ = e' := congrArg Prod.fst (Except.ok.inj hmutex)
    exact hdone (notifyAll_quiet h₁)
  · obtain ⟨e₁,h₁,hmutex⟩ := bind_eq_ok.mp hmutex
    obtain rfl : e₁ = e' := congrArg Prod.fst (Except.ok.inj hmutex)
    exact hdone (notifyOne_quiet h₁)
  · cases hmutex

/-- A thread is added, and nothing has acted for it yet. -/
theorem Clocked.addThread {th : Thread} (h : e.Clocked) (hpos : 0 < e.threads.length)
    (hold : ∀ a ∈ e.actionTrace, (e.acts a).tid < e.threads.length) :
    ({ e with threads := e.threads ++ [th] } : Execution).Clocked := by
  set e₁ : Execution := { e with threads := e.threads ++ [th] } with he₁
  have hkept : ∀ t < e.threads.length, e₁.creationOf t = e.creationOf t := by
    intro t ht
    rw [creationOf,creationOf,he₁]
    simp only
    rw [List.getElem?_append_left ht]
  have hlt : ∀ t c, e.creationOf t = some c → t < e.threads.length := by
    intro t c hc
    obtain ⟨th',hth',-⟩ := Option.bind_eq_some_iff.mp hc
    exact (List.getElem?_eq_some_iff.mp hth').1
  refine { h with root := ?_,created := fun b c hb hc => ?_,backed := ?_ }
  · exact (hkept 0 hpos).trans h.root
  · have hc' := (hkept _ (hold b (h.listed b hb))).symm.trans hc
    exact h.created b c hb hc'
  · exact h.backed.mono fun a b hab => hab.transfer rfl (fun _ => rfl) (fun _ => rfl)
      (fun t c hc => (hkept t (hlt t c hc)).trans hc) fun _ => id

theorem createThread_informed (h : e.Informed) (hpos : 0 < e.threads.length)
    (hold : ∀ a ∈ e.actionTrace, (e.acts a).tid < e.threads.length) :
    (e.createThread q).Informed ∧ Grows e (e.createThread q) := by
  unfold createThread
  dsimp only
  set e₁ : Execution := { e with
    threads := e.threads ++ [{ parent := some (e.acts q).tid,creation := some q }] } with he₁
  have hadded : e₁.Informed := ⟨h.toClocked.addThread hpos hold,h.closed⟩
  have hgrows : Grows e e₁ := ⟨⟨fun _ => rfl,fun _ => rfl,fun _ _ => le_rfl,id⟩,fun _ => id⟩
  have henabled := setEnabled_quiet e₁ e.threads.length true
  refine ⟨(hadded.quiet henabled).quiet ?_,(hgrows.trans henabled.grows).trans (Quiet.grows ?_)⟩ <;>
    exact ⟨rfl,rfl,rfl,rfl,id,fun _ => rfl,rfl,fun _ => .refl _⟩

theorem processThreadAction_informed {b : Bool} (hv : e.Valid) (h : e.Informed)
    (hq : (e.acts q).isThreadJoin = true → e.Unknown q)
    (hold : ∀ a ∈ e.actionTrace, (e.acts a).tid < e.threads.length)
    (hjoined : ∀ u, (e.acts q).getThreadOperand = some u → ∀ f, e.getLastAction u = some f →
      f < e.numActs)
    (hthread : e.processThreadAction q = .ok (e',b)) : e'.Informed ∧ Grows e e' := by
  unfold processThreadAction at hthread
  split at hthread
  · obtain rfl : _ = e' := congrArg Prod.fst (Except.ok.inj hthread)
    exact createThread_informed h (Nat.zero_lt_of_lt hv.main) hold
  · rename_i htype
    obtain ⟨e₁,h₁,hthread⟩ := bind_eq_ok.mp hthread
    obtain rfl : e₁ = e' := congrArg Prod.fst (Except.ok.inj hthread)
    unfold joinThread at h₁
    split at h₁
    · rename_i f hlast
      obtain rfl : _ = e₁ := Except.ok.inj h₁
      obtain ⟨u,hu,hf⟩ := Option.bind_eq_some_iff.mp hlast
      exact ⟨h.synchronize (hq (by simp [ModelAction.isThreadJoin,htype])) (hjoined u hu f hf),
        synchronize_grows _ _ _⟩
    · cases h₁
  · obtain ⟨e₁,h₁,hthread⟩ := bind_eq_ok.mp hthread
    obtain rfl : e₁ = e' := congrArg Prod.fst (Except.ok.inj hthread)
    have hquiet := finishThread_quiet h₁
    exact ⟨h.quiet hquiet,hquiet.grows⟩
  · obtain rfl : _ = e' := congrArg Prod.fst (Except.ok.inj hthread)
    have hquiet := checkPromises_quiet e (e.acts q).tid none (e.acts q).cv
    exact ⟨h.quiet hquiet,hquiet.grows⟩
  · obtain rfl : e = e' := congrArg Prod.fst (Except.ok.inj hthread)
    exact ⟨h,.refl e⟩

/-! ### The work queue -/

theorem processRelseqFixup_informed {write : Option ActionId} {items : List WorkItem}
    (h : e.Informed) (hfixup : e.processRelseqFixup write = .ok (e',items)) :
    e'.Informed ∧ Gains e e' ∧ e.pendingRelSeqs.dropLast ⊆ e'.pendingRelSeqs := by
  unfold processRelseqFixup at hfixup
  split at hfixup
  · cases hfixup
  · rename_i sequence hsequence
    dsimp only at hfixup
    set e₀ : Execution := { e with pendingRelSeqs := e.pendingRelSeqs.dropLast } with he₀
    have hgains : Gains e e₀ := ⟨fun _ => rfl,fun _ => rfl,fun _ _ => le_rfl,id⟩
    have hinformed : e₀.Informed :=
      h.setPending fun s hs => h.releases s (List.mem_of_mem_dropLast hs)
    split at hfixup
    · rename_i rf release _ hrelease
      have hlt : release < e.numActs :=
        h.lt_of_pos (h.releases sequence (List.mem_of_getLast? hsequence) release hrelease)
      obtain ⟨_,-,hfixup⟩ := bind_eq_ok.mp hfixup
      split at hfixup
      · have hgrows := synchronize_grows e₀ release sequence.acquire
        split at hfixup
        · rename_i e₁ hsync
          obtain rfl : e₁ = e' := congrArg Prod.fst (Except.ok.inj hfixup)
          have hfailed : Quiet e₀ (e₀.synchronize release sequence.acquire).1 :=
            (synchronize_failed (by rw [hsync])).1
          rw [hsync] at hfailed hgrows
          exact ⟨hinformed.quiet hfailed,hgains.trans hgrows.toGains,hgrows.pending⟩
        · rename_i e₁ hsync
          have hbut := (hinformed.but sequence.acquire).synchronize hlt
          have hrest := hgrows.trans (propagateClockvector_grows (by rw [hsync]; exact hfixup))
          rw [hsync] at hbut
          exact ⟨hbut.propagate hfixup,hgains.trans hrest.toGains,hrest.pending⟩
      · obtain ⟨⟨g₁,_⟩,-,hfixup⟩ := bind_eq_ok.mp hfixup
        obtain ⟨⟨g₂,_⟩,-,hfixup⟩ := bind_eq_ok.mp hfixup
        obtain rfl : _ = e' := congrArg Prod.fst (Except.ok.inj hfixup)
        have hgraph : Quiet e₀ { e₀ with moGraph := g₂ } :=
          ⟨rfl,rfl,rfl,rfl,id,fun _ => rfl,rfl,fun _ => .refl _⟩
        exact ⟨hinformed.quiet hgraph,hgains.trans hgraph.grows.toGains,hgraph.grows.pending⟩
    · cases hfixup

/-- An acquire of the past learns from the heads found now, and passes it on. -/
theorem Informed.synchronizeNew {heads : List ActionId} {updated : Bool} {items : List WorkItem}
    (h : e.Informed) (hheads : ∀ a ∈ heads, 0 < (e.acts a).seqNumber)
    (hnew : (if updated || (e.synchronizeNew q heads).2 then
      (e.synchronizeNew q heads).1.propagateClockvector q
      else pure ((e.synchronizeNew q heads).1,[])) = .ok (e',items)) :
    e'.Informed ∧ Grows (e.synchronizeNew q heads).1 e' := by
  split at hnew
  · have hbut := (h.but q).synchronizeNew fun a ha => h.lt_of_pos (hheads a ha)
    exact ⟨hbut.propagate hnew,propagateClockvector_grows hnew⟩
  · rename_i hnot
    obtain ⟨rfl,-⟩ : _ = e' ∧ _ := by simpa using hnew
    rw [Bool.or_eq_true,not_or,Bool.not_eq_true,Bool.not_eq_true] at hnot
    exact ⟨h.quiet (synchronizeNew_false hnot.2),.refl _⟩

theorem resolveLoop_informed {location : Option Location} {l kept : List ReleaseSeq}
    {updated : Bool} {items : List WorkItem} (h : e.Informed) (hl : ∀ s ∈ l, e.Headed s)
    (hloop : resolveLoop location l updated e = .ok (e',kept,items)) :
    e'.Informed ∧ Grows e e' ∧ ∀ s ∈ kept, e'.Headed s := by
  induction l generalizing e updated kept items with
  | nil =>
    obtain ⟨rfl,rfl,-⟩ : e = e' ∧ [] = kept ∧ _ := by simpa [resolveLoop] using hloop
    exact ⟨h,.refl e,by simp⟩
  | cons pending rest ih =>
    rw [List.forall_mem_cons] at hl
    rw [resolveLoop] at hloop
    split at hloop
    · obtain ⟨⟨e₁,kept₁,_⟩,h₁,hloop⟩ := bind_eq_ok.mp hloop
      obtain ⟨rfl,rfl,-⟩ : e₁ = e' ∧ pending :: kept₁ = kept ∧ _ := by simpa using hloop
      obtain ⟨hinformed,hgrows,hkept⟩ := ih h hl.2 h₁
      exact ⟨hinformed,hgrows,List.forall_mem_cons.mpr ⟨hgrows.toGains.headed hl.1,hkept⟩⟩
    · obtain ⟨⟨heads,complete,sequence⟩,hheads,hloop⟩ := bind_eq_ok.mp hloop
      dsimp only at hloop
      obtain ⟨⟨e₂,_⟩,h₂,hloop⟩ := ite_bind_eq_ok.mp hloop
      obtain ⟨⟨e₃,kept₃,_⟩,h₃,hloop⟩ := bind_eq_ok.mp hloop
      obtain ⟨rfl,rfl,-⟩ : e₃ = e' ∧ (if complete then kept₃ else sequence :: kept₃) = kept ∧
        _ := by
        simpa using hloop
      obtain ⟨hnumbered,-,hheaded⟩ := releaseSeqHeads_spec h.toClocked hheads
      have hgrows := synchronizeNew_grows e pending.acquire heads
      have hfirst := h.synchronizeNew hnumbered h₂
      have hnext := hgrows.trans hfirst.2
      obtain ⟨hinformed,hrest,hkept⟩ := ih hfirst.1
        (fun s hs => hnext.toGains.headed (hl.2 s hs)) h₃
      refine ⟨hinformed,hnext.trans hrest,?_⟩
      split
      · exact hkept
      · exact List.forall_mem_cons.mpr
          ⟨(hnext.trans hrest).toGains.headed (hheaded hl.1),hkept⟩

theorem resolveReleaseSequences_informed {location : Option Location} {items : List WorkItem}
    (h : e.Informed) (hr : e.resolveReleaseSequences location = .ok (e',items)) :
    e'.Informed ∧ Gains e e' := by
  obtain ⟨⟨e₁,kept,_⟩,h₁,hr⟩ := bind_eq_ok.mp hr
  obtain ⟨rfl,-⟩ : _ = e' ∧ _ := by simpa using hr
  obtain ⟨hinformed,hgrows,hkept⟩ := resolveLoop_informed h h.releases h₁
  refine ⟨hinformed.setPending hkept,hgrows.toGains.trans ?_⟩
  exact ⟨fun _ => rfl,fun _ => rfl,fun _ _ => le_rfl,id⟩

/-! ### The current action -/

theorem processThreadAction_unknown {b : Bool} (hq : e.Unknown q)
    (hthread : e.processThreadAction q = .ok (e',b)) : e'.Unknown q := by
  unfold processThreadAction at hthread
  split at hthread
  · obtain rfl : _ = e' := congrArg Prod.fst (Except.ok.inj hthread)
    have hsame : (e.createThread q).clocks = e.clocks := rfl
    unfold Unknown
    rw [hsame]
    exact hq
  · obtain ⟨e₁,h₁,hthread⟩ := bind_eq_ok.mp hthread
    obtain rfl : e₁ = e' := congrArg Prod.fst (Except.ok.inj hthread)
    unfold joinThread at h₁
    split at h₁
    · obtain rfl : _ = e₁ := Except.ok.inj h₁
      exact hq.synchronize _
    · cases h₁
  · obtain ⟨e₁,h₁,hthread⟩ := bind_eq_ok.mp hthread
    obtain rfl : e₁ = e' := congrArg Prod.fst (Except.ok.inj hthread)
    exact hq.quiet (finishThread_quiet h₁)
  · obtain rfl : _ = e' := congrArg Prod.fst (Except.ok.inj hthread)
    exact hq.quiet (checkPromises_quiet e (e.acts q).tid none (e.acts q).cv)
  · obtain rfl : e = e' := congrArg Prod.fst (Except.ok.inj hthread)
    exact hq

/-- The second part of an RMW only writes. -/
theorem checkCurrAction_informed {secondPartOfRmw : Bool} {node : Choices} {items : List WorkItem}
    (hv : e.Valid) (h : e.Informed) (hfirst : secondPartOfRmw = false → e.Unknown q)
    (hsecond : secondPartOfRmw = true → (e.acts q).isRead = true)
    (hold : ∀ a ∈ e.actionTrace, (e.acts a).tid < e.threads.length)
    (hjoined : ∀ u, (e.acts q).getThreadOperand = some u → ∀ f, e.getLastAction u = some f →
      f < e.numActs)
    (hcheck : e.checkCurrAction q secondPartOfRmw node = .ok (e',items)) :
    e'.Informed ∧ Gains e e' ∧ ((e.acts q).isRelseqFixup = false → Grows e e') := by
  obtain ⟨⟨e₁,_⟩,h₁,hcheck⟩ := bind_eq_ok.mp hcheck
  obtain ⟨⟨e₂,_⟩,h₂,hcheck⟩ := ite_bind_eq_ok.mp hcheck
  obtain ⟨⟨e₃,_,_⟩,h₃,hcheck⟩ := ite_bind_eq_ok.mp hcheck
  obtain ⟨⟨e₄,_⟩,h₄,hcheck⟩ := ite_bind_eq_ok.mp hcheck
  obtain ⟨⟨e₅,_⟩,h₅,hcheck⟩ := ite_bind_eq_ok.mp hcheck
  obtain ⟨⟨e₆,_⟩,h₆,hcheck⟩ := ite_bind_eq_ok.mp hcheck
  obtain rfl : e₆ = e' := congrArg Prod.fst (Except.ok.inj hcheck)
  have hthread : e₁.Informed ∧ Grows e e₁ := by
    refine processThreadAction_informed hv h (fun hjoin => ?_) hold hjoined h₁
    cases secondPartOfRmw with
    | false => exact hfirst rfl
    | true =>
      have hread := hsecond rfl
      simp [ModelAction.isRead,beq_iff_eq.mp hjoin] at hread
  have htype₁ : (e₁.acts q).type = (e.acts q).type :=
    ((processThreadAction_threadSteps hv h₁).keepsOrder.keeps q).type
  have hread : e₂.Informed ∧ Grows e₁ e₂ ∧ (secondPartOfRmw = false → e₂.Unknown q) ∧
      (e₂.acts q).type = (e.acts q).type := by
    split at h₂
    · rename_i hreads
      rw [Bool.and_eq_true,Bool.not_eq_true'] at hreads
      obtain ⟨hinformed,hunknown,hgrows⟩ :=
        processRead_informed hthread.1 (processThreadAction_unknown (hfirst hreads.2) h₁) h₂
      exact ⟨hinformed,hgrows,fun _ => hunknown,
        ((MemSteps.frame (processRead_steps h₂)).act q).type.trans htype₁⟩
    · obtain rfl : e₁ = e₂ := congrArg Prod.fst (Except.ok.inj h₂)
      exact ⟨hthread.1,.refl _,fun hs => processThreadAction_unknown (hfirst hs) h₁,htype₁⟩
  obtain ⟨hinformed₂,hgrows₂,hunknown₂,htype₂⟩ := hread
  -- a write may tell others of itself, but it is nothing else then
  have hwrite : e₃.Informed ∧ Grows e₂ e₃ ∧ (e₃.acts q).type = (e.acts q).type ∧
      ((e₃.acts q).isRead = false → (e₃.acts q).isWrite = false → e₃.Unknown q) := by
    split at h₃
    · rename_i hwrites
      obtain ⟨hinformed,hgrows⟩ := processWrite_informed hinformed₂ h₃
      have htype := ((MemSteps.frame (processWrite_steps h₃)).act q).type
      refine ⟨hinformed,hgrows,htype.trans htype₂,fun _ hnot => ?_⟩
      rw [ModelAction.isWrite,htype] at hnot
      exact absurd hwrites (by rw [ModelAction.isWrite,hnot]; simp)
    · obtain rfl : e₂ = e₃ := congrArg Prod.fst (Except.ok.inj h₃)
      refine ⟨hinformed₂,.refl _,htype₂,fun hnot _ => ?_⟩
      cases secondPartOfRmw with
      | false => exact hunknown₂ rfl
      | true =>
        rw [ModelAction.isRead,htype₂] at hnot
        exact absurd (hsecond rfl) (by rw [ModelAction.isRead,hnot]; simp)
  obtain ⟨hinformed₃,hgrows₃,htype₃,hunknown₃⟩ := hwrite
  have hfence : e₄.Informed ∧ Grows e₃ e₄ ∧ (e₄.acts q).type = (e.acts q).type ∧
      ((e₄.acts q).isMutexOp = true → e₄.Unknown q) := by
    split at h₄
    · rename_i hfences
      have hfences := beq_iff_eq.mp hfences
      obtain ⟨hinformed,hgrows⟩ := processFence_informed hinformed₃
        (hunknown₃ (by simp [ModelAction.isRead,hfences]) (by simp [ModelAction.isWrite,hfences]))
        h₄
      have htype := ((OrderSteps.keepsOrder (processFence_order h₄)).keeps q).type
      refine ⟨hinformed,hgrows,htype.trans htype₃,fun hmutex => ?_⟩
      simp [ModelAction.isMutexOp,htype,hfences] at hmutex
    · obtain rfl : e₃ = e₄ := congrArg Prod.fst (Except.ok.inj h₄)
      refine ⟨hinformed₃,.refl _,htype₃,fun hmutex => hunknown₃ ?_ ?_⟩
      · simp only [ModelAction.isMutexOp,Bool.or_eq_true,beq_iff_eq] at hmutex
        simp only [ModelAction.isRead]
        grind
      · simp only [ModelAction.isMutexOp,Bool.or_eq_true,beq_iff_eq] at hmutex
        simp only [ModelAction.isWrite]
        grind
  have hmutex : e₅.Informed ∧ Grows e₄ e₅ ∧ (e₅.acts q).type = (e.acts q).type := by
    split at h₅
    · rename_i hmutexes
      obtain ⟨hinformed,hgrows⟩ := processMutex_informed hfence.1 (hfence.2.2.2 hmutexes) h₅
      exact ⟨hinformed,hgrows,((processMutex_threadSteps h₅).keepsOrder.keeps q).type.trans
        hfence.2.2.1⟩
    · obtain rfl : e₄ = e₅ := congrArg Prod.fst (Except.ok.inj h₅)
      exact ⟨hfence.1,.refl _,hfence.2.2.1⟩
  have hgrows := (((hthread.2.trans hgrows₂).trans hgrows₃).trans hfence.2.1).trans hmutex.2.1
  split at h₆
  · rename_i hfixup
    obtain ⟨hinformed,hgains,-⟩ := processRelseqFixup_informed hmutex.1 h₆
    refine ⟨hinformed,hgrows.toGains.trans hgains,fun hnot => ?_⟩
    rw [ModelAction.isRelseqFixup,hmutex.2.2] at hfixup
    exact absurd (hnot.symm.trans hfixup) (by simp)
  · obtain rfl : e₅ = e₆ := congrArg Prod.fst (Except.ok.inj h₆)
    exact ⟨hmutex.1,hgrows.toGains,fun _ => hgrows⟩

end Execution
end CdsChecker
