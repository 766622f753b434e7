import CdsChecker.InferenceOrder

/-! What the search for fences discovers and hands out. -/
namespace CdsChecker
namespace InferenceSet

/-- The assignment of a discovered inference. -/
def assignment (s : InferenceSet) (id : ℕ) : Option (ℕ → MemoryOrder) :=
  (s.infers[id]?).map Inference.order

/-- Where an inference of the same assignment was discovered, one of the same representation
was, or an explored leaf is ranked below. -/
def Recognised (s : InferenceSet) (infer : Inference) : Prop :=
  some infer.order ∈ s.discoveredSet.map s.assignment →
    ∃ id ∈ s.discoveredSet, ∃ d, s.infers[id]? = some d ∧ (d.orders = infer.orders ∨
      d.leaf = true ∧ d.explored = true ∧ d.Below infer)

theorem hasBeenDiscovered_iff {s : InferenceSet} {infer : Inference} :
    s.hasBeenDiscovered infer = true ↔ ∃ id ∈ s.discoveredSet, ∃ d, s.infers[id]? = some d ∧
      (d.orders = infer.orders ∨ d.leaf = true ∧ d.explored = true ∧ d.Below infer) := by
  unfold hasBeenDiscovered objects
  simp only [List.any_eq_true,List.mem_filterMap,Bool.or_eq_true,Bool.and_eq_true,beq_iff_eq,
    Inference.compareTo_eq_zero,Inference.compareTo_eq_neg_one]
  constructor
  · rintro ⟨d,⟨id,hid,hd⟩,horders | ⟨⟨hcomp,hleaf⟩,hexplored⟩⟩
    · exact ⟨id,hid,d,hd,.inl horders⟩
    · exact ⟨id,hid,d,hd,.inr ⟨hleaf,hexplored,hcomp⟩⟩
  · rintro ⟨id,hid,d,hd,horders | ⟨hleaf,hexplored,hcomp⟩⟩
    · exact ⟨d,⟨id,hid,hd⟩,.inl horders⟩
    · exact ⟨d,⟨id,hid,hd⟩,.inr ⟨⟨hcomp,hleaf⟩,hexplored⟩⟩

theorem recognised_iff {s : InferenceSet} {infer : Inference} : s.Recognised infer ↔
    (some infer.order ∈ s.discoveredSet.map s.assignment → s.hasBeenDiscovered infer = true) := by
  rw [Recognised,hasBeenDiscovered_iff]

instance (s : InferenceSet) (infer : Inference) : Decidable (s.Recognised infer) :=
  decidable_of_iff (∀ id ∈ s.discoveredSet, ∀ d ∈ s.infers[id]?, d.order = infer.order →
      s.hasBeenDiscovered infer = true) <| by
    rw [recognised_iff]
    constructor
    · intro h hmem
      obtain ⟨id,hid,hsame⟩ := List.mem_map.mp hmem
      obtain ⟨d,hd,horder⟩ := Option.map_eq_some_iff.mp hsame
      exact h id hid d hd horder
    · intro h id hid d hd horder
      refine h (List.mem_map.mpr ⟨id,hid,?_⟩)
      rw [assignment,Option.mem_def.mp hd,Option.map_some,horder]

/-- The bookkeeping that every call keeps: `handed` lists what `getNextInference` returned. -/
structure Ok (s : InferenceSet) (handed : List ℕ) : Prop where
  lt : ∀ id ∈ s.discoveredSet, id < s.infers.length
  candidates_lt : ∀ id ∈ s.candidates, id < s.infers.length
  nodup : s.discoveredSet.Nodup
  leaf : ∀ (id : ℕ) (x : Inference), s.infers[id]? = some x → x.leaf = true →
    id ∈ s.discoveredSet ∧ s.candidates.count id + handed.count id ≤ 1
  handed_nodup : handed.Nodup
  handed_subset : ∀ id ∈ handed, id ∈ s.discoveredSet

/-- What later calls keep of the discovered set. -/
def Grows (s s' : InferenceSet) : Prop :=
  s.infers.length ≤ s'.infers.length ∧
  (∀ id < s.infers.length, s'.assignment id = s.assignment id) ∧
  ∃ new, s'.discoveredSet = s.discoveredSet ++ new

theorem Grows.refl (s : InferenceSet) : s.Grows s := ⟨le_refl _,fun _ _ => rfl,[],by simp⟩

theorem Grows.trans {s t u : InferenceSet} (h : s.Grows t) (h' : t.Grows u) : s.Grows u := by
  obtain ⟨hlen,hsame,new,hnew⟩ := h
  obtain ⟨hlen',hsame',new',hnew'⟩ := h'
  refine ⟨hlen.trans hlen',fun id hid => (hsame' id (by omega)).trans (hsame id hid),
    new ++ new',?_⟩
  rw [hnew',hnew,List.append_assoc]

theorem Grows.map_assignment {s s' : InferenceSet} (h : s.Grows s') {handed : List ℕ}
    (hok : s.Ok handed) : ∃ new : List ℕ, s'.discoveredSet.map s'.assignment =
      s.discoveredSet.map s.assignment ++ new.map s'.assignment := by
  obtain ⟨_,hsame,new,hnew⟩ := h
  refine ⟨new,?_⟩
  rw [hnew,List.map_append]
  congr 1
  exact List.map_congr_left fun id hid => hsame id (hok.lt id hid)

/-- A call that adds no inference and changes no assignment. -/
theorem Grows.of_assignment {s s' : InferenceSet} (hlen : s'.infers.length = s.infers.length)
    (hsame : ∀ id, s'.assignment id = s.assignment id)
    (hdisc : s'.discoveredSet = s.discoveredSet) :
    s.Grows s' :=
  ⟨hlen.ge,fun id _ => hsame id,[],by simp [hdisc]⟩

theorem getElem?_push {l : List Inference} {x y : Inference} {id : ℕ}
    (h : (l ++ [x])[id]? = some y) : l[id]? = some y ∨ id = l.length ∧ y = x := by
  rcases Nat.lt_or_ge id l.length with hlt | hge
  · exact .inl ((List.getElem?_append_left hlt).symm.trans h)
  · rw [List.getElem?_append_right hge,List.getElem?_singleton] at h
    split at h
    · exact .inr ⟨by omega,(Option.some.inj h).symm⟩
    · cases h

theorem newInference_grows (s : InferenceSet) (infer : Inference) :
    s.Grows (s.newInference infer) := by
  refine ⟨by simp [newInference],fun id hid => ?_,[],by simp [newInference]⟩
  simp only [assignment,newInference,List.getElem?_append_left hid]

theorem Ok.newInference {s : InferenceSet} {handed : List ℕ} (h : s.Ok handed) (infer : Inference) :
    (s.newInference infer).Ok handed := by
  have hlen : (s.newInference infer).infers.length = s.infers.length + 1 := by
    simp [InferenceSet.newInference]
  apply Ok.mk
  · intro id hid
    have := h.lt id hid
    omega
  · intro id hid
    have := h.candidates_lt id hid
    omega
  · exact h.nodup
  · intro id x hx hleaf
    rcases getElem?_push hx with hx | ⟨-,rfl⟩
    · exact h.leaf id x hx hleaf
    · cases hleaf
  · exact h.handed_nodup
  · exact h.handed_subset

theorem addInference_grows (s : InferenceSet) (infer : Inference) :
    s.Grows (s.addInference infer).1 := by
  unfold addInference
  split
  · exact .of_assignment rfl (fun _ => rfl) rfl
  · refine ⟨by simp,fun id hid => ?_,[s.infers.length],rfl⟩
    simp only [assignment,List.getElem?_append_left hid]

theorem Ok.addInference {s : InferenceSet} {handed : List ℕ} (h : s.Ok handed) (infer : Inference) :
    (s.addInference infer).1.Ok handed := by
  unfold InferenceSet.addInference
  split
  · exact ⟨h.lt,h.candidates_lt,h.nodup,h.leaf,h.handed_nodup,h.handed_subset⟩
  · have hfresh : s.infers.length ∉ s.discoveredSet := fun hmem =>
      absurd (h.lt _ hmem) (Nat.lt_irrefl _)
    have hnone : s.candidates.count s.infers.length = 0 :=
      List.count_eq_zero.mpr fun hmem => absurd (h.candidates_lt _ hmem) (Nat.lt_irrefl _)
    have hnone' : handed.count s.infers.length = 0 :=
      List.count_eq_zero.mpr fun hmem => hfresh (h.handed_subset _ hmem)
    have hpush : ∀ list : List ℕ, (∀ id ∈ list, id < s.infers.length) →
        ∀ id ∈ list ++ [s.infers.length], id <
        (s.infers ++ [{ infer with leaf := true }]).length := by
      intro list hlist id hid
      rw [List.length_append,List.length_singleton]
      rcases List.mem_append.mp hid with hid | hid
      · have := hlist id hid
        omega
      · rw [List.mem_singleton.mp hid]
        omega
    apply Ok.mk
    · exact hpush _ h.lt
    · exact hpush _ h.candidates_lt
    · apply List.nodup_append.mpr
      refine ⟨h.nodup,by simp,fun a ha b hb hab => hfresh ?_⟩
      rwa [← List.mem_singleton.mp hb,← hab]
    · intro id x hx hleaf
      rcases getElem?_push hx with hx | ⟨rfl,-⟩
      · obtain ⟨hdisc,hcount⟩ := h.leaf id x hx hleaf
        have hne : s.infers.length ≠ id := fun heq => hfresh (heq ▸ hdisc)
        refine ⟨List.mem_append_left _ hdisc,?_⟩
        simpa [List.count_append,List.count_singleton,hne] using hcount
      · simp [List.count_append,hnone,hnone']
    · exact h.handed_nodup
    · exact fun id hid => List.mem_append_left _ (h.handed_subset id hid)

/-- A call that keeps the number of inferences, their assignments and what was discovered, and
makes no leaf. -/
structure Tunes (s s' : InferenceSet) : Prop where
  length : s'.infers.length = s.infers.length
  discoveredSet : s'.discoveredSet = s.discoveredSet
  leaf : ∀ (id : ℕ) (x : Inference), s'.infers[id]? = some x →
    ∃ y, s.infers[id]? = some y ∧ x.order = y.order ∧ (x.leaf = true → y.leaf = true)

theorem Tunes.grows {s s' : InferenceSet} (h : s.Tunes s') : s.Grows s' := by
  apply Grows.of_assignment h.length _ h.discoveredSet
  intro id
  unfold assignment
  cases hx : s'.infers[id]? with
  | none =>
    rw [List.getElem?_eq_none_iff,h.length,← List.getElem?_eq_none_iff] at hx
    rw [hx]
  | some x =>
    obtain ⟨y,hy,horder,-⟩ := h.leaf id x hx
    rw [hy,Option.map_some,Option.map_some,horder]

theorem Ok.tunes {s s' : InferenceSet} {handed : List ℕ} (h : s.Ok handed) (htunes : s.Tunes s')
    (hcandidates : s'.candidates = s.candidates) : s'.Ok handed := by
  obtain ⟨hlen,hdisc,hleaf⟩ := htunes
  apply Ok.mk
  · rw [hdisc,hlen]
    exact h.lt
  · rw [hcandidates,hlen]
    exact h.candidates_lt
  · rw [hdisc]
    exact h.nodup
  · intro id x hx hx'
    obtain ⟨y,hy,-,hy'⟩ := hleaf id x hx
    rw [hdisc,hcandidates]
    exact h.leaf id y hy (hy' hx')
  · exact h.handed_nodup
  · rw [hdisc]
    exact h.handed_subset

/-- The object of one inference is written to. -/
theorem tunes_set {s : InferenceSet} {id : ℕ} {infer infer' : Inference}
    (hinfer : s.infers[id]? = some infer) (horder : infer'.order = infer.order)
    (hleaf : infer'.leaf = true → infer.leaf = true) :
    s.Tunes { s with infers := s.infers.set id infer' } := by
  refine ⟨List.length_set,rfl,fun id' x hx => ?_⟩
  rcases eq_or_ne id id' with rfl | hne
  · rw [List.getElem?_set_self (List.getElem?_eq_some_iff.mp hinfer).1] at hx
    cases hx
    exact ⟨infer,hinfer,horder,hleaf⟩
  · rw [List.getElem?_set_ne hne] at hx
    exact ⟨x,hx,rfl,fun hleaf => hleaf⟩

theorem commitInference_tunes {s s' : InferenceSet} {id : ℕ} {feasible : Bool}
    (h : s.commitInference id feasible = .ok s') : s.Tunes s' ∧ s'.candidates = s.candidates := by
  unfold commitInference at h
  cases hinfer : s.infers[id]? with
  | none =>
    rw [hinfer] at h
    cases h
  | some infer =>
    rw [hinfer] at h
    have htunes : s.Tunes { s with infers := s.infers.set id { infer with explored := true } } :=
      tunes_set hinfer rfl fun hleaf => hleaf
    cases feasible with
    | false =>
      cases h
      exact ⟨htunes,rfl⟩
    | true =>
      cases h
      exact ⟨⟨htunes.length,rfl,htunes.leaf⟩,rfl⟩

theorem modifyInference_tunes {s s' : InferenceSet} {id : ℕ} {f : Inference → Result Inference}
    (hf : ∀ infer infer', f infer = .ok infer' →
      infer'.order = infer.order ∧ infer'.leaf = infer.leaf)
    (h : s.modifyInference id f = .ok s') : s.Tunes s' ∧ s'.candidates = s.candidates := by
  unfold modifyInference at h
  cases hinfer : s.infers[id]? with
  | none =>
    rw [hinfer] at h
    cases h
  | some infer =>
    rw [hinfer] at h
    obtain ⟨infer',hok,h⟩ := bind_eq_ok.mp h
    cases h
    obtain ⟨horder,hleaf⟩ := hf infer infer' hok
    exact ⟨tunes_set hinfer horder (hleaf ▸ fun h => h),rfl⟩

theorem addCurInference_grows (s : InferenceSet) (cur : ℕ) : s.Grows (s.addCurInference cur) := by
  refine .of_assignment (List.length_modify _ _ _) (fun id => ?_) rfl
  simp only [assignment,addCurInference,List.getElem?_modify]
  cases s.infers[id]? with
  | none => rfl
  | some infer =>
    by_cases heq : cur = id
    · simp only [if_pos heq]
      rfl
    · simp only [if_neg heq]
      rfl

/-- The current inference is a leaf no more, so it may be a candidate once again. -/
theorem Ok.addCurInference {s : InferenceSet} {handed : List ℕ} (h : s.Ok handed) {cur : ℕ}
    (hcur : cur < s.infers.length) : (s.addCurInference cur).Ok handed := by
  have hlen : (s.addCurInference cur).infers.length = s.infers.length :=
    List.length_modify _ _ _
  apply Ok.mk
  · rw [hlen]
    exact h.lt
  · intro id hid
    rw [hlen]
    rcases List.mem_append.mp hid with hid | hid
    · exact h.candidates_lt id hid
    · rw [List.mem_singleton.mp hid]
      exact hcur
  · exact h.nodup
  · intro id x hx hleaf
    simp only [InferenceSet.addCurInference,List.getElem?_modify] at hx
    obtain ⟨y,hy,rfl⟩ := Option.map_eq_some_iff.mp hx
    by_cases heq : cur = id
    · simp [heq] at hleaf
    · rw [if_neg heq] at hleaf
      obtain ⟨hdisc,hcount⟩ := h.leaf id y hy hleaf
      refine ⟨hdisc,?_⟩
      simpa [InferenceSet.addCurInference,List.count_append,List.count_singleton,heq] using hcount
  · exact h.handed_nodup
  · exact h.handed_subset

theorem addAll_grows (s : InferenceSet) (cands : List Inference) : s.Grows (s.addAll cands).1 := by
  induction cands generalizing s with
  | nil => exact .refl s
  | cons candidate cands ih => exact (addInference_grows s candidate).trans (ih _)

theorem Ok.addAll {s : InferenceSet} {handed : List ℕ} (h : s.Ok handed) (cands : List Inference) :
    (s.addAll cands).1.Ok handed := by
  induction cands generalizing s with
  | nil => exact h
  | cons candidate cands ih => exact ih (h.addInference candidate)

/-- No assignment was discovered twice. -/
def Distinct (s : InferenceSet) : Prop := (s.discoveredSet.map s.assignment).Nodup

theorem Grows.distinct {s s' : InferenceSet} {handed : List ℕ} (h : s.Grows s') (hok : s.Ok handed)
    (hdistinct : s'.Distinct) : s.Distinct := by
  obtain ⟨new,hnew⟩ := h.map_assignment hok
  rw [Distinct,hnew] at hdistinct
  exact (List.nodup_append.mp hdistinct).1

theorem Grows.distinct_iff {s s' : InferenceSet} {handed : List ℕ} (h : s.Grows s')
    (hok : s.Ok handed) (hdisc : s'.discoveredSet = s.discoveredSet) :
    s'.Distinct ↔ s.Distinct := by
  rw [Distinct,Distinct,hdisc,List.map_congr_left fun id hid => h.2.1 id (hok.lt id hid)]

/-- One inference is offered. -/
theorem addInference_distinct {s : InferenceSet} {handed : List ℕ} (hok : s.Ok handed)
    (h : s.Distinct) (infer : Inference) :
    (s.addInference infer).1.Distinct ↔ s.Recognised infer := by
  have hgrows := addInference_grows s infer
  by_cases hdisc : s.hasBeenDiscovered infer = true
  · have hsame : (s.addInference infer).1.discoveredSet = s.discoveredSet := by
      simp [addInference,hdisc]
    rw [hgrows.distinct_iff hok hsame,recognised_iff]
    exact ⟨fun _ _ => hdisc,fun _ => h⟩
  · have hold : s.discoveredSet.map (s.addInference infer).1.assignment =
        s.discoveredSet.map s.assignment :=
      List.map_congr_left fun id hid => hgrows.2.1 id (hok.lt id hid)
    have hnew : (s.addInference infer).1.discoveredSet = s.discoveredSet ++ [s.infers.length] := by
      simp [addInference,hdisc]
    have hval : (s.addInference infer).1.assignment s.infers.length = some infer.order := by
      simp only [addInference,hdisc,Bool.false_eq_true,↓reduceIte,assignment,
        List.getElem?_concat_length,Option.map_some]
      rfl
    rw [Distinct,hnew,List.map_append,hold,List.map_singleton,hval,recognised_iff,
      List.nodup_append]
    simp only [List.nodup_singleton,List.mem_singleton,true_and,hdisc,Bool.false_eq_true,imp_false]
    constructor
    · intro hdistinct hmem
      exact hdistinct.2 _ hmem _ rfl rfl
    · intro hmem
      refine ⟨h,fun a ha b hb hab => hmem ?_⟩
      rwa [← hb,← hab]

/-- Each of the inferences is recognised when its turn comes. -/
def RecognisedAll (s : InferenceSet) : List Inference → Prop
  | [] => True
  | candidate :: cands => s.Recognised candidate ∧ (s.addInference candidate).1.RecognisedAll cands

def decidableRecognisedAll (s : InferenceSet) : (cands : List Inference) →
    Decidable (s.RecognisedAll cands)
  | [] => .isTrue trivial
  | candidate :: cands =>
    @instDecidableAnd _ _ _ ((s.addInference candidate).1.decidableRecognisedAll cands)

instance (s : InferenceSet) (cands : List Inference) : Decidable (s.RecognisedAll cands) :=
  s.decidableRecognisedAll cands

theorem addAll_distinct {s : InferenceSet} {handed : List ℕ} (hok : s.Ok handed) (h : s.Distinct)
    (cands : List Inference) : (s.addAll cands).1.Distinct ↔ s.RecognisedAll cands := by
  induction cands generalizing s with
  | nil => exact iff_of_true h trivial
  | cons candidate cands ih =>
    have hone := addInference_distinct hok h candidate
    have hok' := hok.addInference candidate
    rw [RecognisedAll,← hone]
    constructor
    · intro hall
      have hfirst := (addAll_grows _ cands).distinct hok' hall
      exact ⟨hfirst,(ih hok' hfirst).mp hall⟩
    · intro ⟨hfirst,hrest⟩
      exact (ih hok' hfirst).mpr hrest

theorem addCandidates_ok {s s' : InferenceSet} {cur : ℕ} {cands : List Inference} {added : Bool}
    (h : s.addCandidates cur cands = .ok (s',added)) : ∃ infer, s.infers[cur]? = some infer ∧
      s' = ((s.addCurInference cur).addAll (pruneCandidates cands infer)).1 := by
  unfold addCandidates at h
  cases hinfer : s.infers[cur]? with
  | none =>
    rw [hinfer] at h
    cases h
  | some infer =>
    rw [hinfer] at h
    exact ⟨infer,rfl,(congrArg Prod.fst (Except.ok.inj h)).symm⟩

/-- A candidate that is taken out and not handed out. -/
theorem Ok.dropLast {s : InferenceSet} {handed : List ℕ} (h : s.Ok handed) :
    { s with candidates := s.candidates.dropLast }.Ok handed := by
  refine ⟨h.lt,fun id hid => h.candidates_lt id (List.dropLast_subset _ hid),h.nodup,
    fun id x hx hleaf => ?_,h.handed_nodup,h.handed_subset⟩
  obtain ⟨hdisc,hcount⟩ := h.leaf id x hx hleaf
  have := (List.dropLast_sublist s.candidates).count_le id
  exact ⟨hdisc,by dsimp only; omega⟩

/-- A candidate that is handed out. -/
theorem Ok.handOut {s : InferenceSet} {handed : List ℕ} (h : s.Ok handed) {id : ℕ}
    {infer : Inference} (hlast : s.candidates.getLast? = some id)
    (hinfer : s.infers[id]? = some infer) (hleaf : infer.leaf = true) :
    { s with candidates := s.candidates.dropLast }.Ok (handed ++ [id]) := by
  have hsplit : s.candidates = s.candidates.dropLast ++ [id] :=
    (List.dropLast_append_getLast? id hlast).symm
  have hcount : ∀ id', s.candidates.count id' =
      s.candidates.dropLast.count id' + [id].count id' := by
    intro id'
    rw [← List.count_append,← hsplit]
  obtain ⟨hdisc,honce⟩ := h.leaf id infer hinfer hleaf
  have hfresh : id ∉ handed := by
    intro hmem
    have := List.count_pos_iff.mpr hmem
    have := hcount id
    simp only [List.count_singleton_self] at this
    omega
  refine ⟨h.lt,fun id' hid => h.candidates_lt id' (List.dropLast_subset _ hid),h.nodup,
    fun id' x hx hx' => ?_,?_,fun id' hid => ?_⟩
  · obtain ⟨hdisc',honce'⟩ := h.leaf id' x hx hx'
    have := hcount id'
    rw [List.count_append]
    exact ⟨hdisc',by dsimp only; omega⟩
  · apply List.nodup_append.mpr
    refine ⟨h.handed_nodup,by simp,fun a ha b hb hab => hfresh ?_⟩
    rwa [← List.mem_singleton.mp hb,← hab]
  · rcases List.mem_append.mp hid with hid | hid
    · exact h.handed_subset id' hid
    · rw [List.mem_singleton.mp hid]
      exact hdisc

theorem getNextLoop_ok {n : ℕ} {s s' : InferenceSet} {next : Option ℕ} {handed : List ℕ}
    (hok : s.Ok handed) (h : getNextLoop n s = .ok (s',next)) :
    s'.Ok (handed ++ next.toList) ∧ s.Grows s' ∧ s'.discoveredSet = s.discoveredSet := by
  induction n generalizing s with
  | zero =>
    cases h
    simpa using ⟨hok,Grows.refl _⟩
  | succ n ih =>
    rw [getNextLoop] at h
    cases hlast : s.candidates.getLast? with
    | none =>
      rw [hlast] at h
      cases h
      simpa using ⟨hok,Grows.refl _⟩
    | some id =>
      simp only [hlast] at h
      cases hinfer : s.infers[id]? with
      | none =>
        rw [hinfer] at h
        cases h
      | some infer =>
        simp only [hinfer] at h
        have hdrop : s.Grows { s with candidates := s.candidates.dropLast } :=
          .of_assignment rfl (fun _ => rfl) rfl
        split at h
        · obtain ⟨t,ht,h⟩ := bind_eq_ok.mp h
          obtain ⟨htunes,hcandidates⟩ := commitInference_tunes ht
          obtain ⟨hok',hgrows,hdisc⟩ := ih (hok.dropLast.tunes htunes hcandidates) h
          exact ⟨hok',(hdrop.trans htunes.grows).trans hgrows,hdisc.trans htunes.discoveredSet⟩
        · rename_i hleaf
          split at h
          · obtain ⟨hok',hgrows,hdisc⟩ := ih hok.dropLast h
            exact ⟨hok',hdrop.trans hgrows,hdisc⟩
          · cases h
            exact ⟨hok.handOut hlast hinfer (by simpa using hleaf),hdrop,rfl⟩

/-- The orders of the first wildcards. -/
def firstOrders (s : InferenceSet) (n id : ℕ) (w : Fin n) : MemoryOrder :=
  ((s.assignment id).getD fun _ => .relaxed) w

/-- Assignments of `n` wildcards are finitely many. -/
theorem Distinct.length_le {s : InferenceSet} {handed : List ℕ} (h : s.Distinct) (hok : s.Ok handed)
    {n : ℕ} (hsize : ∀ infer ∈ s.infers, infer.size ≤ n) : s.discoveredSet.length ≤ 5 ^ n := by
  have hinj : ∀ a ∈ s.discoveredSet, ∀ b ∈ s.discoveredSet,
      s.firstOrders n a = s.firstOrders n b → a = b := by
    intro a ha b hb hab
    apply List.inj_on_of_nodup_map h ha hb
    obtain ⟨x,hx⟩ : ∃ x, s.infers[a]? = some x := ⟨_,List.getElem?_eq_getElem (hok.lt a ha)⟩
    obtain ⟨y,hy⟩ : ∃ y, s.infers[b]? = some y := ⟨_,List.getElem?_eq_getElem (hok.lt b hb)⟩
    have hx₀ : s.assignment a = some x.order := by rw [assignment,hx,Option.map_some]
    have hy₀ : s.assignment b = some y.order := by rw [assignment,hy,Option.map_some]
    rw [hx₀,hy₀]
    apply congrArg some
    funext w
    by_cases hw : w < n
    · simpa [firstOrders,hx₀,hy₀] using congrFun hab ⟨w,hw⟩
    · have hx' := hsize x (List.mem_of_getElem? hx)
      have hy' := hsize y (List.mem_of_getElem? hy)
      rw [Inference.order_of_size_le (by omega),Inference.order_of_size_le (by omega)]
  have hcard := (List.Nodup.map_on hinj hok.nodup).length_le_card
  rw [List.length_map,Fintype.card_fun,Fintype.card_fin,card_memoryOrder] at hcard
  exact hcard

end InferenceSet

/-- The set and the inferences that `getNextInference` handed out, oldest first. -/
structure InferenceSearch where
  set : InferenceSet := {}
  handed : List ℕ := []
  deriving DecidableEq, Repr

namespace InferenceSearch

inductive Call
  | newInference (infer : Inference)
  | addInference (infer : Inference)
  | addCandidates (curInfer : ℕ) (inferList : List Inference)
  | commitInference (infer : ℕ) (feasible : Bool)
  | lookup (infer : ℕ) (idx : ℕ)
  | inspectModelAction (infer : ℕ) (wildcardID : ℕ)
  | getNextInference
  deriving DecidableEq, Repr

def step (q : InferenceSearch) : Call → Result InferenceSearch
  | .newInference infer => .ok { q with set := q.set.newInference infer }
  | .addInference infer => .ok { q with set := (q.set.addInference infer).1 }
  | .addCandidates curInfer inferList =>
    (q.set.addCandidates curInfer inferList).map fun r => { q with set := r.1 }
  | .commitInference id feasible =>
    (q.set.commitInference id feasible).map fun set => { q with set := set }
  | .lookup id idx =>
    (q.set.modifyInference id (·.lookup idx)).map fun set => { q with set := set }
  | .inspectModelAction id wildcardID =>
    (q.set.modifyInference id (·.inspectModelAction wildcardID)).map fun set =>
    { q with set := set }
  | .getNextInference =>
    q.set.getNextInference.map fun r => ⟨r.1,q.handed ++ r.2.toList⟩

/-- What the call offers is recognised, each inference when its turn comes. -/
def Call.Recognised (q : InferenceSearch) : Call → Prop
  | .addInference infer => q.set.Recognised infer
  | .addCandidates curInfer inferList => ∀ infer, q.set.infers[curInfer]? = some infer →
    (q.set.addCurInference curInfer).RecognisedAll (pruneCandidates inferList infer)
  | _ => True

instance (q : InferenceSearch) : (call : Call) → Decidable (call.Recognised q)
  | .addInference infer => inferInstanceAs (Decidable (q.set.Recognised infer))
  | .addCandidates curInfer inferList => inferInstanceAs
      (Decidable (∀ infer ∈ q.set.infers[curInfer]?,
      (q.set.addCurInference curInfer).RecognisedAll (pruneCandidates inferList infer)))
  | .newInference _ | .commitInference _ _ | .lookup _ _ | .inspectModelAction _ _
  | .getNextInference => .isTrue trivial

/-- A run of the search: what it leaves with the call made there, newest first. -/
inductive Run : List (InferenceSearch × Call) → InferenceSearch → Prop
  | init : Run [] {}
  | step {trace : List (InferenceSearch × Call)} {q q' : InferenceSearch} {call : Call}
      (h : Run trace q) (hstep : q.step call = .ok q') : Run ((q,call) :: trace) q'

/-- No assignment is discovered or handed out twice, so over `n` wildcards the search ends. -/
def NoRepeats (q : InferenceSearch) : Prop :=
  q.set.Distinct ∧ (q.handed.map q.set.assignment).Nodup ∧
    ∀ n, (∀ infer ∈ q.set.infers, infer.size ≤ n) →
      q.set.discoveredSet.length ≤ 5 ^ n ∧ q.handed.length ≤ 5 ^ n

/-- One call. -/
theorem step_keeps {q q' : InferenceSearch} {call : Call} (hok : q.set.Ok q.handed)
    (h : q.step call = .ok q') : q'.set.Ok q'.handed ∧ q.set.Grows q'.set ∧
      (q.set.Distinct → (q'.set.Distinct ↔ call.Recognised q)) := by
  have hsame : ∀ {set : InferenceSet} {handed : List ℕ}, q.set.Grows set →
      set.discoveredSet = q.set.discoveredSet → q.set.Distinct → (set.Distinct ↔ True) :=
    fun hgrows hdisc hdistinct => iff_true_intro ((hgrows.distinct_iff hok hdisc).mpr hdistinct)
  have htunes : ∀ {set : InferenceSet}, q.set.Tunes set ∧ set.candidates = q.set.candidates →
      set.Ok q.handed ∧ q.set.Grows set ∧ (q.set.Distinct → (set.Distinct ↔ True)) := by
    intro set ⟨htunes,hcandidates⟩
    exact ⟨hok.tunes htunes hcandidates,htunes.grows,
      fun hdistinct => iff_true_intro
        ((htunes.grows.distinct_iff hok htunes.discoveredSet).mpr hdistinct)⟩
  cases call with
  | newInference infer =>
    cases h
    have hgrows := q.set.newInference_grows infer
    exact ⟨hok.newInference infer,hgrows,
      fun hdistinct => iff_true_intro ((hgrows.distinct_iff hok rfl).mpr hdistinct)⟩
  | addInference infer =>
    cases h
    exact ⟨hok.addInference infer,q.set.addInference_grows infer,
      fun hdistinct => InferenceSet.addInference_distinct hok hdistinct infer⟩
  | addCandidates curInfer inferList =>
    obtain ⟨⟨set,added⟩,hset,rfl⟩ := map_eq_ok.mp h
    obtain ⟨infer,hinfer,rfl⟩ := InferenceSet.addCandidates_ok hset
    have hcur := hok.addCurInference (List.getElem?_eq_some_iff.mp hinfer).1
    have hgrows := q.set.addCurInference_grows curInfer
    refine ⟨hcur.addAll _,hgrows.trans (InferenceSet.addAll_grows _ _),fun hdistinct => ?_⟩
    rw [InferenceSet.addAll_distinct hcur ((hgrows.distinct_iff hok rfl).mpr hdistinct)]
    constructor
    · intro hall infer' hinfer'
      cases hinfer.symm.trans hinfer'
      exact hall
    · exact fun hall => hall infer hinfer
  | commitInference id feasible =>
    obtain ⟨set,hset,rfl⟩ := map_eq_ok.mp h
    exact htunes (InferenceSet.commitInference_tunes hset)
  | lookup id idx =>
    obtain ⟨set,hset,rfl⟩ := map_eq_ok.mp h
    exact htunes (InferenceSet.modifyInference_tunes (fun _ _ => Inference.lookup_order) hset)
  | inspectModelAction id wildcardID =>
    obtain ⟨set,hset,rfl⟩ := map_eq_ok.mp h
    exact htunes (InferenceSet.modifyInference_tunes
      (fun _ _ => Inference.inspectModelAction_order) hset)
  | getNextInference =>
    obtain ⟨⟨set,next⟩,hset,rfl⟩ := map_eq_ok.mp h
    obtain ⟨hok',hgrows,hdisc⟩ := InferenceSet.getNextLoop_ok hok hset
    exact ⟨hok',hgrows,
      fun hdistinct => iff_true_intro ((hgrows.distinct_iff hok hdisc).mpr hdistinct)⟩

/-- What all calls together keep. -/
theorem Run.keeps {trace : List (InferenceSearch × Call)} {q : InferenceSearch}
    (h : Run trace q) : q.set.Ok q.handed ∧
      (q.set.Distinct ↔ ∀ x ∈ trace, x.2.Recognised x.1) := by
  induction h with
  | init =>
    refine ⟨⟨by simp,by simp,List.nodup_nil,by simp,List.nodup_nil,by simp⟩,?_⟩
    simp [InferenceSet.Distinct]
  | step h hstep ih =>
    obtain ⟨hok,hiff⟩ := ih
    obtain ⟨hok',hgrows,hlast⟩ := step_keeps hok hstep
    refine ⟨hok',?_⟩
    rw [List.forall_mem_cons,← hiff]
    constructor
    · intro hdistinct
      have hold := hgrows.distinct hok hdistinct
      exact ⟨(hlast hold).mp hdistinct,hold⟩
    · intro ⟨hrecognised,hold⟩
      exact (hlast hold).mpr hrecognised

theorem noRepeats_iff {q : InferenceSearch} (hok : q.set.Ok q.handed) :
    q.NoRepeats ↔ q.set.Distinct := by
  refine ⟨fun h => h.1,fun h => ⟨h,?_,fun n hsize => ?_⟩⟩
  · apply List.Nodup.map_on _ hok.handed_nodup
    intro a ha b hb hab
    exact List.inj_on_of_nodup_map h (hok.handed_subset a ha) (hok.handed_subset b hb) hab
  · have hlen := h.length_le hok hsize
    exact ⟨hlen,((List.subperm_of_subset hok.handed_nodup hok.handed_subset).length_le).trans hlen⟩

/-- The calls one after the other, and the trace they leave. -/
def play (q : InferenceSearch) (trace : List (InferenceSearch × Call)) :
    List Call → Result (List (InferenceSearch × Call) × InferenceSearch)
  | [] => .ok (trace,q)
  | call :: calls => (q.step call).bind fun q' => q'.play ((q,call) :: trace) calls

theorem Run.play {trace trace' : List (InferenceSearch × Call)} {q q' : InferenceSearch}
    (h : Run trace q) {calls : List Call} (hplay : q.play trace calls = .ok (trace',q')) :
    Run trace' q' := by
  induction calls generalizing q trace with
  | nil =>
    cases hplay
    exact h
  | cons call calls ih =>
    obtain ⟨_,hstep,hplay⟩ := bind_eq_ok.mp hplay
    exact ih (h.step hstep) hplay

theorem exists_play (calls : List Call) (P : List (InferenceSearch × Call) → InferenceSearch → Prop)
    (h : ∃ x, play {} [] calls = .ok x ∧ P x.1 x.2) : ∃ trace q, Run trace q ∧ P trace q := by
  obtain ⟨x,hplay,hx⟩ := h
  exact ⟨x.1,x.2,Run.init.play hplay,hx⟩

/-- The same inference is offered again after its second wildcard was met. -/
theorem offered_again_repeats : ¬ ∀ (trace : List (InferenceSearch × Call)) (q : InferenceSearch),
    Run trace q → q.NoRepeats := by
  intro hclaim
  let infer : Inference := { orders := [some .acquire,none,none,none] }
  let infer' : Inference := { orders := [some .acquire,some .relaxed,none,none] }
  let last : InferenceSearch := ⟨⟨[{ infer' with leaf := true,explored := true },
    { infer with leaf := true }],[0,1],[0],[],0⟩,[0,1]⟩
  obtain ⟨trace,q,hrun,rfl⟩ := exists_play [.addInference infer,.getNextInference,
    .inspectModelAction 0 2,.commitInference 0 true,.addInference infer,.getNextInference]
    (fun _ q => q = last) ⟨_,rfl,by decide⟩
  have hdistinct := (hclaim trace last hrun).1
  have hsame : infer.order = infer'.order := by
    funext w
    match w with
    | 0 | 1 | 2 | 3 => rfl
    | w + 4 => rfl
  have hdup := List.inj_on_of_nodup_map hdistinct (x := 0) (y := 1) (by simp [last])
    (by simp [last])
    (congrArg some hsame.symm)
  cases hdup

/-- The search repeats no assignment exactly when all that is offered is recognised. -/
theorem noRepeats_iff_recognised (trace : List (InferenceSearch × Call)) (q : InferenceSearch)
    (h : Run trace q) : (∀ x ∈ trace, x.2.Recognised x.1) ↔ q.NoRepeats := by
  obtain ⟨hok,hiff⟩ := h.keeps
  rw [noRepeats_iff hok,hiff]

/-- The first inference of three is offered three times, and handed out once. -/
def recognisedAgain : List Call :=
  [.newInference { orders := [none,none] },
    .addCandidates 0 [{ orders := [some .acquire,none] },{ orders := [some .release,none] }],
    .getNextInference,.commitInference 2 true,
    .addCandidates 2 [{ orders := [some .acquire,none] }],.getNextInference,
    .addInference { orders := [some .acquire,none] }]

theorem noRepeats_iff_recognisedAgain : ∃ trace q, Run trace q ∧ q.handed = [2,1] ∧
    q.set.notAddedAtFirstPlace = 2 ∧ (∀ x ∈ trace, x.2.Recognised x.1) ∧ q.NoRepeats := by
  obtain ⟨trace,q,hrun,hhanded,hagain,hrecognised⟩ := exists_play recognisedAgain
    (fun trace q => q.handed = [2,1] ∧ q.set.notAddedAtFirstPlace = 2 ∧
      ∀ x ∈ trace, x.2.Recognised x.1) ⟨_,rfl,by decide⟩
  exact ⟨trace,q,hrun,hhanded,hagain,hrecognised,
    (noRepeats_iff_recognised trace q hrun).mp hrecognised⟩

end InferenceSearch
end CdsChecker
