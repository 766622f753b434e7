import CdsChecker.ExtractMethod
import Mathlib.Tactic

/-! Which part of a thread's annotations a method call is extracted from. -/
namespace CdsChecker.AnnotatedActions

variable (e : AnnotatedActions)

/-! ### Nesting -/

/-- The number of interface calls that are open behind the list, or none where one has ended that
has not begun in it. -/
def nesting : ℕ → List ActionId → Option ℕ
  | d,[] => some d
  | d,a :: l =>
    match e.getAnnotation a with
    | some (.interfaceBegin _) => nesting (d + 1) l
    | some .interfaceEnd => if d = 0 then none else nesting (d - 1) l
    | _ => nesting d l

def IsBegin (a : ActionId) : Prop := ∃ name, e.getAnnotation a = some (.interfaceBegin name)

def IsEnd (a : ActionId) : Prop := e.getAnnotation a = some .interfaceEnd

/-- An annotation that looks for the action before it. -/
def IsPoint (a : ActionId) : Prop :=
  (∃ label, e.getAnnotation a = some (.potentialOP label)) ∨ e.getAnnotation a = some .opDefine ∨
    e.getAnnotation a = some .opClearDefine

def NoAction (l : List ActionId) : Prop := ∀ a ∈ l, (e.acts a).isAnnotated = true

variable {e} {d : ℕ} {l l' pre body mid rest post actions passed : List ActionId}
    {a b c op : ActionId}

theorem nesting_append (d : ℕ) (l l' : List ActionId) :
    e.nesting d (l ++ l') = (e.nesting d l).bind fun d => e.nesting d l' := by
  induction l generalizing d with
  | nil => rfl
  | cons a l ih =>
    rw [List.cons_append,nesting,nesting]
    split
    · exact ih _
    · split
      · rfl
      · exact ih _
    · exact ih _

theorem nesting_isEnd (h : e.IsEnd a) : e.nesting 0 (a :: l) = none := by
  rw [IsEnd] at h
  rw [nesting,h]
  rfl

theorem nesting_point (h : e.IsPoint a) : e.nesting d (a :: l) = e.nesting d l := by
  rw [nesting]
  rcases h with ⟨label,h⟩ | h | h <;> rw [h]

/-- What is behind the end of the call no longer counts. -/
theorem nesting_closed (hbody : e.nesting 0 body = some 0) (hend : e.IsEnd a) :
    e.nesting 0 (body ++ a :: l) = none := by
  rw [nesting_append,hbody]
  exact nesting_isEnd hend

/-- What closes an open part is its end. -/
theorem closes (hopen : e.nesting 0 l ≠ none) (h : e.nesting 0 (l ++ [a]) = none) :
    e.IsEnd a ∧ e.nesting 0 l = some 0 := by
  obtain ⟨k,hk⟩ := Option.ne_none_iff_exists'.mp hopen
  rw [nesting_append,hk] at h
  dsimp only [Option.bind_some] at h
  rw [nesting] at h
  split at h
  · simp [nesting] at h
  · rename_i ha
    split at h
    · rename_i hzero
      exact ⟨ha,hzero ▸ hk⟩
    · simp [nesting] at h
  · simp [nesting] at h

theorem nesting_prefix (h : e.nesting 0 (l ++ l') ≠ none) : e.nesting 0 l ≠ none := by
  intro hnone
  rw [nesting_append,hnone] at h
  exact h rfl

/-- One begin more than there are ends: the list has the end of the outermost call. -/
theorem exists_end (h : e.nesting (d + 1) l = some 0) :
    ∃ body a l', l = body ++ a :: l' ∧ e.IsEnd a ∧ e.nesting 0 body = some 0 ∧
      e.nesting d l' = some 0 := by
  suffices hgeneral : ∀ k l, e.nesting (k + (d + 1)) l = some 0 →
      ∃ body a l', l = body ++ a :: l' ∧ e.IsEnd a ∧ e.nesting k body = some 0 ∧
        e.nesting d l' = some 0 by
    obtain ⟨body,a,l',hl⟩ := hgeneral 0 l (by rwa [Nat.zero_add])
    exact ⟨body,a,l',hl⟩
  intro k l
  induction l generalizing k with
  | nil =>
    intro h
    simp [nesting] at h
  | cons x l ih =>
    intro h
    rw [nesting] at h
    split at h
    · rename_i hx
      rw [Nat.add_right_comm] at h
      obtain ⟨body,a,l',rfl,hend,hbody,hrest⟩ := ih (k + 1) h
      refine ⟨x :: body,a,l',rfl,hend,?_,hrest⟩
      rw [nesting,hx]
      exact hbody
    · rename_i hx
      rw [if_neg (by omega)] at h
      cases k with
      | zero => exact ⟨[],x,l,rfl,hx,rfl,by simpa using h⟩
      | succ k =>
        rw [show k + 1 + (d + 1) - 1 = k + (d + 1) by omega] at h
        obtain ⟨body,a,l',rfl,hend,hbody,hrest⟩ := ih k h
        refine ⟨x :: body,a,l',rfl,hend,?_,hrest⟩
        rw [nesting,hx]
        exact hbody
    · rename_i hbegin hendx
      obtain ⟨body,a,l',rfl,hend,hbody,hrest⟩ := ih k h
      refine ⟨x :: body,a,l',rfl,hend,?_,hrest⟩
      rw [nesting]
      split
      · rename_i hx
        exact absurd hx (hbegin _)
      · rename_i hx
        exact absurd hx hendx
      · exact hbody

theorem exists_end_of_none (h : e.nesting 0 l = none) :
    ∃ body a l', l = body ++ a :: l' ∧ e.IsEnd a ∧ e.nesting 0 body = some 0 := by
  suffices hgeneral : ∀ k l, e.nesting k l = none →
      ∃ body a l', l = body ++ a :: l' ∧ e.IsEnd a ∧ e.nesting k body = some 0 from hgeneral 0 l h
  intro k l
  induction l generalizing k with
  | nil =>
    intro h
    simp [nesting] at h
  | cons x l ih =>
    intro h
    rw [nesting] at h
    split at h
    · rename_i hx
      obtain ⟨body,a,l',rfl,hend,hbody⟩ := ih (k + 1) h
      refine ⟨x :: body,a,l',rfl,hend,?_⟩
      rw [nesting,hx]
      exact hbody
    · rename_i hx
      split at h
      · rename_i hk
        exact ⟨[],x,l,rfl,hx,by rw [hk]; rfl⟩
      · rename_i hk
        obtain ⟨body,a,l',rfl,hend,hbody⟩ := ih (k - 1) h
        refine ⟨x :: body,a,l',rfl,hend,?_⟩
        rw [nesting,hx]
        dsimp only
        rw [if_neg hk]
        exact hbody
    · rename_i hbegin hendx
      obtain ⟨body,a,l',rfl,hend,hbody⟩ := ih k h
      refine ⟨x :: body,a,l',rfl,hend,?_⟩
      rw [nesting]
      split
      · rename_i hx
        exact absurd hx (hbegin _)
      · rename_i hx
        exact absurd hx hendx
      · exact hbody

/-- A part that is still open is a part of the body. -/
theorem prefix_body (h : l ++ l' = body ++ a :: post) (hopen : e.nesting 0 l ≠ none)
    (hbody : e.nesting 0 body = some 0) (hend : e.IsEnd a) : ∃ l'', body = l ++ l'' := by
  rcases List.append_eq_append_iff.mp h with ⟨x,hx,-⟩ | ⟨x,hx,hx'⟩
  · exact ⟨x,hx⟩
  · cases x with
    | nil => exact ⟨[],by rw [hx,List.append_nil,List.append_nil]⟩
    | cons y x =>
      rw [List.cons_append,List.cons.injEq] at hx'
      obtain ⟨rfl,-⟩ := hx'
      rw [hx] at hopen
      exact absurd (nesting_closed hbody hend) hopen

/-- A call has one end. -/
theorem end_unique {body' post' : List ActionId} {a' : ActionId}
    (h : body ++ a :: post = body' ++ a' :: post') (hbody : e.nesting 0 body = some 0)
    (hbody' : e.nesting 0 body' = some 0) (hend : e.IsEnd a) (hend' : e.IsEnd a') :
    body = body' ∧ a = a' ∧ post = post' := by
  obtain ⟨x,hx⟩ := prefix_body h (by rw [hbody]; simp) hbody' hend'
  obtain ⟨y,hy⟩ := prefix_body h.symm (by rw [hbody']; simp) hbody hend
  have heq : body = body' := by
    have hlen := congrArg List.length hx
    have hlen' := congrArg List.length hy
    rw [List.length_append] at hlen hlen'
    obtain rfl : x = [] := List.length_eq_zero_iff.mp (by omega)
    rw [hx,List.append_nil]
  subst heq
  obtain ⟨rfl,rfl⟩ := List.cons.inj (List.append_cancel_left h)
  exact ⟨rfl,rfl,rfl⟩

theorem nesting_succ_of_some {k : ℕ} (h : e.nesting d l = some k) :
    e.nesting (d + 1) l = some (k + 1) := by
  induction l generalizing d with
  | nil =>
    cases h
    rfl
  | cons a l ih =>
    rw [nesting] at h ⊢
    split
    · rename_i ha
      rw [ha] at h
      exact ih h
    · rename_i ha
      rw [ha] at h
      dsimp only at h
      split at h
      · cases h
      · rename_i hd
        rw [if_neg (by omega),show d + 1 - 1 = d - 1 + 1 by omega]
        exact ih h
    · rename_i hbegin hend
      split at h
      · rename_i ha
        exact absurd ha (hbegin _)
      · rename_i ha
        exact absurd ha hend
      · exact ih h

theorem nesting_succ (h : e.nesting d l ≠ none) : e.nesting (d + 1) l ≠ none := by
  obtain ⟨k,h⟩ := Option.ne_none_iff_exists'.mp h
  rw [nesting_succ_of_some h]
  exact Option.some_ne_none _

theorem nesting_add (k : ℕ) (h : e.nesting d l ≠ none) : e.nesting (d + k) l ≠ none := by
  induction k with
  | zero => exact h
  | succ k ih => exact nesting_succ ih

theorem nesting_begin (h : e.IsBegin a) : e.nesting d (a :: l) = e.nesting (d + 1) l := by
  obtain ⟨name,h⟩ := h
  rw [nesting,h]

theorem isAnnotated_of_some {anno : SpecAnnotation} (h : e.getAnnotation a = some anno) :
    (e.acts a).isAnnotated = true := by
  unfold getAnnotation at h
  split at h
  · rename_i hif
    exact (Bool.and_eq_true_iff.mp hif).1
  · cases h

/-! ### What the loop has seen -/

variable (e)

def pendingStep (labels : List ℕ) (a : ActionId) : List ℕ :=
  match e.getAnnotation a with
  | some (.potentialOP label) => labels ++ [label]
  | some .opClear => []
  | some .opClearDefine => []
  | _ => labels

/-- The labels of the potential ordering points since they were cleared. -/
def pending (l : List ActionId) : List ℕ := l.foldl e.pendingStep []

/-- The annotation behind this part of the call has an error that is seen. -/
inductive Fails (pre mid : List ActionId) (a : ActionId) : Prop
  | point (hpoint : e.IsPoint a) (hmid : e.NoAction mid) (hpre : e.NoAction pre)
  | check (label : ℕ) (hcheck : e.getAnnotation a = some (.opCheck label))
      (hlabel : label ∉ e.pending mid)

def Faulty (pre body : List ActionId) : Prop :=
  ∃ mid a post, body = mid ++ a :: post ∧ e.Fails pre mid a

/-- An ordering point annotation has no action between the begin and itself. -/
def Missed (body : List ActionId) : Prop :=
  ∃ mid a post, body = mid ++ a :: post ∧ e.IsPoint a ∧ e.NoAction mid

/-- The operation is the action before some annotation of the call. -/
def Recent (pre : List ActionId) (b : ActionId) (mid : List ActionId) (op : ActionId) : Prop :=
  ∃ mid₁ a mid₂, mid = mid₁ ++ a :: mid₂ ∧ e.IsPoint a ∧
    e.findPrevAction (mid₁.reverse ++ b :: pre.reverse) = some op

/-- The state of the loop behind a part of the call. -/
structure Extracts (pre : List ActionId) (b : ActionId) (mid : List ActionId) (s : Extracting) :
    Prop where
  level : e.nesting 0 mid = some s.nestedLevel
  begins : s.m.begin = some b
  labels : s.popList.map (·.label) = e.pending mid
  sound : ¬e.Faulty pre mid
  operations : ∀ p ∈ s.popList, e.Recent pre b mid p.operation
  points : ∀ op ∈ s.m.orderingPoints, e.Recent pre b mid op

variable {e} {s : Extracting} {anno : SpecAnnotation}

theorem pending_append : e.pending (mid ++ [a]) = e.pendingStep (e.pending mid) a := by
  rw [pending,List.foldl_append]
  rfl

theorem Recent.append (h : e.Recent pre b mid op) : e.Recent pre b (mid ++ [a]) op := by
  obtain ⟨mid₁,c,mid₂,rfl,hc⟩ := h
  exact ⟨mid₁,c,mid₂ ++ [a],by simp,hc⟩

theorem Recent.last (ha : e.IsPoint a)
    (hop : e.findPrevAction (mid.reverse ++ b :: pre.reverse) = some op) :
    e.Recent pre b (mid ++ [a]) op :=
  ⟨mid,a,[],rfl,ha,hop⟩

theorem faulty_append (h : e.Faulty pre mid) (l : List ActionId) : e.Faulty pre (mid ++ l) := by
  obtain ⟨mid₁,a,mid₂,rfl,ha⟩ := h
  exact ⟨mid₁,a,mid₂ ++ l,by simp,ha⟩

theorem faulty_snoc (h : e.Faulty pre (mid ++ [a])) : e.Faulty pre mid ∨ e.Fails pre mid a := by
  obtain ⟨mid₁,c,mid₂,heq,hc⟩ := h
  rcases List.eq_nil_or_concat mid₂ with rfl | ⟨mid₂,x,rfl⟩
  · obtain ⟨hmid,ha⟩ := List.append_inj' heq rfl
    obtain rfl := List.singleton_inj.mp ha
    rw [hmid]
    exact Or.inr hc
  · rw [List.concat_eq_append,← List.cons_append,← List.append_assoc] at heq
    obtain ⟨rfl,-⟩ := List.append_inj' heq rfl
    exact Or.inl ⟨mid₁,c,mid₂,rfl,hc⟩

/-- The begin is an annotation, and the iterator has gone over it. -/
theorem findPrevAction_eq_none (hb : e.IsBegin b) :
    e.findPrevAction (mid.reverse ++ b :: pre.reverse) = none ↔
    e.NoAction mid ∧ e.NoAction pre := by
  obtain ⟨name,hb⟩ := hb
  have hb := isAnnotated_of_some hb
  simp only [findPrevAction,List.find?_eq_none,List.mem_append,List.mem_reverse,List.mem_cons,
    NoAction]
  constructor
  · intro h
    exact ⟨fun a ha => by simpa using h a (Or.inl ha),
      fun a ha => by simpa using h a (Or.inr (Or.inr ha))⟩
  · rintro ⟨hmid,hpre⟩ a (ha | rfl | ha)
    · simpa using hmid a ha
    · simpa using hb
    · simpa using hpre a ha

/-- The annotation has had no error and has these effects. -/
theorem Extracts.next {s' : Extracting} (h : e.Extracts pre b mid s)
    (hlevel : e.nesting s.nestedLevel [a] = some s'.nestedLevel) (hbegin : s'.m.begin = s.m.begin)
    (hlabels : s'.popList.map (·.label) = e.pendingStep (e.pending mid) a)
    (hsound : ¬e.Fails pre mid a)
    (hoperations : ∀ p ∈ s'.popList, p ∈ s.popList ∨ e.Recent pre b (mid ++ [a]) p.operation)
    (hpoints : ∀ op ∈ s'.m.orderingPoints,
      op ∈ s.m.orderingPoints ∨ e.Recent pre b (mid ++ [a]) op) :
    e.Extracts pre b (mid ++ [a]) s' where
  level := by rw [nesting_append,h.level]; exact hlevel
  begins := hbegin.trans h.begins
  labels := hlabels.trans pending_append.symm
  sound hfaulty := (faulty_snoc hfaulty).elim h.sound hsound
  operations p hp := (hoperations p hp).elim (fun hp => (h.operations p hp).append) id
  points op hop := (hpoints op hop).elim (fun hop => (h.points op hop).append) id

@[simp] theorem addOrderingPoint_popList : (s.addOrderingPoint op).popList = s.popList := by
  unfold Extracting.addOrderingPoint
  split <;> rfl

@[simp] theorem addOrderingPoint_nestedLevel :
    (s.addOrderingPoint op).nestedLevel = s.nestedLevel := by
  unfold Extracting.addOrderingPoint
  split <;> rfl

@[simp] theorem addOrderingPoint_begin : (s.addOrderingPoint op).m.begin = s.m.begin := by
  unfold Extracting.addOrderingPoint
  split <;> rfl

theorem mem_addOrderingPoint {op' : ActionId} :
    op' ∈ (s.addOrderingPoint op).m.orderingPoints ↔ op' ∈ s.m.orderingPoints ∨ op' = op := by
  unfold Extracting.addOrderingPoint
  split
  · rename_i hop
    exact ⟨Or.inl,fun h => h.elim id fun h => h ▸ hop⟩
  · exact List.mem_append.trans (or_congr_right List.mem_singleton)

theorem not_fails_of_action (hb : e.IsBegin b)
    (hop : e.findPrevAction (mid.reverse ++ b :: pre.reverse) = some op)
    (hcheck : ∀ label, e.getAnnotation a ≠ some (.opCheck label)) : ¬e.Fails pre mid a := by
  rintro (⟨-,hmid,hpre⟩ | ⟨label,ha,-⟩)
  · rw [(findPrevAction_eq_none hb).mpr ⟨hmid,hpre⟩] at hop
    cases hop
  · exact hcheck label ha

theorem not_fails_of_other (hpoint : ¬e.IsPoint a)
    (hcheck : ∀ label, e.getAnnotation a ≠ some (.opCheck label)) : ¬e.Fails pre mid a := by
  rintro (⟨ha,-,-⟩ | ⟨label,ha,-⟩)
  · exact hpoint ha
  · exact hcheck label ha

/-- An annotation goes on, ends the call, or has one of the errors that are seen. -/
theorem Extracts.turn (h : e.Extracts pre b mid s) (hb : e.IsBegin b)
    (ha : e.getAnnotation a = some anno) (hinit : anno ≠ .init) :
    (∃ s', e.extractTurn (mid.reverse ++ b :: pre.reverse) s anno = .ok (.go s') ∧
      e.Extracts pre b (mid ++ [a]) s') ∨
    (e.extractTurn (mid.reverse ++ b :: pre.reverse) s anno = .ok .complete ∧
      e.IsEnd a ∧ s.nestedLevel = 0) ∨
    (e.extractTurn (mid.reverse ++ b :: pre.reverse) s anno = .ok .broken ∧ e.Fails pre mid a) := by
  cases anno with
  | init => exact absurd rfl hinit
  | potentialOP label =>
    have hpoint : e.IsPoint a := Or.inl ⟨label,ha⟩
    cases hop : e.findPrevAction (mid.reverse ++ b :: pre.reverse) with
    | none =>
      obtain ⟨hmid,hpre⟩ := (findPrevAction_eq_none hb).mp hop
      exact Or.inr (Or.inr ⟨by rw [extractTurn,hop],.point hpoint hmid hpre⟩)
    | some op =>
      refine Or.inl ⟨{ s with popList := s.popList ++ [⟨op,label⟩] },by rw [extractTurn,hop],
        h.next ?_ rfl ?_ ?_ ?_ fun op hop => Or.inl hop⟩
      · simp [nesting,ha]
      · simp [pendingStep,ha,h.labels]
      · exact not_fails_of_action hb hop fun label hcheck => by simp [ha] at hcheck
      · intro p hp
        rcases List.mem_append.mp hp with hp | hp
        · exact Or.inl hp
        · rw [List.mem_singleton.mp hp]
          exact Or.inr (.last hpoint hop)
  | opDefine =>
    have hpoint : e.IsPoint a := Or.inr (Or.inl ha)
    cases hop : e.findPrevAction (mid.reverse ++ b :: pre.reverse) with
    | none =>
      obtain ⟨hmid,hpre⟩ := (findPrevAction_eq_none hb).mp hop
      exact Or.inr (Or.inr ⟨by rw [extractTurn,hop],.point hpoint hmid hpre⟩)
    | some op =>
      refine Or.inl ⟨_,by rw [extractTurn,hop],
        h.next ?_ addOrderingPoint_begin ?_ ?_ ?_ fun op' hop' => ?_⟩
      · simp [nesting,ha]
      · simp [pendingStep,ha,h.labels]
      · exact not_fails_of_action hb hop fun label hcheck => by simp [ha] at hcheck
      · exact fun p hp => Or.inl (by rwa [addOrderingPoint_popList] at hp)
      · rcases mem_addOrderingPoint.mp hop' with hop' | rfl
        · exact Or.inl hop'
        · exact Or.inr (.last hpoint hop)
  | opCheck label =>
    cases hfind : s.popList.reverse.find? fun potentialOP => potentialOP.label == label with
    | none =>
      refine Or.inr (Or.inr ⟨by rw [extractTurn,hfind],.check label ha fun hlabel => ?_⟩)
      rw [← h.labels,List.mem_map] at hlabel
      obtain ⟨p,hp,rfl⟩ := hlabel
      simpa using List.find?_eq_none.mp hfind p (List.mem_reverse.mpr hp)
    | some p =>
      have hp : p ∈ s.popList := List.mem_reverse.mp (List.mem_of_find?_eq_some hfind)
      have hlabel : p.label = label := by simpa using List.find?_some hfind
      refine Or.inl ⟨_,by rw [extractTurn,hfind],
        h.next ?_ addOrderingPoint_begin ?_ ?_ ?_ fun op hop => ?_⟩
      · simp [nesting,ha]
      · simp [pendingStep,ha,h.labels]
      · rintro (hpoint | ⟨label',hcheck,hnot⟩)
        · simp [IsPoint,ha] at hpoint
        · obtain rfl : label = label' := by simpa [ha] using hcheck
          rw [← h.labels,← hlabel] at hnot
          exact hnot (List.mem_map_of_mem hp)
      · exact fun p hp => Or.inl (by rwa [addOrderingPoint_popList] at hp)
      · rcases mem_addOrderingPoint.mp hop with hop | rfl
        · exact Or.inl hop
        · exact Or.inr (h.operations p hp).append
  | opClear =>
    refine Or.inl ⟨_,rfl,h.next ?_ rfl ?_ ?_ ?_ ?_⟩
    · simp [nesting,ha,Extracting.clear]
    · simp [pendingStep,ha,Extracting.clear]
    · exact not_fails_of_other (by simp [IsPoint,ha]) fun label hcheck => by simp [ha] at hcheck
    · exact fun p hp => nomatch hp
    · exact fun op hop => nomatch hop
  | opClearDefine =>
    have hpoint : e.IsPoint a := Or.inr (Or.inr ha)
    cases hop : e.findPrevAction (mid.reverse ++ b :: pre.reverse) with
    | none =>
      obtain ⟨hmid,hpre⟩ := (findPrevAction_eq_none hb).mp hop
      exact Or.inr (Or.inr ⟨by rw [extractTurn,hop],.point hpoint hmid hpre⟩)
    | some op =>
      refine Or.inl ⟨s.clear.addOrderingPoint op,by rw [extractTurn,hop],
        h.next ?_ addOrderingPoint_begin ?_ ?_ ?_ fun op' hop' => ?_⟩
      · simp [nesting,ha,Extracting.clear]
      · simp [pendingStep,ha,Extracting.clear]
      · exact not_fails_of_action hb hop fun label hcheck => by simp [ha] at hcheck
      · intro p hp
        rw [addOrderingPoint_popList] at hp
        nomatch hp
      · rcases mem_addOrderingPoint.mp hop' with hop' | rfl
        · nomatch hop'
        · exact Or.inr (.last hpoint hop)
  | interfaceBegin name =>
    refine Or.inl ⟨_,rfl,h.next ?_ rfl ?_ ?_ (fun p hp => Or.inl hp) fun op hop => Or.inl hop⟩
    · simp [nesting,ha]
    · simp [pendingStep,ha,h.labels]
    · exact not_fails_of_other (by simp [IsPoint,ha]) fun label hcheck => by simp [ha] at hcheck
  | interfaceEnd =>
    by_cases hlevel : s.nestedLevel = 0
    · exact Or.inr (Or.inl ⟨by rw [extractTurn,if_pos hlevel],ha,hlevel⟩)
    · refine Or.inl ⟨{ s with nestedLevel := s.nestedLevel - 1 },by rw [extractTurn,if_neg hlevel],
        h.next ?_ rfl ?_ ?_ (fun p hp => Or.inl hp) fun op hop => Or.inl hop⟩
      · simp [nesting,ha,hlevel]
      · simp [pendingStep,ha,h.labels]
      · exact not_fails_of_other (by simp [IsPoint,ha]) fun label hcheck => by simp [ha] at hcheck

theorem Fails.nesting (h : e.Fails pre mid a) : e.nesting d (a :: l) = e.nesting d l := by
  rcases h with ⟨h,-,-⟩ | ⟨label,h,-⟩
  · exact nesting_point h
  · rw [AnnotatedActions.nesting,h]

/-- How the extraction of the call that begins at `b` ends. -/
inductive Outcome (e : AnnotatedActions) (pre : List ActionId) (b : ActionId) (l : List ActionId) :
    Option (MethodCall × List ActionId × List ActionId) → Prop
  | broken {body post : List ActionId} (hl : l = body ++ post) (hopen : e.nesting 0 body ≠ none)
      (hfaulty : e.Faulty pre body) : Outcome e pre b l none
  | matched {body post : List ActionId} {c : ActionId} {s : Extracting} (hl : l = body ++ c :: post)
      (hend : e.IsEnd c) (hbody : e.nesting 0 body = some 0)
      (h : e.Extracts pre b body s) :
      Outcome e pre b l (some (s.m,(pre ++ b :: (body ++ [c])).reverse,post))
  | truncated {s : Extracting} (h : e.Extracts pre b l s) :
      Outcome e pre b l (some (s.m,(pre ++ b :: l).reverse,[]))

/-- No initialization annotation inside an interface call. -/
def InitOutside (e : AnnotatedActions) (actions : List ActionId) : Prop :=
  ∀ pre b mid a post, actions = pre ++ b :: (mid ++ a :: post) → e.IsBegin b →
    e.nesting 0 mid ≠ none → e.getAnnotation a ≠ some .init

theorem extractLoop_outcome (h : e.Extracts pre b mid s) (hb : e.IsBegin b)
    (hinit : e.InitOutside (pre ++ b :: (mid ++ rest))) :
    ∃ r, e.extractLoop (mid.reverse ++ b :: pre.reverse) rest s = .ok r ∧
      Outcome e pre b (mid ++ rest) r := by
  induction rest generalizing mid s with
  | nil =>
    refine ⟨_,rfl,?_⟩
    have hpassed : mid.reverse ++ b :: pre.reverse = (pre ++ b :: (mid ++ [])).reverse := by simp
    rw [hpassed]
    exact .truncated (by rwa [List.append_nil])
  | cons a rest ih =>
    have hpassed : a :: (mid.reverse ++ b :: pre.reverse) =
        (mid ++ [a]).reverse ++ b :: pre.reverse := by simp
    have hlist : mid ++ a :: rest = mid ++ [a] ++ rest := by simp
    rw [extractLoop]
    cases ha : e.getAnnotation a with
    | none =>
      dsimp only
      rw [hpassed,hlist]
      refine ih (h.next ?_ rfl ?_ ?_ (fun p hp => Or.inl hp) fun op hop => Or.inl hop)
        (by rwa [← hlist])
      · simp [nesting,ha]
      · simp [pendingStep,ha,h.labels]
      · exact not_fails_of_other (by simp [IsPoint,ha]) fun label hcheck => by simp [ha] at hcheck
    | some anno =>
      have hopen : e.nesting 0 mid ≠ none := by
        rw [h.level]
        simp
      have hne : anno ≠ .init := by
        rintro rfl
        exact hinit pre b mid a rest rfl hb hopen ha
      dsimp only
      rcases h.turn hb ha hne with ⟨s',hturn,hs'⟩ | ⟨hturn,hend,hlevel⟩ | ⟨hturn,hfails⟩
      · obtain ⟨r,hr,hout⟩ := ih hs' (by rwa [← hlist])
        refine ⟨r,?_,by rwa [hlist]⟩
        rw [hturn,← hr,hpassed]
        rfl
      · refine ⟨_,by rw [hturn]; rfl,?_⟩
        rw [hpassed]
        have hrev : (mid ++ [a]).reverse ++ b :: pre.reverse =
            (pre ++ b :: (mid ++ [a])).reverse := by simp
        rw [hrev]
        exact .matched rfl hend (by rw [h.level,hlevel]) h
      · refine ⟨none,by rw [hturn]; rfl,?_⟩
        refine .broken hlist ?_ ⟨mid,a,[],rfl,hfails⟩
        rw [nesting_append,h.level]
        exact fun hnone => absurd (hfails.nesting.symm.trans hnone) (by simp [nesting])

theorem Extracts.start {name : ℕ} :
    e.Extracts pre b [] { m := { name := .interface name,begin := some b } } where
  level := rfl
  begins := rfl
  labels := rfl
  sound := by
    rintro ⟨mid,a,post,heq,-⟩
    cases mid <;> cases heq
  operations p hp := nomatch hp
  points op hop := nomatch hop

theorem extractMethod_outcome (name : ℕ) (hb : e.IsBegin b)
    (hinit : e.InitOutside (pre ++ b :: rest)) :
    ∃ r, e.extractMethod pre.reverse b name rest = .ok r ∧ Outcome e pre b rest r :=
  extractLoop_outcome .start hb hinit

/-- The extraction of a call without an error goes to its end. -/
theorem Outcome.matches_of {r : Option (MethodCall × List ActionId × List ActionId)}
    (h : Outcome e pre b (body ++ c :: post) r) (hbody : e.nesting 0 body = some 0)
    (hend : e.IsEnd c) (hsound : ¬e.Faulty pre body) :
    ∃ m, r = some (m,(pre ++ b :: (body ++ [c])).reverse,post) := by
  cases h with
  | broken hl hopen hfaulty =>
    obtain ⟨x,rfl⟩ := prefix_body hl.symm hopen hbody hend
    exact absurd (faulty_append hfaulty x) hsound
  | matched hl hend' hbody' hs =>
    obtain ⟨rfl,rfl,rfl⟩ := end_unique hl hbody hbody' hend hend'
    exact ⟨_,rfl⟩
  | truncated hs =>
    have hlevel := hs.level
    rw [nesting_closed hbody hend] at hlevel
    cases hlevel

/-- A node has no error in an open part of its call. -/
theorem Outcome.sound {m : MethodCall} {passed' rest' : List ActionId}
    (h : Outcome e pre b (mid ++ l) (some (m,passed',rest'))) (hopen : e.nesting 0 mid ≠ none) :
    ¬e.Faulty pre mid := by
  intro hfaulty
  cases h with
  | matched hl hend hbody hs =>
    obtain ⟨x,rfl⟩ := prefix_body hl hopen hbody hend
    exact hs.sound (faulty_append hfaulty x)
  | truncated hs => exact hs.sound (faulty_append hfaulty l)

/-! ### The scan over a thread -/

/-- The places of the list that the scan gets to outside of a call. -/
inductive Reached (e : AnnotatedActions) (actions : List ActionId) :
    List ActionId → List ActionId → Prop
  | start : Reached e actions [] actions
  | skip {pre : List ActionId} {a : ActionId} {rest : List ActionId}
      (h : Reached e actions pre (a :: rest))
      (ha : e.getAnnotation a = none ∨ e.getAnnotation a = some .init) :
      Reached e actions (pre ++ [a]) rest
  | call {pre : List ActionId} {b : ActionId} {body : List ActionId} {c : ActionId}
      {post : List ActionId} (h : Reached e actions pre (b :: (body ++ c :: post)))
      (hb : e.IsBegin b) (hbody : e.nesting 0 body = some 0) (hend : e.IsEnd c)
      (hsound : ¬e.Faulty pre body) : Reached e actions (pre ++ b :: (body ++ [c])) post

theorem Reached.eq (h : Reached e actions pre rest) : actions = pre ++ rest := by
  induction h with
  | start => rfl
  | skip _ _ ih => simpa using ih
  | call _ _ _ _ _ ih => simpa using ih

theorem Reached.nesting (h : Reached e actions pre rest) : e.nesting 0 pre = some 0 := by
  induction h with
  | start => rfl
  | skip _ ha ih =>
    rw [nesting_append,ih]
    rcases ha with ha | ha <;> simp [AnnotatedActions.nesting,ha]
  | call _ hb hbody hend _ ih =>
    rw [nesting_append,ih]
    dsimp only [Option.bind_some]
    rw [nesting_begin hb,nesting_append,nesting_succ_of_some hbody]
    dsimp only [Option.bind_some]
    rw [AnnotatedActions.nesting,show e.getAnnotation _ = some .interfaceEnd from hend]
    rfl

/-- The node of a call that the scan has got to. -/
def Kept (e : AnnotatedActions) (actions : List ActionId) (m : MethodCall) : Prop :=
  ∃ pre b rest passed rest', Reached e actions pre (b :: rest) ∧ e.IsBegin b ∧
    Outcome e pre b rest (some (m,passed,rest'))

variable {fuel : ℕ} {g g' : Nodes}

theorem buildNodesLoop_skip (ha : e.getAnnotation a = none ∨ e.getAnnotation a = some .init) :
    e.buildNodesLoop (fuel + 1) passed (a :: rest) g =
      e.buildNodesLoop fuel (a :: passed) rest g := by
  rw [buildNodesLoop]
  rcases ha with ha | ha <;> rw [ha]

theorem buildNodesLoop_none {name : ℕ} (hb : e.getAnnotation b = some (.interfaceBegin name))
    (hm : e.extractMethod passed b name rest = .ok none) :
    e.buildNodesLoop (fuel + 1) passed (b :: rest) g = .ok { g with broken := true } := by
  rw [buildNodesLoop,hb]
  dsimp only
  rw [hm]
  rfl

theorem buildNodesLoop_some {name : ℕ} {m : MethodCall} {passed' rest' : List ActionId}
    (hb : e.getAnnotation b = some (.interfaceBegin name))
    (hm : e.extractMethod passed b name rest = .ok (some (m,passed',rest'))) :
    e.buildNodesLoop (fuel + 1) passed (b :: rest) g = e.buildNodesLoop fuel passed' rest' {
      g with
      methodList := g.methodList ++ [m]
      noOrderingPoint := g.noOrderingPoint || m.orderingPoints.isEmpty } := by
  rw [buildNodesLoop,hb]
  dsimp only
  rw [hm]
  rfl

/-- Neither an initialization nor the begin of a call. -/
theorem buildNodesLoop_other (ha : e.getAnnotation a = some anno) (hinit : anno ≠ .init)
    (hbegin : ∀ name, anno ≠ .interfaceBegin name) :
    e.buildNodesLoop (fuel + 1) passed (a :: rest) g = .ok { g with broken := true } := by
  rw [buildNodesLoop,ha]
  cases anno with
  | init => exact absurd rfl hinit
  | interfaceBegin name => exact absurd rfl (hbegin name)
  | _ => rfl

/-- One turn of the scan. -/
theorem Reached.step (hinit : e.InitOutside actions) (h : Reached e actions pre (a :: rest))
    (g : Nodes) (fuel : ℕ) :
    (Reached e actions (pre ++ [a]) rest ∧ ¬e.IsBegin a ∧
      e.buildNodesLoop (fuel + 1) pre.reverse (a :: rest) g =
        e.buildNodesLoop fuel (pre ++ [a]).reverse rest g) ∨
    (e.buildNodesLoop (fuel + 1) pre.reverse (a :: rest) g = .ok { g with broken := true } ∧
      (e.IsBegin a → Outcome e pre a rest none)) ∨
    (e.IsBegin a ∧ ∃ m passed' rest', Outcome e pre a rest (some (m,passed',rest')) ∧
      e.buildNodesLoop (fuel + 1) pre.reverse (a :: rest) g = e.buildNodesLoop fuel passed' rest' {
        g with
        methodList := g.methodList ++ [m]
        noOrderingPoint := g.noOrderingPoint || m.orderingPoints.isEmpty }) := by
  by_cases hskip : e.getAnnotation a = none ∨ e.getAnnotation a = some .init
  · refine Or.inl ⟨h.skip hskip,?_,?_⟩
    · rintro ⟨name,ha⟩
      rcases hskip with hskip | hskip <;> simp [ha] at hskip
    · rw [buildNodesLoop_skip hskip,List.reverse_append]
      rfl
  · obtain ⟨hnone,hinit'⟩ := not_or.mp hskip
    obtain ⟨anno,ha⟩ := Option.ne_none_iff_exists'.mp hnone
    by_cases hbegin : e.IsBegin a
    · obtain ⟨name,hname⟩ := hbegin
      rw [h.eq] at hinit
      obtain ⟨r,hr,hout⟩ := extractMethod_outcome name ⟨name,hname⟩ hinit
      cases r with
      | none => exact Or.inr (Or.inl ⟨buildNodesLoop_none hname hr,fun _ => hout⟩)
      | some r =>
        obtain ⟨m,passed',rest'⟩ := r
        exact Or.inr (Or.inr ⟨⟨name,hname⟩,m,passed',rest',hout,buildNodesLoop_some hname hr⟩)
    · refine Or.inr (Or.inl ⟨buildNodesLoop_other ha ?_ ?_,fun h => absurd h hbegin⟩)
      · rintro rfl
        exact hinit' ha
      · rintro name rfl
        exact hbegin ⟨name,ha⟩

/-- Behind the node of a call the scan is at the end, or goes on. -/
theorem Reached.behind {m : MethodCall} {passed' rest' : List ActionId}
    (h : Reached e actions pre (b :: rest)) (hb : e.IsBegin b)
    (hout : Outcome e pre b rest (some (m,passed',rest'))) :
    rest'.length ≤ rest.length ∧
      (rest' = [] ∨ ∃ pre', passed' = pre'.reverse ∧ Reached e actions pre' rest') := by
  cases hout with
  | matched hl hend hbody hs =>
    subst hl
    exact ⟨by simp; omega,Or.inr ⟨_,rfl,h.call hb hbody hend hs.sound⟩⟩
  | truncated hs => exact ⟨Nat.zero_le _,Or.inl rfl⟩

theorem buildNodesLoop_nil : e.buildNodesLoop fuel passed [] g = .ok g := by
  cases fuel <;> rfl

/-- The scan from here ends, keeps what it has and adds nodes of calls. -/
theorem Reached.scan (hinit : e.InitOutside actions) (h : Reached e actions pre rest)
    (hfuel : rest.length ≤ fuel) (g : Nodes) :
    ∃ g', e.buildNodesLoop fuel pre.reverse rest g = .ok g' ∧
      (∀ m ∈ g.methodList, m ∈ g'.methodList) ∧
      ∀ m ∈ g'.methodList, m ∈ g.methodList ∨ e.Kept actions m := by
  induction fuel generalizing pre rest g with
  | zero =>
    obtain rfl := List.length_eq_zero_iff.mp (Nat.le_zero.mp hfuel)
    exact ⟨g,rfl,fun m hm => hm,fun m hm => Or.inl hm⟩
  | succ fuel ih =>
    cases rest with
    | nil => exact ⟨g,rfl,fun m hm => hm,fun m hm => Or.inl hm⟩
    | cons a rest =>
      have hrest : rest.length ≤ fuel := by simpa using hfuel
      rcases h.step hinit g fuel with ⟨hnext,-,hstep⟩ | ⟨hstep,-⟩ | ⟨hb,m,passed',rest',hout,hstep⟩
      · rw [hstep]
        exact ih hnext hrest g
      · exact ⟨_,hstep,fun m hm => hm,fun m hm => Or.inl hm⟩
      · have hm : e.Kept actions m := ⟨pre,a,rest,passed',rest',h,hb,hout⟩
        rw [hstep]
        obtain ⟨hlen,rfl | ⟨pre',rfl,hnext⟩⟩ := h.behind hb hout
        · refine ⟨_,buildNodesLoop_nil,fun x hx => List.mem_append_left _ hx,fun x hx => ?_⟩
          rcases List.mem_append.mp hx with hx | hx
          · exact Or.inl hx
          · exact Or.inr (List.mem_singleton.mp hx ▸ hm)
        · obtain ⟨g',hg',hkeep,hadd⟩ := ih hnext (hlen.trans hrest) {
            g with
            methodList := g.methodList ++ [m]
            noOrderingPoint := g.noOrderingPoint || m.orderingPoints.isEmpty }
          refine ⟨g',hg',fun x hx => hkeep x (List.mem_append_left _ hx),fun x hx => ?_⟩
          rcases hadd x hx with hx | hx
          · rcases List.mem_append.mp hx with hx | hx
            · exact Or.inl hx
            · exact Or.inr (List.mem_singleton.mp hx ▸ hm)
          · exact Or.inr hx

/-- The run is the run from any place that the scan gets to. -/
theorem Reached.run (hinit : e.InitOutside actions) (h : Reached e actions pre rest) :
    ∃ fuel g, rest.length ≤ fuel ∧
      e.buildNodesFromThread actions = e.buildNodesLoop fuel pre.reverse rest g := by
  induction h with
  | start => exact ⟨actions.length,{},Nat.le_refl _,rfl⟩
  | @skip pre a rest h ha ih =>
    obtain ⟨fuel,g,hfuel,hrun⟩ := ih
    cases fuel with
    | zero => simp at hfuel
    | succ fuel =>
      refine ⟨fuel,g,by simpa using hfuel,?_⟩
      rw [hrun,buildNodesLoop_skip ha,List.reverse_append]
      rfl
  | @call pre b body c post h hb hbody hend hsound ih =>
    obtain ⟨fuel,g,hfuel,hrun⟩ := ih
    cases fuel with
    | zero => simp at hfuel
    | succ fuel =>
      have hlen : post.length ≤ fuel := by
        simp only [List.length_cons,List.length_append] at hfuel
        omega
      rcases h.step hinit g fuel with ⟨-,hnot,-⟩ | ⟨-,hnone⟩ | ⟨-,m,passed',rest',hout,hstep⟩
      · exact absurd hb hnot
      · obtain ⟨m,hm⟩ := (hnone hb).matches_of hbody hend hsound
        cases hm
      · obtain ⟨m',hm⟩ := hout.matches_of hbody hend hsound
        cases hm
        exact ⟨fuel,_,hlen,hrun.trans hstep⟩

/-- What the run makes of a call that the scan gets to. -/
theorem Reached.outcome (hinit : e.InitOutside actions) (h : Reached e actions pre (b :: rest))
    (hb : e.IsBegin b) (hg : e.buildNodesFromThread actions = .ok g) :
    (Outcome e pre b rest none ∧ g.broken = true) ∨
      ∃ m ∈ g.methodList, ∃ passed' rest', Outcome e pre b rest (some (m,passed',rest')) := by
  obtain ⟨fuel,g₀,hfuel,hrun⟩ := h.run hinit
  rw [hg] at hrun
  cases fuel with
  | zero => simp at hfuel
  | succ fuel =>
    rcases h.step hinit g₀ fuel with ⟨-,hnot,-⟩ | ⟨hstep,hnone⟩ | ⟨-,m,passed',rest',hout,hstep⟩
    · exact absurd hb hnot
    · rw [hstep] at hrun
      cases hrun
      exact Or.inl ⟨hnone hb,rfl⟩
    · rw [hstep] at hrun
      obtain ⟨hlen,rfl | ⟨pre',rfl,hnext⟩⟩ := h.behind hb hout
      · rw [buildNodesLoop_nil] at hrun
        cases hrun
        exact Or.inr ⟨m,List.mem_append_right _ (List.mem_singleton_self m),_,_,hout⟩
      · obtain ⟨g',hg',hkeep,-⟩ := hnext.scan hinit (hlen.trans (by simpa using hfuel)) {
          g₀ with
          methodList := g₀.methodList ++ [m]
          noOrderingPoint := g₀.noOrderingPoint || m.orderingPoints.isEmpty }
        rw [hg'] at hrun
        cases hrun
        exact Or.inr ⟨m,hkeep m (List.mem_append_right _ (List.mem_singleton_self m)),_,_,hout⟩

/-- An annotation at the top level that is no begin of a call. -/
theorem Reached.other (hinit : e.InitOutside actions) (h : Reached e actions pre (a :: rest))
    (hg : e.buildNodesFromThread actions = .ok g) (hbroken : g.broken = false)
    (hbegin : ¬e.IsBegin a) : Reached e actions (pre ++ [a]) rest := by
  obtain ⟨fuel,g₀,hfuel,hrun⟩ := h.run hinit
  rw [hg] at hrun
  cases fuel with
  | zero => simp at hfuel
  | succ fuel =>
    rcases h.step hinit g₀ fuel with ⟨hnext,-,-⟩ | ⟨hstep,-⟩ | ⟨hb,-⟩
    · exact hnext
    · rw [hstep] at hrun
      cases hrun
      cases hbroken
    · exact absurd hb hbegin

/-- The scan gets to the begin of a call, or has it inside of another call. -/
theorem position (hinit : e.InitOutside actions) (hg : e.buildNodesFromThread actions = .ok g)
    (hbroken : g.broken = false) (pre rest : List ActionId) (h : actions = pre ++ rest) :
    Reached e actions pre rest ∨ ∃ pre₀ b mid, pre = pre₀ ++ b :: mid ∧
      Reached e actions pre₀ (b :: (mid ++ rest)) ∧ e.IsBegin b ∧ e.nesting 0 mid ≠ none := by
  induction pre using List.reverseRecOn generalizing rest with
  | nil =>
    obtain rfl : actions = rest := h
    exact Or.inl .start
  | append_singleton pre a ih =>
    rcases ih (a :: rest) (by simpa using h) with hreach | ⟨pre₀,b,mid,rfl,hreach,hb,hopen⟩
    · by_cases hbegin : e.IsBegin a
      · exact Or.inr ⟨pre,a,[],rfl,hreach,hbegin,by simp [nesting]⟩
      · exact Or.inl (hreach.other hinit hg hbroken hbegin)
    · by_cases hnext : e.nesting 0 (mid ++ [a]) = none
      · obtain ⟨hend,hmid⟩ := closes hopen hnext
        have hsound : ¬e.Faulty pre₀ mid := by
          rcases hreach.outcome hinit hb hg with ⟨-,hbroken'⟩ | ⟨m,-,_,_,hout⟩
          · rw [hbroken] at hbroken'
            cases hbroken'
          · exact hout.sound hopen
        refine Or.inl ?_
        have hcall := hreach.call hb hmid hend hsound
        rwa [← List.cons_append,← List.append_assoc] at hcall
      · refine Or.inr ⟨pre₀,b,mid ++ [a],by simp,by simpa using hreach,hb,hnext⟩

/-! ### The extent of the method calls -/

variable (e)

def OrderingPoint (a : ActionId) : Prop :=
  e.IsPoint a ∨ ∃ label, e.getAnnotation a = some (.opCheck label)

structure Extent (actions : List ActionId) (g : Nodes) : Prop where
  stored : ∀ m ∈ g.methodList, ∃ pre b mid c post, actions = pre ++ b :: (mid ++ c :: post) ∧
    m.begin = some b ∧ e.IsBegin b ∧ e.nesting 0 mid = some 0 ∧ e.IsEnd c ∧
    ∀ op ∈ m.orderingPoints, op ∈ mid ∧ (e.acts op).isAnnotated = false
  unmatched : ∀ pre b rest, actions = pre ++ b :: rest → e.IsBegin b → e.nesting 0 rest ≠ none →
    g.broken = true ∧ ∀ m ∈ g.methodList, m.begin ≠ some b
  missed : ∀ pre b mid a post, actions = pre ++ b :: (mid ++ a :: post) → e.nesting 0 pre = some 0 →
    e.IsBegin b → e.nesting 0 mid ≠ none → e.OrderingPoint a → e.NoAction mid →
    g.broken = true ∧ ∀ m ∈ g.methodList, m.begin ≠ some b

/-- A call that the scan gets to has its end and an action before its ordering point annotations,
unless it has an error that the scan does see. -/
structure Apparent (actions : List ActionId) : Prop where
  truncated : ∀ pre b rest, Reached e actions pre (b :: rest) → e.IsBegin b →
    e.nesting 0 rest ≠ none → e.Faulty pre rest
  missed : ∀ pre b body c post, Reached e actions pre (b :: (body ++ c :: post)) → e.IsBegin b →
    e.nesting 0 body = some 0 → e.IsEnd c → e.Missed body → e.Faulty pre body

variable {e} {m : MethodCall}

theorem Outcome.begins {passed' rest' : List ActionId}
    (h : Outcome e pre b l (some (m,passed',rest'))) : m.begin = some b := by
  cases h with
  | matched _ _ _ hs => exact hs.begins
  | truncated hs => exact hs.begins

theorem mem_pending {label : ℕ} (h : label ∈ e.pending mid) :
    ∃ mid₁ a mid₂, mid = mid₁ ++ a :: mid₂ ∧ e.getAnnotation a = some (.potentialOP label) := by
  induction mid using List.reverseRecOn with
  | nil => nomatch h
  | append_singleton mid a ih =>
    have hold : label ∈ e.pending mid → ∃ mid₁ a' mid₂, mid ++ [a] = mid₁ ++ a' :: mid₂ ∧
        e.getAnnotation a' = some (.potentialOP label) := by
      intro hmid
      obtain ⟨mid₁,a',mid₂,rfl,ha'⟩ := ih hmid
      exact ⟨mid₁,a',mid₂ ++ [a],by simp,ha'⟩
    rw [pending_append,pendingStep] at h
    split at h
    · rename_i label' ha
      rcases List.mem_append.mp h with h | h
      · exact hold h
      · rw [← List.mem_singleton.mp h] at ha
        exact ⟨mid,a,[],rfl,ha⟩
    · nomatch h
    · nomatch h
    · exact hold h

/-- Between the begin and the annotation, where an action is there. -/
theorem Recent.mem (h : e.Recent pre b mid op) (hmissed : ¬e.Missed mid) :
    op ∈ mid ∧ (e.acts op).isAnnotated = false := by
  obtain ⟨mid₁,a,mid₂,rfl,ha,hop⟩ := h
  have hnot : (e.acts op).isAnnotated = false := by simpa using List.find?_some hop
  have hsome : mid₁.reverse.find? (fun act => !(e.acts act).isAnnotated) ≠ none := by
    intro hnone
    refine hmissed ⟨mid₁,a,mid₂,rfl,ha,fun x hx => ?_⟩
    simpa using List.find?_eq_none.mp hnone x (List.mem_reverse.mpr hx)
  rw [findPrevAction,List.find?_append] at hop
  obtain ⟨x,hx⟩ := Option.ne_none_iff_exists'.mp hsome
  rw [hx] at hop
  cases hop
  exact ⟨List.mem_append_left _ (List.mem_reverse.mp (List.mem_of_find?_eq_some hx)),hnot⟩

/-- An ordering point annotation behind no action, or an error that is seen. -/
theorem OrderingPoint.cases (h : e.OrderingPoint a) (hmid : e.NoAction mid) :
    e.Missed (mid ++ [a]) ∨ e.Fails pre mid a := by
  rcases h with h | ⟨label,h⟩
  · exact Or.inl ⟨mid,a,[],rfl,h,hmid⟩
  · by_cases hlabel : label ∈ e.pending mid
    · obtain ⟨mid₁,p,mid₂,rfl,hp⟩ := mem_pending hlabel
      exact Or.inl ⟨mid₁,p,mid₂ ++ [a],by simp,Or.inl ⟨label,hp⟩,
        fun x hx => hmid x (List.mem_append_left _ hx)⟩
    · exact Or.inr (.check label h hlabel)

theorem OrderingPoint.nesting (h : e.OrderingPoint a) : e.nesting d (a :: l) = e.nesting d l := by
  rcases h with h | ⟨label,h⟩
  · exact nesting_point h
  · rw [AnnotatedActions.nesting,h]

theorem missed_append (h : e.Missed mid) (l : List ActionId) : e.Missed (mid ++ l) := by
  obtain ⟨mid₁,a,mid₂,rfl,ha⟩ := h
  exact ⟨mid₁,a,mid₂ ++ l,by simp,ha⟩

/-- An error in an open part of a call is seen. -/
theorem Reached.broken_of_faulty (hinit : e.InitOutside actions)
    (h : Reached e actions pre (b :: (mid ++ l))) (hb : e.IsBegin b)
    (hg : e.buildNodesFromThread actions = .ok g) (hopen : e.nesting 0 mid ≠ none)
    (hfaulty : e.Faulty pre mid) : g.broken = true := by
  rcases h.outcome hinit hb hg with ⟨-,hbroken⟩ | ⟨m,-,_,_,hout⟩
  · exact hbroken
  · exact absurd hfaulty (hout.sound hopen)

/-- The place of an action. -/
theorem split_unique {pre' rest' : List ActionId} (hnodup : actions.Nodup)
    (h : actions = pre ++ b :: rest) (h' : actions = pre' ++ b :: rest') :
    pre = pre' ∧ rest = rest' := by
  subst h
  obtain ⟨hpre,hrest⟩ : b ∉ pre ∧ b ∉ rest := by
    have hmid := List.nodup_middle.mp hnodup
    simpa using (List.nodup_cons.mp hmid).1
  obtain ⟨rfl,-,rfl⟩ := (List.append_cons_inj_of_notMem hpre hrest).mp h'
  exact ⟨rfl,rfl⟩

theorem Apparent.truncated_of_open (h : e.Apparent actions) (hinit : e.InitOutside actions)
    (hg : e.buildNodesFromThread actions = .ok g) (heq : actions = pre ++ b :: rest)
    (hb : e.IsBegin b) (hopen : e.nesting 0 rest ≠ none) : g.broken = true := by
  by_contra hbroken
  rw [Bool.not_eq_true] at hbroken
  rcases position hinit hg hbroken pre (b :: rest) heq with hreach |
    ⟨pre₀,b₀,mid,rfl,hreach,hb₀,hmid⟩
  · have hfaulty := h.truncated pre b rest hreach hb hopen
    rw [← List.append_nil rest] at hreach
    rw [hreach.broken_of_faulty hinit hb hg hopen hfaulty] at hbroken
    cases hbroken
  · obtain ⟨k,hk⟩ := Option.ne_none_iff_exists'.mp hmid
    have hopen₀ : e.nesting 0 (mid ++ b :: rest) ≠ none := by
      rw [nesting_append,hk]
      dsimp only [Option.bind_some]
      rw [nesting_begin hb]
      have hadd := nesting_add (k + 1) hopen
      rwa [Nat.zero_add] at hadd
    have hfaulty := h.truncated pre₀ b₀ _ hreach hb₀ hopen₀
    rw [← List.append_nil (mid ++ b :: rest)] at hreach
    rw [hreach.broken_of_faulty hinit hb₀ hg hopen₀ hfaulty] at hbroken
    cases hbroken

/-- A top-level begin is one that the scan gets to. -/
theorem reached_of_topLevel (hinit : e.InitOutside actions)
    (hg : e.buildNodesFromThread actions = .ok g) (hbroken : g.broken = false)
    (heq : actions = pre ++ rest) (htop : e.nesting 0 pre = some 0) :
    Reached e actions pre rest := by
  rcases position hinit hg hbroken pre rest heq with h | ⟨pre₀,b,mid,rfl,h,hb,hopen⟩
  · exact h
  · rw [nesting_append,h.nesting] at htop
    dsimp only [Option.bind_some] at htop
    rw [nesting_begin hb] at htop
    obtain ⟨body,c,l,rfl,hend,hbody,-⟩ := exists_end htop
    exact absurd (nesting_closed hbody hend) hopen

/-- A missing action is an error that is seen, where every call has its end or is broken. -/
theorem Apparent.faulty_of_missed (h : e.Apparent actions)
    (hreach : Reached e actions pre (b :: (mid ++ a :: post))) (hb : e.IsBegin b)
    (hopen : e.nesting 0 mid ≠ none) (ha : e.OrderingPoint a) (hmid : e.NoAction mid) :
    ∃ body l, mid ++ a :: post = body ++ l ∧ e.nesting 0 body ≠ none ∧ e.Faulty pre body := by
  by_cases hall : e.nesting 0 (mid ++ a :: post) = none
  · obtain ⟨body,c,l,hl,hend,hbody⟩ := exists_end_of_none hall
    have hopen' : e.nesting 0 (mid ++ [a]) ≠ none := by
      rw [nesting_append]
      obtain ⟨k,hk⟩ := Option.ne_none_iff_exists'.mp hopen
      rw [hk]
      dsimp only [Option.bind_some]
      rw [ha.nesting]
      simp [nesting]
    have hl' : mid ++ [a] ++ post = body ++ c :: l := by simpa using hl
    obtain ⟨x,hx⟩ := prefix_body hl' hopen' hbody hend
    refine ⟨body,c :: l,hl,by rw [hbody]; simp,?_⟩
    rw [hl] at hreach
    have hcases : e.Missed (mid ++ [a]) ∨ e.Fails pre mid a := ha.cases hmid
    rcases hcases with hmissed | hfails
    · exact h.missed pre b body c l hreach hb hbody hend (hx ▸ missed_append hmissed x)
    · rw [hx]
      exact faulty_append ⟨mid,a,[],rfl,hfails⟩ x
  · exact ⟨_,[],(List.append_nil _).symm,hall,h.truncated pre b _ hreach hb hall⟩

/-- A stored node whose call has its end and its actions. -/
theorem Apparent.matched (h : e.Apparent actions) (hm : e.Kept actions m) :
    ∃ pre b mid c post, Reached e actions pre (b :: (mid ++ c :: post)) ∧ m.begin = some b ∧
      e.IsBegin b ∧ e.nesting 0 mid = some 0 ∧ e.IsEnd c ∧ ¬e.Missed mid ∧ ¬e.Faulty pre mid ∧
      ∀ op ∈ m.orderingPoints, e.Recent pre b mid op := by
  obtain ⟨pre,b,rest,passed',rest',hreach,hb,hout⟩ := hm
  cases hout with
  | @matched body post c s hl hend hbody hs =>
    subst hl
    exact ⟨pre,b,body,c,_,hreach,hs.begins,hb,hbody,hend,
      fun hmissed => hs.sound (h.missed _ _ _ _ _ hreach hb hbody hend hmissed),hs.sound,hs.points⟩
  | truncated hs =>
    have hopen : e.nesting 0 rest ≠ none := by
      rw [hs.level]
      simp
    exact absurd (h.truncated pre b rest hreach hb hopen) hs.sound

theorem Apparent.extent (h : e.Apparent actions) (hnodup : actions.Nodup)
    (hinit : e.InitOutside actions) (hg : e.buildNodesFromThread actions = .ok g)
    (hkept : ∀ m ∈ g.methodList, e.Kept actions m) : e.Extent actions g where
  stored m hm := by
    obtain ⟨pre,b,mid,c,post,hreach,hbegin,hb,hmid,hend,hmissed,-,hpoints⟩ := h.matched (hkept m hm)
    exact ⟨pre,b,mid,c,post,hreach.eq,hbegin,hb,hmid,hend,fun op hop =>
      (hpoints op hop).mem hmissed⟩
  unmatched pre b rest heq hb hopen := by
    refine ⟨h.truncated_of_open hinit hg heq hb hopen,fun m hm hbegin => ?_⟩
    obtain ⟨pre',b',mid,c,post,hreach,hbegin',hb',hmid,hend,-⟩ := h.matched (hkept m hm)
    obtain rfl : b' = b := by simpa [hbegin] using hbegin'.symm
    obtain ⟨-,rfl⟩ := split_unique hnodup heq hreach.eq
    exact hopen (nesting_closed hmid hend)
  missed pre b mid a post heq htop hb hopen ha hmid := by
    constructor
    · by_contra hbroken
      rw [Bool.not_eq_true] at hbroken
      have hreach := reached_of_topLevel hinit hg hbroken heq htop
      obtain ⟨body,l,hl,hbody,hfaulty⟩ := h.faulty_of_missed hreach hb hopen ha hmid
      rw [hl] at hreach
      rw [hreach.broken_of_faulty hinit hb hg hbody hfaulty] at hbroken
      cases hbroken
    · intro m hm hbegin
      obtain ⟨pre',b',body,c,l,hreach,hbegin',hb',hbody,hend,hmissed,hsound,-⟩ :=
        h.matched (hkept m hm)
      obtain rfl : b' = b := by simpa [hbegin] using hbegin'.symm
      obtain ⟨rfl,hl⟩ := split_unique hnodup heq hreach.eq
      rw [← hl] at hreach
      obtain ⟨body',l',hl',hbody',hfaulty⟩ := h.faulty_of_missed hreach hb hopen ha hmid
      obtain ⟨x,rfl⟩ := prefix_body (hl'.symm.trans hl) hbody' hbody hend
      exact hsound (faulty_append hfaulty x)

/-- The other direction: a call with a defect that is not seen has a node. -/
theorem Extent.apparent (h : e.Extent actions g) (hinit : e.InitOutside actions)
    (hg : e.buildNodesFromThread actions = .ok g) : e.Apparent actions where
  truncated pre b rest hreach hb hopen := by
    rcases hreach.outcome hinit hb hg with ⟨hout,-⟩ | ⟨m,hm,_,_,hout⟩
    · cases hout with
      | broken hl hopen' hfaulty =>
        rw [hl]
        exact faulty_append hfaulty _
    · exact absurd hout.begins ((h.unmatched pre b rest hreach.eq hb hopen).2 m hm)
  missed pre b body c post hreach hb hbody hend hmissed := by
    obtain ⟨mid,a,l,rfl,ha,hmid⟩ := hmissed
    have hopen : e.nesting 0 mid ≠ none := nesting_prefix (by rw [hbody]; simp)
    rcases hreach.outcome hinit hb hg with ⟨hout,-⟩ | ⟨m,hm,_,_,hout⟩
    · by_contra hsound
      obtain ⟨m,hm⟩ := hout.matches_of hbody hend hsound
      cases hm
    · have heq := hreach.eq
      rw [List.append_assoc,List.cons_append] at heq
      exact absurd hout.begins
        ((h.missed pre b mid a _ heq hreach.nesting hb hopen (Or.inl ha) hmid).2 m hm)

/-- The nodes have the right extent exactly if every defect of a call is one that is seen. -/
theorem buildNodesFromThread_extent_iff (hnodup : actions.Nodup) (hinit : e.InitOutside actions) :
    ∃ g, e.buildNodesFromThread actions = .ok g ∧ (e.Extent actions g ↔ e.Apparent actions) := by
  obtain ⟨g,hg,-,hadd⟩ := (Reached.start (e := e)).scan hinit (Nat.le_refl _) {}
  have hkept : ∀ m ∈ g.methodList, e.Kept actions m := fun m hm => (hadd m hm).resolve_left nofun
  exact ⟨g,hg,fun h => h.apparent hinit hg,fun h => h.extent hnodup hinit hg hkept⟩

/-- A begin, a store, an ordering point and an end. -/
def storeCall : AnnotatedActions where
  acts := fun act => {
    type := if act = 1 then .atomicWrite else .atomicAnnotated
    order := .relaxed
    location := .object 1
    value := 1
    tid := 1 }
  annotation := fun act =>
    if act = 0 then .interfaceBegin 7 else if act = 3 then .opDefine else .interfaceEnd

theorem storeCall_initOutside (actions : List ActionId) : storeCall.InitOutside actions := by
  intro pre b mid a post _ _ _ ha
  unfold getAnnotation at ha
  split at ha
  · simp only [storeCall] at ha
    split at ha
    · cases ha
    · split at ha <;> cases ha
  · cases ha

/-- One node for a call with no end, and one with the store before its begin as the ordering
point. -/
theorem storeCall_fails :
    (∃ g, storeCall.buildNodesFromThread [0,1,3] = .ok g ∧ g.broken = false ∧
      ¬storeCall.Extent [0,1,3] g) ∧
    ∃ g, storeCall.buildNodesFromThread [1,0,3,4] = .ok g ∧ g.broken = false ∧
      ¬storeCall.Extent [1,0,3,4] g := by
  refine ⟨⟨_,rfl,rfl,fun h => ?_⟩,⟨_,rfl,rfl,fun h => ?_⟩⟩
  · have hbroken := (h.unmatched [] 0 [1,3] rfl ⟨7,rfl⟩ (by decide)).1
    cases hbroken
  · have hbroken := (h.missed [1] 0 [] 3 [4] rfl rfl ⟨7,rfl⟩ (by decide)
      (Or.inl (Or.inr (Or.inl rfl)))
      nofun).1
    cases hbroken

theorem buildNodesFromThread_extent_iff_storeCall :
    ∃ g, storeCall.buildNodesFromThread [0,1,3,4] = .ok g ∧ g.methodList.length = 1 ∧
      (storeCall.Extent [0,1,3,4] g ↔ storeCall.Apparent [0,1,3,4]) := by
  have hnodup : ([0,1,3,4] : List ActionId).Nodup := by decide
  obtain ⟨g,hg,hiff⟩ := buildNodesFromThread_extent_iff hnodup (storeCall_initOutside [0,1,3,4])
  have hlength : (storeCall.buildNodesFromThread [0,1,3,4]).map (·.methodList.length) = .ok 1 := rfl
  rw [hg] at hlength
  exact ⟨g,hg,Except.ok.inj hlength,hiff⟩

end CdsChecker.AnnotatedActions
