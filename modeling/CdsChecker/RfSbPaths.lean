import CdsChecker.CompleteTrace
import CdsChecker.Library.StackSearch

/-! The paths of program order and reads-from between two actions, which fence inference makes
synchronize. -/
namespace CdsChecker
namespace SCFence

open StackSearch

/-- The reads of a list up to a sequence number. -/
def readsUpTo (e : Execution) (seq : ℕ) (list : List ActionId) : List ActionId :=
  (list.takeWhile fun act => (e.acts act).seqNumber ≤ seq).filter fun act => (e.acts act).isRead

/-- What becomes of a path, whose first read is the latest one: it is no use, it is found, or each
earlier read of the writer's thread makes it longer. -/
def visitPath (e : Execution) (threadlists : List (List ActionId)) (act1 : ActionId)
    (path : List ActionId) : Result (Visit (List ActionId)) := do
  let read ← deref path.head?
  let write ← deref (e.acts read).readsFrom
  let w := e.acts write
  if w.seqNumber = 0 then pure .drop
  else if path.any fun addedRead =>
      w.tid = (e.acts addedRead).tid && (e.acts addedRead).seqNumber ≤ w.seqNumber then pure .drop
  else if w.tid = (e.acts act1).tid ∧ (e.acts act1).seqNumber ≤ w.seqNumber then pure .found
  else do
    let list ← deref threadlists[w.tid]?
    pure (.expand ((readsUpTo e w.seqNumber list).map (· :: path)))

/-- The stack is worked off in `n` turns at most. -/
def getRfSbPaths (e : Execution) (threadlists : List (List ActionId)) (n : ℕ)
    (act1 act2 : ActionId) : Result (List (List ActionId)) := do
  let list1 ← deref threadlists[(e.acts act1).tid]?
  let list2 ← deref threadlists[(e.acts act2).tid]?
  if list1.isEmpty || list2.isEmpty then pure []
  else
    loop .diverges (visitPath e threadlists act1) n
      ((readsUpTo e (e.acts act2).seqNumber list2).map ([·])) []

/-! ### Paths -/

/-- In the thread of `b`, at or after it. -/
def AtOrAfter (e : Execution) (a b : ActionId) : Prop :=
  (e.acts a).tid = (e.acts b).tid ∧ (e.acts b).seqNumber ≤ (e.acts a).seqNumber

instance (e : Execution) (a b : ActionId) : Decidable (AtOrAfter e a b) :=
  inferInstanceAs (Decidable (_ ∧ _))

/-- The reads `r1 … rn`: the last is at or before `act2`, each one reads a write that is at or
after the one before it, and the first a write that is at or after `act1`. -/
structure RfSbPath (e : Execution) (act1 act2 : ActionId) (path : List ActionId) : Prop where
  reads : ∀ r ∈ path, r ∈ e.actionTrace ∧ (e.acts r).isRead = true
  last : ∃ r, path.getLast? = some r ∧ AtOrAfter e act2 r
  links : path.IsChain fun r r' => ∃ w, (e.acts r').readsFrom = some w ∧ AtOrAfter e w r
  first : ∃ r w, path.head? = some r ∧ (e.acts r).readsFrom = some w ∧ AtOrAfter e w act1
  only : ∀ r ∈ path.tail, ∀ w, (e.acts r).readsFrom = some w → ¬ AtOrAfter e w act1
  initialized : ∀ r ∈ path, ∀ w, (e.acts r).readsFrom = some w → (e.acts w).seqNumber ≠ 0
  noLoop : ∀ r post, r :: post <:+ path → ∀ w, (e.acts r).readsFrom = some w →
    ∀ r' ∈ r :: post, ¬ AtOrAfter e w r'

/-- The path before its latest read is looked into. -/
structure Part (e : Execution) (act1 act2 : ActionId) (path : List ActionId) : Prop where
  reads : ∀ r ∈ path, r ∈ e.actionTrace ∧ (e.acts r).isRead = true
  last : ∃ r, path.getLast? = some r ∧ AtOrAfter e act2 r
  links : path.IsChain fun r r' => ∃ w, (e.acts r').readsFrom = some w ∧ AtOrAfter e w r
  only : ∀ r ∈ path.tail, ∀ w, (e.acts r).readsFrom = some w → ¬ AtOrAfter e w act1
  initialized : ∀ r ∈ path.tail, ∀ w, (e.acts r).readsFrom = some w → (e.acts w).seqNumber ≠ 0
  noLoop : ∀ r post, r :: post <:+ path.tail → ∀ w, (e.acts r).readsFrom = some w →
    ∀ r' ∈ r :: post, ¬ AtOrAfter e w r'

/-- The write can be on the path. -/
def Free (e : Execution) (w : ActionId) (path : List ActionId) : Prop :=
  (e.acts w).seqNumber ≠ 0 ∧ ∀ r ∈ path, ¬ AtOrAfter e w r

instance (e : Execution) (w : ActionId) (path : List ActionId) : Decidable (Free e w path) :=
  inferInstanceAs (Decidable (_ ∧ _))

variable {e : Execution} {act1 act2 : ActionId} {path : List ActionId}

theorem part_singleton {r : ActionId} : Part e act1 act2 [r] ↔
    (r ∈ e.actionTrace ∧ (e.acts r).isRead = true) ∧ AtOrAfter e act2 r := by
  constructor
  · intro h
    obtain ⟨r',hr',hlast⟩ := h.last
    rw [List.getLast?_singleton,Option.some.injEq] at hr'
    exact ⟨h.reads r (by simp),hr' ▸ hlast⟩
  · intro h
    refine ⟨?_,⟨r,rfl,h.2⟩,List.isChain_singleton _,?_,?_,?_⟩
    · simpa using h.1
    all_goals simp

theorem part_cons {r r' w : ActionId} (hw : (e.acts r').readsFrom = some w) :
    Part e act1 act2 (r :: r' :: path) ↔ Part e act1 act2 (r' :: path) ∧
      (r ∈ e.actionTrace ∧ (e.acts r).isRead = true) ∧ AtOrAfter e w r ∧
      Free e w (r' :: path) ∧ ¬ AtOrAfter e w act1 := by
  constructor
  · intro h
    have hlinks := List.isChain_cons_cons.mp h.links
    refine ⟨⟨?_,?_,hlinks.2,?_,?_,?_⟩,h.reads r (by simp),?_,⟨?_,?_⟩,?_⟩
    · exact fun a ha => h.reads a (List.mem_cons_of_mem _ ha)
    · simpa using h.last
    · exact fun a ha => h.only a (List.mem_cons_of_mem _ ha)
    · exact fun a ha => h.initialized a (List.mem_cons_of_mem _ ha)
    · exact fun a post hsuffix => h.noLoop a post (hsuffix.trans (List.suffix_cons _ _))
    · obtain ⟨w',hw',hat⟩ := hlinks.1
      rw [hw,Option.some.injEq] at hw'
      rwa [hw']
    · exact h.initialized r' (by simp) w hw
    · exact h.noLoop r' path (List.suffix_refl _) w hw
    · exact h.only r' (by simp) w hw
  · rintro ⟨h,hread,hat,hfree,hnot⟩
    refine ⟨?_,?_,List.isChain_cons_cons.mpr ⟨⟨w,hw,hat⟩,h.links⟩,?_,?_,?_⟩
    · exact List.forall_mem_cons.mpr ⟨hread,h.reads⟩
    · simpa using h.last
    · refine List.forall_mem_cons.mpr ⟨fun w' hw' => ?_,h.only⟩
      rw [hw,Option.some.injEq] at hw'
      exact hw' ▸ hnot
    · refine List.forall_mem_cons.mpr ⟨fun w' hw' => ?_,h.initialized⟩
      rw [hw,Option.some.injEq] at hw'
      exact hw' ▸ hfree.1
    · intro a post hsuffix w' hw'
      rcases List.suffix_cons_iff.mp hsuffix with heq | hsuffix
      · cases heq
        rw [hw,Option.some.injEq] at hw'
        exact hw' ▸ hfree.2
      · exact h.noLoop a post hsuffix w' hw'

theorem rfSbPath_cons {r w : ActionId} (hw : (e.acts r).readsFrom = some w) :
    RfSbPath e act1 act2 (r :: path) ↔ Part e act1 act2 (r :: path) ∧ Free e w (r :: path) ∧
      AtOrAfter e w act1 := by
  constructor
  · intro h
    refine ⟨⟨h.reads,h.last,h.links,h.only,?_,?_⟩,⟨?_,?_⟩,?_⟩
    · exact fun a ha => h.initialized a (List.mem_cons_of_mem _ ha)
    · exact fun a post hsuffix => h.noLoop a post (hsuffix.trans (List.suffix_cons _ _))
    · exact h.initialized r (by simp) w hw
    · exact h.noLoop r path (List.suffix_refl _) w hw
    · obtain ⟨r',w',hr',hw',hat⟩ := h.first
      rw [List.head?_cons,Option.some.injEq] at hr'
      subst hr'
      rw [hw,Option.some.injEq] at hw'
      rwa [hw']
  · rintro ⟨h,hfree,hat⟩
    refine ⟨h.reads,h.last,h.links,⟨r,w,rfl,hw,hat⟩,h.only,?_,?_⟩
    · refine List.forall_mem_cons.mpr ⟨fun w' hw' => ?_,h.initialized⟩
      rw [hw,Option.some.injEq] at hw'
      exact hw' ▸ hfree.1
    · intro a post hsuffix w' hw'
      rcases List.suffix_cons_iff.mp hsuffix with heq | hsuffix
      · cases heq
        rw [hw,Option.some.injEq] at hw'
        exact hw' ▸ hfree.2
      · exact h.noLoop a post hsuffix w' hw'

/-! ### The search -/

theorem mem_takeWhile_of_sorted {f : ActionId → ℕ} {list : List ActionId}
    (h : list.Pairwise fun a b => f a < f b) (n : ℕ) {a : ActionId} :
    a ∈ list.takeWhile (fun b => f b ≤ n) ↔ a ∈ list ∧ f a ≤ n := by
  induction h with
  | nil => simp
  | @cons b list hb hlist ih =>
    by_cases hle : f b ≤ n
    · rw [List.takeWhile_cons_of_pos (by simpa using hle),List.mem_cons,List.mem_cons,ih]
      constructor
      · rintro (rfl | ⟨hmem,hn⟩)
        · exact ⟨.inl rfl,hle⟩
        · exact ⟨.inr hmem,hn⟩
      · rintro ⟨rfl | hmem,hn⟩
        · exact .inl rfl
        · exact .inr ⟨hmem,hn⟩
    · rw [List.takeWhile_cons_of_neg (by simpa using hle)]
      refine iff_of_false (by simp) ?_
      rintro ⟨hmem,hn⟩
      rcases List.mem_cons.mp hmem with rfl | hmem
      · exact hle hn
      · have := hb a hmem
        omega

theorem readsUpTo_sublist (e : Execution) (seq : ℕ) (list : List ActionId) :
    (readsUpTo e seq list).Sublist list :=
  List.filter_sublist.trans (List.takeWhile_sublist _)

/-- The reads of a thread that are not after a position in it. -/
theorem mem_readsUpTo (h : CompleteTrace e) {b r : ActionId} :
    r ∈ readsUpTo e (e.acts b).seqNumber
      (e.actionTrace.filter fun a => (e.acts a).tid = (e.acts b).tid) ↔
    (r ∈ e.actionTrace ∧ (e.acts r).isRead = true) ∧ AtOrAfter e b r := by
  rw [readsUpTo,List.mem_filter]
  by_cases ht : (e.acts b).tid = 0
  · constructor
    · rintro ⟨hmem,hread⟩
      obtain ⟨hmem,htid⟩ := List.mem_filter.mp (List.takeWhile_subset _ hmem)
      exact absurd ((of_decide_eq_true htid).trans ht) (h.reads r hmem hread).1
    · rintro ⟨⟨hmem,hread⟩,htid,-⟩
      exact absurd (htid.symm.trans ht) (h.reads r hmem hread).1
  · rw [mem_takeWhile_of_sorted (h.sorted ht),List.mem_filter,AtOrAfter,decide_eq_true_eq,
      eq_comm (a := (e.acts r).tid)]
    tauto

theorem nodup_readsUpTo (h : CompleteTrace e) {b : ActionId} :
    (readsUpTo e (e.acts b).seqNumber
      (e.actionTrace.filter fun a => (e.acts a).tid = (e.acts b).tid)).Nodup := by
  by_cases ht : (e.acts b).tid = 0
  · suffices hnil : readsUpTo e (e.acts b).seqNumber
        (e.actionTrace.filter fun a => (e.acts a).tid = (e.acts b).tid) = [] by
      rw [hnil]
      exact List.nodup_nil
    rw [List.eq_nil_iff_forall_not_mem]
    intro r hr
    obtain ⟨⟨hmem,hread⟩,htid,-⟩ := (mem_readsUpTo h).mp hr
    exact (h.reads r hmem hread).1 (htid.symm.trans ht)
  · apply List.Nodup.sublist (readsUpTo_sublist _ _ _)
    apply (h.sorted ht).imp
    intro a a' hlt heq
    rw [heq] at hlt
    exact Nat.lt_irrefl _ hlt

/-- A path of reads of the trace. -/
theorem visitPath_eq {r w : ActionId} (hw : (e.acts r).readsFrom = some w)
    (hmem : w ∈ e.actionTrace) :
    visitPath e (SCGenerator.dupThreadlists e e.actionTrace) act1 (r :: path) =
      .ok (if ¬ Free e w (r :: path) then .drop
        else if AtOrAfter e w act1 then .found
        else .expand ((readsUpTo e (e.acts w).seqNumber
          (e.actionTrace.filter fun a => (e.acts a).tid = (e.acts w).tid)).map
          (· :: r :: path))) := by
  have hany : ((r :: path).any fun addedRead => (e.acts w).tid = (e.acts addedRead).tid &&
      (e.acts addedRead).seqNumber ≤ (e.acts w).seqNumber) = true ↔
        ¬ ∀ r' ∈ r :: path, ¬ AtOrAfter e w r' := by
    simp only [List.any_eq_true,AtOrAfter,not_forall,not_not,Bool.and_eq_true,decide_eq_true_eq,
      exists_prop]
  rw [visitPath,List.head?_cons]
  change (deref (e.acts r).readsFrom >>= _) = _
  rw [hw]
  change (if (e.acts w).seqNumber = 0 then _ else _) = _
  by_cases hseq : (e.acts w).seqNumber = 0
  · rw [if_pos hseq,if_pos fun hfree => hfree.1 hseq]
    rfl
  rw [if_neg hseq]
  by_cases hloop : ∀ r' ∈ r :: path, ¬ AtOrAfter e w r'
  · rw [if_neg (fun hc => hany.mp hc hloop),if_neg (not_not.mpr ⟨hseq,hloop⟩)]
    by_cases hat : AtOrAfter e w act1
    · rw [if_pos hat]
      exact if_pos hat
    · rw [if_neg hat]
      refine (if_neg hat).trans ?_
      rw [SCGenerator.dupThreadlists_get hmem]
      rfl
  · rw [if_pos (hany.mpr hloop),if_pos fun hfree => hloop hfree.2]
    rfl

/-- The search over the thread lists of the trace. -/
def visitTrace (e : Execution) (act1 : ActionId) : List ActionId → Result (Visit (List ActionId)) :=
  visitPath e (SCGenerator.dupThreadlists e e.actionTrace) act1

theorem Part.head (hpart : Part e act1 act2 path) (h : CompleteTrace e) :
    ∃ r rest w, path = r :: rest ∧ (e.acts r).readsFrom = some w ∧ w ∈ e.actionTrace := by
  cases path with
  | nil =>
    obtain ⟨r,hr,-⟩ := hpart.last
    cases hr
  | cons r rest =>
    obtain ⟨hmem,hread⟩ := hpart.reads r (by simp)
    obtain ⟨-,w,hw,hrf⟩ := h.reads r hmem hread
    exact ⟨r,rest,w,rfl,hrf,hw⟩

theorem Part.visit (hpart : Part e act1 act2 path) (h : CompleteTrace e) :
    ∃ v, visitTrace e act1 path = .ok v := by
  obtain ⟨r,rest,w,rfl,hw,hmem⟩ := hpart.head h
  exact ⟨_,visitPath_eq hw hmem⟩

/-- A path is found where it is complete. -/
theorem Part.found_iff (hpart : Part e act1 act2 path) (h : CompleteTrace e) :
    visitTrace e act1 path = .ok .found ↔ RfSbPath e act1 act2 path := by
  obtain ⟨r,rest,w,rfl,hw,hmem⟩ := hpart.head h
  rw [visitTrace,visitPath_eq hw hmem,rfSbPath_cons hw,Except.ok.injEq]
  split
  · rename_i hfree
    simp [hfree]
  · rename_i hfree
    rw [not_not] at hfree
    split <;> simp [*]

/-- Otherwise it grows by each read that its part of the path allows. -/
theorem Part.expand (hpart : Part e act1 act2 path) (h : CompleteTrace e)
    {children : List (List ActionId)} (hvisit : visitTrace e act1 path = .ok (.expand children)) :
    children.Nodup ∧ ∀ y, y ∈ children ↔ ∃ r, y = r :: path ∧ Part e act1 act2 (r :: path) := by
  obtain ⟨r,rest,w,rfl,hw,hmem⟩ := hpart.head h
  rw [visitTrace,visitPath_eq hw hmem,Except.ok.injEq] at hvisit
  split at hvisit
  · cases hvisit
  rename_i hfree
  rw [not_not] at hfree
  split at hvisit
  · cases hvisit
  rename_i hat
  cases hvisit
  constructor
  · exact (nodup_readsUpTo h).map fun a b hab => (List.cons.inj hab).1
  · intro y
    rw [List.mem_map]
    constructor
    · rintro ⟨r',hr',rfl⟩
      obtain ⟨hread,hbefore⟩ := (mem_readsUpTo h).mp hr'
      exact ⟨r',rfl,(part_cons hw).mpr ⟨hpart,hread,hbefore,hfree,hat⟩⟩
    · rintro ⟨r',rfl,hpart'⟩
      obtain ⟨-,hread,hbefore,-⟩ := (part_cons hw).mp hpart'
      exact ⟨r',(mem_readsUpTo h).mpr ⟨hread,hbefore⟩,rfl⟩

/-- A longer part comes from the shorter one. -/
theorem Part.shorter {r : ActionId} (hpart : Part e act1 act2 (r :: path)) (hne : path ≠ [])
    (h : CompleteTrace e) : Part e act1 act2 path ∧
      ∃ children, visitTrace e act1 path = .ok (.expand children) ∧ r :: path ∈ children := by
  cases path with
  | nil => exact absurd rfl hne
  | cons r' rest =>
    obtain ⟨hmem,hread⟩ := hpart.reads r' (by simp)
    obtain ⟨-,w,hmemw,hw⟩ := h.reads r' hmem hread
    obtain ⟨hshort,-,-,hfree,hat⟩ := (part_cons hw).mp hpart
    have hvisit : visitTrace e act1 (r' :: rest) = _ := visitPath_eq hw hmemw
    rw [if_neg (not_not.mpr hfree),if_neg hat] at hvisit
    exact ⟨hshort,_,hvisit,((hshort.expand h hvisit).2 _).mpr ⟨r,rfl,hpart⟩⟩

theorem Part.under (hpart : Part e act1 act2 path) (h : CompleteTrace e) {y : List ActionId}
    (hunder : Under (visitTrace e act1) path y) : Part e act1 act2 y ∧ path <:+ y := by
  induction hunder with
  | refl => exact ⟨hpart,List.suffix_refl _⟩
  | child _ hvisit hmem ih =>
    obtain ⟨r,rfl,hgrown⟩ := ((ih.1.expand h hvisit).2 _).mp hmem
    exact ⟨hgrown,ih.2.trans (List.suffix_cons _ _)⟩

/-- The search comes across all parts. -/
theorem Part.reached (hpart : Part e act1 act2 path) (h : CompleteTrace e) :
    ∃ r, Part e act1 act2 [r] ∧ Under (visitTrace e act1) [r] path := by
  induction path with
  | nil =>
    obtain ⟨r,hr,-⟩ := hpart.last
    cases hr
  | cons r path ih =>
    by_cases hne : path = []
    · subst hne
      exact ⟨r,hpart,.refl⟩
    · obtain ⟨hshort,children,hvisit,hmem⟩ := hpart.shorter hne h
      obtain ⟨last,hlast,hunder⟩ := ih hshort
      exact ⟨last,hlast,hunder.child hvisit hmem⟩

/-- A path has no read twice: a new read is at or before a write that is before the others. -/
theorem Part.nodup (hpart : Part e act1 act2 path) (h : CompleteTrace e) : path.Nodup := by
  induction path with
  | nil => exact List.nodup_nil
  | cons r path ih =>
    rw [List.nodup_cons]
    cases path with
    | nil => simp
    | cons r' rest =>
      obtain ⟨hmem,hread⟩ := hpart.reads r' (by simp)
      obtain ⟨-,w,-,hw⟩ := h.reads r' hmem hread
      obtain ⟨hshort,-,hat,hfree,-⟩ := (part_cons hw).mp hpart
      exact ⟨fun hr => hfree.2 r hr hat,ih hshort⟩

theorem Part.length_le (hpart : Part e act1 act2 path) (h : CompleteTrace e) :
    path.length ≤ e.actionTrace.length := by
  have hsub : path ⊆ e.actionTrace := fun r hr => (hpart.reads r hr).1
  exact ((hpart.nodup h).subperm hsub).length_le

theorem Part.yields (hpart : Part e act1 act2 path) (h : CompleteTrace e) :
    ∃ l, Yields (visitTrace e act1) path l := by
  apply exists_yields List.length e.actionTrace.length (Part e act1 act2) (fun x hx => hx.visit h)
    (fun x hx => hx.length_le h) _ hpart
  intro x children hx hvisit y hy
  obtain ⟨r,rfl,hgrown⟩ := ((hx.expand h hvisit).2 y).mp hy
  exact ⟨hgrown,Nat.lt_succ_self _⟩

/-- Two parts do not grow into the same path. -/
theorem Part.same {x y z : List ActionId} (hx : Part e act1 act2 x) (hy : Part e act1 act2 y)
    (h : CompleteTrace e) (hlen : x.length = y.length) (hxz : Under (visitTrace e act1) x z)
    (hyz : Under (visitTrace e act1) y z) : x = y :=
  ((List.suffix_of_suffix_length_le (hx.under h hxz).2 (hy.under h hyz).2
    (Nat.le_of_eq hlen))).eq_of_length hlen

theorem Part.results_nodup (hpart : Part e act1 act2 path) (h : CompleteTrace e)
    {l : List (List ActionId)} (hyields : Yields (visitTrace e act1) path l) : l.Nodup := by
  apply hyields.nodup
  · intro y children hunder hvisit
    exact ((hpart.under h hunder).1.expand h hvisit).1
  · intro w children hunder hvisit y hy y' hy' z hz hz'
    have hgrown := ((hpart.under h hunder).1.expand h hvisit).2
    obtain ⟨r,rfl,hr⟩ := (hgrown y).mp hy
    obtain ⟨r',rfl,hr'⟩ := (hgrown y').mp hy'
    exact hr.same hr' h rfl hz hz'

/-- The stack that the search begins with. -/
theorem mem_stack (h : CompleteTrace e) {x : List ActionId} :
    x ∈ (readsUpTo e (e.acts act2).seqNumber
      (e.actionTrace.filter fun a => (e.acts a).tid = (e.acts act2).tid)).map ([·]) ↔
    ∃ r, x = [r] ∧ Part e act1 act2 [r] := by
  rw [List.mem_map]
  constructor
  · rintro ⟨r,hr,rfl⟩
    exact ⟨r,rfl,part_singleton.mpr ((mem_readsUpTo h).mp hr)⟩
  · rintro ⟨r,rfl,hpart⟩
    exact ⟨r,(mem_readsUpTo h).mpr (part_singleton.mp hpart),rfl⟩

/-- The search ends, with every path between the actions once. -/
theorem getRfSbPaths_exact (h : CompleteTrace e) (h₁ : act1 ∈ e.actionTrace)
    (h₂ : act2 ∈ e.actionTrace) :
    ∃ n paths, getRfSbPaths e (SCGenerator.dupThreadlists e e.actionTrace) n act1 act2 = .ok paths ∧
      paths.Nodup ∧ ∀ path, path ∈ paths ↔ RfSbPath e act1 act2 path := by
  set stack := (readsUpTo e (e.acts act2).seqNumber
    (e.actionTrace.filter fun a => (e.acts a).tid = (e.acts act2).tid)).map ([·]) with hstack
  have hpart : ∀ x, x ∈ stack → Part e act1 act2 x := fun x hx => by
    obtain ⟨r,rfl,hr⟩ := (mem_stack h).mp hx
    exact hr
  have hyields : ∀ x, x ∈ stack → ∃ l, Yields (visitTrace e act1) x l := fun x hx =>
    (hpart x hx).yields h
  choose! results hresults using hyields
  obtain ⟨n,hn⟩ : ∃ n, loop Failure.diverges (visitTrace e act1) n stack [] =
      .ok (stack.reverse.flatMap results) := loop_ok hresults
  refine ⟨n,stack.reverse.flatMap results,?_,?_,fun path => ?_⟩
  · have hmem : ∀ act ∈ e.actionTrace, (e.actionTrace.filter fun a =>
        (e.acts a).tid = (e.acts act).tid).isEmpty = false := fun act hact => by
      rw [List.isEmpty_eq_false_iff_exists_mem]
      exact ⟨act,List.mem_filter.mpr ⟨hact,by simp⟩⟩
    rw [getRfSbPaths,SCGenerator.dupThreadlists_get h₁,SCGenerator.dupThreadlists_get h₂]
    change (if (_ || _) = true then _ else _) = _
    rw [hmem act1 h₁,hmem act2 h₂,Bool.or_false,if_neg Bool.false_ne_true]
    exact hn
  · apply List.nodup_flatMap.mpr
    constructor
    · intro x hx
      rw [List.mem_reverse] at hx
      exact (hpart x hx).results_nodup h (hresults x hx)
    · have hnodup : stack.Nodup :=
        (nodup_readsUpTo h).map fun a b hab => (List.cons.inj hab).1
      apply List.Pairwise.imp_of_mem _ (List.nodup_reverse.mpr hnodup)
      intro x y hx hy hne z hz hz'
      rw [List.mem_reverse] at hx hy
      apply hne
      obtain ⟨r,rfl,hr⟩ := (mem_stack h).mp hx
      obtain ⟨r',rfl,hr'⟩ := (mem_stack h).mp hy
      exact hr.same hr' h rfl ((hresults _ hx).mem.mp hz).1 ((hresults _ hy).mem.mp hz').1
  · rw [List.mem_flatMap]
    constructor
    · rintro ⟨x,hx,hmem⟩
      rw [List.mem_reverse] at hx
      obtain ⟨hunder,hfound⟩ := (hresults x hx).mem.mp hmem
      exact (((hpart x hx).under h hunder).1.found_iff h).mp hfound
    · intro hpath
      obtain ⟨r,w,hhead,hw,-⟩ := hpath.first
      obtain ⟨rest,rfl⟩ := List.head?_eq_some_iff.mp hhead
      have hwhole := ((rfSbPath_cons hw).mp hpath).1
      obtain ⟨last,hlast,hunder⟩ := hwhole.reached h
      have hx : [last] ∈ stack := (mem_stack h).mpr ⟨last,rfl,hlast⟩
      exact ⟨[last],List.mem_reverse.mpr hx,
        (hresults _ hx).mem.mpr ⟨hunder,(hwhole.found_iff h).mpr hpath⟩⟩

theorem getRfSbPaths_exact_handedOver : ∃ c, Config.Reachable {} c ∧ ∃ n paths,
    getRfSbPaths c.exec (SCGenerator.dupThreadlists c.exec c.exec.actionTrace) n 3 5 = .ok paths ∧
      paths.Nodup ∧ ∀ path, path ∈ paths ↔ RfSbPath c.exec 3 5 path := by
  obtain ⟨c,hc,hcomplete,htrace⟩ := handedOver_complete
  refine ⟨c,hc,getRfSbPaths_exact hcomplete ?_ ?_⟩ <;> simp [htrace]

end SCFence
end CdsChecker
