import CdsChecker.CycleGraphPlaces
import CdsChecker.ReadSources

/-! The edges that reads and writes ask for: each joins two writes or promises of one location. -/
namespace CdsChecker
namespace Execution

open OrderGraph

/-- The location of a write of the execution, or of the readers of a pending promise. -/
def place (e : Execution) : GraphObj → Option Location
  | .action a =>
    if a ∈ e.actionTrace ∧ (e.acts a).isWrite = true then some (e.acts a).location else none
  | .promise p =>
    if p ∈ e.promises then (e.proms p).readers.head?.map fun r => (e.acts r).location else none

/-- What a read reads from. -/
def source (e : Execution) (a : ActionId) : Option GraphObj :=
  match (e.acts a).readsFrom with
  | some rf => some (.action rf)
  | none => (e.acts a).readsFromPromise.map .promise

variable {e e' : Execution} {curr : ActionId} {fresh : Option ActionId}

theorem place_action {a : ActionId} {l : Location} : e.place (.action a) = some l ↔
    (a ∈ e.actionTrace ∧ (e.acts a).isWrite = true) ∧ (e.acts a).location = l := by
  simp only [place]
  split <;> simp_all

theorem place_promise {p : PromiseId} {l : Location} : e.place (.promise p) = some l ↔
    p ∈ e.promises ∧ ∃ r, (e.proms p).readers.head? = some r ∧ (e.acts r).location = l := by
  simp only [place]
  split <;> simp_all

theorem source_past {a rf : ActionId} : e.source a = some (.action rf) ↔
    (e.acts a).readsFrom = some rf := by
  rw [source]
  split <;> simp_all

theorem source_promise {a : ActionId} {p : PromiseId} : e.source a = some (.promise p) ↔
    (e.acts a).readsFrom = none ∧ (e.acts a).readsFromPromise = some p := by
  rw [source]
  split <;> simp_all

theorem source_eq_none {a : ActionId} : e.source a = none ↔ Unread (e.acts a) := by
  rw [source,Unread]
  split <;> simp_all

theorem KeepsOrder.place (h : KeepsOrder e e') : e'.place = e.place := by
  funext x
  cases x with
  | action a => simp only [Execution.place,h.actionTrace,h.isWrite,(h.keeps a).location]
  | promise p => simp only [Execution.place,h.promises,h.readers,(h.keeps _).location]

theorem KeepsOrder.source (h : KeepsOrder e e') (a : ActionId) : e'.source a = e.source a := by
  simp only [Execution.source,h.readsFrom,h.readsFromPromise]

/-- Each read is at the place of its source, and an access at that of a promise on its location. -/
structure Placed (e : Execution) : Prop where
  sources : ∀ a ∈ e.actionTrace, ∀ x, e.source a = some x →
    (e.acts a).isRead = true ∧ e.place x = some (e.acts a).location
  promises : ∀ p ∈ e.promises, ∀ a, (e.acts a).isWait = false → e.sameLocation p a = true →
    e.place (.promise p) = some (e.acts a).location

theorem Sourced.placed (h : e.Sourced fresh) (ha : e.Awaits) : e.Placed := by
  refine ⟨fun a hmem x hx => ?_,fun p hp a hwait hsame => ?_⟩
  · have hread : (e.acts a).isRead = true :=
      h.only a hmem fun hunread => by cases (source_eq_none.mpr hunread).symm.trans hx
    refine ⟨hread,?_⟩
    cases x with
    | action w =>
      obtain ⟨hw,hwrite,hlocation,-⟩ := h.past a hmem w (source_past.mp hx)
      exact place_action.mpr ⟨⟨hw,hwrite⟩,hlocation⟩
    | promise p =>
      obtain ⟨hnone,hp⟩ := source_promise.mp hx
      obtain ⟨hpending,hreader⟩ := ha.pending a hmem p hnone hp
      obtain ⟨r,hr⟩ := Option.isSome_iff_exists.mp
        (List.isSome_head?.mpr (List.ne_nil_of_mem hreader))
      exact place_promise.mpr ⟨hpending,r,hr,
        h.waiting p hpending r (List.mem_of_head? hr) a hreader⟩
  · obtain ⟨r,hhead,-⟩ := (Option.any_eq_true _ _).mp hsame
    exact place_promise.mpr ⟨hp,r,hhead,
      h.readers_location ha hp hwait hsame r (List.mem_of_head? hhead)⟩

theorem KeepsOrder.placed (hk : KeepsOrder e e') : e'.Placed ↔ e.Placed := by
  have hread : ∀ a, (e'.acts a).isRead = (e.acts a).isRead ∧
      (e'.acts a).isWait = (e.acts a).isWait := fun a => by
    simp only [ModelAction.isRead,ModelAction.isWait,(hk.keeps a).type,and_self]
  have hparts : ∀ e : Execution, e.Placed ↔ (∀ a ∈ e.actionTrace, ∀ x, e.source a = some x →
      (e.acts a).isRead = true ∧ e.place x = some (e.acts a).location) ∧
      ∀ p ∈ e.promises, ∀ a, (e.acts a).isWait = false → e.sameLocation p a = true →
        e.place (.promise p) = some (e.acts a).location :=
    fun e => ⟨fun h => ⟨h.sources,h.promises⟩,fun h => ⟨h.1,h.2⟩⟩
  rw [hparts,hparts]
  simp only [hk.actionTrace,hk.source,(hread _).1,(hread _).2,hk.place,(hk.keeps _).location,
    hk.promises,hk.sameLocation]

/-! ### The scans -/

theorem observed_source {act : ActionId} {x : GraphObj} (h : e.observed act = .ok x) :
    e.source act = some x := by
  rw [observed] at h
  rw [source]
  split at h
  · rename_i hrf
    rw [hrf]
    exact congrArg some (Except.ok.inj h)
  · rename_i hnone hp
    rw [hnone,hp]
    exact congrArg some (Except.ok.inj h)
  · cases h

/-- The actions of a list on one location. -/
def Gathered (e : Execution) (l : Location) (acts : List ActionId) : Prop :=
  ∀ a ∈ acts, a ∈ e.actionTrace ∧ onLocation (e.acts a) l = true

theorem location_of_on {a : ModelAction} {l : Location} (hon : onLocation a l = true)
    (hwait : a.isWait = false) : a.location = l := by
  simpa [onLocation,hwait] using hon

theorem Gathered.place {l : Location} {acts : List ActionId} (h : e.Gathered l acts) {a : ActionId}
    (ha : a ∈ acts) (hwrite : (e.acts a).isWrite = true) : e.place (.action a) = some l := by
  obtain ⟨hmem,hon⟩ := h a ha
  exact place_action.mpr ⟨⟨hmem,hwrite⟩,location_of_on hon (isWait_of_isWrite hwrite)⟩

theorem Gathered.observed {l : Location} {acts : List ActionId} (h : e.Gathered l acts)
    (hp : e.Placed) {a : ActionId} {x : GraphObj} (ha : a ∈ acts)
    (hx : e.observed a = .ok x) : e.place x = some l := by
  obtain ⟨hmem,hon⟩ := h a ha
  obtain ⟨hread,hplace⟩ := hp.sources a hmem x (observed_source hx)
  rw [hplace,location_of_on hon (isWait_of_isRead hread)]

theorem readFenceRule_isWrite {act : ActionId} {fences : Fences} {rule : MoRule}
    (h : e.readFenceRule curr act fences = some rule) : (e.acts act).isWrite = true := by
  cases hw : (e.acts act).isWrite with
  | true => rfl
  | false => simp [readFenceRule,hw] at h

theorem writeFenceRule_isWrite {act : ActionId} {fences : Fences} {rule : MoRule}
    (h : e.writeFenceRule act fences = some rule) : (e.acts act).isWrite = true := by
  cases hw : (e.acts act).isWrite with
  | true => rfl
  | false => simp [writeFenceRule,hw] at h

theorem readScan_places {l : Location} {rf : GraphObj} {fences : Fences} {acts : List ActionId}
    {edge : Option MoEdge} (hp : e.Placed) (hacts : e.Gathered l acts)
    (h : e.readScan curr rf fences acts = .ok edge) :
    ∀ x ∈ edge, e.place x.source = some l ∧ x.target = rf := by
  induction acts generalizing edge with
  | nil =>
    obtain rfl : none = edge := Except.ok.inj h
    simp
  | cons act rest ih =>
    have hrest : e.readScan curr rf fences rest = .ok edge →
        ∀ x ∈ edge, e.place x.source = some l ∧ x.target = rf :=
      ih fun a ha => hacts a (List.mem_cons_of_mem _ ha)
    have hone : ∀ {y rule}, e.place y = some l → edge = some ⟨y,rf,rule⟩ →
        ∀ x ∈ edge, e.place x.source = some l ∧ x.target = rf := by
      rintro y rule hy rfl x hx
      obtain rfl := Option.some.inj hx
      exact ⟨hy,rfl⟩
    rw [readScan] at h
    split at h
    · exact hrest h
    split at h
    · exact hrest h
    split at h
    · split at h
      · obtain rfl : none = edge := Except.ok.inj h
        simp
      · exact hrest h
    split at h
    · rename_i hrule
      exact hone (hacts.place List.mem_cons_self (readFenceRule_isWrite hrule))
        (Except.ok.inj h).symm
    split at h
    · split at h
      · rename_i hwrite
        exact hone (hacts.place List.mem_cons_self hwrite) (Except.ok.inj h).symm
      · obtain ⟨prevrf,hprev,h⟩ := bind_eq_ok.mp h
        have h := Except.ok.inj h
        split at h
        · subst h
          simp
        · exact hone (hacts.observed hp List.mem_cons_self hprev) h.symm
    · exact hrest h

theorem writeScan_places {l : Location} {fences : Fences} {acts : List ActionId}
    {edge : Option MoEdge} (hp : e.Placed) (hacts : e.Gathered l acts)
    (h : e.writeScan curr fences acts = .ok edge) :
    ∀ x ∈ edge, e.place x.source = some l ∧ x.target = .action curr := by
  induction acts generalizing edge with
  | nil =>
    obtain rfl : none = edge := Except.ok.inj h
    simp
  | cons act rest ih =>
    have hrest : e.writeScan curr fences rest = .ok edge →
        ∀ x ∈ edge, e.place x.source = some l ∧ x.target = .action curr :=
      ih fun a ha => hacts a (List.mem_cons_of_mem _ ha)
    have hone : ∀ {y rule}, e.place y = some l → edge = some ⟨y,.action curr,rule⟩ →
        ∀ x ∈ edge, e.place x.source = some l ∧ x.target = .action curr := by
      rintro y rule hy rfl x hx
      obtain rfl := Option.some.inj hx
      exact ⟨hy,rfl⟩
    have hnone : (.ok none : Result (Option MoEdge)) = .ok edge →
        ∀ x ∈ edge, e.place x.source = some l ∧ x.target = .action curr := by
      intro h
      obtain rfl : none = edge := Except.ok.inj h
      simp
    rw [writeScan] at h
    split at h
    · split at h
      · exact hnone h
      · exact hrest h
    split at h
    · rename_i hrule
      exact hone (hacts.place List.mem_cons_self (writeFenceRule_isWrite hrule))
        (Except.ok.inj h).symm
    split at h
    · split at h
      · rename_i hwrite
        exact hone (hacts.place List.mem_cons_self hwrite) (Except.ok.inj h).symm
      split at h
      · obtain ⟨prevrf,hprev,h⟩ := bind_eq_ok.mp h
        exact hone (hacts.observed hp List.mem_cons_self hprev) (Except.ok.inj h).symm
      · exact hnone h
    · exact hrest h

theorem scanThreads_mem {scan : ThreadId → List ActionId → Result (Option MoEdge)}
    {lists : List (List ActionId)} {edges : List MoEdge} {i : ThreadId}
    (h : scanThreads scan i lists = .ok edges) {x : MoEdge} (hx : x ∈ edges) :
    ∃ j list, lists[j]? = some list ∧ scan (i + j) list.reverse = .ok (some x) := by
  induction lists generalizing i edges with
  | nil =>
    obtain rfl : [] = edges := Except.ok.inj h
    cases hx
  | cons list lists ih =>
    obtain ⟨edge,h₁,h⟩ := bind_eq_ok.mp h
    obtain ⟨more,h₂,h⟩ := bind_eq_ok.mp h
    obtain rfl : edge.toList ++ more = edges := Except.ok.inj h
    rcases List.mem_append.mp hx with hx | hx
    · obtain rfl : edge = some x := Option.mem_toList.mp hx
      exact ⟨0,list,rfl,h₁⟩
    · obtain ⟨j,list',hj,hscan⟩ := ih h₂ hx
      refine ⟨j + 1,list',hj,?_⟩
      rwa [Nat.add_assoc,Nat.add_comm 1 j] at hscan

theorem Listed.gathered (h : e.Listed) {l : Location} {j : ℕ} {list : List ActionId}
    (hj : (e.objThrdMap l)[j]? = some list) : e.Gathered l list.reverse := by
  intro a ha
  have hmem : a ∈ e.objThrd l j := by simpa [objThrd,hj] using ha
  obtain ⟨htrace,-,-,hon⟩ := h.mem l j a hmem
  exact ⟨htrace,hon⟩

/-! ### The edges of a call -/

/-- Each edge joins two objects at one place. -/
def EdgesFit (e : Execution) (edges : List MoEdge) : Prop :=
  ∀ x ∈ edges, SamePlace e.place x.source x.target

theorem exclusiveEdges_fit {x : GraphObj} (hp : e.Placed) (hcurr : (e.acts curr).isWait = false)
    (hx : e.place x = some (e.acts curr).location) : e.EdgesFit (e.exclusiveEdges curr x) := by
  intro edge hedge
  obtain ⟨p,hmem,rfl⟩ := List.mem_map.mp hedge
  obtain ⟨hmem,hcompatible⟩ := List.mem_filter.mp hmem
  simp only [isCompatibleExclusive,isCompatible,Bool.and_eq_true] at hcompatible
  exact ⟨_,hx,hp.promises p hmem curr hcurr hcompatible.2.2⟩

theorem readEdges_fit {rf : GraphObj} {edges : List MoEdge} (hl : e.Listed) (hp : e.Placed)
    (hrf : e.place rf = some (e.acts curr).location)
    (hedges : e.readEdges curr rf = .ok edges) : e.EdgesFit edges := by
  obtain ⟨_,hread,hedges⟩ := bind_eq_ok.mp hedges
  obtain ⟨scanned,hscan,hedges⟩ := bind_eq_ok.mp hedges
  obtain rfl : scanned ++ e.exclusiveEdges curr rf = edges := Except.ok.inj hedges
  intro x hx
  rcases List.mem_append.mp hx with hx | hx
  · obtain ⟨j,list,hj,hone⟩ := scanThreads_mem hscan hx
    obtain ⟨hsource,htarget⟩ := readScan_places hp (hl.gathered hj) hone x rfl
    exact ⟨_,hsource,htarget ▸ hrf⟩
  · exact exclusiveEdges_fit hp (isWait_of_isRead (assert_eq_ok.mp hread)) hrf x hx

/-- The lists of the locations hold actions of the trace. -/
def Mapped (e : Execution) : Prop := ∀ l, e.Gathered l (e.objMap l)

theorem SamePlaces.trans {e'' : Execution} (h : SamePlaces e e') (h' : SamePlaces e' e'') :
    SamePlaces e e'' := by
  refine ⟨h'.actionTrace.trans h.actionTrace,h'.objMap.trans h.objMap,
    h'.objThrdMap.trans h.objThrdMap,
    h'.thrdLastAction.trans h.thrdLastAction,fun a => ?_,fun a => (h.cv a).trans (h'.cv a)⟩
  have hp := h.places a
  have hp' := h'.places a
  exact ⟨hp'.tid.trans hp.tid,hp'.seqNumber.trans hp.seqNumber,hp'.location.trans hp.location,
    hp'.atomic.trans hp.atomic,hp'.operand.trans hp.operand,fun l => (hp'.on l).trans (hp.on l)⟩

theorem Mapped.samePlaces (h : e.Mapped) (hs : SamePlaces e e') : e'.Mapped := by
  intro l a ha
  rw [hs.objMap] at ha
  rw [hs.actionTrace,(hs.places a).on]
  exact h l a ha

theorem getLastSeqCstWrite_spec {w : ActionId} (h : e.getLastSeqCstWrite curr = some w) :
    w ∈ e.objMap (e.acts curr).location ∧ (e.acts w).isWrite = true := by
  have hmem := List.mem_of_find?_eq_some h
  have hwrite := List.find?_some h
  simp only [Bool.and_eq_true] at hwrite
  refine ⟨?_,hwrite.1⟩
  exact List.mem_reverse.mp ((List.dropWhile_suffix _).subset (List.mem_of_mem_tail hmem))

theorem writeEdges_fit {edges : List MoEdge} (hl : e.Listed) (hm : e.Mapped) (hp : e.Placed)
    (hcurr : curr ∈ e.actionTrace) (hedges : e.writeEdges curr = .ok edges) :
    e.EdgesFit edges := by
  obtain ⟨_,hwrite,hedges⟩ := bind_eq_ok.mp hedges
  have hwrite := assert_eq_ok.mp hwrite
  obtain ⟨scanned,hscan,hedges⟩ := bind_eq_ok.mp hedges
  obtain rfl : _ = edges := Except.ok.inj hedges
  have hplace : e.place (.action curr) = some (e.acts curr).location :=
    place_action.mpr ⟨⟨hcurr,hwrite⟩,rfl⟩
  intro x hx
  rcases List.mem_append.mp hx with hx | hx
  · rcases List.mem_append.mp hx with hx | hx
    · rw [lastSeqCstEdge] at hx
      split at hx
      · obtain ⟨w,hw,rfl⟩ := Option.map_eq_some_iff.mp (Option.mem_toList.mp hx)
        obtain ⟨hmem,hisWrite⟩ := getLastSeqCstWrite_spec hw
        exact ⟨_,(hm _).place hmem hisWrite,hplace⟩
      · cases hx
    · obtain ⟨j,list,hj,hone⟩ := scanThreads_mem hscan hx
      obtain ⟨hsource,htarget⟩ := writeScan_places hp (hl.gathered hj) hone x rfl
      exact ⟨_,hsource,htarget ▸ hplace⟩
  · exact exclusiveEdges_fit hp (isWait_of_isWrite hwrite) hplace x hx

end Execution
end CdsChecker
