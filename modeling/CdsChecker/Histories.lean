import CdsChecker.ExecutionGraph
import CdsChecker.Library.LinearExtensions

/-! All sequential histories of an execution graph. -/
namespace CdsChecker.ExecutionGraph

/-- `checkStateSpec` calls the functions of the specification, which keep a state of their own, the
`justified` flags among it. -/
abbrev StateSpec (σ : Type) := List Method → ℕ → σ → Bool × σ

/-- What the recursion passes by reference, with the histories it has checked. -/
structure HistoryState (σ : Type) where
  graph : ExecutionGraph
  numLiveNodes : ℤ
  historyIndex : ℕ := 1
  spec : σ
  checked : List (List Method × Bool) := []

variable {σ : Type}

/-- No incoming edge, or none from a method call that still exists. -/
def getRootNodes (g : ExecutionGraph) : List Method :=
  g.methodList.filter fun m =>
    (g.methods m).exist && (g.methods m).allPrev.toList.all fun prev => !(g.methods prev).exist

def HistoryState.remove (st : HistoryState σ) (m : Method) : HistoryState σ := {
  st with
  graph := st.graph.modify m fun c => { c with exist := false }
  numLiveNodes := st.numLiveNodes - 1 }

def HistoryState.recover (st : HistoryState σ) (m : Method) : HistoryState σ := {
  st with
  graph := st.graph.modify m fun c => { c with exist := true }
  numLiveNodes := st.numLiveNodes + 1 }

def HistoryState.check (checkStateSpec : StateSpec σ) (st : HistoryState σ)
    (curList : List Method) :
    Bool × HistoryState σ :=
  let (satisfied,spec) := checkStateSpec curList st.historyIndex st.spec
  (satisfied,{
    st with
    historyIndex := st.historyIndex + 1
    spec := spec
    checked := st.checked ++ [(curList,satisfied)] })

/-- The loop over the roots. -/
def checkRoots (helper : HistoryState σ → List Method → Result (Bool × HistoryState σ))
    (stopOnFailure : Bool) (curList : List Method) :
    List Method → Bool → HistoryState σ → Result (Bool × HistoryState σ)
  | [],satisfied,st => .ok (satisfied,st)
  | m :: roots,satisfied,st => do
    let (oneSatisfied,st) ← helper (st.remove m) (curList ++ [m])
    if !oneSatisfied && (st.graph.cyclic || stopOnFailure) then pure (false,st)
    else checkRoots helper stopOnFailure curList roots (satisfied && oneSatisfied) (st.recover m)

def checkAllHistoriesHelper (checkStateSpec : StateSpec σ) (stopOnFailure : Bool) :
    ℕ → HistoryState σ → List Method → Result (Bool × HistoryState σ)
  | 0,_,_ => .error .diverges
  | fuel + 1,st,curList =>
    if st.graph.cyclic then .ok (false,st)
    else if st.numLiveNodes = 0 then .ok (st.check checkStateSpec curList)
    else
      match st.graph.getRootNodes with
      | [] => .ok (false,{ st with graph := { st.graph with cyclic := true } })
      | roots =>
        checkRoots (fun st curList =>
          checkAllHistoriesHelper checkStateSpec stopOnFailure fuel st curList)
          stopOnFailure curList roots true st

/-- `stopOnFailure` is always set to true. Each call of the helper has one live node less. -/
def checkAllHistories (checkStateSpec : StateSpec σ) (justified : σ → Method → Bool)
    (s : σ) (g : ExecutionGraph) : Result (Bool × HistoryState σ) := do
  assert (!g.cyclic)
  let (pass,st) ← checkAllHistoriesHelper checkStateSpec true (g.methodList.length + 1)
    { graph := g,numLiveNodes := g.methodList.length,spec := s } []
  pure (pass && st.graph.methodList.all fun m =>
    (st.graph.methods m).isFakeMethod || justified st.spec m,st)

/-- The recursion of `generateOneRandomHistory`, with any choice among the roots. -/
def generateOneRandomHistoryHelper (pick : List Method → ℕ) :
    ℕ → ExecutionGraph → List Method → ℤ → Result (ExecutionGraph × List Method)
  | 0,_,_,_ => .error .diverges
  | fuel + 1,g,curList,numLiveNodes =>
    if g.cyclic then .ok (g,curList)
    else if numLiveNodes = 0 then .ok (g,curList)
    else
      match g.getRootNodes with
      | [] => .ok ({ g with cyclic := true },curList)
      | root :: roots =>
        let m := (root :: roots).getD (pick (root :: roots) % (roots.length + 1)) root
        generateOneRandomHistoryHelper pick fuel (g.modify m fun c => { c with exist := false })
          (curList ++ [m]) (numLiveNodes - 1)

def recoverAll (g : ExecutionGraph) (ms : List Method) : ExecutionGraph :=
  ms.foldl (fun g m => g.modify m fun c => { c with exist := true }) g

/-- All method calls exist again afterwards. -/
def generateOneRandomHistory (pick : List Method → ℕ) (g : ExecutionGraph) :
    Result (ExecutionGraph × Option (List Method)) := do
  let (g,res) ← generateOneRandomHistoryHelper pick (g.methodList.length + 1)
    g [] g.methodList.length
  if g.cyclic then pure (g,none)
  else pure (g.recoverAll g.methodList,some res)

def hasCycle (pick : List Method → ℕ) (g : ExecutionGraph) (randomHistory : Option (List Method)) :
    Result (Bool × ExecutionGraph × Option (List Method)) :=
  if g.cyclic then .ok (true,g,randomHistory)
  else if randomHistory.isSome then .ok (false,g,randomHistory)
  else do
    let (g,randomHistory) ← g.generateOneRandomHistory pick
    pure (g.cyclic,g,randomHistory)

theorem recoverAll_methodList (g : ExecutionGraph) (ms : List Method) :
    (g.recoverAll ms).methodList = g.methodList := by
  induction ms generalizing g with
  | nil => rfl
  | cons m ms ih => exact ih _

theorem recoverAll_exist {g : ExecutionGraph} {ms : List Method} {x : Method} (hx : x ∈ ms) :
    ((g.recoverAll ms).methods x).exist = true := by
  suffices hall : ∀ ms g, x ∈ ms ∨ (ExecutionGraph.methods g x).exist = true →
      ((g.recoverAll ms).methods x).exist = true from hall ms g (.inl hx)
  intro ms
  induction ms with
  | nil => exact fun g h => h.resolve_left List.not_mem_nil
  | cons m ms ih =>
    intro g h
    refine ih _ ?_
    by_cases hxm : x = m
    · subst hxm
      exact .inr (by simp [modify])
    · rcases h with h | h
      · exact .inl ((List.mem_cons.mp h).resolve_left hxm)
      · exact .inr (by simpa [modify,hxm] using h)

/-- The check comes after `hasCycle`, which leaves no flag cleared. -/
theorem exist_of_hasCycle {pick : List Method → ℕ} {g g' : ExecutionGraph}
    {history : Option (List Method)} (h : g.hasCycle pick none = .ok (false,g',history)) :
    g'.cyclic = false ∧ ∀ m ∈ g'.methodList, (g'.methods m).exist = true := by
  unfold hasCycle at h
  split at h
  · simp at h
  · rw [if_neg (by simp)] at h
    obtain ⟨⟨g₁,res⟩,hgen,h⟩ := bind_eq_ok.mp h
    obtain ⟨hcyclic,rfl,-⟩ : g₁.cyclic = false ∧ g₁ = g' ∧ res = history := by simpa using h
    obtain ⟨⟨g₂,list⟩,-,hgen⟩ := bind_eq_ok.mp hgen
    dsimp only at hgen
    split at hgen
    · rename_i htrue
      obtain ⟨rfl,-⟩ : g₂ = g₁ ∧ none = res := by simpa using hgen
      rw [hcyclic] at htrue
      cases htrue
    · obtain ⟨rfl,-⟩ : recoverAll g₂ g₂.methodList = g₁ ∧ some list = res := by simpa using hgen
      refine ⟨hcyclic,fun m hm => recoverAll_exist ?_⟩
      rwa [recoverAll_methodList] at hm

/-! ### The order -/

variable {g : ExecutionGraph} {cur ms : List Method} {m : Method} {n fuel : ℕ} {st : HistoryState σ}
  {checkStateSpec : StateSpec σ}

def Before (g : ExecutionGraph) (x y : Method) : Prop := x ∈ (g.methods y).allPrev

instance : DecidableRel g.Before := fun x y =>
  inferInstanceAs (Decidable (x ∈ (g.methods y).allPrev))

/-- The graph at the start of the check. -/
structure Histories (g : ExecutionGraph) : Prop where
  nodup : g.methodList.Nodup
  closed : ∀ m ∈ g.methodList, ∀ prev ∈ (g.methods m).allPrev, prev ∈ g.methodList
  acyclic : ∀ m ∈ g.methodList, ¬Relation.TransGen g.Before m m
  exist : ∀ m ∈ g.methodList, (g.methods m).exist = true
  cyclic : g.cyclic = false

/-- The method calls of the list no longer exist. -/
def hide (g : ExecutionGraph) (cur : List Method) : ExecutionGraph :=
  { g with methods := fun m => if m ∈ cur then
    { g.methods m with exist := false } else g.methods m }

theorem hide_nil (g : ExecutionGraph) : g.hide [] = g := by simp [hide]

theorem hide_append (g : ExecutionGraph) (cur : List Method) (m : Method) :
    (g.hide cur).modify m (fun c => { c with exist := false }) = g.hide (cur ++ [m]) := by
  unfold hide modify
  congr 1
  funext x
  by_cases hx : x = m
  · subst hx
    by_cases hcur : x ∈ cur <;> simp [hcur]
  · simp [hx]

theorem hide_recover (hexist : (g.methods m).exist = true) (hnew : m ∉ cur) :
    (g.hide (cur ++ [m])).modify m (fun c => { c with exist := true }) = g.hide cur := by
  unfold hide modify
  congr 1
  funext x
  by_cases hx : x = m
  · subst hx
    simp only [Function.update_self,List.mem_append,List.mem_singleton,or_true,if_true,if_neg hnew]
    rw [← hexist]
  · simp [hx]

namespace Histories

variable (h : g.Histories)

include h

theorem getRootNodes (cur : List Method) :
    (g.hide cur).getRootNodes = roots g.methodList g.Before cur := by
  unfold ExecutionGraph.getRootNodes roots
  apply List.filter_congr
  intro m hm
  have hexist : ∀ x ∈ g.methodList, ((g.hide cur).methods x).exist = decide (x ∉ cur) := by
    intro x hx
    by_cases hcur : x ∈ cur
    · simp [hide,hcur]
    · simp [hide,hcur,h.exist x hx]
  have hprev : ((g.hide cur).methods m).allPrev = (g.methods m).allPrev := by
    unfold hide
    dsimp only
    split <;> rfl
  rw [hexist m hm,hprev,Bool.eq_iff_iff]
  simp only [Bool.and_eq_true,decide_eq_true_eq,List.all_eq_true,Bool.not_eq_true']
  refine and_congr_right fun _ => ⟨fun hall y hy hym => ?_,fun hall y hy => ?_⟩
  · have hy' := hall y hym
    rw [hexist y hy,decide_eq_false_iff_not,not_not] at hy'
    exact hy'
  · have hin := h.closed m hm y hy
    rw [hexist y hin,decide_eq_false_iff_not,not_not]
    exact hall y hin hy

theorem roots_ne_nil (hlen : cur.length < g.methodList.length) :
    roots g.methodList g.Before cur ≠ [] := by
  obtain ⟨m,hm,hnew⟩ : ∃ m ∈ g.methodList, m ∉ cur := by
    by_contra hall
    push Not at hall
    have hle := (List.subperm_of_subset h.nodup hall).length_le
    omega
  refine CdsChecker.roots_ne_nil (fun x hx hcycle => h.acyclic x hx ?_) hm hnew
  have hsub : ∀ a b, a ∈ g.methodList ∧ g.Before a b → g.Before a b := fun _ _ hab => hab.2
  exact Relation.TransGen.mono hsub _ _ hcycle

end Histories

/-! ### The recursion -/

/-- What has been added to the histories checked: it passed if all of them did, and then all of `es`
have been checked and the flags are as before. -/
structure Checked (checkStateSpec : StateSpec σ) (st st' : HistoryState σ) (pass : Bool)
    (es : List (List Method)) : Prop where
  calls : ∃ calls, st'.checked = st.checked ++ calls ∧
    (pass = true ↔ ∀ call ∈ calls, call.2 = true) ∧ (pass = true → calls.map Prod.fst = es) ∧
    ∀ call ∈ calls, ∃ i s, call.2 = (checkStateSpec call.1 i s).1
  graph : pass = true → st'.graph = st.graph
  numLiveNodes : pass = true → st'.numLiveNodes = st.numLiveNodes

/-- The state before the recursion for `cur`. -/
structure Selected (g : ExecutionGraph) (st : HistoryState σ) (cur : List Method) (n : ℕ) :
    Prop where
  graph : st.graph = g.hide cur
  numLiveNodes : st.numLiveNodes = n
  begun : Begun g.methodList g.Before cur
  length : cur.length + n = g.methodList.length

theorem Selected.remove (h : Selected g st cur (n + 1)) (hm : m ∈ roots g.methodList g.Before cur) :
    Selected g (st.remove m) (cur ++ [m]) n where
  graph := by
    rw [HistoryState.remove,h.graph]
    exact hide_append g cur m
  numLiveNodes := by
    rw [HistoryState.remove,h.numLiveNodes]
    push_cast
    omega
  begun := h.begun.append hm
  length := by
    rw [List.length_append,List.length_singleton]
    have hlen := h.length
    omega

theorem recover_eq (hist : g.Histories) (h : Selected g st cur (n + 1))
    (hm : m ∈ roots g.methodList g.Before cur) {st' : HistoryState σ}
    (hgraph : st'.graph = (st.remove m).graph)
    (hlive : st'.numLiveNodes = (st.remove m).numLiveNodes) :
    (st'.recover m).graph = st.graph ∧ (st'.recover m).numLiveNodes = st.numLiveNodes := by
  obtain ⟨hml,hnew,-⟩ := mem_roots.mp hm
  constructor
  · rw [HistoryState.recover,hgraph,(h.remove hm).graph,h.graph]
    exact hide_recover (hist.exist m hml) hnew
  · rw [HistoryState.recover,hlive,HistoryState.remove]
    dsimp only
    omega

theorem checkRoots_spec (hist : g.Histories) (h : Selected g st cur (n + 1))
    {helper : HistoryState σ → List Method → Result (Bool × HistoryState σ)}
    (hhelper : ∀ st m, Selected g st (cur ++ [m]) n → ∃ pass st',
      helper st (cur ++ [m]) = .ok (pass,st') ∧
        Checked checkStateSpec st st' pass (extensions g.methodList g.Before n (cur ++ [m])))
    (hms : ∀ m ∈ ms, m ∈ roots g.methodList g.Before cur) :
    ∃ pass st', checkRoots helper true cur ms true st = .ok (pass,st') ∧
      Checked checkStateSpec st st' pass
      (ms.flatMap fun m => extensions g.methodList g.Before n (cur ++ [m])) := by
  induction ms generalizing st with
  | nil => exact ⟨true,st,rfl,⟨[],by simp⟩,fun _ => rfl,fun _ => rfl⟩
  | cons m ms ih =>
    have hm := hms m (List.mem_cons_self ..)
    obtain ⟨one,st₁,hone,⟨calls₁,hcalls₁,hpass₁,hes₁,hspec₁⟩,hgraph₁,hlive₁⟩ :=
      hhelper _ m (h.remove hm)
    cases one with
    | false =>
      refine ⟨false,st₁,bind_eq_ok.mpr ⟨_,hone,?_⟩,
        ⟨calls₁,hcalls₁,hpass₁,by simp,hspec₁⟩,by simp,by simp⟩
      dsimp only
      rw [if_pos (by simp)]
      rfl
    | true =>
      obtain ⟨hgraph,hlive⟩ := recover_eq hist h hm (hgraph₁ rfl) (hlive₁ rfl)
      have hsel : Selected g (st₁.recover m) cur (n + 1) :=
        ⟨hgraph.trans h.graph,hlive.trans h.numLiveNodes,h.begun,h.length⟩
      obtain ⟨pass,st₂,hrest,⟨calls₂,hcalls₂,hpass₂,hes₂,hspec₂⟩,hgraph₂,hlive₂⟩ :=
        ih hsel fun x hx => hms x (List.mem_cons_of_mem _ hx)
      refine ⟨pass,st₂,bind_eq_ok.mpr ⟨_,hone,?_⟩,⟨calls₁ ++ calls₂,?_,?_,?_,?_⟩,?_,?_⟩
      · dsimp only
        rw [if_neg (by simp)]
        exact hrest
      · rw [hcalls₂]
        change st₁.checked ++ calls₂ = _
        rw [hcalls₁,List.append_assoc]
        rfl
      · simp only [List.forall_mem_append,hpass₂]
        exact ⟨fun hall => ⟨hpass₁.mp rfl,hall⟩,And.right⟩
      · intro hp
        rw [List.map_append,hes₁ rfl,hes₂ hp,List.flatMap_cons]
      · exact List.forall_mem_append.mpr ⟨hspec₁,hspec₂⟩
      · exact fun hp => (hgraph₂ hp).trans hgraph
      · exact fun hp => (hlive₂ hp).trans hlive

theorem checkAllHistoriesHelper_spec (checkStateSpec : StateSpec σ) (hist : g.Histories)
    (h : Selected g st cur n) (hfuel : n < fuel) :
    ∃ pass st', checkAllHistoriesHelper checkStateSpec true fuel st cur = .ok (pass,st') ∧
      Checked checkStateSpec st st' pass (extensions g.methodList g.Before n cur) := by
  induction fuel generalizing st cur n with
  | zero => omega
  | succ fuel ih =>
    have hcyclic : ¬st.graph.cyclic = true := by
      rw [h.graph]
      exact ne_true_of_eq_false hist.cyclic
    rw [checkAllHistoriesHelper,if_neg hcyclic]
    cases n with
    | zero =>
      rw [if_pos (by rw [h.numLiveNodes]; rfl)]
      refine ⟨_,_,rfl,⟨[_],rfl,?_,?_,?_⟩,fun _ => rfl,fun _ => rfl⟩
      · simp
      · simp [extensions]
      · simp only [List.mem_singleton,forall_eq]
        exact ⟨_,_,rfl⟩
    | succ n =>
      have hlive : ¬st.numLiveNodes = 0 := by
        rw [h.numLiveNodes]
        push_cast
        omega
      have hroots : st.graph.getRootNodes = roots g.methodList g.Before cur := by
        rw [h.graph,hist.getRootNodes]
      have hlt : cur.length < g.methodList.length := by
        rw [← h.length]
        omega
      have hne := hist.roots_ne_nil hlt
      rw [if_neg hlive,hroots]
      split
      · rename_i hnil
        exact absurd hnil hne
      · exact checkRoots_spec hist h (fun st m hsel => ih hsel (Nat.lt_of_succ_lt_succ hfuel))
          fun _ hm => hm

/-- All linear extensions are checked, each once, if all that are checked pass; else the check
fails. -/
theorem checkAllHistories_spec (hist : g.Histories) (checkStateSpec : StateSpec σ)
    (justified : σ → Method → Bool) (s : σ) :
    ∃ pass st, checkAllHistories checkStateSpec justified s g = .ok (pass,st) ∧
      ((∀ call ∈ st.checked, call.2 = true) → (st.checked.map Prod.fst).Nodup ∧
        (∀ e, e ∈ st.checked.map Prod.fst ↔ LinearExtension g.methodList g.Before e) ∧
        st.graph = g ∧ st.numLiveNodes = g.methodList.length) ∧
      ((∃ call ∈ st.checked, call.2 = false) → pass = false) ∧
      ((∃ e, LinearExtension g.methodList g.Before e ∧ ∀ i s', (checkStateSpec e i s').1 = false) →
        pass = false) := by
  have hsel : Selected g { graph := g,numLiveNodes := g.methodList.length,spec := s } []
      g.methodList.length := ⟨(hide_nil g).symm,rfl,begun_nil,by simp⟩
  obtain ⟨pass,st,hhelper,⟨calls,hcalls,hpass,hes,hspec⟩,hgraph,hlive⟩ :=
    checkAllHistoriesHelper_spec checkStateSpec hist hsel (Nat.lt_succ_self _)
  have hchecked : st.checked = calls := by simpa using hcalls
  have hresult : checkAllHistories checkStateSpec justified s g =
      .ok (pass && st.graph.methodList.all fun m =>
        (st.graph.methods m).isFakeMethod || justified st.spec m,st) :=
    bind_eq_ok.mpr ⟨(),assert_eq_ok.mpr (by simp [hist.cyclic]),bind_eq_ok.mpr ⟨_,hhelper,rfl⟩⟩
  have hmem : ∀ e, e ∈ extensions g.methodList g.Before g.methodList.length [] ↔
      LinearExtension g.methodList g.Before e := by
    intro e
    rw [mem_extensions hist.nodup begun_nil (by simp)]
    simp
  have hall : (∀ call ∈ calls, call.2 = true) →
      calls.map Prod.fst = extensions g.methodList g.Before g.methodList.length [] :=
    fun hall => hes (hpass.mpr hall)
  have hfail : pass = false → (pass && st.graph.methodList.all fun m =>
      (st.graph.methods m).isFakeMethod || justified st.spec m) = false := by
    rintro rfl
    rfl
  refine ⟨_,st,hresult,?_,?_,?_⟩
  · rw [hchecked]
    intro hpassed
    refine ⟨?_,fun e => ?_,hgraph (hpass.mpr hpassed),hlive (hpass.mpr hpassed)⟩
    · rw [hall hpassed]
      exact nodup_extensions hist.nodup
    · rw [hall hpassed,hmem]
  · rw [hchecked]
    rintro ⟨call,hcall,hfalse⟩
    refine hfail (eq_false_of_ne_true fun htrue => ?_)
    rw [hpass.mp htrue call hcall] at hfalse
    cases hfalse
  · rintro ⟨e,hext,hfalse⟩
    refine hfail (eq_false_of_ne_true fun htrue => ?_)
    -- the failing history is among those checked
    have hin : e ∈ calls.map Prod.fst := by
      rw [hall (hpass.mp htrue)]
      exact (hmem e).mpr hext
    obtain ⟨call,hcall,rfl⟩ := List.mem_map.mp hin
    obtain ⟨i,s',hcallspec⟩ := hspec call hcall
    rw [hfalse i s',hpass.mp htrue call hcall] at hcallspec
    cases hcallspec

/-- Two calls without an order between a start and a finish. -/
def diamond : ExecutionGraph where
  acts := fun _ => { type := .atomicRead,order := .relaxed,location := .null,tid := 1 }
  methods := fun m => {
    name := if m = 0 then .start else if m = 3 then .finish else .interface m
    allPrev := if m = 0 then .empty else if m = 3 then
      ((MethodSet.empty.insert 0).insert 1).insert 2
      else MethodSet.empty.insert 0 }
  methodList := [0,1,2,3]

theorem diamond_histories : diamond.Histories := by
  have hlt : ∀ x y, diamond.Before x y → x < y := by
    intro x y hxy
    unfold Before diamond at hxy
    dsimp only at hxy
    split at hxy
    · exact absurd hxy MethodSet.not_mem_empty
    · split at hxy
      · rename_i hy
        subst hy
        simp only [MethodSet.mem_insert,MethodSet.not_mem_empty,false_or] at hxy
        rcases hxy with (rfl | rfl) | rfl <;> decide
      · rename_i hy _
        simp only [MethodSet.mem_insert,MethodSet.not_mem_empty,false_or] at hxy
        subst hxy
        exact Nat.pos_of_ne_zero hy
  refine ⟨by decide,by decide,fun m _ hcycle => ?_,by decide,rfl⟩
  suffices hpath : ∀ x y, Relation.TransGen diamond.Before x y → x < y from
    Nat.lt_irrefl m (hpath m m hcycle)
  intro x y hpath
  induction hpath with
  | single hxy => exact hlt _ _ hxy
  | tail _ hxy ih => exact Nat.lt_trans ih (hlt _ _ hxy)

theorem checkAllHistories_spec_diamond : diamond.Histories ∧
    ∃ pass st, checkAllHistories (fun _ _ s => (true,s)) (fun _ _ => true) () diamond =
      .ok (pass,st) ∧
      (st.checked.map Prod.fst).Nodup ∧
      (∀ e, e ∈ st.checked.map Prod.fst ↔ LinearExtension diamond.methodList diamond.Before e) ∧
      st.graph = diamond ∧ st.numLiveNodes = 4 := by
  obtain ⟨pass,st,hresult,hall,-,-⟩ :=
    checkAllHistories_spec diamond_histories (fun _ _ s => (true,s)) (fun _ _ => true) ()
  have hpassed : ∃ pass st, checkAllHistories (fun _ _ s => (true,s)) (fun _ _ => true) () diamond =
      .ok (pass,st) ∧ ∀ call ∈ st.checked, call.2 = true := ⟨_,_,rfl,by decide⟩
  obtain ⟨pass',st',hresult',hpassed⟩ := hpassed
  rw [hresult] at hresult'
  cases hresult'
  obtain ⟨hnodup,hexact,hgraph,hlive⟩ := hall hpassed
  exact ⟨diamond_histories,pass,st,hresult,hnodup,hexact,hgraph,hlive⟩

end CdsChecker.ExecutionGraph
