import CdsChecker.ScBuild
import CdsChecker.ScVerdict

/-! What the analysis starts over with: after a rollback, and when it becomes the slow version. -/
namespace CdsChecker
namespace SCAnalysis

variable {e : Execution} {s s' : SCAnalysis} {n : ℕ} {acts : List ActionId}

/-- The action leaves its thread. -/
def takeAct (e : Execution) (s : SCAnalysis) (act : ActionId) : SCAnalysis :=
  { s with threadlists := s.threadlists.modify (e.acts act).tid List.tail }

theorem choose_s {b b' : Build} {array : List ActionId} {act : ActionId}
    (h : choose e b array = .ok (act,b')) : b'.s = b.s := by
  unfold choose at h
  split at h
  · cases h
    rfl
  · obtain ⟨_,-,h⟩ := bind_eq_ok.mp h
    cases h
    rfl

/-- The new constraints are there, and what follows from them. -/
structure Constrained (e : Execution) (n : ℕ) (acts : List ActionId) (b : Build)
    (array : List ActionId) (b₁ : Build) (act : ActionId) (s₁ s₂ : SCAnalysis) (changed : Bool) :
    Prop where
  choose : choose e b array = .ok (act,b₁)
  constraints : (takeAct e b.s act).updateConstraints e act = .ok (s₁,changed)
  compute : if changed then s₁.computeCV e n acts = .ok s₂ else s₂ = s₁

/-- A step rolls back, or gives up, or adds an action to the list. -/
theorem generateStep_cases {b b' : Build} {array : List ActionId} {stop : Bool}
    (h : generateStep e n acts array b = .ok (b',stop)) : ∃ b₁ act s₁ s₂ changed,
      Constrained e n acts b array b₁ act s₁ s₂ changed ∧
      ((∃ lastchoice, changed = true ∧ s₁.cyclic = false ∧ s₂.cyclic = true ∧
          b₁.lastchoice = some lastchoice ∧ stop = false ∧
          rollBack e n acts { b₁ with s := s₂ } lastchoice = .ok b') ∨
        (stop = true ∧ b' = { b₁ with s := { s₂ with fastVersion := false } }) ∨
        (stop = false ∧ b' = { b₁ with s := s₂,sclist := b₁.sclist ++ [act] })) := by
  obtain ⟨⟨act,b₁⟩,hchoose,h⟩ := bind_eq_ok.mp h
  obtain ⟨⟨s₁,changed⟩,hconstraints,h⟩ := bind_eq_ok.mp h
  dsimp only at hconstraints h
  rw [choose_s hchoose] at hconstraints
  cases changed with
  | true =>
    rw [if_pos rfl] at h
    obtain ⟨s₂,hcompute,h⟩ := bind_eq_ok.mp h
    refine ⟨b₁,act,s₁,s₂,true,⟨hchoose,hconstraints,hcompute⟩,?_⟩
    split at h
    · rename_i hcycle
      simp only [Bool.true_and,Bool.and_eq_true,Bool.not_eq_true'] at hcycle
      cases hlast : b₁.lastchoice with
      | some lastchoice =>
        rw [hlast] at h
        obtain ⟨b₂,hroll,h⟩ := bind_eq_ok.mp h
        cases h
        exact .inl ⟨lastchoice,rfl,hcycle.1,hcycle.2,rfl,rfl,hroll⟩
      | none =>
        rw [hlast] at h
        cases h
        exact .inr (.inl ⟨rfl,rfl⟩)
    · cases h
      exact .inr (.inr ⟨rfl,rfl⟩)
  | false =>
    rw [if_neg Bool.false_ne_true] at h
    cases h
    exact ⟨b₁,act,s₁,s₁,false,⟨hchoose,hconstraints,rfl⟩,.inr (.inr ⟨rfl,rfl⟩)⟩

/-- The builds that the loop of one pass comes to. -/
inductive Reaches (e : Execution) (n : ℕ) (acts : List ActionId) (s : SCAnalysis) : Build → Prop
  | start {s₁ s₂ : SCAnalysis} (hbuild : buildVectors e acts s = .ok s₁)
      (hcompute : s₁.computeCV e n acts = .ok s₂) (hgo : (s₂.fastVersion && s₂.cyclic) = false) :
      Reaches e n acts s { s := s₂,choices := List.replicate acts.length 0 }
  | step {b b' : Build} {array : List ActionId} (h : Reaches e n acts s b)
      (harray : b.s.getNextActions e = .ok array) (hne : array ≠ [])
      (hstep : generateStep e n acts array b = .ok (b',false)) : Reaches e n acts s b'

/-- The states that the passes of the analysis start in. -/
inductive Starts (e : Execution) (n : ℕ) (acts : List ActionId) : SCAnalysis → Prop
  | fast : Starts e n acts {}
  | slow {s : SCAnalysis} {list : Option (List ActionId)}
      (hgenerate : generateSC e n acts {} = .ok (s,list)) (hcycle : s.cyclic = true) :
      Starts e n acts { reset acts s with fastVersion := false }

/-- The states that are reset, with the mode that the analysis goes on in. -/
inductive Restarts (e : Execution) (n : ℕ) (acts : List ActionId) : SCAnalysis → Bool → Prop
  | slow {s : SCAnalysis} {list : Option (List ActionId)}
      (hgenerate : generateSC e n acts {} = .ok (s,list)) (hcycle : s.cyclic = true) :
      Restarts e n acts s false
  | rollBack {s₀ s₁ s₂ : SCAnalysis} {b b₁ : Build} {array : List ActionId} {act : ActionId}
      {lastchoice : ℕ} (hstart : Starts e n acts s₀) (hb : Reaches e n acts s₀ b)
      (harray : b.s.getNextActions e = .ok array) (hne : array ≠ [])
      (hconstrained : Constrained e n acts b array b₁ act s₁ s₂ true) (hbefore : s₁.cyclic = false)
      (hcycle : s₂.cyclic = true) (hlast : b₁.lastchoice = some lastchoice) :
      Restarts e n acts s₂ s₂.fastVersion

structure SameBuild (s s' : SCAnalysis) : Prop where
  threadlists : s.threadlists = s'.threadlists
  cvmap : s.cvmap = s'.cvmap
  writeMap : s.writeMap = s'.writeMap
  nodeMap : s.nodeMap = s'.nodeMap
  updateSet : s.updateSet = s'.updateSet
  updateSetSize : s.updateSetSize = s'.updateSetSize

/-- `reset` and `buildVectors` do what `buildVectors` does on a new analysis. -/
def StartsOver (e : Execution) (acts : List ActionId) (s : SCAnalysis) (fastVersion : Bool) :
    Prop :=
  ∀ s₁ s₂, buildVectors e acts { reset acts s with fastVersion := fastVersion } = .ok s₁ →
    buildVectors e acts { fastVersion := fastVersion } = .ok s₂ → SameBuild s₁ s₂

/-! ### What a pass keeps -/

/-- What the steps of a pass keep of its states. -/
structure Kept (e : Execution) (acts : List ActionId) (p : SCAnalysis → Prop) : Prop where
  constraints : ∀ s s' act c, p s → s.updateConstraints e act = .ok (s',c) → p s'
  compute : ∀ s s' n, p s → s.computeCV e n acts = .ok s' → p s'
  take : ∀ s act, p s → p (takeAct e s act)
  restart : ∀ s s', p s → buildVectors e acts (reset acts s) = .ok s' → p s'

variable {p : SCAnalysis → Prop}

/-- What the lists, the edges and the mode say. -/
theorem Kept.of_frame (frame : ∀ s s', p s → Frame s s' → p s')
    (take : ∀ s act, p s → p (takeAct e s act))
    (restart : ∀ s s', p s → buildVectors e acts (reset acts s) = .ok s' → p s') :
    Kept e acts p where
  constraints _ _ _ _ h hconstraints := frame _ _ h (updateConstraints_frame hconstraints)
  compute _ _ _ h hcompute := frame _ _ h (computeCV_frame hcompute)
  take := take
  restart := restart

theorem Kept.constrained (h : Kept e acts p) {b b₁ : Build} {array : List ActionId} {act : ActionId}
    {s₁ s₂ : SCAnalysis} {changed : Bool} (hc : Constrained e n acts b array b₁ act s₁ s₂ changed)
    (hb : p b.s) : p s₂ := by
  have h₁ := h.constraints _ _ _ _ (h.take b.s act hb) hc.constraints
  have hcompute := hc.compute
  cases changed with
  | true => exact h.compute _ _ _ h₁ hcompute
  | false => exact hcompute ▸ h₁

theorem Kept.step (h : Kept e acts p) {b b' : Build} {array : List ActionId} {stop : Bool}
    (hstep : generateStep e n acts array b = .ok (b',stop)) (hb : p b.s) :
    (stop = false → p b'.s) ∧
      (stop = true → ∃ s, p s ∧ b'.s = { s with fastVersion := false }) := by
  obtain ⟨b₁,act,s₁,s₂,changed,hc,hcase⟩ := generateStep_cases hstep
  have hkept := h.constrained hc hb
  rcases hcase with ⟨last,-,-,-,-,rfl,hroll⟩ | ⟨rfl,rfl⟩ | ⟨rfl,rfl⟩
  · refine ⟨fun _ => ?_,fun hstop => absurd hstop Bool.false_ne_true⟩
    obtain ⟨t,hbuild,hroll⟩ := bind_eq_ok.mp hroll
    obtain ⟨t',hcompute,hroll⟩ := bind_eq_ok.mp hroll
    cases hroll
    exact h.compute _ _ _ (h.restart _ _ hkept hbuild) hcompute
  · exact ⟨fun hstop => Bool.noConfusion hstop,fun _ => ⟨s₂,hkept,rfl⟩⟩
  · exact ⟨fun _ => hkept,fun hstop => absurd hstop Bool.false_ne_true⟩

theorem Kept.reaches (h : Kept e acts p)
    (hstart : ∀ s', buildVectors e acts s = .ok s' → p s') {b : Build} (hb : Reaches e n acts s b) :
    p b.s := by
  induction hb with
  | start hbuild hcompute hgo => exact h.compute _ _ _ (hstart _ hbuild) hcompute
  | step _ harray hne hstep ih => exact (h.step hstep ih).1 rfl

theorem Kept.generateLoop (h : Kept e acts p) (hmode : ∀ s, p s → p { s with fastVersion := false })
    {m : ℕ} {b b' : Build} (hloop : generateLoop e n acts m b = .ok b') (hb : p b.s) : p b'.s := by
  induction m generalizing b with
  | zero => cases hloop
  | succ m ih =>
    obtain ⟨array,-,hloop⟩ := bind_eq_ok.mp hloop
    split at hloop
    · cases hloop
      exact hb
    · obtain ⟨⟨b₁,stop⟩,hstep,hloop⟩ := bind_eq_ok.mp hloop
      have hkept := h.step hstep hb
      cases stop with
      | true =>
        cases hloop
        obtain ⟨t,ht,heq⟩ := hkept.2 rfl
        exact heq ▸ hmode t ht
      | false => exact ih hloop (hkept.1 rfl)

theorem Kept.generateSC (h : Kept e acts p) (hmode : ∀ s, p s → p { s with fastVersion := false })
    (hstart : ∀ s', buildVectors e acts s = .ok s' → p s') {list : Option (List ActionId)}
    (hgenerate : generateSC e n acts s = .ok (s',list)) : p s' := by
  obtain ⟨s₁,hbuild,hgenerate⟩ := bind_eq_ok.mp hgenerate
  obtain ⟨s₂,hcompute,hgenerate⟩ := bind_eq_ok.mp hgenerate
  have hkept := h.compute _ _ _ (hstart _ hbuild) hcompute
  split at hgenerate
  · cases hgenerate
    exact hkept
  · obtain ⟨b,hloop,hgenerate⟩ := bind_eq_ok.mp hgenerate
    cases hgenerate
    exact h.generateLoop hmode hloop hkept

/-! ### The passes -/

/-- In the fast pass. -/
structure InFast (e : Execution) (acts : List ActionId) (s : SCAnalysis) : Prop extends
    Settled e acts s where
  holds : HoldsOnly acts s
  fast : s.fastVersion = true

theorem InFast.of_build (hholds : HoldsOnly acts s) (hfast : s.fastVersion = true)
    (hbuild : buildVectors e acts s = .ok s') : InFast e acts s' := by
  rw [buildVectors] at hbuild
  dsimp only at hbuild
  rw [if_pos hfast] at hbuild
  have hstart : HoldsOnly acts { s with maxthreads := 0 } := hholds
  obtain ⟨hheld,hmode⟩ := buildVectors_holdsOnly hstart (fun a ha => ha) hbuild
  exact ⟨build_settled hbuild,hheld,hmode.trans hfast⟩

theorem InFast.of_frame (h : InFast e acts s) (hframe : Frame s s') : InFast e acts s' :=
  ⟨h.toSettled.of_writeMap hframe.writeMap,h.holds.of_threadlists hframe.threadlists,
    hframe.fastVersion.trans h.fast⟩

theorem InFast.take (h : InFast e acts s) (act : ActionId) : InFast e acts (takeAct e s act) :=
  ⟨h.toSettled.of_writeMap rfl,h.holds.take _,h.fast⟩

theorem inFast_kept : Kept e acts (InFast e acts) :=
  .of_frame (fun _ _ h hframe => h.of_frame hframe) (fun _ act h => h.take act)
    fun _ _ h hbuild => .of_build h.holds.reset h.fast hbuild

theorem holdsOnly_init : HoldsOnly acts {} := by
  intro l hl a ha
  rw [List.mem_singleton.mp hl] at ha
  cases ha

/-- In the slow pass, which has the lists of writes of the fast one still. -/
structure InSlow (s : SCAnalysis) : Prop where
  left : ∃ l, s.writeMap l ≠ []
  slow : s.fastVersion = false

theorem foldl_buildSlow (s : SCAnalysis) (part : List ActionId) :
    (part.foldl (buildSlow e) s).writeMap = s.writeMap ∧
      (part.foldl (buildSlow e) s).fastVersion = s.fastVersion := by
  induction part generalizing s with
  | nil => exact ⟨rfl,rfl⟩
  | cons act part ih =>
    rw [List.foldl_cons,(ih _).1,(ih _).2]
    constructor
    · exact (growThreads_writeMap _ _).trans (ensureCV_writeMap e s act)
    · rw [buildSlow,pushBack,← (ensureCV_sameThreads e s act).fastVersion]
      unfold growThreads
      split <;> rfl

theorem buildVectors_slow (hslow : s.fastVersion = false)
    (hbuild : buildVectors e acts s = .ok s') :
    s'.writeMap = s.writeMap ∧ s'.fastVersion = false := by
  rw [buildVectors] at hbuild
  dsimp only at hbuild
  rw [if_neg (by simp [hslow])] at hbuild
  cases hbuild
  obtain ⟨hmap,hmode⟩ := foldl_buildSlow (e := e) { s with maxthreads := 0 } acts
  exact ⟨hmap,hmode.trans hslow⟩

theorem InSlow.of_build (h : InSlow s) (hbuild : buildVectors e acts s = .ok s') : InSlow s' := by
  obtain ⟨hmap,hmode⟩ := buildVectors_slow h.slow hbuild
  exact ⟨hmap ▸ h.left,hmode⟩

theorem inSlow_kept : Kept e acts InSlow :=
  .of_frame (fun _ _ h hframe => ⟨hframe.writeMap ▸ h.left,hframe.fastVersion.trans h.slow⟩)
    (fun _ _ h => ⟨h.left,h.slow⟩)
    fun s _ h hbuild => InSlow.of_build (s := reset acts s) ⟨h.left,h.slow⟩ hbuild

theorem settled_kept : Kept e acts (Settled e acts) := by
  refine .of_frame (fun _ _ h hframe => h.of_writeMap hframe.writeMap)
    (fun _ _ h => h.of_writeMap rfl) ?_
  intro s s' h hbuild
  cases hmode : s.fastVersion with
  | true =>
    rw [buildVectors] at hbuild
    dsimp only at hbuild
    rw [if_pos (show (reset acts s).fastVersion = true from hmode)] at hbuild
    exact build_settled hbuild
  | false => exact h.of_writeMap (buildVectors_slow (s := reset acts s) hmode hbuild).1

theorem Reaches.built {b : Build} (h : Reaches e n acts s b) :
    ∃ s', buildVectors e acts s = .ok s' := by
  induction h with
  | start hbuild => exact ⟨_,hbuild⟩
  | step _ _ _ _ ih => exact ih

/-- A constraint comes from a write that is still in its thread's list. -/
theorem orderThread_write {act : ActionId} {list : List ActionId}
    (h : orderThread e act list s = .ok (s',true)) : ∃ w ∈ list, (e.acts w).isWrite = true := by
  induction list with
  | nil => cases h
  | cons write rest ih =>
    rw [orderThread] at h
    by_cases hwrite : (e.acts write).isWrite = true
    · exact ⟨write,by simp,hwrite⟩
    · rw [if_pos (by simpa using hwrite)] at h
      obtain ⟨w,hw,hisWrite⟩ := ih h
      exact ⟨w,List.mem_cons_of_mem _ hw,hisWrite⟩

theorem mem_threadlists_of_mem {t : ThreadId} {a : ActionId} (h : a ∈ s.threadlist t) :
    ∃ l ∈ s.threadlists, a ∈ l := by
  rw [threadlist,List.getD_eq_getElem?_getD] at h
  cases hl : s.threadlists[t]? with
  | none => simp [hl] at h
  | some l =>
    rw [hl] at h
    exact ⟨l,List.mem_of_getElem? hl,h⟩

theorem orderThreads_write {act : ActionId} {tids : List ThreadId}
    (h : orderThreads e act tids s = .ok (s',true)) :
    ∃ l ∈ s.threadlists, ∃ w ∈ l, (e.acts w).isWrite = true := by
  induction tids generalizing s with
  | nil => cases h
  | cons tid tids ih =>
    rw [orderThreads] at h
    split at h
    · exact ih h
    · obtain ⟨⟨s₁,c₁⟩,hthread,h⟩ := bind_eq_ok.mp h
      obtain ⟨⟨s₂,c₂⟩,hthreads,h⟩ := bind_eq_ok.mp h
      cases c₁ with
      | true =>
        obtain ⟨w,hw,hisWrite⟩ := orderThread_write hthread
        obtain ⟨l,hl,hmem⟩ := mem_threadlists_of_mem hw
        exact ⟨l,hl,w,hmem,hisWrite⟩
      | false =>
        cases c₂ with
        | true =>
          obtain ⟨rfl,-⟩ := Prod.mk.inj (Except.ok.inj h)
          rw [← ((frame_kept s).orderThread hthread (.refl s)).threadlists]
          exact ih hthreads
        | false => cases h

/-- Nothing is cyclic where there is nothing. -/
theorem generateSC_nil {list : Option (List ActionId)} (h : generateSC e n [] {} = .ok (s,list)) :
    s.cyclic = false := by
  cases n with
  | zero => cases h
  | succ n =>
    obtain ⟨s₁,hbuild,h⟩ := bind_eq_ok.mp h
    cases hbuild
    obtain ⟨s₂,hcompute,h⟩ := bind_eq_ok.mp h
    cases hcompute
    obtain ⟨b,hloop,h⟩ := bind_eq_ok.mp h
    cases hloop
    cases h
    rfl

theorem Settled.left (h : Settled e acts s) (hne : acts ≠ []) : ∃ l, s.writeMap l ≠ [] := by
  obtain ⟨a,ha⟩ := List.exists_mem_of_ne_nil acts hne
  refine ⟨(e.acts a).location,fun hempty => ?_⟩
  have hroom := h.room a ha
  rw [hempty] at hroom
  exact absurd hroom (Nat.not_lt_zero _)

/-- What is left of the fast pass when the analysis changes to the slow one. -/
theorem left_of_generateSC {list : Option (List ActionId)}
    (hgenerate : generateSC e n acts {} = .ok (s,list)) (hcycle : s.cyclic = true) :
    ∃ l, s.writeMap l ≠ [] := by
  have hsettled : Settled e acts s := settled_kept.generateSC (fun s h => h.of_writeMap rfl)
    (fun s' hbuild => (InFast.of_build holdsOnly_init rfl hbuild).toSettled) hgenerate
  apply hsettled.left
  rintro rfl
  rw [generateSC_nil hgenerate] at hcycle
  cases hcycle

/-- A slow start that finds lists of writes is not a new one. -/
theorem not_startsOver_slow (h : ∃ l, s.writeMap l ≠ []) : ¬ StartsOver e acts s false := by
  intro hover
  obtain ⟨l,hl⟩ := h
  have hsame := (hover _ _ rfl rfl).writeMap
  rw [(foldl_buildSlow _ acts).1,(foldl_buildSlow _ acts).1] at hsame
  exact hl (congrFun hsame l)

/-- A fast start that finds the writes of the last one has them twice. -/
theorem not_startsOver_fast (h : Settled e acts s) {w : ActionId} (hmem : w ∈ acts)
    (hwrite : (e.acts w).isWrite = true) (hfresh : ∃ s', buildVectors e acts {} = .ok s') :
    ¬ StartsOver e acts s true := by
  intro hover
  obtain ⟨s₂,hbuild₂⟩ := hfresh
  have hsettled : Settled e acts { reset acts s with fastVersion := true,maxthreads := 0 } :=
    h.of_writeMap rfl
  obtain ⟨s₁,hbuild₁⟩ := hsettled.rebuild fun a ha => ha
  have hsame := (hover s₁ s₂ hbuild₁ hbuild₂).writeMap
  have h₁ := buildVectors_writes hbuild₁ (e.acts w).location (e.acts w).tid
  have h₂ := buildVectors_writes (s := {}) hbuild₂ (e.acts w).location (e.acts w).tid
  rw [writes,hsame,← writes,h₂] at h₁
  have hlen := congrArg List.length h₁
  rw [List.length_append,List.length_append] at hlen
  have hold := List.length_pos_of_mem (h.written w hmem hwrite)
  have hnone : (({} : SCAnalysis).writes (e.acts w).location (e.acts w).tid).length = 0 := rfl
  have hleft : ({ reset acts s with fastVersion := true,maxthreads := 0 } : SCAnalysis).writes
      (e.acts w).location (e.acts w).tid = s.writes (e.acts w).location (e.acts w).tid := rfl
  rw [hnone,hleft] at hlen
  omega

/-- The analysis never starts over: the lists of writes stay. -/
theorem restarts_not_startsOver (e : Execution) (n : ℕ) (acts : List ActionId) (s : SCAnalysis)
    (fastVersion : Bool) (h : Restarts e n acts s fastVersion) :
    ¬ StartsOver e acts s fastVersion := by
  cases h with
  | slow hgenerate hcycle => exact not_startsOver_slow (left_of_generateSC hgenerate hcycle)
  | rollBack hstart hb harray hne hconstrained hbefore hcycle hlast =>
    cases hstart with
    | fast =>
      have hkept := inFast_kept.reaches (fun _ => InFast.of_build holdsOnly_init rfl) hb
      have hrolled := inFast_kept.constrained hconstrained hkept
      obtain ⟨l,hl,w,hw,hwrite⟩ := orderThreads_write hconstrained.constraints
      rw [hrolled.fast]
      exact not_startsOver_fast hrolled.toSettled (hkept.holds.take _ l hl w hw) hwrite hb.built
    | slow hgenerate hcycle₀ =>
      have hleft := left_of_generateSC hgenerate hcycle₀
      have hkept := inSlow_kept.reaches (s := { reset acts _ with fastVersion := false })
        (fun _ => InSlow.of_build ⟨hleft,rfl⟩) hb
      have hrolled := inSlow_kept.constrained hconstrained hkept
      rw [hrolled.slow]
      exact not_startsOver_slow hrolled.left

open Input in
/-- Two threads read what the other one stores afterwards. The addresses were mutexes first, so that
there are no uninitialized actions. -/
def loadBuffering : List Input :=
  [ofThread .threadStart 1,go 1 {},.constructMutex 10,.constructMutex 11,
    ofObject .atomicLock 10,go 1 {},ofObject .atomicUnlock 10,go 1 {},
    ofObject .atomicLock 11,go 1 {},ofObject .atomicUnlock 11,go 1 {},
    store .relaxed 10 0,go 1 {},store .relaxed 11 0,go 1 {},
    ofObject .threadCreate 100,go 1 {},ofObject .threadCreate 101,
    ofThread .threadStart 2,go 2 {},ofThread .threadFinish 2,go 1 {},load .relaxed 10,
    ofThread .threadStart 3,go 3 {},load .relaxed 11,
    .takeStep 1 false { readFrom := .future ⟨1,100,3⟩ },store .relaxed 11 1,go 1 {},
    ofThread .threadFinish 1,go 3 { readFrom := .past 12 },store .relaxed 10 1,
    go 3 { promise := some 0 },ofThread .threadFinish 3,go 1 {},go 2 {},go 3 {}]

theorem loadBuffering_cyclic : ∃ c, Config.Reachable {} c ∧ c.exec.isfeasibleprefix = true ∧
    c.exec.isCompleteExecution {} = true ∧
    ∃ s list, generateSC c.exec 40 c.exec.actionTrace {} = .ok (s,list) ∧ s.cyclic = true := by
  obtain ⟨c,hc,hplay⟩ := Config.exists_play {} loadBuffering
    (fun c => c.exec.isfeasibleprefix = true ∧ c.exec.isCompleteExecution {} = true ∧
      ((generateSC c.exec 40 c.exec.actionTrace {}).toOption.any fun r => r.1.cyclic) = true)
    (by decide +kernel)
  obtain ⟨hfeasible,hcomplete,hcycle⟩ := of_decide_eq_true hplay
  cases hgenerate : generateSC c.exec 40 c.exec.actionTrace {} with
  | error failure => simp [hgenerate,Except.toOption] at hcycle
  | ok r =>
    rw [hgenerate] at hcycle
    exact ⟨c,hc,hfeasible,hcomplete,r.1,r.2,hgenerate,hcycle⟩

theorem restarts_not_startsOver_loadBuffering : ∃ c, Config.Reachable {} c ∧
    ∃ s, ¬ StartsOver c.exec c.exec.actionTrace s false := by
  obtain ⟨c,hc,-,-,s,list,hgenerate,hcycle⟩ := loadBuffering_cyclic
  exact ⟨c,hc,s,restarts_not_startsOver _ 40 _ s false (.slow hgenerate hcycle)⟩

/-- The fast pass finds the cycle, and the slow one begins with its lists of writes. -/
theorem loadBuffering_not_startsOver : ¬ ∀ params c, Config.Reachable params c →
    c.exec.isfeasibleprefix = true → c.exec.isCompleteExecution params = true →
    ∀ n s fastVersion, Restarts c.exec n c.exec.actionTrace s fastVersion →
      StartsOver c.exec c.exec.actionTrace s fastVersion := by
  intro hall
  obtain ⟨c,hc,hfeasible,hcomplete,s,list,hgenerate,hcycle⟩ := loadBuffering_cyclic
  have hleft := left_of_generateSC hgenerate hcycle
  exact not_startsOver_slow hleft
    (hall {} c hc hfeasible hcomplete 40 s false (.slow hgenerate hcycle))

end SCAnalysis
end CdsChecker
