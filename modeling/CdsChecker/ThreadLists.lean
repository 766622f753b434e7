import CdsChecker.TraceRecord
import CdsChecker.OrderFrame

/-! The lists of the actions of each thread on each location. -/
namespace CdsChecker
namespace Execution

/-- The actions of a thread on a location, oldest first. -/
def objThrd (e : Execution) (l : Location) (t : ThreadId) : List ActionId :=
  ((e.objThrdMap l)[t]?).getD []

theorem getD_resizeUp {α : Type} (l : List (List α)) (size i : ℕ) :
    ((resizeUp l size [])[i]?).getD [] = (l[i]?).getD [] := by
  rw [resizeUp]
  by_cases hi : i < l.length
  · rw [List.getElem?_append_left hi]
  · rw [List.getElem?_append_right (Nat.le_of_not_lt hi),List.getElem?_replicate,
      List.getElem?_eq_none (Nat.le_of_not_lt hi)]
    split <;> rfl

theorem pushObjThrd_room {e : Execution} {act : ActionId}
    (htid : (e.acts act).tid < e.getNumThreads) (loc : Location) :
    (e.acts act).tid < ((e.pushObjThrd loc act).objThrdMap loc).length := by
  simp only [pushObjThrd,Function.update_self,List.length_modify]
  split
  · rw [length_resizeUp]
    exact Nat.lt_of_lt_of_le htid (Nat.le_max_right _ _)
  · rename_i hlen
    exact Nat.lt_of_not_le hlen

theorem pushObjThrd_objThrd {e : Execution} {act : ActionId}
    (htid : (e.acts act).tid < e.getNumThreads) (loc l : Location) (t : ThreadId) :
    (e.pushObjThrd loc act).objThrd l t =
      e.objThrd l t ++ if loc = l ∧ (e.acts act).tid = t then [act] else [] := by
  by_cases hl : l = loc
  · subst hl
    set vec := if (e.objThrdMap l).length ≤ (e.acts act).tid then
      resizeUp (e.objThrdMap l) e.getNumThreads [] else e.objThrdMap l with hvec
    have hsame : ∀ i : ℕ, (vec[i]?).getD [] = e.objThrd l i := by
      intro i
      rw [hvec]
      split
      · exact getD_resizeUp _ _ _
      · rfl
    have hroom : (e.acts act).tid < vec.length := by
      rw [hvec]
      split
      · rw [length_resizeUp]
        exact Nat.lt_of_lt_of_le htid (Nat.le_max_right _ _)
      · rename_i hlen
        exact Nat.lt_of_not_le hlen
    have hnew : (e.pushObjThrd l act).objThrd l t =
        ((vec.modify (e.acts act).tid fun m => m ++ [act])[t]?).getD [] := by
      simp [pushObjThrd,objThrd,hvec]
    rw [hnew,List.getElem?_modify]
    by_cases ht : (e.acts act).tid = t
    · subst ht
      have hold := hsame (e.acts act).tid
      rw [List.getElem?_eq_getElem hroom] at hold ⊢
      simp only [Option.getD_some] at hold
      simp [hold]
    · rw [if_neg fun h => ht h.2,List.append_nil,← hsame t]
      cases vec[t]? <;> simp [ht]
  · simp [pushObjThrd,objThrd,hl,Ne.symm hl]

theorem pushUninit_objThrd {e : Execution} {loc : Location} (hroom : 0 < (e.objThrdMap loc).length)
    (uninit : ActionId) (l : Location) (t : ThreadId) :
    (e.pushUninit loc uninit).objThrd l t =
      (if loc = l ∧ t = 0 then [uninit] else []) ++ e.objThrd l t := by
  by_cases hl : l = loc
  · subst hl
    have hnew : (e.pushUninit l uninit).objThrd l t =
        (((e.objThrdMap l).modify 0 fun m => uninit :: m)[t]?).getD [] := by
      simp [pushUninit,objThrd]
    rw [hnew,List.getElem?_modify]
    by_cases ht : t = 0
    · subst ht
      rw [objThrd,List.getElem?_eq_getElem hroom]
      simp
    · rw [if_neg fun h => ht h.2,objThrd,List.nil_append]
      cases (e.objThrdMap l)[t]? <;> simp [Ne.symm ht]
  · simp [pushUninit,objThrd,hl,Ne.symm hl]

/-- Whether an uninitialized action comes along. -/
def isFirst (e : Execution) (act : ActionId) : Bool :=
  (e.objMap (e.acts act).location).isEmpty && (e.acts act).isAtomicVar

/-- What enters the lists of the locations and of the threads on them. -/
structure Entered (e e' : Execution) (act : ActionId) (extra : Location → List ActionId) :
    Prop where
  objThrd : ∀ l t, e'.objThrd l t =
    (if (e.isFirst act = true ∧ (e.acts act).location = l) ∧ t = 0 then [e.numActs] else []) ++
      e.objThrd l t ++ if t = (e.acts act).tid then extra l else []
  objMap : ∀ l, e'.objMap l =
    (if e.isFirst act = true ∧ (e.acts act).location = l then [e.numActs] else []) ++
      e.objMap l ++ extra l
  actionTrace : e'.actionTrace =
    (if e.isFirst act = true then [e.numActs] else []) ++ e.actionTrace ++ [act]
  uninit : e.isFirst act = true → (e'.acts e.numActs).location = (e.acts act).location
  unread : e.isFirst act = true → (e'.acts e.numActs).readsFrom = none ∧
    (e'.acts e.numActs).readsFromPromise = none
  lastAction : ∀ t, t ≠ 0 → e'.getLastAction t =
    if t = (e.acts act).tid then some act else e.getLastAction t
  moGraph : e'.moGraph = e.moGraph
  flagged : e'.Flagged ↔ e.Flagged
  asserted : e'.asserted = e.asserted

theorem pushed_objThrd {e : Execution} {act : ActionId} (htid : (e.acts act).tid < e.getNumThreads)
    (l : Location) (t : ThreadId) : (e.pushed act).objThrd l t =
      e.objThrd l t ++ if t = (e.acts act).tid then e.ownLocation act l else [] := by
  have hpush : (e.pushed act).objThrd l t =
      (e.pushObjThrd (e.acts act).location act).objThrd l t := rfl
  rw [hpush,pushObjThrd_objThrd htid]
  congr 1
  by_cases hl : (e.acts act).location = l <;> by_cases ht : t = (e.acts act).tid <;>
    simp [ownLocation,hl,ht,eq_comm]

theorem pushed_entered {e : Execution} {act : ActionId} (htid : (e.acts act).tid < e.getNumThreads)
    (hfirst : e.isFirst act = false) : Entered e (e.pushed act) act (e.ownLocation act) where
  objThrd l t := by simpa [hfirst] using pushed_objThrd htid l t
  objMap l := by
    by_cases hl : (e.acts act).location = l
    · simp [pushed,pushObj,pushObjThrd,ownLocation,hl,hfirst]
    · simp [pushed,pushObj,pushObjThrd,ownLocation,hl,Ne.symm hl]
  actionTrace := by simp [pushed,pushObj,pushObjThrd,hfirst]
  uninit h := by simp [hfirst] at h
  unread h := by simp [hfirst] at h
  lastAction t _ := setLast_join t htid
  moGraph := rfl
  flagged := .rfl
  asserted := rfl

theorem pushUninit_entered {params : ExecutionParams} {e : Execution} {act : ActionId}
    (htid : (e.acts act).tid < e.getNumThreads) (hfirst : e.isFirst act = true) :
    Entered e (((e.pushed act).getUninitializedAction params (e.acts act).location).1.pushUninit
      (e.acts act).location e.numActs) act (e.ownLocation act) where
  objThrd l t := by
    set e₁ := ((e.pushed act).getUninitializedAction params (e.acts act).location).1
    have hroom : 0 < (e₁.objThrdMap (e.acts act).location).length := by
      change 0 < ((e.pushObjThrd (e.acts act).location act).objThrdMap (e.acts act).location).length
      exact Nat.zero_lt_of_lt (pushObjThrd_room htid _)
    have hold : e₁.objThrd l t = (e.pushed act).objThrd l t := rfl
    rw [pushUninit_objThrd hroom,hold,pushed_objThrd htid,List.append_assoc]
    simp [hfirst]
  objMap l := by
    by_cases hl : (e.acts act).location = l
    · simp [pushUninit,getUninitializedAction,pushed,pushObj,pushObjThrd,ownLocation,hl,hfirst]
    · simp [pushUninit,getUninitializedAction,pushed,pushObj,pushObjThrd,ownLocation,hl,Ne.symm hl]
  actionTrace := by
    simp [pushUninit,getUninitializedAction,pushed,pushObj,pushObjThrd,hfirst]
  uninit _ := by
    simp [pushUninit,getUninitializedAction,pushed,pushObj,pushObjThrd,ModelAction.createCv]
  unread _ := by
    simp [pushUninit,getUninitializedAction,pushed,pushObj,pushObjThrd,ModelAction.createCv]
  lastAction t ht := by
    refine Eq.trans ?_ (setLast_join t htid)
    unfold getLastAction pushUninit getUninitializedAction
    dsimp only
    rw [List.getElem?_set_ne (Ne.symm ht)]
    rfl
  moGraph := rfl
  flagged := .rfl
  asserted := rfl

/-- A wait is in the lists of its mutex, too. -/
theorem Entered.wait {e e' : Execution} {act : ActionId} {extra : Location → List ActionId}
    (h : Entered e e' act extra) (m : Location) (hact : (e'.acts act).tid = (e.acts act).tid)
    (htid : (e'.acts act).tid < e'.getNumThreads) :
    Entered e ((e'.pushObj m act).pushObjThrd m act) act
      (fun l => extra l ++ if m = l then [act] else []) where
  objThrd l t := by
    have hpush : ((e'.pushObj m act).pushObjThrd m act).objThrd l t =
        (e'.pushObjThrd m act).objThrd l t := rfl
    rw [hpush,pushObjThrd_objThrd htid,h.objThrd,hact]
    by_cases ht : t = (e.acts act).tid
    · subst ht
      simp
    · simp [ht,Ne.symm ht]
  objMap l := by
    by_cases hm : m = l
    · simp [pushObj,pushObjThrd,hm,h.objMap]
    · simp [pushObj,pushObjThrd,hm,Ne.symm hm,h.objMap]
  actionTrace := h.actionTrace
  uninit := h.uninit
  unread := h.unread
  lastAction := h.lastAction
  moGraph := h.moGraph
  flagged := h.flagged
  asserted := h.asserted

theorem addActionToLists_entered {params : ExecutionParams} {e e' : Execution} {act : ActionId}
    (h : e.addActionToLists params act = .ok e') (htid : (e.acts act).tid < e.getNumThreads)
    (hlt : act < e.numActs) :
    Entered e e' act fun l => e.ownLocation act l ++ e.waitLocation act l := by
  obtain ⟨_,_,h⟩ := bind_eq_ok.mp h
  dsimp only at h
  set e₁ := if ((e.objMap (e.acts act).location).isEmpty && (e.acts act).isAtomicVar) = true then
      ((e.pushed act).getUninitializedAction params (e.acts act).location).1.pushUninit
        (e.acts act).location e.numActs
    else e.pushed act with he₁
  have hentered : Entered e e₁ act (e.ownLocation act) := by
    rw [he₁]
    split
    · exact pushUninit_entered htid (by assumption)
    · exact pushed_entered htid (Bool.not_eq_true _ ▸ (by assumption))
  have hacts : e₁.acts act = e.acts act ∧ e₁.threads = e.threads := by
    rw [he₁]
    split
    · have hne : act ≠ e.numActs := Nat.ne_of_lt hlt
      simp [pushUninit,getUninitializedAction,pushed,pushObj,pushObjThrd,hne]
    · exact ⟨rfl,rfl⟩
  have hfence : ∀ l, Entered e { e₁ with thrdLastFenceRelease := l } act (e.ownLocation act) :=
    fun l => { hentered with }
  set e₂ := if ((e.acts act).isFence && (e.acts act).isRelease) = true then
      { e₁ with thrdLastFenceRelease := e₁.setLast e₁.thrdLastFenceRelease act }
    else e₁ with he₂
  have hentered₂ : Entered e e₂ act (e.ownLocation act) ∧ e₂.acts = e₁.acts ∧
      e₂.threads = e₁.threads := by
    rw [he₂]
    split
    · exact ⟨hfence _,rfl,rfl⟩
    · exact ⟨hentered,rfl,rfl⟩
  by_cases hwait : (e.acts act).isWait = true
  · rw [if_pos hwait] at h
    obtain ⟨_,_,h⟩ := bind_eq_ok.mp h
    obtain rfl : _ = e' := Except.ok.inj h
    have hextra : e.waitLocation act =
        fun l => if Location.object (e.acts act).value = l then [act] else [] := by
      funext l
      simp [waitLocation,hwait]
    have hact : e₂.acts act = e.acts act := (congrFun hentered₂.2.1 act).trans hacts.1
    rw [hextra]
    apply hentered₂.1.wait (.object (e.acts act).value)
    · rw [hact]
    · rw [hact,getNumThreads,hentered₂.2.2,hacts.2]
      exact htid
  · rw [if_neg hwait] at h
    obtain rfl : e₂ = e' := Except.ok.inj h
    have hextra : (fun l => e.ownLocation act l ++ e.waitLocation act l) = e.ownLocation act := by
      funext l
      simp [waitLocation,hwait]
    rw [hextra]
    exact hentered₂.1

/-! ### The lists over a run -/

end Execution

theorem ModelAction.isWait_of_atomic {a : ModelAction} (h : a.isAtomicVar = true) :
    a.isWait = false := by
  cases hw : a.isWait with
  | false => rfl
  | true =>
    have htype : a.type = .atomicWait := beq_iff_eq.mp hw
    simp [ModelAction.isAtomicVar,ModelAction.isRead,ModelAction.couldBeWrite,
      ModelAction.isWrite,ModelAction.isRmwr,htype] at h

theorem ClockVector.synchronizedSince_create (parent : Option ClockVector) {tid : ThreadId}
    {seq seq' : ℕ} (h : seq ≤ seq') :
    (ClockVector.create parent tid seq').synchronizedSince tid seq = true := by
  have hlen : tid < (ClockVector.create parent tid seq').numThreads := by
    simp only [ClockVector.create,ClockVector.numThreads,List.length_set,List.length_append,
      List.length_replicate]
    exact Nat.lt_of_lt_of_le (Nat.lt_succ_self tid) le_add_tsub
  simp [ClockVector.synchronizedSince,ClockVector.getClock_create,hlen,h]

namespace Execution

/-- The lists hold the trace: each action in the list of its location and its thread, in execution
order as far as atomic accesses are concerned. -/
structure Listed (e : Execution) : Prop where
  mem : ∀ l t, ∀ a ∈ e.objThrd l t, a ∈ e.actionTrace ∧ a ∈ e.objMap l ∧ (e.acts a).tid = t ∧
    onLocation (e.acts a) l = true
  sorted : ∀ l t, (e.objThrd l t).Pairwise fun a b => (e.acts b).isAtomicVar = true →
    (e.acts a).seqNumber < (e.acts b).seqNumber
  all : ∀ a ∈ e.actionTrace, a ∈ e.objThrd (e.acts a).location (e.acts a).tid
  last : ∀ t last, t ≠ 0 → e.getLastAction t = some last → ∀ a ∈ e.actionTrace,
    (e.acts a).tid = t → (e.acts a).seqNumber ≤ (e.acts last).seqNumber
  own : ∀ a ∈ e.actionTrace,
    (e.acts a).cv.synchronizedSince (e.acts a).tid (e.acts a).seqNumber = true
  fences : ∀ x ∈ e.objMap .fence, x ∈ e.actionTrace
  fencesSorted : (e.objMap .fence).Pairwise fun x y => (e.acts x).seqNumber < (e.acts y).seqNumber

/-- An action of a thread happens before a later one of it. -/
theorem Listed.happensBefore {e : Execution} (h : e.Listed) {a b : ActionId}
    (hb : b ∈ e.actionTrace)
    (htid : (e.acts a).tid = (e.acts b).tid)
    (hseq : (e.acts a).seqNumber ≤ (e.acts b).seqNumber) : e.happensBefore a b = true := by
  have hown := h.own b hb
  simp only [ClockVector.synchronizedSince,Bool.and_eq_true,decide_eq_true_eq] at hown
  simp only [Execution.happensBefore,ModelAction.happensBefore,ClockVector.synchronizedSince,
    Bool.and_eq_true,decide_eq_true_eq,htid]
  exact ⟨hown.1,hseq.trans hown.2⟩

/-- The same lists, of the same actions up to what does not place them. -/
structure SamePlaces (e e' : Execution) : Prop where
  actionTrace : e'.actionTrace = e.actionTrace
  objMap : e'.objMap = e.objMap
  objThrdMap : e'.objThrdMap = e.objThrdMap
  thrdLastAction : e'.thrdLastAction = e.thrdLastAction
  places : ∀ a, (e.acts a).Places (e'.acts a)
  cv : ∀ a, (e.acts a).cv.Le (e'.acts a).cv

theorem MemFrame.samePlaces {e e' : Execution} (h : MemFrame e e') : SamePlaces e e' :=
  ⟨h.actionTrace,h.objMap,h.objThrdMap,h.thrdLastAction,fun a => .of_keeps (h.act a).keeps,
    fun a => (h.act a).cv⟩

theorem KeepsOrder.samePlaces {e e' : Execution} (h : KeepsOrder e e') : SamePlaces e e' :=
  ⟨h.actionTrace,h.objMap,h.objThrdMap,h.thrdLastAction,fun a => .of_keeps (h.keeps a),
    fun a => (h.keeps a).cv⟩

theorem Listed.samePlaces {e e' : Execution} (h : e.Listed) (hsame : SamePlaces e e') :
    e'.Listed := by
  have hlists : ∀ l t, e'.objThrd l t = e.objThrd l t := fun l t => by
    rw [objThrd,hsame.objThrdMap]
    rfl
  have hlast : ∀ t, e'.getLastAction t = e.getLastAction t := fun t => by
    rw [Execution.getLastAction,hsame.thrdLastAction]
    rfl
  apply Listed.mk
  · intro l t a ha
    rw [hlists] at ha
    rw [hsame.actionTrace,hsame.objMap,(hsame.places a).tid,(hsame.places a).on]
    exact h.mem l t a ha
  · intro l t
    rw [hlists]
    refine (h.sorted l t).imp fun {a b} hab hatomic => ?_
    rw [(hsame.places b).atomic] at hatomic
    rw [(hsame.places a).seqNumber,(hsame.places b).seqNumber]
    exact hab hatomic
  · intro a ha
    rw [hsame.actionTrace] at ha
    rw [hlists,(hsame.places a).location,(hsame.places a).tid]
    exact h.all a ha
  · intro t last ht hlast' a ha htid
    rw [hsame.actionTrace] at ha
    rw [hlast] at hlast'
    rw [(hsame.places a).tid] at htid
    rw [(hsame.places a).seqNumber,(hsame.places last).seqNumber]
    exact h.last t last ht hlast' a ha htid
  · intro a ha
    rw [hsame.actionTrace] at ha
    rw [(hsame.places a).tid,(hsame.places a).seqNumber]
    exact (hsame.cv a).synchronizedSince (h.own a ha)
  · intro x hx
    rw [hsame.objMap] at hx
    rw [hsame.actionTrace]
    exact h.fences x hx
  · rw [hsame.objMap]
    refine h.fencesSorted.imp fun {x y} hxy => ?_
    rw [(hsame.places x).seqNumber,(hsame.places y).seqNumber]
    exact hxy

/-- A new action. -/
theorem Listed.enter {e e' : Execution} {act : ModelAction} {extra : Location → List ActionId}
    (h : e.Listed) (hr : e.Recorded) (huser : act.tid ≠ 0)
    (hadded : Added (e.newAction act).1 e' e.numActs extra)
    (hentered : Entered (e.newAction act).1 e' e.numActs fun l =>
      (e.newAction act).1.ownLocation e.numActs l ++ (e.newAction act).1.waitLocation e.numActs l) :
    e'.Listed := by
  set e₀ := (e.newAction act).1 with he₀
  have hact : e'.acts e.numActs = e₀.acts e.numActs := hadded.acts _ (Nat.lt_succ_self _)
  have hnew := newAction_act e act
  rw [← he₀] at hnew
  have htid : (e₀.acts e.numActs).tid = act.tid := by rw [hnew]
  have hseq : (e₀.acts e.numActs).seqNumber = e.usedSequenceNumbers + 1 := by rw [hnew]
  have hkeep : ∀ a ∈ e.actionTrace, e'.acts a = e.acts a := fun a ha => by
    have hlt := (hr.old a ha).1
    rw [hadded.acts a (Nat.lt_succ_of_lt hlt),newAction_acts e act (Nat.ne_of_lt hlt)]
  have hold : ∀ l t, e₀.objThrd l t = e.objThrd l t := fun _ _ => rfl
  have htrace := hentered.actionTrace
  -- the uninitialized action
  have huninit : e₀.isFirst e.numActs = true → (e'.acts e₀.numActs).tid = 0 ∧
      (e'.acts e₀.numActs).seqNumber = 0 ∧
      (e'.acts e₀.numActs).cv = ClockVector.create none 0 0 := by
    intro hfirst
    obtain ⟨us,hus,hnewer⟩ := hadded.actionTrace
    rw [htrace,if_pos hfirst,List.append_assoc,List.append_assoc] at hus
    have hsame : us = [e₀.numActs] := (List.append_cancel_right hus).symm
    have hu := hnewer e₀.numActs (by simp [hsame])
    have hfields := hadded.uninit _ hu.1 hu.2
    exact ⟨hfields.2.1,hfields.2.2.1,hfields.2.2.2⟩
  have hmem : ∀ a, a ∈ e'.actionTrace ↔ (e₀.isFirst e.numActs = true ∧ a = e₀.numActs) ∨
      a ∈ e.actionTrace ∨ a = e.numActs := fun a => by
    have hsame : e₀.actionTrace = e.actionTrace := rfl
    rw [htrace,hsame]
    by_cases hfirst : e₀.isFirst e.numActs = true <;> simp [hfirst]
  have hthrd : ∀ l t a, a ∈ e'.objThrd l t ↔
      ((e₀.isFirst e.numActs = true ∧ (e₀.acts e.numActs).location = l) ∧ t = 0 ∧ a = e₀.numActs) ∨
        a ∈ e.objThrd l t ∨
        t = act.tid ∧ a ∈ e₀.ownLocation e.numActs l ++ e₀.waitLocation e.numActs l :=
        fun l t a => by
    rw [hentered.objThrd,htid,hold]
    by_cases hfirst : e₀.isFirst e.numActs = true ∧ (e₀.acts e.numActs).location = l <;>
      by_cases ht : t = 0 <;> by_cases ht' : t = act.tid <;> simp [hfirst,ht,ht']
  have hplace : ∀ l, ∀ a ∈ e₀.ownLocation e.numActs l ++ e₀.waitLocation e.numActs l,
      a = e.numActs ∧ onLocation (e₀.acts e.numActs) l = true := fun l a ha => by
    simp only [ownLocation,waitLocation,List.mem_append] at ha
    rcases ha with ha | ha
    · split at ha
      · rename_i hl
        exact ⟨by simpa using ha,by simp [onLocation,hl]⟩
      · cases ha
    · split at ha
      · rename_i hl
        exact ⟨by simpa using ha,by simp [onLocation,hl]⟩
      · cases ha
  apply Listed.mk
  · intro l t a ha
    rw [hmem,hentered.objMap]
    rcases (hthrd l t a).mp ha with ⟨⟨hfirst,hl⟩,rfl,rfl⟩ | ha | ⟨rfl,hextra⟩
    · refine ⟨.inl ⟨hfirst,rfl⟩,by simp [hfirst,hl],(huninit hfirst).1,?_⟩
      simp [onLocation,hentered.uninit hfirst,hl]
    · obtain ⟨hmem',hobj,hat,hon⟩ := h.mem l t a ha
      rw [hkeep a hmem']
      exact ⟨.inr (.inl hmem'),List.mem_append_left _ (List.mem_append_right _ hobj),hat,hon⟩
    · obtain ⟨rfl,hon⟩ := hplace l a hextra
      rw [hact]
      exact ⟨.inr (.inr rfl),List.mem_append_right _ hextra,htid,hon⟩
  · intro l t
    rw [hentered.objThrd,htid,hold]
    refine List.pairwise_append.mpr ⟨List.pairwise_append.mpr ⟨?_,?_,?_⟩,?_,?_⟩
    · split
      · exact List.pairwise_singleton _ _
      · exact List.Pairwise.nil
    · refine (h.sorted l t).imp_of_mem fun {a b} ha hb hab => ?_
      rw [hkeep a (h.mem l t a ha).1,hkeep b (h.mem l t b hb).1]
      exact hab
    · -- an uninitialized action comes to empty lists only
      intro a ha b hb
      split at ha
      · rename_i hfirst
        have hempty : e.objMap l = [] := by
          have := hfirst.1.1
          rw [isFirst,Bool.and_eq_true,List.isEmpty_iff,hfirst.1.2] at this
          exact this.1
        have hobj := (h.mem l t b hb).2.1
        rw [hempty] at hobj
        cases hobj
      · cases ha
    · split
      · -- a wait is not atomic, and anything else is in one list only
        by_cases hatomic : (e₀.acts e.numActs).isAtomicVar = true
        · have hwait := ModelAction.isWait_of_atomic hatomic
          have hnone : e₀.waitLocation e.numActs l = [] := by simp [waitLocation,hwait]
          rw [hnone,List.append_nil,ownLocation]
          split
          · exact List.pairwise_singleton _ _
          · exact List.Pairwise.nil
        · refine List.pairwise_of_forall_mem_list fun a _ b hb hb' => ?_
          obtain ⟨rfl,-⟩ := hplace l b hb
          rw [hact] at hb'
          exact absurd hb' hatomic
      · exact List.Pairwise.nil
    · intro a ha b hb hatomic
      split at hb
      · rename_i ht
        obtain ⟨rfl,-⟩ := hplace l b hb
        rw [hact,hseq]
        rcases List.mem_append.mp ha with ha | ha
        · split at ha
          · rename_i hfirst
            exact absurd (ht.symm.trans hfirst.2) huser
          · cases ha
        · have hmem' := (h.mem l t a ha).1
          rw [hkeep a hmem']
          exact Nat.lt_succ_of_le (hr.old a hmem').2.1
      · cases hb
  · intro a ha
    rw [hthrd]
    rcases (hmem a).mp ha with ⟨hfirst,rfl⟩ | ha | rfl
    · exact .inl ⟨⟨hfirst,(hentered.uninit hfirst).symm⟩,(huninit hfirst).1,rfl⟩
    · rw [hkeep a ha]
      exact .inr (.inl (h.all a ha))
    · rw [hact,htid]
      exact .inr (.inr ⟨rfl,by simp [ownLocation]⟩)
  · intro t last ht hlast a ha hat
    rw [hentered.lastAction t ht,htid] at hlast
    have hle : ∀ a ∈ e.actionTrace, (e'.acts a).seqNumber ≤ e.usedSequenceNumbers := fun a ha => by
      rw [hkeep a ha]
      exact (hr.old a ha).2.1
    rcases (hmem a).mp ha with ⟨hfirst,rfl⟩ | ha | rfl
    · exact absurd (hat.symm.trans (huninit hfirst).1) ht
    · split at hlast
      · cases hlast
        rw [hact,hseq]
        exact Nat.le_succ_of_le (hle a ha)
      · have hlast' : e.getLastAction t = some last := hlast
        rw [hkeep a ha] at hat ⊢
        rw [hkeep last (hr.last t last ht hlast')]
        exact h.last t last ht hlast' a ha hat
    · rw [hact,htid] at hat
      rw [if_pos hat.symm] at hlast
      cases hlast
      exact Nat.le_refl _
  · intro a ha
    rcases (hmem a).mp ha with ⟨hfirst,rfl⟩ | ha | rfl
    · obtain ⟨hzero,hseq',hcv⟩ := huninit hfirst
      rw [hzero,hseq',hcv]
      exact ClockVector.synchronizedSince_create _ (Nat.le_refl _)
    · rw [hkeep a ha]
      exact h.own a ha
    · rw [hact,hnew]
      exact ClockVector.synchronizedSince_create _ (Nat.le_refl _)
  · intro x hx
    rw [hentered.objMap] at hx
    rw [hmem]
    rcases List.mem_append.mp hx with hx | hx
    · rcases List.mem_append.mp hx with hx | hx
      · split at hx
        · rename_i hfirst
          exact .inl ⟨hfirst.1,List.mem_singleton.mp hx⟩
        · cases hx
      · exact .inr (.inl (h.fences x hx))
    · exact .inr (.inr (hplace _ x hx).1)
  · have hobj : e₀.objMap = e.objMap := rfl
    have hown : e₀.ownLocation e.numActs .fence ++ e₀.waitLocation e.numActs .fence =
        e₀.ownLocation e.numActs .fence := by
      simp [waitLocation]
    rw [hentered.objMap,hobj,hown]
    refine List.pairwise_append.mpr ⟨List.pairwise_append.mpr ⟨?_,?_,?_⟩,?_,?_⟩
    · split
      · exact List.pairwise_singleton _ _
      · exact List.Pairwise.nil
    · refine h.fencesSorted.imp_of_mem fun {x y} hx hy hxy => ?_
      rw [hkeep x (h.fences x hx),hkeep y (h.fences y hy)]
      exact hxy
    · intro x hx y hy
      split at hx
      · rename_i hfirst
        have hempty := hfirst.1
        rw [isFirst,Bool.and_eq_true,List.isEmpty_iff,hfirst.2,hobj] at hempty
        rw [hempty.1] at hy
        cases hy
      · cases hx
    · rw [ownLocation]
      split
      · exact List.pairwise_singleton _ _
      · exact List.Pairwise.nil
    · intro x hx y hy
      obtain ⟨rfl,-⟩ := hplace .fence y (List.mem_append_left _ hy)
      rw [hact,hseq]
      rcases List.mem_append.mp hx with hx | hx
      · split at hx
        · rename_i hfirst
          rw [List.mem_singleton.mp hx,(huninit hfirst.1).2.1]
          exact Nat.succ_pos _
        · cases hx
      · have hxmem := h.fences x hx
        rw [hkeep x hxmem]
        exact Nat.lt_succ_of_le (hr.old x hxmem).2.1

end Execution
end CdsChecker
