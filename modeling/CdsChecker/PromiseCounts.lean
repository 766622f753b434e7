import CdsChecker.CurrSteps

/-! The pending promises of an execution, and the threads that may still keep them. -/
namespace CdsChecker

namespace Promise

/-- The number of available threads is kept along with the threads. -/
def Counted (p : Promise) : Prop := p.numAvailableThreads = p.availableThread.count true

theorem available_eliminateThread (p : Promise) (t u : ThreadId) :
    (p.eliminateThread t).1.threadIsAvailable u = (p.threadIsAvailable u && u != t) := by
  unfold eliminateThread
  cases ht : p.threadIsAvailable t with
  | false =>
    by_cases hu : u = t
    · simp [hu,ht]
    · simp [hu]
  | true =>
    have hlt : t < p.availableThread.length := by
      by_contra hlen
      simp [threadIsAvailable,List.getD,List.getElem?_eq_none (not_lt.mp hlen)] at ht
    by_cases hu : u = t
    · simp [threadIsAvailable,List.getD,hu,List.getElem?_set_self hlt]
    · simp [threadIsAvailable,List.getD,hu,List.getElem?_set_ne (Ne.symm hu)]

theorem readers_eliminateThread (p : Promise) (t : ThreadId) :
    (p.eliminateThread t).1.readers = p.readers := by
  unfold eliminateThread
  split <;> rfl

theorem readers_addThread (p : Promise) (t : ThreadId) : (p.addThread t).readers = p.readers := by
  unfold addThread
  dsimp only
  split <;> split <;> rfl

theorem count_set_true {l : List Bool} {i : ℕ} (h : l.getD i false = true) :
    (l.set i false).count true + 1 = l.count true := by
  have hlt : i < l.length := by
    by_contra hlen
    simp [List.getD,List.getElem?_eq_none (not_lt.mp hlen)] at h
  have hi : l[i] = true := by simpa [List.getD,List.getElem?_eq_getElem hlt] using h
  have hpos : 0 < l.count true := List.count_pos_iff.mpr (hi ▸ List.getElem_mem hlt)
  rw [List.count_set hlt]
  simp only [hi]
  simp
  omega

theorem count_setPadded {l : List Bool} {i : ℕ} (h : l.getD i false = false) :
    (setPadded l false (i + 1) i true).count true = l.count true + 1 := by
  have hlt : i < (l ++ List.replicate (i + 1 - l.length) false).length := by
    rw [List.length_append,List.length_replicate]
    omega
  have hi : (l ++ List.replicate (i + 1 - l.length) false)[i] = false := by
    by_cases hl : i < l.length
    · rw [List.getElem_append_left hl]
      simpa [List.getD,List.getElem?_eq_getElem hl] using h
    · rw [List.getElem_append_right (not_lt.mp hl),List.getElem_replicate]
  rw [setPadded,List.count_set hlt,hi]
  simp [List.count_replicate]

theorem Counted.eliminateThread {p : Promise} (h : p.Counted) (t : ThreadId) :
    (p.eliminateThread t).1.Counted := by
  unfold Promise.eliminateThread
  cases ht : p.threadIsAvailable t with
  | false => exact h
  | true =>
    have hcount := count_set_true ht
    unfold Counted at h ⊢
    simp only [Bool.not_true,Bool.false_eq_true,if_false]
    omega

theorem Counted.addThread {p : Promise} (h : p.Counted) (t : ThreadId) :
    (p.addThread t).Counted := by
  have hfirst : (if p.threadIsAvailable t then p
      else { p with
        availableThread := setPadded p.availableThread false (t + 1) t true
        numAvailableThreads := p.numAvailableThreads + 1 }).Counted := by
    split
    · exact h
    · rename_i ht
      have hcount := count_setPadded (Bool.not_eq_true _ ▸ ht)
      unfold Counted at h ⊢
      rw [hcount]
      exact congrArg (· + 1) h
  have hrest : ∀ q : Promise, q.Counted → (if q.threadWasAvailable t then q
      else { q with
        wasAvailableThread := setPadded q.wasAvailableThread false (t + 1) t true
        numWasAvailableThreads := q.numWasAvailableThreads + 1 }).Counted := by
    intro q hq
    split <;> exact hq
  exact hrest _ hfirst

theorem counted_create (read : ActionId) (tid : ThreadId) (fv : FutureValue) :
    (create read tid fv).Counted :=
  Counted.eliminateThread (Counted.addThread (p := { fv := fv,readers := [read] }) rfl fv.tid) tid

theorem Counted.addReader {p : Promise} (h : p.Counted) (reader : ActionId) (tid : ThreadId) :
    (p.addReader reader tid).1.Counted :=
  Counted.eliminateThread (p := { p with readers := p.readers ++ [reader] }) h tid

/-- The last available thread has been ruled out. -/
theorem Counted.eliminateThread_failed {p : Promise} (h : p.Counted) (t : ThreadId) :
    (p.eliminateThread t).2 = true ↔ p.threadIsAvailable t = true ∧
      ∀ u, (p.eliminateThread t).1.threadIsAvailable u = false := by
  have hcounted := h.eliminateThread t
  have hzero : (p.eliminateThread t).1.numAvailableThreads = 0 ↔
      ∀ u, (p.eliminateThread t).1.threadIsAvailable u = false := by
    rw [show (p.eliminateThread t).1.numAvailableThreads = _ from hcounted,List.count_eq_zero]
    constructor
    · intro hnone u
      by_contra hu
      rw [Bool.not_eq_false] at hu
      unfold threadIsAvailable at hu
      cases hget : (p.eliminateThread t).1.availableThread[u]? with
      | none => simp [List.getD,hget] at hu
      | some b =>
        simp only [List.getD,hget,Option.getD_some] at hu
        exact hnone (hu ▸ List.mem_of_getElem? hget)
    · intro hall hmem
      obtain ⟨u,hu⟩ := List.mem_iff_getElem?.mp hmem
      have hu' := hall u
      simp [threadIsAvailable,List.getD,hu] at hu'
  rw [← hzero]
  unfold Promise.eliminateThread
  cases ht : p.threadIsAvailable t with
  | false => simp
  | true => simp [hasFailed]

end Promise

namespace Execution

/-! ### The promises of an execution -/

structure PromisesValid (e : Execution) : Prop where
  nodup : e.promises.Nodup
  lt : ∀ p ∈ e.promises, p < e.numProms
  counted : ∀ p, (e.proms p).Counted

variable {e e' : Execution} {curr : ActionId}

theorem PromisesValid.of_same (h : e.PromisesValid) (hproms : e'.proms = e.proms)
    (hnum : e'.numProms = e.numProms) (hpromises : e'.promises = e.promises) :
    e'.PromisesValid := by
  refine ⟨?_,?_,?_⟩
  · rw [hpromises]
    exact h.nodup
  · rw [hpromises,hnum]
    exact h.lt
  · rw [hproms]
    exact h.counted

theorem PromisesValid.modify (h : e.PromisesValid) {f : PromiseId → Promise}
    (hf : ∀ p, (f p).Counted) : { e with proms := f }.PromisesValid :=
  ⟨h.nodup,h.lt,hf⟩

theorem PromisesValid.modifyPromise (h : e.PromisesValid) {p : PromiseId} {f : Promise → Promise}
    (hf : ∀ q, q.Counted → (f q).Counted) : (e.modifyPromise p f).PromisesValid := by
  refine h.modify fun q => ?_
  by_cases hq : q = p
  · subst hq
    simpa using hf _ (h.counted q)
  · simpa [hq] using h.counted q

theorem PromisesValid.eliminateThread (h : e.PromisesValid) (p : PromiseId) (t : ThreadId) :
    (e.eliminateThread p t).1.PromisesValid :=
  h.modifyPromise fun _ hq => hq.eliminateThread t

theorem PromisesValid.checkPromisesLoop {tid : ThreadId} {oldCv : Option ClockVector}
    {mergeCv : ClockVector} {ps : List PromiseId} (h : e.PromisesValid) :
    (checkPromisesLoop tid oldCv mergeCv ps e).PromisesValid := by
  induction ps generalizing e with
  | nil => exact h
  | cons p ps ih =>
    rw [Execution.checkPromisesLoop]
    have hfirst := h.eliminateThread p tid
    split
    · split
      · rename_i e₁ he₁
        rw [he₁] at hfirst
        exact hfirst.of_same rfl rfl rfl
      · rename_i e₁ he₁
        rw [he₁] at hfirst
        exact ih hfirst
    · exact ih h

theorem PromisesValid.memStep (h : e.PromisesValid) (hstep : MemStep curr e e') :
    e'.PromisesValid := by
  cases hstep with
  | synchronize first second =>
    cases hb : e.before second first with
    | true =>
      rw [synchronize_of_before hb]
      exact h.of_same rfl rfl rfl
    | false =>
      rw [synchronize_of_not_before hb]
      have hcheck : (e.checkPromises (e.acts first).tid (some (e.acts second).cv)
        (e.acts first).cv).PromisesValid := h.checkPromisesLoop
      have hrest := checkPromisesLoop_rest (e.acts first).tid (some (e.acts second).cv)
        (e.acts first).cv e.promises e
      exact hcheck.of_same rfl (congrArg Execution.numProms hrest).symm
        (congrArg Execution.promises hrest).symm
  | eliminate p t => exact h.eliminateThread p t
  | addReader p => exact h.modifyPromise fun _ hq => hq.addReader curr _
  | newPromise fv =>
    refine ⟨?_,?_,?_⟩
    · refine List.Nodup.append h.nodup (List.nodup_singleton _) ?_
      intro p hp hmem
      obtain rfl := List.mem_singleton.mp hmem
      exact absurd (h.lt _ hp) (lt_irrefl _)
    · intro p hp
      rcases List.mem_append.mp hp with hp | hp
      · exact (h.lt p hp).trans (Nat.lt_succ_self _)
      · obtain rfl := List.mem_singleton.mp hp
        exact Nat.lt_succ_self _
    · intro p
      by_cases hp : p = e.numProms
      · subst hp
        simpa using Promise.counted_create curr _ fv
      · simpa [hp] using h.counted p
  | keepPromise i =>
    exact ⟨h.nodup.eraseIdx i,
      fun p hp => h.lt p (List.mem_of_mem_eraseIdx hp),h.counted⟩
  | _ => exact h.of_same rfl rfl rfl

theorem PromisesValid.memSteps (h : e.PromisesValid) (hsteps : MemSteps curr e e') :
    e'.PromisesValid := by
  induction hsteps with
  | refl => exact h
  | tail _ hstep ih => exact ih.memStep hstep

theorem PromisesValid.currSteps (h : e.PromisesValid) (hsteps : CurrSteps curr e e') :
    e'.PromisesValid := by
  induction hsteps with
  | refl => exact h
  | tail _ hstep ih =>
    cases hstep with
    | memory hstep => exact ih.memStep hstep
    | other hsame => exact ih.of_same hsame.proms hsame.numProms hsame.promises
    | addThread t _ =>
      refine ih.modify fun p => ?_
      split
      · exact (ih.counted p).addThread t
      · exact ih.counted p

theorem PromisesValid.begun {act : ModelAction} (h : e.PromisesValid)
    (hbegun : Begun e act e' curr) :
    e'.PromisesValid := by
  cases hbegun with
  | secondPart _ _ hsteps =>
    have hfirst : (e.modifyAct curr fun a => a.processRmw act).PromisesValid :=
      h.of_same rfl rfl rfl
    exact hfirst.memSteps hsteps
  | new _ hadded hsteps =>
    exact (h.of_same hadded.proms hadded.numProms hadded.promises).memSteps hsteps

end Execution

namespace Config

open Execution

theorem finishStep_sameKnowledge (params : ExecutionParams) (e : Execution) (curr : ActionId) :
    SameKnowledge e (finishStep params e curr).exec := by
  have hremove : SameKnowledge e (e.removeStopped (e.acts curr).tid) := by
    unfold removeStopped
    split
    · exact e.setEnabled_sameKnowledge _ false
    · exact .refl e
  unfold finishStep
  dsimp only
  split
  · exact hremove
  · split
    · exact hremove.trans { SameKnowledge.refl _ with proms := rfl }
    · split <;> exact hremove

variable {params : ExecutionParams} {c c' : Config}

theorem Change.promisesValid (h : Change params c c') (hv : c.Valid) (hp : c.exec.PromisesValid) :
    c'.exec.PromisesValid := by
  cases h with
  | constructMutex => exact hp.of_same rfl rfl rfl
  | reportBug =>
    have hsame := c.exec.assertBug_sameKnowledge
    exact hp.of_same hsame.proms hsame.numProms hsame.promises
  | act i type order location value e hphase hneeds htyped hfollows he =>
    obtain ⟨_,rfl⟩ := switchFromMaster_spec he
    exact hp.of_same rfl rfl rfl
  | skip => exact hp
  | sleepDisabled i e hphase hneeds hi he =>
    have hsteps : CurrSteps 0 c.exec e := sleepDisabled_steps he
    exact hp.currSteps hsteps
  | detect i deadlock hphase hdeadlock =>
    have hsame := c.exec.assertBug_sameKnowledge
    dsimp only
    split
    · exact hp.of_same hsame.proms hsame.numProms hsame.promises
    · exact hp
  | work curr secondPartOfRmw node item queue items e hphase hasserted he =>
    exact hp.currSteps (processWork_steps hv.exec he)
  | finish curr secondPartOfRmw node queue hphase hdone =>
    have hsame := finishStep_sameKnowledge params c.exec curr
    exact hp.of_same hsame.proms hsame.numProms hsame.promises
  | takeStep t newlyExplored node e e' act curr hphase hnext hpending hbegin =>
    obtain ⟨th,hth,hact,_,rfl,_⟩ := takePending_spec hpending
    have htid := (hv.exec.pending t th act hth hact).tid
    have hlt : act.tid <
      (c.exec.modifyThread t fun th => { th with pending := none }).getNumThreads := by
      simpa [getNumThreads,modifyThread,htid] using (List.getElem?_eq_some_iff.mp hth).1
    have htaken : (c.exec.modifyThread t fun th => { th with pending := none }).PromisesValid :=
      hp.of_same rfl rfl rfl
    exact htaken.begun (beginAction_begun hbegin hlt)

theorem Reachable.promisesValid (h : Reachable params c) : c.exec.PromisesValid := by
  have hboth : c.Valid ∧ c.exec.PromisesValid := by
    refine reachable_induction (p := fun c => c.Valid ∧ c.exec.PromisesValid) ⟨valid_init,?_⟩
      (fun _ _ hp hchange => ⟨hchange.valid hp.1,hchange.promisesValid hp.1 hp.2⟩) h
    exact ⟨List.nodup_nil,by simp [init,Execution.init],fun _ => rfl⟩
  exact hboth.2

end Config
end CdsChecker
