import CdsChecker.ScBounds
import CdsChecker.ScGenerator

/-! What the propagation of clocks leaves alone: the lists, the edges and the mode. -/
namespace CdsChecker
namespace SCAnalysis

variable {e : Execution} {s s' s'' : SCAnalysis}

structure Frame (s s' : SCAnalysis) : Prop where
  writeMap : s'.writeMap = s.writeMap
  threadlists : s'.threadlists = s.threadlists
  maxthreads : s'.maxthreads = s.maxthreads
  nodeMap : s'.nodeMap = s.nodeMap
  fastVersion : s'.fastVersion = s.fastVersion
  known : ∀ a, (s.cvmap a).isSome → (s'.cvmap a).isSome
  cyclic : s.cyclic = true → s'.cyclic = true

theorem Frame.refl (s : SCAnalysis) : Frame s s :=
  ⟨rfl,rfl,rfl,rfl,rfl,fun _ h => h,id⟩

theorem Frame.trans (h : Frame s s') (h' : Frame s' s'') : Frame s s'' :=
  ⟨h'.writeMap.trans h.writeMap,h'.threadlists.trans h.threadlists,h'.maxthreads.trans h.maxthreads,
    h'.nodeMap.trans h.nodeMap,h'.fastVersion.trans h.fastVersion,
    fun a ha => h'.known a (h.known a ha),
    fun hc => h'.cyclic (h.cyclic hc)⟩

theorem isSome_update (s : SCAnalysis) (act : ActionId) (cv : ClockVector) (a : ActionId)
    (h : (s.cvmap a).isSome) : (Function.update s.cvmap act (some cv) a).isSome := by
  by_cases ha : a = act
  · simp [ha]
  · simpa [ha] using h

theorem merge_frame {act act2 : ActionId} {b : Bool} (h : s.merge e act act2 = .ok (s',b)) :
    Frame s s' := by
  unfold merge at h
  cases hcv2 : s.cvmap act2 with
  | none =>
    rw [hcv2] at h
    cases h
    exact .refl _
  | some cv2 =>
    simp only [hcv2] at h
    split at h
    · cases h
      exact ⟨rfl,rfl,rfl,rfl,rfl,fun _ h => h,fun _ => rfl⟩
    obtain ⟨cv,-,h⟩ := bind_eq_ok.mp h
    have hknown := isSome_update s act (cv.merge cv2).1
    split at h
    · cases h
      exact ⟨rfl,rfl,rfl,rfl,rfl,hknown,id⟩
    split at h
    · cases h
      exact ⟨rfl,rfl,rfl,rfl,rfl,hknown,id⟩
    split at h <;> cases h
    · exact ⟨rfl,rfl,rfl,rfl,rfl,hknown,id⟩
    · exact .refl _

theorem pushChange_frame (s : SCAnalysis) (act : ActionId) : Frame s (s.pushChange act) :=
  ⟨rfl,rfl,rfl,rfl,rfl,fun _ h => h,id⟩

/-- What every edge of the analysis keeps: a merge, and the update that passes it on. -/
structure EdgeKept (e : Execution) (p : SCAnalysis → Prop) : Prop where
  merge : ∀ s s' act act2 b, p s → s.merge e act act2 = .ok (s',b) → p s'
  push : ∀ s a node b, p s → s.nodeMap a = some node →
    (node.sb = some b ∨ node.specialEdge = some b) → p (s.pushChange b)

theorem frame_kept (s : SCAnalysis) : EdgeKept e (Frame s) where
  merge _ _ _ _ _ h hmerge := h.trans (merge_frame hmerge)
  push _ _ _ b h _ _ := h.trans (pushChange_frame _ b)

namespace EdgeKept

variable {p : SCAnalysis → Prop}

theorem passEdge (hp : EdgeKept e p) {a act : ActionId} {node : ActionNode}
    {nextAct : Option ActionId}
    (hnode : s.nodeMap a = some node)
    (hnext : ∀ b, nextAct = some b → node.sb = some b ∨ node.specialEdge = some b)
    (h : s.passEdge e act nextAct = .ok s') (hs : p s) : p s' ∧ s'.nodeMap = s.nodeMap := by
  cases nextAct with
  | none =>
    cases h
    exact ⟨hs,rfl⟩
  | some nextAct =>
    obtain ⟨⟨t,status⟩,hmerge,h⟩ := bind_eq_ok.mp h
    cases h
    have hmap : t.nodeMap = s.nodeMap := (merge_frame hmerge).nodeMap
    have ht := hp.merge _ _ _ _ _ hs hmerge
    cases status with
    | true =>
      rw [← hmap] at hnode
      exact ⟨hp.push t a node nextAct ht hnode (hnext nextAct rfl),hmap⟩
    | false => exact ⟨ht,hmap⟩

theorem passChange (hp : EdgeKept e p) {act : ActionId} (h : s.passChange e act = .ok s')
    (hs : p s) : p s' := by
  unfold SCAnalysis.passChange at h
  split at h
  · cases h
    exact hs
  · rename_i node hnode
    obtain ⟨t,ht,h⟩ := bind_eq_ok.mp h
    obtain ⟨hkept,hmap⟩ := hp.passEdge hnode (fun b hb => .inl hb) ht hs
    rw [← hmap] at hnode
    exact (hp.passEdge hnode (fun b hb => .inr hb) h hkept).1

theorem mergePass (hp : EdgeKept e p) {act act2 source : ActionId} {b : Bool}
    (h : s.mergePass e act act2 source = .ok (s',b)) (hs : p s) : p s' := by
  obtain ⟨⟨t,status⟩,hmerge,h⟩ := bind_eq_ok.mp h
  have ht := hp.merge _ _ _ _ _ hs hmerge
  change (if status = true then _ else _) = _ at h
  split at h
  · obtain ⟨t',ht',h⟩ := bind_eq_ok.mp h
    cases h
    exact hp.passChange ht' ht
  · cases h
    exact ht

/-! ### Fast version -/

theorem processOwn (hp : EdgeKept e p) {read write : ActionId} {list : List ActionId} {b : Bool}
    (h : s.processOwn e read write list = .ok (s',b)) (hs : p s) : p s' := by
  unfold SCAnalysis.processOwn at h
  split at h
  · cases h
    exact hs
  split at h
  · exact hp.mergePass h hs
  · cases h
    exact hs

theorem processKnown (hp : EdgeKept e p) {read write : ActionId} {list : List ActionId} {b : Bool}
    {pos : Option ℕ} (h : s.processKnown e read write list = .ok (s',b,pos)) (hs : p s) : p s' := by
  unfold SCAnalysis.processKnown at h
  obtain ⟨write2,-,h⟩ := bind_eq_ok.mp h
  split at h
  · obtain ⟨⟨t,status⟩,hpass,h⟩ := bind_eq_ok.mp h
    cases h
    exact hp.mergePass hpass hs
  split at h
  · obtain ⟨write2,-,h⟩ := bind_eq_ok.mp h
    split at h
    · obtain ⟨⟨t,status⟩,hpass,h⟩ := bind_eq_ok.mp h
      cases h
      exact hp.mergePass hpass hs
    · cases h
      exact hs
  · cases h
    exact hs

theorem processKnowing (hp : EdgeKept e p) {read write : ActionId} {list : List ActionId} {b : Bool}
    {pos : Option ℕ} (h : s.processKnowing e read write list pos = .ok (s',b)) (hs : p s) :
    p s' := by
  unfold SCAnalysis.processKnowing at h
  dsimp only at h
  generalize searchKnowing e s write list (if pos.elim 0 (· + 1) = list.length then 0
    else pos.elim 0 (· + 1)) (list.length - 1) = r at h
  obtain ⟨write2,-,h⟩ := bind_eq_ok.mp h
  split at h
  · exact hp.mergePass h hs
  split at h
  · obtain ⟨write2,-,h⟩ := bind_eq_ok.mp h
    split at h
    · exact hp.mergePass h hs
    · cases h
      exact hs
  · cases h
    exact hs

theorem processThread (hp : EdgeKept e p) {read write : ActionId} {tid : ThreadId}
    {list : List ActionId} {b : Bool} (h : s.processThread e read write tid list = .ok (s',b))
    (hs : p s) : p s' := by
  unfold SCAnalysis.processThread at h
  split at h
  · exact hp.processOwn h hs
  · obtain ⟨⟨t,changed,pos⟩,hknown,h⟩ := bind_eq_ok.mp h
    obtain ⟨⟨t',changed'⟩,hknowing,h⟩ := bind_eq_ok.mp h
    cases h
    exact hp.processKnowing hknowing (hp.processKnown hknown hs)

theorem processThreads (hp : EdgeKept e p) {read write : ActionId} {tids : List ThreadId} {b : Bool}
    (h : processThreads e read write tids s = .ok (s',b)) (hs : p s) : p s' := by
  induction tids generalizing s b with
  | nil =>
    cases h
    exact hs
  | cons tid tids ih =>
    rw [SCAnalysis.processThreads] at h
    split at h
    · exact ih h hs
    dsimp only at h
    split at h
    · cases h
      exact hs
    split at h
    · cases h
    · exact ih h hs
    · exact ih h hs
    · obtain ⟨⟨t,changed⟩,hthread,h⟩ := bind_eq_ok.mp h
      obtain ⟨⟨t',changed'⟩,hthreads,h⟩ := bind_eq_ok.mp h
      cases h
      exact ih hthreads (hp.processThread hthread hs)

theorem processReadFast (hp : EdgeKept e p) {read : ActionId} {b : Bool}
    (h : s.processReadFast e read = .ok (s',b)) (hs : p s) : p s' := by
  obtain ⟨write,-,h⟩ := bind_eq_ok.mp h
  exact hp.processThreads h hs

theorem orderThread (hp : EdgeKept e p) {act : ActionId} {list : List ActionId} {c : Bool}
    (h : orderThread e act list s = .ok (s',c)) (hs : p s) : p s' := by
  induction list with
  | nil =>
    cases h
    exact hs
  | cons write rest ih =>
    rw [SCAnalysis.orderThread] at h
    split at h
    · exact ih h
    split at h
    · cases h
      exact hs
    split at h
    · obtain ⟨⟨t,b⟩,hpass,h⟩ := bind_eq_ok.mp h
      cases h
      exact hp.mergePass hpass hs
    · exact ih h

theorem orderThreads (hp : EdgeKept e p) {act : ActionId} {tids : List ThreadId} {c : Bool}
    (h : orderThreads e act tids s = .ok (s',c)) (hs : p s) : p s' := by
  induction tids generalizing s c with
  | nil =>
    cases h
    exact hs
  | cons tid tids ih =>
    rw [SCAnalysis.orderThreads] at h
    split at h
    · exact ih h hs
    · obtain ⟨⟨t,b⟩,hthread,h⟩ := bind_eq_ok.mp h
      obtain ⟨⟨t',b'⟩,hthreads,h⟩ := bind_eq_ok.mp h
      cases h
      exact ih hthreads (hp.orderThread hthread hs)

theorem updateConstraints (hp : EdgeKept e p) {act : ActionId} {c : Bool}
    (h : s.updateConstraints e act = .ok (s',c)) (hs : p s) : p s' :=
  hp.orderThreads h hs

end EdgeKept

/-! ### The loop -/

/-- The first update leaves the set. -/
def popUpdateSet (s : SCAnalysis) : SCAnalysis :=
  { s with updateSet := s.updateSet.tail,updateSetSize := s.updateSetSize - 1 }

/-- One turn of the loop. -/
def fastTurn (e : Execution) (s : SCAnalysis) (act : ActionId) : Result SCAnalysis := do
  let s ← s.popUpdateSet.passChange e act
  if (e.acts act).isRead then do
    let (s,_) ← s.processReadFast e act
    pure s
  else pure s

theorem computeCVFast_succ {n : ℕ} (hsize : s.updateSetSize ≠ 0) :
    computeCVFast e (n + 1) s =
      (deref s.updateSet.head? >>= fun act => fastTurn e s act >>= computeCVFast e n) := by
  rw [computeCVFast,if_neg hsize]
  congr
  funext act
  change s.popUpdateSet.passChange e act >>= _ = _
  rw [fastTurn,bind_assoc]
  congr
  funext t
  split <;> simp

theorem EdgeKept.fastTurn {p : SCAnalysis → Prop} (hp : EdgeKept e p)
    (hpop : ∀ s, p s → p s.popUpdateSet) {act : ActionId} (h : fastTurn e s act = .ok s')
    (hs : p s) : p s' := by
  obtain ⟨t,hpass,h⟩ := bind_eq_ok.mp h
  have ht := hp.passChange hpass (hpop s hs)
  split at h
  · obtain ⟨⟨t',_⟩,hread,h⟩ := bind_eq_ok.mp h
    cases h
    exact hp.processReadFast hread ht
  · cases h
    exact ht

theorem EdgeKept.computeCVFast {p : SCAnalysis → Prop} (hp : EdgeKept e p)
    (hpop : ∀ s, p s → p s.popUpdateSet) {n : ℕ} (h : computeCVFast e n s = .ok s') (hs : p s) :
    p s' := by
  induction n generalizing s with
  | zero => cases h
  | succ n ih =>
    by_cases hsize : s.updateSetSize = 0
    · rw [SCAnalysis.computeCVFast,if_pos hsize] at h
      cases h
      exact hs
    · rw [computeCVFast_succ hsize] at h
      obtain ⟨act,-,h⟩ := bind_eq_ok.mp h
      obtain ⟨t,hturn,h⟩ := bind_eq_ok.mp h
      exact ih h (hp.fastTurn hpop hturn hs)

theorem popUpdateSet_frame (s : SCAnalysis) : Frame s s.popUpdateSet :=
  ⟨rfl,rfl,rfl,rfl,rfl,fun _ h => h,id⟩

theorem fastTurn_frame {act : ActionId} (h : fastTurn e s act = .ok s') : Frame s s' :=
  (frame_kept s).fastTurn (fun t ht => ht.trans (popUpdateSet_frame t)) h (.refl s)

theorem computeCVFast_frame {n : ℕ} (h : computeCVFast e n s = .ok s') : Frame s s' :=
  (frame_kept s).computeCVFast (fun t ht => ht.trans (popUpdateSet_frame t)) h (.refl s)

/-! ### Slow version -/

theorem slowWrites_frame {read write : ActionId} {list : List ActionId}
    {r r' : SCAnalysis × Bool × Bool}
    (h : slowWrites e read write list r = .ok r') : Frame r.1 r'.1 := by
  induction list generalizing r with
  | nil =>
    cases h
    exact .refl _
  | cons write2 rest ih =>
    obtain ⟨s,changed,updateFuture⟩ := r
    unfold slowWrites at h
    split at h
    · exact ih h
    dsimp only at h
    have hbefore : ∀ {t : SCAnalysis} {c f : Bool},
        (if knows e (t.cvmap read) write2 = true then
          if (e.before write2 write || !f) = true then
            if (t.cvmap write).isNone = true then do
              let r ← pure (t,true)
              pure (r.1,c || r.2,f || r.2 && e.before write write2)
            else do
              let r ← merge e t write write2
              pure (r.1,c || r.2,f || r.2 && e.before write write2)
          else pure (t,c,f)
        else slowWrites e read write rest (t,c,f)) = .ok r' → Frame t r'.1 := by
      intro t c f h
      split at h
      · split at h
        · split at h
          · cases h
            exact .refl _
          · obtain ⟨⟨t',b⟩,hmerge,h⟩ := bind_eq_ok.mp h
            cases h
            exact merge_frame hmerge
        · cases h
          exact .refl _
      · exact ih h
    split at h
    · obtain ⟨⟨t,b⟩,hmerge,h⟩ := bind_eq_ok.mp h
      obtain ⟨_,hpure,h⟩ := bind_eq_ok.mp h
      cases hpure
      exact (merge_frame hmerge).trans (hbefore h)
    · obtain ⟨_,hpure,h⟩ := bind_eq_ok.mp h
      cases hpure
      exact hbefore h

theorem slowThreads_frame {read write : ActionId} {tids : List ThreadId}
    {r r' : SCAnalysis × Bool × Bool} (h : slowThreads e read write tids r = .ok r') :
    Frame r.1 r'.1 := by
  induction tids generalizing r with
  | nil =>
    cases h
    exact .refl _
  | cons tid tids ih =>
    rw [slowThreads] at h
    split at h
    · exact ih h
    · obtain ⟨r₁,hwrites,h⟩ := bind_eq_ok.mp h
      exact (slowWrites_frame hwrites).trans (ih h)

theorem processReadSlow_frame {read : ActionId} {future : Bool} {r : SCAnalysis × Bool × Bool}
    (h : s.processReadSlow e read future = .ok r) : Frame s r.1 := by
  obtain ⟨write,-,h⟩ := bind_eq_ok.mp h
  split at h
  · obtain ⟨⟨t,b⟩,hmerge,h⟩ := bind_eq_ok.mp h
    exact (merge_frame hmerge).trans (slowThreads_frame h)
  · exact slowThreads_frame (r := (s,false,future)) h

theorem ok_bind {α β : Type} (a : α) (f : α → Result β) : (Except.ok a >>= f) = f a := rfl

/-- The parts of a pass over one action, which the generator has too. -/
theorem passAct_eq (e : Execution) (p : Pass) (act : ActionId) :
    passAct e p act = (do
      let lastact :=
        if (e.acts act).isThreadStart then e.threads[(e.acts act).tid]?.bind Thread.creation
        else p.lastAct (e.acts act).tid
      let s ← SCGenerator.mergeLast e (SCGenerator.ensureCV e p.s act) act lastact
      let (s,changed) ← SCGenerator.mergeFinish e s act p.changed
      let lastAct := Function.update p.lastAct (e.acts act).tid (some act)
      if (e.acts act).isRead then do
        let (s,status,updateFuture) ← s.processReadSlow e act p.updateFuture
        pure ⟨s,lastAct,changed || status,updateFuture⟩
      else pure ⟨s,lastAct,changed,p.updateFuture⟩) := by
  unfold passAct SCGenerator.mergeFinish SCGenerator.ensureCV
  dsimp only
  cases hjoin : (e.acts act).getThreadOperand <;>
    cases (if (e.acts act).isThreadStart = true then
      e.threads[(e.acts act).tid]?.bind Thread.creation else p.lastAct (e.acts act).tid) <;>
    simp [SCGenerator.mergeLast,ok_bind]

theorem ensureCV_frame (e : Execution) (s : SCAnalysis) (act : ActionId) :
    Frame s (SCGenerator.ensureCV e s act) := by
  unfold SCGenerator.ensureCV
  split
  · exact .refl _
  · exact ⟨rfl,rfl,rfl,rfl,rfl,isSome_update s act _,id⟩

theorem mergeLast_frame {act : ActionId} {lastact : Option ActionId}
    (h : SCGenerator.mergeLast e s act lastact = .ok s') : Frame s s' := by
  cases lastact with
  | none =>
    cases h
    exact .refl _
  | some lastact =>
    obtain ⟨⟨t,b⟩,hmerge,h⟩ := bind_eq_ok.mp h
    cases h
    exact merge_frame hmerge

theorem mergeFinish_frame {act : ActionId} {c c' : Bool}
    (h : SCGenerator.mergeFinish e s act c = .ok (s',c')) : Frame s s' := by
  unfold SCGenerator.mergeFinish at h
  split at h
  · cases h
    exact .refl _
  · obtain ⟨finish,-,h⟩ := bind_eq_ok.mp h
    obtain ⟨⟨t,b⟩,hmerge,h⟩ := bind_eq_ok.mp h
    cases h
    exact merge_frame hmerge

theorem passAct_frame {p p' : Pass} {act : ActionId} (h : passAct e p act = .ok p') :
    Frame p.s p'.s := by
  rw [passAct_eq] at h
  obtain ⟨s₁,h₁,h⟩ := bind_eq_ok.mp h
  obtain ⟨⟨s₂,c⟩,h₂,h⟩ := bind_eq_ok.mp h
  have hframe := ((ensureCV_frame e p.s act).trans (mergeLast_frame h₁)).trans
    (mergeFinish_frame h₂)
  dsimp only at h
  split at h
  · obtain ⟨⟨s₃,c₃,f₃⟩,h₃,h⟩ := bind_eq_ok.mp h
    cases h
    exact hframe.trans (processReadSlow_frame h₃)
  · cases h
    exact hframe

theorem pass_frame {list : List ActionId} {p p' : Pass} (h : list.foldlM (passAct e) p = .ok p') :
    Frame p.s p'.s := by
  induction list generalizing p with
  | nil =>
    cases h
    exact .refl _
  | cons act list ih =>
    rw [List.foldlM_cons] at h
    obtain ⟨p₁,h₁,h⟩ := bind_eq_ok.mp h
    exact (passAct_frame h₁).trans (ih h)

theorem computeCVSlow_frame {list : List ActionId} {n : ℕ} {first : Bool}
    {lastAct : ThreadId → Option ActionId} (h : computeCVSlow e list n first lastAct s = .ok s') :
    Frame s s' := by
  induction n generalizing s first lastAct with
  | zero => cases h
  | succ n ih =>
    obtain ⟨p,hpass,h⟩ := bind_eq_ok.mp h
    have hframe : Frame s p.s := pass_frame hpass
    split at h
    · exact hframe.trans (ih h)
    split at h
    · have hallow : Frame p.s { p.s with allowNonSC := true } :=
        ⟨rfl,rfl,rfl,rfl,rfl,fun _ h => h,id⟩
      exact (hframe.trans hallow).trans (ih h)
    · cases h
      exact hframe

theorem computeCV_frame {n : ℕ} {list : List ActionId} (h : s.computeCV e n list = .ok s') :
    Frame s s' := by
  unfold computeCV at h
  split at h
  · exact computeCVFast_frame h
  · exact computeCVSlow_frame h

theorem updateConstraints_frame {act : ActionId} {c : Bool}
    (h : s.updateConstraints e act = .ok (s',c)) : Frame s s' :=
  (frame_kept s).updateConstraints h (.refl s)

end SCAnalysis
end CdsChecker
