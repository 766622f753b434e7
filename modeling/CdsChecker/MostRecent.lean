import CdsChecker.EdgeAsserts
import CdsChecker.Library.LevelSearch

/-! The most recent method calls that satisfy a condition. -/
namespace CdsChecker.ExecutionGraph

/-- The match is put into the result where none of the result is behind it. -/
def keepRecent (g : ExecutionGraph) (condition : Method → Bool) (res : MethodSet) (m : Method) :
    MethodSet :=
  let recencyFlag := res.toList.all fun r => decide (r ∉ (g.methods m).allNext)
  if condition m && recencyFlag then res.insert m else res

def mostRecentLoop (g : ExecutionGraph) (condition : Method → Bool) :
    ℕ → List Method → MethodSet → Result MethodSet
  | _,[],res => .ok res
  | 0,_ :: _,_ => .error .diverges
  | fuel + 1,m :: toCheckList,res =>
    if condition m then mostRecentLoop g condition fuel toCheckList (g.keepRecent condition res m)
    else mostRecentLoop g condition fuel (toCheckList ++ (g.methods m).prev.toList) res

def mostRecent (fuel : ℕ) (g : ExecutionGraph) (condition : Method → Bool) (method : Method) :
    Result MethodSet :=
  if (g.methods method).prev.toList.isEmpty then .ok .empty
  else mostRecentLoop g condition fuel (g.methods method).prev.toList .empty

/-! ### The search upward -/

variable {g : ExecutionGraph} {condition : Method → Bool} {m x y p : Method} {res : MethodSet}

/-- The search does not go on from a match. -/
def upward (g : ExecutionGraph) (condition : Method → Bool) (m : Method) : List Method :=
  if condition m then [] else (g.methods m).prev.toList

theorem mostRecentLoop_eq (fuel : ℕ) (q : List Method) (res : MethodSet) :
    mostRecentLoop g condition fuel q res =
      match serve (g.upward condition) (g.keepRecent condition) fuel q res with
      | some res => .ok res
      | none => .error .diverges := by
  induction fuel generalizing q res with
  | zero => cases q <;> rfl
  | succ fuel ih =>
    cases q with
    | nil => rfl
    | cons m q =>
      rw [mostRecentLoop,serve]
      by_cases hcond : condition m = true
      · rw [if_pos hcond,ih,upward,if_pos hcond,List.append_nil]
      · have hkeep : g.keepRecent condition res m = res := by simp [keepRecent,hcond]
        rw [if_neg hcond,ih,upward,if_neg hcond,hkeep]

/-- A method graph with a transitive order and its reduction. -/
structure Reduced (g : ExecutionGraph) : Prop where
  closed : ∀ x ∈ g.methodList, ∀ y ∈ (g.methods x).allPrev, y ∈ g.methodList
  mirror : ∀ x ∈ g.methodList, ∀ y ∈ g.methodList,
    y ∈ (g.methods x).allNext ↔ x ∈ (g.methods y).allPrev
  trans : ∀ x ∈ g.methodList, ∀ y ∈ (g.methods x).allPrev, ∀ z ∈ (g.methods y).allPrev,
    z ∈ (g.methods x).allPrev
  irrefl : ∀ x ∈ g.methodList, x ∉ (g.methods x).allPrev
  prev : ∀ x ∈ g.methodList, ∀ y, y ∈ (g.methods x).prev ↔ g.DirectPrev x y

/-- The number of method calls before this one. -/
def depth (g : ExecutionGraph) (m : Method) : ℕ := (g.methods m).allPrev.toList.length

/-- The method calls that the search meets, in its order. -/
def breadthFirst (g : ExecutionGraph) (condition : Method → Bool) (m : Method) : List Method :=
  levels (g.upward condition) (g.methods m).prev.toList (g.depth m)

/-- It matches, and nothing after it before `m` does. -/
def IsMostRecent (g : ExecutionGraph) (condition : Method → Bool) (m x : Method) : Prop :=
  x ∈ (g.methods m).allPrev ∧ condition x = true ∧
    ∀ y ∈ (g.methods m).allPrev, condition y = true → y ∉ (g.methods x).allNext

namespace Reduced

variable (h : g.Reduced)

include h

theorem depth_lt (hx : x ∈ g.methodList) (hy : y ∈ (g.methods x).allPrev) :
    g.depth y < g.depth x := by
  have hsub : y :: (g.methods y).allPrev.toList ⊆ (g.methods x).allPrev.toList := by
    intro z hz
    rcases List.mem_cons.mp hz with rfl | hz
    · exact hy
    · exact h.trans x hx y hy z hz
  have hnodup : (y :: (g.methods y).allPrev.toList).Nodup :=
    List.nodup_cons.mpr ⟨h.irrefl y (h.closed x hx y hy),(g.methods y).allPrev.nodup⟩
  have hle := (List.subperm_of_subset hnodup hsub).length_le
  rw [List.length_cons] at hle
  exact hle

theorem level_spec (hm : m ∈ g.methodList) {k : ℕ}
    (hx : x ∈ level (g.upward condition) (g.methods m).prev.toList k) :
    x ∈ (g.methods m).allPrev ∧ g.depth x + k < g.depth m := by
  induction k generalizing x with
  | zero =>
    have hprev := ((h.prev m hm x).mp hx).1
    exact ⟨hprev,h.depth_lt hm hprev⟩
  | succ k ih =>
    obtain ⟨y,hy,hxy⟩ := List.mem_flatMap.mp hx
    obtain ⟨hym,hdepth⟩ := ih hy
    have hyl := h.closed m hm y hym
    have hprev : x ∈ (g.methods y).prev := by
      unfold upward at hxy
      split at hxy
      · cases hxy
      · exact hxy
    have hxy' := ((h.prev y hyl x).mp hprev).1
    have hlt := h.depth_lt hyl hxy'
    exact ⟨h.trans m hm y hym x hxy',by omega⟩

theorem level_depth (hm : m ∈ g.methodList) :
    level (g.upward condition) (g.methods m).prev.toList (g.depth m) = [] := by
  refine List.eq_nil_iff_forall_not_mem.mpr fun x hx => ?_
  have hlt := (h.level_spec hm hx).2
  omega

theorem mem_breadthFirst (hm : m ∈ g.methodList) : x ∈ g.breadthFirst condition m ↔
    ∃ k, x ∈ level (g.upward condition) (g.methods m).prev.toList k := by
  rw [breadthFirst,mem_levels]
  constructor
  · rintro ⟨k,-,hx⟩
    exact ⟨k,hx⟩
  · rintro ⟨k,hx⟩
    have hlt := (h.level_spec hm hx).2
    exact ⟨k,by omega,hx⟩

/-- From each method call with `x` before it there is a direct step towards `x`. -/
theorem exists_prev (hy : y ∈ g.methodList) (hx : x ∈ (g.methods y).allPrev) :
    ∃ p ∈ (g.methods y).prev, p = x ∨ x ∈ (g.methods p).allPrev := by
  classical
  obtain ⟨p,hp,hmax⟩ := Finset.exists_max_image
    ((g.methods y).allPrev.toList.toFinset.filter fun p => p = x ∨ x ∈ (g.methods p).allPrev)
    g.depth ⟨x,by simpa [MethodSet.mem_toList] using hx⟩
  simp only [Finset.mem_filter,List.mem_toFinset,MethodSet.mem_toList] at hp hmax
  obtain ⟨hpy,hpx⟩ := hp
  have hpl := h.closed y hy p hpy
  refine ⟨p,(h.prev y hy p).mpr ⟨hpy,fun q hq hqp => ?_⟩,hpx⟩
  have hql := h.closed y hy q hq
  have hpq := (h.mirror p hpl q hql).mp hqp
  have hlt := h.depth_lt hql hpq
  have hxq : x ∈ (g.methods q).allPrev := by
    rcases hpx with rfl | hpx
    · exact hpq
    · exact h.trans q hql p hpq x hpx
  exact absurd (hmax q ⟨hq,.inr hxq⟩) (by omega)

/-- The search meets all that is to be found. -/
theorem mem_of_isMostRecent (hm : m ∈ g.methodList) (hx : g.IsMostRecent condition m x) :
    x ∈ g.breadthFirst condition m := by
  obtain ⟨hxm,-,hlast⟩ := hx
  rw [h.mem_breadthFirst hm]
  suffices hwalk : ∀ n y, g.depth y ≤ n → (y = m ∨ y ∈ (g.methods m).allPrev) →
      x ∈ (g.methods y).allPrev →
      (∀ p ∈ (g.methods y).prev, ∃ k, p ∈ level (g.upward condition) (g.methods m).prev.toList k) →
      ∃ k, x ∈ level (g.upward condition) (g.methods m).prev.toList k from
    hwalk _ m (Nat.le_refl _) (.inl rfl) hxm fun p hp => ⟨0,hp⟩
  intro n
  induction n with
  | zero =>
    intro y hdepth hym hxy _
    have hyl : y ∈ g.methodList := by
      rcases hym with rfl | hym
      · exact hm
      · exact h.closed m hm y hym
    have hlt := h.depth_lt hyl hxy
    omega
  | succ n ih =>
    intro y hdepth hym hxy hvisited
    have hyl : y ∈ g.methodList := by
      rcases hym with rfl | hym
      · exact hm
      · exact h.closed m hm y hym
    obtain ⟨p,hp,rfl | hxp⟩ := h.exists_prev hyl hxy
    · exact hvisited p hp
    · have hpy := ((h.prev y hyl p).mp hp).1
      have hpl := h.closed y hyl p hpy
      have hpm : p ∈ (g.methods m).allPrev := by
        rcases hym with rfl | hym
        · exact hpy
        · exact h.trans m hm y hym p hpy
      have hxl := h.closed m hm x hxm
      -- a match here would be later than `x`
      have hnot : ¬condition p = true := fun hcond =>
        hlast p hpm hcond ((h.mirror x hxl p hpl).mpr hxp)
      have hlt := h.depth_lt hyl hpy
      obtain ⟨k,hk⟩ := hvisited p hp
      refine ih p (by omega) (.inr hpm) hxp fun q hq => ⟨k + 1,List.mem_flatMap.mpr ⟨p,hk,?_⟩⟩
      rw [upward,if_neg hnot]
      exact hq

end Reduced

/-! ### The result -/

theorem mem_keepRecent : y ∈ g.keepRecent condition res x ↔ y ∈ res ∨
    y = x ∧ condition x = true ∧ ∀ r ∈ res, r ∉ (g.methods x).allNext := by
  simp only [keepRecent,Bool.and_eq_true,List.all_eq_true,decide_eq_true_eq,MethodSet.mem_toList]
  split
  · rename_i hkeep
    rw [MethodSet.mem_insert]
    simp only [hkeep,true_and]
    exact ⟨fun hy => hy.imp_right fun hx => ⟨hx,hkeep.2⟩,fun hy => hy.imp_right And.left⟩
  · rename_i hnot
    exact ⟨.inl,fun hy => hy.resolve_right fun hx => hnot hx.2⟩

theorem subset_foldl {l : List Method} (hy : y ∈ res) :
    y ∈ l.foldl (g.keepRecent condition) res := by
  induction l generalizing res with
  | nil => exact hy
  | cons x l ih => exact ih (mem_keepRecent.mpr (.inl hy))

theorem mem_of_foldl {l : List Method} (hy : y ∈ l.foldl (g.keepRecent condition) res) :
    y ∈ res ∨ y ∈ l ∧ condition y = true := by
  induction l generalizing res with
  | nil => exact .inl hy
  | cons x l ih =>
    rcases ih hy with hy | ⟨hy,hcond⟩
    · rcases mem_keepRecent.mp hy with hy | ⟨rfl,hcond,-⟩
      · exact .inl hy
      · exact .inr ⟨List.mem_cons_self ..,hcond⟩
    · exact .inr ⟨List.mem_cons_of_mem _ hy,hcond⟩

/-- Once something later is in the result the match is not put there. -/
theorem not_mem_foldl {l : List Method} (hx : x ∉ res)
    (hlater : ∃ r ∈ res, r ∈ (g.methods x).allNext) :
    x ∉ l.foldl (g.keepRecent condition) res := by
  induction l generalizing res with
  | nil => exact hx
  | cons z l ih =>
    obtain ⟨r,hr,hrx⟩ := hlater
    refine ih (fun hin => ?_) ⟨r,mem_keepRecent.mpr (.inl hr),hrx⟩
    rcases mem_keepRecent.mp hin with hin | ⟨rfl,-,hnone⟩
    · exact hx hin
    · exact hnone r hr hrx

/-- It is decided when the match is met first. -/
theorem mem_foldl_append {pre post : List Method} (hx : x ∉ pre) (hcond : condition x = true) :
    x ∈ (pre ++ x :: post).foldl (g.keepRecent condition) .empty ↔
      ∀ r ∈ pre.foldl (g.keepRecent condition) .empty, r ∉ (g.methods x).allNext := by
  rw [List.foldl_append,List.foldl_cons]
  have hnot : x ∉ pre.foldl (g.keepRecent condition) .empty := by
    intro hin
    rcases mem_of_foldl hin with hin | ⟨hin,-⟩
    · exact MethodSet.not_mem_empty hin
    · exact hx hin
  constructor
  · intro hin
    by_contra hlater
    push Not at hlater
    have hkeep : x ∉ g.keepRecent condition (pre.foldl (g.keepRecent condition) .empty) x := by
      intro hkeep
      rcases mem_keepRecent.mp hkeep with hkeep | ⟨-,-,hnone⟩
      · exact hnot hkeep
      · obtain ⟨r,hr,hrx⟩ := hlater
        exact hnone r hr hrx
    obtain ⟨r,hr,hrx⟩ := hlater
    exact not_mem_foldl hkeep ⟨r,mem_keepRecent.mpr (.inl hr),hrx⟩ hin
  · intro hnone
    exact subset_foldl (mem_keepRecent.mpr (.inr ⟨rfl,hcond,hnone⟩))

/-- Each match that is met is in the result, or a later one is. -/
theorem exists_kept {pre : List Method} (hy : y ∈ pre) (hcond : condition y = true) :
    ∃ r ∈ pre.foldl (g.keepRecent condition) .empty, r = y ∨ r ∈ (g.methods y).allNext := by
  obtain ⟨a,b,rfl,hya⟩ := List.eq_append_cons_of_mem hy
  by_cases hnone : ∀ r ∈ a.foldl (g.keepRecent condition) .empty, r ∉ (g.methods y).allNext
  · exact ⟨y,(mem_foldl_append hya hcond).mpr hnone,.inl rfl⟩
  · push Not at hnone
    obtain ⟨r,hr,hry⟩ := hnone
    refine ⟨r,?_,.inr hry⟩
    rw [List.foldl_append]
    exact subset_foldl hr

/-- A match with a later match before `m` is met after such a one. -/
def LaterFirst (g : ExecutionGraph) (condition : Method → Bool) (m : Method) : Prop :=
  ∀ pre x post, g.breadthFirst condition m = pre ++ x :: post → x ∉ pre → condition x = true →
    (∃ y ∈ (g.methods m).allPrev, condition y = true ∧ y ∈ (g.methods x).allNext) →
    ∃ y ∈ pre, condition y = true ∧ y ∈ (g.methods x).allNext

namespace Reduced

variable (h : g.Reduced)

include h

theorem mem_allPrev (hm : m ∈ g.methodList) (hx : x ∈ g.breadthFirst condition m) :
    x ∈ (g.methods m).allPrev := by
  obtain ⟨k,hk⟩ := (h.mem_breadthFirst hm).mp hx
  exact (h.level_spec hm hk).1

theorem foldl_exact (hm : m ∈ g.methodList) :
    (∀ x, x ∈ (g.breadthFirst condition m).foldl (g.keepRecent condition) .empty ↔
      g.IsMostRecent condition m x) ↔ g.LaterFirst condition m := by
  constructor
  · intro hexact pre x post hsplit hx hcond hlater
    have hnot : x ∉ (g.breadthFirst condition m).foldl (g.keepRecent condition) .empty := by
      rw [hexact]
      rintro ⟨-,-,hlast⟩
      obtain ⟨y,hy,hycond,hyx⟩ := hlater
      exact hlast y hy hycond hyx
    rw [hsplit,mem_foldl_append hx hcond] at hnot
    push Not at hnot
    obtain ⟨r,hr,hrx⟩ := hnot
    rcases mem_of_foldl hr with hr | ⟨hr,hrcond⟩
    · exact absurd hr MethodSet.not_mem_empty
    · exact ⟨r,hr,hrcond,hrx⟩
  · intro hlater
    have hfirst : ∀ pre x post, g.breadthFirst condition m = pre ++ x :: post → x ∉ pre →
        condition x = true → (x ∈ (pre ++ x :: post).foldl (g.keepRecent condition) .empty ↔
          g.IsMostRecent condition m x) := by
      intro pre x post hsplit hx hcond
      have hxm := h.mem_allPrev hm (hsplit ▸ List.mem_append_right pre (List.mem_cons_self ..))
      have hpre : ∀ y ∈ pre, y ∈ (g.methods m).allPrev := fun y hy =>
        h.mem_allPrev hm (hsplit ▸ List.mem_append_left _ hy)
      rw [mem_foldl_append hx hcond]
      constructor
      · refine fun hnone => ⟨hxm,hcond,fun y hy hycond hyx => ?_⟩
        obtain ⟨z,hz,hzcond,hzx⟩ := hlater pre x post hsplit hx hcond ⟨y,hy,hycond,hyx⟩
        obtain ⟨r,hr,rfl | hrz⟩ := exists_kept hz hzcond
        · exact hnone r hr hzx
        · refine hnone r hr ?_
          have hxl := h.closed m hm x hxm
          have hzl := h.closed m hm z (hpre z hz)
          have hrm : r ∈ (g.methods m).allPrev := by
            rcases mem_of_foldl hr with hr | ⟨hr,-⟩
            · exact absurd hr MethodSet.not_mem_empty
            · exact hpre r hr
          have hrl := h.closed m hm r hrm
          exact (h.mirror x hxl r hrl).mpr
            (h.trans r hrl z ((h.mirror z hzl r hrl).mp hrz) x ((h.mirror x hxl z hzl).mp hzx))
      · rintro ⟨-,-,hlast⟩ r hr
        rcases mem_of_foldl hr with hr | ⟨hr,hrcond⟩
        · exact absurd hr MethodSet.not_mem_empty
        · exact hlast r (hpre r hr) hrcond
    intro x
    constructor
    · intro hin
      rcases mem_of_foldl hin with hin | ⟨hmet,hcond⟩
      · exact absurd hin MethodSet.not_mem_empty
      · obtain ⟨pre,post,hsplit,hx⟩ := List.eq_append_cons_of_mem hmet
        rw [hsplit] at hin
        exact (hfirst pre x post hsplit hx hcond).mp hin
    · intro hrecent
      obtain ⟨pre,post,hsplit,hx⟩ := List.eq_append_cons_of_mem (h.mem_of_isMostRecent hm hrecent)
      rw [hsplit]
      exact (hfirst pre x post hsplit hx hrecent.2.1).mpr hrecent

end Reduced

/-- The search ends. Its result is exact where a match comes behind a later one. -/
theorem mostRecent_exact_iff (h : g.Reduced) (hm : m ∈ g.methodList) (condition : Method → Bool) :
    ∃ fuel res, g.mostRecent fuel condition m = .ok res ∧
      ((∀ x, x ∈ res ↔ g.IsMostRecent condition m x) ↔ g.LaterFirst condition m) := by
  obtain ⟨fuel,hserve⟩ : ∃ fuel, serve (g.upward condition) (g.keepRecent condition) fuel
      (g.methods m).prev.toList .empty =
        some ((g.breadthFirst condition m).foldl (g.keepRecent condition) .empty) :=
    exists_serve (h.level_depth hm)
  have hloop : mostRecentLoop g condition fuel (g.methods m).prev.toList .empty =
      .ok ((g.breadthFirst condition m).foldl (g.keepRecent condition) .empty) := by
    rw [mostRecentLoop_eq,hserve]
  refine ⟨fuel,_,?_,h.foldl_exact hm⟩
  rw [mostRecent]
  split
  · rename_i hempty
    rw [List.isEmpty_iff.mp hempty] at hloop
    cases fuel <;> exact hloop
  · exact hloop

/-- What `buildEdges` leaves, where the order is transitive. -/
theorem Built.reduced {g₀ : ExecutionGraph} {startMethod finishMethod : Method}
    (h : Built g₀ g startMethod finishMethod)
    (htrans : ∀ x ∈ g.methodList, ∀ y ∈ (g.methods x).allPrev.toList,
      ∀ z ∈ (g.methods y).allPrev.toList, z ∈ (g.methods x).allPrev) : g.Reduced where
  closed x hx y hy := ((h.allPrev x hx y).mp hy).mem.1
  mirror x hx y hy := (h.allNext x hx y).trans (h.allPrev y hy x).symm
  trans := htrans
  irrefl x hx hself := h.ne_of_ordered ((h.allPrev x hx x).mp hself) rfl
  prev := h.prev

/-- The call 1 is before all others. The calls 2, 3 and 5 follow it in a thread of their own, the
call 4 in another one, in which the call 6 comes behind 4 and 5. -/
def shortPath : ExecutionGraph where
  acts := fun a => {
    type := .atomicRmw
    order := .acqRel
    location := .object a
    tid := if a = 1 then 1 else if a = 4 ∨ a = 6 then 3 else 2
    seqNumber := if a = 4 then 5 else if a = 5 then 4 else a
    cv := ([⟨[]⟩,⟨[0,1]⟩,⟨[0,1,2]⟩,⟨[0,1,3]⟩,⟨[0,1,0,5]⟩,⟨[0,1,4]⟩,⟨[0,1,4,6]⟩] :
      List ClockVector).getD
      a ⟨[]⟩ }
  methods := fun m => { name := .interface m,orderingPoints := [m] }
  methodList := [1,2,3,5,4,6]

theorem shortPath_spec : ∃ g, shortPath.linkEdges 0 7 = .ok g ∧ g.Reduced ∧ 6 ∈ g.methodList ∧
    g.mostRecent 6 (fun x => x == 1 || x == 2) 6 = .ok ((MethodSet.empty.insert 1).insert 2) ∧
    1 ∈ (g.methods 6).allPrev ∧ 2 ∈ (g.methods 6).allPrev ∧ 2 ∈ (g.methods 1).allNext := by
  have hext : shortPath.Extracted := ⟨by decide,fun m _ => ⟨m,none,[m],rfl⟩,rfl⟩
  have hnew : shortPath.NewFake 0 7 := ⟨by decide,by decide,by decide⟩
  have hrun : ∃ g, shortPath.linkEdges 0 7 = .ok g ∧ g.cyclic = false ∧
      (∀ x ∈ g.methodList, ∀ y ∈ (g.methods x).allPrev.toList,
        ∀ z ∈ (g.methods y).allPrev.toList, z ∈ (g.methods x).allPrev) ∧ 6 ∈ g.methodList ∧
      g.mostRecent 6 (fun x => x == 1 || x == 2) 6 = .ok ((MethodSet.empty.insert 1).insert 2) ∧
      1 ∈ (g.methods 6).allPrev ∧ 2 ∈ (g.methods 6).allPrev ∧ 2 ∈ (g.methods 1).allNext :=
    ⟨_,rfl,rfl,by decide,by decide,rfl,by decide,by decide,by decide⟩
  obtain ⟨g,hlink,hcyclic,htrans,hrest⟩ := hrun
  obtain ⟨g',hlink',hbuilt⟩ := linkEdges_spec hext hnew
  rw [hlink] at hlink'
  cases hlink'
  exact ⟨g,hlink,(hbuilt hcyclic).reduced htrans,hrest⟩

/-- The call 1 is met on the short path past 4 before the call 2, and stays in the result. -/
theorem mostRecent_keepsOld : ∃ g, shortPath.linkEdges 0 7 = .ok g ∧ g.Reduced ∧ 6 ∈ g.methodList ∧
    ∃ fuel res, g.mostRecent fuel (fun x => x == 1 || x == 2) 6 = .ok res ∧ 1 ∈ res ∧
      ¬g.IsMostRecent (fun x => x == 1 || x == 2) 6 1 := by
  obtain ⟨g,hlink,hreduced,hmem,hres,-,h2,hlater⟩ := shortPath_spec
  exact ⟨g,hlink,hreduced,hmem,6,_,hres,by decide,fun hrecent => hrecent.2.2 2 h2 rfl hlater⟩

theorem mostRecent_exact_iff_shortPath : ∃ g : ExecutionGraph, g.Reduced ∧ 6 ∈ g.methodList ∧
    g.LaterFirst (fun x => x == 2) 6 ∧ ∃ fuel res, g.mostRecent fuel (fun x => x == 2) 6 = .ok res ∧
      ∀ x, x ∈ res ↔ g.IsMostRecent (fun x => x == 2) 6 x := by
  obtain ⟨g,-,hreduced,hmem,-,-,h2,-⟩ := shortPath_spec
  -- no match has a later one
  have hfirst : g.LaterFirst (fun x => x == 2) 6 := by
    rintro pre x post - - hx ⟨y,-,hy,hlater⟩
    rw [beq_iff_eq] at hx hy
    subst hx hy
    have hl := hreduced.closed 6 hmem 2 h2
    exact absurd ((hreduced.mirror 2 hl 2 hl).mp hlater) (hreduced.irrefl 2 hl)
  obtain ⟨fuel,res,hres,hiff⟩ := mostRecent_exact_iff hreduced hmem fun x => x == 2
  exact ⟨g,hreduced,hmem,hfirst,fuel,res,hres,hiff.mpr hfirst⟩

end CdsChecker.ExecutionGraph
