import CdsChecker.Node

/-! The future values of a node: those that were explored stay as they are, and those to come are
one for each value and thread. -/
namespace CdsChecker

def FutureValue.SamePair (x y : FutureValue) : Prop := x.value = y.value ∧ x.tid = y.tid

instance (x y : FutureValue) : Decidable (x.SamePair y) :=
  inferInstanceAs (Decidable (x.value = y.value ∧ x.tid = y.tid))

theorem FutureValue.SamePair.symm {x y : FutureValue} (h : x.SamePair y) : y.SamePair x :=
  ⟨h.1.symm,h.2.symm⟩

theorem FutureValue.SamePair.trans {x y z : FutureValue} (h : x.SamePair y) (h' : y.SamePair z) :
    x.SamePair z :=
  ⟨h.1.trans h'.1,h.2.trans h'.2⟩

namespace Node

/-! ### Runs -/

inductive FutureEvent
  | add (fv : FutureValue)
  | increment
  deriving DecidableEq, Repr

/-- An increment has to return true. -/
def futureStep (params : ModelParams) (n : Node) : FutureEvent → Option Node
  | .add fv => some (n.addFutureValue params fv).1
  | .increment => if n.incrementFutureValue.2 then some n.incrementFutureValue.1 else none

def futureRun (params : ModelParams) (n : Node) (es : List FutureEvent) : Option Node :=
  es.foldlM (futureStep params) n

/-- The values that `get_future_value` returns, one after each increment. -/
def futureReads (params : ModelParams) : Node → List FutureEvent → List (Result FutureValue)
  | _,[] => []
  | n,ev :: es =>
    match n.futureStep params ev with
    | none => []
    | some n' =>
      (match ev with
        | .add _ => []
        | .increment => [n'.getFutureValue]) ++ futureReads params n' es

/-- The number of entries at most as far as the index. -/
def numExplored (n : Node) : ℕ := (n.futureIndex + 1).toNat

def explored (n : Node) : List FutureValue := n.futureValues.take n.numExplored

def unexplored (n : Node) : List FutureValue := n.futureValues.drop n.numExplored

/-- The newest entry of the pair is explored, the new one is younger, and the end of its window
does not fit into a clock; there is room for another entry. -/
def WindowWraps (params : ModelParams) (n : Node) (fv : FutureValue) : Prop :=
  (∃ pre x post, n.futureValues = pre ++ x :: post ∧ pre.length < n.numExplored ∧ x.SamePair fv ∧
    (∀ y ∈ post, ¬ y.SamePair fv) ∧ x.expiration < fv.expiration ∧
      2 ^ 32 ≤ x.expiration + params.expireslop) ∧
    (0 < params.maxfuturevalues → n.futureValues.length < params.maxfuturevalues)

variable {params : ModelParams} {n n' n₀ : Node} {fv : FutureValue}

/-! ### Adding a value -/

theorem samePair_iff {x y : FutureValue} :
    (x.value == y.value && x.tid == y.tid) = true ↔ x.SamePair y := by
  rw [Bool.and_eq_true,beq_iff_eq,beq_iff_eq]
  exact Iff.rfl

/-- The search fails at an entry that expires as late. -/
theorem findFutureValue_eq_none {l : List FutureValue} {i : ℕ} {idx : ℤ} :
    findFutureValue fv i idx l = none ↔ ∃ y ∈ l, y.SamePair fv ∧ fv.expiration ≤ y.expiration := by
  induction l generalizing i idx with
  | nil => simp [findFutureValue]
  | cons y l ih =>
    rw [findFutureValue]
    by_cases hsame : y.SamePair fv
    · rw [if_pos (samePair_iff.mpr hsame)]
      by_cases hle : fv.expiration ≤ y.expiration
      · simp [hle,hsame]
      · rw [if_neg hle,ih]
        simp [hle]
    · rw [if_neg (by rwa [samePair_iff]),ih]
      simp [hsame]

/-- Otherwise it gives the newest entry of the pair, if there is one. -/
theorem findFutureValue_eq_some {l : List FutureValue} {i : ℕ} {idx k : ℤ}
    (h : findFutureValue fv i idx l = some k) :
    (∀ y ∈ l, y.SamePair fv → y.expiration < fv.expiration) ∧
      ((k = idx ∧ ∀ y ∈ l, ¬ y.SamePair fv) ∨
        ∃ pre x post, l = pre ++ x :: post ∧ x.SamePair fv ∧ (∀ y ∈ post, ¬ y.SamePair fv) ∧
          k = i + pre.length) := by
  induction l generalizing i idx with
  | nil =>
    rw [findFutureValue,Option.some.injEq] at h
    exact ⟨by simp,.inl ⟨h.symm,by simp⟩⟩
  | cons y l ih =>
    rw [findFutureValue] at h
    by_cases hsame : y.SamePair fv
    · rw [if_pos (samePair_iff.mpr hsame)] at h
      by_cases hle : fv.expiration ≤ y.expiration
      · rw [if_pos hle] at h
        cases h
      · rw [if_neg hle] at h
        obtain ⟨hall,hwhere⟩ := ih h
        refine ⟨?_,.inr ?_⟩
        · simpa [hsame,Nat.lt_of_not_le hle] using hall
        · rcases hwhere with ⟨rfl,hnone⟩ | ⟨pre,x,post,rfl,hx,hpost,rfl⟩
          · exact ⟨[],y,l,rfl,hsame,hnone,by simp⟩
          · refine ⟨y :: pre,x,post,rfl,hx,hpost,?_⟩
            push_cast [List.length_cons]
            omega
    · rw [if_neg (by rwa [samePair_iff])] at h
      obtain ⟨hall,hwhere⟩ := ih h
      refine ⟨by simpa [hsame] using hall,?_⟩
      rcases hwhere with ⟨rfl,hnone⟩ | ⟨pre,x,post,rfl,hx,hpost,rfl⟩
      · exact .inl ⟨rfl,by simpa [hsame] using hnone⟩
      · refine .inr ⟨y :: pre,x,post,rfl,hx,hpost,?_⟩
        push_cast [List.length_cons]
        omega

/-- What a call does: nothing if the pair has an entry that expires as late, if its newest entry is
explored and close, or if there is no room. -/
inductive Added (params : ModelParams) (n : Node) (fv : FutureValue) : Node → Bool → Prop
  | known (h : ∃ y ∈ n.futureValues, y.SamePair fv ∧ fv.expiration ≤ y.expiration) :
      Added params n fv n false
  | updated (pre post : List FutureValue) (x : FutureValue)
      (hsplit : n.futureValues = pre ++ x :: post)
      (hnew : n.numExplored ≤ pre.length) (hsame : x.SamePair fv)
      (hpost : ∀ y ∈ post, ¬ y.SamePair fv)
      (holder : ∀ y ∈ n.futureValues, y.SamePair fv → y.expiration < fv.expiration) :
      Added params n fv { n with
        futureValues := pre ++ { x with expiration := fv.expiration } :: post } true
  | close (pre post : List FutureValue) (x : FutureValue)
      (hsplit : n.futureValues = pre ++ x :: post)
      (hsame : x.SamePair fv) (hpost : ∀ y ∈ post, ¬ y.SamePair fv)
      (hclose : fv.expiration ≤ (x.expiration + params.expireslop) % 2 ^ 32) :
      Added params n fv n false
  | full (hmax : 0 < params.maxfuturevalues)
      (hlen : params.maxfuturevalues ≤ n.futureValues.length) :
      Added params n fv n false
  | appended (hroom : 0 < params.maxfuturevalues → n.futureValues.length < params.maxfuturevalues)
      (holder : ∀ y ∈ n.futureValues, y.SamePair fv → y.expiration < fv.expiration)
      (hwindow : ∀ pre x post, n.futureValues = pre ++ x :: post → x.SamePair fv →
        (∀ y ∈ post, ¬ y.SamePair fv) → pre.length < n.numExplored ∧
          (x.expiration + params.expireslop) % 2 ^ 32 < fv.expiration) :
      Added params n fv { n with futureValues := n.futureValues ++ [fv] } true

/-- The newest entry of a pair has one place. -/
theorem split_newest {pre pre' post post' : List FutureValue} {x x' : FutureValue}
    (h : pre ++ x :: post = pre' ++ x' :: post') (hx : x.SamePair fv) (hx' : x'.SamePair fv)
    (hpost : ∀ y ∈ post, ¬ y.SamePair fv) (hpost' : ∀ y ∈ post', ¬ y.SamePair fv) :
    pre = pre' ∧ x = x' := by
  rcases List.append_eq_append_iff.mp h with ⟨l,hpre,hrest⟩ | ⟨l,hpre,hrest⟩
  · cases l with
    | nil =>
      obtain ⟨rfl,-⟩ := List.cons.inj hrest
      exact ⟨by simpa using hpre.symm,rfl⟩
    | cons y l =>
      obtain ⟨rfl,rfl⟩ := List.cons.inj hrest
      exact absurd hx' (hpost x' (by simp))
  · cases l with
    | nil =>
      obtain ⟨rfl,-⟩ := List.cons.inj hrest
      exact ⟨by simpa using hpre,rfl⟩
    | cons y l =>
      obtain ⟨rfl,rfl⟩ := List.cons.inj hrest
      exact absurd hx (hpost' x (by simp))

theorem addFutureValue_added (params : ModelParams) (fv : FutureValue)
    (hindex : -1 ≤ n.futureIndex) :
    Added params n fv (n.addFutureValue params fv).1 (n.addFutureValue params fv).2 := by
  rw [addFutureValue]
  cases hfind : findFutureValue fv 0 (-1) n.futureValues with
  | none => exact .known (findFutureValue_eq_none.mp hfind)
  | some idx =>
    obtain ⟨holder,hwhere⟩ := findFutureValue_eq_some hfind
    dsimp only
    -- the end of a call that finds nothing to update and nothing close
    have hend : (∀ pre x post, n.futureValues = pre ++ x :: post → x.SamePair fv →
        (∀ y ∈ post, ¬ y.SamePair fv) → pre.length < n.numExplored ∧
          (x.expiration + params.expireslop) % 2 ^ 32 < fv.expiration) →
        Added params n fv
          (if (decide (params.maxfuturevalues > 0) &&
              decide (n.futureValues.length ≥ params.maxfuturevalues)) = true then (n,false)
            else ({ n with futureValues := n.futureValues ++ [fv] },true)).1
          (if (decide (params.maxfuturevalues > 0) &&
              decide (n.futureValues.length ≥ params.maxfuturevalues)) = true then (n,false)
            else ({ n with futureValues := n.futureValues ++ [fv] },true)).2 := by
      intro hwindow
      split
      · rename_i hfull
        rw [Bool.and_eq_true,decide_eq_true_eq,decide_eq_true_eq] at hfull
        exact .full hfull.1 hfull.2
      · rename_i hroom
        rw [Bool.and_eq_true,decide_eq_true_eq,decide_eq_true_eq,not_and,not_le] at hroom
        exact .appended hroom holder hwindow
    rcases hwhere with ⟨rfl,hnone⟩ | ⟨pre,x,post,hsplit,hsame,hpost,rfl⟩
    · rw [if_neg (by omega),if_neg (by simp)]
      exact hend fun pre x post hsplit hsame _ => absurd hsame (hnone x (by simp [hsplit]))
    · have hidx : ((0 : ℕ) : ℤ) + (pre.length : ℤ) = (pre.length : ℤ) := by simp
      rw [hidx]
      have hget : n.futureValues[(pre.length : ℤ).toNat]? = some x := by simp [hsplit]
      by_cases hnew : n.futureIndex < pre.length
      · rw [if_pos hnew]
        have hmodify : (n.futureValues.modify (pre.length : ℤ).toNat
            fun fv' => { fv' with expiration := fv.expiration }) =
              pre ++ { x with expiration := fv.expiration } :: post := by
          rw [hsplit,Int.toNat_natCast]
          exact List.modifyTailIdx_add _ 0 pre (x :: post)
        rw [hmodify]
        refine .updated pre post x hsplit ?_ hsame hpost holder
        rw [numExplored]
        omega
      · rw [if_neg hnew,hget]
        by_cases hclose : fv.expiration ≤ (x.expiration + params.expireslop) % 2 ^ 32
        · rw [if_pos (by simp only [Option.any_some,decide_eq_true hclose,Bool.and_true]; simp)]
          exact .close pre post x hsplit hsame hpost hclose
        · rw [if_neg (by simp only [Option.any_some,decide_eq_false hclose,Bool.and_false]; simp)]
          refine hend fun pre' x' post' hsplit' hsame' hpost' => ?_
          obtain ⟨rfl,rfl⟩ := split_newest (hsplit.symm.trans hsplit') hsame hsame' hpost hpost'
          refine ⟨?_,Nat.lt_of_not_le hclose⟩
          rw [numExplored]
          omega

/-! ### One step -/

/-- The entries of a pair are younger and younger, and at most one of them is unexplored. -/
structure Orderly (params : ModelParams) (n : Node) : Prop where
  started : -1 ≤ n.futureIndex
  inRange : n.numExplored ≤ n.futureValues.length
  increasing : n.futureValues.Pairwise fun x y => x.SamePair y → x.expiration < y.expiration
  single : n.unexplored.Pairwise fun x y => ¬ x.SamePair y
  bounded : 0 < params.maxfuturevalues → n.futureValues.length ≤ params.maxfuturevalues

/-- What was explored stays as it is, and every entry stays at its place. -/
structure Follows (n n' : Node) : Prop where
  explored : n.explored <+: n'.explored
  stays : ∀ (i : ℕ) (x : FutureValue), n.futureValues[i]? = some x →
    ∃ y, n'.futureValues[i]? = some y ∧ x.SamePair y ∧ x.expiration ≤ y.expiration

theorem Follows.refl (n : Node) : n.Follows n :=
  ⟨List.prefix_refl _,fun _ x hx => ⟨x,hx,⟨rfl,rfl⟩,le_rfl⟩⟩

theorem Follows.trans {n'' : Node} (h : n.Follows n') (h' : n'.Follows n'') : n.Follows n'' where
  explored := h.explored.trans h'.explored
  stays i x hx := by
    obtain ⟨y,hy,hsame,hle⟩ := h.stays i x hx
    obtain ⟨z,hz,hsame',hle'⟩ := h'.stays i y hy
    exact ⟨z,hz,hsame.trans hsame',hle.trans hle'⟩

theorem exists_newest {l : List FutureValue} (h : ∃ y ∈ l, y.SamePair fv) :
    ∃ pre x post, l = pre ++ x :: post ∧ x.SamePair fv ∧ ∀ y ∈ post, ¬ y.SamePair fv := by
  induction l with
  | nil =>
    obtain ⟨y,hy,-⟩ := h
    cases hy
  | cons x l ih =>
    by_cases hrest : ∃ y ∈ l, y.SamePair fv
    · obtain ⟨pre,x',post,rfl,hsame,hpost⟩ := ih hrest
      exact ⟨x :: pre,x',post,rfl,hsame,hpost⟩
    · simp only [not_exists,not_and] at hrest
      obtain ⟨y,hy,hsame⟩ := h
      rcases List.mem_cons.mp hy with rfl | hy
      · exact ⟨[],y,l,rfl,hsame,hrest⟩
      · exact absurd hsame (hrest y hy)

/-- The newest entry of a pair is the youngest. -/
theorem Orderly.le_newest {pre post : List FutureValue} {x y : FutureValue} (h : n.Orderly params)
    (hsplit : n.futureValues = pre ++ x :: post) (hsame : x.SamePair fv)
    (hpost : ∀ y ∈ post, ¬ y.SamePair fv) (hy : y ∈ n.futureValues) (hysame : y.SamePair fv) :
    y.expiration ≤ x.expiration := by
  have hinc := h.increasing
  rw [hsplit,List.pairwise_append] at hinc
  rw [hsplit,List.mem_append,List.mem_cons] at hy
  rcases hy with hy | rfl | hy
  · exact Nat.le_of_lt (hinc.2.2 y hy x List.mem_cons_self (hysame.trans hsame.symm))
  · exact le_rfl
  · exact absurd hysame (hpost y hy)

theorem Orderly.added {b : Bool} (h : n.Orderly params) (hadd : Added params n fv n' b) :
    n'.Orderly params ∧ n.Follows n' := by
  cases hadd with
  | known => exact ⟨h,.refl n⟩
  | close => exact ⟨h,.refl n⟩
  | full => exact ⟨h,.refl n⟩
  | updated pre post x hsplit hnew hsame hpost holder =>
    set x' : FutureValue := { x with expiration := fv.expiration } with hx'
    have hinc := h.increasing
    have hsingle := h.single
    have hrange := h.inRange
    have hbounded := h.bounded
    rw [hsplit] at hinc hrange hbounded holder
    rw [unexplored,hsplit,List.drop_append_of_le_length hnew] at hsingle
    have hlt : x.expiration < fv.expiration := holder x (by simp) hsame
    rw [List.pairwise_append,List.pairwise_cons] at hinc hsingle
    obtain ⟨hpre,⟨-,hpost'⟩,hcross⟩ := hinc
    obtain ⟨hpreS,⟨hxS,hpostS⟩,hcrossS⟩ := hsingle
    refine ⟨⟨h.started,?_,?_,?_,?_⟩,⟨?_,?_⟩⟩
    · simpa [numExplored] using hrange
    · refine List.pairwise_append.mpr ⟨hpre,List.pairwise_cons.mpr ⟨?_,hpost'⟩,?_⟩
      · intro y hy hxy
        exact absurd (hxy.symm.trans hsame) (hpost y hy)
      · intro a ha b hb hab
        rcases List.mem_cons.mp hb with rfl | hb
        · exact holder a (by simp [ha]) (hab.trans hsame)
        · exact hcross a ha b (List.mem_cons_of_mem _ hb) hab
    · change ((pre ++ x' :: post).drop n.numExplored).Pairwise _
      rw [List.drop_append_of_le_length hnew]
      refine List.pairwise_append.mpr ⟨hpreS,List.pairwise_cons.mpr ⟨hxS,hpostS⟩,?_⟩
      intro a ha b hb hab
      rcases List.mem_cons.mp hb with rfl | hb
      · exact hcrossS a ha x List.mem_cons_self hab
      · exact hcrossS a ha b (List.mem_cons_of_mem _ hb) hab
    · intro hmax
      simpa using hbounded hmax
    · change n.explored <+: (pre ++ x' :: post).take n.numExplored
      rw [explored,hsplit,List.take_append_of_le_length hnew,List.take_append_of_le_length hnew]
    · intro i y hy
      rw [hsplit] at hy
      rcases lt_trichotomy i pre.length with hi | rfl | hi
      · rw [List.getElem?_append_left hi] at hy
        exact ⟨y,by rw [List.getElem?_append_left hi,hy],⟨rfl,rfl⟩,le_rfl⟩
      · obtain rfl : x = y := by simpa using hy
        exact ⟨x',by simp,⟨rfl,rfl⟩,Nat.le_of_lt hlt⟩
      · obtain ⟨k,rfl⟩ := Nat.exists_eq_add_of_lt hi
        refine ⟨y,?_,⟨rfl,rfl⟩,le_rfl⟩
        rw [← hy]
        simp [List.getElem?_append_right,Nat.add_assoc]
  | appended hroom holder hwindow =>
    have hrange := h.inRange
    have hfresh : ∀ y ∈ n.unexplored, ¬ y.SamePair fv := by
      intro y hy hsame
      obtain ⟨pre,x,post,hsplit,hx,hpost⟩ := exists_newest ⟨y,hy,hsame⟩
      have hall : n.futureValues = (n.explored ++ pre) ++ x :: post := by
        rw [List.append_assoc,← hsplit]
        exact (List.take_append_drop _ _).symm
      have hlt := (hwindow _ x post hall hx hpost).1
      rw [List.length_append,explored,List.length_take,Nat.min_eq_left hrange] at hlt
      omega
    refine ⟨⟨h.started,?_,?_,?_,?_⟩,⟨?_,?_⟩⟩
    · change n.numExplored ≤ (n.futureValues ++ [fv]).length
      rw [List.length_append]
      omega
    · refine List.pairwise_append.mpr ⟨h.increasing,List.pairwise_singleton _ _,?_⟩
      intro a ha b hb hab
      obtain rfl := List.mem_singleton.mp hb
      exact holder a ha hab
    · change ((n.futureValues ++ [fv]).drop n.numExplored).Pairwise _
      rw [List.drop_append_of_le_length hrange]
      refine List.pairwise_append.mpr ⟨h.single,List.pairwise_singleton _ _,?_⟩
      intro a ha b hb
      obtain rfl := List.mem_singleton.mp hb
      exact hfresh a ha
    · intro hmax
      rw [List.length_append]
      exact hroom hmax
    · change n.explored <+: (n.futureValues ++ [fv]).take n.numExplored
      rw [List.take_append_of_le_length hrange]
      exact List.prefix_refl _
    · intro i y hy
      refine ⟨y,?_,⟨rfl,rfl⟩,le_rfl⟩
      rw [List.getElem?_append_left (List.getElem?_eq_some_iff.mp hy).1,hy]

theorem incrementFutureValue_eq_true (h : n.incrementFutureValue.2 = true) :
    n.incrementFutureValue.1 = { n with futureIndex := n.futureIndex + 1 } ∧
      n.futureIndex + 1 < n.futureValues.length := by
  have hadvance : advanceIndex n.futureIndex (n.futureValues.length : ℤ) =
      ((advanceIndex n.futureIndex (n.futureValues.length : ℤ)).1,true) := Prod.ext rfl h
  obtain ⟨-,hnext,hlt⟩ := advanceIndex_eq_true hadvance
  refine ⟨?_,hnext ▸ hlt⟩
  rw [incrementFutureValue,← hnext]

theorem Orderly.increment (h : n.Orderly params) (hlt : n.futureIndex + 1 < n.futureValues.length) :
    ({ n with futureIndex := n.futureIndex + 1 } : Node).Orderly params ∧
      n.Follows { n with futureIndex := n.futureIndex + 1 } ∧
      ∃ x, n.futureValues[n.numExplored]? = some x ∧
        ({ n with futureIndex := n.futureIndex + 1 } : Node).explored = n.explored ++ [x] := by
  have hstarted := h.started
  have hnum : ({ n with futureIndex := n.futureIndex + 1 } : Node).numExplored =
      n.numExplored + 1 := by
    simp only [numExplored]
    omega
  have hroom : n.numExplored < n.futureValues.length := by
    rw [numExplored]
    omega
  obtain ⟨x,hx⟩ : ∃ x, n.futureValues[n.numExplored]? = some x :=
    ⟨_,List.getElem?_eq_getElem hroom⟩
  have htake : ({ n with futureIndex := n.futureIndex + 1 } : Node).explored =
      n.explored ++ [x] := by
    rw [explored,hnum]
    change n.futureValues.take (n.numExplored + 1) = _
    rw [List.take_add_one,hx]
    rfl
  refine ⟨⟨?_,?_,h.increasing,?_,h.bounded⟩,⟨?_,fun i y hy => ⟨y,hy,⟨rfl,rfl⟩,le_rfl⟩⟩,x,hx,htake⟩
  · change -1 ≤ n.futureIndex + 1
    omega
  · rw [hnum]
    exact hroom
  · rw [unexplored,hnum]
    change (n.futureValues.drop (n.numExplored + 1)).Pairwise _
    refine h.single.sublist ?_
    rw [unexplored,← List.tail_drop]
    exact List.tail_sublist _
  · rw [htake]
    exact List.prefix_append _ _

/-- Entries of one pair are further apart than the window is wide. -/
def Spaced (params : ModelParams) (l : List FutureValue) : Prop :=
  l.Pairwise fun x y => x.SamePair y → x.expiration + params.expireslop < y.expiration

theorem Spaced.added {b : Bool} (hs : Spaced params n.futureValues) (h : n.Orderly params)
    (hadd : Added params n fv n' b) (hfits : ¬ WindowWraps params n fv) :
    Spaced params n'.futureValues := by
  cases hadd with
  | known => exact hs
  | close => exact hs
  | full => exact hs
  | updated pre post x hsplit hnew hsame hpost holder =>
    have hlt : x.expiration < fv.expiration := holder x (by simp [hsplit]) hsame
    rw [hsplit] at hs
    obtain ⟨hpre,hrest,hcross⟩ := List.pairwise_append.mp hs
    obtain ⟨-,hpost'⟩ := List.pairwise_cons.mp hrest
    refine List.pairwise_append.mpr ⟨hpre,List.pairwise_cons.mpr ⟨?_,hpost'⟩,?_⟩
    · intro y hy hxy
      have hxy' : x.SamePair y := hxy
      exact absurd (hxy'.symm.trans hsame) (hpost y hy)
    · intro a ha b hb hab
      rcases List.mem_cons.mp hb with rfl | hb
      · exact (hcross a ha x List.mem_cons_self hab).trans hlt
      · exact hcross a ha b (List.mem_cons_of_mem _ hb) hab
  | appended hroom holder hwindow =>
    refine List.pairwise_append.mpr ⟨hs,List.pairwise_singleton _ _,fun a ha b hb hab => ?_⟩
    obtain rfl := List.mem_singleton.mp hb
    obtain ⟨pre,x,post,hsplit,hsame,hpost⟩ := exists_newest ⟨a,ha,hab⟩
    obtain ⟨hold,hfar⟩ := hwindow pre x post hsplit hsame hpost
    have hle := h.le_newest hsplit hsame hpost ha hab
    have hlt : x.expiration < b.expiration := holder x (by simp [hsplit]) hsame
    have hclock : x.expiration + params.expireslop < 2 ^ 32 := by
      by_contra hwraps
      exact hfits ⟨⟨pre,x,post,hsplit,hold,hsame,hpost,hlt,Nat.le_of_not_lt hwraps⟩,hroom⟩
    rw [Nat.mod_eq_of_lt hclock] at hfar
    omega

/-- The sum wraps, and the new entry comes too close to the newest explored one. -/
theorem WindowWraps.added {b : Bool} (h : WindowWraps params n fv) (ho : n.Orderly params)
    (hadd : Added params n fv n' b) (hslop : params.expireslop < 2 ^ 32)
    (hclock : ∀ y ∈ n.futureValues, y.expiration < 2 ^ 32) :
    n' = { n with futureValues := n.futureValues ++ [fv] } := by
  obtain ⟨⟨pre,x,post,hsplit,hold,hsame,hpost,hlt,hwraps⟩,hroom⟩ := h
  have hx : x.expiration < 2 ^ 32 := hclock x (by simp [hsplit])
  have hsmall : (x.expiration + params.expireslop) % 2 ^ 32 < x.expiration := by
    rw [Nat.mod_eq_sub_mod hwraps,Nat.mod_eq_of_lt (by omega)]
    omega
  cases hadd with
  | appended => rfl
  | known hknown =>
    obtain ⟨y,hy,hysame,hle⟩ := hknown
    have := ho.le_newest hsplit hsame hpost hy hysame
    omega
  | updated pre' post' x' hsplit' hnew hsame' hpost' =>
    obtain ⟨rfl,rfl⟩ := split_newest (hsplit.symm.trans hsplit') hsame hsame' hpost hpost'
    omega
  | close pre' post' x' hsplit' hsame' hpost' hclose =>
    obtain ⟨rfl,rfl⟩ := split_newest (hsplit.symm.trans hsplit') hsame hsame' hpost hpost'
    omega
  | full hmax hlen => exact absurd (hroom hmax) (Nat.not_lt.mpr hlen)

theorem Added.futureIndex {b : Bool} (hadd : Added params n fv n' b) :
    n'.futureIndex = n.futureIndex := by
  cases hadd <;> rfl

/-- An addition returns true where it changes something. -/
theorem Added.changes {b : Bool} (hadd : Added params n fv n' b) : b = true ↔ n' ≠ n := by
  cases hadd with
  | known => simp
  | close => simp
  | full => simp
  | updated pre post x hsplit hnew hsame hpost holder =>
    refine iff_of_true rfl fun heq => ?_
    have hvalues : pre ++ { x with expiration := fv.expiration } :: post = n.futureValues :=
      congrArg Node.futureValues heq
    rw [hsplit,List.append_cancel_left_eq,List.cons.injEq] at hvalues
    have hlt : x.expiration < fv.expiration := holder x (by simp [hsplit]) hsame
    have hexp := congrArg FutureValue.expiration hvalues.1
    exact Nat.ne_of_lt hlt hexp.symm
  | appended =>
    refine iff_of_true rfl fun heq => ?_
    have hvalues : n.futureValues ++ [fv] = n.futureValues := congrArg Node.futureValues heq
    simp at hvalues

/-! ### A whole run -/

theorem futureRun_append {es es' : List FutureEvent} :
    futureRun params n (es ++ es') = (futureRun params n es).bind fun n => futureRun params n es' :=
  List.foldlM_append

theorem futureStep_cases {ev : FutureEvent} (h : n.futureStep params ev = some n') :
    (∃ fv, ev = .add fv ∧ n' = (n.addFutureValue params fv).1) ∨
      (ev = .increment ∧ n' = { n with futureIndex := n.futureIndex + 1 } ∧
        n.futureIndex + 1 < n.futureValues.length) := by
  cases ev with
  | add fv => exact .inl ⟨fv,rfl,(Option.some.inj h).symm⟩
  | increment =>
    rw [futureStep] at h
    split at h
    · rename_i hmore
      obtain ⟨heq,hlt⟩ := incrementFutureValue_eq_true hmore
      exact .inr ⟨rfl,(Option.some.inj h).symm.trans heq,hlt⟩
    · cases h

theorem Orderly.step {ev : FutureEvent} (h : n.Orderly params)
    (hstep : n.futureStep params ev = some n') : n'.Orderly params ∧ n.Follows n' := by
  rcases futureStep_cases hstep with ⟨fv,rfl,rfl⟩ | ⟨rfl,rfl,hlt⟩
  · exact h.added (addFutureValue_added params fv h.started)
  · obtain ⟨horderly,hfollows,-⟩ := h.increment hlt
    exact ⟨horderly,hfollows⟩

theorem Orderly.run {es : List FutureEvent} (h : n.Orderly params)
    (hrun : futureRun params n es = some n') : n'.Orderly params ∧ n.Follows n' := by
  induction es generalizing n with
  | nil =>
    obtain rfl : n = n' := Option.some.inj hrun
    exact ⟨h,.refl n⟩
  | cons ev es ih =>
    obtain ⟨n₁,hstep,hrest⟩ := Option.bind_eq_some_iff.mp hrun
    obtain ⟨h₁,hfollows⟩ := h.step hstep
    obtain ⟨h',hfollows'⟩ := ih h₁ hrest
    exact ⟨h',hfollows.trans hfollows'⟩

/-- Each increment reads the next entry, as it is from then on. -/
theorem Orderly.reads {es : List FutureEvent} (h : n.Orderly params)
    (hrun : futureRun params n es = some n') :
    n'.futureIndex = n.futureIndex + es.count .increment ∧
      n'.explored.map .ok = n.explored.map .ok ++ futureReads params n es := by
  induction es generalizing n with
  | nil =>
    obtain rfl : n = n' := Option.some.inj hrun
    simp [futureReads]
  | cons ev es ih =>
    obtain ⟨n₁,hstep,hrest⟩ := Option.bind_eq_some_iff.mp hrun
    obtain ⟨h₁,hfollows⟩ := h.step hstep
    obtain ⟨hindex,hreads⟩ := ih h₁ hrest
    rw [hindex,hreads,futureReads,hstep]
    rcases futureStep_cases hstep with ⟨fv,rfl,hn₁⟩ | ⟨rfl,rfl,hlt⟩
    · have hsame : n₁.futureIndex = n.futureIndex :=
        hn₁ ▸ (addFutureValue_added params fv h.started).futureIndex
      have hexplored : n₁.explored = n.explored := by
        refine (hfollows.explored.eq_of_length ?_).symm
        rw [explored,explored,List.length_take,List.length_take,Nat.min_eq_left h.inRange,
          Nat.min_eq_left h₁.inRange,numExplored,numExplored,hsame]
      refine ⟨?_,?_⟩
      · rw [hsame,List.count_cons_of_ne (by simp)]
      · rw [hexplored]
        rfl
    · obtain ⟨-,-,x,hx,hexplored⟩ := h.increment hlt
      have hstarted := h.started
      refine ⟨?_,?_⟩
      · rw [List.count_cons_self]
        push_cast
        ring
      · have hget : ({ n with futureIndex := n.futureIndex + 1 } :
          Node).getFutureValue = .ok x := by
          have hplace : (n.futureIndex + 1).toNat = n.numExplored := rfl
          rw [getFutureValue]
          simp only [if_pos (show 0 ≤ n.futureIndex + 1 by omega),hplace,hx]
        dsimp only
        rw [hexplored,hget]
        simp

/-- The entries after a run from a node without future values. -/
structure Kept (params : ModelParams) (n₀ : Node) (es : List FutureEvent) (n : Node) : Prop where
  follows : ∀ es₁ es₂ n₁, es = es₁ ++ es₂ → futureRun params n₀ es₁ = some n₁ → n₁.Follows n
  single : n.unexplored.Pairwise fun x y => ¬ x.SamePair y
  youngest : ∀ x ∈ n.unexplored, ∀ y ∈ n.futureValues, y.SamePair x → y.expiration ≤ x.expiration
  spaced : Spaced params n.explored
  changes : ∀ fv, (n.addFutureValue params fv).2 = true ↔ (n.addFutureValue params fv).1 ≠ n
  bounded : 0 < params.maxfuturevalues → n.futureValues.length ≤ params.maxfuturevalues
  cursor : n.numExplored = es.count .increment
  more : n.incrementFutureValue.2 = true ↔ n.unexplored ≠ []
  reads : futureReads params n₀ es = n.explored.map .ok
  once : (futureReads params n₀ es).Nodup

theorem orderly_start (hvalues : n₀.futureValues = []) (hindex : n₀.futureIndex = -1) :
    n₀.Orderly params where
  started := hindex.ge
  inRange := by simp [numExplored,hindex]
  increasing := by
    rw [hvalues]
    exact .nil
  single := by
    rw [unexplored,hvalues,List.drop_nil]
    exact .nil
  bounded _ := by simp [hvalues]

/-- All but the distance to the window holds in every run. -/
theorem kept_of_spaced {es : List FutureEvent} (hvalues : n₀.futureValues = [])
    (hindex : n₀.futureIndex = -1) (hrun : futureRun params n₀ es = some n)
    (hspaced : Spaced params n.explored) : Kept params n₀ es n := by
  have hstart : n₀.Orderly params := orderly_start hvalues hindex
  obtain ⟨horderly,-⟩ := hstart.run hrun
  obtain ⟨hcursor,hreads⟩ := hstart.reads hrun
  have hnone : n₀.explored = [] := by rw [explored,hvalues,List.take_nil]
  rw [hnone,List.map_nil,List.nil_append] at hreads
  have hinRange := horderly.inRange
  have hstarted := horderly.started
  refine ⟨?_,horderly.single,?_,hspaced,?_,horderly.bounded,?_,?_,hreads.symm,?_⟩
  · intro es₁ es₂ n₁ hsplit hrun₁
    rw [hsplit,futureRun_append,hrun₁] at hrun
    exact ((hstart.run hrun₁).1.run hrun).2
  · intro x hx y hy hsame
    obtain ⟨pre,post,hsplit⟩ := List.append_of_mem hx
    have hall : n.futureValues = (n.explored ++ pre) ++ x :: post := by
      rw [List.append_assoc,← hsplit]
      exact (List.take_append_drop _ _).symm
    refine horderly.le_newest hall ⟨rfl,rfl⟩ (fun z hz hzx => ?_) hy hsame
    have hsingle := horderly.single
    rw [hsplit,List.pairwise_append,List.pairwise_cons] at hsingle
    exact hsingle.2.1.1 z hz hzx.symm
  · exact fun fv => (addFutureValue_added params fv horderly.started).changes
  · rw [numExplored,hcursor,hindex]
    omega
  · rw [incrementFutureValue,advanceIndex,unexplored,Ne,List.drop_eq_nil_iff,numExplored]
    dsimp only
    split <;> simp <;> omega
  · rw [← hreads]
    refine List.Nodup.map (fun x y hxy => Except.ok.inj hxy) ?_
    refine (horderly.increasing.sublist (List.take_sublist _ _)).imp fun hlt heq => ?_
    subst heq
    exact lt_irrefl _ (hlt ⟨rfl,rfl⟩)

theorem Spaced.run {es : List FutureEvent} (hs : Spaced params n.futureValues)
    (h : n.Orderly params) (hfits : ∀ es₁ fv es₂ n₁, es = es₁ ++ .add fv :: es₂ →
      futureRun params n es₁ = some n₁ → ¬ WindowWraps params n₁ fv)
    (hrun : futureRun params n es = some n') : Spaced params n'.futureValues := by
  induction es generalizing n with
  | nil =>
    obtain rfl : n = n' := Option.some.inj hrun
    exact hs
  | cons ev es ih =>
    obtain ⟨n₁,hstep,hrest⟩ := Option.bind_eq_some_iff.mp hrun
    refine ih ?_ (h.step hstep).1 (fun es₁ fv es₂ n₂ hsplit hrun₂ => ?_) hrest
    · rcases futureStep_cases hstep with ⟨fv,rfl,rfl⟩ | ⟨rfl,rfl,-⟩
      · exact hs.added h (addFutureValue_added params fv h.started) (hfits [] fv es n rfl rfl)
      · exact hs
    · refine hfits (ev :: es₁) fv es₂ n₂ (by rw [hsplit]; rfl) ?_
      exact Option.bind_eq_some_iff.mpr ⟨n₁,hstep,hrun₂⟩

theorem Added.clock {b : Bool} (hadd : Added params n fv n' b)
    (h : ∀ y ∈ n.futureValues, y.expiration < 2 ^ 32) (hfv : fv.expiration < 2 ^ 32) :
    ∀ y ∈ n'.futureValues, y.expiration < 2 ^ 32 := by
  cases hadd with
  | known => exact h
  | close => exact h
  | full => exact h
  | updated pre post x hsplit =>
    intro y hy
    rcases List.mem_append.mp hy with hy | hy
    · exact h y (by simp [hsplit,hy])
    · rcases List.mem_cons.mp hy with rfl | hy
      · exact hfv
      · exact h y (by simp [hsplit,hy])
  | appended =>
    intro y hy
    rcases List.mem_append.mp hy with hy | hy
    · exact h y hy
    · rw [List.mem_singleton.mp hy]
      exact hfv

theorem clock_run {es : List FutureEvent} (h : ∀ y ∈ n.futureValues, y.expiration < 2 ^ 32)
    (hindex : n.Orderly params) (hclock : ∀ fv, FutureEvent.add fv ∈ es → fv.expiration < 2 ^ 32)
    (hrun : futureRun params n es = some n') : ∀ y ∈ n'.futureValues, y.expiration < 2 ^ 32 := by
  induction es generalizing n with
  | nil =>
    obtain rfl : n = n' := Option.some.inj hrun
    exact h
  | cons ev es ih =>
    obtain ⟨n₁,hstep,hrest⟩ := Option.bind_eq_some_iff.mp hrun
    refine ih ?_ (hindex.step hstep).1 (fun fv hfv => hclock fv (List.mem_cons_of_mem _ hfv)) hrest
    rcases futureStep_cases hstep with ⟨fv,rfl,rfl⟩ | ⟨rfl,rfl,-⟩
    · exact (addFutureValue_added params fv hindex.started).clock h (hclock fv List.mem_cons_self)
    · exact h

/-- The unexplored entries can all be explored. -/
theorem Orderly.run_increments (h : n.Orderly params) {k : ℕ} (hk : k ≤ n.unexplored.length) :
    futureRun params n (List.replicate k .increment) =
      some { n with futureIndex := n.futureIndex + k } := by
  induction k generalizing n with
  | zero => simp [futureRun]
  | succ k ih =>
    have hinRange := h.inRange
    have hstarted := h.started
    rw [unexplored,List.length_drop,numExplored] at hk
    rw [numExplored] at hinRange
    have hlt : n.futureIndex + 1 < n.futureValues.length := by omega
    have hadvance : advanceIndex n.futureIndex (n.futureValues.length : ℤ) =
        (n.futureIndex + 1,true) := by
      rw [advanceIndex,if_pos (by omega),decide_eq_true hlt]
    have hstep : n.futureStep params .increment =
        some { n with futureIndex := n.futureIndex + 1 } := by
      rw [futureStep,incrementFutureValue,hadvance]
      rfl
    have hrest := ih (n := { n with futureIndex := n.futureIndex + 1 }) (h.increment hlt).1 (by
      rw [unexplored,List.length_drop,numExplored]
      dsimp only
      omega)
    rw [List.replicate_succ,futureRun,List.foldlM_cons,hstep]
    refine hrest.trans ?_
    congr 2
    push_cast
    ring

/-- The additions of a run that goes on with increments are those of the run. -/
theorem add_mem_prefix {es es₁ es₂ es' : List FutureEvent} {k : ℕ}
    (hbegins : es' <+: es ++ List.replicate k .increment) (hsplit : es' = es₁ ++ .add fv :: es₂) :
    ∃ es₃, es = es₁ ++ .add fv :: es₃ := by
  have hfirst : es₁ ++ [.add fv] <+: es ++ List.replicate k .increment := by
    refine List.IsPrefix.trans ⟨es₂,?_⟩ hbegins
    rw [hsplit]
    simp
  rcases List.prefix_or_prefix_of_prefix hfirst (List.prefix_append es _) with ⟨t,ht⟩ | ⟨t,ht⟩
  · exact ⟨t,by rw [← ht]; simp⟩
  · cases t using List.reverseRecOn with
    | nil => exact ⟨[],by simpa using ht⟩
    | append_singleton t ev =>
      -- the last event would be one of the increments
      have hlast : ev = .add fv := by
        rw [← List.append_assoc] at ht
        exact (List.append_inj' ht rfl).2 |> List.singleton_inj.mp
      rw [← ht,hlast,← List.append_assoc,List.append_assoc es] at hfirst
      have hmem : .add fv ∈ List.replicate k FutureEvent.increment :=
        ((List.prefix_append_right_inj es).mp hfirst).subset (by simp)
      cases List.eq_of_mem_replicate hmem

/-- In every run, and however many of the remaining entries are explored after it, the entries of a
node are kept as they should be, if and only if no entry is added behind an explored one of its pair
that is so late that the end of its window wraps around. -/
theorem futureValues_kept_iff {es : List FutureEvent} (hslop : params.expireslop < 2 ^ 32)
    (hvalues : n₀.futureValues = []) (hindex : n₀.futureIndex = -1)
    (hclock : ∀ fv, FutureEvent.add fv ∈ es → fv.expiration < 2 ^ 32)
    (hrun : futureRun params n₀ es = some n) :
    (∀ k es' n', es' <+: es ++ List.replicate k .increment → futureRun params n₀ es' = some n' →
      Kept params n₀ es' n') ↔
    ∀ es₁ fv es₂ n₁, es = es₁ ++ .add fv :: es₂ → futureRun params n₀ es₁ = some n₁ →
      ¬ WindowWraps params n₁ fv := by
  have hstart : n₀.Orderly params := orderly_start hvalues hindex
  constructor
  · intro hkept es₁ fv es₂ n₁ hsplit hrun₁ hwraps
    obtain ⟨h₁,-⟩ := hstart.run hrun₁
    have hclocks := clock_run (by simp [hvalues]) hstart
      (fun fv hfv => hclock fv (by rw [hsplit]; exact List.mem_append_left _ hfv)) hrun₁
    have hadded := hwraps.added h₁ (addFutureValue_added params fv h₁.started) hslop hclocks
    set n₂ : Node := { n₁ with futureValues := n₁.futureValues ++ [fv] } with hn₂
    have hrest : futureRun params n₂ es₂ = some n := by
      rw [hsplit,futureRun_append,hrun₁,Option.bind_some] at hrun
      exact hadded ▸ hrun
    have hstep₂ : n₁.futureStep params (.add fv) = some n₂ := congrArg some hadded
    obtain ⟨h₂,hfollows₁⟩ := h₁.step hstep₂
    obtain ⟨hn,hfollows₂⟩ := h₂.run hrest
    -- the remaining entries are explored
    have hall := hn.run_increments (Nat.le_refl n.unexplored.length)
    set n' : Node := { n with futureIndex := n.futureIndex + (n.unexplored.length : ℤ) } with hn'
    obtain ⟨h',hfollows₃⟩ := hn.run hall
    have hwhole : n'.explored = n'.futureValues := by
      refine List.take_of_length_le ?_
      have hstarted := hn.started
      have hinRange := hn.inRange
      rw [numExplored] at hinRange ⊢
      rw [hn',unexplored,List.length_drop,numExplored]
      dsimp only
      omega
    have hspaced := (hkept n.unexplored.length _ n' (List.prefix_refl _)
      (by rw [futureRun_append,hrun]; exact hall)).spaced
    rw [hwhole] at hspaced
    obtain ⟨⟨pre,x,post,hx,hold,hsame,hpost,hlt,hlate⟩,-⟩ := hwraps
    -- the explored entry and the new one have kept their places
    have hxplace : n'.futureValues[pre.length]? = some x := by
      have hbegins := ((hfollows₁.trans hfollows₂).trans hfollows₃).explored
      rw [hwhole] at hbegins
      have hfirst : n₁.explored[pre.length]? = some x := by
        rw [explored,List.getElem?_take_of_lt hold,hx]
        simp
      obtain ⟨t,ht⟩ := hbegins
      rw [← ht,List.getElem?_append_left (List.getElem?_eq_some_iff.mp hfirst).1,hfirst]
    obtain ⟨y,hy,hysame,-⟩ := (hfollows₂.trans hfollows₃).stays n₁.futureValues.length fv
      (by simp [hn₂])
    have hlength : pre.length < n₁.futureValues.length := by
      rw [hx]
      simp
    obtain ⟨hi,rfl⟩ := List.getElem?_eq_some_iff.mp hxplace
    obtain ⟨hj,rfl⟩ := List.getElem?_eq_some_iff.mp hy
    have hfar := List.pairwise_iff_getElem.mp hspaced _ _ hi hj hlength (hsame.trans hysame)
    have hlast := clock_run (by simp [hvalues]) hstart hclock hrun _ (List.getElem_mem hj)
    omega
  · intro hfits k es' n' hbegins hrun'
    refine kept_of_spaced hvalues hindex hrun' ?_
    have hspaced : Spaced params n₀.futureValues := by
      rw [hvalues]
      exact .nil
    refine List.Pairwise.sublist (List.take_sublist _ _) (hspaced.run hstart ?_ hrun')
    intro es₁ fv es₂ n₁ hsplit hrun₁
    obtain ⟨es₃,hes⟩ := add_mem_prefix hbegins hsplit
    exact hfits es₁ fv es₃ n₁ hes hrun₁

/-- A value is added, read, and added again with a later expiration. -/
theorem futureValues_kept_iff_twice :
    (∀ k es' n', es' <+: [.add ⟨7,20,2⟩,.increment,.add ⟨7,25,2⟩] ++ List.replicate k .increment →
      futureRun defaultParams (create 0 1 3) es' = some n' →
        Kept defaultParams (create 0 1 3) es' n') ↔
    ∀ es₁ fv es₂ n₁, [.add ⟨7,20,2⟩,.increment,.add ⟨7,25,2⟩] = es₁ ++ .add fv :: es₂ →
      futureRun defaultParams (create 0 1 3) es₁ = some n₁ →
        ¬ WindowWraps defaultParams n₁ fv :=
  futureValues_kept_iff (by decide) rfl rfl (by simp) rfl

/-- The largest delay and the largest window of the command line: the value of the second write is
in the window of the first one, but is added. -/
theorem not_kept_late :
    ∃ n, futureRun { maxfuturevalues := 0,expireslop := 2147483647 } (create 0 1 3)
        [.add ⟨7,2147483650,2⟩,.increment,.add ⟨7,2147483652,2⟩,.increment] = some n ∧
      ¬ Kept { maxfuturevalues := 0,expireslop := 2147483647 } (create 0 1 3)
        [.add ⟨7,2147483650,2⟩,.increment,.add ⟨7,2147483652,2⟩,.increment] n := by
  refine ⟨_,rfl,fun h => ?_⟩
  have hspaced := h.spaced
  unfold Spaced at hspaced
  revert hspaced
  decide

end Node
end CdsChecker
