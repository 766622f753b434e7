import Mathlib.Data.List.Nodup
import Mathlib.Data.List.Flatten
import Mathlib.Tactic

/-! Depth-first search with an explicit stack of nodes: a visited node is dropped, or is a result,
or is replaced by its children. -/

namespace StackSearch

variable {α ε : Type}

inductive Visit (α : Type)
  | drop
  | found
  | expand (children : List α)

variable (stuck : ε) (visit : α → Except ε (Visit α))

/-- The loop, which takes the last node off the stack. -/
def loop : ℕ → List α → List α → Except ε (List α)
  | 0,_,_ => .error stuck
  | n + 1,stack,found =>
    match stack.getLast? with
    | none => .ok found
    | some x =>
      match visit x with
      | .error err => .error err
      | .ok .drop => loop n stack.dropLast found
      | .ok .found => loop n stack.dropLast (found ++ [x])
      | .ok (.expand children) => loop n (stack.dropLast ++ children) found

/-- More turns make no difference to a search that has ended. -/
theorem loop_mono {n m : ℕ} {stack found l : List α} (h : loop stuck visit n stack found = .ok l)
    (hnm : n ≤ m) : loop stuck visit m stack found = .ok l := by
  induction n generalizing m stack found with
  | zero => cases h
  | succ n ih =>
    obtain ⟨m,rfl⟩ := Nat.exists_eq_succ_of_ne_zero (Nat.ne_of_gt (Nat.zero_lt_of_lt hnm))
    have hle : n ≤ m := Nat.succ_le_succ_iff.mp hnm
    rw [loop] at h ⊢
    cases hlast : stack.getLast? with
    | none =>
      rw [hlast] at h
      exact h
    | some x =>
      rw [hlast] at h
      dsimp only at h ⊢
      cases hvisit : visit x with
      | error err =>
        rw [hvisit] at h
        cases h
      | ok v =>
        rw [hvisit] at h
        cases v <;> exact ih h hle

/-- The search from this node goes well and ends with these results, in order. -/
inductive Yields : α → List α → Prop
  | drop {x : α} (h : visit x = .ok .drop) : Yields x []
  | found {x : α} (h : visit x = .ok .found) : Yields x [x]
  | expand {x : α} {children : List α} (results : α → List α) (h : visit x = .ok (.expand children))
    (hall : ∀ y ∈ children, Yields y (results y)) :
    Yields x (children.reverse.flatMap results)

/-- What the search comes across. -/
inductive Under (x : α) : α → Prop
  | refl : Under x x
  | child {y z : α} {children : List α} (h : Under x y) (hy : visit y = .ok (.expand children))
    (hz : z ∈ children) : Under x z

variable {stuck : ε} {visit : α → Except ε (Visit α)}

theorem Under.trans {x y z : α} (h : Under visit x y) (h' : Under visit y z) : Under visit x z := by
  induction h' with
  | refl => exact h
  | child _ hy hz ih => exact ih.child hy hz

/-- The first step down. -/
theorem Under.cases_first {x z : α} (h : Under visit x z) :
    z = x ∨ ∃ children, visit x = .ok (.expand children) ∧ ∃ y ∈ children, Under visit y z := by
  induction h with
  | refl => exact .inl rfl
  | child _ hy hz ih =>
    right
    rcases ih with rfl | ⟨children,hx,y,hmem,hunder⟩
    · exact ⟨_,hy,_,hz,.refl⟩
    · exact ⟨children,hx,y,hmem,hunder.child hy hz⟩

/-- The results below a node are the ones found there. -/
theorem Yields.mem {x z : α} {l : List α} (h : Yields visit x l) :
    z ∈ l ↔ Under visit x z ∧ visit z = .ok .found := by
  induction h with
  | drop h =>
    refine iff_of_false (by simp) ?_
    rintro ⟨hunder,hfound⟩
    rcases hunder.cases_first with rfl | ⟨children,hx,-⟩
    · rw [h] at hfound
      cases hfound
    · rw [h] at hx
      cases hx
  | found h =>
    rw [List.mem_singleton]
    constructor
    · rintro rfl
      exact ⟨.refl,h⟩
    · rintro ⟨hunder,-⟩
      rcases hunder.cases_first with rfl | ⟨children,hx,-⟩
      · rfl
      · rw [h] at hx
        cases hx
  | expand results h hall ih =>
    rw [List.mem_flatMap]
    constructor
    · rintro ⟨y,hy,hz⟩
      rw [List.mem_reverse] at hy
      obtain ⟨hunder,hfound⟩ := (ih y hy).mp hz
      exact ⟨(Under.refl.child h hy).trans hunder,hfound⟩
    · rintro ⟨hunder,hfound⟩
      rcases hunder.cases_first with rfl | ⟨children,hx,y,hy,hunder⟩
      · rw [h] at hfound
        cases hfound
      · rw [h] at hx
        cases hx
        exact ⟨y,List.mem_reverse.mpr hy,(ih y hy).mpr ⟨hunder,hfound⟩⟩

/-- Where the parts below different children are disjoint, nothing is found twice. -/
theorem Yields.nodup {x : α} {l : List α} (h : Yields visit x l)
    (hchildren : ∀ y children, Under visit x y → visit y = .ok (.expand children) → children.Nodup)
    (hdisjoint : ∀ w children, Under visit x w → visit w = .ok (.expand children) →
      ∀ y ∈ children, ∀ y' ∈ children, ∀ z, Under visit y z → Under visit y' z → y = y') :
    l.Nodup := by
  induction h with
  | drop h => exact List.nodup_nil
  | found h => exact List.nodup_singleton _
  | @expand x children results h hall ih =>
    apply List.nodup_flatMap.mpr
    constructor
    · intro y hy
      have hunder := Under.refl.child h (List.mem_reverse.mp hy)
      apply ih y (List.mem_reverse.mp hy)
      · exact fun z children hz => hchildren z children (hunder.trans hz)
      · exact fun z children hz => hdisjoint z children (hunder.trans hz)
    · apply List.Pairwise.imp_of_mem _ (List.nodup_reverse.mpr (hchildren _ _ .refl h))
      intro y y' hy hy' hne
      rw [List.mem_reverse] at hy hy'
      intro z hz hz'
      apply hne
      exact hdisjoint _ _ .refl h y hy y' hy' z ((hall y hy).mem.mp hz).1
        ((hall y' hy').mem.mp hz').1

/-- The loop works off the top of the stack, given enough turns. -/
theorem loop_yields {x : α} {l : List α} (h : Yields visit x l) :
    ∃ k, ∀ n stack found, loop stuck visit (n + k) (stack ++ [x]) found =
      loop stuck visit n stack (found ++ l) := by
  induction h with
  | drop h =>
    refine ⟨1,fun n stack found => ?_⟩
    rw [loop,List.getLast?_concat,List.append_nil]
    simp [h]
  | found h =>
    refine ⟨1,fun n stack found => ?_⟩
    rw [loop,List.getLast?_concat]
    simp [h]
  | @expand x children results h hall ih =>
    have hlist : ∀ cs : List α, (∀ y ∈ cs, y ∈ children) → ∃ k, ∀ n stack found,
        loop stuck visit (n + k) (stack ++ cs) found =
          loop stuck visit n stack (found ++ cs.reverse.flatMap results) := by
      intro cs
      induction cs using List.reverseRecOn with
      | nil => exact fun _ => ⟨0,fun n stack found => by simp⟩
      | append_singleton cs y ihcs =>
        intro hmem
        obtain ⟨k,hk⟩ := ihcs fun z hz => hmem z (List.mem_append_left _ hz)
        obtain ⟨k',hk'⟩ := ih y (hmem y (by simp))
        refine ⟨k + k',fun n stack found => ?_⟩
        rw [← List.append_assoc,← Nat.add_assoc,hk',hk]
        simp
    obtain ⟨k,hk⟩ := hlist children fun y hy => hy
    refine ⟨k + 1,fun n stack found => ?_⟩
    rw [← Nat.add_assoc,loop,List.getLast?_concat]
    simp [h,hk]

/-- The whole stack. -/
theorem loop_ok {results : α → List α} {stack : List α}
    (h : ∀ x ∈ stack, Yields visit x (results x)) :
    ∃ n, loop stuck visit n stack [] = .ok (stack.reverse.flatMap results) := by
  suffices hall : ∃ k, ∀ n found, loop stuck visit (n + k) stack found =
      loop stuck visit n [] (found ++ stack.reverse.flatMap results) by
    obtain ⟨k,hk⟩ := hall
    exact ⟨1 + k,by rw [hk]; simp [loop]⟩
  induction stack using List.reverseRecOn with
  | nil => exact ⟨0,fun n found => by simp⟩
  | append_singleton stack x ih =>
    obtain ⟨k,hk⟩ := ih fun y hy => h y (List.mem_append_left _ hy)
    obtain ⟨k',hk'⟩ : ∃ k, ∀ n stack found, loop stuck visit (n + k) (stack ++ [x]) found =
        loop stuck visit n stack (found ++ results x) := loop_yields (h x (by simp))
    refine ⟨k + k',fun n found => ?_⟩
    rw [← Nat.add_assoc,hk',hk]
    simp

/-- Nodes that grow cannot grow for ever. -/
theorem exists_yields (size : α → ℕ) (bound : ℕ) (Ok : α → Prop)
    (hvisit : ∀ x, Ok x → ∃ v, visit x = .ok v)
    (hsize : ∀ x, Ok x → size x ≤ bound)
    (hchildren : ∀ x children, Ok x → visit x = .ok (.expand children) →
      ∀ y ∈ children, Ok y ∧ size x < size y) {x : α} (hx : Ok x) : ∃ l, Yields visit x l := by
  induction hroom : bound - size x using Nat.strong_induction_on generalizing x with
  | _ room ih =>
    obtain ⟨v,hv⟩ := hvisit x hx
    cases v with
    | drop => exact ⟨[],.drop hv⟩
    | found => exact ⟨[x],.found hv⟩
    | expand children =>
      have hall : ∀ y, y ∈ children → ∃ l, Yields visit y l := by
        intro y hy
        obtain ⟨hok,hlt⟩ := hchildren x children hx hv y hy
        have hle := hsize y hok
        exact ih (bound - size y) (by omega) hok rfl
      choose! results hresults using hall
      exact ⟨_,.expand results hv hresults⟩

end StackSearch
