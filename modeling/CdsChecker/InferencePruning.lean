import CdsChecker.InferenceOrder
import CdsChecker.InferenceSearch
import CdsChecker.Library.Pruning

/-! Which candidates `pruneCandidates` keeps, and which results the search reports. -/
namespace CdsChecker

open Pruning

namespace Inference

/-- Equal to the other or stronger, as `compareTo` has it. -/
def NotWeaker (this infer : Inference) : Prop := this.compareTo infer = 0 ∨ this.compareTo infer = 1

instance (this infer : Inference) : Decidable (this.NotWeaker infer) :=
  inferInstanceAs (Decidable (_ ∨ _))

end Inference

/-- The assignment is one of the weakest among the candidates stronger than the current one. -/
def Weakest (candidates : List Inference) (curInfer : Inference) (f : ℕ → MemoryOrder) : Prop :=
  (∃ c ∈ candidates, c.order = f) ∧ curInfer.order < f ∧
    ∀ c ∈ candidates, curInfer.order < c.order → ¬ c.order < f

/-- The weakest candidates and no others are kept, each assignment once. -/
structure KeepsWeakest (candidates : List Inference) (curInfer : Inference) : Prop where
  once : ((pruneCandidates candidates curInfer).map Inference.order).Nodup
  weakest : ∀ f, f ∈ (pruneCandidates candidates curInfer).map Inference.order ↔
    Weakest candidates curInfer f

/-- Apart from copies of the current inference, all candidates are stronger than it, none is
stronger than another, and `compareTo` tells which of them are equal. -/
structure Unrelated (candidates : List Inference) (curInfer : Inference) : Prop where
  above : ∀ c ∈ candidates, c.orders ≠ curInfer.orders → curInfer.order < c.order
  unrelated : ∀ c ∈ candidates, ∀ d ∈ candidates, c.orders ≠ curInfer.orders →
    d.orders ≠ curInfer.orders → ¬ d.order < c.order
  equal : ∀ c ∈ candidates, ∀ d ∈ candidates, c.orders ≠ curInfer.orders →
    d.orders ≠ curInfer.orders → (c.NotWeaker d ↔ c.order = d.order)

/-- `compareTo` ranks the candidates among each other and to the current inference as they are. -/
structure RankedRight (candidates : List Inference) (curInfer : Inference) : Prop where
  copies : ∀ c ∈ candidates, c.order = curInfer.order → c.orders = curInfer.orders
  notWeaker : ∀ c ∈ candidates, ∀ d ∈ candidates, c.orders ≠ curInfer.orders →
    d.orders ≠ curInfer.orders → (c.NotWeaker d ↔ d.order ≤ c.order)

section pruneCandidates

variable {candidates : List Inference} {curInfer : Inference}

theorem pruneCandidates_eq : pruneCandidates candidates curInfer =
    survivors (fun a c => decide (a.NotWeaker c)) (fun c => decide (c.compareTo curInfer = 0))
      candidates := by
  rw [← prune_eq,pruneCandidates,prune]
  congr 1
  funext kept c
  have hdrops : (fun added : Inference => !(added.compareTo c == 0 || added.compareTo c == 1)) =
      fun added => !decide (added.NotWeaker c) := by
    funext added
    apply Bool.eq_iff_iff.mpr
    rw [Bool.not_eq_true',Bool.not_eq_true',decide_eq_false_iff_not,Inference.NotWeaker]
    simp
  rw [push,hdrops]
  by_cases h : c.compareTo curInfer = 0
  · rw [if_pos h,if_pos (decide_eq_true h)]
  · rw [if_neg h,if_neg (by simpa using h)]

theorem keepsWeakest_iff : KeepsWeakest candidates curInfer ↔
    Keeps (fun a c => decide (a.NotWeaker c)) (fun c => decide (c.compareTo curInfer = 0))
      Inference.order (Weakest candidates curInfer) candidates := by
  constructor
  · rintro ⟨honce,hweakest⟩
    rw [pruneCandidates_eq] at honce hweakest
    exact ⟨honce,hweakest⟩
  · rintro ⟨honce,hweakest⟩
    rw [← pruneCandidates_eq] at honce hweakest
    exact ⟨honce,hweakest⟩

theorem weakest_perm {candidates' : List Inference} (h : candidates'.Perm candidates) :
    Weakest candidates' curInfer = Weakest candidates curInfer := by
  funext f
  simp only [Weakest,h.mem_iff]

theorem not_copy_of_lt {c : Inference} (h : curInfer.order < c.order) :
    c.orders ≠ curInfer.orders := by
  intro hcopy
  have hsame : c.order = curInfer.order := by
    funext w
    rw [Inference.order,Inference.order,hcopy]
  exact absurd hsame h.ne'

theorem weakest_every_order : (∀ l, l.Perm candidates → KeepsWeakest l curInfer) ↔
    Unrelated candidates curInfer := by
  have hskips : ∀ c : Inference, decide (c.compareTo curInfer = 0) = false ↔
      c.orders ≠ curInfer.orders := by
    simp [Inference.compareTo_eq_zero]
  have hself : ∀ c : Inference, decide (c.NotWeaker c) = true := fun c =>
    decide_eq_true (.inl (Inference.compareTo_eq_zero.mpr rfl))
  have hoffered : ∀ f, Weakest candidates curInfer f →
      ∃ c ∈ candidates, decide (c.compareTo curInfer = 0) = false ∧ c.order = f := by
    rintro f ⟨⟨c,hc,rfl⟩,habove,-⟩
    exact ⟨c,hc,(hskips c).mpr (not_copy_of_lt habove),rfl⟩
  have hpass := @keeps_every_order_iff _ _ (fun a c => decide (a.NotWeaker c)) _ _ _ _ hself
    hoffered
  simp only [hskips,decide_eq_true_iff] at hpass
  have hkeeps : (∀ l, l.Perm candidates → KeepsWeakest l curInfer) ↔ ∀ l, l.Perm candidates →
      Keeps (fun a c => decide (a.NotWeaker c)) (fun c => decide (c.compareTo curInfer = 0))
        Inference.order (Weakest candidates curInfer) l :=
    forall_congr' fun l => forall_congr' fun hl => by rw [keepsWeakest_iff,weakest_perm hl]
  rw [hkeeps,hpass]
  constructor
  · rintro ⟨hwanted,hequal⟩
    refine ⟨fun c hc hcopy => (hwanted c hc hcopy).2.1,fun c hc d hd hccopy hdcopy => ?_,hequal⟩
    exact (hwanted c hc hccopy).2.2 d hd (hwanted d hd hdcopy).2.1
  · rintro ⟨habove,hunrelated,hequal⟩
    refine ⟨fun c hc hcopy => ⟨⟨c,hc,rfl⟩,habove c hc hcopy,fun d hd hd' => ?_⟩,hequal⟩
    exact hunrelated c hc d hd hcopy (not_copy_of_lt hd')

theorem weakest_given_order (hranked : RankedRight candidates curInfer)
    (habove : ∀ c ∈ candidates, curInfer.order ≤ c.order) : KeepsWeakest candidates curInfer ↔
      ∀ (i : ℕ) (c : Inference), candidates[i]? = some c →
        (∃ d ∈ candidates, curInfer.order < d.order ∧ d.order < c.order) →
          ∃ (j : ℕ) (d : Inference), i < j ∧ candidates[j]? = some d ∧ curInfer.order < d.order ∧
            d.order ≤ c.order := by
  have hskips : ∀ c ∈ candidates, decide (c.compareTo curInfer = 0) = false ↔
      curInfer.order < c.order := by
    intro c hc
    rw [decide_eq_false_iff_not,Inference.compareTo_eq_zero]
    constructor
    · intro hcopy
      refine lt_of_le_of_ne (habove c hc) fun heq => hcopy (hranked.copies c hc heq.symm)
    · exact not_copy_of_lt
  have hplaces : ∀ {i c}, candidates[i]? = some c → c ∈ candidates := List.mem_of_getElem?
  have hdrops : ∀ c ∈ candidates, ∀ d ∈ candidates, decide (c.compareTo curInfer = 0) = false →
      decide (d.compareTo curInfer = 0) = false →
        (decide (c.NotWeaker d) = true ↔ d.order ≤ c.order) := by
    intro c hc d hd hcskip hdskip
    rw [decide_eq_true_iff]
    exact hranked.notWeaker c hc d hd (not_copy_of_lt ((hskips c hc).mp hcskip))
      (not_copy_of_lt ((hskips d hd).mp hdskip))
  have hpass := @keeps_minimal_iff Inference (fun a c => decide (a.NotWeaker c)) _ _ _ _ _ hdrops
  have hwanted : Weakest candidates curInfer = fun f => (∃ c ∈ candidates,
      decide (c.compareTo curInfer = 0) = false ∧ c.order = f) ∧ ∀ d ∈ candidates,
        decide (d.compareTo curInfer = 0) = false → ¬ d.order < f := by
    funext f
    apply propext
    constructor
    · rintro ⟨⟨c,hc,rfl⟩,hlt,hminimal⟩
      exact ⟨⟨c,hc,(hskips c hc).mpr hlt,rfl⟩,fun d hd hdskip => hminimal d hd
        ((hskips d hd).mp hdskip)⟩
    · rintro ⟨⟨c,hc,hskip,rfl⟩,hminimal⟩
      exact ⟨⟨c,hc,rfl⟩,(hskips c hc).mp hskip,fun d hd hlt => hminimal d hd
        ((hskips d hd).mpr hlt)⟩
  rw [keepsWeakest_iff,hwanted,hpass]
  constructor
  · intro h i c hc hlower
    obtain ⟨d,hd,hdabove,hlt⟩ := hlower
    obtain ⟨j,e,hj,he,heskip,hle⟩ := h i c hc ((hskips c (hplaces hc)).mpr (hdabove.trans hlt))
      ⟨d,hd,(hskips d hd).mpr hdabove,hlt⟩
    exact ⟨j,e,hj,he,(hskips e (hplaces he)).mp heskip,hle⟩
  · intro h i c hc _ hlower
    obtain ⟨d,hd,hdskip,hlt⟩ := hlower
    obtain ⟨j,e,hj,he,heabove,hle⟩ := h i c hc ⟨d,hd,(hskips d hd).mp hdskip,hlt⟩
    exact ⟨j,e,hj,he,(hskips e (hplaces he)).mpr heabove,hle⟩

/-- The weakest candidates are kept in whatever order the candidates come, exactly when there is
nothing to prune but copies. In one order, if they are ranked right, exactly when each candidate
that is too strong comes before one that is no stronger. -/
theorem pruneCandidates_weakest_iff (candidates : List Inference) (curInfer : Inference) :
    ((∀ l, l.Perm candidates → KeepsWeakest l curInfer) ↔ Unrelated candidates curInfer) ∧
    (RankedRight candidates curInfer → (∀ c ∈ candidates, curInfer.order ≤ c.order) →
      (KeepsWeakest candidates curInfer ↔ ∀ (i : ℕ) (c : Inference), candidates[i]? = some c →
        (∃ d ∈ candidates, curInfer.order < d.order ∧ d.order < c.order) →
          ∃ (j : ℕ) (d : Inference), i < j ∧ candidates[j]? = some d ∧ curInfer.order < d.order ∧
            d.order ≤ c.order)) :=
  ⟨weakest_every_order,weakest_given_order⟩

/-- The strongest candidate comes first, a weakest one twice. -/
theorem pruneCandidates_weakest_strongFirst :
    let single : MemoryOrder → Inference := fun mo => { orders := [some mo,none,none,none] }
    let candidates := [single .seqCst,single .acquire,single .relaxed,single .release,
      single .acquire]
    KeepsWeakest candidates (single .relaxed) ∧
      (∀ l, l.Perm [single .relaxed,single .acquire,single .release,single .acquire] →
        KeepsWeakest l (single .relaxed)) ∧
      pruneCandidates candidates (single .relaxed) = [single .release,single .acquire] := by
  intro single candidates
  refine ⟨((pruneCandidates_weakest_iff _ _).2 ⟨by decide,by decide⟩ (by decide)).mpr ?_,
    (pruneCandidates_weakest_iff _ _).1.mpr ⟨by decide,by decide,by decide⟩,by decide⟩
  rintro (_ | _ | _ | _ | _ | i) c hc hlower <;> cases hc
  · exact ⟨1,single .acquire,by decide,rfl,by decide,by decide⟩
  all_goals exact absurd hlower (by decide)

/-- A stronger candidate that comes after a weaker one stays. -/
theorem later_stronger_kept : ¬ ∀ (candidates : List Inference) (curInfer : Inference),
    (∀ c ∈ candidates, curInfer.order ≤ c.order) → KeepsWeakest candidates curInfer := by
  intro hclaim
  let curInfer : Inference := { orders := [some .relaxed,none,none,none] }
  let weak : Inference := { orders := [some .acquire,none,none,none] }
  let strong : Inference := { orders := [some .seqCst,none,none,none] }
  have hkept := (hclaim [weak,strong] curInfer (by decide)).weakest strong.order
  have hmem : strong.order ∈ (pruneCandidates [weak,strong] curInfer).map Inference.order := by
    have hpruned : pruneCandidates [weak,strong] curInfer = [weak,strong] := by decide
    rw [hpruned]
    simp
  exact (hkept.mp hmem).2.2 weak (by simp) (by decide) (by decide)

end pruneCandidates
namespace InferenceSet

/-- The assignments of the reported results. -/
def resultOrders (s : InferenceSet) : List (ℕ → MemoryOrder) :=
  (s.objects s.results).map Inference.order

theorem resultOrders_eq (s : InferenceSet) : s.resultOrders = s.results.filterMap s.assignment := by
  rw [resultOrders,objects,List.map_filterMap]
  rfl

/-- A call that leaves the results alone leaves their assignments alone. -/
theorem Grows.resultOrders {s s' : InferenceSet} (h : s.Grows s')
    (hresults : s'.results = s.results)
    (hlt : ∀ id ∈ s.results, id < s.infers.length) : s'.resultOrders = s.resultOrders := by
  rw [resultOrders_eq,resultOrders_eq,hresults]
  exact List.filterMap_congr fun id hid => h.2.1 id (hlt id hid)

theorem addInference_results (s : InferenceSet) (infer : Inference) :
    (s.addInference infer).1.results = s.results := by
  unfold addInference
  split <;> rfl

theorem addAll_results (s : InferenceSet) (cands : List Inference) :
    (s.addAll cands).1.results = s.results := by
  induction cands generalizing s with
  | nil => rfl
  | cons candidate cands ih => exact (ih _).trans (addInference_results s candidate)

theorem commitInference_false_results {s s' : InferenceSet} {id : ℕ}
    (h : s.commitInference id false = .ok s') : s'.results = s.results := by
  unfold commitInference at h
  cases hinfer : s.infers[id]? with
  | none =>
    rw [hinfer] at h
    cases h
  | some infer =>
    rw [hinfer] at h
    cases h
    rfl

theorem modifyInference_results {s s' : InferenceSet} {id : ℕ} {f : Inference → Result Inference}
    (h : s.modifyInference id f = .ok s') : s'.results = s.results := by
  unfold modifyInference at h
  cases hinfer : s.infers[id]? with
  | none =>
    rw [hinfer] at h
    cases h
  | some infer =>
    rw [hinfer] at h
    obtain ⟨infer',-,h⟩ := bind_eq_ok.mp h
    cases h
    rfl

theorem getNextLoop_results {n : ℕ} {s s' : InferenceSet} {next : Option ℕ}
    (h : getNextLoop n s = .ok (s',next)) : s'.results = s.results := by
  induction n generalizing s with
  | zero =>
    cases h
    rfl
  | succ n ih =>
    rw [getNextLoop] at h
    cases hlast : s.candidates.getLast? with
    | none =>
      rw [hlast] at h
      cases h
      rfl
    | some id =>
      simp only [hlast] at h
      cases hinfer : s.infers[id]? with
      | none =>
        rw [hinfer] at h
        cases h
      | some infer =>
        simp only [hinfer] at h
        split at h
        · obtain ⟨t,ht,h⟩ := bind_eq_ok.mp h
          have hrest := ih h
          have hcommit := commitInference_false_results ht
          exact hrest.trans hcommit
        · split at h
          · have hrest := ih h
            exact hrest
          · cases h
            rfl

/-- A feasible inference is pushed on the results that are weaker or incomparable. -/
theorem commitInference_true {s s' : InferenceSet} {id : ℕ}
    (h : s.commitInference id true = .ok s') : ∃ infer, s.infers[id]? = some infer ∧
      (∀ r ∈ s'.results, r ∈ s.results ∨ r = id) ∧
      s'.objects s'.results = push (fun a c => decide (a.NotWeaker c)) (s.objects s.results)
        { infer with explored := true } := by
  unfold commitInference at h
  cases hinfer : s.infers[id]? with
  | none =>
    rw [hinfer] at h
    cases h
  | some infer =>
    rw [hinfer] at h
    cases h
    refine ⟨infer,rfl,fun r hr => ?_,?_⟩
    · rcases List.mem_append.mp hr with hr | hr
      · exact .inl (List.mem_of_mem_filter hr)
      · exact .inr (List.mem_singleton.mp hr)
    have hlt : id < s.infers.length := (List.getElem?_eq_some_iff.mp hinfer).1
    have hself : ∀ x : Inference, x.orders = infer.orders →
        x.compareTo { infer with explored := true } = 0 :=
      fun x hx => Inference.compareTo_eq_zero.mpr hx
    simp only [objects,addResult,↓reduceIte,List.filterMap_append,push,List.filterMap_cons,
      List.filterMap_nil,List.getElem?_set_self hlt]
    congr 1
    induction s.results with
    | nil => rfl
    | cons r results ih =>
      rcases eq_or_ne id r with rfl | hne
      · have hgone : Inference.NotWeaker infer { infer with explored := true } :=
          .inl (hself infer rfl)
        rw [List.filter_cons_of_neg (by simp [List.getElem?_set_self hlt,hself]),ih,
          List.filterMap_cons_some hinfer,List.filter_cons_of_neg (by simpa using hgone)]
      · cases hr : s.infers[r]? with
        | none =>
          rw [List.filter_cons_of_pos (by simp [List.getElem?_set_ne hne,hr]),
            List.filterMap_cons_none (by rw [List.getElem?_set_ne hne,hr]),ih,
            List.filterMap_cons_none hr]
        | some x =>
          by_cases hgone : x.NotWeaker { infer with explored := true }
          · rw [List.filter_cons_of_neg (by
                simpa [List.getElem?_set_ne hne,hr,Inference.NotWeaker,
                  or_iff_not_imp_left] using hgone),ih,
              List.filterMap_cons_some hr,List.filter_cons_of_neg (by simpa using hgone)]
          · rw [List.filter_cons_of_pos (by
                simpa [List.getElem?_set_ne hne,hr,Inference.NotWeaker] using hgone),
              List.filterMap_cons_some (by rw [List.getElem?_set_ne hne,hr]),ih,
              List.filterMap_cons_some hr,List.filter_cons_of_pos (by simpa using hgone)]

end InferenceSet
namespace InferenceSearch

/-- The assignments of the inferences that were committed as feasible. -/
def committed (trace : List (InferenceSearch × Call)) : Set (ℕ → MemoryOrder) :=
  { f | ∃ (q : InferenceSearch) (id : ℕ), (q,Call.commitInference id true) ∈ trace ∧
    q.set.assignment id = some f }

/-- No result is equal to another or stronger, and each committed assignment is as strong as one. -/
def MinimalResults (trace : List (InferenceSearch × Call)) (q : InferenceSearch) : Prop :=
  Frontier (fun f => f) (committed trace) q.set.resultOrders

/-- The results were minimal from the beginning. -/
def AlwaysMinimal : List (InferenceSearch × Call) → InferenceSearch → Prop
  | [],q => MinimalResults [] q
  | x :: trace,q => MinimalResults (x :: trace) q ∧ AlwaysMinimal trace x.1

/-- A feasible inference is not comparable with the results that stay beside it, and not above
those that it replaces. -/
def Call.Placed (q : InferenceSearch) : Call → Prop
  | .commitInference id true => ∀ infer, q.set.infers[id]? = some infer →
    ∀ x ∈ q.set.objects q.set.results, (x.NotWeaker infer → infer.order ≤ x.order) ∧
      (¬ x.NotWeaker infer → Incomparable x.order infer.order)
  | _ => True

instance (q : InferenceSearch) : (call : Call) → Decidable (call.Placed q)
  | .commitInference id true => inferInstanceAs (Decidable (∀ infer ∈ q.set.infers[id]?,
      ∀ x ∈ q.set.objects q.set.results, (x.NotWeaker infer → infer.order ≤ x.order) ∧
        (¬ x.NotWeaker infer → ¬ x.order ≤ infer.order ∧ ¬ infer.order ≤ x.order)))
  | .commitInference _ false | .newInference _ | .addInference _ | .addCandidates _ _
  | .lookup _ _ | .inspectModelAction _ _ | .getNextInference => .isTrue trivial

theorem committed_cons {trace : List (InferenceSearch × Call)} {q : InferenceSearch} {call : Call}
    (h : ∀ id, call ≠ .commitInference id true) :
    committed ((q,call) :: trace) = committed trace := by
  ext f
  constructor
  · rintro ⟨q',id,hmem,hf⟩
    rcases List.mem_cons.mp hmem with heq | hmem
    · cases heq
      exact absurd rfl (h id)
    · exact ⟨q',id,hmem,hf⟩
  · rintro ⟨q',id,hmem,hf⟩
    exact ⟨q',id,List.mem_cons_of_mem _ hmem,hf⟩

theorem committed_commit {trace : List (InferenceSearch × Call)} {q : InferenceSearch} {id : ℕ}
    {infer : Inference} (h : q.set.infers[id]? = some infer) :
    committed ((q,.commitInference id true) :: trace) = insert infer.order (committed trace) := by
  have hassignment : q.set.assignment id = some infer.order := by
    rw [InferenceSet.assignment,h,Option.map_some]
  ext f
  constructor
  · rintro ⟨q',id',hmem,hf⟩
    rcases List.mem_cons.mp hmem with heq | hmem
    · cases heq
      rw [hassignment] at hf
      exact .inl (Option.some.inj hf).symm
    · exact .inr ⟨q',id',hmem,hf⟩
  · rintro (rfl | ⟨q',id',hmem,hf⟩)
    · exact ⟨q,id,List.mem_cons_self,hassignment⟩
    · exact ⟨q',id',List.mem_cons_of_mem _ hmem,hf⟩

/-- Results are objects of the search, and each was committed. -/
structure ResultsOk (trace : List (InferenceSearch × Call)) (q : InferenceSearch) : Prop where
  lt : ∀ id ∈ q.set.results, id < q.set.infers.length
  offered : ∀ f ∈ q.set.resultOrders, f ∈ committed trace

theorem step_results {q q' : InferenceSearch} {call : Call} (h : q.step call = .ok q')
    (hcall : ∀ id, call ≠ .commitInference id true) : q'.set.results = q.set.results := by
  cases call with
  | newInference infer =>
    cases h
    rfl
  | addInference infer =>
    cases h
    exact q.set.addInference_results infer
  | addCandidates curInfer inferList =>
    obtain ⟨⟨set,added⟩,hset,rfl⟩ := map_eq_ok.mp h
    obtain ⟨infer,-,rfl⟩ := InferenceSet.addCandidates_ok hset
    exact InferenceSet.addAll_results _ _
  | commitInference id feasible =>
    obtain ⟨set,hset,rfl⟩ := map_eq_ok.mp h
    cases feasible with
    | false => exact InferenceSet.commitInference_false_results hset
    | true => exact absurd rfl (hcall id)
  | lookup id idx =>
    obtain ⟨set,hset,rfl⟩ := map_eq_ok.mp h
    exact InferenceSet.modifyInference_results hset
  | inspectModelAction id wildcardID =>
    obtain ⟨set,hset,rfl⟩ := map_eq_ok.mp h
    exact InferenceSet.modifyInference_results hset
  | getNextInference =>
    obtain ⟨⟨set,next⟩,hset,rfl⟩ := map_eq_ok.mp h
    exact InferenceSet.getNextLoop_results hset

/-- One call. -/
theorem step_minimal {trace : List (InferenceSearch × Call)} {q q' : InferenceSearch} {call : Call}
    (hok : q.set.Ok q.handed) (hresults : ResultsOk trace q) (h : q.step call = .ok q') :
    ResultsOk ((q,call) :: trace) q' ∧ (MinimalResults trace q →
      (MinimalResults ((q,call) :: trace) q' ↔ call.Placed q)) := by
  have hgrows := (step_keeps hok h).2.1
  by_cases hcall : ∀ id, call ≠ .commitInference id true
  · have hsame := step_results h hcall
    have horders := hgrows.resultOrders hsame hresults.lt
    have hplaced : call.Placed q := by
      cases call with
      | commitInference id feasible =>
        cases feasible with
        | false => trivial
        | true => exact absurd rfl (hcall id)
      | _ => trivial
    refine ⟨⟨fun id hid => ?_,?_⟩,fun hmin => ?_⟩
    · rw [hsame] at hid
      exact (hresults.lt id hid).trans_le hgrows.1
    · rw [horders,committed_cons hcall]
      exact hresults.offered
    · rw [MinimalResults,horders,committed_cons hcall]
      exact iff_of_true hmin hplaced
  · simp only [not_forall,not_not] at hcall
    obtain ⟨id,rfl⟩ := hcall
    obtain ⟨set,hset,rfl⟩ := map_eq_ok.mp h
    obtain ⟨infer,hinfer,hmem,hobjects⟩ := InferenceSet.commitInference_true hset
    have hcommitted : committed ((q,Call.commitInference id true) :: trace) =
        insert infer.order (committed trace) := committed_commit hinfer
    have horders : set.resultOrders = (push (fun a c => decide (a.NotWeaker c))
        (q.set.objects q.set.results) { infer with explored := true }).map Inference.order := by
      rw [InferenceSet.resultOrders,hobjects]
    have hoffered : ∀ x ∈ q.set.objects q.set.results, x.order ∈ committed trace :=
      fun x hx => hresults.offered _ (List.mem_map_of_mem hx)
    refine ⟨⟨fun r hr => ?_,fun f hf => ?_⟩,fun hmin => ?_⟩
    · rcases hmem r hr with hr | rfl
      · exact (hresults.lt r hr).trans_le hgrows.1
      · exact (List.getElem?_eq_some_iff.mp hinfer).1.trans_le hgrows.1
    · rw [horders] at hf
      obtain ⟨x,hx,rfl⟩ := List.mem_map.mp hf
      rw [hcommitted]
      rcases List.mem_append.mp hx with hx | hx
      · exact .inr (hoffered x (List.mem_of_mem_filter hx))
      · rw [List.mem_singleton.mp hx]
        exact .inl rfl
    · rw [MinimalResults,horders,hcommitted,Frontier.map_iff]
      have hpush : Frontier Inference.order (insert infer.order (committed trace))
          (push (fun a c => decide (a.NotWeaker c)) (q.set.objects q.set.results)
            { infer with explored := true }) ↔ _ :=
        (Frontier.map_iff.mp hmin).push_iff hoffered { infer with explored := true }
      simp only [decide_eq_true_eq,decide_eq_false_iff_not] at hpush
      refine Iff.trans hpush ?_
      constructor
      · intro hall infer' hinfer'
        cases hinfer.symm.trans hinfer'
        exact hall
      · intro hall
        exact hall infer hinfer

/-- What a whole run keeps. -/
theorem Run.alwaysMinimal {trace : List (InferenceSearch × Call)} {q : InferenceSearch}
    (h : Run trace q) : ResultsOk trace q ∧
      (AlwaysMinimal trace q ↔ ∀ x ∈ trace, x.2.Placed x.1) := by
  induction h with
  | init =>
    refine ⟨⟨by simp,by simp [InferenceSet.resultOrders,InferenceSet.objects]⟩,?_⟩
    refine iff_of_true ⟨by simp [InferenceSet.resultOrders,InferenceSet.objects],?_⟩ (by simp)
    rintro p ⟨q,id,hmem,-⟩
    cases hmem
  | step h hstep ih =>
    obtain ⟨hresults,hiff⟩ := ih
    obtain ⟨hresults',hminimal⟩ := step_minimal h.keeps.1 hresults hstep
    refine ⟨hresults',?_⟩
    have hlast : ∀ {trace : List (InferenceSearch × Call)} {q : InferenceSearch},
        AlwaysMinimal trace q → MinimalResults trace q := by
      intro trace q h
      cases trace with
      | nil => exact h
      | cons x trace => exact h.1
    rw [AlwaysMinimal,List.forall_mem_cons,← hiff]
    constructor
    · intro ⟨hnow,hbefore⟩
      exact ⟨(hminimal (hlast hbefore)).mp hnow,hbefore⟩
    · intro ⟨hplaced,hbefore⟩
      exact ⟨(hminimal (hlast hbefore)).mpr hplaced,hbefore⟩

/-- A stronger inference is committed after a weaker one. -/
theorem stronger_result_added : ¬ ∀ (trace : List (InferenceSearch × Call)) (q : InferenceSearch),
    Run trace q → MinimalResults trace q := by
  intro hclaim
  let weak : Inference := { orders := [some .acquire,none,none,none] }
  let strong : Inference := { orders := [some .seqCst,none,none,none] }
  let last : InferenceSearch := ⟨⟨[{ weak with explored := true },{ strong with explored := true }],
    [],[0,1],[],0⟩,[]⟩
  obtain ⟨trace,q,hrun,rfl⟩ := exists_play [.newInference weak,.newInference strong,
    .commitInference 0 true,.commitInference 1 true] (fun _ q => q = last) ⟨_,rfl,by decide⟩
  have hincomparable := List.pairwise_cons.mp (hclaim trace last hrun).antichain
  apply (hincomparable.1 strong.order List.mem_cons_self).1
  intro w
  match w with
  | 0 => decide
  | 1 | 2 | 3 => decide
  | w + 4 => exact le_refl _

/-- The results are minimal after every call of a run exactly when each feasible inference fits
in where it is committed. -/
theorem alwaysMinimal_iff_placed (trace : List (InferenceSearch × Call)) (q : InferenceSearch)
    (h : Run trace q) : (∀ x ∈ trace, x.2.Placed x.1) ↔ AlwaysMinimal trace q :=
  h.alwaysMinimal.2.symm

/-- The second result replaces the first one, and the third one is kept beside it. -/
theorem alwaysMinimal_iff_placed_replaced : ∃ trace q, Run trace q ∧
    trace.map (·.1.set.results) = [[1],[0],[],[],[],[]] ∧ q.set.results = [1,2] ∧
    (∀ x ∈ trace, x.2.Placed x.1) ∧ AlwaysMinimal trace q := by
  obtain ⟨trace,q,hrun,hbefore,hresults,hplaced⟩ := exists_play
    [.newInference { orders := [some .seqCst,none] },
    .newInference { orders := [some .acquire,none] },
      .newInference { orders := [some .release,none] },.commitInference 0 true,
      .commitInference 1 true,.commitInference 2 true]
    (fun trace q => trace.map (·.1.set.results) = [[1],[0],[],[],[],[]] ∧ q.set.results = [1,2] ∧
      ∀ x ∈ trace, x.2.Placed x.1) ⟨_,rfl,by decide⟩
  exact ⟨trace,q,hrun,hbefore,hresults,hplaced,(alwaysMinimal_iff_placed trace q hrun).mp hplaced⟩

end InferenceSearch
end CdsChecker
