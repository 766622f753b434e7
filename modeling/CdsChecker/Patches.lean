import CdsChecker.InferenceOrder
import CdsChecker.Library.Strengthening
import Mathlib.Order.WithBot
import Mathlib.Order.Bounds.Basic

/-! Patches that strengthen the current inference along a path. -/
namespace CdsChecker

/-- The memory order that an action is to have; without a wildcard its own order is fixed. -/
structure PatchUnit where
  wildcard : Option ℕ
  mo : MemoryOrder
  pos : ∀ id, wildcard = some id → 0 < id
  deriving DecidableEq

abbrev Patch := List PatchUnit

namespace Inference

/-- The copy constructor. -/
def copy (infer : Inference) : Result Inference := do
  assert (decide (0 < infer.size) && decide (infer.size ≤ MAX_WILDCARD_NUM))
  pure { orders := infer.orders }

/-- The `switch` of `strengthen`; `none` where the order is no weaker already. -/
def strengthenOrder : Option MemoryOrder → MemoryOrder → Option MemoryOrder
  | some .seqCst,_ => none
  | some .relaxed,mo => if mo = .relaxed then none else some mo
  | some .acquire,mo =>
    if mo = .acquire ∨ mo = .relaxed then none
    else if mo = .release then some .acqRel else some mo
  | some .release,mo =>
    if mo = .release ∨ mo = .relaxed then none
    else if mo = .acquire then some .acqRel else some mo
  | some .acqRel,mo => if mo = .seqCst then some mo else none
  | none,mo => some mo

def makeRoom (infer : Inference) (wildcardID : ℕ) : Result Inference :=
  if infer.size < wildcardID then infer.resize wildcardID else .ok infer

/-- -1 where the action has no wildcard, 0 where nothing is to do, 1 where an order was set. -/
def strengthen (infer : Inference) (unit : PatchUnit) : Result (Inference × ℤ) :=
  match unit.wildcard with
  | none => .ok (infer,-1)
  | some id => do
    let infer ← infer.makeRoom id
    match strengthenOrder (infer.orders[id - 1]?).join unit.mo with
    | none => pure (infer,0)
    | some mo => pure ({ infer with orders := infer.orders.set (id - 1) (some mo) },1)

/-- The units of one patch, up to one that cannot be imposed; whether an order was set. -/
def applyUnits : Patch → Inference → Bool → Result (Inference × Bool)
  | [],newInfer,updateState => .ok (newInfer,updateState)
  | unit :: patch,newInfer,updateState => do
    let (newInfer,res) ← newInfer.strengthen unit
    if res = -1 then pure (newInfer,updateState)
    else applyUnits patch newInfer (updateState || res == 1)

/-- Each patch on a copy of its own; a copy that was not updated is deleted. -/
def tryPatches (oldInfer : Inference) : List Patch → Result (List Inference)
  | [] => .ok []
  | patch :: patches => do
    let newInfer ← oldInfer.copy
    let (newInfer,updated) ← applyUnits patch newInfer false
    let newList ← tryPatches oldInfer patches
    pure (if updated then newInfer :: newList else newList)

end Inference

def tryAll (patches : List Patch) : List Inference → Result (List Inference)
  | [] => .ok []
  | oldInfer :: list => do
    let newInfers ← oldInfer.tryPatches patches
    let newList ← tryAll patches list
    pure (newInfers ++ newList)

def applyPatch (list : List Inference) (curInfer : Inference) (patches : List Patch) :
    Result (List Inference) :=
  if list.isEmpty then curInfer.tryPatches patches else tryAll patches list

/-- The loop of `imposeSync` over the links of a path, from the patches of each. -/
def applyPatches (curInfer : Inference) :
    List (List Patch) → List Inference → Result (List Inference)
  | [],list => .ok list
  | patches :: links,list => do
    let list ← applyPatch list curInfer patches
    applyPatches curInfer links list

open Strengthening

/-- An order of a wildcard or none. -/
abbrev Slots := ℕ → WithBot MemoryOrder

namespace Slots

/-- An unset wildcard counts as relaxed. -/
def order (slots : Slots) (w : ℕ) : MemoryOrder := (slots w).unbotD .relaxed

theorem order_sup (slots slots' : Slots) : (slots ⊔ slots').order = slots.order ⊔ slots'.order := by
  funext w
  rw [Pi.sup_apply,order,order,order,Pi.sup_apply]
  cases slots w with
  | bot =>
    rw [bot_sup_eq]
    exact (sup_eq_right.mpr (MemoryOrder.relaxed_le _)).symm
  | coe mo =>
    cases slots' w with
    | bot =>
      rw [sup_bot_eq]
      exact (sup_eq_left.mpr (MemoryOrder.relaxed_le _)).symm
    | coe mo' => rfl

def orderHom : SupHom Slots (ℕ → MemoryOrder) := ⟨order,order_sup⟩

theorem order_le {slots : Slots} {f : ℕ → MemoryOrder} :
    slots.order ≤ f ↔ slots ≤ fun w => ((f w : MemoryOrder) : WithBot MemoryOrder) :=
  forall_congr' fun w => WithBot.unbotD_le_iff fun _ => MemoryOrder.relaxed_le (f w)

end Slots

/-- What the unit demands. -/
def PatchUnit.slots (unit : PatchUnit) : Slots := fun w =>
  if unit.wildcard = some (w + 1) then (unit.mo : WithBot MemoryOrder) else ⊥

def Patch.slots : Patch → Slots
  | [] => ⊥
  | unit :: patch => unit.slots ⊔ Patch.slots patch

/-- The assignment that the patch demands. -/
def Patch.order (patch : Patch) : ℕ → MemoryOrder := (Patch.slots patch).order

def PatchUnit.OnWildcard (unit : PatchUnit) : Prop :=
  ∃ id, unit.wildcard = some id ∧ id ≤ MAX_WILDCARD_NUM

namespace Inference

def slots (infer : Inference) : Slots := fun w => (infer.orders[w]?).join

/-- As the constructors make them. -/
def Sized (infer : Inference) : Prop := 0 < infer.size ∧ infer.size ≤ MAX_WILDCARD_NUM

instance (infer : Inference) : Decidable infer.Sized := inferInstanceAs (Decidable (_ ∧ _))

theorem slots_order (infer : Inference) : infer.slots.order = infer.order := by
  funext w
  unfold Slots.order slots order
  cases (infer.orders[w]?).join <;> rfl

theorem copy_ok {infer : Inference} (h : infer.Sized) :
    infer.copy = .ok { orders := infer.orders } := by
  simp [copy,assert,h.1,h.2,bind,Except.bind,pure,Except.pure]

theorem strengthenOrder_none {order : WithBot MemoryOrder} {mo : MemoryOrder} :
    strengthenOrder order mo = none ↔ mo ≤ order := by
  cases order with
  | bot => exact iff_of_false (by simp [strengthenOrder]) (WithBot.not_coe_le_bot mo)
  | coe order =>
    rw [WithBot.coe_le_coe]
    cases order <;> cases mo <;> decide

/-- An order that is set is the join with the one demanded. -/
theorem strengthenOrder_some {order : WithBot MemoryOrder} {mo mo' : MemoryOrder}
    (h : strengthenOrder order mo = some mo') : (mo' : WithBot MemoryOrder) = order ⊔ mo := by
  cases order with
  | bot =>
    cases h
    simp
  | coe order =>
    rw [← WithBot.coe_sup]
    apply congrArg WithBot.some
    revert h
    cases order <;> cases mo <;> cases mo' <;> decide

/-- Room for a wildcard changes no slot. -/
theorem makeRoom_ok {infer : Inference} {id : ℕ} (h : infer.Sized) (hid : id ≤ MAX_WILDCARD_NUM) :
    ∃ infer' : Inference, infer.makeRoom id = .ok infer' ∧ infer'.Sized ∧
      infer'.slots = infer.slots ∧ id ≤ infer'.size := by
  unfold makeRoom
  split
  · rename_i hlt
    refine ⟨{ infer with orders :=
      infer.orders ++ List.replicate (id - infer.size) none },?_,?_,?_,?_⟩
    · simp [resize,assert,hlt,hid,bind,Except.bind,pure,Except.pure]
    · simp only [Sized,size,List.length_append,List.length_replicate] at *
      omega
    · funext w
      change ((infer.orders ++ _)[w]?).join = (infer.orders[w]?).join
      rcases Nat.lt_or_ge w infer.orders.length with hw | hw
      · rw [List.getElem?_append_left hw]
      · rw [List.getElem?_append_right hw,List.getElem?_eq_none hw,List.getElem?_replicate]
        split <;> rfl
    · simp only [size,List.length_append,List.length_replicate] at *
      omega
  · exact ⟨infer,rfl,h,rfl,by omega⟩

theorem unit_slots_self {unit : PatchUnit} {id : ℕ} (h : unit.wildcard = some id) :
    unit.slots (id - 1) = unit.mo := by
  have hpos := unit.pos id h
  have hsucc : id - 1 + 1 = id := by omega
  rw [PatchUnit.slots,h,if_pos (by rw [hsucc])]

theorem unit_slots_ne {unit : PatchUnit} {id w : ℕ} (h : unit.wildcard = some id)
    (hne : w ≠ id - 1) :
    unit.slots w = ⊥ := by
  rw [PatchUnit.slots,h,if_neg]
  intro heq
  have := Option.some.inj heq
  omega

theorem unit_slots_le {unit : PatchUnit} {id : ℕ} (h : unit.wildcard = some id) {slots : Slots} :
    unit.slots ≤ slots ↔ unit.mo ≤ slots (id - 1) := by
  constructor
  · intro hle
    have hw := hle (id - 1)
    rwa [unit_slots_self h] at hw
  · intro hle w
    rcases eq_or_ne w (id - 1) with rfl | hne
    · rwa [unit_slots_self h]
    · rw [unit_slots_ne h hne]
      exact bot_le

/-- A unit is joined to the slots, and reports whether it was met before. -/
theorem strengthen_ok {infer : Inference} {unit : PatchUnit} (h : infer.Sized)
    (hunit : unit.OnWildcard) :
    ∃ (infer' : Inference) (res : ℤ), infer.strengthen unit = .ok (infer',res) ∧
      infer'.Sized ∧ infer'.slots = infer.slots ⊔ unit.slots ∧ res ≠ -1 ∧
      (res = 1 ↔ ¬ unit.slots ≤ infer.slots) := by
  obtain ⟨id,hwildcard,hid⟩ := hunit
  obtain ⟨room,hroom,hsized,hslots,hsize⟩ := makeRoom_ok h hid
  have hpos := unit.pos id hwildcard
  have hlt : id - 1 < room.orders.length := by
    simp only [size] at hsize
    omega
  unfold strengthen
  simp only [hwildcard,hroom,bind,Except.bind]
  rw [← hslots,unit_slots_le hwildcard]
  cases hmo : strengthenOrder (room.orders[id - 1]?).join unit.mo with
  | none =>
    have hmet : (unit.mo : WithBot MemoryOrder) ≤ room.slots (id - 1) := strengthenOrder_none.mp hmo
    refine ⟨room,0,rfl,hsized,?_,by decide,?_⟩
    · rw [sup_eq_left.mpr ((unit_slots_le hwildcard).mpr hmet)]
    · exact iff_of_false (by decide) (not_not.mpr hmet)
  | some mo =>
    have hjoin : (mo : WithBot MemoryOrder) = room.slots (id - 1) ⊔ unit.mo :=
      strengthenOrder_some hmo
    refine ⟨_,1,rfl,?_,?_,by decide,?_⟩
    · simpa [Sized,size] using hsized
    · funext w
      rcases eq_or_ne w (id - 1) with rfl | hne
      · have hset : ((room.orders.set (id - 1) (some mo))[id - 1]?).join = some mo := by
          rw [List.getElem?_set_self hlt]
          rfl
        rw [Pi.sup_apply,unit_slots_self hwildcard,← hjoin]
        exact hset
      · have hset : (room.orders.set (id - 1) (some mo))[w]? = room.orders[w]? :=
          List.getElem?_set_ne hne.symm
        rw [Pi.sup_apply,unit_slots_ne hwildcard hne,sup_bot_eq]
        exact congrArg Option.join hset
    · refine iff_of_true rfl fun hle => ?_
      have hnone : strengthenOrder (room.orders[id - 1]?).join unit.mo = none :=
        strengthenOrder_none.mpr hle
      rw [hmo] at hnone
      cases hnone

/-- All units of one patch. -/
theorem applyUnits_ok {patch : Patch} (hpatch : ∀ unit ∈ patch, unit.OnWildcard) {infer : Inference}
    (h : infer.Sized) (updated : Bool) : ∃ (infer' : Inference) (updated' : Bool),
      applyUnits patch infer updated = .ok (infer',updated') ∧ infer'.Sized ∧
      infer'.slots = infer.slots ⊔ patch.slots ∧
      (updated' = true ↔ updated = true ∨ ¬ patch.slots ≤ infer.slots) := by
  induction patch generalizing infer updated with
  | nil => exact ⟨infer,updated,rfl,h,by simp [Patch.slots],by simp [Patch.slots]⟩
  | cons unit patch ih =>
    obtain ⟨hunit,hrest⟩ := List.forall_mem_cons.mp hpatch
    obtain ⟨next,res,hnext,hsized,hslots,hres,hmet⟩ := strengthen_ok h hunit
    obtain ⟨last,updated',hlast,hsized',hslots',hmet'⟩ := ih hrest hsized (updated || res == 1)
    refine ⟨last,updated',?_,hsized',?_,?_⟩
    · rw [applyUnits,hnext]
      change (if res = -1 then _ else _) = _
      rw [if_neg hres,hlast]
    · rw [hslots',hslots,Patch.slots,sup_assoc]
    · rw [hmet',hslots,Patch.slots,sup_le_iff,Bool.or_eq_true,beq_iff_eq,hmet]
      by_cases hle : unit.slots ≤ infer.slots
      · simp [hle]
      · simp [hle]

/-- The copies that were updated. -/
theorem tryPatches_ok {patches : List Patch}
    (hpatches : ∀ patch ∈ patches, ∀ unit ∈ patch, unit.OnWildcard)
    {infer : Inference} (h : infer.Sized) : ∃ list, infer.tryPatches patches = .ok list ∧
      (∀ infer' ∈ list, infer'.Sized) ∧ ∀ z : Slots, z ∈ list.map slots ↔
        ∃ p ∈ patches.map Patch.slots, ¬ p ≤ infer.slots ∧ infer.slots ⊔ p = z := by
  induction patches with
  | nil => exact ⟨[],rfl,by simp,by simp⟩
  | cons patch patches ih =>
    obtain ⟨hpatch,hrest⟩ := List.forall_mem_cons.mp hpatches
    obtain ⟨list,hlist,hsized,hmem⟩ := ih hrest
    have hcopy : Sized { orders := infer.orders } := h
    obtain ⟨new,updated,hnew,hnewSized,hslots,hupdated⟩ := applyUnits_ok hpatch hcopy false
    refine ⟨if updated then new :: list else list,?_,?_,?_⟩
    · rw [tryPatches,copy_ok h]
      change (applyUnits patch _ false >>= _) = _
      rw [hnew]
      change (infer.tryPatches patches >>= _) = _
      rw [hlist]
      rfl
    · split
      · exact List.forall_mem_cons.mpr ⟨hnewSized,hsized⟩
      · exact hsized
    · intro z
      have hslots' : new.slots = infer.slots ⊔ Patch.slots patch := hslots
      have hupdated' : updated = true ↔ ¬ Patch.slots patch ≤ infer.slots := by
        rw [hupdated,or_iff_right (by decide)]
        rfl
      have hcons : z ∈ (if updated then new :: list else list).map slots ↔
          updated = true ∧ new.slots = z ∨ z ∈ list.map slots := by
        cases updated with
        | false => simp
        | true => simp [eq_comm]
      rw [hcons,hmem,hupdated',hslots']
      simp

end Inference

open Inference

/-- The same for each inference of a list. -/
theorem tryAll_ok {patches : List Patch}
    (hpatches : ∀ patch ∈ patches, ∀ unit ∈ patch, unit.OnWildcard)
    {list : List Inference} (h : ∀ infer ∈ list, infer.Sized) :
    ∃ list', tryAll patches list = .ok list' ∧
      (∀ infer ∈ list', infer.Sized) ∧ ∀ z : Slots, z ∈ list'.map slots ↔
        ∃ y ∈ list.map slots, ∃ p ∈ patches.map Patch.slots, ¬ p ≤ y ∧ y ⊔ p = z := by
  induction list with
  | nil => exact ⟨[],rfl,by simp,by simp⟩
  | cons old list ih =>
    obtain ⟨hold,hrest⟩ := List.forall_mem_cons.mp h
    obtain ⟨new,hnew,hsized,hmem⟩ := tryPatches_ok hpatches hold
    obtain ⟨list',hlist,hsized',hmem'⟩ := ih hrest
    refine ⟨new ++ list',?_,?_,?_⟩
    · rw [tryAll,hnew]
      change (tryAll patches list >>= _) = _
      rw [hlist]
      rfl
    · intro infer hinfer
      rcases List.mem_append.mp hinfer with hinfer | hinfer
      · exact hsized infer hinfer
      · exact hsized' infer hinfer
    · intro z
      rw [List.map_append,List.mem_append,hmem,hmem',List.map_cons,List.exists_mem_cons_iff]

/-- The slots of the inferences in a list. -/
def slotsOf (list : List Inference) : Set Slots := { z | z ∈ list.map slots }

/-- One call is one link. -/
theorem applyPatch_ok {patches : List Patch}
    (hpatches : ∀ patch ∈ patches, ∀ unit ∈ patch, unit.OnWildcard)
    {curInfer : Inference} (hcur : curInfer.Sized) {list : List Inference}
    (h : ∀ infer ∈ list, infer.Sized) : ∃ list', applyPatch list curInfer patches = .ok list' ∧
      (∀ infer ∈ list', infer.Sized) ∧
      slotsOf list' = link curInfer.slots (slotsOf list) (patches.map Patch.slots) := by
  cases list with
  | nil =>
    obtain ⟨list',hlist,hsized,hmem⟩ := tryPatches_ok hpatches hcur
    refine ⟨list',hlist,hsized,?_⟩
    ext z
    rw [slotsOf,Set.mem_ofPred_eq,hmem]
    simp [link,slotsOf]
  | cons old list =>
    obtain ⟨list',hlist,hsized,hmem⟩ := tryAll_ok hpatches h
    refine ⟨list',hlist,hsized,?_⟩
    have hsome : slotsOf (old :: list) ≠ ∅ :=
      (Set.nonempty_iff_ne_empty).mp ⟨old.slots,by simp [slotsOf]⟩
    ext z
    rw [slotsOf,Set.mem_ofPred_eq,hmem,link,Set.mem_ofPred_eq]
    apply exists_congr
    intro y
    rw [or_iff_left fun h => hsome h.1]
    rfl

/-- What the patches of each link demand. -/
def demands (links : List (List Patch)) : List (List Slots) := links.map (·.map Patch.slots)

/-- The loop refines the chain of links. -/
theorem applyPatches_ok {links : List (List Patch)}
    (hlinks : ∀ patches ∈ links, ∀ patch ∈ patches, ∀ unit ∈ patch, unit.OnWildcard)
    {curInfer : Inference} (hcur : curInfer.Sized) :
    ∃ list, applyPatches curInfer links [] = .ok list ∧
      slotsOf list = chain curInfer.slots (demands links) := by
  suffices h : ∀ list : List Inference, (∀ infer ∈ list, infer.Sized) →
      ∃ list', applyPatches curInfer links list = .ok list' ∧
        slotsOf list' = (demands links).foldl (link curInfer.slots) (slotsOf list) by
    obtain ⟨list,hlist,hslots⟩ := h [] (by simp)
    refine ⟨list,hlist,?_⟩
    rw [hslots,chain]
    congr 1
    simp [slotsOf]
  induction links with
  | nil => exact fun list _ => ⟨list,rfl,rfl⟩
  | cons patches links ih =>
    intro list hsized
    obtain ⟨hpatches,hrest⟩ := List.forall_mem_cons.mp hlinks
    obtain ⟨next,hnext,hsized',hslots⟩ := applyPatch_ok hpatches hcur hsized
    obtain ⟨list',hlist,hslots'⟩ := ih hrest next hsized'
    refine ⟨list',?_,?_⟩
    · rw [applyPatches,hnext]
      exact hlist
    · rw [hslots',hslots]
      rfl

/-- The assignment is the least one at least as strong as the current one that satisfies a patch
of each link. -/
def WeakestSufficient (curInfer : Inference) (links : List (List Patch)) (f : ℕ → MemoryOrder) :
    Prop :=
  ∃ choice : List Patch, List.Forall₂ (· ∈ ·) choice links ∧
    IsLeast { g | curInfer.order ≤ g ∧ ∀ patch ∈ choice, ∀ unit ∈ patch, ∀ id,
      unit.wildcard = some id → unit.mo ≤ g (id - 1) } f

theorem patch_slots_le {patch : Patch} {g : ℕ → MemoryOrder} :
    (Patch.slots patch ≤ fun w => ((g w : MemoryOrder) : WithBot MemoryOrder)) ↔
      ∀ unit ∈ patch, ∀ id, unit.wildcard = some id → unit.mo ≤ g (id - 1) := by
  induction patch with
  | nil => simp [Patch.slots]
  | cons unit patch ih =>
    rw [Patch.slots,sup_le_iff,ih,List.forall_mem_cons]
    apply and_congr_left'
    cases hwildcard : unit.wildcard with
    | none =>
      have hbot : unit.slots = ⊥ := by
        funext w
        simp [PatchUnit.slots,hwildcard]
      simp [hbot]
    | some id =>
      rw [unit_slots_le hwildcard,WithBot.coe_le_coe]
      simp

theorem choice_demands {links : List (List Patch)} {choice : List Slots} :
    Choice (demands links) choice ↔
      ∃ patches : List Patch, List.Forall₂ (· ∈ ·) patches links ∧
      patches.map Patch.slots = choice := by
  induction links generalizing choice with
  | nil => simp [Choice,demands]
  | cons options links ih =>
    constructor
    · intro h
      obtain ⟨p,rest,hp,hrest,rfl⟩ := List.forall₂_cons_right_iff.mp h
      obtain ⟨patch,hpatch,rfl⟩ := List.mem_map.mp hp
      obtain ⟨patches,hpatches,rfl⟩ := ih.mp hrest
      exact ⟨patch :: patches,.cons hpatch hpatches,rfl⟩
    · rintro ⟨patches,h,rfl⟩
      obtain ⟨patch,rest,hpatch,hrest,rfl⟩ := List.forall₂_cons_right_iff.mp h
      exact .cons (List.mem_map_of_mem hpatch) (ih.mpr ⟨rest,hrest,rfl⟩)

/-- The join of a choice is the least assignment that satisfies it. -/
theorem isLeast_total {curInfer : Inference} {choice : List Patch} {f : ℕ → MemoryOrder} :
    IsLeast { g | curInfer.order ≤ g ∧ ∀ patch ∈ choice, ∀ unit ∈ patch, ∀ id,
      unit.wildcard = some id → unit.mo ≤ g (id - 1) } f ↔
      (total curInfer.slots (choice.map Patch.slots)).order = f := by
  have hset : { g : ℕ → MemoryOrder | curInfer.order ≤ g ∧ ∀ patch ∈ choice, ∀ unit ∈ patch, ∀ id,
      unit.wildcard = some id → unit.mo ≤ g (id - 1) } =
      Set.Ici (total curInfer.slots (choice.map Patch.slots)).order := by
    ext g
    rw [Set.mem_Ici,Slots.order_le,total_le,← Slots.order_le,slots_order,List.forall_mem_map]
    apply and_congr_right'
    exact forall_congr' fun patch => forall_congr' fun _ => patch_slots_le.symm
  rw [hset]
  exact ⟨fun h => isLeast_Ici.unique h,fun h => h ▸ isLeast_Ici⟩

theorem weakestSufficient_iff {curInfer : Inference} {links : List (List Patch)}
    {f : ℕ → MemoryOrder} : WeakestSufficient curInfer links f ↔
      ∃ choice, Choice (demands links) choice ∧ (total curInfer.slots choice).order = f := by
  simp only [WeakestSufficient,isLeast_total,choice_demands]
  constructor
  · rintro ⟨patches,hpatches,hf⟩
    exact ⟨_,⟨patches,hpatches,rfl⟩,hf⟩
  · rintro ⟨_,⟨patches,hpatches,rfl⟩,hf⟩
    exact ⟨patches,hpatches,hf⟩

theorem weakestSufficient_totals {curInfer : Inference} {links : List (List Patch)}
    {f : ℕ → MemoryOrder} : WeakestSufficient curInfer links f ↔
      f ∈ totals curInfer.order (links.map (·.map Patch.order)) := by
  induction links using List.reverseRecOn generalizing f with
  | nil =>
    rw [weakestSufficient_iff,List.map_nil,totals_nil]
    constructor
    · rintro ⟨choice,hchoice,rfl⟩
      cases hchoice
      exact slots_order curInfer
    · rintro rfl
      exact ⟨[],.nil,slots_order curInfer⟩
  | append_singleton links patches ih =>
    rw [weakestSufficient_iff,List.map_append,List.map_singleton,mem_totals_append,demands,
      List.map_append,List.map_singleton]
    constructor
    · rintro ⟨choice,hchoice,rfl⟩
      obtain ⟨earlier,p,hearlier,hp,rfl⟩ := choice_append.mp hchoice
      obtain ⟨patch,hpatch,rfl⟩ := List.mem_map.mp hp
      refine ⟨_,ih.mp (weakestSufficient_iff.mpr ⟨earlier,hearlier,rfl⟩),Patch.order patch,
        List.mem_map_of_mem hpatch,?_⟩
      rw [total_append,Slots.order_sup]
      rfl
    · rintro ⟨g,hg,_,hp,rfl⟩
      obtain ⟨patch,hpatch,rfl⟩ := List.mem_map.mp hp
      obtain ⟨earlier,hearlier,rfl⟩ := weakestSufficient_iff.mp (ih.mpr hg)
      refine ⟨earlier ++ [Patch.slots patch],choice_append.mpr
        ⟨earlier,_,hearlier,List.mem_map_of_mem hpatch,rfl⟩,?_⟩
      rw [total_append,Slots.order_sup]
      rfl

/-! ### The links that lose nothing -/

/-- Every wildcard of the patch is set, and at least as strong as demanded. -/
def Inference.MeetsPatch (infer : Inference) (patch : Patch) : Prop :=
  ∀ unit ∈ patch, ∀ id, unit.wildcard = some id →
    (unit.mo : WithBot MemoryOrder) ≤ infer.slots (id - 1)

instance (infer : Inference) (patch : Patch) : Decidable (infer.MeetsPatch patch) :=
  inferInstanceAs (Decidable (∀ unit ∈ patch, ∀ id ∈ unit.wildcard, _))

/-- An unset wildcard counts as relaxed. -/
def Inference.SatisfiesPatch (infer : Inference) (patch : Patch) : Prop :=
  ∀ unit ∈ patch, ∀ id, unit.wildcard = some id → unit.mo ≤ infer.order (id - 1)

instance (infer : Inference) (patch : Patch) : Decidable (infer.SatisfiesPatch patch) :=
  inferInstanceAs (Decidable (∀ unit ∈ patch, ∀ id ∈ unit.wildcard, _))

/-- Some inference of the list that does not meet some patch has this assignment with it. -/
def Arises (list : List Inference) (patches : List Patch) (f : ℕ → MemoryOrder) : Prop :=
  ∃ infer ∈ list, ∃ patch ∈ patches, ¬ infer.MeetsPatch patch ∧ infer.order ⊔ patch.order = f

/-- A link of the path, and the list before it. An inference that meets a patch already arises
again; while the list is empty, no patch only sets a wildcard to relaxed; and where the earlier
links ask for nothing, what the patches make of the current inference arises from the list too. -/
structure LosesNothing (curInfer : Inference) (earlier : List (List Patch)) (list : List Inference)
    (patches : List Patch) : Prop where
  again : ∀ infer ∈ list, ∀ patch ∈ patches, infer.MeetsPatch patch →
    Arises list patches infer.order
  asks : list = [] → ∀ patch ∈ patches, curInfer.SatisfiesPatch patch → curInfer.MeetsPatch patch
  idle : (∀ patches' ∈ earlier, ∃ patch ∈ patches', curInfer.SatisfiesPatch patch) → list ≠ [] →
    ∀ patch ∈ patches, ¬ curInfer.SatisfiesPatch patch →
      Arises list patches (curInfer.order ⊔ patch.order)

theorem meets_iff {infer : Inference} {patch : Patch} :
    infer.MeetsPatch patch ↔ Patch.slots patch ≤ infer.slots := by
  induction patch with
  | nil => simp [Inference.MeetsPatch,Patch.slots]
  | cons unit patch ih =>
    rw [Patch.slots,sup_le_iff,← ih,Inference.MeetsPatch,List.forall_mem_cons]
    apply and_congr_left'
    cases hwildcard : unit.wildcard with
    | none =>
      have hbot : unit.slots = ⊥ := by
        funext w
        simp [PatchUnit.slots,hwildcard]
      simp [hbot]
    | some id => simp [unit_slots_le hwildcard]

theorem satisfies_iff {infer : Inference} {patch : Patch} :
    infer.SatisfiesPatch patch ↔ patch.order ≤ infer.order := by
  rw [Patch.order,Slots.order_le,patch_slots_le]
  rfl

theorem arises_iff {curInfer : Inference} {list : List Inference} {patches : List Patch}
    (hlist : list ≠ []) {f : ℕ → MemoryOrder} : Arises list patches f ↔
      ∃ z ∈ link curInfer.slots (slotsOf list) (patches.map Patch.slots), z.order = f := by
  have hsome : slotsOf list ≠ ∅ := by
    obtain ⟨infer,hinfer⟩ := List.exists_mem_of_ne_nil list hlist
    exact (Set.nonempty_iff_ne_empty).mp ⟨infer.slots,List.mem_map_of_mem hinfer⟩
  constructor
  · rintro ⟨infer,hinfer,patch,hpatch,hmeets,rfl⟩
    refine ⟨_,mem_link_of_mem (List.mem_map_of_mem hinfer) (List.mem_map_of_mem hpatch)
      (fun hle => hmeets (meets_iff.mpr hle)),?_⟩
    rw [Slots.order_sup,slots_order]
    rfl
  · rintro ⟨_,⟨y,hy,p,hp,hnew,rfl⟩,rfl⟩
    obtain ⟨infer,hinfer,rfl⟩ := List.mem_map.mp (hy.resolve_right fun h => hsome h.1)
    obtain ⟨patch,hpatch,rfl⟩ := List.mem_map.mp hp
    refine ⟨infer,hinfer,patch,hpatch,fun hmeets => hnew (meets_iff.mp hmeets),?_⟩
    rw [Slots.order_sup,slots_order]
    rfl

theorem losesNothing_iff {curInfer : Inference} {earlier : List (List Patch)}
    {list : List Inference} {patches : List Patch} : LosesNothing curInfer earlier list patches ↔
      Lossless Slots.orderHom curInfer.slots (slotsOf list)
        (curInfer.order ∈ totals curInfer.order (earlier.map (·.map Patch.order)))
        (patches.map Patch.slots) := by
  have hempty : slotsOf list = ∅ ↔ list = [] := by
    cases list with
    | nil => simp [slotsOf]
    | cons infer list =>
      have hmem : infer.slots ∈ slotsOf (infer :: list) := List.mem_map_of_mem List.mem_cons_self
      exact iff_of_false (Set.nonempty_iff_ne_empty.mp ⟨_,hmem⟩) (by simp)
  have hidle : curInfer.order ∈ totals curInfer.order (earlier.map (·.map Patch.order)) ↔
      ∀ patches' ∈ earlier, ∃ patch ∈ patches', curInfer.SatisfiesPatch patch := by
    simp [self_mem_totals,satisfies_iff]
  have horder : ∀ slots : Slots, Slots.orderHom slots = slots.order := fun _ => rfl
  constructor
  · intro h
    refine ⟨fun y hy p hp hle => ?_,fun hnone p hp hnew hle => ?_,
      fun hearlier hsome p hp hnew => ?_⟩
    · obtain ⟨infer,hinfer,rfl⟩ := List.mem_map.mp hy
      obtain ⟨patch,hpatch,rfl⟩ := List.mem_map.mp hp
      rw [horder,slots_order]
      exact (arises_iff (List.ne_nil_of_mem hinfer)).mp
        (h.again infer hinfer patch hpatch (meets_iff.mpr hle))
    · obtain ⟨patch,hpatch,rfl⟩ := List.mem_map.mp hp
      rw [horder,horder,slots_order] at hle
      exact hnew (meets_iff.mp (h.asks (hempty.mp hnone) patch hpatch (satisfies_iff.mpr hle)))
    · obtain ⟨patch,hpatch,rfl⟩ := List.mem_map.mp hp
      have hlist : list ≠ [] := fun hnil => hsome.ne_empty (hempty.mpr hnil)
      simp only [horder,slots_order] at hnew ⊢
      exact (arises_iff hlist).mp (h.idle (hidle.mp hearlier) hlist patch hpatch
        fun hsat => hnew (satisfies_iff.mp hsat))
  · intro h
    refine ⟨fun infer hinfer patch hpatch hmeets => ?_,fun hnil patch hpatch hsat => ?_,
      fun hearlier hlist patch hpatch hnot => ?_⟩
    · have hz := h.again infer.slots (List.mem_map_of_mem hinfer) _ (List.mem_map_of_mem hpatch)
        (meets_iff.mp hmeets)
      simp only [horder,slots_order] at hz
      exact (arises_iff (List.ne_nil_of_mem hinfer)).mpr hz
    · by_contra hnot
      refine h.asks (hempty.mpr hnil) _ (List.mem_map_of_mem hpatch)
        (fun hle => hnot (meets_iff.mpr hle)) ?_
      rw [horder,horder,slots_order]
      exact satisfies_iff.mp hsat
    · have hz := h.idle (hidle.mpr hearlier)
        (Set.nonempty_iff_ne_empty.mpr fun hnone => hlist (hempty.mp hnone)) _
        (List.mem_map_of_mem hpatch)
      simp only [horder,slots_order] at hz
      exact (arises_iff hlist).mpr (hz fun hle => hnot (satisfies_iff.mpr hle))

/-- The list holds exactly the weakest sufficient strengthenings for the links. -/
def Sufficient (curInfer : Inference) (links : List (List Patch)) (list : List Inference) : Prop :=
  ∀ f, f ∈ list.map Inference.order ↔ WeakestSufficient curInfer links f ∧ f ≠ curInfer.order

theorem sufficient_iff {curInfer : Inference} {links : List (List Patch)} {list : List Inference} :
    Sufficient curInfer links list ↔ ∀ f, f ∈ Slots.orderHom '' slotsOf list ↔
      f ∈ totals curInfer.order (links.map (·.map Patch.order)) ∧ f ≠ curInfer.order := by
  have horder : ∀ f, f ∈ list.map Inference.order ↔ f ∈ Slots.orderHom '' slotsOf list := by
    intro f
    rw [List.mem_map]
    constructor
    · rintro ⟨infer,hinfer,rfl⟩
      exact ⟨infer.slots,List.mem_map_of_mem hinfer,slots_order infer⟩
    · rintro ⟨_,hz,rfl⟩
      obtain ⟨infer,hinfer,rfl⟩ := List.mem_map.mp hz
      exact ⟨infer,hinfer,(slots_order infer).symm⟩
  simp only [Sufficient,horder,weakestSufficient_totals]

/-- One more link. -/
theorem sufficient_append {curInfer : Inference} {links : List (List Patch)} {patches : List Patch}
    {list list' : List Inference} (hlinks : ∀ patches ∈ links, patches ≠ [])
    (h : Sufficient curInfer links list)
    (hslots : slotsOf list' = link curInfer.slots (slotsOf list) (patches.map Patch.slots)) :
    Sufficient curInfer (links ++ [patches]) list' ↔ LosesNothing curInfer links list patches := by
  have hcur : Slots.orderHom curInfer.slots = curInfer.order := slots_order curInfer
  have hsome : (totals curInfer.order (links.map (·.map Patch.order))).Nonempty :=
    totals_nonempty _ (by simpa using hlinks)
  have hstep : _ ↔ Lossless Slots.orderHom curInfer.slots (slotsOf list) _
      (patches.map Patch.slots) :=
    image_link_iff hsome (fun f hf => hcur ▸ le_of_mem_totals hf)
      (by rw [hcur]; exact sufficient_iff.mp h)
  rw [hcur] at hstep
  rw [losesNothing_iff,← hstep,sufficient_iff,hslots]
  have horder : patches.map Patch.order = (patches.map Patch.slots).map Slots.orderHom := by
    rw [List.map_map]
    rfl
  simp only [List.map_append,List.map_singleton,mem_totals_append,horder,List.mem_map,
    exists_exists_and_eq_and]

theorem slotsOf_append {curInfer : Inference} {links : List (List Patch)} {patches : List Patch}
    (hcur : curInfer.Sized) (hlinks : ∀ patches' ∈ links ++ [patches], ∀ patch ∈ patches',
      ∀ unit ∈ patch, unit.OnWildcard) {list : List Inference}
    (hlist : applyPatches curInfer links [] = .ok list) :
    ∃ list', applyPatches curInfer (links ++ [patches]) [] = .ok list' ∧
      slotsOf list' = link curInfer.slots (slotsOf list) (patches.map Patch.slots) := by
  obtain ⟨list',hlist',hslots'⟩ := applyPatches_ok hlinks hcur
  obtain ⟨list₀,hlist₀,hslots⟩ :=
    applyPatches_ok (fun p hp => hlinks p (List.mem_append_left _ hp)) hcur
  obtain rfl : list₀ = list := Except.ok.inj (hlist₀.symm.trans hlist)
  refine ⟨list',hlist',?_⟩
  rw [hslots',hslots,demands,List.map_append,chain,List.foldl_append]
  rfl

/-- A release and an acquire operation. -/
def patchRelAcq : Patch := [⟨some 1,.acquire,by simp⟩,⟨some 2,.release,by simp⟩]

theorem patchRelAcq_onWildcard : ∀ unit ∈ patchRelAcq, unit.OnWildcard := by
  intro unit hunit
  rcases List.mem_pair.mp hunit with rfl | rfl
  · exact ⟨1,rfl,by decide⟩
  · exact ⟨2,rfl,by decide⟩

/-- Three links, the second with two patches. -/
def threeLinks : List (List Patch) :=
  [[patchRelAcq],[[⟨some 3,.release,by simp⟩],[⟨some 1,.release,by simp⟩]],
    [[⟨some 2,.acquire,by simp⟩,⟨some 3,.acquire,by simp⟩]]]

end CdsChecker
