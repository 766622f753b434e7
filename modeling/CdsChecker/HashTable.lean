import CdsChecker.Basic
import CdsChecker.Library.LinearProbing

/-! The hash table with linear probing. -/
namespace CdsChecker

/-- `hashlistnode`. -/
structure Bin (K V : Type) where
  key : K
  val : V
  deriving DecidableEq

structure HashTable (K V : Type) where
  table : ℕ → Bin K V
  capacity : ℕ
  size : ℕ
  capacitymask : ℕ
  threshold : ℕ

namespace HashTable

variable {K V : Type} [DecidableEq K] [Zero K] [Zero V]

/-- The default load factor is one half. -/
def create (initialcapacity : ℕ) : HashTable K V where
  table := fun _ => ⟨0,0⟩
  capacity := initialcapacity
  size := 0
  capacitymask := initialcapacity - 1
  threshold := initialcapacity / 2

def reset (s : HashTable K V) : HashTable K V := { s with table := fun _ => ⟨0,0⟩,size := 0 }

/-- Keys convert to integers, which are shifted and fit into an `unsigned int`. -/
def index (keyInt : K → ℕ) (shift : ℕ) (key : K) : ℕ := (keyInt key >>> shift) % 2 ^ 32

/-- The loop of `put`, `get` and `contains`: it ends at the key or at an empty bin. After `capacity`
turns it is where it began. -/
def search (s : HashTable K V) (key : K) : ℕ → ℕ → Result ℕ
  | 0,_ => .error .diverges
  | n + 1,index =>
    let index := index &&& s.capacitymask
    if (s.table index).key = key ∨ (s.table index).key = 0 then .ok index
    else search s key n (index + 1)

/-- The loop of `resize`: it ends at an empty bin. -/
def searchEmpty (s : HashTable K V) : ℕ → ℕ → Result ℕ
  | 0,_ => .error .diverges
  | n + 1,index =>
    let index := index &&& s.capacitymask
    if (s.table index).key = 0 then .ok index else searchEmpty s n (index + 1)

/-- A bin of the old table, empty or not, goes into the new one. -/
def reinsert (keyInt : K → ℕ) (shift : ℕ) (s : HashTable K V) (bin : Bin K V) :
    Result (HashTable K V) := do
  let i ← s.searchEmpty s.capacity (index keyInt shift bin.key)
  pure { s with table := Function.update s.table i bin }

def resize (keyInt : K → ℕ) (shift : ℕ) (s : HashTable K V) (newsize : ℕ) :
    Result (HashTable K V) :=
  (List.range s.capacity).foldlM (fun t i => reinsert keyInt shift t (s.table i)) {
    s with
    table := fun _ => ⟨0,0⟩
    capacity := newsize
    capacitymask := newsize - 1
    threshold := newsize / 2 }

def grow (keyInt : K → ℕ) (shift : ℕ) (s : HashTable K V) : Result (HashTable K V) :=
  if s.threshold < s.size then s.resize keyInt shift ((s.capacity <<< 1) % 2 ^ 32) else .ok s

def put (keyInt : K → ℕ) (shift : ℕ) (s : HashTable K V) (key : K) (val : V) :
    Result (HashTable K V) := do
  assert (key ≠ 0)
  let s ← s.grow keyInt shift
  let i ← s.search key s.capacity (index keyInt shift key)
  if (s.table i).key = key then
    pure { s with table := Function.update s.table i { s.table i with val := val } }
  else pure { s with table := Function.update s.table i ⟨key,val⟩,size := s.size + 1 }

def get (keyInt : K → ℕ) (shift : ℕ) (s : HashTable K V) (key : K) : Result V := do
  assert (key ≠ 0)
  let i ← s.search key s.capacity (index keyInt shift key)
  if (s.table i).key = key then pure (s.table i).val else pure 0

def contains (keyInt : K → ℕ) (shift : ℕ) (s : HashTable K V) (key : K) : Result Bool := do
  assert (key ≠ 0)
  let i ← s.search key s.capacity (index keyInt shift key)
  pure (decide ((s.table i).key = key))

/-! ### Runs -/

inductive Op (K V : Type)
  | put (key : K) (val : V)
  | get (key : K)
  | contains (key : K)
  | reset

inductive Output (V : Type)
  | done
  | val (v : V)
  | bool (b : Bool)

def Op.key : Op K V → Option K
  | .put key _ | .get key | .contains key => some key
  | .reset => none

def step (keyInt : K → ℕ) (shift : ℕ) (s : HashTable K V) :
    Op K V → Result (HashTable K V × Output V)
  | .put key val => do
    let s ← s.put keyInt shift key val
    pure (s,.done)
  | .get key => do
    let v ← s.get keyInt shift key
    pure (s,.val v)
  | .contains key => do
    let b ← s.contains keyInt shift key
    pure (s,.bool b)
  | .reset => .ok (s.reset,.done)

def run (keyInt : K → ℕ) (shift : ℕ) :
    List (Op K V) → HashTable K V → Result (HashTable K V × List (Output V))
  | [],s => .ok (s,[])
  | op :: ops,s => do
    let (s,out) ← s.step keyInt shift op
    let (s,outs) ← run keyInt shift ops s
    pure (s,out :: outs)

/-- The operation on a finite map. -/
def mapStep (m : K → Option V) : Op K V → (K → Option V) × Output V
  | .put key val => (Function.update m key (some val),.done)
  | .get key => (m,.val ((m key).getD 0))
  | .contains key => (m,.bool (m key).isSome)
  | .reset => (fun _ => none,.done)

def mapRun : List (Op K V) → (K → Option V) → List (Output V)
  | [],_ => []
  | op :: ops,m => (mapStep m op).2 :: mapRun ops (mapStep m op).1

/-! ### The slots -/

/-- A bin with the key zero is empty. -/
def slots (s : HashTable K V) (i : ℕ) : Option (K × V) :=
  if (s.table i).key = 0 then none else some ((s.table i).key,(s.table i).val)

variable {keyInt : K → ℕ} {shift : ℕ} {s t : HashTable K V} {m : K → Option V} {key : K} {i : ℕ}

omit [Zero V] in
theorem slots_eq_none : s.slots i = none ↔ (s.table i).key = 0 := by
  unfold slots
  split <;> simp [*]

omit [Zero V] in
theorem slots_eq_some {v : V} :
    s.slots i = some (key,v) ↔ key ≠ 0 ∧ s.table i = ⟨key,v⟩ := by
  unfold slots
  cases s.table i with
  | mk k w =>
    dsimp only
    split
    · rename_i hzero
      simp only [reduceCtorEq,Bin.mk.injEq,false_iff,not_and]
      rintro hne rfl
      exact absurd hzero hne
    · rename_i hne
      simp only [Option.some.injEq,Prod.mk.injEq,Bin.mk.injEq]
      constructor
      · rintro ⟨rfl,rfl⟩
        exact ⟨hne,rfl,rfl⟩
      · rintro ⟨-,rfl,rfl⟩
        exact ⟨rfl,rfl⟩

omit [Zero V] in
theorem slots_update (s : HashTable K V) (i : ℕ) (hne : key ≠ 0) (v : V) :
    slots { s with table := Function.update s.table i ⟨key,v⟩ } =
      Function.update s.slots i (some (key,v)) := by
  funext j
  by_cases hj : j = i
  · subst hj
    rw [Function.update_self,slots_eq_some]
    exact ⟨hne,Function.update_self ..⟩
  · rw [Function.update_of_ne hj]
    simp only [slots,Function.update_of_ne hj]

/-- A power of two, with its mask. -/
structure Sized (s : HashTable K V) : Prop where
  capacity : ∃ j, 2 ≤ j ∧ s.capacity = 2 ^ j
  mask : s.capacitymask = s.capacity - 1
  threshold : s.threshold = s.capacity / 2

omit [DecidableEq K] [Zero K] [Zero V] in
theorem Sized.four_le (h : s.Sized) : 4 ≤ s.capacity := by
  obtain ⟨j,hj,hcap⟩ := h.capacity
  rw [hcap]
  have hle : 2 ^ 2 ≤ 2 ^ j := Nat.pow_le_pow_right (by decide) hj
  exact hle

omit [DecidableEq K] [Zero K] [Zero V] in
theorem Sized.and_mask (h : s.Sized) (x : ℕ) : x &&& s.capacitymask = x % s.capacity := by
  obtain ⟨j,-,hcap⟩ := h.capacity
  rw [h.mask,hcap,Nat.and_two_pow_sub_one_eq_mod]

omit [Zero V] in
/-- The loop comes to the first bin that ends it. -/
theorem search_eq (h : s.Sized) {n d : ℕ} (hd : d < n) {x : ℕ}
    (hstop : (s.table ((x + d) % s.capacity)).key = key ∨ (s.table ((x + d) % s.capacity)).key = 0)
    (hbefore : ∀ d' < d, (s.table ((x + d') % s.capacity)).key ≠ key ∧
      (s.table ((x + d') % s.capacity)).key ≠ 0) :
    s.search key n x = .ok ((x + d) % s.capacity) := by
  induction d generalizing n x with
  | zero =>
    cases n with
    | zero => cases hd
    | succ n =>
      rw [Nat.add_zero] at hstop
      rw [search]
      simp only [h.and_mask]
      rw [if_pos hstop,Nat.add_zero]
  | succ d ih =>
    cases n with
    | zero => cases hd
    | succ n =>
      have hnext : ∀ d', (x % s.capacity + 1 + d') % s.capacity = (x + (d' + 1)) % s.capacity := by
        intro d'
        rw [Nat.add_assoc,Nat.mod_add_mod,Nat.add_comm 1 d']
      have hnot := hbefore 0 (Nat.succ_pos d)
      rw [Nat.add_zero] at hnot
      rw [search]
      simp only [h.and_mask]
      rw [if_neg (not_or.mpr hnot),ih (Nat.lt_of_succ_lt_succ hd),hnext]
      · rw [hnext]
        exact hstop
      · intro d' hd'
        rw [hnext]
        exact hbefore (d' + 1) (Nat.succ_lt_succ hd')

omit [Zero V] in
theorem searchEmpty_eq (h : s.Sized) {n d : ℕ} (hd : d < n) {x : ℕ}
    (hstop : (s.table ((x + d) % s.capacity)).key = 0)
    (hbefore : ∀ d' < d, (s.table ((x + d') % s.capacity)).key ≠ 0) :
    s.searchEmpty n x = .ok ((x + d) % s.capacity) := by
  induction d generalizing n x with
  | zero =>
    cases n with
    | zero => cases hd
    | succ n =>
      rw [Nat.add_zero] at hstop
      rw [searchEmpty]
      simp only [h.and_mask]
      rw [if_pos hstop,Nat.add_zero]
  | succ d ih =>
    cases n with
    | zero => cases hd
    | succ n =>
      have hnext : ∀ d', (x % s.capacity + 1 + d') % s.capacity = (x + (d' + 1)) % s.capacity := by
        intro d'
        rw [Nat.add_assoc,Nat.mod_add_mod,Nat.add_comm 1 d']
      have hnot := hbefore 0 (Nat.succ_pos d)
      rw [Nat.add_zero] at hnot
      rw [searchEmpty]
      simp only [h.and_mask]
      rw [if_neg hnot,ih (Nat.lt_of_succ_lt_succ hd),hnext]
      · rw [hnext]
        exact hstop
      · intro d' hd'
        rw [hnext]
        exact hbefore (d' + 1) (Nat.succ_lt_succ hd')

omit [Zero V] in
theorem firstStop_key {d : ℕ}
    (hstop : FirstStop s.capacity (index keyInt shift) s.slots key d) :
    (∀ d' < d, (s.table ((index keyInt shift key + d') % s.capacity)).key ≠ key ∧
      (s.table ((index keyInt shift key + d') % s.capacity)).key ≠ 0) ∧
    ((s.table ((index keyInt shift key + d) % s.capacity)).key = key ∨
      (s.table ((index keyInt shift key + d) % s.capacity)).key = 0) := by
  constructor
  · intro d' hd'
    obtain ⟨k',v,hother,hdiff⟩ := hstop.before d' hd'
    rw [slots_eq_some] at hother
    rw [hother.2]
    exact ⟨hdiff,hother.1⟩
  · rcases hstop.stop with hnone | ⟨v,hfound⟩
    · exact .inr (slots_eq_none.mp hnone)
    · left
      rw [(slots_eq_some.mp hfound).2]

omit [Zero V] in
theorem exists_search (key : K) (h : s.Sized) (hroom : occupied s.capacity s.slots < s.capacity) :
    ∃ d, FirstStop s.capacity (index keyInt shift) s.slots key d ∧
      s.search key s.capacity (index keyInt shift key) =
        .ok ((index keyInt shift key + d) % s.capacity) := by
  obtain ⟨d,hd,hstop⟩ := exists_firstStop (index keyInt shift) key (exists_free hroom)
  obtain ⟨hbefore,hlast⟩ := firstStop_key hstop
  exact ⟨d,hstop,search_eq h hd hlast hbefore⟩

omit [Zero V] in
/-- A key that the table does not have is taken to an empty bin, the key zero too. -/
theorem exists_searchEmpty (h : s.Sized)
    (hprobed : Probed s.capacity (index keyInt shift) s.slots m)
    (hroom : occupied s.capacity s.slots < s.capacity) (habsent : m key = none) :
    ∃ d, FirstStop s.capacity (index keyInt shift) s.slots key d ∧
      s.slots ((index keyInt shift key + d) % s.capacity) = none ∧
      s.searchEmpty s.capacity (index keyInt shift key) =
        .ok ((index keyInt shift key + d) % s.capacity) := by
  obtain ⟨d,hd,hstop⟩ := exists_firstStop (index keyInt shift) key (exists_free hroom)
  have hpos : 0 < s.capacity := Nat.zero_lt_of_lt hroom
  have hnone : s.slots ((index keyInt shift key + d) % s.capacity) = none := by
    rcases hstop.stop with hnone | ⟨v,hfound⟩
    · exact hnone
    · rw [hprobed.of_found hpos hfound] at habsent
      cases habsent
  refine ⟨d,hstop,hnone,searchEmpty_eq h hd (slots_eq_none.mp hnone) fun d' hd' => ?_⟩
  obtain ⟨k',v,hother,-⟩ := hstop.before d' hd'
  rw [slots_eq_some] at hother
  rw [hother.2]
  exact hother.1

/-! ### The table as a map -/

/-- The table holds the map. Before a `put` the size is above the threshold by one at most. -/
structure Represents (keyInt : K → ℕ) (shift : ℕ) (s : HashTable K V) (m : K → Option V) :
    Prop where
  sized : s.Sized
  probed : Probed s.capacity (index keyInt shift) s.slots m
  size : occupied s.capacity s.slots = s.size
  room : s.size ≤ s.threshold + 1

omit [Zero V] in
theorem Represents.lt_capacity (h : Represents keyInt shift s m) :
    occupied s.capacity s.slots < s.capacity := by
  have hroom := h.room
  have hfour := h.sized.four_le
  rw [h.sized.threshold] at hroom
  rw [h.size]
  omega

theorem slots_zero {t : HashTable K V}
    (ht : t.table = fun _ => ⟨0,0⟩) : t.slots = fun _ => none := by
  funext i
  rw [slots_eq_none,ht]

theorem represents_create {k : ℕ} (hk : 2 ≤ k) :
    Represents keyInt shift (create (2 ^ k) : HashTable K V) fun _ => none := by
  have hslots : slots (create (2 ^ k) : HashTable K V) = fun _ => none := slots_zero rfl
  refine ⟨⟨⟨k,hk,rfl⟩,rfl,rfl⟩,?_,?_,Nat.zero_le _⟩
  · rw [hslots]
    exact probed_empty
  · rw [hslots,occupied_empty]
    rfl

theorem Represents.reset (h : Represents keyInt shift s m) :
    Represents keyInt shift s.reset fun _ => none := by
  have hslots : slots s.reset = fun _ => none := slots_zero rfl
  refine ⟨⟨h.sized.capacity,h.sized.mask,h.sized.threshold⟩,?_,?_,Nat.zero_le _⟩
  · rw [hslots]
    exact probed_empty
  · rw [hslots,occupied_empty]
    rfl

theorem Represents.get (h : Represents keyInt shift s m) (hne : key ≠ 0) :
    s.get keyInt shift key = .ok ((m key).getD 0) := by
  obtain ⟨d,hstop,hsearch⟩ := exists_search key h.sized h.lt_capacity
  have hpos : 0 < s.capacity := Nat.zero_lt_of_lt h.lt_capacity
  refine bind_eq_ok.mpr ⟨(),assert_eq_ok.mpr (decide_eq_true hne),bind_eq_ok.mpr ⟨_,hsearch,?_⟩⟩
  rcases hstop.stop with hnone | ⟨v,hfound⟩
  · rw [h.probed.of_free hstop hnone,slots_eq_none.mp hnone,if_neg (Ne.symm hne)]
    rfl
  · rw [h.probed.of_found hpos hfound,(slots_eq_some.mp hfound).2,if_pos rfl]
    rfl

omit [Zero V] in
theorem Represents.contains (h : Represents keyInt shift s m) (hne : key ≠ 0) :
    s.contains keyInt shift key = .ok (m key).isSome := by
  obtain ⟨d,hstop,hsearch⟩ := exists_search key h.sized h.lt_capacity
  have hpos : 0 < s.capacity := Nat.zero_lt_of_lt h.lt_capacity
  refine bind_eq_ok.mpr ⟨(),assert_eq_ok.mpr (decide_eq_true hne),bind_eq_ok.mpr ⟨_,hsearch,?_⟩⟩
  rcases hstop.stop with hnone | ⟨v,hfound⟩
  · rw [h.probed.of_free hstop hnone,slots_eq_none.mp hnone,decide_eq_false (Ne.symm hne)]
    rfl
  · rw [h.probed.of_found hpos hfound,(slots_eq_some.mp hfound).2,decide_eq_true rfl]
    rfl

/-! ### Growing -/

omit [Zero V] in
/-- Where the key is not yet there its bin takes a free place. -/
theorem reinsert_new (h : t.Sized) (hprobed : Probed t.capacity (index keyInt shift) t.slots m)
    (hroom : occupied t.capacity t.slots < t.capacity) {k : K} {v : V} (habsent : m k = none) :
    ∃ table, reinsert keyInt shift t ⟨k,v⟩ = .ok { t with table := table } ∧
      (k = 0 → slots { t with table := table } = t.slots) ∧
      (k ≠ 0 → Probed t.capacity (index keyInt shift) (slots { t with table := table })
          (Function.update m k (some v)) ∧
        occupied t.capacity (slots { t with table := table }) =
        occupied t.capacity t.slots + 1) := by
  obtain ⟨d,hstop,hnone,hsearch⟩ := exists_searchEmpty h hprobed hroom habsent
  have hpos : 0 < t.capacity := Nat.zero_lt_of_lt hroom
  refine ⟨_,bind_eq_ok.mpr ⟨_,hsearch,rfl⟩,?_,?_⟩
  · rintro rfl
    funext j
    by_cases hj : j = (index keyInt shift 0 + d) % t.capacity
    · rw [hj,hnone,slots_eq_none]
      dsimp only
      rw [Function.update_self]
    · simp only [slots,Function.update_of_ne hj]
  · intro hne
    rw [slots_update t _ hne]
    exact ⟨hprobed.insert hpos hstop hnone v,occupied_insert (Nat.mod_lt _ hpos) hnone _⟩

omit [Zero K] [Zero V] in
theorem update_eq_some {k k' : K} {v w : V} :
    Function.update m k (some v) k' = some w ↔ k' = k ∧ v = w ∨ k' ≠ k ∧ m k' = some w := by
  by_cases hk : k' = k
  · subst hk
    simp
  · simp [hk]

omit [Zero V] in
/-- The first `n` bins are in the new table. -/
theorem foldlM_reinsert (hprobed : Probed s.capacity (index keyInt shift) s.slots m)
    {t₀ : HashTable K V} (ht₀ : t₀.Sized) (hempty : t₀.slots = fun _ => none)
    (hroom : occupied s.capacity s.slots < t₀.capacity) {n : ℕ} (hn : n ≤ s.capacity) :
    ∃ table m', (List.range n).foldlM (fun t i => reinsert keyInt shift t (s.table i)) t₀ =
        .ok { t₀ with table := table } ∧
      Probed t₀.capacity (index keyInt shift) (slots { t₀ with table := table }) m' ∧
      (∀ k v, m' k = some v ↔ ∃ i < n, s.slots i = some (k,v)) ∧
      occupied t₀.capacity (slots { t₀ with table := table }) = occupied n s.slots := by
  induction n with
  | zero =>
    refine ⟨t₀.table,fun _ => none,rfl,?_,?_,?_⟩
    · change Probed _ _ t₀.slots _
      rw [hempty]
      exact probed_empty
    · intro k v
      simp
    · change occupied _ t₀.slots = 0
      rw [hempty,occupied_empty]
  | succ n ih =>
    obtain ⟨table,m',hfold,hnew,hcontent,hcount⟩ := ih (Nat.le_of_succ_le hn)
    have hlt : occupied t₀.capacity (slots { t₀ with table := table }) < t₀.capacity := by
      rw [hcount]
      exact (occupied_mono (Nat.le_of_succ_le hn) s.slots).trans_lt hroom
    have hsized : Sized { t₀ with table := table } := ⟨ht₀.capacity,ht₀.mask,ht₀.threshold⟩
    -- the bins before this one have other keys
    have habsent : m' (s.table n).key = none := by
      cases hm : m' (s.table n).key with
      | none => rfl
      | some v =>
        obtain ⟨i,hi,hslot⟩ := (hcontent _ _).mp hm
        have hkey := (slots_eq_some.mp hslot).1
        have hslot' : s.slots n = some ((s.table n).key,(s.table n).val) :=
          slots_eq_some.mpr ⟨hkey,rfl⟩
        have heq := hprobed.once i (Nat.lt_trans hi hn) n hn _ _ _ hslot hslot'
        exact absurd heq (Nat.ne_of_lt hi)
    obtain ⟨table',hre,hzero,hnonzero⟩ := reinsert_new hsized hnew hlt habsent
      (v := (s.table n).val)
    have hfold' : (List.range (n + 1)).foldlM
        (fun t i => reinsert keyInt shift t (s.table i)) t₀ = .ok { t₀ with table := table' } := by
      rw [List.range_succ,List.foldlM_append]
      refine bind_eq_ok.mpr ⟨_,hfold,?_⟩
      rw [List.foldlM_cons]
      exact bind_eq_ok.mpr ⟨_,hre,rfl⟩
    by_cases hkey : (s.table n).key = 0
    · have hnone : s.slots n = none := slots_eq_none.mpr hkey
      refine ⟨table',m',hfold',?_,?_,?_⟩
      · rw [show slots { t₀ with table := table' } = _ from hzero hkey]
        exact hnew
      · intro k v
        rw [hcontent]
        constructor
        · rintro ⟨i,hi,hslot⟩
          exact ⟨i,Nat.lt_succ_of_lt hi,hslot⟩
        · rintro ⟨i,hi,hslot⟩
          refine ⟨i,?_,hslot⟩
          rcases Nat.lt_succ_iff_lt_or_eq.mp hi with hlt' | rfl
          · exact hlt'
          · rw [hnone] at hslot
            cases hslot
      · rw [show slots { t₀ with table := table' } = _ from hzero hkey,hcount,occupied_succ,hnone]
        rfl
    · have hslot : s.slots n = some ((s.table n).key,(s.table n).val) :=
        slots_eq_some.mpr ⟨hkey,rfl⟩
      obtain ⟨hprobed',hcount'⟩ := hnonzero hkey
      refine ⟨table',_,hfold',hprobed',?_,?_⟩
      · intro k v
        rw [update_eq_some,hcontent]
        constructor
        · rintro (⟨rfl,rfl⟩ | ⟨-,i,hi,hold⟩)
          · exact ⟨n,Nat.lt_succ_self n,hslot⟩
          · exact ⟨i,Nat.lt_succ_of_lt hi,hold⟩
        · rintro ⟨i,hi,hold⟩
          rcases Nat.lt_succ_iff_lt_or_eq.mp hi with hlt' | rfl
          · right
            refine ⟨?_,i,hlt',hold⟩
            rintro rfl
            rw [(hcontent _ _).mpr ⟨i,hlt',hold⟩] at habsent
            cases habsent
          · rw [hslot] at hold
            cases hold
            exact .inl ⟨rfl,rfl⟩
      · rw [occupied_succ,hslot,← hcount]
        exact hcount'

/-- Twice the capacity, with the same content. -/
theorem Represents.grow (h : Represents keyInt shift s m) (hsmall : s.capacity < 2 ^ 31) :
    ∃ t, s.grow keyInt shift = .ok t ∧ Represents keyInt shift t m ∧ t.size ≤ t.threshold := by
  unfold HashTable.grow
  split
  · rename_i hfull
    obtain ⟨j,hj,hcap⟩ := h.sized.capacity
    have hdouble : (s.capacity <<< 1) % 2 ^ 32 = 2 ^ (j + 1) := by
      rw [Nat.shiftLeft_eq,Nat.mod_eq_of_lt (by omega),hcap,pow_one,pow_succ]
    have hsize : s.size = s.capacity / 2 + 1 := by
      have hroom := h.room
      rw [h.sized.threshold] at hroom hfull
      omega
    let t₀ : HashTable K V := {
      s with
      table := fun _ => ⟨0,0⟩
      capacity := 2 ^ (j + 1)
      capacitymask := 2 ^ (j + 1) - 1
      threshold := 2 ^ (j + 1) / 2 }
    have ht₀ : t₀.Sized := ⟨⟨j + 1,Nat.le_succ_of_le hj,rfl⟩,rfl,rfl⟩
    have hroom : occupied s.capacity s.slots < t₀.capacity := by
      have hlt := h.lt_capacity
      have hcap₀ : t₀.capacity = 2 ^ (j + 1) := rfl
      rw [hcap₀,pow_succ,← hcap]
      omega
    obtain ⟨table,m',hfold,hprobed,hcontent,hcount⟩ :=
      foldlM_reinsert h.probed ht₀ (slots_zero rfl) hroom (Nat.le_refl s.capacity)
    have hm : m' = m := by
      funext k
      apply Option.ext
      intro v
      rw [hcontent,h.probed.content]
    rw [hm] at hprobed
    have hthreshold : s.size ≤ 2 ^ (j + 1) / 2 := by
      have hfour := h.sized.four_le
      rw [hsize,pow_succ,← hcap]
      omega
    refine ⟨{ t₀ with table := table },?_,⟨⟨ht₀.capacity,rfl,rfl⟩,hprobed,?_,?_⟩,hthreshold⟩
    · rw [hdouble]
      exact hfold
    · rw [hcount]
      exact h.size
    · exact Nat.le_succ_of_le hthreshold
  · rename_i hnot
    exact ⟨s,rfl,h,Nat.not_lt.mp hnot⟩

theorem Represents.put (h : Represents keyInt shift s m) (hne : key ≠ 0)
    (hsmall : s.capacity < 2 ^ 31) (v : V) :
    ∃ t, s.put keyInt shift key v = .ok t ∧
      Represents keyInt shift t (Function.update m key (some v)) := by
  obtain ⟨t,hgrow,ht,hle⟩ := h.grow hsmall
  obtain ⟨d,hstop,hsearch⟩ := exists_search key ht.sized ht.lt_capacity
  have hpos : 0 < t.capacity := Nat.zero_lt_of_lt ht.lt_capacity
  have hput : ∀ {r}, (if (t.table ((index keyInt shift key + d) % t.capacity)).key = key then _
      else _) = (.ok r : Result (HashTable K V)) → s.put keyInt shift key v = .ok r := fun hr =>
    bind_eq_ok.mpr ⟨(),assert_eq_ok.mpr (decide_eq_true hne),bind_eq_ok.mpr ⟨t,hgrow,
      bind_eq_ok.mpr ⟨_,hsearch,hr⟩⟩⟩
  rcases hstop.stop with hnone | ⟨u,hfound⟩
  · have hkey : ¬(t.table ((index keyInt shift key + d) % t.capacity)).key = key := by
      rw [slots_eq_none.mp hnone]
      exact Ne.symm hne
    refine ⟨_,hput (if_neg hkey),⟨ht.sized.capacity,ht.sized.mask,ht.sized.threshold⟩,?_,?_,?_⟩
    · have hnew := ht.probed.insert hpos hstop hnone v
      rw [← slots_update t _ hne] at hnew
      exact hnew
    · have hcount := occupied_insert (Nat.mod_lt _ hpos) hnone (key,v)
      rw [← slots_update t _ hne,ht.size] at hcount
      exact hcount
    · exact Nat.succ_le_succ hle
  · have hbin := (slots_eq_some.mp hfound).2
    have hkey : (t.table ((index keyInt shift key + d) % t.capacity)).key = key := by rw [hbin]
    refine ⟨_,hput (if_pos hkey),⟨ht.sized.capacity,ht.sized.mask,ht.sized.threshold⟩,?_,?_,?_⟩
    · have hnew := ht.probed.overwrite hpos hfound v
      rw [← slots_update t _ hne] at hnew
      rw [hbin]
      exact hnew
    · have hcount := occupied_overwrite t.capacity hfound (key,v)
      rw [← slots_update t _ hne,ht.size] at hcount
      rw [hbin]
      exact hcount
    · exact ht.room

/-- One operation does what it does to the map. -/
theorem Represents.step (h : Represents keyInt shift s m) (hsmall : s.capacity < 2 ^ 31)
    {op : Op K V} (hkey : ∀ key, op.key = some key → key ≠ 0) :
    ∃ t, s.step keyInt shift op = .ok (t,(mapStep m op).2) ∧
      Represents keyInt shift t (mapStep m op).1 := by
  cases op with
  | put key val =>
    obtain ⟨t,hput,ht⟩ := h.put (hkey key rfl) hsmall val
    exact ⟨t,bind_eq_ok.mpr ⟨t,hput,rfl⟩,ht⟩
  | get key => exact ⟨s,bind_eq_ok.mpr ⟨_,h.get (hkey key rfl),rfl⟩,h⟩
  | contains key => exact ⟨s,bind_eq_ok.mpr ⟨_,h.contains (hkey key rfl),rfl⟩,h⟩
  | reset => exact ⟨s.reset,rfl,h.reset⟩

/-- The capacity stays below two to the power of 31 in the whole run. -/
def StaysSmall (keyInt : K → ℕ) (shift : ℕ) (ops : List (Op K V)) (s : HashTable K V) : Prop :=
  ∀ pre post t outs, ops = pre ++ post → run keyInt shift pre s = .ok (t,outs) →
    t.capacity < 2 ^ 31

theorem StaysSmall.tail {op : Op K V} {ops : List (Op K V)} {out : Output V}
    (h : StaysSmall keyInt shift (op :: ops) s) (hstep : s.step keyInt shift op = .ok (t,out)) :
    StaysSmall keyInt shift ops t := by
  rintro pre post t' outs rfl hrun
  refine h (op :: pre) post t' (out :: outs) rfl ?_
  exact bind_eq_ok.mpr ⟨_,hstep,bind_eq_ok.mpr ⟨_,hrun,rfl⟩⟩

theorem Represents.run (h : Represents keyInt shift s m) {ops : List (Op K V)}
    (hkeys : ∀ op ∈ ops, ∀ key, op.key = some key → key ≠ 0)
    (hsmall : StaysSmall keyInt shift ops s) :
    ∃ t, run keyInt shift ops s = .ok (t,mapRun ops m) := by
  induction ops generalizing s m with
  | nil => exact ⟨s,rfl⟩
  | cons op ops ih =>
    have hcap : s.capacity < 2 ^ 31 := hsmall [] (op :: ops) s [] rfl rfl
    obtain ⟨t,hstep,ht⟩ := h.step hcap (hkeys op (List.mem_cons_self ..))
    obtain ⟨t',hrun⟩ := ih ht (fun op' hop' => hkeys op' (List.mem_cons_of_mem _ hop'))
      (hsmall.tail hstep)
    exact ⟨t',bind_eq_ok.mpr ⟨_,hstep,bind_eq_ok.mpr ⟨_,hrun,rfl⟩⟩⟩

/-- The table answers as a finite map does, and each of its loops ends. -/
theorem run_eq_mapRun {k : ℕ} (hk : 2 ≤ k) {ops : List (Op K V)}
    (hkeys : ∀ op ∈ ops, ∀ key, op.key = some key → key ≠ 0)
    (hsmall : StaysSmall keyInt shift ops (create (2 ^ k))) :
    ∃ t, run keyInt shift ops (create (2 ^ k)) = .ok (t,mapRun ops fun _ => none) :=
  (represents_create hk).run hkeys hsmall

/-- Keys with the same home wrap around the end and are moved by a resize. -/
def collidingOps : List (Op ℕ ℕ) :=
  [.put 7 1,.put 3 2,.put 11 3,.get 11,.put 15 4,.get 3,.put 3 5,.get 3,.contains 19,.reset,.get 7]

theorem collidingOps_staysSmall : StaysSmall id 0 collidingOps (create (2 ^ 2)) := by
  have hall : ∀ pre ∈ collidingOps.inits, ∀ r ∈ (run id 0 pre (create (2 ^ 2))).toOption,
      r.1.capacity < 2 ^ 31 := by decide +kernel
  intro pre post t outs hops hrun
  refine hall pre ((List.mem_inits ..).mpr ⟨post,hops.symm⟩) (t,outs) ?_
  rw [hrun]
  rfl

theorem run_eq_mapRun_colliding :
    2 ≤ 2 ∧ (∀ op ∈ collidingOps, ∀ key, op.key = some key → key ≠ 0) ∧
    ∃ t, run id 0 collidingOps (create (2 ^ 2)) = .ok (t,mapRun collidingOps fun _ => none) := by
  have hkeys : ∀ op ∈ collidingOps, ∀ key, op.key = some key → key ≠ 0 := by
    simp [collidingOps,Op.key]
  exact ⟨Nat.le_refl 2,hkeys,run_eq_mapRun (Nat.le_refl 2) hkeys collidingOps_staysSmall⟩

end HashTable
end CdsChecker
