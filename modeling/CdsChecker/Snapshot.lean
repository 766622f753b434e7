import CdsChecker.Library.UndoLog

/-! The `mprotect` snapshotter of `snapshot.cc`, tuned as `config.h` sets it: memory is pages with
a protection bit, and the first write to a protected page saves it. -/
namespace CdsChecker

open UndoLog

/-- In pages. -/
structure MemoryRegion where
  basePtr : ℕ
  sizeInPages : ℕ
  deriving DecidableEq, Repr

def MemoryRegion.Contains (r : MemoryRegion) (p : ℕ) : Prop :=
  r.basePtr ≤ p ∧ p < r.basePtr + r.sizeInPages

instance (r : MemoryRegion) (p : ℕ) : Decidable (r.Contains p) :=
    inferInstanceAs (Decidable (_ ∧ _))

/-- `mprot_snapshotter` with the memory it looks after. A backing page is kept with the page it
is a copy of, and a snapshot is its first backing page; the lists end where `lastBackingPage`
and `lastSnapShot` point. -/
structure MprotSnapshotter (α : Type) where
  memory : ℕ → α
  readOnly : ℕ → Bool
  regionsToSnapShot : List MemoryRegion
  backing : List (ℕ × α)
  snapShots : List ℕ
  maxBackingPages : ℕ
  maxSnapShots : ℕ

namespace MprotSnapshotter

variable {α : Type}

def init (memory : ℕ → α) (regions : List MemoryRegion) (maxBackingPages maxSnapShots : ℕ) :
    MprotSnapshotter α where
  memory := memory
  readOnly := fun _ => false
  regionsToSnapShot := regions
  backing := []
  snapShots := []
  maxBackingPages := maxBackingPages
  maxSnapShots := maxSnapShots

def InRegions (m : MprotSnapshotter α) (p : ℕ) : Prop := ∃ r ∈ m.regionsToSnapShot, r.Contains p

def mprotect (m : MprotSnapshotter α) (readOnly : Bool) (r : MemoryRegion) : MprotSnapshotter α :=
  { m with readOnly := fun p => if r.Contains p then readOnly else m.readOnly p }

def mprotectRegions (m : MprotSnapshotter α) (readOnly : Bool) : MprotSnapshotter α :=
  m.regionsToSnapShot.foldl (·.mprotect readOnly ·) m

/-- `mprot_handle_pf`; `none` stands for the exit when the backing pages run out. -/
def handlePf (m : MprotSnapshotter α) (addr : ℕ) : Option (MprotSnapshotter α) :=
  if m.backing.length = m.maxBackingPages then none
  else some { m with
    backing := m.backing ++ [(addr,m.memory addr)]
    readOnly := Function.update m.readOnly addr false }

/-- A write to a page, after the fault if the page is protected. -/
def writePage (m : MprotSnapshotter α) (p : ℕ) (v : α) : Option (MprotSnapshotter α) :=
  (if m.readOnly p then m.handlePf p else some m).map fun m =>
    { m with memory := Function.update m.memory p v }

def takeSnapshot (m : MprotSnapshotter α) : Option (ℕ × MprotSnapshotter α) :=
  let m := m.mprotectRegions true
  let snapshot := m.snapShots.length
  if snapshot = m.maxSnapShots then none
  else some (snapshot,{ m with snapShots := m.snapShots ++ [m.backing.length] })

/-- The copying loop of the fast path. There are never more than `maxBackingPages` turns. -/
def copyBack (m : MprotSnapshotter α) (page : ℕ) : ℕ → Option (MprotSnapshotter α)
  | 0 => some m
  | n + 1 =>
    match m.backing[page]? with
    | none => some m
    | some (basePtrOfPage,contents) => do
      let m ← m.writePage basePtrOfPage contents
      m.copyBack (page + 1) n

/-- The copying loop of the general path: the oldest copy of each page. -/
def copyBackFirst (m : MprotSnapshotter α) (duplicateMap : List ℕ) (page : ℕ) :
    ℕ → Option (MprotSnapshotter α)
  | 0 => some m
  | n + 1 =>
    match m.backing[page]? with
    | none => some m
    | some (basePtrOfPage,contents) =>
      if basePtrOfPage ∈ duplicateMap then m.copyBackFirst duplicateMap (page + 1) n
      else do
        let m ← m.writePage basePtrOfPage contents
        m.copyBackFirst (basePtrOfPage :: duplicateMap) (page + 1) n

/-- `mprot_roll_back`; only an identifier on the stack has a first backing page. -/
def rollBack (m : MprotSnapshotter α) (theID : ℕ) : Option (MprotSnapshotter α) := do
  let firstBackingPage ← m.snapShots[theID]?
  if m.snapShots.length = theID + 1 then
    -- the newest snapshot: its copies are kept and its pages stay writable
    m.copyBack firstBackingPage m.maxBackingPages
  else
    let m ← (m.mprotectRegions false).copyBackFirst [] firstBackingPage m.maxBackingPages
    let (_,m) ← takeSnapshot { m with
      snapShots := m.snapShots.take theID
      backing := m.backing.take firstBackingPage }
    some m

/-- Runs of writes, snapshots and roll backs, with the memory each snapshot on the stack was
taken of. -/
inductive Run (m₀ : MprotSnapshotter α) : MprotSnapshotter α → List (ℕ → α) → Prop
  | init : Run m₀ m₀ []
  | write {m m' : MprotSnapshotter α} {saved : List (ℕ → α)} (h : Run m₀ m saved) (p : ℕ) (v : α)
      (hstep : m.writePage p v = some m') : Run m₀ m' saved
  | takeSnapshot {m m' : MprotSnapshotter α} {saved : List (ℕ → α)} {id : ℕ} (h : Run m₀ m saved)
      (hstep : m.takeSnapshot = some (id,m')) : Run m₀ m' (saved ++ [m.memory])
  | rollBack {m m' : MprotSnapshotter α} {saved : List (ℕ → α)} (h : Run m₀ m saved) (theID : ℕ)
      (hstep : m.rollBack theID = some m') : Run m₀ m' (saved.take (theID + 1))

theorem mprotectRegions_eq (m : MprotSnapshotter α) (readOnly : Bool) :
    m.mprotectRegions readOnly = { m with readOnly := (m.mprotectRegions readOnly).readOnly } := by
  have hfold : ∀ (regions : List MemoryRegion) (m : MprotSnapshotter α),
      regions.foldl (·.mprotect readOnly ·) m =
        { m with readOnly := (regions.foldl (·.mprotect readOnly ·) m).readOnly } := by
    intro regions
    induction regions with
    | nil => exact fun _ => rfl
    | cons r regions ih => exact fun m => ih (m.mprotect readOnly r)
  exact hfold _ m

theorem mprotectRegions_readOnly (m : MprotSnapshotter α) (readOnly : Bool) (p : ℕ) :
    (m.InRegions p → (m.mprotectRegions readOnly).readOnly p = readOnly) ∧
    (¬ m.InRegions p → (m.mprotectRegions readOnly).readOnly p = m.readOnly p) := by
  have hfold : ∀ (regions : List MemoryRegion) (m : MprotSnapshotter α),
      (regions.foldl (·.mprotect readOnly ·) m).readOnly p =
        if ∃ r ∈ regions, r.Contains p then readOnly else m.readOnly p := by
    intro regions
    induction regions with
    | nil => simp
    | cons r regions ih =>
      intro m
      rw [List.foldl_cons,ih]
      by_cases hr : r.Contains p <;> simp [mprotect,hr]
  constructor
  · exact fun h => (hfold _ m).trans (if_pos h)
  · exact fun h => (hfold _ m).trans (if_neg h)

/-- A write to a page that is not protected just writes. -/
theorem writePage_of_writable {m : MprotSnapshotter α} {p : ℕ} (h : m.readOnly p = false) (v : α) :
    m.writePage p v = some { m with memory := Function.update m.memory p v } := by
  simp [writePage,h]

theorem copyBack_eq (m : MprotSnapshotter α) (page n : ℕ) (hn : m.backing.length ≤ page + n)
    (hwritable : ∀ x ∈ m.backing.drop page, m.readOnly x.1 = false) :
    m.copyBack page n = some { m with memory := replay (m.backing.drop page) m.memory } := by
  induction n generalizing m page with
  | zero =>
    rw [List.drop_eq_nil_of_le (by simpa using hn)]
    rfl
  | succ n ih =>
    rw [copyBack]
    split
    · rename_i hnone
      rw [List.drop_eq_nil_of_le (List.getElem?_eq_none_iff.mp hnone)]
      rfl
    · rename_i p v hsome
      obtain ⟨hlt,hget⟩ := List.getElem?_eq_some_iff.mp hsome
      rw [List.drop_eq_getElem_cons hlt,hget] at hwritable ⊢
      obtain ⟨hp,hrest⟩ := List.forall_mem_cons.mp hwritable
      rw [writePage_of_writable hp]
      exact ih { m with memory := Function.update m.memory p v } (page + 1)
        (by change m.backing.length ≤ _; omega) hrest

theorem copyBackFirst_eq (m : MprotSnapshotter α) (seen : List ℕ) (page n : ℕ)
    (hn : m.backing.length ≤ page + n) (hwritable : ∀ p, m.readOnly p = false) :
    m.copyBackFirst seen page n =
      some { m with memory := replayFirst seen (m.backing.drop page) m.memory } := by
  induction n generalizing m seen page with
  | zero =>
    rw [List.drop_eq_nil_of_le (by simpa using hn)]
    rfl
  | succ n ih =>
    rw [copyBackFirst]
    split
    · rename_i hnone
      rw [List.drop_eq_nil_of_le (List.getElem?_eq_none_iff.mp hnone)]
      rfl
    · rename_i p v hsome
      obtain ⟨hlt,hget⟩ := List.getElem?_eq_some_iff.mp hsome
      rw [List.drop_eq_getElem_cons hlt,hget,replayFirst]
      by_cases hp : p ∈ seen
      · rw [if_pos hp,if_pos hp,ih m seen _ (by omega) hwritable]
      · rw [if_neg hp,if_neg hp,writePage_of_writable (hwritable p)]
        exact ih { m with memory := Function.update m.memory p v } (p :: seen) (page + 1)
          (by change m.backing.length ≤ _; omega) hwritable

theorem takeSnapshot_eq (m : MprotSnapshotter α) :
    m.takeSnapshot = if m.snapShots.length = m.maxSnapShots then none else
      some (m.snapShots.length,{ m with
        readOnly := (m.mprotectRegions true).readOnly
        snapShots := m.snapShots ++ [m.backing.length] }) := by
  unfold takeSnapshot
  rw [mprotectRegions_eq]

theorem takeSnapshot_of_room {m : MprotSnapshotter α} (h : m.snapShots.length < m.maxSnapShots) :
    ∃ m', m.takeSnapshot = some (m.snapShots.length,m') ∧
      m'.snapShots = m.snapShots ++ [m.backing.length] ∧ m'.memory = m.memory :=
  ⟨_,(takeSnapshot_eq m).trans (if_neg (Nat.ne_of_lt h)),rfl,rfl⟩

/-- Undoing the writes since a snapshot gives the memory it was taken of. -/
structure Recorded (m : MprotSnapshotter α) (saved : List (ℕ → α)) : Prop where
  saved_length : saved.length = m.snapShots.length
  firsts : m.snapShots.Pairwise (· ≤ ·)
  first_le : ∀ f ∈ m.snapShots, f ≤ m.backing.length
  backing_le : m.backing.length ≤ m.maxBackingPages
  snapShots_le : m.snapShots.length ≤ m.maxSnapShots
  restores : ∀ (i f : ℕ) (mem : ℕ → α), m.snapShots[i]? = some f → saved[i]? = some mem →
    ∀ p, m.InRegions p → undone (m.backing.drop f) m.memory p = mem p
  inRegions : ∀ p, m.readOnly p = true → m.InRegions p

/-- Since the newest snapshot the pages saved are the ones that are writable, each saved once. -/
structure Inv (m : MprotSnapshotter α) (saved : List (ℕ → α)) : Prop extends Recorded m saved where
  fresh : m.snapShots = [] → ∀ p, m.readOnly p = false
  newest : ∀ f, m.snapShots.getLast? = some f → ((m.backing.drop f).map Prod.fst).Nodup ∧
    ∀ p, m.InRegions p → (m.readOnly p = false ↔ p ∈ (m.backing.drop f).map Prod.fst)

theorem Inv.init (memory : ℕ → α) (regions : List MemoryRegion) (maxBackingPages maxSnapShots : ℕ) :
    Inv (init memory regions maxBackingPages maxSnapShots) [] := by
  constructor
  · constructor <;> simp [MprotSnapshotter.init]
  · exact fun _ _ => rfl
  · intro f hf
    cases hf

/-- A snapshot of memory that agrees with `mem` on the regions. -/
theorem Recorded.takeSnapshot {m m' : MprotSnapshotter α} {saved : List (ℕ → α)} {id : ℕ}
    (h : Recorded m saved) {mem : ℕ → α} (hmem : ∀ p, m.InRegions p → m.memory p = mem p)
    (hstep : m.takeSnapshot = some (id,m')) : Inv m' (saved ++ [mem]) := by
  rw [takeSnapshot_eq] at hstep
  split at hstep
  · cases hstep
  · rename_i hmax
    cases hstep
    have hread := m.mprotectRegions_readOnly true
    have hle := h.snapShots_le
    refine ⟨⟨by simp [h.saved_length],?_,?_,h.backing_le,by simp; omega,?_,?_⟩,by simp,?_⟩
    · exact List.pairwise_append.mpr ⟨h.firsts,by simp,by simpa using h.first_le⟩
    · intro f hf
      rcases List.mem_append.mp hf with hf | hf
      · exact h.first_le f hf
      · exact Nat.le_of_eq (List.mem_singleton.mp hf)
    · intro i f mem' hf hmem' p hp
      rcases Nat.lt_or_ge i m.snapShots.length with hi | hi
      · rw [List.getElem?_append_left hi] at hf
        rw [List.getElem?_append_left (h.saved_length ▸ hi)] at hmem'
        exact h.restores i f mem' hf hmem' p hp
      · rw [List.getElem?_append_right hi] at hf
        rw [List.getElem?_append_right (h.saved_length ▸ hi),h.saved_length] at hmem'
        obtain ⟨hi,rfl⟩ : i - m.snapShots.length = 0 ∧ m.backing.length = f := by
          simpa [List.getElem?_singleton] using hf
        rw [hi] at hmem'
        cases hmem'
        rw [List.drop_length]
        exact hmem p hp
    · intro p hp
      by_contra hout
      exact hout (h.inRegions p (((hread p).2 hout).symm.trans hp))
    · intro f hf
      rw [List.getLast?_concat] at hf
      cases hf
      simp only [List.drop_length,List.map_nil,List.nodup_nil,List.not_mem_nil,iff_false,true_and]
      intro p hp
      simp [(hread p).1 hp]

theorem Recorded.first_le_first {m : MprotSnapshotter α} {saved : List (ℕ → α)}
    (h : Recorded m saved) {i j f g : ℕ} (hij : i < j) (hf : m.snapShots[i]? = some f)
    (hg : m.snapShots[j]? = some g) : f ≤ g := by
  obtain ⟨hi,rfl⟩ := List.getElem?_eq_some_iff.mp hf
  obtain ⟨hj,rfl⟩ := List.getElem?_eq_some_iff.mp hg
  exact List.pairwise_iff_getElem.mp h.firsts i j hi hj hij

theorem Recorded.first_le_last {m : MprotSnapshotter α} {saved : List (ℕ → α)}
    (h : Recorded m saved) {i f g : ℕ} (hf : m.snapShots[i]? = some f)
    (hg : m.snapShots.getLast? = some g) : f ≤ g := by
  rw [List.getLast?_eq_getElem?] at hg
  rcases Nat.lt_or_ge i (m.snapShots.length - 1) with hlt | hge
  · exact h.first_le_first hlt hf hg
  · obtain ⟨hi,rfl⟩ := List.getElem?_eq_some_iff.mp hf
    obtain ⟨hj,rfl⟩ := List.getElem?_eq_some_iff.mp hg
    exact Nat.le_of_eq (by congr 1; omega)

theorem drop_eq_append_drop {β : Type} (l : List β) {f g : ℕ} (h : f ≤ g) :
    l.drop f = (l.drop f).take (g - f) ++ l.drop g := by
  conv_lhs => rw [← List.take_append_drop (g - f) (l.drop f)]
  rw [List.drop_drop,Nat.add_sub_cancel' h]

theorem Inv.write_writable {m : MprotSnapshotter α} {saved : List (ℕ → α)} (h : Inv m saved) {p : ℕ}
    (hp : m.readOnly p = false) (v : α) :
    Inv { m with memory := Function.update m.memory p v } saved := by
  refine ⟨{ h.toRecorded with restores := ?_ },h.fresh,h.newest⟩
  intro i f mem hf hmem q hq
  have hq' := h.restores i f mem hf hmem q hq
  by_cases hqp : q = p
  · -- the page was saved at its first write after the newest snapshot
    subst hqp
    obtain ⟨g,hg⟩ : ∃ g, m.snapShots.getLast? = some g := by
      have hne : m.snapShots ≠ [] := List.ne_nil_of_mem (List.mem_of_getElem? hf)
      exact ⟨_,List.getLast?_eq_some_getLast hne⟩
    have hkey := ((h.newest g hg).2 q hq).mp hp
    have hmem : q ∈ (m.backing.drop f).map Prod.fst := by
      rw [drop_eq_append_drop m.backing (h.first_le_last hf hg),List.map_append]
      exact List.mem_append_right _ hkey
    exact (undone_of_mem hmem _ _).trans hq'
  · exact (undone_update_of_ne hqp _ _ _).trans hq'

theorem Inv.write_protected {m : MprotSnapshotter α} {saved : List (ℕ → α)} (h : Inv m saved)
    {p : ℕ}
    (hp : m.readOnly p = true) (hroom : m.backing.length ≠ m.maxBackingPages) (v : α) :
    Inv { m with
      backing := m.backing ++ [(p,m.memory p)]
      readOnly := Function.update m.readOnly p false
      memory := Function.update m.memory p v } saved := by
  have hback := h.backing_le
  have hdrop : ∀ f ∈ m.snapShots,
      (m.backing ++ [(p,m.memory p)]).drop f = m.backing.drop f ++ [(p,m.memory p)] :=
    fun f hf => List.drop_append_of_le_length (h.first_le f hf)
  have hregion := h.inRegions p hp
  refine ⟨⟨h.saved_length,h.firsts,?_,by simp; omega,h.snapShots_le,?_,?_⟩,?_,?_⟩
  · intro f hf
    have := h.first_le f hf
    simp only [List.length_append,List.length_singleton]
    omega
  · intro i f mem hf hmem q hq
    simp only [hdrop f (List.mem_of_getElem? hf)]
    rw [undone_append,undone_save]
    exact h.restores i f mem hf hmem q hq
  · intro q hq
    by_cases hqp : q = p
    · exact hqp ▸ hregion
    · simp only [Function.update_of_ne hqp] at hq
      exact h.inRegions q hq
  · intro hnil
    rw [h.fresh hnil p] at hp
    cases hp
  · intro f hf
    obtain ⟨hnodup,hwritable⟩ := h.newest f hf
    have hfresh : p ∉ (m.backing.drop f).map Prod.fst := fun hmem => by
      rw [(hwritable p hregion).mpr hmem] at hp
      cases hp
    simp only [hdrop f (List.mem_of_getLast? hf),List.map_append,List.map_cons,List.map_nil]
    refine ⟨List.nodup_append.mpr ⟨hnodup,by simp,?_⟩,fun q hq => ?_⟩
    · intro a ha b hb
      rw [List.mem_singleton.mp hb]
      exact fun hab => hfresh (hab ▸ ha)
    · by_cases hqp : q = p
      · simp [hqp]
      · simp only [Function.update_of_ne hqp,List.mem_append,List.mem_singleton,hqp,or_false]
        exact hwritable q hq

theorem Inv.writePage {m m' : MprotSnapshotter α} {saved : List (ℕ → α)} (h : Inv m saved) {p : ℕ}
    {v : α} (hstep : m.writePage p v = some m') : Inv m' saved := by
  unfold MprotSnapshotter.writePage at hstep
  obtain ⟨m₁,hfault,rfl⟩ := Option.map_eq_some_iff.mp hstep
  split at hfault
  · rename_i hp
    unfold handlePf at hfault
    split at hfault
    · cases hfault
    · rename_i hroom
      cases hfault
      exact h.write_protected hp hroom v
  · rename_i hp
    cases hfault
    exact h.write_writable (by simpa using hp) v

/-- The fast path writes back the copies since the newest snapshot. -/
theorem Inv.rollBack_newest {m : MprotSnapshotter α} {saved : List (ℕ → α)} (h : Inv m saved)
    {theID f : ℕ} (hf : m.snapShots[theID]? = some f) (hnew : m.snapShots.length = theID + 1) :
    ∃ m', m.rollBack theID = some m' ∧ Inv m' saved ∧ m'.snapShots = m.snapShots ∧
      m'.memory = undone (m.backing.drop f) m.memory := by
  have hlast : m.snapShots.getLast? = some f := by
    rw [List.getLast?_eq_getElem?,hnew]
    exact hf
  obtain ⟨hnodup,hwritable⟩ := h.newest f hlast
  have hcopies : ∀ x ∈ m.backing.drop f, m.readOnly x.1 = false := fun x hx => by
    by_contra hro
    have hro : m.readOnly x.1 = true := by simpa using hro
    have hmem := List.mem_map_of_mem (f := Prod.fst) hx
    rw [(hwritable x.1 (h.inRegions x.1 hro)).mpr hmem] at hro
    cases hro
  have hback := h.backing_le
  have hcopy := m.copyBack_eq f m.maxBackingPages (by omega) hcopies
  rw [replay_eq_undone hnodup] at hcopy
  refine ⟨{ m with memory := undone (m.backing.drop f) m.memory },?_,?_,rfl,rfl⟩
  · rw [rollBack,hf,Option.bind_eq_bind,Option.bind_some,if_pos hnew,hcopy]
  · refine ⟨{ h.toRecorded with restores := ?_ },h.fresh,h.newest⟩
    intro i g mem hg hmem p hp
    simp only
    rw [drop_eq_append_drop m.backing (h.first_le_last hg hlast),undone_append,undone_idem,
      ← undone_append,← drop_eq_append_drop m.backing (h.first_le_last hg hlast)]
    exact h.restores i g mem hg hmem p hp

/-- Undoing the writes since a snapshot leaves what the older ones need. -/
theorem Recorded.truncate {m : MprotSnapshotter α} {saved : List (ℕ → α)} (h : Recorded m saved)
    {theID f : ℕ} (hf : m.snapShots[theID]? = some f) {readOnly : ℕ → Bool}
    (hwritable : ∀ p, readOnly p = false) :
    Recorded { m with
      readOnly := readOnly
      memory := undone (m.backing.drop f) m.memory
      snapShots := m.snapShots.take theID
      backing := m.backing.take f } (saved.take theID) := by
  have hfle := h.first_le f (List.mem_of_getElem? hf)
  have hback := h.backing_le
  have hsnap := h.snapShots_le
  have holder : ∀ i g : ℕ, (m.snapShots.take theID)[i]? = some g →
      i < theID ∧ m.snapShots[i]? = some g := fun i g hg => by
    obtain ⟨hi,hg'⟩ := List.getElem?_eq_some_iff.mp hg
    have hlt : i < theID := by simp at hi; omega
    exact ⟨hlt,by rwa [List.getElem?_take_of_lt hlt] at hg⟩
  refine ⟨by simp [h.saved_length],?_,?_,by simp; omega,by simp; omega,?_,?_⟩
  · exact h.firsts.sublist (List.take_sublist _ _)
  · intro g hg
    obtain ⟨i,hi,hget⟩ := List.mem_iff_getElem.mp hg
    obtain ⟨hlt,hg'⟩ := holder i g (List.getElem?_eq_some_iff.mpr ⟨hi,hget⟩)
    have := h.first_le_first hlt hg' hf
    simp only [List.length_take]
    omega
  · intro i g mem hg hmem p hp
    obtain ⟨hlt,hg'⟩ := holder i g hg
    rw [List.getElem?_take_of_lt hlt] at hmem
    have hgf := h.first_le_first hlt hg' hf
    simp only [List.drop_take]
    rw [← undone_append,← drop_eq_append_drop m.backing hgf]
    exact h.restores i g mem hg' hmem p hp
  · exact fun p hp => absurd ((hwritable p).symm.trans hp) Bool.false_ne_true

/-- The general path forgets the later snapshots and takes this one again. -/
theorem Inv.rollBack_older {m : MprotSnapshotter α} {saved : List (ℕ → α)} (h : Inv m saved)
    {theID f : ℕ} (hf : m.snapShots[theID]? = some f) (hold : m.snapShots.length ≠ theID + 1) :
    ∃ m', m.rollBack theID = some m' ∧ Inv m' (saved.take (theID + 1)) ∧
      m'.snapShots = m.snapShots.take theID ++ [f] ∧
      m'.memory = undone (m.backing.drop f) m.memory := by
  have hread := m.mprotectRegions_readOnly false
  have hwritable : ∀ p, (m.mprotectRegions false).readOnly p = false := fun p => by
    by_cases hp : m.InRegions p
    · exact (hread p).1 hp
    · rw [(hread p).2 hp]
      by_contra hro
      exact hp (h.inRegions p (by simpa using hro))
  obtain ⟨hlt,hget⟩ := List.getElem?_eq_some_iff.mp hf
  have hfle := h.first_le f (List.mem_of_getElem? hf)
  have hback := h.backing_le
  have hsnap := h.snapShots_le
  have hcopy := copyBackFirst_eq (m.mprotectRegions false) [] f m.maxBackingPages
    (by rw [mprotectRegions_eq]; simp only; omega) hwritable
  have hrec := h.toRecorded.truncate hf hwritable
  rw [replayFirst_nil,mprotectRegions_eq] at hcopy
  obtain ⟨mem,hmem⟩ : ∃ mem, saved[theID]? = some mem :=
    ⟨_,List.getElem?_eq_getElem (h.saved_length ▸ hlt)⟩
  have hagree := h.restores theID f mem hf hmem
  obtain ⟨m',htake,hsnapShots,hmemory⟩ := takeSnapshot_of_room (m := { m with
      readOnly := (m.mprotectRegions false).readOnly
      memory := undone (m.backing.drop f) m.memory
      snapShots := m.snapShots.take theID
      backing := m.backing.take f }) (by simp; omega)
  have hinv := hrec.takeSnapshot hagree htake
  refine ⟨m',?_,?_,?_,hmemory⟩
  · rw [rollBack,hf,Option.bind_eq_bind,Option.bind_some,if_neg hold,mprotectRegions_eq,hcopy]
    simp only [Option.bind_eq_bind,Option.bind_some]
    rw [htake]
    rfl
  · rw [List.take_add_one,hmem]
    exact hinv
  · rw [hsnapShots]
    simp [hfle]

theorem Inv.rollBack {m : MprotSnapshotter α} {saved : List (ℕ → α)} (h : Inv m saved)
    {theID : ℕ} (hlt : theID < m.snapShots.length) :
    ∃ m' mem, m.rollBack theID = some m' ∧ Inv m' (saved.take (theID + 1)) ∧
      m'.snapShots.length = theID + 1 ∧ saved[theID]? = some mem ∧
      ∀ p, m.InRegions p → m'.memory p = mem p := by
  have hf : m.snapShots[theID]? = some m.snapShots[theID] := List.getElem?_eq_getElem hlt
  obtain ⟨mem,hmem⟩ : ∃ mem, saved[theID]? = some mem :=
    ⟨_,List.getElem?_eq_getElem (h.saved_length ▸ hlt)⟩
  have hagree := h.restores theID _ mem hf hmem
  by_cases hnew : m.snapShots.length = theID + 1
  · obtain ⟨m',hroll,hinv,hsnapShots,hmemory⟩ := h.rollBack_newest hf hnew
    refine ⟨m',mem,hroll,?_,hsnapShots ▸ hnew,hmem,fun p hp => hmemory ▸ hagree p hp⟩
    rwa [List.take_of_length_le (Nat.le_of_eq (h.saved_length.trans hnew))]
  · obtain ⟨m',hroll,hinv,hsnapShots,hmemory⟩ := h.rollBack_older hf hnew
    refine ⟨m',mem,hroll,hinv,?_,hmem,fun p hp => hmemory ▸ hagree p hp⟩
    simp only [hsnapShots,List.length_append,List.length_take,List.length_singleton]
    omega

theorem rollBack_snapShots {m m' : MprotSnapshotter α} {theID : ℕ}
    (h : m.rollBack theID = some m') :
    theID < m.snapShots.length := by
  obtain ⟨f,hf,-⟩ := Option.bind_eq_some_iff.mp h
  exact (List.getElem?_eq_some_iff.mp hf).1

theorem Run.inv {memory : ℕ → α} {regions : List MemoryRegion} {maxBackingPages maxSnapShots : ℕ}
    {m : MprotSnapshotter α} {saved : List (ℕ → α)}
    (h : Run (MprotSnapshotter.init memory regions maxBackingPages maxSnapShots) m saved) :
    Inv m saved := by
  induction h with
  | init => exact Inv.init _ _ _ _
  | write _ p v hstep ih => exact ih.writePage hstep
  | takeSnapshot _ hstep ih => exact ih.toRecorded.takeSnapshot (fun _ _ => rfl) hstep
  | rollBack _ theID hstep ih =>
    obtain ⟨m',_,hroll,hinv,-⟩ := ih.rollBack (rollBack_snapShots hstep)
    cases hroll.symm.trans hstep
    exact hinv

end MprotSnapshotter
end CdsChecker
