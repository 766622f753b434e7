import CdsChecker.Library.LinkWalk
import Mathlib.Tactic

/-! The doubly linked list for sequential specifications, `spec_list`. -/
namespace CdsChecker

variable {α : Type}

/-- Pointers to `list_node` objects. -/
abbrev ListNodeId := ℕ

structure ListNode (α : Type) where
  prev : Option ListNodeId
  next : Option ListNodeId
  data : α

/-- The node from the other end of its list. -/
def ListNode.mirror (n : ListNode α) : ListNode α := ⟨n.next,n.prev,n.data⟩

/-- The heap holds the nodes that are allocated and not freed. -/
structure SpecList (α : Type) where
  heap : ListNodeId → Option (ListNode α) := fun _ => none
  head : Option ListNodeId := none
  tail : Option ListNodeId := none
  size : ℕ := 0

namespace SpecList

/-- `free`; none where the node is freed already. -/
def freeNode (heap : ListNodeId → Option (ListNode α)) :
    Option ListNodeId → Option (ListNodeId → Option (ListNode α))
  | none => some heap
  | some a => (heap a).map fun _ => Function.update heap a none

/-- The functions are none where they access a node that is not there. -/
def front (s : SpecList α) : Option (Option α) :=
  match s.head with
  | none => some none
  | some a => (s.heap a).map fun n => some n.data

def back (s : SpecList α) : Option (Option α) :=
  match s.tail with
  | none => some none
  | some a => (s.heap a).map fun n => some n.data

/-- `malloc` returns `node`. -/
def pushBack (s : SpecList α) (node : ListNodeId) (elem : α) : Option (SpecList α) :=
  let heap := Function.update s.heap node (some ⟨s.tail,none,elem⟩)
  match s.tail with
  | some a => do
    let n ← heap a
    some {
      heap := Function.update heap a (some { n with next := some node })
      head := s.head
      tail := some node
      size := s.size + 1 }
  | none => some { heap := heap,head := some node,tail := some node,size := s.size + 1 }

def pushFront (s : SpecList α) (node : ListNodeId) (elem : α) : Option (SpecList α) :=
  let heap := Function.update s.heap node (some ⟨none,s.head,elem⟩)
  match s.head with
  | some a => do
    let n ← heap a
    some {
      heap := Function.update heap a (some { n with prev := some node })
      head := some node
      tail := s.tail
      size := s.size + 1 }
  | none => some { heap := heap,head := some node,tail := some node,size := s.size + 1 }

/-- Only one element, or more. -/
def popBack (s : SpecList α) : Option (SpecList α × Bool) :=
  if s.size = 0 then some (s,false)
  else if s.head = s.tail then do
    let heap ← freeNode s.heap s.head
    some ({ heap := heap,head := none,tail := none,size := s.size - 1 },true)
  else do
    let a ← s.tail
    let n ← s.heap a
    let heap ← freeNode s.heap (some a)
    some ({ s with heap := heap,tail := n.prev,size := s.size - 1 },true)

def popFront (s : SpecList α) : Option (SpecList α × Bool) :=
  if s.size = 0 then some (s,false)
  else if s.head = s.tail then do
    let heap ← freeNode s.heap s.head
    some ({ heap := heap,head := none,tail := none,size := s.size - 1 },true)
  else do
    let a ← s.head
    let n ← s.heap a
    let heap ← freeNode s.heap (some a)
    some ({ s with heap := heap,head := n.next,size := s.size - 1 },true)

/-- The loop of `free_spec_list`, with the nodes that it frees. -/
def freeNodes : ℕ → Option ListNodeId → (ListNodeId → Option (ListNode α)) →
    Option (List ListNodeId × (ListNodeId → Option (ListNode α)))
  | 0,_,_ => none
  | _ + 1,none,heap => some ([],heap)
  | n + 1,some cur,heap => do
    let node ← heap cur
    let heap ← freeNode heap (some cur)
    let (nodes,heap) ← freeNodes n node.next heap
    some (cur :: nodes,heap)

def freeSpecList (n : ℕ) (s : SpecList α) :
    Option (List ListNodeId × (ListNodeId → Option (ListNode α))) :=
  freeNodes n s.head s.heap

/-! ### Runs -/

/-- An operation, with what `malloc` returns in it. -/
inductive Op (α : Type)
  | pushBack (node : ListNodeId) (elem : α)
  | pushFront (node : ListNodeId) (elem : α)
  | popBack
  | popFront

def Op.isPop : Op α → Bool
  | .popBack | .popFront => true
  | _ => false

def step (s : SpecList α) : Op α → Option (SpecList α)
  | .pushBack node elem => s.pushBack node elem
  | .pushFront node elem => s.pushFront node elem
  | .popBack => s.popBack.map Prod.fst
  | .popFront => s.popFront.map Prod.fst

/-- From `init_spec_list` on. -/
def run (ops : List (Op α)) : Option (SpecList α) := ops.foldlM step {}

/-- The operation on a list. -/
def apply (xs : List α) : Op α → List α
  | .pushBack _ elem => xs ++ [elem]
  | .pushFront _ elem => elem :: xs
  | .popBack => xs.dropLast
  | .popFront => xs.tail

def listOf (ops : List (Op α)) : List α := ops.foldl apply []

/-- `malloc` returns a node that is not in use. -/
def Mallocs (ops : List (Op α)) : Prop :=
  ∀ pre op post s, ops = pre ++ op :: post → run pre = some s → ∀ node,
    (∃ elem, op = .pushBack node elem ∨ op = .pushFront node elem) → s.heap node = none

def nextOf (s : SpecList α) (a : ListNodeId) : Option (Option ListNodeId) :=
    (s.heap a).map ListNode.next
def prevOf (s : SpecList α) (a : ListNodeId) : Option (Option ListNodeId) :=
    (s.heap a).map ListNode.prev

/-- The nodes of the list from both ends, and no others. -/
structure Shaped (s : SpecList α) (xs : List α) (nodes : List ListNodeId) : Prop where
  forward : LinkWalk s.nextOf s.head nodes
  atTail : nodes.getLast? = s.tail
  backward : LinkWalk s.prevOf s.tail nodes.reverse
  atHead : nodes.reverse.getLast? = s.head
  size : nodes.length = s.size
  live : ∀ a, (s.heap a).isSome ↔ a ∈ nodes
  data : nodes.map (fun a => (s.heap a).map ListNode.data) = xs.map some

structure WellFormed (s : SpecList α) (xs : List α) : Prop where
  shaped : ∃ nodes, Shaped s xs nodes
  front : s.front = some xs.head?
  back : s.back = some xs.getLast?
  freed : ∃ n nodes, freeSpecList n s = some (nodes,fun _ => none) ∧ nodes.Nodup ∧
    ∀ a, a ∈ nodes ↔ (s.heap a).isSome

def KeepsShape (ops : List (Op α)) : Prop :=
  ∀ pre post, ops = pre ++ post → ∃ s, run pre = some s ∧ WellFormed s (listOf pre)

/-- Elements are popped from lists of one element, or of none. -/
def PopsLast (ops : List (Op α)) : Prop :=
  ∀ pre op post, ops = pre ++ op :: post → op.isPop = true → (listOf pre).length ≤ 1

/-! ### Both ends -/

variable {s s' : SpecList α} {xs : List α} {nodes : List ListNodeId}

/-- The list from its other end. -/
def mirror (s : SpecList α) : SpecList α :=
  { heap := fun a => (s.heap a).map ListNode.mirror
    head := s.tail
    tail := s.head
    size := s.size }

theorem mirror_mirror (s : SpecList α) : s.mirror.mirror = s := by
  have hheap : s.mirror.mirror.heap = s.heap := by
    funext a
    simp only [mirror]
    cases s.heap a <;> rfl
  cases s
  simp only [mirror] at hheap ⊢
  rw [hheap]

theorem mirror_nextOf (s : SpecList α) : s.mirror.nextOf = s.prevOf := by
  funext a
  simp only [nextOf,prevOf,mirror]
  cases s.heap a <;> rfl

theorem mirror_prevOf (s : SpecList α) : s.mirror.prevOf = s.nextOf := by
  rw [← mirror_nextOf,mirror_mirror]

theorem Shaped.mirror (h : Shaped s xs nodes) : Shaped s.mirror xs.reverse nodes.reverse where
  forward := by
    rw [mirror_nextOf]
    exact h.backward
  atTail := h.atHead
  backward := by
    rw [mirror_prevOf,List.reverse_reverse]
    exact h.forward
  atHead := by
    rw [List.reverse_reverse]
    exact h.atTail
  size := by
    rw [List.length_reverse]
    exact h.size
  live a := by
    rw [List.mem_reverse,← h.live a]
    simp [SpecList.mirror]
  data := by
    have hdata := congrArg List.reverse h.data
    rw [← List.map_reverse,← List.map_reverse] at hdata
    rw [← hdata]
    apply List.map_congr_left
    intro a _
    simp only [SpecList.mirror]
    cases s.heap a <;> rfl

theorem mirror_update (heap : ListNodeId → Option (ListNode α)) (a : ListNodeId)
    (n : Option (ListNode α)) :
    (fun b => (Function.update heap a n b).map ListNode.mirror) =
      Function.update (fun b => (heap b).map ListNode.mirror) a (n.map ListNode.mirror) := by
  funext b
  by_cases hb : b = a
  · simp [hb]
  · simp [hb]

theorem pushFront_mirror (s : SpecList α) (node : ListNodeId) (elem : α) :
    s.pushFront node elem = (s.mirror.pushBack node elem).map mirror := by
  rw [← mirror_mirror s]
  generalize s.mirror = t
  rw [mirror_mirror]
  unfold pushFront pushBack
  have hnew := mirror_update t.heap node (some ⟨t.tail,none,elem⟩)
  cases htail : t.tail with
  | none =>
    rw [htail] at hnew
    simp only [mirror,htail,Option.map_some,Option.some.injEq,SpecList.mk.injEq,and_self,and_true]
    exact hnew.symm
  | some a =>
    rw [htail] at hnew
    have hnew' : Function.update t.mirror.heap node (some ⟨none,some a,elem⟩) =
        fun b => (Function.update t.heap node (some ⟨some a,none,elem⟩) b).map ListNode.mirror :=
      hnew.symm
    have hhead : t.mirror.head = some a := htail
    simp only [hhead,hnew']
    cases ha : Function.update t.heap node (some ⟨some a,none,elem⟩) a with
    | none => rfl
    | some n =>
      have hset := mirror_update (Function.update t.heap node (some ⟨some a,none,elem⟩)) a
        (some { n with next := some node })
      simp only [Option.map_some,Option.bind_eq_bind,Option.bind_some]
      simp only [mirror,ListNode.mirror] at hset ⊢
      rw [hset]
      rfl

theorem freeNode_mirror (heap : ListNodeId → Option (ListNode α)) (p : Option ListNodeId) :
    freeNode (fun b => (heap b).map ListNode.mirror) p =
      (freeNode heap p).map fun heap => fun b => (heap b).map ListNode.mirror := by
  cases p with
  | none => rfl
  | some a =>
    have hset := mirror_update heap a none
    simp only [freeNode]
    cases heap a with
    | none => rfl
    | some n => exact congrArg some hset.symm

theorem popFront_mirror (s : SpecList α) :
    s.popFront = s.mirror.popBack.map fun r => (r.1.mirror,r.2) := by
  rw [← mirror_mirror s]
  generalize s.mirror = t
  rw [mirror_mirror,popFront,popBack]
  have hsize : t.mirror.size = t.size := rfl
  have hhead : t.mirror.head = t.tail := rfl
  have htail : t.mirror.tail = t.head := rfl
  have hheap : t.mirror.heap = fun b => (t.heap b).map ListNode.mirror := rfl
  rw [hsize,hhead,htail,hheap]
  by_cases hempty : t.size = 0
  · rw [if_pos hempty,if_pos hempty]
    rfl
  rw [if_neg hempty,if_neg hempty]
  by_cases hone : t.head = t.tail
  · rw [if_pos hone.symm,if_pos hone,freeNode_mirror,hone]
    cases freeNode t.heap t.tail <;> rfl
  · rw [if_neg (Ne.symm hone),if_neg hone]
    cases htail : t.tail with
    | none => rfl
    | some a =>
      simp only [Option.bind_eq_bind,Option.bind_some]
      rw [freeNode_mirror]
      cases t.heap a with
      | none => rfl
      | some n => cases freeNode t.heap (some a) <;> rfl

/-! ### Pushing -/

theorem Shaped.node_data (h : Shaped s xs nodes) {a : ListNodeId} (ha : a ∈ nodes) :
    ∃ n, s.heap a = some n :=
  Option.isSome_iff_exists.mp ((h.live a).mpr ha)

theorem Shaped.length (h : Shaped s xs nodes) : xs.length = nodes.length := by
  simpa using (congrArg List.length h.data).symm

/-- The new node is the last one. -/
theorem Shaped.pushBack (h : Shaped s xs nodes) {node : ListNodeId} (hfree : s.heap node = none)
    (elem : α) : ∃ s', s.pushBack node elem = some s' ∧
      Shaped s' (xs ++ [elem]) (nodes ++ [node]) := by
  have hnew : node ∉ nodes := by
    intro hmem
    have hlive := (h.live node).mpr hmem
    rw [hfree] at hlive
    cases hlive
  have hsize : (nodes ++ [node]).length = s.size + 1 := by
    rw [List.length_append,h.size]
    rfl
  unfold SpecList.pushBack
  cases htail : s.tail with
  | none =>
    have hnil : nodes = [] := List.getLast?_eq_none_iff.mp (h.atTail.trans htail)
    subst hnil
    refine ⟨_,rfl,?_,rfl,?_,rfl,hsize,?_,?_⟩
    · exact .cons (by simp [nextOf]) .nil
    · exact .cons (by simp [prevOf]) .nil
    · intro a
      by_cases ha : a = node
      · simp [ha]
      · have hlive := h.live a
        simpa [ha] using hlive
    · have hxs : xs = [] := List.length_eq_zero_iff.mp h.length
      simp [hxs]
  | some last =>
    have hmem := List.mem_of_getLast? (h.atTail.trans htail)
    obtain ⟨n,hn⟩ := h.node_data hmem
    have hne : last ≠ node := fun heq => hnew (heq ▸ hmem)
    have hlast : Function.update s.heap node (some ⟨some last,none,elem⟩) last = some n := by
      rw [Function.update_of_ne hne,hn]
    simp only [hlast,Option.bind_eq_bind,Option.bind_some]
    set heap := Function.update (Function.update s.heap node (some ⟨some last,none,elem⟩)) last
      (some { n with next := some node }) with hheap
    have hold : ∀ a, a ≠ node → a ≠ last → heap a = s.heap a := fun a ha ha' => by
      rw [hheap,Function.update_of_ne ha',Function.update_of_ne ha]
    have hatLast : heap last = some { n with next := some node } := Function.update_self ..
    have hatNew : heap node = some ⟨some last,none,elem⟩ := by
      rw [hheap,Function.update_of_ne (Ne.symm hne),Function.update_self]
    have hhead : (nodes ++ [node]).head? = s.head := by
      rw [List.head?_append,h.forward.head,← h.forward.head]
      cases nodes with
      | nil => cases hmem
      | cons first rest => rfl
    have hprev : ∀ a ∈ nodes, (heap a).map ListNode.prev = s.prevOf a := fun a ha => by
      by_cases hal : a = last
      · rw [hal,hatLast,prevOf,hn]
        rfl
      · rw [hold a (fun heq => hnew (heq ▸ ha)) hal]
        rfl
    have hdata : ∀ a ∈ nodes, (heap a).map ListNode.data = (s.heap a).map ListNode.data :=
      fun a ha => by
        by_cases hal : a = last
        · rw [hal,hatLast,hn]
          rfl
        · rw [hold a (fun heq => hnew (heq ▸ ha)) hal]
    refine ⟨_,rfl,?_,?_,?_,?_,hsize,?_,?_⟩
    · rw [← hhead]
      refine h.forward.snoc (fun a ha => ?_) ?_ fun a ha hne' => ?_
      · cases (h.atTail.trans htail).symm.trans ha
        simp [nextOf,hatLast]
      · simp [nextOf,hatNew]
      · have hal : a ≠ last := fun heq => hne' (heq ▸ h.atTail.trans htail)
        dsimp only [nextOf]
        rw [hold a (fun heq => hnew (heq ▸ ha)) hal]
    · rw [List.getLast?_append]
      rfl
    · rw [List.reverse_append]
      have hback := h.backward
      rw [htail] at hback
      have hlink : (heap node).map ListNode.prev = some (some last) := by rw [hatNew]; rfl
      refine .cons hlink ?_
      exact hback.congr fun a ha => hprev a (List.mem_reverse.mp ha)
    · rw [List.getLast?_reverse]
      exact hhead
    · intro a
      rw [List.mem_append,List.mem_singleton]
      by_cases hal : a = last
      · simp [hal,hatLast,hmem]
      · by_cases han : a = node
        · simp [han,hatNew]
        · dsimp only
          rw [hold a han hal]
          simp [h.live a,han]
    · rw [List.map_append,List.map_append,← h.data,List.map_congr_left hdata]
      simp [hatNew]

theorem Shaped.pushFront (h : Shaped s xs nodes) {node : ListNodeId} (hfree : s.heap node = none)
    (elem : α) : ∃ s' nodes', s.pushFront node elem = some s' ∧ Shaped s' (elem :: xs) nodes' := by
  have hfree' : s.mirror.heap node = none := by simp [SpecList.mirror,hfree]
  obtain ⟨t,ht,hshaped⟩ := h.mirror.pushBack hfree' elem
  refine ⟨t.mirror,(nodes.reverse ++ [node]).reverse,?_,?_⟩
  · rw [pushFront_mirror,ht]
    rfl
  · have hmirror := hshaped.mirror
    rwa [List.reverse_append,List.reverse_reverse] at hmirror

/-! ### Popping -/

theorem shaped_init : Shaped ({} : SpecList α) [] [] :=
  ⟨.nil,rfl,.nil,rfl,rfl,by simp,rfl⟩

theorem Shaped.popBack_nil (h : Shaped s [] nodes) : s.popBack = some (s,false) := by
  have hlen := h.length
  rw [SpecList.popBack,if_pos]
  rw [← h.size,← hlen]
  rfl

/-- The only element. -/
theorem Shaped.popBack_single {x : α} (h : Shaped s [x] nodes) :
    s.popBack = some ({},true) := by
  obtain ⟨a,rfl⟩ : ∃ a, nodes = [a] := List.length_eq_one_iff.mp h.length.symm
  obtain ⟨n,hn⟩ := h.node_data (List.mem_singleton_self a)
  have hsize : s.size = 1 := h.size.symm
  have hhead : s.head = some a := h.forward.head.symm
  have htail : s.tail = some a := h.atTail.symm
  have hempty : Function.update s.heap a none = fun _ => none := by
    funext b
    by_cases hb : b = a
    · simp [hb]
    · have hlive := h.live b
      rw [Function.update_of_ne hb]
      simpa [hb] using hlive
  rw [SpecList.popBack,hsize,hhead,htail,if_neg one_ne_zero,if_pos rfl]
  simp [freeNode,hn,hempty]

/-- The last one of several elements: the one before it still links to it. -/
theorem Shaped.popBack_dangles (h : Shaped s xs nodes) (hlen : 1 < xs.length) :
    ∃ s' b, s.popBack = some (s',true) ∧ s'.tail = some b ∧ s'.nextOf b ≠ some none := by
  obtain ⟨pre,c,rfl⟩ : ∃ pre c, nodes = pre ++ [c] := by
    rcases List.eq_nil_or_concat nodes with rfl | ⟨pre,c,rfl⟩
    · rw [h.length] at hlen
      exact absurd hlen (by simp)
    · exact ⟨pre,c,List.concat_eq_append⟩
  obtain ⟨pre,b,rfl⟩ : ∃ pre' b, pre = pre' ++ [b] := by
    rcases List.eq_nil_or_concat pre with rfl | ⟨pre,b,rfl⟩
    · rw [h.length] at hlen
      exact absurd hlen (by simp)
    · exact ⟨pre,b,List.concat_eq_append⟩
  have hnotMem : c ∉ pre ++ [b] := by
    have hnodup := h.forward.nodup
    rw [List.nodup_append] at hnodup
    exact fun hc => hnodup.2.2 c hc c (List.mem_singleton_self c) rfl
  have htail : s.tail = some c := by
    rw [← h.atTail,List.getLast?_append]
    rfl
  have hhead : s.head ≠ some c := by
    rw [← h.forward.head,List.head?_append]
    intro heq
    cases hfirst : (pre ++ [b]).head? with
    | none => simp at hfirst
    | some a =>
      rw [hfirst] at heq
      cases heq
      exact hnotMem (List.mem_of_head? hfirst)
  have hsize : s.size ≠ 0 := by
    rw [← h.size]
    simp
  have hnext : s.nextOf b = some (some c) :=
    h.forward.links (show pre ++ [b] ++ [c] = pre ++ b :: [c] by simp)
  have hprev : s.prevOf c = some (some b) := by
    have hback := h.backward
    rw [List.reverse_append,List.reverse_append] at hback
    exact hback.links (show [c] ++ ([b] ++ pre.reverse) = [] ++ c :: b :: pre.reverse from rfl)
  obtain ⟨n,hn,hnprev⟩ := Option.map_eq_some_iff.mp hprev
  have hbc : b ≠ c := fun heq => hnotMem (by simp [heq])
  refine ⟨{ s with heap := Function.update s.heap c none,tail := some b,size := s.size - 1 },b,?_,
    rfl,?_⟩
  · rw [SpecList.popBack,if_neg hsize,htail,if_neg hhead]
    simp [freeNode,hn,hnprev]
  · have hsame : Function.update s.heap c none b = s.heap b := Function.update_of_ne hbc ..
    dsimp only [nextOf] at hnext ⊢
    rw [hsame,hnext]
    simp

/-! ### Freeing -/

theorem freeNodes_walk {heap : ListNodeId → Option (ListNode α)} {start : Option ListNodeId}
    (h : LinkWalk (fun a => (heap a).map ListNode.next) start nodes) :
    freeNodes (nodes.length + 1) start heap =
      some (nodes,fun a => if a ∈ nodes then none else heap a) := by
  have hnodup := h.nodup
  induction nodes generalizing start heap with
  | nil =>
    cases h
    simp [freeNodes]
  | cons cur nodes ih =>
    cases h with
    | cons hlink hrest =>
      obtain ⟨hcur,hnodup⟩ := List.nodup_cons.mp hnodup
      obtain ⟨n,hn,rfl⟩ := Option.map_eq_some_iff.mp hlink
      have hwalk : LinkWalk (fun a => (Function.update heap cur none a).map ListNode.next) n.next
          nodes := hrest.congr fun a ha => by
        have hne : a ≠ cur := fun heq => hcur (heq ▸ ha)
        rw [Function.update_of_ne hne]
      have hfreed := ih hwalk hnodup
      rw [List.length_cons,freeNodes,hn]
      simp only [freeNode,hn,hfreed,Option.map_some,Option.bind_eq_bind,Option.bind_some,
        Option.some.injEq,Prod.mk.injEq,true_and]
      funext a
      by_cases ha : a = cur
      · simp [ha]
      · simp [ha]

theorem Shaped.front (h : Shaped s xs nodes) : s.front = some xs.head? := by
  have hdata := h.data
  rw [SpecList.front,← h.forward.head]
  cases nodes with
  | nil =>
    cases xs with
    | nil => rfl
    | cons x xs => cases hdata
  | cons a nodes =>
    cases xs with
    | nil => cases hdata
    | cons x xs =>
      rw [List.map_cons,List.map_cons,List.cons.injEq] at hdata
      obtain ⟨n,hn,hx⟩ := Option.map_eq_some_iff.mp hdata.1
      simp [hn,hx]

theorem back_mirror (s : SpecList α) : s.back = s.mirror.front := by
  unfold SpecList.back SpecList.front SpecList.mirror
  cases s.tail with
  | none => rfl
  | some a =>
    dsimp only
    cases s.heap a <;> rfl

theorem Shaped.wellFormed (h : Shaped s xs nodes) : WellFormed s xs where
  shaped := ⟨nodes,h⟩
  front := h.front
  back := by rw [back_mirror,h.mirror.front,List.head?_reverse]
  freed := by
    refine ⟨nodes.length + 1,nodes,?_,h.forward.nodup,fun a => (h.live a).symm⟩
    rw [freeSpecList,freeNodes_walk h.forward]
    congr 2
    funext a
    by_cases ha : a ∈ nodes
    · rw [if_pos ha]
    · rw [if_neg ha,← Option.not_isSome_iff_eq_none,h.live a]
      exact ha

/-! ### Runs -/

variable {ops : List (Op α)}

theorem run_concat (ops : List (Op α)) (op : Op α) :
    run (ops ++ [op]) = (run ops).bind fun s => step s op := by
  have hone : ∀ s : SpecList α, [op].foldlM step s = step s op := fun s => by simp
  rw [run,List.foldlM_append]
  exact congrArg (run ops).bind (funext hone)

theorem listOf_concat (ops : List (Op α)) (op : Op α) :
    listOf (ops ++ [op]) = apply (listOf ops) op := by
  rw [listOf,List.foldl_append]
  rfl

/-- Popping the last element of a list, or from an empty one. -/
theorem Shaped.pop (h : Shaped s xs nodes) (hlen : xs.length ≤ 1) {op : Op α}
    (hop : op.isPop = true) :
    ∃ s' nodes', step s op = some s' ∧ Shaped s' (apply xs op) nodes' := by
  match xs,hlen with
  | [],_ =>
    have hback := h.popBack_nil
    have hfront : s.popFront = some (s,false) := by
      rw [popFront_mirror,h.mirror.popBack_nil]
      simp [mirror_mirror]
    cases op with
    | popBack => exact ⟨s,nodes,by rw [step,hback]; rfl,h⟩
    | popFront => exact ⟨s,nodes,by rw [step,hfront]; rfl,h⟩
    | _ => cases hop
  | [x],_ =>
    have hfront : s.popFront = some ({},true) := by
      rw [popFront_mirror,h.mirror.popBack_single]
      rfl
    cases op with
    | popBack => exact ⟨{},[],by rw [step,h.popBack_single]; rfl,shaped_init⟩
    | popFront => exact ⟨{},[],by rw [step,hfront]; rfl,shaped_init⟩
    | _ => cases hop

/-- Popping one of several elements leaves a link to the freed node. -/
theorem Shaped.pop_dangles (h : Shaped s xs nodes) (hlen : 1 < xs.length) {op : Op α}
    (hop : op.isPop = true) (hstep : step s op = some s') : ¬ WellFormed s' (apply xs op) := by
  rintro ⟨⟨nodes',hshaped⟩,-,-,-⟩
  cases op with
  | popBack =>
    obtain ⟨t,b,hpop,htail,hnext⟩ := h.popBack_dangles hlen
    rw [step,hpop] at hstep
    cases hstep
    exact hnext (hshaped.forward.link_last (hshaped.atTail.trans htail))
  | popFront =>
    have hlen' : 1 < xs.reverse.length := by rwa [List.length_reverse]
    obtain ⟨t,b,hpop,htail,hnext⟩ := h.mirror.popBack_dangles hlen'
    rw [step,popFront_mirror,hpop] at hstep
    cases hstep
    have hmirror := hshaped.mirror
    rw [mirror_mirror] at hmirror
    exact hnext (hmirror.forward.link_last (hmirror.atTail.trans htail))
  | _ => cases hop

theorem Mallocs.initial {pre post : List (Op α)} (h : Mallocs (pre ++ post)) : Mallocs pre :=
  fun pre' op post' s hsplit => h pre' op (post' ++ post) s (by simp [hsplit])

theorem PopsLast.initial {pre post : List (Op α)} (h : PopsLast (pre ++ post)) : PopsLast pre :=
  fun pre' op post' hsplit => h pre' op (post' ++ post) (by simp [hsplit])

theorem shaped_run (hmalloc : Mallocs ops) (hpops : PopsLast ops) :
    ∃ s nodes, run ops = some s ∧ Shaped s (listOf ops) nodes := by
  induction ops using List.reverseRecOn with
  | nil => exact ⟨{},[],rfl,shaped_init⟩
  | append_singleton ops op ih =>
    obtain ⟨s,nodes,hrun,hshaped⟩ := ih hmalloc.initial hpops.initial
    have hfree := hmalloc ops op [] s rfl hrun
    rw [run_concat,hrun,listOf_concat]
    cases op with
    | pushBack node elem =>
      obtain ⟨t,ht,hshaped'⟩ := hshaped.pushBack (hfree node ⟨elem,.inl rfl⟩) elem
      exact ⟨t,_,ht,hshaped'⟩
    | pushFront node elem =>
      obtain ⟨t,nodes',ht,hshaped'⟩ := hshaped.pushFront (hfree node ⟨elem,.inr rfl⟩) elem
      exact ⟨t,nodes',ht,hshaped'⟩
    | popBack =>
      have hop : (Op.popBack : Op α).isPop = true := rfl
      exact hshaped.pop (hpops ops _ [] rfl hop) hop
    | popFront =>
      have hop : (Op.popFront : Op α).isPop = true := rfl
      exact hshaped.pop (hpops ops _ [] rfl hop) hop

theorem KeepsShape.popsLast (h : KeepsShape ops) : PopsLast ops := by
  intro pre op post hsplit hop
  by_contra hlen
  obtain ⟨s,hrun,hgood⟩ := h pre (op :: post) hsplit
  obtain ⟨s',hrun',hgood'⟩ := h (pre ++ [op]) post (by simp [hsplit])
  obtain ⟨nodes,hshaped⟩ := hgood.shaped
  rw [run_concat,hrun] at hrun'
  rw [listOf_concat] at hgood'
  exact hshaped.pop_dangles (Nat.lt_of_not_le hlen) hop hrun' hgood'

theorem PopsLast.keepsShape (hpops : PopsLast ops) (hmalloc : Mallocs ops) : KeepsShape ops := by
  intro pre post hsplit
  subst hsplit
  obtain ⟨s,nodes,hrun,hshaped⟩ := shaped_run hmalloc.initial hpops.initial
  exact ⟨s,hrun,hshaped.wellFormed⟩

/-- The list keeps its shape as long as elements are popped from lists of one element only: the new
end of a longer list keeps its link to the node that was freed. -/
theorem keepsShape_iff_popsLast (hmalloc : Mallocs ops) : KeepsShape ops ↔ PopsLast ops :=
  ⟨KeepsShape.popsLast,fun hpops => hpops.keepsShape hmalloc⟩

theorem Mallocs.concat (h : Mallocs ops) {op : Op α} (hop : ∀ s, run ops = some s → ∀ node,
    (∃ elem, op = .pushBack node elem ∨ op = .pushFront node elem) → s.heap node = none) :
    Mallocs (ops ++ [op]) := by
  intro pre op' post s hsplit hrun
  rcases List.eq_nil_or_concat post with rfl | ⟨post,last,rfl⟩
  · obtain ⟨rfl,hlast⟩ := List.append_inj' hsplit rfl
    cases hlast
    exact hop s hrun
  · rw [List.concat_eq_append,← List.cons_append,← List.append_assoc] at hsplit
    exact h pre op' post s (List.append_inj' hsplit rfl).1 hrun

theorem mallocs_nil : Mallocs ([] : List (Op α)) :=
  fun pre op post s hsplit => by simp at hsplit

theorem mallocs_first (node : ListNodeId) (elem : α) : Mallocs [.pushBack node elem] := by
  refine mallocs_nil.concat fun s hrun _ _ => ?_
  cases hrun
  rfl

/-- The address of a freed node is used again. -/
theorem mallocs_reused :
    Mallocs ([.pushBack 0 7] ++ [.popBack] ++ [.pushFront 0 8] : List (Op ℕ)) := by
  refine .concat (.concat (mallocs_first 0 7) ?_) ?_
  · rintro s hrun node ⟨elem,hop | hop⟩ <;> cases hop
  · rintro s hrun node ⟨elem,hop | hop⟩ <;> cases hop
    cases hrun
    rfl

theorem keepsShape_iff_popsLast_reused : KeepsShape [.pushBack 0 7,.popBack,.pushFront 0 8] ↔
    PopsLast [.pushBack 0 7,.popBack,.pushFront 0 8] :=
  keepsShape_iff_popsLast mallocs_reused

/-- After two elements are pushed and one is popped, the other links to a freed node. -/
theorem popBack_breaks : ¬ ∀ ops : List (Op ℕ), Mallocs ops → KeepsShape ops := by
  intro hall
  have hmalloc : Mallocs ([.pushBack 0 7] ++ [.pushBack 1 8] ++ [.popBack] : List (Op ℕ)) := by
    refine .concat (.concat (mallocs_first 0 7) ?_) ?_
    · rintro s hrun node ⟨elem,hop | hop⟩ <;> cases hop
      cases hrun
      rfl
    · rintro s hrun node ⟨elem,hop | hop⟩ <;> cases hop
  have hpops := (hall _ hmalloc).popsLast [.pushBack 0 7,.pushBack 1 8] .popBack [] rfl rfl
  exact absurd hpops (by decide)

end SpecList
end CdsChecker
