import Mathlib.Data.List.Basic
import Mathlib.Logic.Function.Basic

/-! Links from node to node, followed to the null link. -/
namespace CdsChecker

variable {N : Type}

/-- Following the links visits these nodes, and ends. A node that is not there has no link. -/
inductive LinkWalk (link : N → Option (Option N)) : Option N → List N → Prop
  | nil : LinkWalk link none []
  | cons {a : N} {next : Option N} {nodes : List N} (hlink : link a = some next)
      (hrest : LinkWalk link next nodes) : LinkWalk link (some a) (a :: nodes)

namespace LinkWalk

variable {link : N → Option (Option N)} {start : Option N} {nodes nodes' : List N} {a b : N}

theorem head (h : LinkWalk link start nodes) : nodes.head? = start := by
  cases h <;> rfl

/-- Each node links to the one behind it. -/
theorem of_links (hlinks : ∀ pre a post, nodes = pre ++ a :: post → link a = some post.head?) :
    LinkWalk link nodes.head? nodes := by
  induction nodes with
  | nil => exact .nil
  | cons a nodes ih =>
    refine .cons (hlinks [] a nodes rfl) (ih fun pre b post hsplit => ?_)
    exact hlinks (a :: pre) b post (by rw [hsplit]; rfl)

theorem links (h : LinkWalk link start nodes) {pre post : List N}
    (hsplit : nodes = pre ++ a :: post) :
    link a = some post.head? := by
  induction pre generalizing start nodes with
  | nil =>
    subst hsplit
    cases h with
    | cons hlink hrest => rw [hlink,hrest.head]
  | cons c pre ih =>
    subst hsplit
    cases h with
    | cons hlink hrest => exact ih hrest rfl

theorem link_last (h : LinkWalk link start nodes) (ha : nodes.getLast? = some a) :
    link a = some none := by
  obtain ⟨pre,rfl⟩ := List.getLast?_eq_some_iff.mp ha
  exact h.links rfl

/-- Two walks from one node visit the same nodes. -/
theorem unique (h : LinkWalk link start nodes) (h' : LinkWalk link start nodes') :
    nodes = nodes' := by
  induction h generalizing nodes' with
  | nil =>
    cases h'
    rfl
  | cons hlink hrest ih =>
    cases h' with
    | cons hlink' hrest' =>
      cases hlink.symm.trans hlink'
      rw [ih hrest']

theorem suffix {pre post : List N} (h : LinkWalk link start (pre ++ post)) :
    LinkWalk link post.head? post := by
  apply of_links
  intro pre' b post' hsplit
  have hall : pre ++ post = (pre ++ pre') ++ b :: post' := by rw [hsplit,List.append_assoc]
  exact h.links hall

/-- A walk that ends visits no node twice: what follows the first visit follows the second one. -/
theorem nodup (h : LinkWalk link start nodes) : nodes.Nodup := by
  induction h with
  | nil => exact List.nodup_nil
  | @cons a next nodes hlink hrest ih =>
    refine List.nodup_cons.mpr ⟨fun ha => ?_,ih⟩
    obtain ⟨pre,post,rfl⟩ := List.append_of_mem ha
    have hagain := hrest.suffix
    have hsame := hagain.unique (LinkWalk.cons hlink hrest)
    have hlen := congrArg List.length hsame
    simp only [List.length_cons,List.length_append] at hlen
    omega

/-- Links of other nodes do not matter. -/
theorem congr (h : LinkWalk link start nodes) {link' : N → Option (Option N)}
    (hsame : ∀ a ∈ nodes, link' a = link a) : LinkWalk link' start nodes := by
  induction h with
  | nil => exact .nil
  | cons hlink hrest ih =>
    obtain ⟨hfirst,hothers⟩ := List.forall_mem_cons.mp hsame
    exact .cons (hfirst.trans hlink) (ih hothers)

/-- A new node behind the last one. -/
theorem snoc (h : LinkWalk link start nodes) {link' : N → Option (Option N)}
    (hlast : ∀ a, nodes.getLast? = some a → link' a = some (some b)) (hb : link' b = some none)
    (hsame : ∀ a ∈ nodes, nodes.getLast? ≠ some a → link' a = link a) :
    LinkWalk link' (nodes ++ [b]).head? (nodes ++ [b]) := by
  apply of_links
  intro pre a post hsplit
  rcases List.eq_nil_or_concat post with rfl | ⟨post,c,rfl⟩
  · obtain ⟨rfl,hab⟩ := List.append_inj' hsplit rfl
    cases hab
    exact hb
  · rw [List.concat_eq_append,← List.cons_append,← List.append_assoc] at hsplit
    obtain ⟨hnodes,hbc⟩ := List.append_inj' hsplit rfl
    cases hbc
    cases post with
    | nil =>
      refine hlast a ?_
      rw [hnodes,List.getLast?_append]
      rfl
    | cons d post =>
      have hne : nodes.getLast? ≠ some a := by
        intro heq
        have hend := h.link_last heq
        rw [h.links hnodes] at hend
        cases hend
      rw [hsame a (by simp [hnodes]) hne,h.links hnodes]
      rfl

end LinkWalk
end CdsChecker
