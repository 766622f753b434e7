import Mathlib.Data.Finset.Card
import Mathlib.Logic.Relation

/-! Chains of a relation that come to an end. -/
namespace CdsChecker
namespace Chains

open Relation

variable {α : Type*} {r r' : α → α → Prop} {a b w : α}

/-- Every chain from `a` on comes to an end. -/
abbrev Ends (r : α → α → Prop) (a : α) : Prop := Acc (fun b a => r a b) a

theorem Ends.stops (h : Ends r a) : ∃ b, ReflTransGen r a b ∧ ∀ c, ¬ r b c := by
  induction h with
  | intro a _ ih =>
    by_cases hnext : ∃ b, r a b
    · obtain ⟨b,hab⟩ := hnext
      obtain ⟨c,hbc,hstop⟩ := ih b hab
      exact ⟨c,.head hab hbc,hstop⟩
    · exact ⟨a,.refl,not_exists.mp hnext⟩

theorem Ends.not_self (h : Ends r a) : ¬ r a a := by
  induction h with
  | intro a _ ih => exact fun haa => ih a haa haa

theorem Ends.irrefl (h : Ends r a) : ¬ TransGen r a a := by
  have hswap : Ends (TransGen r) a := by
    have htrans : TransGen (fun b a => r a b) = fun b a => TransGen r a b := by
      funext b a
      exact propext transGen_swap
    rw [Ends,← htrans]
    exact h.transGen
  exact hswap.not_self

/-- From `w` on nothing is new. -/
theorem Ends.of_reached (h : Ends r w) (hr : ∀ a, ReflTransGen r w a → ∀ b, r' a b → r a b) :
    Ends r' w := by
  induction h with
  | intro w _ ih =>
    refine ⟨w,fun b hwb => ?_⟩
    have hb := hr w .refl b hwb
    exact ih b hb fun a hba => hr a (.head hb hba)

/-- The new steps lead to `w` only. -/
theorem Ends.redirect (h : Ends r a) (hw : Ends r' w) (hr : ∀ a b, r' a b → r a b ∨ b = w) :
    Ends r' a := by
  induction h with
  | intro a _ ih =>
    refine ⟨a,fun b hab => ?_⟩
    rcases hr a b hab with hab | rfl
    · exact ih b hab
    · exact hw

theorem Ends.mono (h : Ends r a) (hr : ∀ a b, r' a b → r a b) : Ends r' a :=
  h.of_reached fun a _ => hr a

/-! ### The length of a chain -/

/-- The chain from `a` on ends after this many steps. -/
def EndsIn (r : α → α → Prop) : ℕ → α → Prop
  | 0,a => ∀ b, ¬ r a b
  | n + 1,a => ∃ b, r a b ∧ EndsIn r n b

theorem Ends.endsIn (h : Ends r a) : ∃ n, EndsIn r n a := by
  induction h with
  | intro a _ ih =>
    by_cases hnext : ∃ b, r a b
    · obtain ⟨b,hab⟩ := hnext
      obtain ⟨n,hn⟩ := ih b hab
      exact ⟨n + 1,b,hab,hn⟩
    · exact ⟨0,not_exists.mp hnext⟩

variable (hr : ∀ a b c, r a b → r a c → b = c)

include hr

theorem EndsIn.unique {m n : ℕ} (hm : EndsIn r m a) (hn : EndsIn r n a) : m = n := by
  induction m generalizing n a with
  | zero =>
    cases n with
    | zero => rfl
    | succ n =>
      obtain ⟨b,hab,-⟩ := hn
      exact absurd hab (hm b)
  | succ m ih =>
    obtain ⟨b,hab,hm⟩ := hm
    cases n with
    | zero => exact absurd hab (hn b)
    | succ n =>
      obtain ⟨c,hac,hn⟩ := hn
      obtain rfl := hr a b c hab hac
      rw [ih hm hn]

omit hr in
theorem EndsIn.exists_reached {n : ℕ} (h : EndsIn r n a) :
    ∀ k ≤ n, ∃ b, ReflTransGen r a b ∧ EndsIn r k b := by
  induction n generalizing a with
  | zero =>
    intro k hk
    obtain rfl := Nat.le_zero.mp hk
    exact ⟨a,.refl,h⟩
  | succ n ih =>
    intro k hk
    rcases Nat.eq_or_lt_of_le hk with rfl | hk
    · exact ⟨a,.refl,h⟩
    · obtain ⟨b,hab,hb⟩ := h
      obtain ⟨c,hbc,hc⟩ := ih hb k (Nat.lt_succ_iff.mp hk)
      exact ⟨c,.head hab hbc,hc⟩

/-- No element comes twice on the chain. -/
theorem EndsIn.lt_card {n : ℕ} (h : EndsIn r n a) {s : Finset α}
    (hs : ∀ b, ReflTransGen r a b → b ∈ s) : n < s.card := by
  have hreached : ∀ k : ℕ, ∃ b, k ≤ n → ReflTransGen r a b ∧ EndsIn r k b := by
    intro k
    by_cases hk : k ≤ n
    · obtain ⟨b,hb⟩ := h.exists_reached k hk
      exact ⟨b,fun _ => hb⟩
    · exact ⟨a,fun hle => absurd hle hk⟩
  choose f hf using hreached
  have hcard : (Finset.range (n + 1)).card ≤ s.card := by
    refine Finset.card_le_card_of_injOn f (fun k hk => ?_) fun k hk l hl hkl => ?_
    · exact hs _ (hf k (Nat.lt_succ_iff.mp (Finset.mem_range.mp (Finset.mem_coe.mp hk)))).1
    · have hk := (hf k (Nat.lt_succ_iff.mp (Finset.mem_range.mp (Finset.mem_coe.mp hk)))).2
      have hl := (hf l (Nat.lt_succ_iff.mp (Finset.mem_range.mp (Finset.mem_coe.mp hl)))).2
      rw [hkl] at hk
      exact EndsIn.unique hr hk hl
  rw [Finset.card_range] at hcard
  exact hcard

end Chains
end CdsChecker
