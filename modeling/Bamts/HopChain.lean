import Mathlib.Data.List.Nodup
import Mathlib.Data.List.Perm.Subperm
import Mathlib.Logic.Relation

/-! Chains of a successor function that may fail: where a chain ends it ends in one place,
and inside a finite set it ends before it has visited every member. -/
set_option linter.all false
namespace Bamts.HopChain

variable {α ε : Type} {next : α → Except ε (Option α)}

inductive Ends (next : α → Except ε (Option α)) : α → Nat → α → Prop where
  | stop {a : α} (last : next a = .ok none) : Ends next a 0 a
  | hop {a b e : α} {n : Nat} (here : next a = .ok (some b)) (rest : Ends next b n e) : Ends next a (n+1) e

theorem Ends.unique {a e e' n n'} (left : Ends next a n e) (right : Ends next a n' e') :
    n = n' ∧ e = e' := by
  induction left generalizing n' e' with
  | stop last =>
    cases right with
    | stop _ => exact ⟨rfl,rfl⟩
    | hop here _ => rw [last] at here; cases here
  | hop here rest ih =>
    cases right with
    | stop last => rw [last] at here; cases here
    | hop here' rest' =>
      rw [here] at here'
      cases here'
      obtain ⟨rfl,rfl⟩ := ih rest'
      exact ⟨rfl,rfl⟩

theorem Ends.after {a b e n} (chain : Ends next a n e) (hop : next a = .ok (some b)) : ∃ m, n = m+1 ∧ Ends next b m e := by
  cases chain with
  | stop last =>
    rw [hop] at last
    cases last
  | hop here rest =>
    rw [hop] at here
    cases here
    exact ⟨_,rfl,rest⟩

theorem Ends.trail {all : List α} (closed : ∀ x ∈ all, ∀ y, next x = .ok (some y) → y ∈ all) {a e n} (chain : Ends next a n e) (member : a ∈ all) :
    ∃ trail : List α, trail.length = n+1 ∧ trail.Nodup ∧ ∀ x ∈ trail, x ∈ all ∧ ∃ m ≤ n, Ends next x m e := by
  induction chain with
  | stop last => exact ⟨[_],rfl,by simp,by simpa using ⟨member,Ends.stop last⟩⟩
  | @hop a b e n here rest ih =>
    obtain ⟨trail,size,distinct,all'⟩ := ih (closed a member b here)
    have fresh : a ∉ trail := by
      intro again
      obtain ⟨_,m,small,chain⟩ := all' a again
      obtain ⟨same,_⟩ := chain.unique (Ends.hop here rest)
      omega
    refine ⟨a :: trail,by rw [List.length_cons,size],List.nodup_cons.mpr ⟨fresh,distinct⟩,?_⟩
    intro x inside
    rcases List.mem_cons.mp inside with rfl | later
    · exact ⟨member,n+1,Nat.le_refl _,Ends.hop here rest⟩
    · obtain ⟨inside',m,small,chain⟩ := all' x later
      exact ⟨inside',m,by omega,chain⟩

theorem Ends.bound {all : List α} (closed : ∀ x ∈ all, ∀ y, next x = .ok (some y) → y ∈ all)
    {a e n} (chain : Ends next a n e) (member : a ∈ all) : n < all.length := by
  obtain ⟨trail,size,distinct,inside⟩ := chain.trail closed member
  have below := (distinct.subperm fun x found => (inside x found).1).length_le
  omega

def Hops (next : α → Except ε (Option α)) (a b : α) : Prop := next a = .ok (some b)

theorem Ends.reached {a b} (some_ : ∃ n e, Ends next a n e) (path : Relation.ReflTransGen (Hops next) a b) :
    ∃ n e, Ends next b n e := by
  induction path with
  | refl => exact some_
  | tail _ hop ih =>
    obtain ⟨n,e,chain⟩ := ih
    cases chain with
    | stop last =>
      rw [hop] at last
      cases last
    | hop here rest =>
      rw [hop] at here
      cases here
      exact ⟨_,_,rest⟩

theorem noRound {a b} (there : Hops next a b) (back : Hops next b a) : ¬∃ n e, Ends next a n e := by
  rintro ⟨n,e,chain⟩
  obtain ⟨m,e',rest⟩ := Ends.reached ⟨n,e,chain⟩ (.single there)
  obtain ⟨rfl,rfl⟩ := chain.unique (.hop there rest)
  have := rest.unique (.hop back chain)
  omega

section Rewired

variable {next' : α → Except ε (Option α)} {i : α} (same : ∀ x, x ≠ i → ∀ r, next x = .ok r → next' x = .ok r)
include same

theorem Ends.avoids {a e n} (chain : Ends next a n e) (clear : ¬Relation.ReflTransGen (Hops next) a i) :
    Ends next' a n e := by
  induction chain with
  | @stop a last =>
    refine .stop (same a ?_ _ last)
    rintro rfl
    exact clear .refl
  | @hop a b e n here _ ih =>
    refine .hop (same a ?_ _ here) (ih fun path => clear (.head here path))
    rintro rfl
    exact clear .refl

theorem Ends.rewired {a e n} (chain : Ends next a n e) (fixed : ∃ n e, Ends next' i n e) : ∃ n e, Ends next' a n e := by
  induction chain with
  | @stop a last =>
    by_cases here : a = i
    · exact here ▸ fixed
    · exact ⟨0,a,.stop (same a here _ last)⟩
  | @hop a b e n hop _ ih =>
    by_cases here : a = i
    · exact here ▸ fixed
    · obtain ⟨m,f,rest⟩ := ih
      exact ⟨m+1,f,.hop (same a here _ hop) rest⟩

end Rewired

end Bamts.HopChain
