import Mathlib.Data.List.Basic

/-! Inversion rules for checks written in `Except`: a sequence of checks succeeds
exactly when each of them does, and its error is the error of the first that fails. A list of optional results is there when each is. -/
set_option linter.all false
namespace Bamts.Outcome

variable {ε α β : Type}

theorem bindOk {x} {f : α → Except ε β} {b} :
    (x >>= f) = .ok b ↔ ∃ a, x = .ok a ∧ f a = .ok b := by
  cases x with
  | error e => simp [bind,Except.bind]
  | ok a => simp [bind,Except.bind]

theorem bindError {x} {f : α → Except ε β} {e} :
    (x >>= f) = .error e ↔ x = .error e ∨ ∃ a, x = .ok a ∧ f a = .error e := by
  cases x with
  | error e => simp [bind,Except.bind]
  | ok a => simp [bind,Except.bind]

theorem seqOk {x : Except ε Unit} {y : Except ε β} {b} :
    (do x; y) = .ok b ↔ x = .ok () ∧ y = .ok b := by
  cases x with
  | error e => simp [bind,Except.bind]
  | ok a => simp [bind,Except.bind]

-- `if p { return Err(e) }`
def rejectIf (p : Prop) [Decidable p] (e : ε) : Except ε Unit := if p then .error e else .ok ()

theorem rejectIfOk {p} [Decidable p] {e : ε} : rejectIf p e = .ok () ↔ ¬p := by
  unfold rejectIf
  split <;> simp_all

-- The source's `for (index, x) in xs.iter().enumerate()` over a fallible check.
def eachFrom (check : Nat → α → Except ε Unit) : Nat → List α → Except ε Unit
  | _, [] => .ok ()
  | index, x :: rest => do
    check index x
    eachFrom check (index+1) rest

theorem eachFromOk {check : Nat → α → Except ε Unit} {start xs} :
    eachFrom check start xs = .ok () ↔ ∀ i x, xs[i]? = some x → check (start+i) x = .ok () := by
  induction xs generalizing start with
  | nil => simp [eachFrom]
  | cons x rest ih =>
    simp only [eachFrom,seqOk,ih]
    constructor
    · rintro ⟨head,tail⟩ i y found
      cases i with
      | zero => simp only [List.getElem?_cons_zero,Option.some.injEq] at found; subst y; exact head
      | succ i => have h := tail i y found; rwa [Nat.add_right_comm] at h
    · intro all
      refine ⟨all 0 x rfl,?_⟩
      intro i y found
      have h := all (i+1) y found
      rwa [← Nat.add_assoc,Nat.add_right_comm] at h

theorem eachFromError {check : Nat → α → Except ε Unit} {start xs e} (failed : eachFrom check start xs = .error e) :
    ∃ i x, xs[i]? = some x ∧ check (start+i) x = .error e ∧
      ∀ j y, j < i → xs[j]? = some y → check (start+j) y = .ok () := by
  induction xs generalizing start with
  | nil => simp [eachFrom] at failed
  | cons x rest ih =>
    rcases bindError.mp failed with first | ⟨_,passed,later⟩
    · exact ⟨0,x,rfl,first,by intro j y less; omega⟩
    · obtain ⟨i,y,found,bad,before⟩ := ih later
      refine ⟨i+1,y,found,by rwa [← Nat.add_assoc,Nat.add_right_comm],?_⟩
      intro j z less at_
      cases j with
      | zero => simp only [List.getElem?_cons_zero,Option.some.injEq] at at_; subst z; exact passed
      | succ j =>
        have h := before j z (by omega) at_
        rwa [Nat.add_right_comm] at h

def foldFrom {σ : Type} (step : Nat → σ → α → Except ε σ) : Nat → σ → List α → Except ε σ
  | _, acc, [] => .ok acc
  | index, acc, x :: rest => do
    let acc ← step index acc x
    foldFrom step (index+1) acc rest

theorem foldFromAt {σ} {step : Nat → σ → α → Except ε σ} {xs start acc out}
    (ok : foldFrom step start acc xs = .ok out) {k x} (at_ : xs[k]? = some x) :
    ∃ before after, step (start+k) before x = .ok after := by
  induction xs generalizing start acc k with
  | nil => cases at_
  | cons y rest ih =>
    obtain ⟨between,head,tail⟩ := bindOk.mp ok
    cases k with
    | zero =>
      cases at_
      exact ⟨acc,between,head⟩
    | succ k =>
      have := ih tail at_
      rwa [Nat.add_right_comm] at this

/- A loop that records each item under a new key, as `HashMap::insert` with a check for a
previous value does: the keys are pairwise distinct and each item was checked. -/
theorem foldKeyed {κ τ} [BEq κ] [LawfulBEq κ] {step : Nat → List (κ × τ) → α → Except ε (List (κ × τ))}
    {index acc out xs} (key : α → Option κ) (P : α → Prop) (ok : foldFrom step index acc xs = .ok out)
    (spec : ∀ index acc x acc', step index acc x = .ok acc' → ∃ k v, key x = some k ∧ acc.lookup k = none ∧ acc' = (k,v) :: acc ∧ P x) :
    (∀ x ∈ xs, P x ∧ ∃ k, key x = some k ∧ acc.lookup k = none) ∧ xs.Pairwise fun a b => key a ≠ key b := by
  induction xs generalizing index acc with
  | nil => simp
  | cons x rest ih =>
    obtain ⟨acc',head,tail⟩ := bindOk.mp ok
    obtain ⟨k,v,known,fresh,rfl,good⟩ := spec index acc x acc' head
    obtain ⟨others,distinct⟩ := ih tail
    have later : ∀ y ∈ rest, ∃ k', key y = some k' ∧ k' ≠ k ∧ acc.lookup k' = none := by
      intro y member
      obtain ⟨_,k',known',fresh'⟩ := others y member
      rw [List.lookup_cons] at fresh'
      cases same : k' == k with
      | true => simp [same] at fresh'
      | false =>
        rw [same] at fresh'
        exact ⟨k',known',by simpa using same,fresh'⟩
    refine ⟨?_,List.pairwise_cons.mpr ⟨?_,distinct⟩⟩
    · intro y member
      rcases List.mem_cons.mp member with rfl | old
      · exact ⟨good,k,known,fresh⟩
      · obtain ⟨k',known',_,fresh'⟩ := later y old
        exact ⟨(others y old).1,k',known',fresh'⟩
    · intro y member
      obtain ⟨k',known',differs,_⟩ := later y member
      rw [known,known']
      simpa using Ne.symm differs

end Bamts.Outcome
