import Mathlib.Data.List.Nodup

/-! Association lists in the order of insertion. Keys are told apart by a code, every item carries
the number of its insertion, and an iterator is the number of the first item it has not passed. -/
set_option linter.all false
namespace Bamts.Insertion

structure Item (κ ν : Type) where
  order : Nat
  key : κ
  value : ν
  deriving DecidableEq

structure Assoc (κ ν : Type) where
  items : List (Item κ ν)
  next : Nat

variable {κ ν δ : Type} (code : κ → δ)

namespace Assoc

structure Ordered (a : Assoc κ ν) : Prop where
  rising : a.items.Pairwise (·.order < ·.order)
  below : ∀ item ∈ a.items, item.order < a.next
  distinct : (a.items.map fun item => code item.key).Nodup

def clear (a : Assoc κ ν) : Assoc κ ν := { a with items := [] }

def keep (a : Assoc κ ν) (p : κ → Bool) : Assoc κ ν := { a with items := a.items.filter fun item => p item.key }

-- The first item an iterator at `cursor` comes to.
def after (a : Assoc κ ν) (cursor : Nat) : Option (Item κ ν) := a.items.find? fun item => cursor ≤ item.order

variable {code} {a : Assoc κ ν} {key other : κ} {value : ν} {item : Item κ ν}

/-- An iterator comes to the item with the least number it has not passed. -/
theorem Ordered.afterLeast (ordered : a.Ordered code) {cursor} : a.after cursor = some item ↔
    item ∈ a.items ∧ cursor ≤ item.order ∧ ∀ x ∈ a.items, cursor ≤ x.order → item.order ≤ x.order := by
  have rising := ordered.rising
  unfold after
  generalize a.items = items at rising
  induction items with
  | nil => simp
  | cons first rest ih =>
    obtain ⟨least,rising⟩ := List.pairwise_cons.mp rising
    rw [List.find?_cons]
    by_cases reached : cursor ≤ first.order
    · simp only [reached,decide_true,Option.some.injEq,List.mem_cons,forall_eq_or_imp]
      constructor
      · intro same
        subst same
        exact ⟨.inl rfl,reached,fun _ => Nat.le_refl _,fun x member _ => Nat.le_of_lt (least x member)⟩
      · intro all
        obtain ⟨member,_,below,_⟩ := all
        rcases member with rfl | later
        · rfl
        · have := least item later
          have := below trivial
          omega
    · simp only [reached,decide_false,List.mem_cons,forall_eq_or_imp,false_implies,true_and]
      refine (ih rising).trans ?_
      constructor
      · intro all
        exact ⟨.inr all.1,all.2⟩
      · intro all
        obtain ⟨member,past,below⟩ := all
        rcases member with rfl | later
        · exact absurd past reached
        · exact ⟨later,past,below⟩

variable [DecidableEq δ] (code)

def empty : Assoc κ ν := ⟨[],0⟩

def find (a : Assoc κ ν) (key : κ) : Option (Item κ ν) := a.items.find? fun item => code item.key = code key

def get (a : Assoc κ ν) (key : κ) : Option ν := (a.find code key).map (·.value)

def append (a : Assoc κ ν) (key : κ) (value : ν) : Assoc κ ν := ⟨a.items ++ [⟨a.next,key,value⟩],a.next+1⟩

def put (a : Assoc κ ν) (key : κ) (value : ν) : Assoc κ ν :=
  if (a.find code key).isSome then
    { a with items := a.items.map fun item => if code item.key = code key then { item with value := value } else item }
  else a.append key value

def add (a : Assoc κ ν) (key : κ) (value : ν) : Assoc κ ν := if (a.find code key).isSome then a else a.append key value

def remove (a : Assoc κ ν) (key : κ) : Assoc κ ν := { a with items := a.items.filter fun item => code item.key ≠ code key }

variable {code}

theorem findNone : a.find code key = none ↔ ∀ item ∈ a.items, code item.key ≠ code key := by
  simp [find]

theorem Ordered.findEq (ordered : a.Ordered code) :
    a.find code key = some item ↔ item ∈ a.items ∧ code item.key = code key := by
  have sound : ∀ x, a.find code key = some x → x ∈ a.items ∧ code x.key = code key := fun x found =>
    ⟨List.mem_of_find?_eq_some found,of_decide_eq_true (List.find?_some found :)⟩
  refine ⟨sound item,fun there => ?_⟩
  cases found : a.find code key with
  | none => exact absurd there.2 (findNone.mp found item there.1)
  | some x =>
    obtain ⟨member,same⟩ := sound x found
    rw [List.inj_on_of_nodup_map ordered.distinct member there.1 (same.trans there.2.symm)]

end Assoc

end Bamts.Insertion
