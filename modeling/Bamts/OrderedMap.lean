import Mathlib.Order.Lattice
import Mathlib.Data.List.Nodup

/-! Maps that keep their entries in the order of the keys. -/
set_option linter.all false
namespace Bamts

structure OrderedMap (κ ν : Type) [LinearOrder κ] where
  entries : List (κ × ν)
  sorted : entries.Pairwise (·.1 < ·.1)

namespace OrderedMap
variable {κ ν : Type} [LinearOrder κ]

def put (key : κ) (value : ν) : List (κ × ν) → List (κ × ν)
  | [] => [(key,value)]
  | entry :: rest =>
    if key < entry.1 then (key,value) :: entry :: rest
    else if key = entry.1 then (key,value) :: rest
    else entry :: put key value rest

theorem memPut {key : κ} {value : ν} {entries} (sorted : entries.Pairwise (·.1 < ·.1)) {x} :
    x ∈ put key value entries ↔ x = (key,value) ∨ x ∈ entries ∧ x.1 ≠ key := by
  induction entries with
  | nil => simp [put]
  | cons entry rest ih =>
    obtain ⟨least,sorted⟩ := List.pairwise_cons.mp sorted
    have past : ∀ y ∈ rest, entry.1 < y.1 := least
    unfold put
    split
    · rename_i before
      constructor
      · intro member
        rcases List.mem_cons.mp member with same | old
        · exact .inl same
        · refine .inr ⟨old,?_⟩
          rcases List.mem_cons.mp old with rfl | later
          · exact (ne_of_lt before).symm
          · exact (ne_of_lt (lt_trans before (past x later))).symm
      · intro choice
        rcases choice with same | ⟨old,_⟩
        · exact List.mem_cons.mpr (.inl same)
        · exact List.mem_cons_of_mem _ old
    · split
      · rename_i same
        subst same
        constructor
        · intro member
          rcases List.mem_cons.mp member with same | later
          · exact .inl same
          · exact .inr ⟨List.mem_cons_of_mem _ later,(ne_of_lt (past x later)).symm⟩
        · intro choice
          rcases choice with same | ⟨old,other⟩
          · exact List.mem_cons.mpr (.inl same)
          · rcases List.mem_cons.mp old with rfl | later
            · exact absurd rfl other
            · exact List.mem_cons_of_mem _ later
      · rename_i notBefore notSame
        rw [List.mem_cons,ih sorted,List.mem_cons]
        constructor
        · intro choice
          rcases choice with rfl | same | ⟨old,other⟩
          · exact .inr ⟨.inl rfl,Ne.symm notSame⟩
          · exact .inl same
          · exact .inr ⟨.inr old,other⟩
        · intro choice
          rcases choice with same | ⟨rfl | old,other⟩
          · exact .inr (.inl same)
          · exact .inl rfl
          · exact .inr (.inr ⟨old,other⟩)

theorem putSorted {key : κ} {value : ν} {entries} (sorted : entries.Pairwise (·.1 < ·.1)) :
    (put key value entries).Pairwise (·.1 < ·.1) := by
  induction entries with
  | nil => exact List.pairwise_singleton _ _
  | cons entry rest ih =>
    obtain ⟨least,later⟩ := List.pairwise_cons.mp sorted
    unfold put
    split
    · rename_i before
      refine List.pairwise_cons.mpr ⟨?_,sorted⟩
      intro x member
      rcases List.mem_cons.mp member with rfl | old
      · exact before
      · exact lt_trans before (least x old)
    · split
      · rename_i same
        refine List.pairwise_cons.mpr ⟨fun x member => ?_,later⟩
        rw [same]
        exact least x member
      · rename_i notBefore notSame
        refine List.pairwise_cons.mpr ⟨fun x member => ?_,ih later⟩
        rcases (memPut later).mp member with rfl | ⟨old,_⟩
        · exact lt_of_le_of_ne (le_of_not_gt notBefore) (Ne.symm notSame)
        · exact least x old

def empty : OrderedMap κ ν := ⟨[],List.Pairwise.nil⟩

def insert (m : OrderedMap κ ν) (key : κ) (value : ν) : OrderedMap κ ν := ⟨put key value m.entries,putSorted m.sorted⟩

def remove (m : OrderedMap κ ν) (key : κ) : OrderedMap κ ν := ⟨m.entries.filter (·.1 ≠ key),m.sorted.filter _⟩

def get (m : OrderedMap κ ν) (key : κ) : Option ν := (m.entries.find? (·.1 = key)).map Prod.snd

def contains (m : OrderedMap κ ν) (key : κ) : Bool := (m.get key).isSome

def first (m : OrderedMap κ ν) : Option κ := m.entries.head?.map Prod.fst

def values (m : OrderedMap κ ν) : List ν := m.entries.map Prod.snd

def map {ξ : Type} (m : OrderedMap κ ν) (f : ν → ξ) : OrderedMap κ ξ where
  entries := m.entries.map fun entry => (entry.1,f entry.2)
  sorted := List.pairwise_map.mpr m.sorted

def length (m : OrderedMap κ ν) : Nat := m.entries.length

variable {m : OrderedMap κ ν} {key other : κ} {value : ν}

theorem getMem : m.get key = some value ↔ (key,value) ∈ m.entries := by
  have sorted := m.sorted
  unfold get
  generalize m.entries = entries at sorted
  induction entries with
  | nil => simp
  | cons entry rest ih =>
    obtain ⟨least,later⟩ := List.pairwise_cons.mp sorted
    rw [List.find?_cons,List.mem_cons]
    by_cases same : entry.1 = key
    · have away : (key,value) ∉ rest := fun member => absurd (least _ member) (by simp [same])
      simp only [same,decide_true,Option.map_some,Option.some.injEq,away,or_false]
      constructor
      · intro here
        rw [← same,← here]
      · intro here
        rw [← here]
    · have other : (key,value) ≠ entry := fun here => same (by rw [← here])
      simp only [same,decide_false,other,false_or]
      exact ih later

theorem getInsert : (m.insert key value).get other = if other = key then some value else m.get other := by
  ext v
  rw [getMem]
  show (other,v) ∈ put key value m.entries ↔ _
  rw [memPut m.sorted]
  split
  · rename_i same
    simp [same,eq_comm]
  · rename_i apart
    simp [apart,getMem]

theorem getRemove : (m.remove key).get other = if other = key then none else m.get other := by
  ext v
  rw [getMem]
  show (other,v) ∈ m.entries.filter _ ↔ _
  rw [List.mem_filter,← getMem]
  split
  · rename_i same
    simp [same]
  · rename_i apart
    simp [apart]

theorem getEmpty : (empty : OrderedMap κ ν).get key = none := rfl

theorem getMap {ξ} {f : ν → ξ} : (m.map f).get key = (m.get key).map f := by
  simp only [get,map,List.find?_map,Option.map_map,Function.comp_def]

theorem getNone : m.get key = none ↔ ∀ entry ∈ m.entries, entry.1 ≠ key := by
  simp [get]

theorem keysNodup : (m.entries.map Prod.fst).Nodup := List.pairwise_map.mpr (m.sorted.imp fun less => ne_of_lt less)

theorem memKeys : key ∈ m.entries.map Prod.fst ↔ (m.get key).isSome = true := by
  rw [Option.isSome_iff_ne_none,ne_eq,getNone,List.mem_map]
  simp only [not_forall,not_not,exists_prop]

/-- The first key is the least. -/
theorem firstLeast (found : m.first = some key) : m.get key ≠ none ∧ ∀ other, m.get other ≠ none → key ≤ other := by
  have sorted := m.sorted
  unfold first at found
  cases shape : m.entries with
  | nil =>
    rw [shape] at found
    cases found
  | cons entry rest =>
    rw [shape] at found sorted
    cases found
    obtain ⟨least,_⟩ := List.pairwise_cons.mp sorted
    have here : m.get entry.1 = some entry.2 := getMem.mpr (by rw [shape]; exact List.mem_cons_self)
    refine ⟨by rw [here]; exact nofun,?_⟩
    intro other there
    obtain ⟨v,there⟩ := Option.ne_none_iff_exists'.mp there
    have member := getMem.mp there
    rw [shape] at member
    rcases List.mem_cons.mp member with same | later
    · rw [← same]
    · exact le_of_lt (least _ later)

theorem firstNone : m.first = none ↔ ∀ other, m.get other = none := by
  unfold first
  cases shape : m.entries with
  | nil => simp [get,shape]
  | cons entry rest =>
    simp only [List.head?_cons,Option.map_some,reduceCtorEq,false_iff]
    intro all
    have here : m.get entry.1 = some entry.2 := getMem.mpr (by rw [shape]; exact List.mem_cons_self)
    rw [all] at here
    cases here

theorem putNew {entries} (missing : ∀ entry ∈ entries, entry.1 ≠ key) :
    (put key value entries).Perm ((key,value) :: entries) := by
  induction entries with
  | nil => exact List.Perm.refl _
  | cons entry rest ih =>
    have other : key ≠ entry.1 := (missing entry List.mem_cons_self).symm
    rw [put,if_neg other]
    split
    · exact List.Perm.refl _
    · exact ((ih fun entry member => missing entry (List.mem_cons_of_mem _ member)).cons entry).trans (List.Perm.swap _ _ rest)

theorem entriesInsertNew (missing : m.get key = none) : (m.insert key value).entries.Perm ((key,value) :: m.entries) := putNew (getNone.mp missing)

theorem valuesInsertNew (missing : m.get key = none) : (m.insert key value).values.Perm (value :: m.values) :=
  (entriesInsertNew missing).map Prod.snd

end OrderedMap

end Bamts
