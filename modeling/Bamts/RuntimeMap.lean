import Bamts.RuntimeHeap
import Mathlib.Algebra.Order.BigOperators.Group.List
import Mathlib.Algebra.Order.Group.Nat

/-! Property maps: what a lookup finds and what the map is charged for after each operation. -/
set_option linter.all false
namespace Bamts.Runtime.PropertyMap

theorem getSome {map : PropertyMap} {key p} :
    map.get key = some p ↔ (key,p) ∈ map.entries := by
  obtain ⟨entries,distinct⟩ := map
  simp only [get]
  induction entries with
  | nil => simp
  | cons entry rest ih =>
    obtain ⟨k,q⟩ := entry
    obtain ⟨fresh,distinct⟩ := List.nodup_cons.mp distinct
    by_cases same : k = key
    · subst same
      have away : (k,p) ∉ rest := fun member => fresh (List.mem_map.mpr ⟨_,member,rfl⟩)
      simp [away,eq_comm]
    · simp [same,ih distinct,Ne.symm same]

theorem containsIff {map : PropertyMap} {key} : map.containsKey key = true ↔ key ∈ map.keys := by
  rw [containsKey,Option.isSome_iff_ne_none,ne_eq,getNone,not_not]

theorem getInsert (map : PropertyMap) (key p k) :
    (map.insert key p).get k = if k = key then some p else map.get k := by
  unfold insert
  by_cases found : key ∈ map.keys
  · obtain ⟨⟨name,q⟩,member,here⟩ := List.mem_map.mp found
    rw [dif_pos found]
    by_cases same : k = key
    · subst same
      rw [if_pos rfl,getSome]
      exact List.mem_map.mpr ⟨_,member,if_pos here⟩
    · rw [if_neg same]
      apply Option.ext
      intro r
      rw [getSome,getSome]
      simp only [replace,List.mem_map]
      refine ⟨?_,fun inside => ⟨_,inside,if_neg same⟩⟩
      intro image
      obtain ⟨entry,inside,eq⟩ := image
      by_cases here : entry.1 = key
      · rw [if_pos here] at eq
        exact absurd (congrArg Prod.fst eq).symm same
      · rw [if_neg here] at eq
        exact eq ▸ inside
  · rw [dif_neg found]
    simp only [get,List.find?_append,Option.map_or]
    by_cases same : k = key
    · subst same
      have none_ := getNone.mpr found
      rw [get] at none_
      simp [none_]
    · simp [same,Ne.symm same]

-- The bytes of the entries that `counts`.
def row (counts : Property → Bool) (entry : PropertyKey × Property) : Nat :=
  if counts entry.2 then entry.1.chargeBytes+entry.2.chargeBytes else 0

def charged (map : PropertyMap) (counts : Property → Bool) : Nat := (map.entries.map (row counts)).sum

def weight (map : PropertyMap) (counts : Property → Bool) (key : PropertyKey) : Nat :=
  (map.get key).elim 0 fun p => row counts (key,p)

variable {counts : Property → Bool}

theorem chargedAll (map : PropertyMap) (all : ∀ p, counts p = true) : map.charged counts = map.chargeBytes := by
  refine congrArg List.sum (List.map_congr_left fun entry _ => ?_)
  simp [row,all]

theorem replaceOther {entries key} (away : key ∉ entries.map Prod.fst) (p) : replace entries key p = entries := by
  refine (List.map_congr_left fun entry member => if_neg ?_).trans (List.map_id _)
  exact fun same => away (List.mem_map.mpr ⟨entry,member,same⟩)

theorem replaceCharge {entries} (distinct : (entries.map Prod.fst).Nodup) {key q} (found : (key,q) ∈ entries) (p) :
    ((replace entries key p).map (row counts)).sum + row counts (key,q) =
      (entries.map (row counts)).sum + row counts (key,p) := by
  induction entries with
  | nil => cases found
  | cons entry rest ih =>
    obtain ⟨fresh,distinct⟩ := List.nodup_cons.mp distinct
    rcases List.mem_cons.mp found with same | later
    · subst same
      have kept : replace rest key p = rest := replaceOther fresh p
      simp only [replace] at kept
      simp only [replace,List.map_cons,if_true,kept,List.sum_cons]
      omega
    · have other : entry.1 ≠ key := fun same => fresh (List.mem_map.mpr ⟨_,later,same.symm⟩)
      have := ih distinct later
      simp only [replace] at this
      simp only [replace,List.map_cons,other,if_false,List.sum_cons]
      omega

theorem chargedInsert (map : PropertyMap) (key p) :
    (map.insert key p).charged counts + map.weight counts key = map.charged counts + row counts (key,p) := by
  unfold insert weight
  by_cases found : key ∈ map.keys
  · obtain ⟨⟨_,q⟩,member,rfl⟩ := List.mem_map.mp found
    rw [dif_pos found,getSome.mpr member]
    exact replaceCharge map.distinct member p
  · rw [dif_neg found,getNone.mpr found]
    simp [charged]

theorem chargedFilter (map : PropertyMap) (keep) :
    (map.filter keep).charged counts ≤ map.charged counts :=
  (List.filter_sublist.map (row counts)).sum_le_sum fun _ _ => Nat.zero_le _

theorem chargedRemove (map : PropertyMap) (key) :
    (map.remove key).charged counts + map.weight counts key ≤ map.charged counts := by
  unfold weight
  cases found : map.get key with
  | none => exact chargedFilter map _
  | some q =>
    obtain ⟨entries,distinct⟩ := map
    have member := getSome.mp found
    clear found
    simp only [charged,remove,filter,Option.elim_some] at member ⊢
    induction entries with
    | nil => cases member
    | cons entry rest ih =>
      obtain ⟨fresh,distinct⟩ := List.nodup_cons.mp distinct
      rcases List.mem_cons.mp member with same | later
      · subst same
        have less : ((rest.filter fun entry => entry.1 != key).map (row counts)).sum ≤ (rest.map (row counts)).sum :=
          (List.filter_sublist.map (row counts)).sum_le_sum fun _ _ => Nat.zero_le _
        simp only [List.filter_cons,bne_self_eq_false,List.map_cons,List.sum_cons]
        simp only [Bool.false_eq_true,if_false]
        omega
      · have other : entry.1 ≠ key := fun same => fresh (List.mem_map.mpr ⟨_,later,same.symm⟩)
        have := ih distinct later
        simp only [List.filter_cons,bne_iff_ne.mpr other,if_true,List.map_cons,List.sum_cons]
        omega

end Bamts.Runtime.PropertyMap
