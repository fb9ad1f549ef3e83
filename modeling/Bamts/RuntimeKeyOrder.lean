import Bamts.RuntimeAscii

/-! The order of own keys: the indices of an array by number, then the other strings and then the symbols as they were created. -/
set_option linter.all false
namespace Bamts.Runtime
open Bytecode

structure Listed (keys listed : List PropertyKey) : Prop where
  once : listed.Nodup
  complete : ∀ key, key ∈ listed ↔ key ∈ keys ∧ key.isPrivate = false
  order : ∃ indices, listed = indices ++ plainNames keys ++ symbols keys ∧ (∀ key ∈ indices, key.index.isSome = true) ∧
    indices.Pairwise fun a b => ∃ i j, a.index = some i ∧ b.index = some j ∧ i < j

section
variable {keys : List PropertyKey} {key : PropertyKey}

theorem indexNamed {index} (found : key.index = some index) : key = .named (decimal index) := by
  cases key with
  | named name => rw [(arrayIndexSome found).1]
  | symbol _ => cases found
  | «private» _ => cases found

theorem memIndexed {entry} : entry ∈ keys.filterMap indexed ↔ entry.2 ∈ keys ∧ entry.2.index = some entry.1 := by
  simp only [List.mem_filterMap,indexed,Option.map_eq_some_iff]
  constructor
  · intro found
    obtain ⟨key,inside,index,indexed,same⟩ := found
    rw [← same]
    exact ⟨inside,indexed⟩
  · intro found
    exact ⟨entry.2,found.1,entry.1,found.2,rfl⟩

theorem memSorted {entry} : entry ∈ sortByIndex (keys.filterMap indexed) ↔ entry.2 ∈ keys ∧ entry.2.index = some entry.1 :=
  (List.mergeSort_perm _ _).mem_iff.trans memIndexed

theorem sortedIndices (distinct : keys.Nodup) : (sortByIndex (keys.filterMap indexed)).Pairwise fun a b => a.1 < b.1 := by
  have sorted := @List.pairwise_mergeSort _ (fun left right : Nat × PropertyKey => decide (left.1 ≤ right.1))
    (fun a b c first second => by simp only [decide_eq_true_eq] at first second ⊢; omega)
    (fun a b => by simp only [Bool.or_eq_true,decide_eq_true_eq]; omega) (keys.filterMap indexed)
  have apart : (keys.filterMap indexed).Nodup := by
    refine distinct.filterMap fun a b entry first second => ?_
    obtain ⟨_,_,same⟩ := Option.map_eq_some_iff.mp first
    obtain ⟨_,_,same'⟩ := Option.map_eq_some_iff.mp second
    exact congrArg Prod.snd (same.trans same'.symm)
  have distinct' : (sortByIndex (keys.filterMap indexed)).Nodup := (List.mergeSort_perm _ _).nodup_iff.mpr apart
  refine (List.Pairwise.and sorted distinct').imp_of_mem fun {a b} first second ordered => ?_
  obtain ⟨below,different⟩ := ordered
  refine lt_of_le_of_ne (of_decide_eq_true below) fun same => different (Prod.ext same ?_)
  rw [indexNamed (memSorted.mp first).2,indexNamed (memSorted.mp second).2,same]

theorem memPlainNames : key ∈ plainNames keys ↔ key ∈ keys ∧ key.asString.isSome = true ∧ key.index = none := by
  simp [plainNames]

theorem memSymbols : key ∈ symbols keys ↔ key ∈ keys ∧ key.asString = none ∧ key.isPrivate = false := by
  cases key <;> simp [symbols,PropertyKey.asString,PropertyKey.isPrivate]

theorem indexString (found : key.index.isSome = true) : key.asString.isSome = true := by
  cases key with
  | named _ => rfl
  | symbol _ => cases found
  | «private» _ => cases found

theorem stringPublic (text : key.asString.isSome = true) : key.isPrivate = false := by
  cases key with
  | named _ => rfl
  | symbol _ => rfl
  | «private» _ => cases text

theorem keysListed (properties) : Listed properties.keys (orderedPropertyKeys properties) := by
  have distinct : properties.keys.Nodup := properties.distinct
  have sorted := sortedIndices distinct
  have mem : ∀ key, key ∈ (sortByIndex (properties.keys.filterMap indexed)).map Prod.snd ↔ key ∈ properties.keys ∧ key.index.isSome = true := by
    intro key
    rw [List.mem_map]
    constructor
    · intro found
      obtain ⟨entry,inside,same⟩ := found
      obtain ⟨listed,index⟩ := memSorted.mp inside
      exact same ▸ ⟨listed,by rw [index]; rfl⟩
    · intro found
      obtain ⟨index,indexed⟩ := Option.isSome_iff_exists.mp found.2
      exact ⟨(index,key),memSorted.mpr ⟨found.1,indexed⟩,rfl⟩
  have ascending : ((sortByIndex (properties.keys.filterMap indexed)).map Prod.snd).Pairwise
      fun a b => ∃ i j, a.index = some i ∧ b.index = some j ∧ i < j := by
    refine List.pairwise_map.mpr (sorted.imp_of_mem fun {a b} first second below => ?_)
    exact ⟨a.1,b.1,(memSorted.mp first).2,(memSorted.mp second).2,below⟩
  unfold orderedPropertyKeys
  refine ⟨?_,fun key => ?_,_,rfl,fun key inside => ((mem key).mp inside).2,ascending⟩
  · refine List.nodup_append.mpr ⟨List.nodup_append.mpr ⟨?_,distinct.filter _,fun a first b second same => ?_⟩,distinct.filter _,
      fun a first b second same => ?_⟩
    · refine ascending.imp fun {a b} below same => ?_
      obtain ⟨i,j,first,second,less⟩ := below
      rw [same,second] at first
      exact absurd (Option.some.inj first) (Nat.ne_of_gt less)
    · have index := ((mem a).mp first).2
      rw [same,(memPlainNames.mp second).2.2] at index
      cases index
    · have symbol := (memSymbols.mp second).2.1
      rw [← same] at symbol
      have text : a.asString.isSome = true := by
        obtain early | late := List.mem_append.mp first
        · exact indexString ((mem a).mp early).2
        · exact (memPlainNames.mp late).2.1
      rw [symbol] at text
      cases text
  · simp only [List.mem_append,mem,memPlainNames,memSymbols,← and_or_left]
    refine and_congr_right fun _ => ?_
    constructor
    · intro kind
      obtain (index | plain) | symbol := kind
      · exact stringPublic (indexString index)
      · exact stringPublic plain.1
      · exact symbol.2
    · intro open_
      cases text : key.asString with
      | none => exact Or.inr ⟨rfl,open_⟩
      | some name =>
        cases index : key.index with
        | none => exact Or.inl (Or.inr ⟨rfl,rfl⟩)
        | some offset => exact Or.inl (Or.inl rfl)

end

theorem ownKeysOrdered : (∀ properties, Listed properties.keys (orderedPropertyKeys properties)) ∧
    (∀ text index, arrayIndex text = some index ↔ text = decimal index ∧ index < 2^32-1) ∧
    ∀ name : { text : String // isAscii text = true }, arrayIndexText name = arrayIndex (ascii name) := by
  refine ⟨keysListed,fun text index => ⟨arrayIndexSome,fun spelled => ?_⟩,fun name => arrayIndexAgrees name.2⟩
  rw [spelled.1]
  exact arrayIndexDecimal spelled.2

end Bamts.Runtime
