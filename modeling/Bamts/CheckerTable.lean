import Bamts.CheckerType
import Mathlib.Data.List.Sort
import Mathlib.Data.List.Perm.Subperm
import Mathlib.Logic.Relation

/-! The table that interns the types of the checker. A union is stored in the order it was first made in and indexed under its
sorted members, so what it is made of settles its id as long as `any` and `unknown` do not compete. -/
set_option linter.all false
namespace Bamts.Checker

structure TypeTable where
  types : List «Type»
  index : «Type» → Option TypeId
  error : TypeId
  any : TypeId
  unknown : TypeId
  never : TypeId
  void : TypeId
  null : TypeId
  undefined : TypeId
  boolean : TypeId
  number : TypeId
  bigint : TypeId
  string : TypeId
  symbol : TypeId
  object : TypeId

namespace TypeTable

def get (table : TypeTable) (id : TypeId) : «Type» := table.types[id.get]?.getD .error

def push (table : TypeTable) (stored key : «Type») : TypeTable :=
  { table with types := table.types ++ [stored], index := Function.update table.index key (some ⟨table.types.length⟩) }

def intern (table : TypeTable) (ty : «Type») : TypeTable × TypeId :=
  match table.index ty with
  | some existing => (table,existing)
  | none => (table.push ty ty,⟨table.types.length⟩)

def empty : TypeTable :=
  ⟨[],fun _ => none,⟨0⟩,⟨0⟩,⟨0⟩,⟨0⟩,⟨0⟩,⟨0⟩,⟨0⟩,⟨0⟩,⟨0⟩,⟨0⟩,⟨0⟩,⟨0⟩,⟨0⟩⟩

def new : TypeTable :=
  let (table,error) := empty.intern .error
  let (table,any) := table.intern .any
  let (table,unknown) := table.intern .unknown
  let (table,never) := table.intern .never
  let (table,void) := table.intern .void
  let (table,null) := table.intern .null
  let (table,undefined) := table.intern .undefined
  let (table,boolean) := table.intern .boolean
  let (table,number) := table.intern .number
  let (table,bigint) := table.intern .bigInt
  let (table,string) := table.intern .string
  let (table,symbol) := table.intern .symbol
  let (table,object) := table.intern .object
  { table with
    error := error, any := any, unknown := unknown, never := never, void := void, null := null, undefined := undefined,
    boolean := boolean, number := number, bigint := bigint, string := string, symbol := symbol, object := object }

def pushNew {Member : Type} [DecidableEq Member] (flat : List Member) (member : Member) : List Member :=
  if member ∈ flat then flat else flat ++ [member]

-- `error` carries the member that absorbs all others.
def flatten (table : TypeTable) (flat : List TypeId) : List TypeId → Except TypeId (List TypeId)
  | [] => .ok flat
  | member :: rest =>
    match table.get member with
    | .any => .error table.any
    | .unknown => .error table.unknown
    | .never => table.flatten flat rest
    | .union nested => table.flatten (nested.foldl pushNew flat) rest
    | _ => table.flatten (pushNew flat member) rest

def canonical (flat : List TypeId) : List TypeId := flat.insertionSort fun a b => a.get ≤ b.get

def union (table : TypeTable) (members : List TypeId) : TypeTable × TypeId :=
  match table.flatten [] members with
  | .error absorbing => (table,absorbing)
  | .ok [] => (table,table.never)
  | .ok [only] => (table,only)
  | .ok flat =>
    match table.index (.union (canonical flat)) with
    | some existing => (table,existing)
    | none => (table.push (.union flat) (.union (canonical flat)),⟨table.types.length⟩)

def Valid (table : TypeTable) (id : TypeId) : Prop := id.get < table.types.length

instance (table : TypeTable) (id : TypeId) : Decidable (table.Valid id) := inferInstanceAs (Decidable (_ < _))

-- Every type that the checker interns by itself is no union; unions are made by `union` alone.
inductive Step (table : TypeTable) : TypeTable → Prop
  | intern (ty : «Type») (plain : ∀ members, ty ≠ .union members) : Step table (table.intern ty).1
  | union (members : List TypeId) (valid : ∀ member ∈ members, table.Valid member) : Step table (table.union members).1

def Later : TypeTable → TypeTable → Prop := Relation.ReflTransGen Step

def parts (table : TypeTable) (member : TypeId) : List TypeId :=
  match table.get member with
  | .never => []
  | .union nested => nested
  | _ => [member]

def constituents (table : TypeTable) (members : List TypeId) : Set TypeId := {id | ∃ member ∈ members, id ∈ table.parts member}

def absorbing (table : TypeTable) (members : List TypeId) : Option «Type» :=
  (members.map table.get).find? fun ty => ty = .any ∨ ty = .unknown

def Single (ty : «Type») : Prop := ty ≠ .any ∧ ty ≠ .unknown ∧ ty ≠ .never ∧ ∀ members, ty ≠ .union members

def key : «Type» → «Type»
  | .union members => .union (canonical members)
  | ty => ty

structure Made (table : TypeTable) (members : List TypeId) : Prop where
  several : 2 ≤ members.length
  distinct : members.Nodup
  plain : ∀ member ∈ members, table.Valid member ∧ Single (table.get member)

structure Indexed (table : TypeTable) : Prop where
  named : ∀ id, table.Valid id → table.index (key (table.get id)) = some id
  stored : ∀ ty id, table.index ty = some id → table.Valid id ∧ key (table.get id) = ty
  made : ∀ id members, table.Valid id → table.get id = .union members → table.Made members

structure Sound (table : TypeTable) : Prop extends Indexed table where
  any : table.Valid table.any ∧ table.get table.any = .any
  unknown : table.Valid table.unknown ∧ table.get table.unknown = .unknown
  never : table.Valid table.never ∧ table.get table.never = .never

structure Kept (table later : TypeTable) : Prop where
  types : table.types <+: later.types
  any : later.any = table.any
  unknown : later.unknown = table.unknown
  never : later.never = table.never

section
variable {table later : TypeTable} {id : TypeId} {members : List TypeId} {ty : «Type»}

theorem Kept.refl (table) : Kept table table := ⟨List.prefix_rfl,rfl,rfl,rfl⟩

theorem Kept.trans {last} (first : Kept table later) (second : Kept later last) : Kept table last :=
  ⟨first.types.trans second.types,second.any.trans first.any,second.unknown.trans first.unknown,second.never.trans first.never⟩

theorem Kept.push (table stored key) : Kept table (table.push stored key) := ⟨⟨[stored],rfl⟩,rfl,rfl,rfl⟩

theorem Kept.valid (kept : Kept table later) (valid : table.Valid id) : later.Valid id := lt_of_lt_of_le valid kept.types.length_le

theorem Kept.get (kept : Kept table later) (valid : table.Valid id) : later.get id = table.get id := by
  obtain ⟨more,types⟩ := kept.types
  unfold TypeTable.get
  rw [← types,List.getElem?_append_left valid]

theorem Kept.parts (kept : Kept table later) (valid : table.Valid id) : later.parts id = table.parts id := by
  unfold TypeTable.parts
  rw [kept.get valid]

theorem Kept.constituents (kept : Kept table later) (valid : ∀ member ∈ members, table.Valid member) :
    later.constituents members = table.constituents members := by
  ext id
  have same : ∀ member ∈ members, (id ∈ later.parts member ↔ id ∈ table.parts member) := fun member inside => by
    rw [kept.parts (valid member inside)]
  exact exists_congr fun member => and_congr_right (same member)

theorem Kept.absorbing (kept : Kept table later) (valid : ∀ member ∈ members, table.Valid member) :
    later.absorbing members = table.absorbing members := by
  unfold TypeTable.absorbing
  rw [List.map_congr_left fun member inside => kept.get (valid member inside)]

theorem Kept.made (kept : Kept table later) (made : table.Made members) : later.Made members := by
  refine ⟨made.several,made.distinct,fun member inside => ?_⟩
  obtain ⟨valid,single⟩ := made.plain member inside
  exact ⟨kept.valid valid,by rwa [kept.get valid]⟩

theorem getPush (table : TypeTable) (stored key) : (table.push stored key).get ⟨table.types.length⟩ = stored := by
  simp [get,push]

theorem validPush {stored key} (valid : (table.push stored key).Valid id) : table.Valid id ∨ id = ⟨table.types.length⟩ := by
  have bound : id.get < table.types.length+1 := by simpa [Valid,push] using valid
  obtain before | last := Nat.lt_succ_iff_lt_or_eq.mp bound
  · exact Or.inl before
  · exact Or.inr (congrArg TypeId.mk last)

theorem Indexed.push (indexed : Indexed table) (new : table.index (key ty) = none) (made : ∀ members, ty = .union members → table.Made members) :
    Indexed (table.push ty (key ty)) := by
  have kept := Kept.push table ty (key ty)
  have fresh : (table.push ty (key ty)).Valid ⟨table.types.length⟩ := by simp [Valid,TypeTable.push]
  have index : ∀ other, (table.push ty (key ty)).index other = if other = key ty then some ⟨table.types.length⟩ else table.index other :=
    fun other => Function.update_apply _ _ _ _
  refine ⟨fun id valid => ?_,fun other id found => ?_,fun id members valid stored => ?_⟩
  · obtain old | last := validPush valid
    · rw [kept.get old,index,if_neg]
      · exact indexed.named id old
      · intro same
        rw [← same,indexed.named id old] at new
        cases new
    · rw [last,getPush,index,if_pos rfl]
  · rw [index] at found
    split at found
    · rename_i same
      rw [← Option.some.inj found,getPush]
      exact ⟨fresh,same.symm⟩
    · obtain ⟨valid,named⟩ := indexed.stored other id found
      exact ⟨kept.valid valid,by rw [kept.get valid,named]⟩
  · obtain old | last := validPush valid
    · exact kept.made (indexed.made id members old (by rw [← kept.get old,stored]))
    · rw [last,getPush] at stored
      exact kept.made (made members stored)

theorem Sound.push (sound : Sound table) (new : table.index (key ty) = none) (made : ∀ members, ty = .union members → table.Made members) :
    Sound (table.push ty (key ty)) := by
  have kept := Kept.push table ty (key ty)
  refine ⟨sound.toIndexed.push new made,?_,?_,?_⟩
  · exact ⟨kept.valid sound.any.1,(kept.get sound.any.1).trans sound.any.2⟩
  · exact ⟨kept.valid sound.unknown.1,(kept.get sound.unknown.1).trans sound.unknown.2⟩
  · exact ⟨kept.valid sound.never.1,(kept.get sound.never.1).trans sound.never.2⟩

theorem Indexed.idOfKey (indexed : Indexed table) {other} (valid : table.Valid id) (valid' : table.Valid other)
    (same : key (table.get id) = key (table.get other)) : id = other :=
  Option.some.inj ((indexed.named id valid).symm.trans (same ▸ indexed.named other valid'))

end

section
variable {flat other : List TypeId}

theorem canonicalPerm (flat) : (canonical flat).Perm flat := List.perm_insertionSort _ _

theorem canonicalSorted (flat) : (canonical flat).Pairwise fun a b => a.get ≤ b.get := by
  exact List.pairwise_insertionSort _ flat

theorem canonicalSame (same : flat.Perm other) : canonical flat = canonical other := by
  refine List.Perm.eq_of_pairwise ?_ (canonicalSorted flat) (canonicalSorted other)
    ((canonicalPerm flat).trans (same.trans (canonicalPerm other).symm))
  intro a b _ _ below above
  exact congrArg TypeId.mk (Nat.le_antisymm below above)

theorem canonicalInjective (same : canonical flat = canonical other) : flat.Perm other :=
  (canonicalPerm flat).symm.trans (same ▸ canonicalPerm other)

theorem memPushNew {Member} [DecidableEq Member] {flat : List Member} {member id} : id ∈ pushNew flat member ↔ id ∈ flat ∨ id = member := by
  unfold pushNew
  split
  · rename_i old
    exact ⟨Or.inl,fun either => either.elim (fun inside => inside) fun same => same ▸ old⟩
  · simp

theorem nodupPushNew {Member} [DecidableEq Member] {flat : List Member} {member} (distinct : flat.Nodup) : (pushNew flat member).Nodup := by
  unfold pushNew
  split
  · exact distinct
  · rename_i new
    exact List.nodup_append.mpr ⟨distinct,List.nodup_singleton _,fun a inside b last same => new (List.mem_singleton.mp last ▸ same ▸ inside)⟩

theorem pushNewAll {Member} [DecidableEq Member] (members flat : List Member) :
    (∀ id, id ∈ members.foldl pushNew flat ↔ id ∈ flat ∨ id ∈ members) ∧ (flat.Nodup → (members.foldl pushNew flat).Nodup) := by
  induction members generalizing flat with
  | nil => exact ⟨by simp,fun distinct => distinct⟩
  | cons head tail ih =>
    obtain ⟨mem,distinct⟩ := ih (pushNew flat head)
    refine ⟨fun id => ?_,fun before => distinct (nodupPushNew before)⟩
    rw [List.foldl_cons,mem,memPushNew,List.mem_cons,or_assoc]

end

section
variable {table : TypeTable} {members : List TypeId}

def absorber (table : TypeTable) (ty : «Type») : TypeId := if ty = .any then table.any else table.unknown

@[simp] theorem absorbingNil : table.absorbing [] = none := rfl

theorem absorbingCons (member rest) : table.absorbing (member :: rest) =
    if table.get member = .any ∨ table.get member = .unknown then some (table.get member) else table.absorbing rest := by
  unfold absorbing
  by_cases absorbs : table.get member = .any ∨ table.get member = .unknown <;> simp [absorbs]

theorem constituentsCons (member rest) :
    table.constituents (member :: rest) = {id | id ∈ table.parts member} ∪ table.constituents rest := by
  ext id
  simp [constituents]

theorem flattenAbsorbs {ty} (absorbs : table.absorbing members = some ty) (flat) :
    table.flatten flat members = .error (table.absorber ty) := by
  induction members generalizing flat with
  | nil => cases absorbs
  | cons member rest ih =>
    rw [absorbingCons] at absorbs
    unfold flatten
    split at absorbs
    · rename_i either
      rw [← Option.some.inj absorbs]
      obtain any | unknown := either
      · rw [any]
        rfl
      · rw [unknown]
        rfl
    · rename_i neither
      obtain ⟨noAny,noUnknown⟩ := not_or.mp neither
      split
      · exact absurd ‹_› noAny
      · exact absurd ‹_› noUnknown
      all_goals exact ih absorbs _

theorem flattenCollects (open_ : table.absorbing members = none) (flat) : ∃ all, table.flatten flat members = .ok all ∧
    (∀ id, id ∈ all ↔ id ∈ flat ∨ id ∈ table.constituents members) ∧ (flat.Nodup → all.Nodup) := by
  induction members generalizing flat with
  | nil => exact ⟨flat,rfl,by simp [constituents],fun distinct => distinct⟩
  | cons member rest ih =>
    rw [absorbingCons] at open_
    split at open_
    · cases open_
    rename_i neither
    obtain ⟨noAny,noUnknown⟩ := not_or.mp neither
    rw [constituentsCons]
    unfold flatten
    split
    · exact absurd ‹_› noAny
    · exact absurd ‹_› noUnknown
    · rename_i isNever
      obtain ⟨all,run,mem,distinct⟩ := ih open_ flat
      exact ⟨all,run,fun id => by simpa [parts,isNever] using mem id,distinct⟩
    · rename_i nested isUnion
      obtain ⟨all,run,mem,distinct⟩ := ih open_ (nested.foldl pushNew flat)
      obtain ⟨pushed,kept⟩ := pushNewAll nested flat
      refine ⟨all,run,fun id => ?_,fun before => distinct (kept before)⟩
      rw [mem,pushed,Set.mem_union,or_assoc]
      simp [parts,isUnion]
    · rename_i notNever notUnion
      obtain ⟨all,run,mem,distinct⟩ := ih open_ (pushNew flat member)
      refine ⟨all,run,fun id => ?_,fun before => distinct (nodupPushNew before)⟩
      have alone : table.parts member = [member] := by
        unfold parts
        split
        · exact absurd ‹_› notNever
        · exact absurd ‹_› (notUnion _)
        · rfl
      rw [mem,memPushNew,Set.mem_union,or_assoc]
      simp [alone]

end

section
variable {table later : TypeTable} {members : List TypeId} {id : TypeId}

structure Names (table : TypeTable) (set : Set TypeId) (id : TypeId) : Prop where
  valid : table.Valid id
  concrete : table.get id ≠ .any ∧ table.get id ≠ .unknown
  same : ∀ part, part ∈ table.parts id ↔ part ∈ set

theorem partsSingle (single : Single (table.get id)) : table.parts id = [id] := by
  unfold parts
  split
  · exact absurd ‹_› single.2.2.1
  · exact absurd ‹_› (single.2.2.2 _)
  · rfl

theorem Names.kept {set} (names : Names table set id) (kept : Kept table later) : Names later set id := by
  refine ⟨kept.valid names.valid,?_,?_⟩
  · rw [kept.get names.valid]
    exact names.concrete
  · rw [kept.parts names.valid]
    exact names.same

-- A concrete id is `never`, a stored union or a type that stands for itself.
theorem concreteCases (concrete : table.get id ≠ .any ∧ table.get id ≠ .unknown) :
    table.get id = .never ∨ (∃ nested, table.get id = .union nested) ∨ Single (table.get id) := by
  by_cases isNever : table.get id = .never
  · exact Or.inl isNever
  by_cases isUnion : ∃ nested, table.get id = .union nested
  · exact Or.inr (Or.inl isUnion)
  · exact Or.inr (Or.inr ⟨concrete.1,concrete.2,isNever,not_exists.mp isUnion⟩)

theorem Made.notBelow (made : table.Made members) (list : List TypeId) (short : list.length ≤ 1) : ¬∀ part, part ∈ members ↔ part ∈ list := by
  intro same
  have below : members.length ≤ list.length := (List.subperm_of_subset made.distinct fun part inside => (same part).mp inside).length_le
  have several := made.several
  omega

theorem Indexed.namesUnique (indexed : Indexed table) {set other} (first : Names table set id) (second : Names table set other) : id = other := by
  have same : ∀ part, part ∈ table.parts id ↔ part ∈ table.parts other := fun part => (first.same part).trans (second.same part).symm
  have back : ∀ part, part ∈ table.parts other ↔ part ∈ table.parts id := fun part => (same part).symm
  have unionParts : ∀ {x nested}, table.get x = .union nested → table.parts x = nested := fun found => by simp [parts,found]
  have neverParts : ∀ {x}, table.get x = .never → table.parts x = [] := fun found => by simp [parts,found]
  obtain never | ⟨nested,isUnion⟩ | single := concreteCases first.concrete
  · obtain never' | ⟨nested',isUnion'⟩ | single' := concreteCases second.concrete
    · exact indexed.idOfKey first.valid second.valid (by rw [never,never'])
    · rw [neverParts never,unionParts isUnion'] at back
      exact absurd back ((indexed.made other nested' second.valid isUnion').notBelow [] (Nat.zero_le 1))
    · rw [neverParts never,partsSingle single'] at back
      exact absurd ((back other).mp (List.mem_singleton_self other)) List.not_mem_nil
  · have made := indexed.made id nested first.valid isUnion
    rw [unionParts isUnion] at same
    obtain never' | ⟨nested',isUnion'⟩ | single' := concreteCases second.concrete
    · rw [neverParts never'] at same
      exact absurd same (made.notBelow [] (Nat.zero_le 1))
    · rw [unionParts isUnion'] at same
      have perm := (List.perm_ext_iff_of_nodup made.distinct (indexed.made other nested' second.valid isUnion').distinct).mpr same
      exact indexed.idOfKey first.valid second.valid (by rw [isUnion,isUnion',key,key,canonicalSame perm])
    · rw [partsSingle single'] at same
      exact absurd same (made.notBelow [other] (le_refl 1))
  · rw [partsSingle single] at same back
    obtain never' | ⟨nested',isUnion'⟩ | single' := concreteCases second.concrete
    · rw [neverParts never'] at same
      exact absurd ((same id).mp (List.mem_singleton_self id)) List.not_mem_nil
    · rw [unionParts isUnion'] at back
      exact absurd back ((indexed.made other nested' second.valid isUnion').notBelow [id] (le_refl 1))
    · rw [partsSingle single'] at same
      exact List.mem_singleton.mp ((same id).mp (List.mem_singleton_self id))

theorem constituentPlain (sound : Sound table) (valid : ∀ member ∈ members, table.Valid member) (open_ : table.absorbing members = none)
    {part} (inside : part ∈ table.constituents members) : table.Valid part ∧ Single (table.get part) := by
  obtain ⟨member,listed,within⟩ := inside
  have concrete : table.get member ≠ .any ∧ table.get member ≠ .unknown := by
    have none := List.find?_eq_none.mp open_ (table.get member) (List.mem_map_of_mem listed)
    simpa [not_or] using none
  obtain never | ⟨nested,isUnion⟩ | single := concreteCases concrete
  · simp [parts,never] at within
  · have made := sound.made member nested (valid member listed) isUnion
    exact made.plain part (by simpa [parts,isUnion] using within)
  · rw [partsSingle single,List.mem_singleton] at within
    exact within ▸ ⟨valid member listed,single⟩

structure Interned (table : TypeTable) (set : Set TypeId) (result : TypeTable × TypeId) : Prop where
  sound : Sound result.1
  kept : Kept table result.1
  names : Names result.1 set result.2

theorem unionNames (sound : Sound table) (valid : ∀ member ∈ members, table.Valid member) (open_ : table.absorbing members = none) :
    Interned table (table.constituents members) (table.union members) := by
  obtain ⟨all,run,mem,distinct⟩ := flattenCollects open_ []
  have plain : ∀ part ∈ all, table.Valid part ∧ Single (table.get part) := fun part inside =>
    constituentPlain sound valid open_ (((mem part).mp inside).resolve_left List.not_mem_nil)
  have mem : ∀ part, part ∈ all ↔ part ∈ table.constituents members := fun part => by simpa using mem part
  unfold union
  rw [run]
  obtain _ | ⟨first,_ | ⟨second,rest⟩⟩ := all
  · refine ⟨sound,Kept.refl table,sound.never.1,?_,fun part => ?_⟩
    · simp [sound.never.2]
    · rw [← mem]
      simp [parts,sound.never.2]
  · obtain ⟨there,single⟩ := plain first (List.mem_singleton_self first)
    refine ⟨sound,Kept.refl table,there,⟨single.1,single.2.1⟩,fun part => ?_⟩
    rw [← mem,partsSingle single]
  · have made : table.Made (first :: second :: rest) := ⟨by simp,distinct List.nodup_nil,plain⟩
    cases found : table.index (.union (canonical (first :: second :: rest))) with
    | some existing =>
      simp only
      rw [found]
      obtain ⟨there,stored⟩ := sound.stored _ _ found
      refine ⟨sound,Kept.refl table,there,?_,fun part => ?_⟩
      · constructor <;> intro equal <;> rw [equal] at stored <;> cases stored
      · unfold key at stored
        split at stored
        · rename_i nested isUnion
          rw [← mem,parts,isUnion]
          exact (canonicalInjective («Type».union.inj stored)).mem_iff
        · rename_i other
          exact absurd stored (other _)
    | none =>
      simp only
      rw [found]
      have sound' : Sound (table.push (.union (first :: second :: rest)) (.union (canonical (first :: second :: rest)))) :=
        Sound.push sound found fun members same => «Type».union.inj same ▸ made
      refine ⟨sound',Kept.push table _ _,by simp [Valid,push],?_,fun part => ?_⟩
      · rw [getPush]
        exact ⟨«Type».noConfusion,«Type».noConfusion⟩
      · rw [← mem,parts,getPush]

end

section
variable {table later : TypeTable} {members : List TypeId} {id : TypeId} {ty : «Type»}

theorem keyPlain (plain : ∀ members, ty ≠ .union members) : key ty = ty := by
  unfold key
  split
  · exact absurd rfl (plain _)
  · rfl

theorem internKept (table ty) : Kept table (table.intern ty).1 := by
  unfold intern
  split
  · exact Kept.refl table
  · exact Kept.push table ty ty

theorem Indexed.intern (indexed : Indexed table) (plain : ∀ members, ty ≠ .union members) : Indexed (table.intern ty).1 := by
  unfold TypeTable.intern
  split
  · exact indexed
  · rename_i absent
    have pushed : Indexed (table.push ty (key ty)) := indexed.push (by rwa [keyPlain plain]) fun members same => absurd same (plain members)
    rwa [keyPlain plain] at pushed

theorem Sound.intern (sound : Sound table) (plain : ∀ members, ty ≠ .union members) : Sound (table.intern ty).1 := by
  have kept := internKept table ty
  refine ⟨sound.toIndexed.intern plain,?_,?_,?_⟩
  · exact kept.any ▸ ⟨kept.valid sound.any.1,(kept.get sound.any.1).trans sound.any.2⟩
  · exact kept.unknown ▸ ⟨kept.valid sound.unknown.1,(kept.get sound.unknown.1).trans sound.unknown.2⟩
  · exact kept.never ▸ ⟨kept.valid sound.never.1,(kept.get sound.never.1).trans sound.never.2⟩

theorem internGet (indexed : Indexed table) (plain : ∀ members, ty ≠ .union members) : (table.intern ty).1.get (table.intern ty).2 = ty := by
  unfold TypeTable.intern
  split
  · rename_i existing found
    obtain ⟨_,stored⟩ := indexed.stored ty existing found
    unfold key at stored
    split at stored
    · exact absurd stored.symm (plain _)
    · exact stored
  · exact getPush table ty ty

theorem unionAbsorbs (absorbs : table.absorbing members = some ty) : table.union members = (table,table.absorber ty) := by
  unfold union
  rw [flattenAbsorbs absorbs]

theorem unionKept (sound : Sound table) (valid : ∀ member ∈ members, table.Valid member) :
    Sound (table.union members).1 ∧ Kept table (table.union members).1 := by
  cases found : table.absorbing members with
  | none => exact ⟨(unionNames sound valid found).sound,(unionNames sound valid found).kept⟩
  | some ty =>
    rw [unionAbsorbs found]
    exact ⟨sound,Kept.refl table⟩

theorem Later.sound (later_ : Later table later) (sound : Sound table) : Sound later ∧ Kept table later := by
  induction later_ with
  | refl => exact ⟨sound,Kept.refl table⟩
  | tail _ step ih =>
    obtain ⟨sound,kept⟩ := ih
    cases step with
    | intern ty plain => exact ⟨sound.intern plain,kept.trans (internKept _ ty)⟩
    | union members valid =>
      obtain ⟨sound',kept'⟩ := unionKept sound valid
      exact ⟨sound',kept.trans kept'⟩

theorem emptyIndexed : Indexed empty :=
  ⟨fun _ valid => absurd valid (Nat.not_lt_zero _),fun _ _ found => absurd found (by simp [empty]),fun _ _ valid => absurd valid (Nat.not_lt_zero _)⟩

-- The primitive types, in the order `new` interns them.
def primitives : List «Type» :=
  [.error,.any,.unknown,.never,.void,.null,.undefined,.boolean,.number,.bigInt,.string,.symbol,.object]

theorem primitivesIndexed (list : List «Type») (plain : ∀ ty ∈ list, ∀ members, ty ≠ .union members) (indexed : Indexed table) :
    Indexed (list.foldl (fun table ty => (table.intern ty).1) table) := by
  induction list generalizing table with
  | nil => exact indexed
  | cons head rest ih =>
    exact ih (fun ty inside => plain ty (List.mem_cons_of_mem _ inside)) (indexed.intern (plain head List.mem_cons_self))

theorem newSound : Sound new := by
  have indexed : Indexed (primitives.foldl (fun table ty => (table.intern ty).1) empty) := by
    refine primitivesIndexed primitives (fun ty inside members same => ?_) emptyIndexed
    rw [same] at inside
    simp [primitives] at inside
  exact ⟨⟨indexed.named,indexed.stored,fun id members valid found =>
    have made := indexed.made id members valid found
    ⟨made.several,made.distinct,made.plain⟩⟩,⟨by decide,by decide⟩,⟨by decide,by decide⟩,
    ⟨by decide,by decide⟩⟩

end

section
variable {table : TypeTable}

-- What the table promises of its unions. The second of two unions is made at any time after the first.
structure Canonical (table : TypeTable) : Prop where
  agrees : ∀ members others, (∀ member ∈ members, table.Valid member) → (∀ other ∈ others, table.Valid other) →
    table.constituents members = table.constituents others → ∀ later, Later (table.union members).1 later →
    ((later.union others).2 = (table.union members).2 ↔ table.absorbing others = table.absorbing members)
  commutes : ∀ a b, table.Valid a → table.Valid b → ∀ later, Later (table.union [a,b]).1 later →
    ((later.union [b,a]).2 = (table.union [a,b]).2 ↔ table.absorbing [b,a] = table.absorbing [a,b])
  associates : ∀ a b c, table.Valid a → table.Valid b → table.Valid c →
    let ab := table.union [a,b]
    let left := ab.1.union [ab.2,c]
    let bc := left.1.union [b,c]
    (bc.1.union [a,bc.2]).2 = left.2
  nests : ∀ before members after, (∀ member ∈ before ++ members ++ after, table.Valid member) →
    ∀ later, Later (table.union members).1 later →
    let nested := later.union (before ++ (table.union members).2 :: after)
    ∀ last, Later nested.1 last → (last.union (before ++ members ++ after)).2 = nested.2
  repeats : ∀ a, table.Valid a → (table.union [a,a]).2 = a
  plain : ∀ id members, table.Valid id → table.get id = .union members →
    members.Nodup ∧ ∀ member ∈ members, table.Valid member ∧ table.get member ≠ .never ∧ table.get member ≠ .any ∧
      table.get member ≠ .unknown ∧ ∀ nested, table.get member ≠ .union nested
  again : ∀ id members order, table.Valid id → table.get id = .union members → order.Perm members → (table.union order).2 = id

theorem absorbingKinds {members ty} (absorbs : table.absorbing members = some ty) : ty = .any ∨ ty = .unknown := by
  simpa using List.find?_some absorbs

theorem absorbingListed {members ty} (absorbs : table.absorbing members = some ty) :
    ∃ member ∈ members, table.get member = ty := by
  obtain ⟨member,inside,same⟩ := List.mem_map.mp (List.mem_of_find?_eq_some absorbs)
  exact ⟨member,inside,same⟩

theorem absorbingAppend (before after) :
    table.absorbing (before ++ after) = (table.absorbing before).or (table.absorbing after) := by
  unfold absorbing
  rw [List.map_append,List.find?_append]

theorem absorbsToo (sound : Sound table) {members others} (valid : ∀ other ∈ others, table.Valid other)
    (same : table.constituents members = table.constituents others) (open_ : table.absorbing others = none) :
    table.absorbing members = none := by
  cases found : table.absorbing members with
  | none => rfl
  | some ty =>
    obtain ⟨member,inside,is⟩ := absorbingListed found
    have part : member ∈ table.constituents members := by
      refine ⟨member,inside,?_⟩
      obtain any | unknown := absorbingKinds found
      · simp [parts,is,any]
      · simp [parts,is,unknown]
    have single := (constituentPlain sound valid open_ (same ▸ part)).2
    rw [is] at single
    exact ((absorbingKinds found).elim single.1 single.2.1).elim

theorem Sound.absorberInjective (sound : Sound table) {a b} (first : a = .any ∨ a = .unknown) (second : b = .any ∨ b = .unknown)
    (same : table.absorber a = table.absorber b) : a = b := by
  have different : table.any ≠ table.unknown := fun equal => by
    have kinds := sound.any.2.symm.trans ((congrArg table.get equal).trans sound.unknown.2)
    cases kinds
  obtain isAny | isUnknown := first <;> obtain isAny' | isUnknown' := second
  · rw [isAny,isAny']
  · rw [isAny,isUnknown'] at same
    exact absurd same different
  · rw [isUnknown,isAny'] at same
    exact absurd same.symm different
  · rw [isUnknown,isUnknown']

theorem Kept.absorber {later} (kept : Kept table later) (ty) : later.absorber ty = table.absorber ty := by
  unfold TypeTable.absorber
  rw [kept.any,kept.unknown]

theorem unionSame (sound : Sound table) {later members others} (valid : ∀ member ∈ members, table.Valid member)
    (soundLater : Sound later) (keptLater : Kept (table.union members).1 later) (valid' : ∀ other ∈ others, later.Valid other)
    (absorbed : later.absorbing others = table.absorbing members)
    (same : table.absorbing members = none → later.constituents others = table.constituents members) :
    (later.union others).2 = (table.union members).2 := by
  obtain ⟨_,keptMade⟩ := unionKept sound valid
  cases found : table.absorbing members with
  | some ty => rw [unionAbsorbs found,unionAbsorbs (absorbed.trans found),(keptMade.trans keptLater).absorber]
  | none =>
    have first := unionNames sound valid found
    have second := unionNames soundLater valid' (absorbed.trans found)
    rw [same found] at second
    exact second.sound.namesUnique second.names (first.names.kept (keptLater.trans second.kept))

theorem unionDiffers (sound : Sound table) {later members others} (valid : ∀ member ∈ members, table.Valid member)
    (valid' : ∀ other ∈ others, table.Valid other) (constituents : table.constituents members = table.constituents others)
    (after : Later (table.union members).1 later) (same : (later.union others).2 = (table.union members).2) :
    table.absorbing others = table.absorbing members := by
  obtain ⟨soundMade,keptMade⟩ := unionKept sound valid
  obtain ⟨_,keptLater⟩ := after.sound soundMade
  have kept := keptMade.trans keptLater
  cases found : table.absorbing members with
  | none => exact absorbsToo sound valid constituents.symm found
  | some ty =>
    cases found' : table.absorbing others with
    | none => exact absurd (found.symm.trans (absorbsToo sound valid' constituents found')) (Option.some_ne_none ty)
    | some ty' =>
      rw [unionAbsorbs found,unionAbsorbs ((kept.absorbing valid').trans found'),kept.absorber] at same
      rw [sound.absorberInjective (absorbingKinds found') (absorbingKinds found) same]

theorem nestedAbsorbing (sound : Sound table) {members} (valid : ∀ member ∈ members, table.Valid member) {later}
    (kept : Kept (table.union members).1 later) : later.absorbing [(table.union members).2] = table.absorbing members := by
  rw [absorbingCons]
  cases found : table.absorbing members with
  | none =>
    have names := (unionNames sound valid found).names
    rw [kept.get names.valid,if_neg (not_or.mpr names.concrete),absorbingNil]
  | some ty =>
    rw [unionAbsorbs found] at kept ⊢
    obtain any | unknown := absorbingKinds found
    · rw [any]
      simp [absorber,kept.get sound.any.1,sound.any.2]
    · rw [unknown]
      simp [absorber,kept.get sound.unknown.1,sound.unknown.2]

theorem constituentsAppend (before after) :
    table.constituents (before ++ after) = table.constituents before ∪ table.constituents after := by
  ext id
  simp [constituents,or_and_right,exists_or]

theorem nestedConstituents (sound : Sound table) {members} (valid : ∀ member ∈ members, table.Valid member)
    (open_ : table.absorbing members = none) {later} (kept : Kept (table.union members).1 later) :
    later.constituents [(table.union members).2] = table.constituents members := by
  have names := (unionNames sound valid open_).names.kept kept
  ext part
  rw [← names.same]
  simp [constituents]

theorem unionValid (sound : Sound table) {members} (valid : ∀ member ∈ members, table.Valid member) :
    (table.union members).1.Valid (table.union members).2 := by
  cases found : table.absorbing members with
  | none => exact (unionNames sound valid found).names.valid
  | some ty =>
    rw [unionAbsorbs found]
    unfold absorber
    split
    · exact sound.any.1
    · exact sound.unknown.1

theorem nestedSame (sound : Sound table) (before members after) (valid : ∀ member ∈ before ++ members ++ after, table.Valid member)
    {later} (made : Later (table.union members).1 later) {last} (ran : Later (later.union (before ++ (table.union members).2 :: after)).1 last) :
    (last.union (before ++ members ++ after)).2 = (later.union (before ++ (table.union members).2 :: after)).2 := by
  simp only [List.mem_append,or_imp,forall_and] at valid
  obtain ⟨⟨validBefore,validMembers⟩,validAfter⟩ := valid
  obtain ⟨soundMade,keptMade⟩ := unionKept sound validMembers
  obtain ⟨soundLater,keptLater⟩ := made.sound soundMade
  have kept := keptMade.trans keptLater
  have validNested : ∀ member ∈ before ++ (table.union members).2 :: after, later.Valid member := by
    intro member inside
    obtain first | same | rest := (List.mem_append.mp inside).imp_right List.mem_cons.mp
    · exact kept.valid (validBefore member first)
    · exact same ▸ keptLater.valid (unionValid sound validMembers)
    · exact kept.valid (validAfter member rest)
  obtain ⟨soundRan,keptRan⟩ := unionKept soundLater validNested
  obtain ⟨soundLast,keptLast'⟩ := ran.sound soundRan
  have keptLast := kept.trans (keptRan.trans keptLast')
  have validAll : ∀ member ∈ before ++ members ++ after, table.Valid member := by
    simp only [List.mem_append,or_imp,forall_and]
    exact ⟨⟨validBefore,validMembers⟩,validAfter⟩
  have nested : before ++ (table.union members).2 :: after = before ++ [(table.union members).2] ++ after := by simp
  have absorbed : later.absorbing (before ++ (table.union members).2 :: after) = table.absorbing (before ++ members ++ after) := by
    rw [nested,absorbingAppend,absorbingAppend,absorbingAppend,absorbingAppend,nestedAbsorbing sound validMembers keptLater,
      kept.absorbing validBefore,kept.absorbing validAfter]
  refine unionSame soundLater validNested soundLast keptLast' (fun member inside => keptLast.valid (validAll member inside))
    ((keptLast.absorbing validAll).trans absorbed.symm) fun open_ => ?_
  have openMembers : table.absorbing members = none := by
    rw [absorbed,absorbingAppend,absorbingAppend] at open_
    exact (Option.or_eq_none_iff.mp (Option.or_eq_none_iff.mp open_).1).2
  rw [keptLast.constituents validAll,nested,constituentsAppend,constituentsAppend,constituentsAppend,constituentsAppend,
    nestedConstituents sound validMembers openMembers keptLater,kept.constituents validBefore,kept.constituents validAfter]

theorem repeatedSame (sound : Sound table) {a} (valid : table.Valid a) : (table.union [a,a]).2 = a := by
  have valid' : ∀ member ∈ [a,a], table.Valid member := by simp [valid]
  by_cases absorbs : table.get a = .any ∨ table.get a = .unknown
  · have absorbed : table.absorbing [a,a] = some (table.get a) := by rw [absorbingCons,if_pos absorbs]
    rw [unionAbsorbs absorbed]
    obtain any | unknown := absorbs
    · rw [any]
      exact sound.idOfKey sound.any.1 valid (by rw [absorber,if_pos rfl,sound.any.2,any])
    · rw [unknown]
      exact sound.idOfKey sound.unknown.1 valid (by rw [absorber,if_neg («Type».noConfusion),sound.unknown.2,unknown])
  · have names := unionNames sound valid' (by rw [absorbingCons,if_neg absorbs,absorbingCons,if_neg absorbs,absorbingNil])
    have self : Names table (table.constituents [a,a]) a := ⟨valid,not_or.mp absorbs,fun part => by simp [constituents]⟩
    exact names.sound.namesUnique names.names (self.kept names.kept)

theorem storedSame (sound : Sound table) {id members order} (valid : table.Valid id)
    (found : table.get id = .union members) (perm : order.Perm members) : (table.union order).2 = id := by
  have made := sound.made id members valid found
  have plain : ∀ member ∈ order, table.Valid member ∧ Single (table.get member) := fun member inside =>
    made.plain member (perm.mem_iff.mp inside)
  have open_ : table.absorbing order = none := by
    refine List.find?_eq_none.mpr fun ty inside => ?_
    obtain ⟨member,listed,same⟩ := List.mem_map.mp inside
    have single := (plain member listed).2
    simp [← same,single.1,single.2.1]
  have names := unionNames sound (fun member inside => (plain member inside).1) open_
  have self : Names table (table.constituents order) id := by
    refine ⟨valid,by simp [found],fun part => ?_⟩
    have listed : part ∈ table.parts id ↔ part ∈ order := by
      rw [parts,found]
      exact perm.mem_iff.symm
    refine listed.trans ⟨fun inside => ⟨part,inside,?_⟩,fun inside => ?_⟩
    · rw [partsSingle (plain part inside).2]
      exact List.mem_singleton_self part
    · obtain ⟨member,listed,within⟩ := inside
      rw [partsSingle (plain member listed).2,List.mem_singleton] at within
      exact within ▸ listed
  exact names.sound.namesUnique names.names (self.kept names.kept)

theorem unionCanonical (reached : Later new table) : Canonical table := by
  have sound := (reached.sound newSound).1
  have agrees : ∀ members others, (∀ member ∈ members, table.Valid member) → (∀ other ∈ others, table.Valid other) →
      table.constituents members = table.constituents others → ∀ later, Later (table.union members).1 later →
      ((later.union others).2 = (table.union members).2 ↔ table.absorbing others = table.absorbing members) := by
    intro members others valid valid' same later after
    obtain ⟨soundMade,keptMade⟩ := unionKept sound valid
    obtain ⟨soundLater,keptLater⟩ := after.sound soundMade
    have kept := keptMade.trans keptLater
    refine ⟨unionDiffers sound valid valid' same after,fun absorbed => ?_⟩
    exact unionSame sound valid soundLater keptLater (fun other inside => kept.valid (valid' other inside)) ((kept.absorbing valid').trans absorbed)
      fun _ => (kept.constituents valid').trans same.symm
  refine ⟨agrees,fun a b first second later after => ?_,fun a b c first second third => ?_,
    fun before members after valid later made last ran => nestedSame sound before members after valid made ran,fun a valid => repeatedSame sound valid,
    fun id members valid found => ?_,fun id members order valid found perm => storedSame sound valid found perm⟩
  · refine agrees [a,b] [b,a] (by simp [first,second]) (by simp [first,second]) ?_ later after
    rw [constituentsCons,constituentsCons,constituentsCons,constituentsCons,← Set.union_assoc,← Set.union_assoc,Set.union_comm {id | id ∈ table.parts a}]
  · intro ab left bc
    have validAb : ∀ member ∈ [a,b], table.Valid member := by simp [first,second]
    obtain ⟨soundAb,keptAb⟩ := unionKept sound validAb
    have validLeft : ∀ member ∈ [ab.2,c], ab.1.Valid member := by
      simp only [List.mem_cons,List.not_mem_nil,or_false,forall_eq_or_imp,forall_eq]
      exact ⟨unionValid sound validAb,keptAb.valid third⟩
    obtain ⟨soundLeft,keptLeft⟩ := unionKept soundAb validLeft
    have kept := keptAb.trans keptLeft
    have stillA : left.1.Valid a := kept.valid first
    have stillB : left.1.Valid b := kept.valid second
    have stillC : left.1.Valid c := kept.valid third
    have validBc : ∀ member ∈ [b,c], left.1.Valid member := by simp [stillB,stillC]
    obtain ⟨soundBc,keptBc⟩ := unionKept soundLeft validBc
    have validRight : ∀ member ∈ [a,bc.2], bc.1.Valid member := by
      simp only [List.mem_cons,List.not_mem_nil,or_false,forall_eq_or_imp,forall_eq]
      exact ⟨keptBc.valid stillA,unionValid soundLeft validBc⟩
    have validAll : ∀ member ∈ [a]++[b,c]++[], left.1.Valid member := by simp [stillA,stillB,stillC]
    have toBc : Later left.1 bc.1 := Relation.ReflTransGen.single (.union [b,c] validBc)
    have toRight : Later bc.1 (bc.1.union [a,bc.2]).1 := Relation.ReflTransGen.single (.union [a,bc.2] validRight)
    have fromLeft := nestedSame sound [] [a,b] [c] (by simp [first,second,third]) .refl (toBc.trans toRight)
    have fromRight := nestedSame soundLeft [a] [b,c] [] validAll .refl .refl
    exact fromRight.symm.trans fromLeft
  · have made := sound.made id members valid found
    refine ⟨made.distinct,fun member inside => ?_⟩
    obtain ⟨there,single⟩ := made.plain member inside
    exact ⟨there,single.2.2.1,single.1,single.2.1,single.2.2.2⟩

theorem unionCanonicalStored : Canonical (new.union [new.string,new.never,new.number]).1 :=
  unionCanonical (.single (.union _ (by decide)))

theorem absorbingOrdered : ¬∀ table, Later new table → ∀ members others, (∀ member ∈ members, table.Valid member) →
    (∀ other ∈ others, table.Valid other) → table.constituents members = table.constituents others →
    ∀ later, Later (table.union members).1 later → (later.union others).2 = (table.union members).2 := by
  intro canonical
  have same := canonical new .refl [new.any,new.unknown] [new.unknown,new.any] (by decide) (by decide)
    (by simp only [constituentsCons,← Set.union_assoc,Set.union_comm {id | id ∈ new.parts new.any}]) _ .refl
  exact absurd same (by decide)

end

end TypeTable

end Bamts.Checker
