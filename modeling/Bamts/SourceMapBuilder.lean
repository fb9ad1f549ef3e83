import Bamts.SourceMapText
import Mathlib.Data.List.DropRight

/-! The builder of source maps: what its calls record, and the finished map. -/
set_option linter.all false
namespace Bamts.SourceMaps

inductive SourceMapError where
  | sourceIndexOutOfRange (mapping index sources : Nat)
  | nameIndexOutOfRange (mapping index names : Nat)
  | sourcesContentLengthMismatch (sources contents : Nat)
  deriving DecidableEq, Repr

structure SourceMap where
  file : Option String
  sourceRoot : Option String
  sources : List String
  sourcesContent : Option (List (Option String))
  names : List String
  mappings : List Mapping
  deriving DecidableEq, Repr

def validateFrom (sources names : List String) (index : Nat) : List Mapping → Except SourceMapError Unit
  | [] => .ok ()
  | m :: rest =>
    match m.original with
    | none => validateFrom sources names (index+1) rest
    | some o =>
      if sources.length ≤ o.source then .error (.sourceIndexOutOfRange index o.source sources.length)
      else
        match o.name with
        | none => validateFrom sources names (index+1) rest
        | some name =>
          if names.length ≤ name then .error (.nameIndexOutOfRange index name names.length)
          else validateFrom sources names (index+1) rest

def SourceMap.validate (map : SourceMap) : Except SourceMapError Unit :=
  match map.sourcesContent with
  | none => validateFrom map.sources map.names 0 map.mappings
  | some contents =>
    if contents.length ≠ map.sources.length then .error (.sourcesContentLengthMismatch map.sources.length contents.length)
    else validateFrom map.sources map.names 0 map.mappings

structure SourceMapBuilder where
  file : Option String := none
  sourceRoot : Option String := none
  sources : List String := []
  sourceIndex : List (String × Nat) := []
  sourcesContent : List (Option String) := []
  includeSourcesContent : Bool := false
  names : List String := []
  nameIndex : List (String × Nat) := []
  mappings : List Mapping := []
  deriving DecidableEq, Repr

namespace SourceMapBuilder
variable (b : SourceMapBuilder)

def internSource (path : String) : SourceMapBuilder × Nat :=
  match b.sourceIndex.lookup path with
  | some index => (b,index)
  | none =>
    ({b with
      sources := b.sources ++ [path]
      sourcesContent := b.sourcesContent ++ [none]
      sourceIndex := (path,b.sources.length) :: b.sourceIndex},b.sources.length)

def internSourceWithContent (path content : String) : SourceMapBuilder × Nat :=
  let interned := b.internSource path
  ({interned.1 with sourcesContent := interned.1.sourcesContent.set interned.2 (some content)},interned.2)

def internName (name : String) : SourceMapBuilder × Nat :=
  match b.nameIndex.lookup name with
  | some index => (b,index)
  | none => ({b with names := b.names ++ [name], nameIndex := (name,b.names.length) :: b.nameIndex},b.names.length)

def internNameOf : Option String → SourceMapBuilder × Option Nat
  | none => (b,none)
  | some name => ((b.internName name).1,some (b.internName name).2)

def addGeneratedOnly (generated : LineColumn) : SourceMapBuilder := {b with mappings := b.mappings ++ [⟨generated,none⟩]}

def addMapping (source : String) (generated original : LineColumn) (name : Option String) : SourceMapBuilder :=
  let interned := b.internSource source
  let named := interned.1.internNameOf name
  {named.1 with mappings := named.1.mappings ++ [⟨generated,some ⟨interned.2,original,named.2⟩⟩]}

def addMappingUtf16 (source : String) (generated original : Option LineColumn) (name : Option String) : SourceMapBuilder :=
  match generated, original with
  | some g, some o => b.addMapping source g o name
  | _, _ => b

def dedup : List Mapping → List Mapping
  | [] => []
  | m :: rest =>
    match dedup rest with
    | [] => [m]
    | n :: more => if m = n then n :: more else m :: n :: more

def normalizedRoot (root : String) : Option String :=
  if root.isEmpty then none else some ((String.ofList (root.toList.rdropWhile (· == '/'))).push '/')

def finish : SourceMap where
  file := b.file
  sourceRoot := b.sourceRoot.bind normalizedRoot
  sources := b.sources
  sourcesContent := if b.includeSourcesContent then some b.sourcesContent else none
  names := b.names
  mappings := dedup (b.mappings.mergeSort fun m n => decide (m ≤ n))

end SourceMapBuilder

inductive Call where
  | withFile (file : String)
  | withSourceRoot (root : String)
  | withSourcesContent (included : Bool)
  | internSource (path : String)
  | internSourceWithContent (path content : String)
  | internName (name : String)
  | addGeneratedOnly (generated : LineColumn)
  | addMapping (source : String) (generated original : LineColumn) (name : Option String)
  | addMappingUtf16 (source : String) (generated original : Option LineColumn) (name : Option String)
  deriving DecidableEq, Repr

def SourceMapBuilder.apply (b : SourceMapBuilder) : Call → SourceMapBuilder
  | .withFile file => {b with file := some file}
  | .withSourceRoot root => {b with sourceRoot := some root}
  | .withSourcesContent included => {b with includeSourcesContent := included}
  | .internSource path => (b.internSource path).1
  | .internSourceWithContent path content => (b.internSourceWithContent path content).1
  | .internName name => (b.internName name).1
  | .addGeneratedOnly generated => b.addGeneratedOnly generated
  | .addMapping source generated original name => b.addMapping source generated original name
  | .addMappingUtf16 source generated original name => b.addMappingUtf16 source generated original name

def built (calls : List Call) : SourceMapBuilder := calls.foldl SourceMapBuilder.apply {}

structure Entry where
  generated : LineColumn
  original : Option (String × LineColumn × Option String)
  deriving DecidableEq, Repr

def recorded : Call → List Entry
  | .addGeneratedOnly generated => [⟨generated,none⟩]
  | .addMapping source generated original name => [⟨generated,some (source,original,name)⟩]
  | .addMappingUtf16 source (some generated) (some original) name => [⟨generated,some (source,original,name)⟩]
  | _ => []

def entryOf (sources names : List String) (m : Mapping) : Entry :=
  ⟨m.generated,m.original.map fun o => (sources.getD o.source "",o.position,o.name.map fun n => names.getD n "")⟩

structure Mapping.Within (sources names : Nat) (m : Mapping) : Prop where
  source : ∀ o, m.original = some o → o.source < sources
  name : ∀ o, m.original = some o → ∀ n, o.name = some n → n < names

def Indexed (items : List String) (index : List (String × Nat)) : Prop := ∀ path i, index.lookup path = some i → items[i]? = some path

structure Sound (b : SourceMapBuilder) (entries : List Entry) : Prop where
  contents : b.sourcesContent.length = b.sources.length
  sources : Indexed b.sources b.sourceIndex
  names : Indexed b.names b.nameIndex
  within : ∀ m ∈ b.mappings, m.Within b.sources.length b.names.length
  entries : b.mappings.map (entryOf b.sources b.names) = entries

theorem indexedMore {items index} (indexed : Indexed items index) (path) :
    Indexed (items ++ [path]) ((path,items.length) :: index) := by
  intro other i found
  rw [List.lookup_cons] at found
  split at found
  · rename_i same
    rw [← Option.some.inj found,beq_iff_eq.mp same,List.getElem?_append_right (Nat.le_refl _),Nat.sub_self]
    rfl
  · have old := indexed other i found
    rw [List.getElem?_append_left (List.getElem?_eq_some_iff.mp old).1,old]

theorem withinMore {m : Mapping} {sources names more more'} (within : m.Within sources names) : m.Within (sources+more) (names+more') :=
  ⟨fun o original => Nat.lt_add_right _ (within.source o original),fun o original n name => Nat.lt_add_right _ (within.name o original n name)⟩

theorem entryMore {m sources names} (within : m.Within sources.length names.length) (more more') :
    entryOf (sources ++ more) (names ++ more') m = entryOf sources names m := by
  obtain ⟨generated,original⟩ := m
  cases original with
  | none => rfl
  | some o =>
    obtain ⟨source,position,name⟩ := o
    have source_ := List.getD_append sources more "" source (within.source _ rfl)
    cases name with
    | none => simp only [entryOf,Option.map_some,Option.map_none,source_]
    | some n =>
      have name_ := List.getD_append names more' "" n (within.name _ rfl n rfl)
      simp only [entryOf,Option.map_some,source_,name_]

section Step
variable {b b' : SourceMapBuilder} {entries : List Entry}

theorem soundMore (sound : Sound b entries) (more more') (sources_ : b'.sources = b.sources ++ more) (names_ : b'.names = b.names ++ more')
    (mappings_ : b'.mappings = b.mappings) (contents : b'.sourcesContent.length = b'.sources.length) (sources : Indexed b'.sources b'.sourceIndex)
    (names : Indexed b'.names b'.nameIndex) : Sound b' entries := by
  refine ⟨contents,sources,names,?_,?_⟩
  · rw [mappings_,sources_,names_,List.length_append,List.length_append]
    exact fun m among => withinMore (sound.within m among)
  · rw [mappings_,sources_,names_,← sound.entries]
    exact List.map_congr_left fun m among => entryMore (sound.within m among) more more'

theorem internSourceSound (sound : Sound b entries) (path) :
    Sound (b.internSource path).1 entries ∧ (b.internSource path).1.sources[(b.internSource path).2]? = some path := by
  unfold SourceMapBuilder.internSource
  split
  · rename_i index found
    exact ⟨sound,sound.sources path index found⟩
  · refine ⟨soundMore sound [path] [] rfl (List.append_nil _).symm rfl ?_ (indexedMore sound.sources path) sound.names,?_⟩
    · exact (List.length_append.trans (congrArg (· + 1) sound.contents)).trans List.length_append.symm
    · rw [List.getElem?_append_right (Nat.le_refl _),Nat.sub_self]
      rfl

theorem internNameSound (sound : Sound b entries) (name) :
    Sound (b.internName name).1 entries ∧ (b.internName name).1.names[(b.internName name).2]? = some name := by
  unfold SourceMapBuilder.internName
  split
  · rename_i index found
    exact ⟨sound,sound.names name index found⟩
  · refine ⟨soundMore sound [] [name] (List.append_nil _).symm rfl rfl sound.contents sound.sources (indexedMore sound.names name),?_⟩
    rw [List.getElem?_append_right (Nat.le_refl _),Nat.sub_self]
    rfl

theorem internNameSources (name) : (b.internNameOf name).1.sources = b.sources := by
  cases name with
  | none => rfl
  | some name =>
    simp only [SourceMapBuilder.internNameOf,SourceMapBuilder.internName]
    split <;> rfl

theorem internNameOfSound (sound : Sound b entries) (name) : Sound (b.internNameOf name).1 entries ∧
    (b.internNameOf name).2.map (fun n => (b.internNameOf name).1.names[n]?) = name.map some := by
  cases name with
  | none => exact ⟨sound,rfl⟩
  | some name =>
    obtain ⟨kept,found⟩ := internNameSound sound name
    exact ⟨kept,congrArg some found⟩

theorem recordSound (sound : Sound b entries) {m} (within : m.Within b.sources.length b.names.length) :
    Sound {b with mappings := b.mappings ++ [m]} (entries ++ [entryOf b.sources b.names m]) := by
  refine ⟨sound.contents,sound.sources,sound.names,?_,?_⟩
  · intro other among
    rcases List.mem_append.mp among with old | new
    · exact sound.within other old
    · rw [List.mem_singleton.mp new]
      exact within
  · rw [List.map_append,sound.entries]
    rfl

theorem addMappingSound (sound : Sound b entries) (source generated original name) :
    Sound (b.addMapping source generated original name) (entries ++ [⟨generated,some (source,original,name)⟩]) := by
  obtain ⟨interned,source_⟩ := internSourceSound sound source
  obtain ⟨named,name_⟩ := internNameOfSound interned name
  have same := @internNameSources (b.internSource source).1 name
  rw [SourceMapBuilder.addMapping]
  generalize (b.internSource source).1.internNameOf name = result at named name_ same ⊢
  obtain ⟨c,n⟩ := result
  rw [← same] at source_
  generalize (b.internSource source).2 = index at source_ ⊢
  have within : (Mapping.mk generated (some ⟨index,original,n⟩)).Within c.sources.length c.names.length := by
    refine ⟨fun o whole => ?_,fun o whole place found => ?_⟩
    · rw [← Option.some.inj whole]
      exact (List.getElem?_eq_some_iff.mp source_).1
    · rw [← Option.some.inj whole] at found
      rw [show n = some place from found] at name_
      cases name with
      | none => cases name_
      | some text => exact (List.getElem?_eq_some_iff.mp (Option.some.inj name_)).1
  have entry : entryOf c.sources c.names ⟨generated,some ⟨index,original,n⟩⟩ = ⟨generated,some (source,original,name)⟩ := by
    have source' : c.sources.getD index "" = source := by rw [List.getD_eq_getElem?_getD,source_,Option.getD_some]
    have name' : n.map (fun n => c.names.getD n "") = name := by
      cases n with
      | none =>
        cases name with
        | none => rfl
        | some text => cases name_
      | some place =>
        cases name with
        | none => cases name_
        | some text =>
          have found : c.names[place]? = some text := Option.some.inj name_
          rw [Option.map_some,List.getD_eq_getElem?_getD,found,Option.getD_some]
    simp only [entryOf,Option.map_some,source',name']
  have recorded_ := recordSound named within
  rwa [entry] at recorded_

theorem silent {call} (nothing : recorded call = []) (sound : Sound b' entries) : Sound b' (entries ++ recorded call) := by
  rwa [nothing,List.append_nil]

theorem applySound (sound : Sound b entries) (call) : Sound (b.apply call) (entries ++ recorded call) := by
  cases call with
  | withFile file => exact silent rfl ⟨sound.contents,sound.sources,sound.names,sound.within,sound.entries⟩
  | withSourceRoot root => exact silent rfl ⟨sound.contents,sound.sources,sound.names,sound.within,sound.entries⟩
  | withSourcesContent included => exact silent rfl ⟨sound.contents,sound.sources,sound.names,sound.within,sound.entries⟩
  | internSource path => exact silent rfl (internSourceSound sound path).1
  | internSourceWithContent path content =>
    have interned := (internSourceSound sound path).1
    exact silent rfl ⟨(List.length_set).trans interned.contents,interned.sources,interned.names,interned.within,interned.entries⟩
  | internName name => exact silent rfl (internNameSound sound name).1
  | addGeneratedOnly generated =>
    exact @recordSound _ _ sound ⟨generated,none⟩ ⟨fun _ whole => (by cases whole),fun _ whole => (by cases whole)⟩
  | addMapping source generated original name => exact addMappingSound sound source generated original name
  | addMappingUtf16 source generated original name =>
    cases generated with
    | none => exact silent rfl sound
    | some g =>
      cases original with
      | none => exact silent rfl sound
      | some o => exact addMappingSound sound source g o name

end Step

theorem builtFrom {b entries} (sound : Sound b entries) (calls : List Call) :
    Sound (calls.foldl SourceMapBuilder.apply b) (entries ++ calls.flatMap recorded) := by
  induction calls generalizing b entries with
  | nil => rwa [List.flatMap_nil,List.append_nil]
  | cons call calls ih =>
    have next := ih (applySound sound call)
    rwa [List.append_assoc] at next

theorem builtSound (calls) : Sound (built calls) (calls.flatMap recorded) :=
  builtFrom ⟨rfl,fun _ _ found => (by cases found),fun _ _ found => (by cases found),fun _ among => absurd among List.not_mem_nil,rfl⟩ calls

theorem validateWithin {sources names} (index) {mappings}
    (within : ∀ m ∈ mappings, m.Within sources.length names.length) : validateFrom sources names index mappings = .ok () := by
  induction mappings generalizing index with
  | nil => rfl
  | cons m rest ih =>
    obtain ⟨first,others⟩ := List.forall_mem_cons.mp within
    have next := ih (index+1) others
    rw [validateFrom]
    cases original : m.original with
    | none => exact next
    | some o =>
      dsimp only
      rw [if_neg (Nat.not_le.mpr (first.source o original))]
      cases name : o.name with
      | none => exact next
      | some n =>
        dsimp only
        rw [if_neg (Nat.not_le.mpr (first.name o original n name))]
        exact next

theorem dedupSorted {mappings} (sorted : mappings.Pairwise (· ≤ ·)) :
    (SourceMapBuilder.dedup mappings).Pairwise (· < ·) ∧ ∀ m, m ∈ SourceMapBuilder.dedup mappings ↔ m ∈ mappings := by
  induction mappings with
  | nil => exact ⟨List.Pairwise.nil,fun _ => Iff.rfl⟩
  | cons m rest ih =>
    obtain ⟨least,sorted'⟩ := List.pairwise_cons.mp sorted
    obtain ⟨strict,same⟩ := ih sorted'
    rw [SourceMapBuilder.dedup]
    cases left : SourceMapBuilder.dedup rest with
    | nil =>
      have none_ : rest = [] := List.eq_nil_iff_forall_not_mem.mpr fun n among => by
        have kept := (same n).mpr among
        rw [left] at kept
        cases kept
      rw [none_]
      exact ⟨List.pairwise_singleton _ _,fun _ => Iff.rfl⟩
    | cons n more =>
      rw [left] at strict same
      have next := least n ((same n).mp List.mem_cons_self)
      dsimp only
      split
      · rename_i equal
        refine ⟨strict,fun other => ?_⟩
        rw [same,List.mem_cons,equal]
        exact ⟨.inr,fun among => among.elim (fun whole => whole ▸ (same n).mp List.mem_cons_self) id⟩
      · rename_i differs
        have below := lt_of_le_of_ne next differs
        refine ⟨List.pairwise_cons.mpr ⟨?_,strict⟩,fun other => ?_⟩
        · intro other among
          rcases List.mem_cons.mp among with whole | later
          · rw [whole]
            exact below
          · exact below.trans ((List.pairwise_cons.mp strict).1 other later)
        · rw [List.mem_cons,same,List.mem_cons]

theorem finishSorted (b : SourceMapBuilder) : b.finish.mappings.Pairwise (· < ·) ∧ ∀ m, m ∈ b.finish.mappings ↔ m ∈ b.mappings := by
  have ordered : (b.mappings.mergeSort fun m n => decide (m ≤ n)).Pairwise (· ≤ ·) := by
    have sorted := @List.pairwise_mergeSort Mapping (fun m n => decide (m ≤ n))
      (fun p q r first second => decide_eq_true (le_trans (of_decide_eq_true first) (of_decide_eq_true second)))
      (fun p q => by rcases le_total p q with below | above <;> simp [*]) b.mappings
    exact sorted.imp of_decide_eq_true
  obtain ⟨strict,same⟩ := dedupSorted ordered
  exact ⟨strict,fun m => (same m).trans List.mem_mergeSort⟩

theorem finishValid (calls) : (built calls).finish.validate = .ok () := by
  have sound := builtSound calls
  have within : ∀ m ∈ (built calls).finish.mappings, m.Within (built calls).sources.length (built calls).names.length :=
    fun m among => sound.within m (((finishSorted (built calls)).2 m).mp among)
  have valid := validateWithin 0 within
  unfold SourceMap.validate
  split
  · exact valid
  · rename_i contents found
    have same : contents.length = (built calls).finish.sources.length := by
      simp only [SourceMapBuilder.finish,Option.ite_none_right_eq_some] at found
      rw [← Option.some.inj found.2]
      exact sound.contents
    rw [if_neg (not_not.mpr same)]
    exact valid

theorem mapLossless (calls : List Call) :
    (built calls).finish.validate = .ok () ∧
    (built calls).finish.mappings.Pairwise (· < ·) ∧
    (∀ m, m ∈ (built calls).finish.mappings ↔ m ∈ (built calls).mappings) ∧
    (built calls).mappings.map (entryOf (built calls).finish.sources (built calls).finish.names) = calls.flatMap recorded ∧
    ((∀ m ∈ (built calls).finish.mappings, m.Small) →
      decodeMappings (encodeMappings (built calls).finish.mappings) = some (built calls).finish.mappings) ∧
    ∀ (value : Int) (rest : List Char), value.natAbs < 2^63 →
      decodeVlq (encodeVlq value ++ rest) = some (value,(encodeVlq value).length) := by
  obtain ⟨strict,same⟩ := finishSorted (built calls)
  refine ⟨finishValid calls,strict,same,(builtSound calls).entries,fun small => ?_,fun value rest small => decodeEncode small rest⟩
  exact decodeMappingsBack (strict.imp le_of_lt) small

end Bamts.SourceMaps
