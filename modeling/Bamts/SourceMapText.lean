import Bamts.SourceMapVlq
import Mathlib.Data.Prod.Lex
import Mathlib.Order.WithBot
import Mathlib.Tactic.Linarith

/-! The `mappings` field of a source map: the encoder with its running differences, and a reader that
follows the rules of version 3. -/
set_option linter.all false
namespace Bamts.SourceMaps

structure LineColumn where
  line : Nat
  column : Nat
  deriving DecidableEq, Repr

structure OriginalPosition where
  source : Nat
  position : LineColumn
  name : Option Nat
  deriving DecidableEq, Repr

structure Mapping where
  generated : LineColumn
  original : Option OriginalPosition
  deriving DecidableEq, Repr

def LineColumn.key (p : LineColumn) : ℕ ×ₗ ℕ := toLex (p.line,p.column)

def OriginalPosition.key (o : OriginalPosition) : ℕ ×ₗ (ℕ ×ₗ ℕ) ×ₗ WithBot ℕ := toLex (o.source,toLex (o.position.key,o.name))

def Mapping.key (m : Mapping) : (ℕ ×ₗ ℕ) ×ₗ WithBot (ℕ ×ₗ (ℕ ×ₗ ℕ) ×ₗ WithBot ℕ) :=
  toLex (m.generated.key,m.original.map OriginalPosition.key)

theorem LineColumn.keyInjective : Function.Injective LineColumn.key := by
  intro p q same
  obtain ⟨line,column⟩ := Prod.mk.inj (toLex.injective same)
  cases p
  cases line
  cases column
  rfl

theorem OriginalPosition.keyInjective : Function.Injective OriginalPosition.key := by
  intro p q same
  obtain ⟨source,rest⟩ := Prod.mk.inj (toLex.injective same)
  obtain ⟨position,name⟩ := Prod.mk.inj (toLex.injective rest)
  have position' := LineColumn.keyInjective position
  cases p
  cases source
  cases position'
  cases name
  rfl

theorem Mapping.keyInjective : Function.Injective Mapping.key := by
  intro p q same
  obtain ⟨generated,original⟩ := Prod.mk.inj (toLex.injective same)
  have generated' := LineColumn.keyInjective generated
  have original' := Option.map_injective OriginalPosition.keyInjective original
  cases p
  cases generated'
  cases original'
  rfl

instance : LinearOrder Mapping := LinearOrder.lift' Mapping.key Mapping.keyInjective

theorem lineOrdered {m n : Mapping} (before : m ≤ n) : m.generated.line ≤ n.generated.line := by
  have keys : m.key ≤ n.key := before
  rcases Prod.Lex.le_iff.mp keys with less | ⟨same,-⟩
  · rcases Prod.Lex.lt_iff.mp less with less' | ⟨same,-⟩
    · exact Nat.le_of_lt less'
    · exact Nat.le_of_eq same
  · exact Nat.le_of_eq (Prod.mk.inj (toLex.injective same)).1

def asI64 (n : Nat) : Int := if n < 2^63 then n else 2^63-1

structure Running where
  source : Int
  line : Int
  column : Int
  name : Int
  deriving DecidableEq, Repr

def origin : Running := ⟨0,0,0,0⟩

def nameField (r : Running) : Option Nat → List Int
  | none => []
  | some n => [asI64 n-r.name]

def originalFields (r : Running) : Option OriginalPosition → List Int
  | none => []
  | some o => [asI64 o.source-r.source,asI64 o.position.line-r.line,asI64 o.position.column-r.column] ++ nameField r o.name

def nameAfter (r : Running) : Option Nat → Int
  | none => r.name
  | some n => asI64 n

def Running.after (r : Running) : Option OriginalPosition → Running
  | none => r
  | some o => ⟨asI64 o.source,asI64 o.position.line,asI64 o.position.column,nameAfter r o.name⟩

def segmentFields (column : Int) (r : Running) (m : Mapping) : List Int := (asI64 m.generated.column-column) :: originalFields r m.original

def segmentText (fields : List Int) : List Char := fields.flatMap encodeVlq

def encodeFrom (line : Nat) (column : Int) (first : Bool) (r : Running) : List Mapping → List Char
  | [] => []
  | m :: rest =>
    let gap := m.generated.line-line
    List.replicate gap ';' ++ (if first || decide (0 < gap) then [] else [',']) ++
      segmentText (segmentFields (if 0 < gap then 0 else column) r m) ++
      encodeFrom (line+gap) (asI64 m.generated.column) false (r.after m.original) rest

def encodeMappings (mappings : List Mapping) : List Char := encodeFrom 0 0 true origin mappings

def natural (z : Int) : Option Nat := if z < 0 then none else some z.toNat

def readFields : Nat → List Char → Option (List Int)
  | _, [] => some []
  | 0, _ :: _ => none
  | fuel+1, c :: text =>
    (decodeVlq (c :: text)).bind fun first => (readFields fuel ((c :: text).drop first.2)).map fun rest => first.1 :: rest

def readOriginal (r : Running) (name : Option Nat) : Option OriginalPosition :=
  (natural r.source).bind fun source => (natural r.line).bind fun line => (natural r.column).map fun column => ⟨source,⟨line,column⟩,name⟩

def readSegment (line : Nat) (column : Int) (r : Running) : List Int → Option (Mapping × Running)
  | [g] => (natural (column+g)).map fun c => (⟨⟨line,c⟩,none⟩,r)
  | [g,s,l,k] =>
    let r' : Running := ⟨r.source+s,r.line+l,r.column+k,r.name⟩
    (natural (column+g)).bind fun c => (readOriginal r' none).map fun o => (⟨⟨line,c⟩,some o⟩,r')
  | [g,s,l,k,n] =>
    let r' : Running := ⟨r.source+s,r.line+l,r.column+k,r.name+n⟩
    (natural (column+g)).bind fun c => (natural r'.name).bind fun name => (readOriginal r' (some name)).map fun o => (⟨⟨line,c⟩,some o⟩,r')
  | _ => none

def readRow (line : Nat) (column : Int) (r : Running) : List (List Char) → Option (List Mapping × Running)
  | [] => some ([],r)
  | segment :: rest =>
    (readFields segment.length segment).bind fun fields => (readSegment line column r fields).bind fun one =>
      (readRow line one.1.generated.column one.2 rest).map fun more => (one.1 :: more.1,more.2)

def readRows (line : Nat) (r : Running) : List (List (List Char)) → Option (List Mapping)
  | [] => some []
  | row :: rest => (readRow line 0 r row).bind fun one => (readRows (line+1) one.2 rest).map fun more => one.1 ++ more

def segmentsOf (group : List Char) : List (List Char) := if group.isEmpty then [] else group.splitOn ','

def decodeMappings (text : List Char) : Option (List Mapping) := readRows 0 origin ((text.splitOn ';').map segmentsOf)

def rowsFrom (line : Nat) (column : Int) (r : Running) : List Mapping → List (List (List Char))
  | [] => [[]]
  | m :: rest =>
    let gap := m.generated.line-line
    List.replicate gap [] ++
      (rowsFrom (line+gap) (asI64 m.generated.column) (r.after m.original) rest).modifyHead
        (segmentText (segmentFields (if 0 < gap then 0 else column) r m) :: ·)

def rowText (row : List (List Char)) : List Char := [','].intercalate row

def textOf (rows : List (List (List Char))) : List Char := [';'].intercalate (rows.map rowText)

def leader (first : Bool) : List (List (List Char)) → List Char
  | (_ :: _) :: _ => if first then [] else [',']
  | _ => []

theorem rowsSome (line column r mappings) : ∃ row rest, rowsFrom line column r mappings = row :: rest := by
  induction mappings generalizing line column r with
  | nil => exact ⟨[],[],rfl⟩
  | cons m tail ih =>
    obtain ⟨row,rest,same⟩ := ih (line+(m.generated.line-line)) (asI64 m.generated.column) (r.after m.original)
    simp only [rowsFrom,same,List.modifyHead_cons]
    cases m.generated.line-line with
    | zero => exact ⟨_,_,rfl⟩
    | succ gap => exact ⟨[],_,rfl⟩

theorem textSegment (segment row rest) :
    textOf ((segment :: row) :: rest) = segment ++ leader false (row :: rest) ++ textOf (row :: rest) := by
  have first : rowText (segment :: row) = segment ++ leader false (row :: rest) ++ rowText row := by
    cases row with
    | nil =>
      have none_ : leader false ([] :: rest) = [] := rfl
      rw [rowText,rowText,none_,List.intercalate_singleton,List.intercalate_nil,List.append_nil,List.append_nil]
    | cons next row =>
      rw [rowText,rowText,leader,List.intercalate_cons_cons,if_neg Bool.false_ne_true]
  cases rest with
  | nil => rw [textOf,textOf,List.map_singleton,List.map_singleton,List.intercalate_singleton,List.intercalate_singleton,first]
  | cons next rest =>
    simp only [textOf,List.map_cons,List.intercalate_cons_cons,first,List.append_assoc]

theorem textEmpty (gap row rest) :
    textOf (List.replicate gap [] ++ row :: rest) = List.replicate gap ';' ++ textOf (row :: rest) := by
  induction gap with
  | zero => rfl
  | succ gap ih =>
    have more : ∃ next others, List.replicate gap [] ++ row :: rest = next :: others := by
      cases gap with
      | zero => exact ⟨_,_,rfl⟩
      | succ gap => exact ⟨_,_,rfl⟩
    obtain ⟨next,others,same⟩ := more
    have empty : rowText [] = [] := List.intercalate_nil
    rw [List.replicate_succ,List.replicate_succ,List.cons_append,List.cons_append,← ih,same,textOf,textOf,List.map_cons,List.map_cons,
      List.intercalate_cons_cons,empty]
    rfl

theorem encodeRows (line column first r mappings) :
    encodeFrom line column first r mappings = leader first (rowsFrom line column r mappings) ++ textOf (rowsFrom line column r mappings) := by
  induction mappings generalizing line column first r with
  | nil => rfl
  | cons m tail ih =>
    obtain ⟨row,rest,same⟩ := rowsSome (line+(m.generated.line-line)) (asI64 m.generated.column) (r.after m.original) tail
    have next := ih (line+(m.generated.line-line)) (asI64 m.generated.column) false (r.after m.original)
    rw [encodeFrom,rowsFrom]
    rw [next,same,List.modifyHead_cons,textEmpty,textSegment]
    cases gap_ : m.generated.line-line with
    | zero =>
      cases first <;> simp [leader]
    | succ gap => simp [leader,List.replicate_succ]

structure Plain (segment : List Char) : Prop where
  some_ : segment ≠ []
  semicolon : ';' ∉ segment
  comma : ',' ∉ segment

theorem segmentPlain (first rest) : Plain (segmentText (first :: rest)) := by
  have plain : ∀ c ∈ segmentText (first :: rest), c ≠ ';' ∧ c ≠ ',' := by
    intro c among
    obtain ⟨field,-,within⟩ := List.mem_flatMap.mp among
    exact vlqPlain _ c within
  refine ⟨fun none_ => ?_,fun among => (plain _ among).1 rfl,fun among => (plain _ among).2 rfl⟩
  exact vlqSome _ (List.append_eq_nil_iff.mp none_).1

theorem rowsPlain (line column r mappings) :
    ∀ row ∈ rowsFrom line column r mappings, ∀ segment ∈ row, Plain segment := by
  induction mappings generalizing line column r with
  | nil =>
    intro row among segment within
    rw [List.mem_singleton.mp among] at within
    cases within
  | cons m tail ih =>
    obtain ⟨row,rest,same⟩ := rowsSome (line+(m.generated.line-line)) (asI64 m.generated.column) (r.after m.original) tail
    have inside := ih (line+(m.generated.line-line)) (asI64 m.generated.column) (r.after m.original)
    rw [same] at inside
    obtain ⟨head,others⟩ := List.forall_mem_cons.mp inside
    rw [rowsFrom,same,List.modifyHead_cons]
    intro any among
    rcases List.mem_append.mp among with empty | written
    · rw [List.eq_of_mem_replicate empty]
      exact fun _ within => absurd within List.not_mem_nil
    · rcases List.mem_cons.mp written with rfl | later
      · exact List.forall_mem_cons.mpr ⟨segmentPlain _ _,head⟩
      · exact others any later

theorem segmentsBack {row} (plain : ∀ segment ∈ row, Plain segment) : segmentsOf (rowText row) = row := by
  cases row with
  | nil => rfl
  | cons segment rest =>
    have some_ : ¬(rowText (segment :: rest)).isEmpty = true := by
      intro none_
      have whole := textSegment segment rest []
      rw [textOf,List.map_singleton,List.intercalate_singleton,List.isEmpty_iff.mp none_] at whole
      exact (plain segment List.mem_cons_self).some_ (List.append_eq_nil_iff.mp (List.append_eq_nil_iff.mp whole.symm).1).1
    rw [segmentsOf,if_neg some_]
    exact List.splitOn_intercalate ',' (fun each among => (plain each among).comma) (List.cons_ne_nil _ _)

theorem rowSemicolon {row} (plain : ∀ segment ∈ row, Plain segment) : ';' ∉ rowText row := by
  induction row with
  | nil => exact List.not_mem_nil
  | cons segment rest ih =>
    obtain ⟨first,others⟩ := List.forall_mem_cons.mp plain
    cases rest with
    | nil =>
      rw [rowText,List.intercalate_singleton]
      exact first.semicolon
    | cons next rest =>
      intro among
      rcases List.mem_append.mp among with inside | behind
      · exact first.semicolon inside
      · rcases List.mem_cons.mp behind with comma | later
        · cases comma
        · exact ih others later

theorem rowsBack (mappings) :
    ((encodeMappings mappings).splitOn ';').map segmentsOf = rowsFrom 0 0 origin mappings := by
  have plain := rowsPlain 0 0 origin mappings
  obtain ⟨row,rest,same⟩ := rowsSome 0 0 origin mappings
  have written := encodeRows 0 0 true origin mappings
  have silent : leader true (rowsFrom 0 0 origin mappings) = [] := by
    rw [same]
    cases row <;> rfl
  rw [silent,List.nil_append] at written
  rw [encodeMappings,written,textOf,List.splitOn_intercalate ';',List.map_map]
  · exact (List.map_congr_left fun each among => segmentsBack (plain each among)).trans (List.map_id _)
  · intro text among
    obtain ⟨each,within,rfl⟩ := List.mem_map.mp among
    exact rowSemicolon (plain each within)
  · rw [same]
    exact List.cons_ne_nil _ _

theorem readText {fields} (small : ∀ z ∈ fields, z.natAbs < 2^63) {fuel} (enough : fields.length ≤ fuel) :
    readFields fuel (segmentText fields) = some fields := by
  induction fields generalizing fuel with
  | nil => cases fuel <;> rfl
  | cons z fields ih =>
    obtain ⟨first,others⟩ := List.forall_mem_cons.mp small
    cases fuel with
    | zero => cases enough
    | succ fuel =>
      have next := ih others (Nat.le_of_succ_le_succ enough)
      have read := decodeEncode first (segmentText fields)
      have whole : segmentText (z :: fields) = encodeVlq z ++ segmentText fields := rfl
      have skipped := @List.drop_left _ (encodeVlq z) (segmentText fields)
      have some_ : encodeVlq z ++ segmentText fields ≠ [] := fun none_ => vlqSome _ (List.append_eq_nil_iff.mp none_).1
      rw [whole]
      generalize encodeVlq z ++ segmentText fields = text at read skipped some_ ⊢
      cases text with
      | nil => exact absurd rfl some_
      | cons c text =>
        rw [readFields,read,Option.bind_some,skipped,next]
        rfl

theorem textLong (fields) : fields.length ≤ (segmentText fields).length := by
  induction fields with
  | nil => exact Nat.le_refl _
  | cons z fields ih =>
    have whole : segmentText (z :: fields) = encodeVlq z ++ segmentText fields := rfl
    have some_ : 0 < (encodeVlq z).length := List.length_pos_iff.mpr (vlqSome _)
    rw [whole,List.length_append,List.length_cons]
    omega

structure OriginalPosition.Small (o : OriginalPosition) : Prop where
  source : o.source < 2^62
  line : o.position.line < 2^62
  column : o.position.column < 2^62
  name : ∀ n, o.name = some n → n < 2^62

structure Mapping.Small (m : Mapping) : Prop where
  column : m.generated.column < 2^62
  original : ∀ o, m.original = some o → o.Small

def Near (z : Int) : Prop := 0 ≤ z ∧ z < 2^62

structure Running.Held (r : Running) : Prop where
  source : Near r.source
  line : Near r.line
  column : Near r.column
  name : Near r.name

theorem asSmall {n} (small : n < 2^62) : asI64 n = n := if_pos (Nat.lt_trans small (by decide))

theorem nearSmall {n} (small : n < 2^62) : Near (asI64 n) := by
  rw [asSmall small,Near]
  omega

theorem nearDifference {x y} (first : Near x) (second : Near y) : (x-y).natAbs < 2^63 := by
  unfold Near at first second
  omega

theorem naturalBack {n} (small : n < 2^62) : natural (asI64 n) = some n := by
  rw [asSmall small,natural,if_neg (by omega),Int.toNat_natCast]

theorem originHeld : origin.Held := ⟨⟨by decide,by decide⟩,⟨by decide,by decide⟩,⟨by decide,by decide⟩,⟨by decide,by decide⟩⟩

section Segment
variable {column : Int} {r : Running} {m : Mapping}

theorem afterHeld (held : r.Held) (small : m.Small) : (r.after m.original).Held := by
  cases original : m.original with
  | none => exact held
  | some o =>
    have inside := small.original o original
    refine ⟨nearSmall inside.source,nearSmall inside.line,nearSmall inside.column,?_⟩
    change Near (nameAfter r o.name)
    cases name : o.name with
    | none => exact held.name
    | some n => exact nearSmall (inside.name n name)

theorem fieldsSmall (near : Near column) (held : r.Held) (small : m.Small) : ∀ z ∈ segmentFields column r m, z.natAbs < 2^63 := by
  refine List.forall_mem_cons.mpr ⟨nearDifference (nearSmall small.column) near,?_⟩
  cases original : m.original with
  | none => exact fun _ among => absurd among List.not_mem_nil
  | some o =>
    have inside := small.original o original
    refine List.forall_mem_cons.mpr ⟨nearDifference (nearSmall inside.source) held.source,?_⟩
    refine List.forall_mem_cons.mpr ⟨nearDifference (nearSmall inside.line) held.line,?_⟩
    refine List.forall_mem_cons.mpr ⟨nearDifference (nearSmall inside.column) held.column,?_⟩
    cases name : o.name with
    | none => exact fun _ among => absurd among List.not_mem_nil
    | some n =>
      exact List.forall_mem_cons.mpr ⟨nearDifference (nearSmall (inside.name n name)) held.name,fun _ among => absurd among List.not_mem_nil⟩

theorem sumBack (x y : Int) : y+(x-y) = x := by omega

theorem segmentBack (small : m.Small) :
    readSegment m.generated.line column r (segmentFields column r m) = some (m,r.after m.original) := by
  obtain ⟨⟨line,c⟩,original⟩ := m
  have first : natural (asI64 c) = some c := naturalBack small.column
  cases original with
  | none =>
    rw [segmentFields,originalFields,readSegment,sumBack,first]
    rfl
  | some o =>
    obtain ⟨source,⟨oline,ocolumn⟩,name⟩ := o
    have inside := small.original _ rfl
    have source_ : natural (asI64 source) = some source := naturalBack inside.source
    have line_ : natural (asI64 oline) = some oline := naturalBack inside.line
    have column_ : natural (asI64 ocolumn) = some ocolumn := naturalBack inside.column
    cases name with
    | none =>
      simp only [segmentFields,originalFields,nameField,List.append_nil,readSegment,readOriginal,first,source_,line_,column_,Option.bind_some,
        Option.map_some,Running.after,nameAfter,sumBack]
    | some n =>
      have name_ : natural (asI64 n) = some n := naturalBack (inside.name n rfl)
      simp only [segmentFields,originalFields,nameField,List.cons_append,List.nil_append,readSegment,readOriginal,first,source_,line_,column_,name_,
        Option.bind_some,Option.map_some,Running.after,nameAfter,sumBack]

end Segment

def readRest (line : Nat) (column : Int) (r : Running) (row : List (List Char)) (rest : List (List (List Char))) : Option (List Mapping) :=
  (readRow line column r row).bind fun one => (readRows (line+1) one.2 rest).map fun more => one.1 ++ more

theorem readSkips (line gap r rows) :
    readRows line r (List.replicate gap [] ++ rows) = readRows (line+gap) r rows := by
  induction gap generalizing line with
  | zero => rfl
  | succ gap ih =>
    rw [List.replicate_succ,List.cons_append,readRows,readRow,Option.bind_some,ih,Nat.add_assoc,Nat.add_comm 1 gap]
    exact Option.map_id'

theorem readOn {m tail column r row rest} (near : Near column) (held : r.Held) (small : m.Small)
    (later : readRest m.generated.line (asI64 m.generated.column) (r.after m.original) row rest = some tail) :
    readRest m.generated.line column r (segmentText (segmentFields column r m) :: row) rest = some (m :: tail) := by
  have fields := readText (fieldsSmall near held small) (textLong _)
  rw [asSmall small.column] at later
  obtain ⟨one,row_,tail_⟩ := Option.bind_eq_some_iff.mp later
  obtain ⟨more,rest_,same⟩ := Option.map_eq_some_iff.mp tail_
  rw [readRest,readRow,fields,Option.bind_some,segmentBack small,Option.bind_some]
  rw [row_,Option.map_some,Option.bind_some,rest_,Option.map_some,← same]
  rfl

theorem readBack {mappings} (small : ∀ m ∈ mappings, m.Small) (sorted : mappings.Pairwise (· ≤ ·)) {line column r} (from_ : ∀ m ∈ mappings, line ≤ m.generated.line) (near : Near column) (held : r.Held) {row rest} (rows : rowsFrom line column r mappings = row :: rest) :
    readRest line column r row rest = some mappings := by
  induction mappings generalizing line column r row rest with
  | nil =>
    cases rows
    rfl
  | cons m tail ih =>
    obtain ⟨first,small'⟩ := List.forall_mem_cons.mp small
    obtain ⟨least,sorted'⟩ := List.pairwise_cons.mp sorted
    have reached := from_ m List.mem_cons_self
    have whole : line+(m.generated.line-line) = m.generated.line := Nat.add_sub_cancel' reached
    obtain ⟨row',rest',same⟩ := rowsSome m.generated.line (asI64 m.generated.column) (r.after m.original) tail
    have later := ih small' sorted' (fun n among => lineOrdered (least n among)) (nearSmall first.column) (afterHeld held first) same
    rw [rowsFrom,whole,same,List.modifyHead_cons] at rows
    cases gap_ : m.generated.line-line with
    | zero =>
      rw [gap_,List.replicate_zero,List.nil_append,if_neg (Nat.lt_irrefl 0)] at rows
      cases rows
      have stays : line = m.generated.line := by omega
      rw [stays]
      exact readOn near held first later
    | succ gap =>
      rw [gap_,List.replicate_succ,List.cons_append,if_pos (Nat.succ_pos gap)] at rows
      cases rows
      have reaches : line+1+gap = m.generated.line := by omega
      have fresh := readOn (show Near 0 from ⟨Int.le_refl 0,by decide⟩) held first later
      rw [readRest,readRow,Option.bind_some,readSkips,reaches,readRows]
      exact (congrArg (Option.map _) fresh).trans rfl

theorem decodeMappingsBack {mappings} (sorted : mappings.Pairwise (· ≤ ·)) (small : ∀ m ∈ mappings, m.Small) :
    decodeMappings (encodeMappings mappings) = some mappings := by
  obtain ⟨row,rest,same⟩ := rowsSome 0 0 origin mappings
  have read := readBack small sorted (fun _ _ => Nat.zero_le _) (show Near 0 from ⟨Int.le_refl 0,by decide⟩) originHeld same
  rw [decodeMappings,rowsBack,same]
  exact read

end Bamts.SourceMaps
