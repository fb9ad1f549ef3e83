import Bamts.ByteText
import Mathlib.Data.Set.Card
import Mathlib.Order.Interval.Finset.Nat

/-! Source text with its byte and UTF-16 coordinates: the checkpoints behind the characters that are not
ASCII, and the starts of the lines. -/
set_option linter.all false
namespace Bamts.SourceCoordinates
open ByteText

inductive SourcePositionError
  | byteOffsetOutOfBounds (offset len : Nat)
  | byteOffsetInsideCodePoint (offset : Nat)
  | utf16PositionOutOfBounds (position len : Nat)
  | utf16PositionInsideSurrogatePair (position : Nat)
  | rangeStartAfterEnd (start end_ : Nat)
  | sourceTooLarge (len limit : Nat)
  deriving DecidableEq

structure TextRange where
  start : Nat
  end_ : Nat

def TextRange.new (start end_ : Nat) : Except SourcePositionError TextRange :=
  if end_ < start then .error (.rangeStartAfterEnd start end_) else .ok ⟨start,end_⟩

structure BoundaryCheckpoint where
  byte : Nat
  utf16 : Nat

structure SourceText where
  text : Text
  checkpoints : List BoundaryCheckpoint
  lineStarts : List Nat
  utf16Len : Nat

def maxSourceBytes : Nat := 16*1024*1024

def isAscii (character : Char) : Bool := character.toNat < 128

def lenUtf16 (character : Char) : Nat := if character.toNat < 0x10000 then 1 else 2

def endsLine (character : Char) (rest : Text) : Bool :=
  character == '\n' || (character == '\r' && rest.head? != some '\n') || character == '\u2028' || character == '\u2029'

def scan (byte utf16 : Nat) : Text → List BoundaryCheckpoint × List Nat × Nat
  | [] => ([],[],utf16)
  | character :: rest =>
    let (checkpoints,lineStarts,utf16Len) := scan (byte+character.utf8Size) (utf16+lenUtf16 character) rest
    (if isAscii character then checkpoints else ⟨byte+character.utf8Size,utf16+lenUtf16 character⟩ :: checkpoints,
      if endsLine character rest then (utf16+lenUtf16 character) :: lineStarts else lineStarts,utf16Len)

def fromArc (text : Text) : Except SourcePositionError SourceText :=
  if maxSourceBytes < size text then .error (.sourceTooLarge (size text) maxSourceBytes)
  else .ok ⟨text,⟨0,0⟩ :: (scan 0 0 text).1,0 :: (scan 0 0 text).2.1,(scan 0 0 text).2.2⟩

def partitionPoint {α : Type} (predicate : α → Bool) (elements : List α) : Nat := (elements.takeWhile predicate).length

def isCharBoundary (text : Text) (offset : Nat) : Bool := (dropBytes offset text).isSome

namespace SourceText
variable (source : SourceText)

-- The outer option is the panic.
def byteToUtf16 (byteOffset : Nat) : Option (Except SourcePositionError Nat) :=
  if size source.text < byteOffset then some (.error (.byteOffsetOutOfBounds byteOffset (size source.text)))
  else if !isCharBoundary source.text byteOffset then some (.error (.byteOffsetInsideCodePoint byteOffset))
  else do
    let checkpoint ← source.checkpoints[partitionPoint (fun checkpoint => checkpoint.byte ≤ byteOffset) source.checkpoints-1]?
    if checkpoint.byte ≤ byteOffset then some (.ok (checkpoint.utf16+(byteOffset-checkpoint.byte))) else none

def utf16ToByte (position : Nat) : Option (Except SourcePositionError Nat) :=
  if source.utf16Len < position then some (.error (.utf16PositionOutOfBounds position source.utf16Len))
  else do
    let checkpoint ← source.checkpoints[partitionPoint (fun checkpoint => checkpoint.utf16 ≤ position) source.checkpoints-1]?
    if checkpoint.utf16 ≤ position then
      let byteOffset := checkpoint.byte+(position-checkpoint.utf16)
      if !isCharBoundary source.text byteOffset then some (.error (.utf16PositionInsideSurrogatePair position)) else some (.ok byteOffset)
    else none

def lineColumn (position : Nat) : Option (Except SourcePositionError (Nat × Nat)) :=
  match source.utf16ToByte position with
  | none => none
  | some (.error error) => some (.error error)
  | some (.ok _) => do
    let lineIndex := partitionPoint (fun lineStart => lineStart ≤ position) source.lineStarts-1
    let lineStart ← source.lineStarts[lineIndex]?
    if lineStart ≤ position then some (.ok (lineIndex,position-lineStart)) else none

def spansMultipleLines (range : TextRange) : Bool :=
  if source.utf16Len < range.end_ then true
  else partitionPoint (fun lineStart => lineStart ≤ range.start) source.lineStarts <
    partitionPoint (fun lineStart => lineStart ≤ range.end_) source.lineStarts

end SourceText

/-- The length in UTF-16 units. -/
def units (text : Text) : Nat := (text.map lenUtf16).sum

@[simp] theorem unitsNil : units [] = 0 := rfl

@[simp] theorem unitsCons (c) (text : Text) : units (c :: text) = lenUtf16 c+units text := by
  simp [units]

@[simp] theorem unitsAppend (a b) : units (a ++ b) = units a+units b := by
  simp [units]

/-- A byte offset and a UTF-16 position that fall between the same characters. -/
def Boundary (text : Text) (byte utf16 : Nat) : Prop := ∃ before rest, text = before ++ rest ∧ size before = byte ∧ units before = utf16

/-- A line starts at the beginning and behind every terminator, a CR alone among them. -/
def LineStart (text : Text) (position : Nat) : Prop :=
  position = 0 ∨ ∃ before c rest, text = before ++ c :: rest ∧ units (before ++ [c]) = position ∧
    (c = '\n' ∨ c = '\r' ∧ rest.head? ≠ some '\n' ∨ c = '\u2028' ∨ c = '\u2029')

variable {text before rest : Text} {byte utf16 : Nat} {base : BoundaryCheckpoint} {c : Char}

theorem utf8SizeCases (c : Char) : c.utf8Size = if c.toNat < 0x80 then 1 else if c.toNat < 0x800 then 2 else if c.toNat < 0x10000 then 3 else 4 := by
  change (if c.toNat ≤ 127 then 1 else if c.toNat ≤ 2047 then 2 else if c.toNat ≤ 65535 then 3 else 4) = _
  grind

theorem asciiOne (ascii : isAscii c = true) : c.utf8Size = 1 ∧ lenUtf16 c = 1 := by
  have small : c.toNat < 128 := of_decide_eq_true ascii
  rw [utf8SizeCases,if_pos small,lenUtf16,if_pos (by omega)]
  exact ⟨rfl,rfl⟩

theorem widths (c) : 1 ≤ lenUtf16 c ∧ lenUtf16 c ≤ 2 ∧ 1 ≤ c.utf8Size ∧ (lenUtf16 c = 2 → c.utf8Size = 4) := by
  rw [utf8SizeCases,lenUtf16]
  grind

theorem unitsZero : units text = 0 ↔ text = [] := by
  cases text with
  | nil => exact iff_of_true rfl rfl
  | cons c rest =>
    have some_ := (widths c).1
    rw [unitsCons]
    exact iff_of_false (by omega) (List.cons_ne_nil _ _)

/-- Texts in front are told apart by either length, in the same order. -/
theorem frontOrder {a b : Text} (first : a <+: text) (second : b <+: text) :
    (size a < size b ↔ units a < units b) ∧ (size a = size b ↔ a = b) ∧ (units a = units b ↔ a = b) := by
  have grown : ∀ {a b : Text}, a <+: b → a = b ∨ size a < size b ∧ units a < units b := by
    rintro a _ ⟨more,rfl⟩
    by_cases none : more = []
    · exact .inl (by rw [none,List.append_nil])
    · have bytes := mt sizeZero.mp none
      have units_ := mt unitsZero.mp none
      rw [sizeAppend,unitsAppend]
      omega
  rcases List.prefix_or_prefix_of_prefix first second with before | before
  · rcases grown before with rfl | ⟨less,less'⟩
    · exact ⟨by omega,iff_of_true rfl rfl,iff_of_true rfl rfl⟩
    · have apart : a ≠ b := fun same => less.ne (congrArg size same)
      exact ⟨iff_of_true less less',iff_of_false less.ne apart,iff_of_false less'.ne apart⟩
  · rcases grown before with rfl | ⟨less,less'⟩
    · exact ⟨by omega,iff_of_true rfl rfl,iff_of_true rfl rfl⟩
    · have apart : a ≠ b := fun same => less.ne' (congrArg size same)
      exact ⟨iff_of_false less.not_gt less'.not_gt,iff_of_false less.ne' apart,iff_of_false less'.ne' apart⟩

/-- Every checkpoint is a boundary behind some of the text. -/
theorem scanMember {checkpoint} (member : checkpoint ∈ (scan byte utf16 text).1) :
    ∃ front, front ≠ [] ∧ front <+: text ∧ checkpoint = ⟨byte+size front,utf16+units front⟩ := by
  induction text generalizing byte utf16 with
  | nil => cases member
  | cons c text ih =>
    have later : checkpoint ∈ (scan (byte+c.utf8Size) (utf16+lenUtf16 c) text).1 →
        ∃ front, front ≠ [] ∧ front <+: c :: text ∧ checkpoint = ⟨byte+size front,utf16+units front⟩ := by
      intro inner
      obtain ⟨front,-,before,rfl⟩ := ih inner
      refine ⟨c :: front,List.cons_ne_nil _ _,List.cons_prefix_cons.mpr ⟨rfl,before⟩,?_⟩
      rw [sizeCons,unitsCons,Nat.add_assoc,Nat.add_assoc]
    rw [scan] at member
    dsimp only at member
    split at member
    · exact later member
    · rcases List.mem_cons.mp member with rfl | inner
      · refine ⟨[c],List.cons_ne_nil _ _,List.prefix_append [c] text,?_⟩
        rw [sizeCons,unitsCons,sizeNil,unitsNil,Nat.add_zero,Nat.add_zero]
      · exact later inner

theorem partitionNone {α} {predicate : α → Bool} {elements} (none : ∀ x ∈ elements, predicate x = false) :
    partitionPoint predicate elements = 0 := by
  cases elements with
  | nil => rfl
  | cons x elements => rw [partitionPoint,List.takeWhile_cons_of_neg (by rw [none x List.mem_cons_self]; decide),List.length_nil]

/-- The last checkpoint that a search accepts is as many ASCII characters behind as there are bytes and units to go. -/
theorem checkpointBehind {predicate gap} (split : text = before ++ rest) (here : byte = base.byte+gap)
    (here' : utf16 = base.utf16+gap) (inside : ∀ front, front ≠ [] → front <+: before → predicate ⟨byte+size front,utf16+units front⟩ = true)
    (outside : ∀ front, front ≠ [] → front <+: rest → predicate ⟨byte+size (before ++ front),utf16+units (before ++ front)⟩ = false) :
    ∃ found gap, (base :: (scan byte utf16 text).1)[partitionPoint predicate (scan byte utf16 text).1]? = some found ∧
      byte+size before = found.byte+gap ∧ utf16+units before = found.utf16+gap := by
  induction text generalizing before byte utf16 base gap with
  | nil =>
    obtain ⟨rfl,rfl⟩ := List.append_eq_nil_iff.mp split.symm
    exact ⟨base,gap,rfl,here,here'⟩
  | cons c text ih =>
    cases before with
    | nil =>
      have none : partitionPoint predicate (scan byte utf16 (c :: text)).1 = 0 := by
        refine partitionNone fun checkpoint member => ?_
        obtain ⟨front,some_,before,rfl⟩ := scanMember member
        rw [split] at before
        exact outside front some_ before
      rw [none]
      exact ⟨base,gap,rfl,here,here'⟩
    | cons d before =>
      obtain ⟨rfl,split'⟩ := List.cons_eq_cons.mp split
      have inside' : ∀ front, front ≠ [] → front <+: before → predicate ⟨byte+c.utf8Size+size front,utf16+lenUtf16 c+units front⟩ = true := by
        intro front some_ before_
        have known := inside (c :: front) (List.cons_ne_nil _ _) (List.cons_prefix_cons.mpr ⟨rfl,before_⟩)
        rwa [sizeCons,unitsCons,← Nat.add_assoc,← Nat.add_assoc] at known
      have outside' : ∀ front, front ≠ [] → front <+: rest →
          predicate ⟨byte+c.utf8Size+size (before ++ front),utf16+lenUtf16 c+units (before ++ front)⟩ = false := by
        intro front some_ before_
        have known := outside front some_ before_
        rwa [List.cons_append,sizeCons,unitsCons,← Nat.add_assoc,← Nat.add_assoc] at known
      rw [sizeCons,unitsCons,← Nat.add_assoc,← Nat.add_assoc,scan]
      dsimp only
      by_cases ascii : isAscii c = true
      · obtain ⟨one,one'⟩ := asciiOne ascii
        rw [if_pos ascii]
        exact @ih before _ _ base (gap+1) split' (by omega) (by omega) inside' outside'
      · have first := inside [c] (List.cons_ne_nil _ _) (List.prefix_append [c] before)
        rw [sizeCons,unitsCons,sizeNil,unitsNil,Nat.add_zero,Nat.add_zero] at first
        rw [if_neg ascii,partitionPoint,List.takeWhile_cons_of_pos first,List.length_cons,List.getElem?_cons_succ]
        exact @ih before _ _ ⟨byte+c.utf8Size,utf16+lenUtf16 c⟩ 0 split' rfl rfl inside' outside'

theorem scanLength (byte utf16 text) : (scan byte utf16 text).2.2 = utf16+units text := by
  induction text generalizing byte utf16 with
  | nil => rfl
  | cons c text ih =>
    rw [scan,unitsCons,← Nat.add_assoc]
    exact ih _ _

theorem boundaryIff (text n) : isCharBoundary text n = true ↔ ∃ before rest, text = before ++ rest ∧ size before = n := by
  rw [isCharBoundary,Option.isSome_iff_exists]
  constructor
  · rintro ⟨rest,dropped⟩
    obtain ⟨before,split,same⟩ := dropBytesIff.mp dropped
    exact ⟨before,rest,split,same⟩
  · rintro ⟨before,rest,split,same⟩
    exact ⟨rest,dropBytesIff.mpr ⟨before,split,same⟩⟩

/-- The source that is stored for a text. -/
def stored (text : Text) : SourceText := ⟨text,⟨0,0⟩ :: (scan 0 0 text).1,0 :: (scan 0 0 text).2.1,(scan 0 0 text).2.2⟩

theorem storedBuilt {source} (built : fromArc text = .ok source) : source = stored text := by
  rw [fromArc] at built
  split at built
  · cases built
  · cases built
    rfl

theorem partitionFirst {α} {predicate : α → Bool} {x elements} (first : predicate x = true) :
    partitionPoint predicate (x :: elements)-1 = partitionPoint predicate elements := by
  rw [partitionPoint,List.takeWhile_cons_of_pos first,List.length_cons,Nat.add_sub_cancel]
  rfl

theorem frontShorter {a b : Text} (before : a <+: b) : size a ≤ size b ∧ units a ≤ units b := by
  obtain ⟨more,rfl⟩ := before
  rw [sizeAppend,unitsAppend]
  exact ⟨Nat.le_add_right _ _,Nat.le_add_right _ _⟩

theorem byteFound (split : text = before ++ rest) : (stored text).byteToUtf16 (size before) = some (.ok (units before)) := by
  have boundary := (boundaryIff text (size before)).mpr ⟨before,rest,split,rfl⟩
  have short : ¬size text < size before := by
    rw [split,sizeAppend]
    omega
  obtain ⟨found,gap,at_,bytes,units_⟩ := @checkpointBehind text before rest 0 0 ⟨0,0⟩ (fun checkpoint => checkpoint.byte ≤ size before) 0 split rfl rfl
    (fun front _ before_ => decide_eq_true (by rw [Nat.zero_add]; exact (frontShorter before_).1))
    (fun front some_ _ => decide_eq_false (by
      have more := mt sizeZero.mp some_
      dsimp only
      rw [Nat.zero_add,sizeAppend]
      omega))
  have index : partitionPoint (fun checkpoint : BoundaryCheckpoint => checkpoint.byte ≤ size before) (⟨0,0⟩ :: (scan 0 0 text).1)-1 =
      partitionPoint (fun checkpoint : BoundaryCheckpoint => checkpoint.byte ≤ size before) (scan 0 0 text).1 :=
    partitionFirst (decide_eq_true (Nat.zero_le _))
  rw [SourceText.byteToUtf16,stored]
  rw [if_neg short,if_neg (by rw [boundary]; decide),index,at_,Option.bind_eq_bind,Option.bind_some,if_pos (by omega)]
  congr 2
  omega

/-- Every position within the length is a boundary or one unit into a pair. -/
theorem placed {position} (within : position ≤ units text) : ∃ before rest, text = before ++ rest ∧
    (position = units before ∨ position = units before+1 ∧ ∃ c rest', rest = c :: rest' ∧ lenUtf16 c = 2) := by
  induction text generalizing position with
  | nil => exact ⟨[],[],rfl,.inl (Nat.le_zero.mp within)⟩
  | cons c text ih =>
    rw [unitsCons] at within
    rcases Nat.lt_or_ge position (lenUtf16 c) with inside | past
    · have wide := (widths c).2.1
      rcases Nat.eq_zero_or_pos position with zero | some_
      · exact ⟨[],c :: text,rfl,.inl zero⟩
      · exact ⟨[],c :: text,rfl,.inr ⟨by rw [unitsNil]; omega,c,text,rfl,by omega⟩⟩
    · obtain ⟨before,rest,split,place⟩ := @ih (position-lenUtf16 c) (by omega)
      refine ⟨c :: before,rest,by rw [split]; rfl,?_⟩
      rw [unitsCons]
      rcases place with same | ⟨same,pair⟩
      · exact .inl (by omega)
      · exact .inr ⟨by omega,pair⟩

theorem positionFound {extra} (split : text = before ++ rest) (inside : ∀ front, front ≠ [] → front <+: rest → extra < units front) :
    ∃ found, (stored text).checkpoints[partitionPoint (fun checkpoint => checkpoint.utf16 ≤ units before+extra)
        (stored text).checkpoints-1]? = some found ∧
      found.utf16 ≤ units before+extra ∧ found.byte+(units before+extra-found.utf16) = size before+extra := by
  obtain ⟨found,gap,at_,bytes,units_⟩ := @checkpointBehind text before rest 0 0 ⟨0,0⟩ (fun checkpoint => checkpoint.utf16 ≤ units before+extra) 0 split rfl rfl
    (fun front _ before_ => decide_eq_true (by
      have less := (frontShorter before_).2
      dsimp only
      rw [Nat.zero_add]
      exact le_add_right less))
    (fun front some_ before_ => decide_eq_false (by
      have more := inside front some_ before_
      dsimp only
      rw [Nat.zero_add,unitsAppend]
      omega))
  exact ⟨found,at_,by omega,by omega⟩

theorem positionExact (split : text = before ++ rest) : (stored text).utf16ToByte (units before) = some (.ok (size before)) := by
  obtain ⟨found,at_,order,byte_⟩ := @positionFound text before rest 0 split fun front some_ _ => Nat.pos_of_ne_zero (mt unitsZero.mp some_)
  rw [Nat.add_zero] at at_ order
  rw [Nat.add_zero,Nat.add_zero] at byte_
  have boundary := (boundaryIff text (size before)).mpr ⟨before,rest,split,rfl⟩
  have length : (stored text).utf16Len = units text := (scanLength 0 0 text).trans (Nat.zero_add _)
  have short : ¬units text < units before := by
    rw [split,unitsAppend]
    omega
  rw [SourceText.utf16ToByte,length,if_neg short,at_,Option.bind_eq_bind,Option.bind_some,if_pos order,byte_]
  exact if_neg (by rw [stored]; dsimp only; rw [boundary]; decide)

/-- One unit into a pair is one byte into its character. -/
theorem positionInside (split : text = before ++ c :: rest) (wide : lenUtf16 c = 2) :
    (stored text).utf16ToByte (units before+1) = some (.error (.utf16PositionInsideSurrogatePair (units before+1))) := by
  have inside : ∀ front, front ≠ [] → front <+: c :: rest → 1 < units front := by
    intro front some_ before_
    obtain ⟨d,front',rfl⟩ := List.exists_cons_of_ne_nil some_
    obtain ⟨rfl,-⟩ := List.cons_prefix_cons.mp before_
    rw [unitsCons]
    omega
  obtain ⟨found,at_,order,byte_⟩ := @positionFound text before (c :: rest) 1 split inside
  have length : (stored text).utf16Len = units text := (scanLength 0 0 text).trans (Nat.zero_add _)
  have short : ¬units text < units before+1 := by
    rw [split,unitsAppend,unitsCons]
    omega
  have apart : isCharBoundary text (size before+1) = false := by
    rw [Bool.eq_false_iff,ne_eq,boundaryIff]
    rintro ⟨before',rest',split',same⟩
    have front : before' <+: text := ⟨rest',split'.symm⟩
    rcases List.prefix_or_prefix_of_prefix front ⟨c :: rest,split.symm⟩ with shorter | ⟨more,longer⟩
    · have order := (frontShorter shorter).1
      omega
    · have four := (widths c).2.2.2 wide
      cases more with
      | nil =>
        rw [← longer,List.append_nil] at same
        omega
      | cons d more =>
        rw [← longer,split,List.append_assoc,List.append_cancel_left_eq,List.cons_append,List.cons_eq_cons] at split'
        rw [← longer,sizeAppend,sizeCons,← split'.1] at same
        omega
  rw [SourceText.utf16ToByte,length,if_neg short,at_,Option.bind_eq_bind,Option.bind_some,if_pos order,byte_]
  exact if_pos (by rw [stored]; dsimp only; rw [apart]; rfl)

theorem endsLineIff : endsLine c rest = true ↔ c = '\n' ∨ c = '\r' ∧ rest.head? ≠ some '\n' ∨ c = '\u2028' ∨ c = '\u2029' := by
  simp [endsLine,or_assoc]

theorem linesMember {position} : position ∈ (scan byte utf16 text).2.1 ↔
    ∃ before c rest, text = before ++ c :: rest ∧ utf16+units (before ++ [c]) = position ∧ endsLine c rest = true := by
  induction text generalizing byte utf16 with
  | nil =>
    refine iff_of_false List.not_mem_nil ?_
    rintro ⟨before,c,rest,split,-⟩
    exact absurd split.symm (by simp)
  | cons d text ih =>
    have split : position ∈ (scan byte utf16 (d :: text)).2.1 ↔
        endsLine d text = true ∧ position = utf16+lenUtf16 d ∨ position ∈ (scan (byte+d.utf8Size) (utf16+lenUtf16 d) text).2.1 := by
      rw [scan]
      dsimp only
      split
      · rename_i ends
        rw [List.mem_cons,ends]
        simp
      · rename_i ends
        simp [ends]
    rw [split,ih]
    constructor
    · rintro (⟨ends,rfl⟩ | ⟨before,c,rest,rfl,rfl,ends⟩)
      · exact ⟨[],d,text,rfl,by simp,ends⟩
      · exact ⟨d :: before,c,rest,rfl,by rw [List.cons_append,unitsCons,Nat.add_assoc],ends⟩
    · rintro ⟨before,c,rest,same,rfl,ends⟩
      cases before with
      | nil =>
        obtain ⟨rfl,rfl⟩ := List.cons_eq_cons.mp same
        exact .inl ⟨ends,by simp⟩
      | cons e before =>
        obtain ⟨rfl,rfl⟩ := List.cons_eq_cons.mp same
        exact .inr ⟨before,c,rest,rfl,by rw [List.cons_append,unitsCons,Nat.add_assoc],ends⟩

theorem linesSorted (byte utf16 text) : (utf16 :: (scan byte utf16 text).2.1).Pairwise (· < ·) := by
  induction text generalizing byte utf16 with
  | nil => exact List.pairwise_singleton _ _
  | cons c text ih =>
    have some_ := (widths c).1
    have later := ih (byte+c.utf8Size) (utf16+lenUtf16 c)
    rw [List.pairwise_cons] at later
    rw [scan]
    dsimp only
    split
    · refine List.pairwise_cons.mpr ⟨fun position member => ?_,List.pairwise_cons.mpr later⟩
      rcases List.mem_cons.mp member with rfl | inner
      · omega
      · have order := later.1 position inner
        omega
    · refine List.pairwise_cons.mpr ⟨fun position member => ?_,later.2⟩
      have order := later.1 position member
      omega

theorem startsMember (position) : position ∈ (stored text).lineStarts ↔ LineStart text position := by
  rw [stored,LineStart]
  rw [List.mem_cons,linesMember]
  refine or_congr_right ?_
  constructor
  · rintro ⟨before,c,rest,split,same,ends⟩
    exact ⟨before,c,rest,split,by rwa [Nat.zero_add] at same,endsLineIff.mp ends⟩
  · rintro ⟨before,c,rest,split,same,ends⟩
    exact ⟨before,c,rest,split,by rwa [Nat.zero_add],endsLineIff.mpr ends⟩

theorem startsRising (text) : (stored text).lineStarts.Pairwise (· < ·) := linesSorted 0 0 text

/-- In a rising list the search finds all the elements up to a bound. -/
theorem partitionRising {elements : List Nat} (rising : elements.Pairwise (· < ·)) (bound) :
    elements.takeWhile (fun x => x ≤ bound) = elements.filter (fun x => x ≤ bound) := by
  induction elements with
  | nil => rfl
  | cons x elements ih =>
    obtain ⟨above,rising'⟩ := List.pairwise_cons.mp rising
    by_cases small : x ≤ bound
    · simp [small,ih rising']
    · have none : elements.filter (fun x => x ≤ bound) = [] := by
        refine List.filter_eq_nil_iff.mpr fun y member => ?_
        have order := above y member
        rw [decide_eq_true_eq]
        omega
      simp [small,none]

theorem partitionCount {elements : List Nat} (rising : elements.Pairwise (· < ·)) (bound) :
    partitionPoint (fun x => x ≤ bound) elements = {x | x ∈ elements ∧ x ≤ bound}.ncard := by
  have distinct : (elements.filter fun x => x ≤ bound).Nodup := (rising.imp fun less => less.ne).filter _
  have set_ : {x | x ∈ elements ∧ x ≤ bound} = ((elements.filter fun x => x ≤ bound).toFinset : Set Nat) := by
    simp
  rw [partitionPoint,partitionRising rising,set_,Set.ncard_coe_finset,List.toFinset_card_of_nodup distinct]

theorem partitionGreatest {elements : List Nat} (rising : elements.Pairwise (· < ·)) {bound first} (member : first ∈ elements) (small : first ≤ bound) :
    ∃ last, elements[partitionPoint (fun x => x ≤ bound) elements-1]? = some last ∧ IsGreatest {x | x ∈ elements ∧ x ≤ bound} last ∧
      0 < partitionPoint (fun x => x ≤ bound) elements := by
  have front := partitionRising rising bound
  have all := @List.takeWhile_append_dropWhile _ (fun x => decide (x ≤ bound)) elements
  rw [partitionPoint]
  generalize elements.takeWhile (fun x => x ≤ bound) = taken at front all
  have among : ∀ x, x ∈ taken ↔ x ∈ elements ∧ x ≤ bound := by
    intro x
    rw [front,List.mem_filter,decide_eq_true_eq]
  obtain ⟨others,last,rfl⟩ := (List.eq_nil_or_concat taken).resolve_left (List.ne_nil_of_mem ((among first).mpr ⟨member,small⟩))
  rw [List.concat_eq_append] at front all among ⊢
  refine ⟨last,?_,⟨(among last).mp (List.mem_append_right _ List.mem_cons_self),fun x inside => ?_⟩,?_⟩
  · rw [← all,List.length_append,List.length_singleton,Nat.add_sub_cancel,List.append_assoc,List.getElem?_append_right le_rfl,Nat.sub_self]
    rfl
  · rcases List.mem_append.mp ((among x).mpr inside) with before | here
    · have sorted := rising.sublist (List.filter_sublist (p := fun x => decide (x ≤ bound)))
      rw [← front] at sorted
      exact ((List.pairwise_append.mp sorted).2.2 x before last List.mem_cons_self).le
    · exact (List.mem_singleton.mp here).le
  · rw [List.length_append,List.length_singleton]
    exact Nat.succ_pos _

theorem partitionLess {elements : List Nat} (rising : elements.Pairwise (· < ·)) (low high) :
    partitionPoint (fun x => x ≤ low) elements < partitionPoint (fun x => x ≤ high) elements ↔ ∃ x ∈ elements, low < x ∧ x ≤ high := by
  rw [partitionCount rising,partitionCount rising]
  have finite : ∀ bound, {x | x ∈ elements ∧ x ≤ bound}.Finite := fun bound => (Set.finite_Iic bound).subset fun x inside => inside.2
  constructor
  · intro less
    by_contra none
    have covered : {x | x ∈ elements ∧ x ≤ high} ⊆ {x | x ∈ elements ∧ x ≤ low} := by
      rintro x ⟨member,below⟩
      refine ⟨member,?_⟩
      by_contra above
      exact none ⟨x,member,not_le.mp above,below⟩
    exact absurd (Set.ncard_le_ncard covered (finite low)) (Nat.not_le.mpr less)
  · rintro ⟨x,member,above,below⟩
    refine Set.ncard_lt_ncard ⟨fun y inside => ⟨inside.1,by have := inside.2; omega⟩,fun covered => ?_⟩ (finite high)
    exact absurd (covered ⟨member,below⟩).2 (Nat.not_le.mpr above)

theorem storedLength (text) : (stored text).utf16Len = units text := (scanLength 0 0 text).trans (Nat.zero_add _)

theorem bytesPast {n} (past : size text < n) : (stored text).byteToUtf16 n = some (.error (.byteOffsetOutOfBounds n (size text))) := if_pos past

theorem bytesInside {n} (within : n ≤ size text) (apart : ¬∃ p, Boundary text n p) :
    (stored text).byteToUtf16 n = some (.error (.byteOffsetInsideCodePoint n)) := by
  have none : isCharBoundary text n = false := by
    rw [Bool.eq_false_iff,ne_eq,boundaryIff]
    rintro ⟨before,rest,split,same⟩
    exact apart ⟨units before,before,rest,split,same,rfl⟩
  rw [SourceText.byteToUtf16,stored]
  rw [if_neg (Nat.not_lt.mpr within),if_pos (by rw [none]; rfl)]

/-- A boundary, past the end, or inside of a character. -/
theorem bytesCases (text n) : (∃ p, Boundary text n p ∧ (stored text).byteToUtf16 n = some (.ok p)) ∨
    size text < n ∧ (stored text).byteToUtf16 n = some (.error (.byteOffsetOutOfBounds n (size text))) ∨
    (n ≤ size text ∧ ¬∃ p, Boundary text n p) ∧ (stored text).byteToUtf16 n = some (.error (.byteOffsetInsideCodePoint n)) := by
  by_cases some_ : ∃ p, Boundary text n p
  · obtain ⟨_,before,rest,split,rfl,rfl⟩ := some_
    exact .inl ⟨_,⟨before,rest,split,rfl,rfl⟩,byteFound split⟩
  · rcases Nat.lt_or_ge (size text) n with past | within
    · exact .inr (.inl ⟨past,bytesPast past⟩)
    · exact .inr (.inr ⟨⟨within,some_⟩,bytesInside within some_⟩)

def InsidePair (text : Text) (position : Nat) : Prop := ∃ before c rest, text = before ++ c :: rest ∧ lenUtf16 c = 2 ∧ position = units before+1

theorem positionCases (text position) : (∃ n, Boundary text n position ∧ (stored text).utf16ToByte position = some (.ok n)) ∨
    units text < position ∧ (stored text).utf16ToByte position = some (.error (.utf16PositionOutOfBounds position (units text))) ∨
    InsidePair text position ∧ (stored text).utf16ToByte position = some (.error (.utf16PositionInsideSurrogatePair position)) := by
  rcases Nat.lt_or_ge (units text) position with past | within
  · refine .inr (.inl ⟨past,?_⟩)
    rw [SourceText.utf16ToByte,storedLength,if_pos past]
  · obtain ⟨before,rest,split,rfl | ⟨rfl,c,rest,rfl,wide⟩⟩ := placed within
    · exact .inl ⟨_,⟨before,rest,split,rfl,rfl⟩,positionExact split⟩
    · exact .inr (.inr ⟨⟨before,c,rest,split,wide,rfl⟩,positionInside split wide⟩)

theorem boundaryUnique {n m p q} (first : Boundary text n p) (second : Boundary text m q) : (n < m ↔ p < q) ∧ (n = m ↔ p = q) := by
  obtain ⟨before,rest,split,rfl,rfl⟩ := first
  obtain ⟨before',rest',split',rfl,rfl⟩ := second
  obtain ⟨order,same,same'⟩ := frontOrder ⟨rest,split.symm⟩ ⟨rest',split'.symm⟩
  exact ⟨order,same.trans same'.symm⟩

theorem linesFound {position} (boundary : ∃ n, Boundary text n position) : ∃ l c, (stored text).lineColumn position = some (.ok (l,c)) ∧
    l+1 = {q | LineStart text q ∧ q ≤ position}.ncard ∧ ∃ s, IsGreatest {q | LineStart text q ∧ q ≤ position} s ∧ position = s+c := by
  obtain ⟨_,before,rest,split,rfl,rfl⟩ := boundary
  have same : ∀ bound, {q | q ∈ (stored text).lineStarts ∧ q ≤ bound} = {q | LineStart text q ∧ q ≤ bound} := by
    intro bound
    ext q
    exact and_congr_left fun _ => startsMember q
  have rising := startsRising text
  obtain ⟨s,at_,greatest,some_⟩ := partitionGreatest rising ((startsMember 0).mpr (.inl rfl)) (Nat.zero_le (units before))
  have count := partitionCount rising (units before)
  rw [same] at greatest count
  have order : s ≤ units before := greatest.1.2
  refine ⟨partitionPoint (fun x => x ≤ units before) (stored text).lineStarts-1,units before-s,?_,by omega,s,greatest,by omega⟩
  rw [SourceText.lineColumn,positionExact split]
  dsimp only
  rw [at_,Option.bind_eq_bind,Option.bind_some,if_pos order]

theorem spansIff (text range) (within : range.end_ ≤ units text) :
    (stored text).spansMultipleLines range = true ↔ ∃ q, LineStart text q ∧ range.start < q ∧ q ≤ range.end_ := by
  rw [SourceText.spansMultipleLines,storedLength,if_neg (Nat.not_lt.mpr within),decide_eq_true_eq,partitionLess (startsRising text)]
  exact exists_congr fun q => and_congr_left fun _ => startsMember q

/-- What the coordinates of a source have to be, for a text. -/
structure Coordinates (text : Text) (source : SourceText) : Prop where
  bytes : ∀ n p, source.byteToUtf16 n = some (.ok p) ↔ Boundary text n p
  positions : ∀ p n, source.utf16ToByte p = some (.ok n) ↔ Boundary text n p
  rising : ∀ n p m q, Boundary text n p → Boundary text m q → (n < m ↔ p < q)
  bytesPast : ∀ n, source.byteToUtf16 n = some (.error (.byteOffsetOutOfBounds n (size text))) ↔ size text < n
  bytesInside : ∀ n, source.byteToUtf16 n = some (.error (.byteOffsetInsideCodePoint n)) ↔ n ≤ size text ∧ ¬∃ p, Boundary text n p
  positionsPast : ∀ p, source.utf16ToByte p = some (.error (.utf16PositionOutOfBounds p (units text))) ↔ units text < p
  positionsInside : ∀ p, source.utf16ToByte p = some (.error (.utf16PositionInsideSurrogatePair p)) ↔ InsidePair text p
  lines : ∀ p l c, source.lineColumn p = some (.ok (l,c)) ↔ (∃ n, Boundary text n p) ∧ l+1 = {q | LineStart text q ∧ q ≤ p}.ncard ∧
    ∃ s, IsGreatest {q | LineStart text q ∧ q ≤ p} s ∧ p = s+c
  linesFail : ∀ p error, source.lineColumn p = some (.error error) ↔ source.utf16ToByte p = some (.error error)

theorem storedCoordinates (text) : Coordinates text (stored text) := by
  have bytes := bytesCases text
  have positions := positionCases text
  constructor
  · intro n p
    refine ⟨fun found => ?_,fun ⟨before,rest,split,first,second⟩ => by rw [← first,← second,byteFound split]⟩
    rcases bytes n with ⟨q,boundary,run⟩ | ⟨-,run⟩ | ⟨-,run⟩ <;> rw [run] at found <;> cases found
    exact boundary
  · intro p n
    refine ⟨fun found => ?_,fun ⟨before,rest,split,first,second⟩ => by rw [← first,← second,positionExact split]⟩
    rcases positions p with ⟨m,boundary,run⟩ | ⟨-,run⟩ | ⟨-,run⟩ <;> rw [run] at found <;> cases found
    exact boundary
  · exact fun n p m q first second => (boundaryUnique first second).1
  · intro n
    refine ⟨fun found => ?_,Bamts.SourceCoordinates.bytesPast⟩
    rcases bytes n with ⟨q,-,run⟩ | ⟨past,-⟩ | ⟨-,run⟩
    · rw [run] at found; cases found
    · exact past
    · rw [run] at found; cases found
  · intro n
    refine ⟨fun found => ?_,fun apart => Bamts.SourceCoordinates.bytesInside apart.1 apart.2⟩
    rcases bytes n with ⟨q,-,run⟩ | ⟨-,run⟩ | ⟨apart,-⟩
    · rw [run] at found; cases found
    · rw [run] at found; cases found
    · exact apart
  · intro p
    refine ⟨fun found => ?_,fun past => by rw [SourceText.utf16ToByte,storedLength,if_pos past]⟩
    rcases positions p with ⟨m,-,run⟩ | ⟨past,-⟩ | ⟨-,run⟩
    · rw [run] at found; cases found
    · exact past
    · rw [run] at found; cases found
  · intro p
    refine ⟨fun found => ?_,fun ⟨before,c,rest,split,wide,same⟩ => by rw [same,positionInside split wide]⟩
    rcases positions p with ⟨m,-,run⟩ | ⟨-,run⟩ | ⟨inside,-⟩
    · rw [run] at found; cases found
    · rw [run] at found; cases found
    · exact inside
  · intro p l c
    constructor
    · intro found
      rcases positions p with ⟨m,boundary,-⟩ | ⟨-,run⟩ | ⟨-,run⟩
      · obtain ⟨l',c',run,facts⟩ := linesFound ⟨m,boundary⟩
        rw [run] at found
        cases found
        exact ⟨⟨m,boundary⟩,facts⟩
      · rw [SourceText.lineColumn,run] at found; cases found
      · rw [SourceText.lineColumn,run] at found; cases found
    · rintro ⟨boundary,count,s,greatest,same⟩
      obtain ⟨l',c',run,count',s',greatest',same'⟩ := linesFound boundary
      have first : l = l' := by omega
      have start := greatest.unique greatest'
      have second : c = c' := by omega
      rw [run,first,second]
  · intro p error
    rcases positions p with ⟨m,boundary,run⟩ | ⟨-,run⟩ | ⟨-,run⟩
    · obtain ⟨l,c,run',-⟩ := linesFound ⟨m,boundary⟩
      rw [run,run']
      exact iff_of_false (fun found => by cases found) (fun found => by cases found)
    · rw [SourceText.lineColumn,run]
      exact ⟨fun found => (by cases found; rfl),fun found => (by cases found; rfl)⟩
    · rw [SourceText.lineColumn,run]
      exact ⟨fun found => (by cases found; rfl),fun found => (by cases found; rfl)⟩

/-- Past the end a range is taken to span lines. -/
theorem sourceCoordinates {text : Text} {source : SourceText} (built : fromArc text = .ok source) : Coordinates text source ∧
    ∀ range : TextRange, (range.end_ ≤ units text →
      (source.spansMultipleLines range = true ↔ ∃ q, LineStart text q ∧ range.start < q ∧ q ≤ range.end_)) ∧
      (units text < range.end_ → source.spansMultipleLines range = true) := by
  rw [storedBuilt built]
  refine ⟨storedCoordinates text,fun range => ⟨spansIff text range,fun past => ?_⟩⟩
  rw [SourceText.spansMultipleLines,storedLength,if_pos past]

theorem sourceCoordinatesPair : Coordinates ['a','😀','\r','\n'] (stored ['a','😀','\r','\n']) ∧ ∀ range : TextRange, (range.end_ ≤ units ['a','😀','\r','\n'] →
      ((stored ['a','😀','\r','\n']).spansMultipleLines range = true ↔ ∃ q, LineStart ['a','😀','\r','\n'] q ∧ range.start < q ∧ q ≤ range.end_)) ∧
      (units ['a','😀','\r','\n'] < range.end_ → (stored ['a','😀','\r','\n']).spansMultipleLines range = true) :=
  sourceCoordinates rfl

/-- The empty text has one line start, which is line 0, and nothing in it is in front of position 1. -/
theorem emptySource : fromArc [] = .ok (stored []) ∧ (stored []).lineColumn 0 = some (.ok (0,0)) ∧ {q | LineStart [] q ∧ q ≤ 0}.ncard = 1 ∧
    TextRange.new 0 1 = .ok ⟨0,1⟩ ∧ (stored []).spansMultipleLines ⟨0,1⟩ = true ∧ ¬∃ q, LineStart [] q ∧ 0 < q ∧ q ≤ 1 := by
  have starts : ∀ q, LineStart [] q ↔ q = 0 := fun q => by rw [← startsMember,stored]; simp [scan]
  refine ⟨rfl,rfl,?_,rfl,rfl,?_⟩
  · have single : {q | LineStart [] q ∧ q ≤ 0} = {0} := by
      ext q
      rw [Set.mem_ofPred_eq,starts]
      simp
    rw [single,Set.ncard_singleton]
  · rintro ⟨q,start,some_,-⟩
    exact some_.ne' ((starts q).mp start)

end Bamts.SourceCoordinates
