import Mathlib.Data.List.TakeWhile
import Mathlib.Algebra.GroupWithZero.Nat

/-! Text addressed by the byte offsets of its UTF-8 form. A slice exists when both of its ends fall
between characters. -/
set_option linter.all false
namespace Bamts.ByteText

abbrev Text := List Char

def size (text : Text) : Nat := (text.map Char.utf8Size).sum

@[simp] theorem sizeNil : size [] = 0 := rfl

@[simp] theorem sizeCons (c) (text : Text) : size (c :: text) = c.utf8Size + size text := by
  simp [size]

@[simp] theorem sizeAppend (a b) : size (a ++ b) = size a + size b := by
  simp [size]

theorem sizeZero {text} : size text = 0 ↔ text = [] := by
  cases text with
  | nil => simp
  | cons c rest => have := c.utf8Size_pos; simp; omega

/-- `&text[n..]` as far as the offset falls between characters. -/
def dropBytes : Nat → Text → Option Text
  | 0, text => some text
  | _+1, [] => none
  | n+1, c :: rest => if c.utf8Size ≤ n+1 then dropBytes (n+1-c.utf8Size) rest else none

/-- `&text[..n]`. -/
def takeBytes : Nat → Text → Option Text
  | 0, _ => some []
  | _+1, [] => none
  | n+1, c :: rest =>
      if c.utf8Size ≤ n+1 then (takeBytes (n+1-c.utf8Size) rest).map (c :: ·) else none

@[simp] theorem dropBytesZero (text) : dropBytes 0 text = some text := by cases text <;> rfl
@[simp] theorem takeBytesZero (text) : takeBytes 0 text = some [] := by cases text <;> rfl

theorem dropBytesCons {n c} (rest : Text) (fits : c.utf8Size ≤ n) :
    dropBytes n (c :: rest) = dropBytes (n-c.utf8Size) rest := by
  cases n with
  | zero => have := c.utf8Size_pos; omega
  | succ n => rw [dropBytes,if_pos fits]

theorem takeBytesCons {n c} (rest : Text) (fits : c.utf8Size ≤ n) :
    takeBytes n (c :: rest) = (takeBytes (n-c.utf8Size) rest).map (c :: ·) := by
  cases n with
  | zero => have := c.utf8Size_pos; omega
  | succ n => rw [takeBytes,if_pos fits]

theorem dropBytesOnward (before rest n) :
    dropBytes (size before + n) (before ++ rest) = dropBytes n rest := by
  induction before with
  | nil => simp
  | cons c before ih =>
    rw [List.cons_append,dropBytesCons _ (by simp; omega),← ih]
    congr 1
    simp
    omega

theorem takeBytesOnward (before rest n) :
    takeBytes (size before + n) (before ++ rest) = (takeBytes n rest).map (before ++ ·) := by
  induction before with
  | nil => simp
  | cons c before ih =>
    have less : size (c :: before) + n - c.utf8Size = size before + n := by simp; omega
    rw [List.cons_append,takeBytesCons _ (by simp; omega),less,ih,Option.map_map]
    rfl

theorem dropBytesAt (before rest) : dropBytes (size before) (before ++ rest) = some rest := by
  have := dropBytesOnward before rest 0
  simpa using this

theorem takeBytesAt (before rest) : takeBytes (size before) (before ++ rest) = some before := by
  have := takeBytesOnward before rest 0
  simpa using this

theorem dropBytesIff {n text rest} :
    dropBytes n text = some rest ↔ ∃ before, text = before ++ rest ∧ size before = n := by
  constructor
  · intro found
    induction text generalizing n with
    | nil =>
      cases n with
      | zero => exact ⟨[],by simpa using found,rfl⟩
      | succ n => cases found
    | cons c text ih =>
      cases n with
      | zero => exact ⟨[],by simpa using found,rfl⟩
      | succ n =>
        rw [dropBytes] at found
        split at found
        · obtain ⟨before,same,long⟩ := ih found
          exact ⟨c :: before,by rw [same]; rfl,by simp; omega⟩
        · cases found
  · intro h
    obtain ⟨before,rfl,rfl⟩ := h
    exact dropBytesAt before rest

theorem takeBytesIff {n text piece} :
    takeBytes n text = some piece ↔ ∃ rest, text = piece ++ rest ∧ size piece = n := by
  constructor
  · intro found
    induction text generalizing n piece with
    | nil =>
      cases n with
      | zero => cases found; exact ⟨[],rfl,rfl⟩
      | succ n => cases found
    | cons c text ih =>
      cases n with
      | zero => cases found; exact ⟨c :: text,rfl,rfl⟩
      | succ n =>
        rw [takeBytes] at found
        split at found
        · obtain ⟨tail,inner,rfl⟩ := Option.map_eq_some_iff.mp found
          obtain ⟨rest,same,long⟩ := ih inner
          exact ⟨rest,by rw [same]; rfl,by simp; omega⟩
        · cases found
  · intro h
    obtain ⟨rest,rfl,rfl⟩ := h
    exact takeBytesAt piece rest

/-- `text.get(start..stop)` -/
def slice (text : Text) (start stop : Nat) : Option Text :=
  if start ≤ stop then (dropBytes start text).bind (takeBytes (stop-start)) else none

/-- The character that begins at a byte. An ASCII byte is always a whole character, so comparing
the result with an ASCII character is comparing the byte. -/
def charAt (text : Text) (offset : Nat) : Option Char := (dropBytes offset text).bind List.head?

theorem sliceOnward (before rest start stop) :
    slice (before ++ rest) (size before + start) (size before + stop) = slice rest start stop := by
  simp only [slice,dropBytesOnward,Nat.add_le_add_iff_left,Nat.add_sub_add_left]

theorem charAtOnward (before rest offset) :
    charAt (before ++ rest) (size before + offset) = charAt rest offset := by
  simp only [charAt,dropBytesOnward]

@[simp] theorem charAtStart (text) : charAt text 0 = text.head? := by simp [charAt]

theorem charAtHere (before rest) : charAt (before ++ rest) (size before) = rest.head? := by
  have := charAtOnward before rest 0
  simpa using this

/-- A cursor that falls between characters, and the text after it. -/
def At (text : Text) (cursor : Nat) (rest : Text) : Prop := dropBytes cursor text = some rest

namespace At

variable {text rest : Text} {cursor : Nat}

theorem start (text) : At text 0 text := dropBytesZero text

theorem splits (at_ : At text cursor rest) : ∃ before, text = before ++ rest ∧ size before = cursor := dropBytesIff.mp at_

theorem slice_ (at_ : At text cursor rest) (n) : slice text cursor (cursor+n) = takeBytes n rest := by
  obtain ⟨before,rfl,rfl⟩ := at_.splits
  have onward := sliceOnward before rest 0 n
  rw [Nat.add_zero] at onward
  rw [onward,slice,if_pos (Nat.zero_le n),dropBytesZero,Option.bind_some,Nat.sub_zero]

theorem char (at_ : At text cursor rest) : charAt text cursor = rest.head? := by
  obtain ⟨before,rfl,rfl⟩ := at_.splits
  exact charAtHere before rest

theorem past {piece tail} (at_ : At text cursor (piece ++ tail)) : At text (cursor + size piece) tail := by
  obtain ⟨before,rfl,rfl⟩ := at_.splits
  rw [At,dropBytesOnward,dropBytesAt]

theorem next {c} {tail : Text} (at_ : At text cursor (c :: tail)) (ascii : c.utf8Size = 1) : At text (cursor+1) tail := by
  have moved : At text (cursor + size [c]) tail := past at_
  simpa [ascii] using moved

theorem done (at_ : At text cursor rest) : cursor = size text ↔ rest = [] := by
  obtain ⟨before,rfl,rfl⟩ := at_.splits
  rw [sizeAppend,← sizeZero]
  omega

theorem more (at_ : At text cursor rest) : cursor < size text ↔ rest ≠ [] := by
  obtain ⟨before,rfl,rfl⟩ := at_.splits
  rw [sizeAppend,Ne,← sizeZero]
  omega

end At

theorem sliceStartIff {text piece n} :
    slice text 0 n = some piece ↔ ∃ rest, text = piece ++ rest ∧ size piece = n := by
  simp [slice,takeBytesIff]

/-- The text before and after the first place where `separator` occurs. -/
def splitOnce (separator : Text) : Text → Option (Text × Text)
  | [] => if separator = [] then some ([],[]) else none
  | c :: rest =>
      if separator.isPrefixOf (c :: rest) then some ([],(c :: rest).drop separator.length)
      else (splitOnce separator rest).map fun parts => (c :: parts.1,parts.2)

theorem splitOnceFirst {c} {more word : Text} (rest) (absent : c ∉ word) :
    splitOnce (c :: more) (word ++ (c :: more ++ rest)) = some (word,rest) := by
  induction word with
  | nil =>
    have here : (c :: more).isPrefixOf (c :: more ++ rest) = true := List.isPrefixOf_iff_prefix.mpr (List.prefix_append _ _)
    rw [List.nil_append,List.cons_append,splitOnce,← List.cons_append,if_pos here,List.drop_left]
  | cons d word ih =>
    have other : ¬(c :: more).isPrefixOf (d :: (word ++ (c :: more ++ rest))) = true := by
      intro here
      obtain ⟨tail,same⟩ := List.isPrefixOf_iff_prefix.mp here
      exact absent (by rw [(List.cons.inj same).1]; exact List.mem_cons_self)
    rw [List.cons_append,splitOnce,if_neg other,ih fun among => absent (List.mem_cons_of_mem d among)]
    rfl

theorem splitOnceJoins {separator text before after} (found : splitOnce separator text = some (before,after)) :
    text = before ++ (separator ++ after) := by
  induction text generalizing before with
  | nil =>
    rw [splitOnce] at found
    split at found
    · rename_i none_
      cases found
      rw [none_]
      rfl
    · cases found
  | cons c text ih =>
    rw [splitOnce] at found
    split at found
    · rename_i here
      cases found
      obtain ⟨tail,same⟩ := List.isPrefixOf_iff_prefix.mp here
      rw [← same,List.drop_left]
      rfl
    · obtain ⟨⟨first,second⟩,inner,same⟩ := Option.map_eq_some_iff.mp found
      cases same
      rw [ih inner]
      rfl

/-- `char::is_whitespace` -/
def isWhitespace (c : Char) : Bool :=
  let n := c.toNat
  (9 ≤ n && n ≤ 13) || n == 32 || n == 0x85 || n == 0xA0 || n == 0x1680 ||
    (0x2000 ≤ n && n ≤ 0x200A) || n == 0x2028 || n == 0x2029 || n == 0x202F || n == 0x205F || n == 0x3000

def splitWhitespace (text : Text) : List Text := (text.splitOnP isWhitespace).filter (· ≠ [])

/-- A word before a blank is split off. -/
theorem splitWord {word : Text} (some_ : word ≠ []) (plain : ∀ c ∈ word, isWhitespace c = false) (rest : Text) :
    splitWhitespace (word ++ ' ' :: rest) = word :: splitWhitespace rest := by
  rw [splitWhitespace,List.splitOnP_append_cons_of_forall_mem plain ' ' (by decide),List.filter_cons_of_pos (by simpa using some_)]
  rfl

theorem splitLastWord {word : Text} (some_ : word ≠ []) (plain : ∀ c ∈ word, isWhitespace c = false) :
    splitWhitespace word = [word] := by
  rw [splitWhitespace,List.splitOnP_eq_singleton plain,List.filter_cons_of_pos (by simpa using some_)]
  rfl

theorem lastPiece (text : Text) {c} (black : isWhitespace c = false) :
    ∃ pieces last, (text ++ [c]).splitOnP isWhitespace = pieces ++ [last ++ [c]] := by
  induction text with
  | nil =>
    refine ⟨[],[],?_⟩
    rw [List.nil_append,List.splitOnP_eq_singleton (by simpa using black)]
    rfl
  | cons d text ih =>
    obtain ⟨pieces,last,same⟩ := ih
    rw [List.cons_append,List.splitOnP_cons_eq_if_modifyHead,same]
    split
    · exact ⟨[] :: pieces,last,rfl⟩
    · cases pieces with
      | nil => exact ⟨[],d :: last,rfl⟩
      | cons piece pieces => exact ⟨(d :: piece) :: pieces,last,rfl⟩

/-- The last word ends as the text does. -/
theorem lastWordEnds (text) {c} (black : isWhitespace c = false) :
    ∃ words last, splitWhitespace (text ++ [c]) = words ++ [last ++ [c]] := by
  obtain ⟨pieces,last,same⟩ := lastPiece text black
  refine ⟨pieces.filter (· ≠ []),last,?_⟩
  rw [splitWhitespace,same,List.filter_append,List.filter_cons_of_pos (by simp)]
  rfl

/-- `text.find(c)` -/
def find (c : Char) (text : Text) : Option Nat :=
  if c ∈ text then some (size (text.takeWhile (· != c))) else none

theorem findSplits {c text offset} (found : find c text = some offset) :
    ∃ before after, text = before ++ c :: after ∧ size before = offset ∧ c ∉ before := by
  rw [find] at found
  split at found
  · rename_i here
    cases found
    refine ⟨text.takeWhile (· != c),(text.dropWhile (· != c)).tail,?_,rfl,?_⟩
    · have reached : text.dropWhile (· != c) = c :: (text.dropWhile (· != c)).tail := by
        induction text with
        | nil => simp at here
        | cons d text ih =>
          by_cases first : d = c
          · simp [first]
          · have later : c ∈ text := by simpa [Ne.symm first] using here
            simpa [first] using ih later
      rw [← reached]
      exact (List.takeWhile_append_dropWhile).symm
    · intro among
      simpa using List.mem_takeWhile_imp among
  · cases found

end Bamts.ByteText
