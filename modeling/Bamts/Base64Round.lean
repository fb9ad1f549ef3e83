import Bamts.Base64Coding
import Mathlib.Data.FinEnum

/-! Base64 round trips, decoders that stop early and go on, and hexadecimal round trips. -/
set_option linter.all false
namespace Bamts.Base64

section
variable {alphabet : Base64Alphabet} {handling : LastChunkHandling} {limit : Nat} {text rest bytes : List UInt8} {read : Nat}

theorem decodeNil : decodeBase64 [] alphabet handling limit = ⟨[],0,none⟩ := by
  unfold decodeBase64
  split <;> rfl

theorem decodeEnough (enough : text.length ≤ limit) : decodeBase64 text alphabet handling limit = decodeLoop alphabet handling limit text .start := by
  by_cases zero : limit = 0
  · subst zero
    obtain rfl := List.eq_nil_of_length_eq_zero (Nat.le_zero.mp enough)
    exact decodeNil
  · exact if_neg zero

theorem startRoom (enough : text.length ≤ limit) : Roomy limit .start text := ⟨by simpa [DecodeState.start] using enough,Nat.zero_lt_succ _⟩

theorem Settled.splits (handling) (settled : Settled alphabet text bytes read) (enough : text.length ≤ limit) :
    decodeBase64 (text.take read) alphabet handling limit = ⟨bytes,read,none⟩ ∧
      decodeBase64 text alphabet handling limit = (decodeBase64 (text.drop read) alphabet handling limit).behind bytes read := by
  obtain ⟨fed,within⟩ := settled
  have parted := List.take_append_drop read text
  have short : (text.take read).length ≤ limit := (List.length_take_le _ _).trans ((Nat.min_eq_left within).symm ▸ within.trans enough)
  have left : (text.drop read).length ≤ limit := (by rw [List.length_drop]; omega)
  constructor
  · rw [decodeEnough short]
    have room := startRoom short
    rw [← List.append_nil (text.take read)] at room ⊢
    rw [(loopFeeds handling room fed).1]
    rfl
  · rw [decodeEnough enough,decodeEnough left]
    have room := startRoom enough
    rw [← parted] at room
    obtain ⟨ran,room'⟩ := loopFeeds handling room fed
    rw [parted] at ran
    have behind : (⟨bytes,[],read,read⟩ : DecodeState) = DecodeState.start.behind bytes read := by simp [DecodeState.behind,DecodeState.start]
    rw [behind] at ran room'
    exact ran.trans (loopBehind bytes read (startRoom left) room')

theorem decodeAnswers (alphabet handling limit) {l} (enough : text.length ≤ l) :
    Answers alphabet limit text (decodeBase64 text alphabet handling l) (decodeBase64 text alphabet handling limit) := by
  by_cases zero : limit = 0
  · rw [decodeBase64,decodeBase64,if_pos zero]
    exact ⟨Nat.zero_le _,fun _ => .inl ⟨rfl,Nat.zero_le _⟩⟩
  · rw [decodeEnough enough,decodeBase64,if_neg zero]
    exact (Scanned.start zero).answers enough

theorem decodeSplits {l} (enough : text.length ≤ l) (plain : (decodeBase64 text alphabet handling limit).error = none) :
    decodeBase64 (text.take (decodeBase64 text alphabet handling limit).read) alphabet handling l = decodeBase64 text alphabet handling limit ∧
      (decodeBase64 text alphabet handling l).bytes = (decodeBase64 text alphabet handling limit).bytes ++
        (decodeBase64 (text.drop (decodeBase64 text alphabet handling limit).read) alphabet handling l).bytes := by
  obtain ⟨-,ends⟩ := decodeAnswers alphabet handling limit enough
  rcases ends plain with settled | ⟨whole,all⟩
  · obtain ⟨part,goes⟩ := settled.splits handling enough
    constructor
    · rw [part,← plain]
    · rw [goes]
      rfl
  · rw [all,whole,List.take_length,List.drop_length]
    exact ⟨rfl,by rw [decodeNil,List.append_nil]⟩

end

section
variable {alphabet : Base64Alphabet} {handling : LastChunkHandling} {limit : Nat} {rest bytes chunk : List UInt8} {read index : Nat} {digit : UInt8}

-- `toList_ofList` reads the characters of the literal, so that the kernel does not decode its bytes.
theorem tableChars (alphabet) : ∃ chars : List Char, base64Table alphabet = chars ∧
    chars.map (fun c => base64Digit (UInt8.ofNat c.toNat) alphabet) = (List.range 64).map (fun d => some (UInt8.ofNat d)) := by
  cases alphabet with
  | base64 => exact ⟨_,String.toList_ofList,by decide +kernel⟩
  | base64Url => exact ⟨_,String.toList_ofList,by decide +kernel⟩

theorem digitOfChar (alphabet) (digit : UInt8) (small : digit < 64) : base64Digit (base64Char alphabet digit) alphabet = some digit := by
  obtain ⟨chars,table,digits⟩ := tableChars alphabet
  have long : chars.length = 64 := by simpa using congrArg List.length digits
  have below : digit.toNat < 64 := small
  have inside : digit.toNat < chars.length := long ▸ below
  have row := congrArg (·[digit.toNat]?) digits
  simp only [List.getElem?_map,List.getElem?_eq_getElem inside,List.getElem?_range below,Option.map_some,Option.some.injEq,
    UInt8.ofNat_toNat] at row
  rwa [base64Char,charOf,table,List.getD_eq_getElem?_getD,List.getElem?_eq_getElem inside]

theorem spaceDigit (alphabet) {byte} (space : isAsciiWhitespace byte = true) : base64Digit byte alphabet = none := by
  simp only [isAsciiWhitespace,Bool.or_eq_true,beq_iff_eq] at space
  obtain (((same | same) | same) | same) | same := space <;> rw [same] <;> cases alphabet <;> decide

theorem plainChar (alphabet) (digit : UInt8) (small : digit < 64) :
    isAsciiWhitespace (base64Char alphabet digit) = false ∧ base64Char alphabet digit ≠ 0x3d := by
  have read := digitOfChar alphabet digit small
  constructor
  · refine Bool.eq_false_iff.mpr fun space => ?_
    cases (spaceDigit alphabet space).symm.trans read
  · intro sign
    have none_ : base64Digit 0x3d alphabet = none := by cases alphabet <;> decide
    rw [sign,none_] at read
    cases read

theorem orDigit {x y : UInt8} (first : x < 64) (second : y < 64) : x ||| y < 64 := by
  exact Nat.or_lt_two_pow (n := 6) first second

theorem pieces : ∀ x : UInt8,
    (x >>> 2 < 64 ∧ x &&& 0x3f < 64 ∧ (x &&& 0x03) <<< 4 < 64 ∧ x >>> 4 < 64 ∧ (x &&& 0x0f) <<< 2 < 64 ∧ x >>> 6 < 64) ∧
    (x >>> 4 >>> 4 = 0 ∧ (x &&& 0x03) <<< 4 <<< 4 = 0 ∧ x >>> 6 >>> 2 = 0 ∧ (x &&& 0x0f) <<< 2 <<< 6 = 0) ∧
    ((x &&& 0x03) <<< 4 &&& 0x0f = 0 ∧ (x &&& 0x0f) <<< 2 &&& 0x03 = 0) ∧
    ((x >>> 2) <<< 2 ||| ((x &&& 0x03) <<< 4) >>> 4 = x ∧ x >>> 4 <<< 4 ||| (x &&& 0x0f) <<< 2 >>> 2 = x ∧ x >>> 6 <<< 6 ||| (x &&& 0x3f) = x) ∧
    x >>> 4 < 16 ∧ x &&& 0x0f < 16 ∧ (x >>> 4) <<< 4 ||| (x &&& 0x0f) = x := by
  decide +kernel

theorem highDigit (x : UInt8) : x >>> 2 < 64 := (pieces x).1.1
theorem lowDigit (x : UInt8) : x &&& 0x3f < 64 := (pieces x).1.2.1
theorem secondHigh (x : UInt8) : (x &&& 0x03) <<< 4 < 64 := (pieces x).1.2.2.1
theorem secondLow (x : UInt8) : x >>> 4 < 64 := (pieces x).1.2.2.2.1
theorem thirdHigh (x : UInt8) : (x &&& 0x0f) <<< 2 < 64 := (pieces x).1.2.2.2.2.1
theorem thirdLow (x : UInt8) : x >>> 6 < 64 := (pieces x).1.2.2.2.2.2

theorem firstByte (x y : UInt8) : (x >>> 2) <<< 2 ||| (((x &&& 0x03) <<< 4 ||| y >>> 4) >>> 4) = x := by
  obtain ⟨-,⟨gone,-⟩,-⟩ := pieces y
  obtain ⟨-,-,-,⟨kept,-⟩,-⟩ := pieces x
  rw [UInt8.shiftRight_or,gone,UInt8.or_zero,kept]

theorem secondByte (x y z : UInt8) : ((x &&& 0x03) <<< 4 ||| y >>> 4) <<< 4 ||| (((y &&& 0x0f) <<< 2 ||| z >>> 6) >>> 2) = y := by
  obtain ⟨-,⟨-,high,-⟩,-⟩ := pieces x
  obtain ⟨-,⟨-,-,low,-⟩,-⟩ := pieces z
  obtain ⟨-,-,-,⟨-,kept,-⟩,-⟩ := pieces y
  rw [UInt8.shiftRight_or,UInt8.shiftLeft_or,UInt8.or_assoc,high,low,UInt8.or_zero,UInt8.zero_or,kept]

theorem thirdByte (y z : UInt8) : ((y &&& 0x0f) <<< 2 ||| z >>> 6) <<< 6 ||| (z &&& 0x3f) = z := by
  obtain ⟨-,⟨-,-,-,gone⟩,-⟩ := pieces y
  obtain ⟨-,-,-,⟨-,-,kept⟩,-⟩ := pieces z
  rw [UInt8.shiftLeft_or,UInt8.or_assoc,gone,UInt8.zero_or,kept]

theorem chunkFour (a b c d) : chunkBytes [a,b,c,d] = [(a <<< 2) ||| (b >>> 4),(b <<< 4) ||| (c >>> 2),(c <<< 6) ||| d] := rfl

theorem chunkThree (a b c) : chunkBytes [a,b,c] = [(a <<< 2) ||| (b >>> 4),(b <<< 4) ||| (c >>> 2)] := rfl

theorem chunkTwo (a b) : chunkBytes [a,b] = [(a <<< 2) ||| (b >>> 4)] := rfl

theorem loopChar (small : digit < 64) :
    decodeLoop alphabet handling limit (base64Char alphabet digit :: rest) ⟨bytes,chunk,read,index⟩ =
      if limit-bytes.length = 1 ∧ chunk.length = 2 ∨ limit-bytes.length = 2 ∧ chunk.length = 3 then ⟨bytes,read,none⟩
      else if chunk.length = 3 then
        if (bytes ++ chunkBytes (chunk ++ [digit])).length = limit then ⟨bytes ++ chunkBytes (chunk ++ [digit]),index+1,none⟩
        else decodeLoop alphabet handling limit rest ⟨bytes ++ chunkBytes (chunk ++ [digit]),[],index+1,index+1⟩
      else decodeLoop alphabet handling limit rest ⟨bytes,chunk ++ [digit],read,index+1⟩ := by
  obtain ⟨space,pad⟩ := plainChar alphabet digit small
  rw [decodeLoop,if_neg (by rw [space]; decide),if_neg pad,digitOfChar alphabet digit small]
  dsimp only
  split
  · rfl
  · by_cases three : chunk.length = 3
    · rw [if_pos three,pushWhole three]
      simp only [true_and]
      rfl
    · rw [if_neg three,pushPart three]
      exact if_neg fun full => absurd full.1 (by simp)

theorem loopPart (small : digit < 64) (part : chunk.length < 3) (more : ¬(limit-bytes.length = 1 ∧ chunk.length = 2)) :
    decodeLoop alphabet handling limit (base64Char alphabet digit :: rest) ⟨bytes,chunk,read,index⟩ =
      decodeLoop alphabet handling limit rest ⟨bytes,chunk ++ [digit],read,index+1⟩ := by
  rw [loopChar small,if_neg (by omega),if_neg (by omega)]

theorem loopChunk (x y z : UInt8) (room : bytes.length+3 ≤ limit) :
    decodeLoop alphabet handling limit ([base64Char alphabet (x >>> 2),base64Char alphabet (((x &&& 0x03) <<< 4) ||| (y >>> 4)),
        base64Char alphabet (((y &&& 0x0f) <<< 2) ||| (z >>> 6)),base64Char alphabet (z &&& 0x3f)] ++ rest) ⟨bytes,[],read,index⟩ =
      if bytes.length+3 = limit then ⟨bytes ++ [x,y,z],index+4,none⟩
      else decodeLoop alphabet handling limit rest ⟨bytes ++ [x,y,z],[],index+4,index+4⟩ := by
  have second := orDigit (secondHigh x) (secondLow y)
  have third := orDigit (thirdHigh y) (thirdLow z)
  have decoded : chunkBytes [x >>> 2,(x &&& 0x03) <<< 4 ||| y >>> 4,(y &&& 0x0f) <<< 2 ||| z >>> 6,z &&& 0x3f] = [x,y,z] := by
    rw [chunkFour,firstByte,secondByte,thirdByte]
  simp only [List.cons_append,List.nil_append]
  rw [loopPart (highDigit x) (by simp) (by simp),loopPart second (by simp) (by simp),loopPart third (by simp) (by simp; omega),
    loopChar (lowDigit z)]
  rw [if_neg (by simp; omega),if_pos (by simp)]
  simp only [List.nil_append,List.cons_append,decoded,List.length_append,List.length_cons,List.length_nil,Nat.add_assoc,Nat.zero_add,Nat.reduceAdd]

theorem loopTwo (x omitPadding) (whole : omitPadding = false ∨ handling = .loose) :
    decodeLoop alphabet handling limit (encodeBase64 alphabet omitPadding [x]) ⟨bytes,[],read,index⟩ =
      ⟨bytes ++ [x],index+(encodeBase64 alphabet omitPadding [x]).length,none⟩ := by
  have decoded : chunkBytes [x >>> 2,(x &&& 0x03) <<< 4] = [x] := by
    have first : x >>> 2 <<< 2 ||| (x &&& 0x03) <<< 4 >>> 4 = x := by simpa using firstByte x 0
    rw [chunkTwo,first]
  have clean := (pieces x).2.2.1.1
  rw [encodeBase64]
  simp only [List.cons_append,List.nil_append]
  rw [loopPart (highDigit x) (by simp) (by simp),loopPart (secondHigh x) (by simp) (by simp)]
  cases omitPadding with
  | true =>
    obtain rfl : handling = .loose := whole.resolve_left (by decide)
    simp [padding,decodeLoop,finish,decoded]
  | false =>
    simp [padding,decodeLoop,decodePadding,decodeBase64Chunk,decoded,clean,skipAsciiWhitespace,isAsciiWhitespace]

theorem loopThree (x y) (room : bytes.length+2 ≤ limit) (omitPadding) (whole : omitPadding = false ∨ handling = .loose) :
    decodeLoop alphabet handling limit (encodeBase64 alphabet omitPadding [x,y]) ⟨bytes,[],read,index⟩ =
      ⟨bytes ++ [x,y],index+(encodeBase64 alphabet omitPadding [x,y]).length,none⟩ := by
  have second := orDigit (secondHigh x) (secondLow y)
  have decoded : chunkBytes [x >>> 2,(x &&& 0x03) <<< 4 ||| y >>> 4,(y &&& 0x0f) <<< 2] = [x,y] := by
    have second : ((x &&& 0x03) <<< 4 ||| y >>> 4) <<< 4 ||| (y &&& 0x0f) <<< 2 >>> 2 = y := by simpa using secondByte x y 0
    rw [chunkThree,firstByte,second]
  have clean := (pieces y).2.2.1.2
  rw [encodeBase64]
  simp only [List.cons_append,List.nil_append]
  rw [loopPart (highDigit x) (by simp) (by simp),loopPart second (by simp) (by simp),loopPart (thirdHigh y) (by simp) (by simp; omega)]
  cases omitPadding with
  | true =>
    obtain rfl : handling = .loose := whole.resolve_left (by decide)
    simp [padding,decodeLoop,finish,decoded]
  | false =>
    simp [padding,decodeLoop,decodePadding,decodeBase64Chunk,decoded,clean,skipAsciiWhitespace,isAsciiWhitespace]

-- The induction is on the chunks of three; a limit of just the bytes stops the loop at the end of the text.
theorem loopEncoded (omitPadding b) (whole : omitPadding = false ∨ handling = .loose ∨ 3 ∣ b.length)
    (room : bytes.length+b.length ≤ limit) (more : bytes.length < limit) :
    decodeLoop alphabet handling limit (encodeBase64 alphabet omitPadding b) ⟨bytes,[],read,index⟩ =
      ⟨bytes ++ b,index+(encodeBase64 alphabet omitPadding b).length,none⟩ := by
  induction b using encodeBase64.induct generalizing bytes read index with
  | case1 => simp [encodeBase64,decodeLoop,finish]
  | case2 x => exact loopTwo x omitPadding (whole.imp_right fun either => either.resolve_right (by simp))
  | case3 x y =>
    exact loopThree x y room omitPadding (whole.imp_right fun either => either.resolve_right (by simp))
  | case4 x y z rest ih =>
    simp only [List.length_cons] at room
    have whole' : omitPadding = false ∨ handling = .loose ∨ 3 ∣ rest.length :=
      whole.imp_right fun either => either.imp_right fun three => (Nat.dvd_add_left (Nat.dvd_refl 3)).mp three
    rw [encodeBase64,loopChunk x y z (by omega)]
    split
    · rename_i full
      obtain rfl : rest = [] := List.eq_nil_of_length_eq_zero (by omega)
      rfl
    · rename_i goes
      rw [ih whole' (by simp only [List.length_append,List.length_cons,List.length_nil]; omega)
        (by simp only [List.length_append,List.length_cons,List.length_nil]; omega)]
      simp only [List.append_assoc,List.cons_append,List.nil_append,List.length_cons,Nat.add_assoc]
      simp only [DecodedBytes.mk.injEq,true_and,and_true]
      omega

theorem decodeEncoded (omitPadding b) (whole : omitPadding = false ∨ handling = .loose ∨ 3 ∣ b.length) (room : b.length ≤ limit) :
    decodeBase64 (encodeBase64 alphabet omitPadding b) alphabet handling limit = ⟨b,(encodeBase64 alphabet omitPadding b).length,none⟩ := by
  by_cases zero : limit = 0
  · subst zero
    obtain rfl := List.eq_nil_of_length_eq_zero (Nat.le_zero.mp room)
    rfl
  · rw [decodeBase64,if_neg zero,DecodeState.start,
      loopEncoded omitPadding b whole (by simpa using room) (by simpa using Nat.pos_of_ne_zero zero)]
    simp

theorem nibbleTable : ∀ d : Fin 16, nibble (hexChar (UInt8.ofNat d)) = some (UInt8.ofNat d) := by decide +kernel

theorem nibbleOfChar (digit) (small : digit < 16) : nibble (hexChar digit) = some digit := by
  have row := nibbleTable ⟨digit.toNat,small⟩
  rwa [UInt8.ofNat_toNat] at row

theorem highNibble (x : UInt8) : x >>> 4 < 16 := (pieces x).2.2.2.2.1
theorem lowNibble (x : UInt8) : x &&& 0x0f < 16 := (pieces x).2.2.2.2.2.1
theorem nibbles (x : UInt8) : (x >>> 4) <<< 4 ||| (x &&& 0x0f) = x := (pieces x).2.2.2.2.2.2

theorem toHexCons (x b) : toHex (x :: b) = hexChar (x >>> 4) :: hexChar (x &&& 0x0f) :: toHex b := rfl

theorem toHexLength (b) : (toHex b).length = 2*b.length := by
  induction b with
  | nil => rfl
  | cons x b ih =>
    rw [toHexCons,List.length_cons,List.length_cons,List.length_cons,ih]
    omega

theorem loopHex (b) (room : bytes.length+b.length ≤ limit) :
    decodeHexLoop limit (toHex b) bytes read = ⟨bytes ++ b,read+(toHex b).length,none⟩ := by
  induction b generalizing bytes read with
  | nil =>
    rw [List.append_nil]
    rfl
  | cons x b ih =>
    simp only [List.length_cons] at room
    rw [toHexCons,decodeHexLoop,if_pos (by omega),nibbleOfChar _ (highNibble x),nibbleOfChar _ (lowNibble x)]
    dsimp only
    rw [nibbles,ih (by simp only [List.length_append,List.length_singleton]; omega)]
    simp only [List.append_assoc,List.singleton_append,List.length_cons,DecodedBytes.mk.injEq,true_and,and_true]
    omega

theorem decodeToHex (b) (room : b.length ≤ limit) : decodeHex (toHex b) limit = ⟨b,(toHex b).length,none⟩ := by
  rw [decodeHex,if_neg (by rw [toHexLength]; omega),loopHex b (by simpa using room)]
  simp

end

theorem base64Codes (alphabet : Base64Alphabet) (handling : LastChunkHandling) :
    (∀ (omitPadding : Bool) (b : List UInt8) (limit : Nat), omitPadding = false ∨ handling = .loose ∨ 3 ∣ b.length → b.length ≤ limit →
      decodeBase64 (encodeBase64 alphabet omitPadding b) alphabet handling limit = ⟨b,(encodeBase64 alphabet omitPadding b).length,none⟩) ∧
    (∀ (text : List UInt8) (limit : Nat), (decodeBase64 text alphabet handling limit).bytes.length ≤ limit) ∧
    (∀ (text : List UInt8) (limit l : Nat), text.length ≤ l → (decodeBase64 text alphabet handling limit).error = none →
      decodeBase64 (text.take (decodeBase64 text alphabet handling limit).read) alphabet handling l = decodeBase64 text alphabet handling limit ∧
      (decodeBase64 text alphabet handling l).bytes = (decodeBase64 text alphabet handling limit).bytes ++
        (decodeBase64 (text.drop (decodeBase64 text alphabet handling limit).read) alphabet handling l).bytes) ∧
    ∀ (b : List UInt8) (limit : Nat), b.length ≤ limit → decodeHex (toHex b) limit = ⟨b,(toHex b).length,none⟩ := by
  refine ⟨fun omitPadding b limit whole room => decodeEncoded omitPadding b whole room,fun text limit => ?_,fun text limit l enough plain => ?_,
    fun b limit room => decodeToHex b room⟩
  · exact (decodeAnswers alphabet handling limit (Nat.le_refl text.length)).1
  · exact decodeSplits enough plain

theorem fourBytesCode : encodeBase64 .base64 false [0xff,0,0x10,7] = "/wAQBw==".toUTF8.data.toList ∧
    decodeBase64 "/wAQBw==".toUTF8.data.toList .base64 .strict 4 = ⟨[0xff,0,0x10,7],8,none⟩ ∧
    decodeBase64 ("/wAQBw==".toUTF8.data.toList.take 4) .base64 .strict 8 = ⟨[0xff,0,0x10],4,none⟩ ∧
    decodeHex (toHex [0xff,7]) 2 = ⟨[0xff,7],4,none⟩ := by
  have code : encodeBase64 .base64 false [0xff,0,0x10,7] = "/wAQBw==".toUTF8.data.toList := by decide
  have codes := base64Codes .base64 .strict
  have whole := codes.1 false [0xff,0,0x10,7] 4 (.inl rfl) (by decide)
  have part := (codes.2.2.1 "/wAQBw==".toUTF8.data.toList 3 8 (by decide) (by decide)).1
  rw [code] at whole
  exact ⟨code,whole,part,codes.2.2.2 [0xff,7] 2 (by decide)⟩

end Bamts.Base64
