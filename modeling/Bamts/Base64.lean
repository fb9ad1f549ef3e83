import Mathlib.Data.List.Basic

/-! Base64 and hexadecimal texts of bytes: the decoders skip white space, stop at a limit, and treat a last chunk that is not
whole in three ways. -/
set_option linter.all false
namespace Bamts.Base64

inductive Base64Alphabet where
  | base64 | base64Url
  deriving DecidableEq

inductive LastChunkHandling where
  | loose | strict | stopBeforePartial
  deriving DecidableEq

structure DecodedBytes where
  bytes : List UInt8
  read : Nat
  error : Option String
  deriving DecidableEq

def isAsciiWhitespace (byte : UInt8) : Bool := byte == 0x09 || byte == 0x0a || byte == 0x0c || byte == 0x0d || byte == 0x20

-- The index of the source is the length of what is gone; what is left stands for it here.
def skipAsciiWhitespace (text : List UInt8) : List UInt8 := text.dropWhile isAsciiWhitespace

def base64Digit (byte : UInt8) (alphabet : Base64Alphabet) : Option UInt8 :=
  if 0x41 ≤ byte ∧ byte ≤ 0x5a then some (byte-0x41)
  else if 0x61 ≤ byte ∧ byte ≤ 0x7a then some (byte-0x61+26)
  else if 0x30 ≤ byte ∧ byte ≤ 0x39 then some (byte-0x30+52)
  else match alphabet with
    | .base64 => if byte = 0x2b then some 62 else if byte = 0x2f then some 63 else none
    | .base64Url => if byte = 0x2d then some 62 else if byte = 0x5f then some 63 else none

def chunkBytes (chunk : List UInt8) : List UInt8 :=
  [(chunk.getD 0 0 <<< 2) ||| (chunk.getD 1 0 >>> 4),(chunk.getD 1 0 <<< 4) ||| (chunk.getD 2 0 >>> 2),(chunk.getD 2 0 <<< 6) ||| chunk.getD 3 0].take
    (chunk.length-1)

def decodeBase64Chunk (chunk : List UInt8) (rejectExtraBits : Bool) : Option (List UInt8) :=
  if chunk.length = 2 ∧ rejectExtraBits = true ∧ chunk.getD 1 0 &&& 0x0f ≠ 0 then none
  else if chunk.length = 3 ∧ rejectExtraBits = true ∧ chunk.getD 2 0 &&& 0x03 ≠ 0 then none
  else some (chunkBytes chunk)

structure DecodeState where
  bytes : List UInt8
  chunk : List UInt8
  read : Nat
  index : Nat

namespace DecodeState

def start : DecodeState := ⟨[],[],0,0⟩

def push (s : DecodeState) (digit : UInt8) : DecodeState :=
  if s.chunk.length = 3 then ⟨s.bytes ++ chunkBytes (s.chunk ++ [digit]),[],s.index+1,s.index+1⟩
  else { s with chunk := s.chunk ++ [digit],index := s.index+1 }

def stop (s : DecodeState) (error : Option String) : DecodedBytes := ⟨s.bytes,s.read,error⟩

end DecodeState

def invalidPadding : Option String := some "invalid base64 padding"

def finish (handling : LastChunkHandling) (s : DecodeState) : DecodedBytes :=
  if s.chunk = [] then ⟨s.bytes,s.index,none⟩
  else match handling with
    | .stopBeforePartial => s.stop none
    | .loose => if s.chunk.length > 1 then ⟨s.bytes ++ chunkBytes s.chunk,s.index,none⟩ else s.stop (some "invalid base64 final chunk")
    | .strict => s.stop (some "invalid base64 final chunk")

def decodePadding (handling : LastChunkHandling) (s : DecodeState) (rest : List UInt8) : DecodedBytes :=
  if s.chunk.length < 2 then s.stop invalidPadding
  else
    let left := skipAsciiWhitespace rest
    if s.chunk.length = 2 ∧ left = [] then s.stop (if handling = .stopBeforePartial then none else invalidPadding)
    else
      let left := if s.chunk.length = 2 ∧ left.head? = some 0x3d then skipAsciiWhitespace left.tail else left
      if left ≠ [] then s.stop invalidPadding
      else match decodeBase64Chunk s.chunk (handling = .strict) with
        | some decoded => ⟨s.bytes ++ decoded,s.index+1+rest.length,none⟩
        | none => s.stop (some "base64 padding has non-zero overflow bits")

def decodeLoop (alphabet : Base64Alphabet) (handling : LastChunkHandling) (maxLength : Nat) : List UInt8 → DecodeState → DecodedBytes
  | [], s => finish handling s
  | byte :: rest, s =>
    if isAsciiWhitespace byte then decodeLoop alphabet handling maxLength rest { s with index := s.index+1 }
    else if byte = 0x3d then decodePadding handling s rest
    else match base64Digit byte alphabet with
      | none => s.stop (some "invalid base64 character")
      | some digit =>
        let remaining := maxLength-s.bytes.length
        if remaining = 1 ∧ s.chunk.length = 2 ∨ remaining = 2 ∧ s.chunk.length = 3 then s.stop none
        else
          let s := s.push digit
          if s.chunk = [] ∧ s.bytes.length = maxLength then s.stop none else decodeLoop alphabet handling maxLength rest s

def decodeBase64 (text : List UInt8) (alphabet : Base64Alphabet) (handling : LastChunkHandling) (maxLength : Nat) : DecodedBytes :=
  if maxLength = 0 then ⟨[],0,none⟩ else decodeLoop alphabet handling maxLength text .start

def base64Table : Base64Alphabet → List Char
  | .base64 => "ABCDEFGHIJKLMNOPQRSTUVWXYZabcdefghijklmnopqrstuvwxyz0123456789+/".toList
  | .base64Url => "ABCDEFGHIJKLMNOPQRSTUVWXYZabcdefghijklmnopqrstuvwxyz0123456789-_".toList

def charOf (table : List Char) (digit : UInt8) : UInt8 := UInt8.ofNat (table.getD digit.toNat '=').toNat

def base64Char (alphabet : Base64Alphabet) (digit : UInt8) : UInt8 := charOf (base64Table alphabet) digit

def padding (omitPadding : Bool) (count : Nat) : List UInt8 := if omitPadding then [] else List.replicate count 0x3d

def encodeBase64 (alphabet : Base64Alphabet) (omitPadding : Bool) : List UInt8 → List UInt8
  | [] => []
  | [x] => [base64Char alphabet (x >>> 2),base64Char alphabet ((x &&& 0x03) <<< 4)] ++ padding omitPadding 2
  | [x,y] =>
    [base64Char alphabet (x >>> 2),base64Char alphabet (((x &&& 0x03) <<< 4) ||| (y >>> 4)),base64Char alphabet ((y &&& 0x0f) <<< 2)] ++
      padding omitPadding 1
  | x :: y :: z :: rest =>
    [base64Char alphabet (x >>> 2),base64Char alphabet (((x &&& 0x03) <<< 4) ||| (y >>> 4)),
      base64Char alphabet (((y &&& 0x0f) <<< 2) ||| (z >>> 6)),base64Char alphabet (z &&& 0x3f)] ++ encodeBase64 alphabet omitPadding rest

def nibble (byte : UInt8) : Option UInt8 :=
  if 0x30 ≤ byte ∧ byte ≤ 0x39 then some (byte-0x30)
  else if 0x61 ≤ byte ∧ byte ≤ 0x66 then some (byte-0x61+10)
  else if 0x41 ≤ byte ∧ byte ≤ 0x46 then some (byte-0x41+10)
  else none

def invalidHex : Option String := some "invalid hexadecimal digit"

def decodeHexLoop (maxLength : Nat) : List UInt8 → List UInt8 → Nat → DecodedBytes
  | high :: low :: rest, bytes, read =>
    if bytes.length < maxLength then
      match nibble high,nibble low with
      | some high, some low => decodeHexLoop maxLength rest (bytes ++ [(high <<< 4) ||| low]) (read+2)
      | _, _ => ⟨bytes,read,invalidHex⟩
    else ⟨bytes,read,none⟩
  | _, bytes, read => ⟨bytes,read,none⟩

def decodeHex (text : List UInt8) (maxLength : Nat) : DecodedBytes :=
  if text.length % 2 ≠ 0 then ⟨[],0,some "hex input must contain a whole number of bytes"⟩ else decodeHexLoop maxLength text [] 0

def hexChar (digit : UInt8) : UInt8 := charOf "0123456789abcdef".toList digit

def toHex (bytes : List UInt8) : List UInt8 := bytes.flatMap fun (byte : UInt8) => [hexChar (byte >>> 4),hexChar (byte &&& 0x0f)]

end Bamts.Base64
