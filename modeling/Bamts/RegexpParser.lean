import Bamts.RegexpModel
import Bamts.Effect

/-! The pattern parser. The source walks over the units by a position; here what is left of them stands beside it. -/
set_option linter.all false
namespace Bamts.Regexp
open Effect

structure Parser where
  position : Nat
  left : List Nat
  captureCount : Nat
  names : List (List Nat × Nat)

-- The fuel bounds how deep groups nest; it is no failure of the source.
inductive RegexError where
  | compile (message : String) (position : Nat)
  | outOfFuel
  deriving DecidableEq

abbrev Parse := EStateM RegexError Parser

namespace Parse

def error {α : Type} (message : String) : Parse α := do
  let s ← read
  fail (.compile message s.position)

def peek : Parse (Option Nat) := do return (← read).left.head?

def skip (count : Nat) : Parse Unit := update fun s => { s with position := s.position+count,left := s.left.drop count }

def next : Parse (Option Nat) := do
  let token ← peek
  if token.isSome then skip 1
  return token

def restore (checkpoint : Parser) : Parse Unit := update fun s => { s with position := checkpoint.position,left := checkpoint.left }

def decimalDigit (unit : Nat) : Option Nat := if isAsciiDigit unit then some (unit-0x30) else none

def hexDigit (unit : Nat) : Option Nat :=
  if isAsciiDigit unit then some (unit-0x30)
  else if 0x61 ≤ unit ∧ unit ≤ 0x66 then some (unit-0x61+10)
  else if 0x41 ≤ unit ∧ unit ≤ 0x46 then some (unit-0x41+10)
  else none

def isSyntaxCharacter (value : Nat) : Bool :=
  [0x5e,0x24,0x5c,0x2e,0x2a,0x2b,0x3f,0x28,0x29,0x5b,0x5d,0x7b,0x7d,0x7c,0x2f].elem value

-- `String::from_utf16` takes no unpaired surrogate.
def wellFormed : List Nat → Bool
  | [] => true
  | [unit] => !isHigh unit && !isLow unit
  | unit :: second :: rest =>
    if isHigh unit then isLow second && wellFormed rest
    else !isLow unit && wellFormed (second :: rest)

def takeUntil (terminator : Nat) (printable : String) : Parse (List Nat) := do
  let s ← read
  let name := s.left.takeWhile fun token => decide (token ≠ terminator)
  skip name.length
  if (← next) ≠ some terminator then error ("expected '" ++ printable ++ "'")
  else if wellFormed name then return name
  else error "invalid Unicode capture name"

-- `u32::from_str_radix` takes a sign of plus.
def fromStrRadix16 (digits : List Nat) : Option Nat :=
  let digits := if digits.head? = some 0x2b then digits.tail else digits
  if digits.isEmpty then none
  else digits.foldl (fun value digit => do
    let value ← value
    let digit ← hexDigit digit
    if value*16+digit < 2^32 then some (value*16+digit) else none) (some 0)

def hexValue (digits : List Nat) : Option Nat :=
  digits.foldl (fun value digit => do return (← value)*16+(← hexDigit digit)) (some 0)

def hexEscape (count : Nat) : Parse Nat := do
  let s ← read
  if s.left.length < count then error "invalid hexadecimal escape"
  else match hexValue (s.left.take count) with
    | some value => do
      skip count
      return value
    | none => error "invalid hexadecimal escape"

def lowSurrogateEscape : Parse (Option Nat) := do
  if (← next) = some 0x5c then
    if (← next) = some 0x75 then
      match ← tryCatch (some <$> hexEscape 4) fun _ => return none with
      | some second => return if isLow second then some second else none
      | none => return none
    else return none
  else return none

def unicodeEscape (unicode : Bool) : Parse Nat := do
  match ← tryCatch (Except.ok <$> hexEscape 4) fun failure => return Except.error failure with
  | .error failure => if unicode then fail failure else return 0x75
  | .ok first =>
    if unicode && isHigh first then
      let checkpoint ← read
      match ← lowSurrogateEscape with
      | some second => return combineSurrogates first second
      | none => do
        restore checkpoint
        return first
    else return first

def bracedEscape : Parse Nat := do
  skip 1
  let digits ← takeUntil 0x7d "\x7d"
  match fromStrRadix16 digits with
  | some value => if isScalar value then return value else error "invalid Unicode escape"
  | none => error "invalid Unicode escape"

def escapeCharacter (unicode : Bool) (escaped : Nat) (inClass : Bool) : Parse Nat :=
  if escaped = 0x6e then return 0x0a
  else if escaped = 0x72 then return 0x0d
  else if escaped = 0x74 then return 0x09
  else if escaped = 0x66 then return 0x0c
  else if escaped = 0x76 then return 0x0b
  else if escaped = 0x30 then return 0
  else if escaped = 0x78 then hexEscape 2
  else if escaped = 0x75 then do
    if unicode && decide ((← peek) = some 0x7b) then bracedEscape else unicodeEscape unicode
  else if !unicode || isSyntaxCharacter escaped || inClass && decide (escaped = 0x2d) then return escaped
  else error "invalid identity escape in Unicode mode"

def character (unicode : Bool) (token : Nat) : Parse Nat := do
  match (← read).left.head? with
  | some second =>
    if unicode && isHigh token && isLow second then do
      skip 1
      return combineSurrogates token second
    else return token
  | none => return token

def parseClassItem (unicode : Bool) : Parse ClassItem := do
  match ← next with
  | none => error "unterminated character class"
  | some token =>
    if token ≠ 0x5c then return .character (← character unicode token)
    else match ← next with
      | none => error "trailing escape"
      | some escaped =>
        if escaped = 0x64 then return .digit
        else if escaped = 0x44 then return .notDigit
        else if escaped = 0x77 then return .word
        else if escaped = 0x57 then return .notWord
        else if escaped = 0x73 then return .space
        else if escaped = 0x53 then return .notSpace
        else if escaped = 0x62 then return .character 0x08
        else return .character (← escapeCharacter unicode escaped true)

def classRange (left right : ClassItem) : Option ClassItem :=
  match left,right with
  | .character start,.character stop => if start ≤ stop then some (.range start stop) else none
  | _,_ => none

-- One item or range; the fuel counts items.
def parseClassItems (unicode : Bool) : Nat → Bool → Parse (List ClassItem)
  | 0, _ => fail .outOfFuel
  | fuel+1, first => do
    match ← peek with
    | none => error "unterminated character class"
    | some token =>
      if token = 0x5d ∧ first = false then do
        skip 1
        return []
      else do
        let left ← parseClassItem unicode
        let ahead := (← read).left
        if ahead.head? = some 0x2d ∧ ahead[1]? ≠ some 0x5d then do
          skip 1
          let right ← parseClassItem unicode
          match classRange left right with
          | some range => do
            let items ← parseClassItems unicode fuel false
            return range :: items
          | none => error "invalid character class range"
        else do
          let items ← parseClassItems unicode fuel false
          return left :: items

def parseClass (unicode : Bool) : Parse CharacterClass := do
  let negated := decide ((← peek) = some 0x5e)
  if negated then skip 1
  let items ← parseClassItems unicode ((← read).left.length+1) true
  return ⟨negated,items⟩

def classNode (item : ClassItem) : Node := .class_ ⟨false,[item]⟩

def decimalLoop (digits : List Nat) (value : Nat) : Option Nat × Nat :=
  match digits with
  | [] => (some value,0)
  | unit :: rest => match decimalDigit unit with
    | none => (some value,0)
    | some digit =>
      if value*10+digit < 2^64 then ((decimalLoop rest (value*10+digit)).1,(decimalLoop rest (value*10+digit)).2+1) else (none,1)

def backreferenceNumber (first : Nat) : Parse Nat := do
  let read_ := decimalLoop (← read).left first
  skip read_.2
  match read_.1 with
  | some number => return number
  | none => error "backreference number is too large"

def isNamedReference (escaped : Nat) : Parse Bool := if escaped = 0x6b then do return decide ((← next) = some 0x3c) else return false

def parseEscape (unicode : Bool) : Parse Node := do
  match ← next with
  | none => error "trailing escape"
  | some escaped =>
    if escaped = 0x64 then return classNode .digit
    else if escaped = 0x44 then return classNode .notDigit
    else if escaped = 0x77 then return classNode .word
    else if escaped = 0x57 then return classNode .notWord
    else if escaped = 0x73 then return classNode .space
    else if escaped = 0x53 then return classNode .notSpace
    else if escaped = 0x62 then return .wordBoundary true
    else if escaped = 0x42 then return .wordBoundary false
    else if ← isNamedReference escaped then return .namedBackReference (← takeUntil 0x3e ">")
    else if isAsciiDigit escaped && decide (escaped ≠ 0x30) then return .backReference (← backreferenceNumber (escaped-0x30))
    else return .literal (← escapeCharacter unicode escaped false)

def parseDecimal : Parse (Option Nat) := do
  let read_ := decimalLoop (← read).left 0
  skip read_.2
  return if read_.2 = 0 then none else read_.1

def quantifierRange (token : Nat) : Parse (Option (Nat × Option Nat)) :=
  if token = 0x2a then do
    skip 1
    return some (0,none)
  else if token = 0x2b then do
    skip 1
    return some (1,none)
  else if token = 0x3f then do
    skip 1
    return some (0,some 1)
  else if token = 0x7b then do
    let checkpoint ← read
    skip 1
    match ← parseDecimal with
    | none => do
      restore checkpoint
      return none
    | some minimum =>
      let after ← next
      if after = some 0x7d then return some (minimum,some minimum)
      else if after = some 0x2c then do
        let maximum ← parseDecimal
        if (← next) ≠ some 0x7d then error "invalid quantifier"
        else if (maximum.map fun value => decide (value < minimum)).getD false then error "quantifier range out of order"
        else return some (minimum,maximum)
      else error "invalid quantifier"
  else return none

def parseQuantifier (atom : Node) : Parse Node := do
  match ← peek with
  | none => return atom
  | some token => match ← quantifierRange token with
    | none => return atom
    | some range =>
      let lazy := decide ((← peek) = some 0x3f)
      if lazy then skip 1
      return .repeat_ atom range.1 range.2 (!lazy)

inductive GroupKind where
  | group (index : Option Nat)
  | look (behind positive : Bool)

def newCapture : Parse Nat := do
  update fun s => { s with captureCount := s.captureCount+1 }
  return (← read).captureCount

def groupKind : Parse GroupKind := do
  if (← peek) = some 0x3f then
    skip 1
    let token ← next
    if token = some 0x3a then return .group none
    else if token = some 0x3d then return .look false true
    else if token = some 0x21 then return .look false false
    else if token = some 0x3c then
      let ahead ← peek
      if ahead = some 0x3d then do
        skip 1
        return .look true true
      else if ahead = some 0x21 then do
        skip 1
        return .look true false
      else
        let name ← takeUntil 0x3e ">"
        if name.isEmpty || ((← read).names.lookup name).isSome then error "invalid duplicate capture group name"
        else
          let index ← newCapture
          update fun s => { s with names := s.names ++ [(name,index)] }
          return .group (some index)
    else error "invalid group"
  else return .group (some (← newCapture))

def GroupKind.node (body : Node) : GroupKind → Node
  | .group index => .group index body
  | .look behind positive => .look body behind positive

mutual

def parseDisjunction (unicode : Bool) : Nat → Option Nat → Parse Node
  | 0, _ => fail .outOfFuel
  | fuel+1, terminator => do
    let branches ← parseBranches unicode fuel terminator
    match branches with
    | [branch] => return branch
    | _ => return .alternation branches

def parseBranches (unicode : Bool) : Nat → Option Nat → Parse (List Node)
  | 0, _ => fail .outOfFuel
  | fuel+1, terminator => do
    let branch ← parseSequence unicode fuel terminator
    if (← peek) ≠ some 0x7c then return [.sequence branch]
    else
      skip 1
      let branches ← parseBranches unicode fuel terminator
      return .sequence branch :: branches

def parseSequence (unicode : Bool) : Nat → Option Nat → Parse (List Node)
  | 0, _ => fail .outOfFuel
  | fuel+1, terminator => do
    match ← peek with
    | none => return []
    | some token =>
      if some token = terminator ∨ token = 0x7c then return []
      else
        let atom ← parseAtom unicode fuel
        let node ← parseQuantifier atom
        let nodes ← parseSequence unicode fuel terminator
        return node :: nodes

def parseAtom (unicode : Bool) : Nat → Parse Node
  | 0 => fail .outOfFuel
  | fuel+1 => do
    match ← next with
    | none => error "expected regular expression atom"
    | some token =>
      if token = 0x2e then return .dot
      else if token = 0x5e then return .start
      else if token = 0x24 then return .end_
      else if token = 0x5b then return .class_ (← parseClass unicode)
      else if token = 0x28 then parseGroup unicode fuel
      else if token = 0x5c then parseEscape unicode
      else if token = 0x29 then error "unmatched ')'"
      else if token = 0x2a ∨ token = 0x2b ∨ token = 0x3f then error "nothing to repeat"
      else return .literal (← character unicode token)

def parseGroup (unicode : Bool) : Nat → Parse Node
  | 0 => fail .outOfFuel
  | fuel+1 => do
    let kind ← groupKind
    let body ← parseDisjunction unicode fuel (some 0x29)
    if (← next) ≠ some 0x29 then error "unterminated group" else return kind.node body

end

end Parse

def noFlags : Flags := ⟨false,false,false,false,false,false⟩

def flagSlot (unit : Nat) : Option ((Flags → Bool) × (Flags → Flags)) :=
  if unit = 0x67 then some (Flags.global,fun flags => { flags with global := true })
  else if unit = 0x69 then some (Flags.ignoreCase,fun flags => { flags with ignoreCase := true })
  else if unit = 0x6d then some (Flags.multiline,fun flags => { flags with multiline := true })
  else if unit = 0x73 then some (Flags.dotAll,fun flags => { flags with dotAll := true })
  else if unit = 0x75 then some (Flags.unicode,fun flags => { flags with unicode := true })
  else if unit = 0x79 then some (Flags.sticky,fun flags => { flags with sticky := true })
  else none

def Flags.parse (text : List Nat) : Except RegexError Flags :=
  text.foldlM (fun flags unit =>
    match flagSlot unit with
    | none =>
      .error (.compile (if unit ≤ 0x7f then "invalid regular expression flag '" ++ toString (Char.ofNat unit) ++ "'"
        else "invalid regular expression flag") 0)
    | some slot =>
      if slot.1 flags then .error (.compile ("duplicate regular expression flag '" ++ toString (Char.ofNat unit) ++ "'") 0)
      else .ok (slot.2 flags)) noFlags

def parseFuel (pattern : List Nat) : Nat := 4*pattern.length+4

def Regex.compileWith (pattern : List Nat) (flags : Flags) : Except RegexError Regex :=
  match (Parse.parseDisjunction flags.unicode (parseFuel pattern) none) ⟨0,pattern,0,[]⟩ with
  | .ok expression s => if s.left.isEmpty then .ok ⟨expression,flags,s.captureCount,s.names⟩ else .error (.compile "unexpected token" s.position)
  | .error failure _ => .error failure

def Regex.compile (pattern flags : List Nat) : Except RegexError Regex := do
  Regex.compileWith pattern (← Flags.parse flags)

end Bamts.Regexp
