import Bamts.RegexpParser

/-! Patterns as they are written: how every character, class, quantifier and group is spelled, the text of a pattern, the tree it
stands for, and where a spelling is legal. -/
set_option linter.all false
namespace Bamts.Regexp

inductive Spelling where
  | raw (value : Nat)
  | identity (unit : Nat)
  | control (letter : Nat)
  | controlLetter (letter : Nat)
  | nul
  | hex (digits : List Nat)
  | unicode (digits : List Nat)
  | pair (high low : List Nat)
  | braced (digits : List Nat)
  | backspace

def utf16 (value : Nat) : List Nat := if value < 0x10000 then [value] else [0xd800+(value-0x10000)/1024,0xdc00+(value-0x10000) % 1024]

def controlValue (letter : Nat) : Option Nat := [(0x6e,0x0a),(0x72,0x0d),(0x74,0x09),(0x66,0x0c),(0x76,0x0b)].lookup letter

def hexNumber (digits : List Nat) : Nat := (Parse.hexValue digits).getD 0

def decimalNumber (digits : List Nat) : Nat := digits.foldl (fun value digit => value*10+(digit-0x30)) 0

def isHexDigits (digits : List Nat) : Bool := digits.all fun digit => (Parse.hexDigit digit).isSome

def isDecimalDigits (digits : List Nat) : Bool := !digits.isEmpty && digits.all isAsciiDigit

def isAsciiLetter (value : Nat) : Bool := decide (0x41 ≤ value) && decide (value ≤ 0x5a) || decide (0x61 ≤ value) && decide (value ≤ 0x7a)

def isPatternSyntax (value : Nat) : Bool := [0x5e,0x24,0x5c,0x2e,0x2a,0x2b,0x3f,0x28,0x29,0x5b,0x5d,0x7b,0x7d,0x7c].elem value

def isSpecialEscape (inClass : Bool) (value : Nat) : Bool :=
  isAsciiDigit value || [0x62,0x63,0x64,0x44,0x66,0x6e,0x72,0x73,0x53,0x74,0x75,0x76,0x77,0x57,0x78].elem value || !inClass && [0x42,0x6b].elem value

namespace Spelling

def text : Spelling → List Nat
  | .raw value => utf16 value
  | .identity unit => [0x5c,unit]
  | .control letter => [0x5c,letter]
  | .controlLetter letter => [0x5c,0x63,letter]
  | .nul => [0x5c,0x30]
  | .hex digits => 0x5c :: 0x78 :: digits
  | .unicode digits => 0x5c :: 0x75 :: digits
  | .pair high low => 0x5c :: 0x75 :: (high ++ 0x5c :: 0x75 :: low)
  | .braced digits => 0x5c :: 0x75 :: 0x7b :: (digits ++ [0x7d])
  | .backspace => [0x5c,0x62]

def value : Spelling → Nat
  | .raw value => value
  | .identity unit => unit
  | .control letter => (controlValue letter).getD 0
  | .controlLetter letter => letter % 32
  | .nul => 0
  | .hex digits => hexNumber digits
  | .unicode digits => hexNumber digits
  | .pair high low => combineSurrogates (hexNumber high) (hexNumber low)
  | .braced digits => hexNumber digits
  | .backspace => 0x08

def lowAhead (after : List Nat) : Bool := (after.head?.map isLow).getD false

def lowEscapeAhead (after : List Nat) : Bool :=
  decide (after.take 2 = [0x5c,0x75]) && decide (((after.drop 2).take 4).length = 4) &&
    ((Parse.hexValue ((after.drop 2).take 4)).map isLow).getD false

-- `after` is the text behind the character.
def legal (unicode inClass : Bool) (after : List Nat) : Spelling → Bool
  | .raw value =>
    decide (value ≤ (if unicode then 0x10ffff else 0xffff)) && !(if inClass then [0x5c,0x5d].elem value else isPatternSyntax value) &&
      !(unicode && isHigh value && lowAhead after)
  | .identity unit =>
    if unicode then Parse.isSyntaxCharacter unit || inClass && decide (unit = 0x2d) else !isSpecialEscape inClass unit && decide (unit ≤ 0xffff)
  | .control letter => (controlValue letter).isSome
  | .controlLetter letter => isAsciiLetter letter
  | .nul => !(after.head?.map isAsciiDigit).getD false
  | .hex digits => decide (digits.length = 2) && isHexDigits digits
  | .unicode digits => decide (digits.length = 4) && isHexDigits digits && !(unicode && isHigh (hexNumber digits) && lowEscapeAhead after)
  | .pair high low =>
    unicode && decide (high.length = 4) && isHexDigits high && isHigh (hexNumber high) && decide (low.length = 4) && isHexDigits low &&
      isLow (hexNumber low)
  | .braced digits => unicode && !digits.isEmpty && isHexDigits digits && decide (hexNumber digits ≤ 0x10ffff)
  | .backspace => inClass

-- Where the parser of the source has the character at all.
def served : Spelling → Bool
  | .controlLetter _ => false
  | .braced digits => isScalar (hexNumber digits)
  | _ => true

end Spelling

def escapeItem (letter : Nat) : Option ClassItem :=
  if letter = 0x64 then some .digit
  else if letter = 0x44 then some .notDigit
  else if letter = 0x77 then some .word
  else if letter = 0x57 then some .notWord
  else if letter = 0x73 then some .space
  else if letter = 0x53 then some .notSpace
  else none

inductive ItemSpelling where
  | single (char : Spelling)
  | range (start stop : Spelling)
  | escape (letter : Nat)

def dashAhead (after : List Nat) : Bool := decide (after.head? = some 0x2d) && decide (after[1]? ≠ some 0x5d)

namespace ItemSpelling

def text : ItemSpelling → List Nat
  | .single char => char.text
  | .range start stop => start.text ++ 0x2d :: stop.text
  | .escape letter => [0x5c,letter]

def item : ItemSpelling → ClassItem
  | .single char => .character char.value
  | .range start stop => .range start.value stop.value
  | .escape letter => (escapeItem letter).getD .digit

def legal (unicode : Bool) (after : List Nat) : ItemSpelling → Bool
  | .single char => char.legal unicode true after && !dashAhead after
  | .range start stop =>
    start.legal unicode true (0x2d :: stop.text ++ after) && stop.legal unicode true after && decide (start.value ≤ stop.value)
  | .escape letter => (escapeItem letter).isSome && !dashAhead after

def served : ItemSpelling → Bool
  | .single char => char.served
  | .range start stop => start.served && stop.served
  | .escape _ => true

end ItemSpelling

structure ClassSpelling where
  negated : Bool
  items : List ItemSpelling

namespace ClassSpelling

def itemsText (items : List ItemSpelling) : List Nat := items.flatMap ItemSpelling.text

def text (set : ClassSpelling) : List Nat := 0x5b :: ((if set.negated then [0x5e] else []) ++ (itemsText set.items ++ [0x5d]))

def tree (set : ClassSpelling) : CharacterClass := ⟨set.negated,set.items.map ItemSpelling.item⟩

def itemsLegal (unicode : Bool) : List ItemSpelling → Bool
  | [] => true
  | item :: rest => item.legal unicode (itemsText rest ++ [0x5d]) && itemsLegal unicode rest

def legal (unicode : Bool) (set : ClassSpelling) : Bool :=
  itemsLegal unicode set.items && (set.negated || decide ((itemsText set.items).head? ≠ some 0x5e))

def served (set : ClassSpelling) : Bool := !set.items.isEmpty && set.items.all ItemSpelling.served

end ClassSpelling

inductive Counts where
  | star | plus | optional
  | exactly (digits : List Nat)
  | atLeast (digits : List Nat)
  | between (least most : List Nat)

namespace Counts

def text : Counts → List Nat
  | .star => [0x2a]
  | .plus => [0x2b]
  | .optional => [0x3f]
  | .exactly digits => 0x7b :: (digits ++ [0x7d])
  | .atLeast digits => 0x7b :: (digits ++ [0x2c,0x7d])
  | .between least most => 0x7b :: (least ++ 0x2c :: (most ++ [0x7d]))

def bounds : Counts → Nat × Option Nat
  | .star => (0,none)
  | .plus => (1,none)
  | .optional => (0,some 1)
  | .exactly digits => (decimalNumber digits,some (decimalNumber digits))
  | .atLeast digits => (decimalNumber digits,none)
  | .between least most => (decimalNumber least,some (decimalNumber most))

def isNumber (digits : List Nat) : Bool := isDecimalDigits digits && decide (decimalNumber digits < 2^64)

def legal : Counts → Bool
  | .exactly digits => isNumber digits
  | .atLeast digits => isNumber digits
  | .between least most => isNumber least && isNumber most && decide (decimalNumber least ≤ decimalNumber most)
  | _ => true

end Counts

structure Quantifier where
  counts : Counts
  lazy : Bool

def Quantifier.text (quantifier : Quantifier) : List Nat := quantifier.counts.text ++ if quantifier.lazy then [0x3f] else []

def quantifierText (quantifier : Option Quantifier) : List Nat := (quantifier.map Quantifier.text).getD []

def quantified (node : Node) (quantifier : Option Quantifier) : Node :=
  match quantifier with
  | some quantifier => .repeat_ node quantifier.counts.bounds.1 quantifier.counts.bounds.2 (!quantifier.lazy)
  | none => node

inductive GroupSpelling where
  | capture | plain
  | named (name : List Nat)

namespace GroupSpelling

def text : GroupSpelling → List Nat
  | .capture => []
  | .plain => [0x3f,0x3a]
  | .named name => 0x3f :: 0x3c :: (name ++ [0x3e])

def captures : GroupSpelling → Nat
  | .plain => 0
  | _ => 1

def kind (count : Nat) : GroupSpelling → Parse.GroupKind
  | .plain => .group none
  | _ => .group (some (count+1))

def names (count : Nat) : GroupSpelling → List (List Nat × Nat)
  | .named name => [(name,count+1)]
  | _ => []

end GroupSpelling

mutual

inductive Atom where
  | start | stop
  | boundary (positive : Bool)
  | dot
  | char (spelling : Spelling)
  | escape (letter : Nat)
  | set (spelling : ClassSpelling)
  | reference (digits : List Nat)
  | namedReference (name : List Nat)
  | group (kind : GroupSpelling) (body : Body)
  | look (behind positive : Bool) (body : Body)

inductive Terms where
  | nil
  | cons (atom : Atom) (quantifier : Option Quantifier) (rest : Terms)

inductive Body where
  | one (terms : Terms)
  | more (terms : Terms) (rest : Body)

end

def lookText (behind positive : Bool) : List Nat := 0x3f :: ((if behind then [0x3c] else []) ++ [if positive then 0x3d else 0x21])

mutual

def Atom.text : Atom → List Nat
  | .start => [0x5e]
  | .stop => [0x24]
  | .boundary positive => [0x5c,if positive then 0x62 else 0x42]
  | .dot => [0x2e]
  | .char spelling => spelling.text
  | .escape letter => [0x5c,letter]
  | .set spelling => spelling.text
  | .reference digits => 0x5c :: digits
  | .namedReference name => 0x5c :: 0x6b :: 0x3c :: (name ++ [0x3e])
  | .group kind body => 0x28 :: (kind.text ++ (body.text ++ [0x29]))
  | .look behind positive body => 0x28 :: (lookText behind positive ++ (body.text ++ [0x29]))

def Terms.text : Terms → List Nat
  | .nil => []
  | .cons atom quantifier rest => atom.text ++ (quantifierText quantifier ++ rest.text)

def Body.text : Body → List Nat
  | .one terms => terms.text
  | .more terms rest => terms.text ++ 0x7c :: rest.text

end

mutual

def Atom.captures : Atom → Nat
  | .group kind body => kind.captures+body.captures
  | .look _ _ body => body.captures
  | _ => 0

def Terms.captures : Terms → Nat
  | .nil => 0
  | .cons atom _ rest => atom.captures+rest.captures

def Body.captures : Body → Nat
  | .one terms => terms.captures
  | .more terms rest => terms.captures+rest.captures

end

mutual

-- The names of the groups, with their numbers; `count` groups come before.
def Atom.names (count : Nat) : Atom → List (List Nat × Nat)
  | .group kind body => kind.names count ++ body.names (count+kind.captures)
  | .look _ _ body => body.names count
  | _ => []

def Terms.names (count : Nat) : Terms → List (List Nat × Nat)
  | .nil => []
  | .cons atom _ rest => atom.names count ++ rest.names (count+atom.captures)

def Body.names (count : Nat) : Body → List (List Nat × Nat)
  | .one terms => terms.names count
  | .more terms rest => terms.names count ++ rest.names (count+terms.captures)

end

def choice : List Node → Node
  | [branch] => branch
  | branches => .alternation branches

mutual

def Atom.tree (count : Nat) : Atom → Node
  | .start => .start
  | .stop => .end_
  | .boundary positive => .wordBoundary positive
  | .dot => .dot
  | .char spelling => .literal spelling.value
  | .escape letter => Parse.classNode ((escapeItem letter).getD .digit)
  | .set spelling => .class_ spelling.tree
  | .reference digits => .backReference (decimalNumber digits)
  | .namedReference name => .namedBackReference name
  | .group kind body => (kind.kind count).node (choice (body.trees (count+kind.captures)))
  | .look behind positive body => .look (choice (body.trees count)) behind positive

def Terms.trees (count : Nat) : Terms → List Node
  | .nil => []
  | .cons atom quantifier rest => quantified (atom.tree count) quantifier :: rest.trees (count+atom.captures)

def Body.trees (count : Nat) : Body → List Node
  | .one terms => [.sequence (terms.trees count)]
  | .more terms rest => .sequence (terms.trees count) :: rest.trees (count+terms.captures)

end

def nameLegal (name : List Nat) : Bool :=
  !name.isEmpty && Parse.wellFormed name && !name.elem 0x3e && decide (name.head? ≠ some 0x3d) && decide (name.head? ≠ some 0x21)

def isAssertion : Atom → Bool
  | .start | .stop | .boundary _ | .look _ _ _ => true
  | _ => false

-- A pattern is read with its mode, its number of groups and their names.
structure Reading where
  unicode : Bool
  groups : Nat
  names : List (List Nat)

mutual

def Atom.legal (reading : Reading) (after : List Nat) : Atom → Bool
  | .char spelling => spelling.legal reading.unicode false after
  | .escape letter => (escapeItem letter).isSome
  | .set spelling => spelling.legal reading.unicode
  | .reference digits =>
    Counts.isNumber digits && decide (digits.head? ≠ some 0x30) && decide (decimalNumber digits ≤ reading.groups) &&
      !(after.head?.map isAsciiDigit).getD false
  | .namedReference name => nameLegal name && reading.names.elem name
  | .group kind body => (match kind with | .named name => nameLegal name | _ => true) && body.legal reading
  | .look _ _ body => body.legal reading
  | _ => true

def Terms.legal (reading : Reading) : Terms → Bool
  | .nil => true
  | .cons atom quantifier rest =>
    atom.legal reading (quantifierText quantifier ++ rest.text) && (quantifier.map fun q => q.counts.legal && !isAssertion atom).getD true &&
      rest.legal reading

def Body.legal (reading : Reading) : Body → Bool
  | .one terms => terms.legal reading
  | .more terms rest => terms.legal reading && rest.legal reading

end

mutual

def Atom.served : Atom → Bool
  | .char spelling => spelling.served
  | .set spelling => spelling.served
  | .group _ body => body.served
  | .look _ _ body => body.served
  | _ => true

def Terms.served : Terms → Bool
  | .nil => true
  | .cons atom _ rest => atom.served && rest.served

def Body.served : Body → Bool
  | .one terms => terms.served
  | .more terms rest => terms.served && rest.served

end

def Body.tree (body : Body) : Node := choice (body.trees 0)

end Bamts.Regexp
