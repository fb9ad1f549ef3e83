import Bamts.FoldTable

/-! Regular expressions as the engine runs them: patterns as trees, and the matcher, which answers every state a node can go on
from, in the order in which they are tried. -/
set_option linter.all false
namespace Bamts.Regexp

def stepBudget : Nat := 100000

structure Flags where
  global : Bool
  ignoreCase : Bool
  multiline : Bool
  dotAll : Bool
  unicode : Bool
  sticky : Bool
  deriving DecidableEq

structure CharTable where
  toUppercase : Nat → List Nat
  isWhitespace : Nat → Bool

-- `char::from_u32`
def isScalar (value : Nat) : Bool := decide (value < 0xd800) || decide (0xdfff < value) && decide (value ≤ 0x10ffff)

def isAsciiDigit (value : Nat) : Bool := decide (0x30 ≤ value) && decide (value ≤ 0x39)

def isAsciiAlphanumeric (value : Nat) : Bool :=
  isAsciiDigit value || decide (0x41 ≤ value) && decide (value ≤ 0x5a) || decide (0x61 ≤ value) && decide (value ≤ 0x7a)

def isLineTerminator (value : Nat) : Bool := decide (value = 0x0a) || decide (value = 0x0d) || decide (value = 0x2028) || decide (value = 0x2029)

section
variable (table : CharTable)

def canonicalize (value : Nat) (unicode : Bool) : Nat :=
  if unicode then unicodeSimpleFold value
  else if !isScalar value then value
  else match table.toUppercase value with
    | [canonical] => if 0x80 ≤ value ∧ canonical < 0x80 then value else canonical
    | _ => value

def canonicalizedRangeContains (start stop value : Nat) (unicode : Bool) : Bool :=
  let canonical := canonicalize table value unicode
  let folded := unicodeSimpleFold canonical
  let inside := fun (value : Nat) => decide (start ≤ value) && decide (value ≤ stop)
  if inside canonical || inside folded then true
  else if unicodeSimpleFoldRanges.any fun range =>
      ((offsetCodePoint folded (-range.delta)).map fun source => range.hits source && inside source &&
        decide (canonicalize table source unicode = canonical)).getD false then true
  else unicodeSimpleFoldSingletons.any fun entry =>
    decide (entry.2 = folded) && inside entry.1 && decide (canonicalize table entry.1 unicode = canonical)

def isWord (value : Nat) (ignoreCase unicode : Bool) : Bool :=
  let value := if ignoreCase && unicode then unicodeSimpleFold value else value
  decide (value ≤ 0x7f) && (isAsciiAlphanumeric value || decide (value = 0x5f))

inductive ClassItem where
  | character (expected : Nat)
  | range (start stop : Nat)
  | digit | notDigit | word | notWord | space | notSpace
  deriving DecidableEq

namespace ClassItem

def isSpace (value : Nat) : Bool := isScalar value && table.isWhitespace value || decide (value = 0xfeff)

def matches_ (item : ClassItem) (value : Nat) (ignoreCase unicode : Bool) : Bool :=
  match item with
  | .character expected =>
    decide (value = expected) || ignoreCase && decide (canonicalize table value unicode = canonicalize table expected unicode)
  | .range start stop =>
    decide (start ≤ value) && decide (value ≤ stop) || ignoreCase && canonicalizedRangeContains table start stop value unicode
  | .digit => decide (value ≤ 0x7f) && isAsciiDigit value
  | .notDigit => !(decide (value ≤ 0x7f) && isAsciiDigit value)
  | .word => isWord value ignoreCase unicode
  | .notWord => !isWord value ignoreCase unicode
  | .space => isSpace table value
  | .notSpace => !isSpace table value

end ClassItem

structure CharacterClass where
  negated : Bool
  items : List ClassItem
  deriving DecidableEq

def CharacterClass.matches_ (class_ : CharacterClass) (value : Nat) (ignoreCase unicode : Bool) : Bool :=
  (class_.items.any fun item => item.matches_ table value ignoreCase unicode) != class_.negated

end

inductive Node where
  | sequence (nodes : List Node)
  | alternation (branches : List Node)
  | literal (expected : Nat)
  | dot
  | class_ (set : CharacterClass)
  | start
  | end_
  | wordBoundary (positive : Bool)
  | group (index : Option Nat) (body : Node)
  | backReference (index : Nat)
  | namedBackReference (name : List Nat)
  | look (body : Node) (behind positive : Bool)
  | repeat_ (body : Node) (min : Nat) (max : Option Nat) (greedy : Bool)

structure State where
  position : Nat
  captures : List (Option (Nat × Nat))
  deriving DecidableEq

def State.advanced (s : State) (count : Nat) : State := { s with position := s.position+count }

-- How a match ends without an answer: by the budget, or by a panic of the source.
inductive Stop where
  | budgetExhausted | unreachable | outOfRange
  deriving DecidableEq

structure Regex where
  expression : Node
  flags : Flags
  captureCount : Nat
  names : List (List Nat × Nat)

def unitAt (input : List Nat) (position : Nat) : Except Stop Nat :=
  match input[position]? with
  | some unit => .ok unit
  | none => .error .outOfRange

def isHigh (unit : Nat) : Bool := decide (0xd800 ≤ unit) && decide (unit ≤ 0xdbff)
def isLow (unit : Nat) : Bool := decide (0xdc00 ≤ unit) && decide (unit ≤ 0xdfff)

def combineSurrogates (high low : Nat) : Nat := 0x10000+(high-0xd800)*1024+(low-0xdc00)

def nextCodePoint (input : List Nat) (position : Nat) (unicode : Bool) : Except Stop (Nat × Nat) := do
  let first ← unitAt input position
  match input[position+1]? with
  | some second => if unicode && isHigh first && isLow second then return (combineSurrogates first second,2) else return (first,1)
  | none => return (first,1)

def collect {α β : Type} (step : α → Except Stop (List β)) : List α → Except Stop (List β)
  | [] => .ok []
  | a :: rest => do
    let found ← step a
    let later ← collect step rest
    return found ++ later

-- What the matcher runs on. With `collapse` a repetition keeps the first of equal states at each of its levels, as the source does.
structure Run where
  table : CharTable
  flags : Flags
  names : List (List Nat × Nat)
  input : List Nat
  collapse : Bool

namespace Run
variable (run : Run)

def codePointEq (left right : Nat) : Bool :=
  decide (left = right) ||
    run.flags.ignoreCase && decide (canonicalize run.table left run.flags.unicode = canonicalize run.table right run.flags.unicode)

def whether (holds : Bool) (s : State) : Except Stop (List State) := .ok (if holds then [s] else [])

def matchOne (accepts : Nat → Bool) (s : State) : Except Stop (List State) :=
  if s.position = run.input.length then .ok []
  else do
    let (actual,width) ← nextCodePoint run.input s.position run.flags.unicode
    whether (accepts actual) (s.advanced width)

def matchStart (s : State) : Except Stop (List State) :=
  if s.position = 0 then .ok [s]
  else if run.flags.multiline then do
    let before ← unitAt run.input (s.position-1)
    whether (isLineTerminator before) s
  else .ok []

def matchEnd (s : State) : Except Stop (List State) :=
  whether (decide (s.position = run.input.length) || run.flags.multiline && (run.input[s.position]?.map isLineTerminator).getD false) s

def wordBefore (s : State) : Except Stop Bool :=
  if s.position = 0 then .ok false
  else do
    let low ← unitAt run.input (s.position-1)
    let value := match run.input[s.position-2]? with
      | some high => if run.flags.unicode && isLow low && decide (2 ≤ s.position) && isHigh high then combineSurrogates high low else low
      | none => low
    return isWord value run.flags.ignoreCase run.flags.unicode

def wordAfter (s : State) : Except Stop Bool :=
  if s.position < run.input.length then do
    let (value,_) ← nextCodePoint run.input s.position run.flags.unicode
    return isWord value run.flags.ignoreCase run.flags.unicode
  else .ok false

def matchWordBoundary (positive : Bool) (s : State) : Except Stop (List State) := do
  let left ← run.wordBefore s
  let right ← run.wordAfter s
  whether (decide ((left != right) = positive)) s

-- The loop over a captured range; the fuel is the rest of the range.
def backreferenceLoop (stop : Nat) : Nat → Nat → Nat → Except Stop (Option Nat)
  | 0, _, candidate => .ok (some candidate)
  | fuel+1, captured, candidate =>
    if captured < stop then
      if run.input.length ≤ candidate then .ok none
      else do
        let (left,leftWidth) ← nextCodePoint run.input captured run.flags.unicode
        let (right,rightWidth) ← nextCodePoint run.input candidate run.flags.unicode
        if stop < captured+leftWidth || !run.codePointEq left right then return none
        else backreferenceLoop stop fuel (captured+leftWidth) (candidate+rightWidth)
    else .ok (some candidate)

def matchBackreference (range : Nat × Nat) (s : State) : Except Stop (List State) := do
  match ← run.backreferenceLoop range.2 (range.2-range.1) range.1 s.position with
  | some candidate => return [s.advanced (candidate-s.position)]
  | none => return []

def matchReference (index : Nat) (s : State) : Except Stop (List State) :=
  match (s.captures[index]?).join with
  | some range => run.matchBackreference range s
  | none => .ok [s]

def matchNamed (name : List Nat) (s : State) : Except Stop (List State) :=
  match run.names.lookup name with
  | some index => run.matchReference index s
  | none => .ok []

def capture (index : Option Nat) (begin : Nat) (matched : State) : Except Stop State :=
  match index with
  | some index => if index < matched.captures.length then .ok { matched with captures := matched.captures.set index (some (begin,matched.position)) }
    else .error .outOfRange
  | none => .ok matched

-- The bodies of a lookbehind are tried from every start up to the position; the fuel is what is left up to there.
def lookBehind (body : State → Except Stop (List State)) (s : State) : Nat → Nat → Except Stop (List State)
  | fuel, begin => do
    let found ← body { s with position := begin }
    let found := found.filter fun matched => decide (matched.position = s.position)
    if begin = s.position then return found
    else match fuel with
      | 0 => return found
      | fuel+1 =>
        let (_,width) ← nextCodePoint run.input begin run.flags.unicode
        if s.position < begin+width then return found
        else
          let later ← lookBehind body s fuel (begin+width)
          return found ++ later

def looked (positive : Bool) (s : State) (candidates : List State) : List State :=
  if positive then candidates.map fun matched => { matched with position := s.position }
  else if candidates.isEmpty then [s] else []

def keep (next : List State) (matched : State) : List State := if run.collapse && next.elem matched then next else next ++ [matched]

def nextLevel (body : State → Except Stop (List State)) (min count : Nat) : List State → List State → Except Stop (List State)
  | [], next => .ok next
  | prior :: rest, next => do
    let found ← body prior
    let found := found.filter fun matched => !(decide (matched.position = prior.position) && decide (min ≤ count+1))
    nextLevel body min count rest (found.foldl run.keep next)

def levels (body : State → Except Stop (List State)) (min : Nat) : Nat → Nat → List State → Nat → Except Stop (List (List State))
  | 0, _, level, _ => .ok [level]
  | remaining+1, count, level, total => do
    let next ← run.nextLevel body min count level []
    if next.isEmpty then return [level]
    else if stepBudget < total+next.length then throw .budgetExhausted
    else
      let later ← levels body min remaining (count+1) next (total+next.length)
      return level :: later

def saturatingAdd (a b : Nat) : Nat := Nat.min (a+b) (2^64-1)

def limit (min : Nat) (max : Option Nat) : Nat := max.getD (saturatingAdd (saturatingAdd run.input.length min) 1)

def inOrder (greedy : Bool) (levels : List (List State)) : List State := (if greedy then levels.reverse else levels).flatten

def repeated (body : State → Except Stop (List State)) (min : Nat) (max : Option Nat) (greedy : Bool) (s : State) : Except Stop (List State) := do
  let found ← run.levels body min (run.limit min max) 0 [s] 1
  return inOrder greedy (found.drop min)

mutual

def matchNode : Node → State → Except Stop (List State)
  | .sequence nodes, s => matchSequence nodes s
  | .alternation branches, s => matchBranches branches s
  | .literal expected, s => run.matchOne (run.codePointEq · expected) s
  | .dot, s => run.matchOne (fun actual => run.flags.dotAll || !isLineTerminator actual) s
  | .class_ set, s => run.matchOne (fun actual => set.matches_ run.table actual run.flags.ignoreCase run.flags.unicode) s
  | .start, s => run.matchStart s
  | .end_, s => run.matchEnd s
  | .wordBoundary positive, s => run.matchWordBoundary positive s
  | .group index body, s => do
    let found ← matchNode body s
    found.mapM (capture index s.position)
  | .backReference index, s => run.matchReference index s
  | .namedBackReference name, s => run.matchNamed name s
  | .look body behind positive, s => do
    let candidates ← if behind then run.lookBehind (matchNode body) s s.position 0 else matchNode body s
    return looked positive s candidates
  | .repeat_ _ _ _ _, _ => .error .unreachable

def matchBranches : List Node → State → Except Stop (List State)
  | [], _ => .ok []
  | branch :: rest, s => do
    let found ← matchNode branch s
    let later ← matchBranches rest s
    return found ++ later

def matchSequence : List Node → State → Except Stop (List State)
  | [], s => .ok [s]
  | .repeat_ body min max greedy :: rest, s => do
    let found ← run.repeated (matchNode body) min max greedy s
    collect (matchSequence rest) found
  | first :: rest, s => do
    let found ← matchNode first s
    collect (matchSequence rest) found

end

end Run

structure Match where
  range : Nat × Nat
  captures : List (Option (Nat × Nat))
  named : List (List Nat × Option (Nat × Nat))

end Bamts.Regexp
