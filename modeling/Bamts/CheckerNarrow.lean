import Bamts.CheckerTable

/-! Narrowing by `typeof`, `in`, equality and truthiness: filters over the members of a union, and intersection and subtraction by
assignability. -/
set_option linter.all false
namespace Bamts.Checker
open Bamts.Bytecode (EcmaString)

inductive TypeofName where
  | string | number | bigInt | boolean | symbol | undefined | object | function
  deriving DecidableEq, Repr

inductive Narrow where
  | keep | drop
  | replace (replacement : TypeId)
  deriving DecidableEq, Repr

def simple : «Type» → Bool
  | .null | .undefined | .void | .boolean | .number | .bigInt | .string | .symbol => true
  | .booleanLiteral _ | .numberLiteral _ | .stringLiteral _ | .bigIntLiteral _ => true
  | _ => false

def composite : «Type» → Bool
  | .array _ | .tuple _ | .objectType _ | .function _ => true
  | _ => false

def extreme : «Type» → Bool
  | .error | .any | .unknown | .never => true
  | _ => false

def plain (ty : «Type») : Bool := simple ty || composite ty || extreme ty

section
-- `structural` decides between two composite types and about the kinds that are not plain.
variable (structural : TypeId → TypeId → Bool) (table : TypeTable)

def relatesSingle (source target : TypeId) : Bool :=
  source = target || if plain (table.get source) && plain (table.get target) then
    match table.get source,table.get target with
    | .error,_ | _,.error | .any,_ | _,.any => true
    | _,.unknown => true
    | .unknown,_ => false
    | .never,_ => true
    | _,.never => false
    | .stringLiteral _,.string => true
    | .numberLiteral _,.number => true
    | .booleanLiteral _,.boolean => true
    | .bigIntLiteral _,.bigInt => true
    | .null,_ | .undefined,_ => true
    | from_,to_ => if simple from_ || simple to_ then false else structural source target
  else structural source target

def relatesMember (source target : TypeId) : Bool :=
  match table.get target with
  | .union targets =>
    if plain (table.get source) then
      match table.get source with
      | .error | .any | .never | .null | .undefined => true
      | .unknown => false
      | _ => targets.any (relatesSingle structural table source)
    else structural source target
  | _ => relatesSingle structural table source target

def assignable (source target : TypeId) : Bool :=
  source = target || match table.get source with
    | .union sources =>
      match table.get target with
      | .error | .any | .unknown => true
      | .never => false
      | .union _ => sources.all (relatesMember structural table · target)
      | to_ => if plain to_ then sources.all (relatesMember structural table · target) else structural source target
    | _ => relatesMember structural table source target

end

def filter (table : TypeTable) (ty : TypeId) (decide : TypeTable → «Type» → Narrow) : TypeTable × TypeId :=
  match table.get ty with
  | .this _ constraint =>
    match decide table (table.get constraint) with
    | .keep | .replace _ => (table,ty)
    | .drop => (table,table.never)
  | .appliedAlias _ _ => (table,ty)
  | .error | .intersection _ | .any | .unknown => (table,ty)
  | .union members =>
    table.union (members.foldl (fun kept member =>
      if table.get member = .error then kept ++ [member]
      else match decide table (table.get member) with
        | .keep => kept ++ [member]
        | .drop => kept
        | .replace replacement => kept ++ [replacement]) [])
  | _ =>
    match decide table (table.get ty) with
    | .keep => (table,ty)
    | .drop => (table,table.never)
    | .replace replacement => (table,replacement)

-- The fuel bounds how deep intersections are nested.
def typeofMatches (table : TypeTable) : Nat → «Type» → TypeofName → Bool
  | fuel,.intersection members,name =>
    match fuel with
    | 0 => false
    | fuel+1 => members.any fun member => typeofMatches table fuel (table.get member) name
  | _,.string,.string | _,.stringLiteral _,.string | _,.enumMember _ _ (some _),.string => true
  | _,.number,.number | _,.numberLiteral _,.number | _,.numericEnum _,.number | _,.enumMember _ _ none,.number => true
  | _,.bigInt,.bigInt | _,.bigIntLiteral _,.bigInt => true
  | _,.boolean,.boolean | _,.booleanLiteral _,.boolean => true
  | _,.symbol,.symbol => true
  | _,.undefined,.undefined | _,.void,.undefined => true
  | _,.objectType _,.object | _,.array _,.object | _,.tuple _,.object | _,.null,.object | _,.appliedClass _ _,.object => true
  | _,.function _,.function => true
  | _,_,_ => false

def narrowTypeof (table : TypeTable) (ty : TypeId) (name : TypeofName) (negated : Bool) : TypeTable × TypeId :=
  filter table ty fun table candidate => match candidate with
    | .named _ | .object | .keyof _ | .indexedAccess _ _ | .record _ _ => .keep
    | candidate => if typeofMatches table table.types.length candidate name ≠ negated then .keep else .drop

def narrowIn (table : TypeTable) (ty : TypeId) (property : String) (negated : Bool) : TypeTable × TypeId :=
  filter table ty fun _ candidate => match candidate with
    | .objectType object => if (object.properties.any fun member => member.name = property) ≠ negated then .keep else .drop
    | .object | .function _ | .array _ | .named _ | .appliedClass _ _ => .keep
    | _ => if negated then .keep else .drop

section
variable (structural : TypeId → TypeId → Bool)

def intersectSingle (table : TypeTable) (ty other : TypeId) : TypeId :=
  match table.get ty with
  | .error | .any | .unknown | .never => ty
  | _ =>
    if assignable structural table other ty then other
    else if assignable structural table ty other then ty
    else table.never

def intersectMember (table : TypeTable) (ty other : TypeId) : TypeTable × TypeId :=
  match table.get ty with
  | .error | .any | .unknown | .never => (table,ty)
  | _ =>
    if assignable structural table other ty then (table,other)
    else if assignable structural table ty other then (table,ty)
    else match table.get other with
      | .union members => table.union (members.map (intersectSingle structural table ty))
      | _ => (table,table.never)

def intersectEach (table : TypeTable) (members : List TypeId) (other : TypeId) : TypeTable × TypeId :=
  let (table,parts) := members.foldl (fun state member =>
    let (table,part) := intersectMember structural state.1 member other
    (table,state.2 ++ [part])) (table,[])
  table.union parts

def intersect (table : TypeTable) (ty other : TypeId) : TypeTable × TypeId :=
  match table.get ty with
  | .error | .any | .unknown | .never => (table,ty)
  | .union members =>
    if members.any fun member => table.get member = .error then intersectEach structural table members other
    else if assignable structural table other ty then (table,other)
    else if assignable structural table ty other then (table,ty)
    else intersectEach structural table members other
  | _ => intersectMember structural table ty other

def subtract (table : TypeTable) (ty excluded : TypeId) : TypeTable × TypeId :=
  match table.get excluded with
  | .error | .intersection _ | .any | .unknown => (table,ty)
  | _ =>
    match table.get ty with
    | .error | .intersection _ | .any | .unknown | .never => (table,ty)
    | .union members =>
      table.union (members.filter fun member => table.get member = .error || !assignable structural table member excluded)
    | _ => if assignable structural table ty excluded then (table,table.never) else (table,ty)

def narrowEquality (table : TypeTable) (ty literal : TypeId) (negated : Bool) : TypeTable × TypeId :=
  if negated then subtract structural table ty literal else intersect structural table ty literal

end

def bigintDigits (lexeme : List Char) : Option (Nat × List Char) :=
  if lexeme.getLast? = some 'n' then
    some (match lexeme.dropLast with
      | '0' :: 'x' :: digits | '0' :: 'X' :: digits => (16,digits)
      | '0' :: 'o' :: digits | '0' :: 'O' :: digits => (8,digits)
      | '0' :: 'b' :: digits | '0' :: 'B' :: digits => (2,digits)
      | digits => (10,digits))
  else none

def bigintLiteralIsZero (lexeme : String) : Bool :=
  match bigintDigits lexeme.toList with
  | none => false
  | some (_,digits) => !digits.isEmpty && (digits.filter (· ≠ '_')).all (· = '0')

section
variable {Number : Type} [DecidableEq Number] (numberValue : String → Option Number) (zero : Number)

-- Numbers are parsed outside: `numberValue` gives the value of a lexeme, and `zero` stands for both zeros.
def definitelyFalsy : «Type» → Bool
  | .null | .undefined | .void => true
  | .booleanLiteral value => !value
  | .numberLiteral text => numberValue text = some zero
  | .stringLiteral text => text.asUnits.isEmpty
  | .enumMember _ _ (some value) => value.asUnits.isEmpty
  | .bigIntLiteral text => bigintLiteralIsZero text
  | _ => false

def possiblyFalsy : «Type» → Bool
  | .null | .undefined | .void | .boolean | .number | .string | .bigInt | .numericEnum _ | .enumMember _ _ none => true
  | .named _ | .appliedClass _ _ => true
  | ty => definitelyFalsy numberValue zero ty

def narrowTruthiness (table : TypeTable) (ty : TypeId) (negated : Bool) : TypeTable × TypeId :=
  let (table,booleanReplacement) := table.intern (.booleanLiteral !negated)
  filter table ty fun _ candidate =>
    if candidate = .boolean then .replace booleanReplacement
    else if negated then (if possiblyFalsy numberValue zero candidate then .keep else .drop)
    else if definitelyFalsy numberValue zero candidate then .drop else .keep

end

end Bamts.Checker
