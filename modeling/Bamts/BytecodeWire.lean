import Bamts.BytecodeModel
import Bamts.Leb128

/-! The module wire format: `Module::encode` with its two instruction encoders, and the
strict decoder with its two instruction decoders. Offsets and byte counts are natural
numbers; the `as u32` length casts of the encoder are kept. -/
set_option linter.all false
namespace Bamts.Bytecode
open ByteReader (readN bindRun)
open Leb128 (writeU32 readLeb128 Leb128Error)

def magic : Bytes := [66,77,84,66,67,0,0,1]
def formatVersion : UInt8 := 5

-- `to_le_bytes` and `from_le_bytes`, for any width.
def leBytes : Nat → Nat → Bytes
  | 0, _ => []
  | width+1, value => UInt8.ofNat (value % 256) :: leBytes width (value / 256)

def ofLeBytes : Bytes → Nat
  | [] => 0
  | b :: rest => b.toNat + 256 * ofLeBytes rest

def EcmaString.toLeBytes (s : EcmaString) : Bytes := s.asUnits.flatMap fun unit => leBytes 2 unit.toNat

-- `chunks_exact(2)`: an odd last byte is dropped.
def unitsOfLeBytes : Bytes → List UInt16
  | low :: high :: rest => UInt16.ofNat (ofLeBytes [low,high]) :: unitsOfLeBytes rest
  | _ => []

def EcmaString.fromLeBytes (bytes : Bytes) : EcmaString := ⟨unitsOfLeBytes bytes⟩

def writeString (value : EcmaString) : Bytes :=
  writeU32 (UInt32.ofNat value.lenUnits) ++ value.toLeBytes

def writeText (value : String) : Bytes :=
  writeU32 (UInt32.ofNat (textBytes value).length) ++ textBytes value

def encodeConstant : Constant → Bytes
  | .number bits => 0 :: leBytes 8 bits.bits.toNat
  | .int32 value => 1 :: leBytes 4 value.toUInt32.toNat
  | .string value => 2 :: writeString value
  | .boolean false => [3]
  | .boolean true => [4]
  | .null => [5]
  | .undefined => [6]
  | .bigInt value => 7 :: writeText value.asStr

def writeRegister (r : Register) : Bytes := writeU32 r.get
def writeConstantId (c : ConstantId) : Bytes := writeU32 c.get
def writeFunctionId (f : FunctionId) : Bytes := writeU32 f.get
def writePc (p : Pc) : Bytes := writeU32 p.get

def Isa.Instruction.wireTag : Isa.Instruction → UInt8
  | .getSuper .. => 52
  | .setSuper .. => 53
  | .importAttributes .. => 54
  | .importDynamicAttributes .. => 55
  | .copyDataProperties .. => 56
  | .getTemplateObject .. => 57

def Isa.Instruction.operandBytes : Isa.Instruction → Bytes
  | .getSuper dst home receiver key =>
    writeRegister dst ++ (writeRegister home ++ (writeRegister receiver ++ writeRegister key))
  | .setSuper home receiver key value =>
    writeRegister home ++ (writeRegister receiver ++ (writeRegister key ++ writeRegister value))
  | .importAttributes dst specifier attributes =>
    writeRegister dst ++ (writeConstantId specifier ++ writeRegister attributes)
  | .importDynamicAttributes dst specifier attributes =>
    writeRegister dst ++ (writeRegister specifier ++ writeRegister attributes)
  | .copyDataProperties target source excluded =>
    writeRegister target ++ (writeRegister source ++ writeRegister excluded)
  | .getTemplateObject dst cooked raw =>
    writeRegister dst ++ (writeRegister cooked ++ writeRegister raw)

def Isa.Instruction.encode (e : Isa.Instruction) : Bytes := e.wireTag :: e.operandBytes

-- The crate-root match; the six extension opcodes are `unreachable!` there.
def encodeBase : Instruction → Bytes
  | .loadConst dst constant => 0 :: (writeRegister dst ++ writeConstantId constant)
  | .move dst src => 1 :: (writeRegister dst ++ writeRegister src)
  | .unary dst op operand => 2 :: (writeRegister dst ++ ([op.toU8] ++ writeRegister operand))
  | .binary dst op left right =>
    3 :: (writeRegister dst ++ ([op.toU8] ++ (writeRegister left ++ writeRegister right)))
  | .createObject dst => 4 :: writeRegister dst
  | .createArray dst => 5 :: writeRegister dst
  | .createClosure dst function captures =>
    6 :: (writeRegister dst ++ (writeFunctionId function ++ writeRegister captures))
  | .getProperty dst object key => 7 :: (writeRegister dst ++ (writeRegister object ++ writeRegister key))
  | .setProperty object key value => 8 :: (writeRegister object ++ (writeRegister key ++ writeRegister value))
  | .deleteProperty dst object key => 9 :: (writeRegister dst ++ (writeRegister object ++ writeRegister key))
  | .defineAccessor object key accessor kind =>
    10 :: (writeRegister object ++ (writeRegister key ++ (writeRegister accessor ++ [kind.toU8])))
  | .call dst callee thisValue arguments =>
    11 :: (writeRegister dst ++ (writeRegister callee ++ (writeRegister thisValue ++ writeRegister arguments)))
  | .construct dst callee arguments =>
    12 :: (writeRegister dst ++ (writeRegister callee ++ writeRegister arguments))
  | .loadGlobal dst name => 13 :: (writeRegister dst ++ writeConstantId name)
  | .storeGlobal name value => 14 :: (writeConstantId name ++ writeRegister value)
  | .typeOfGlobal dst name => 15 :: (writeRegister dst ++ writeConstantId name)
  | .loadThis dst => 16 :: writeRegister dst
  | .loadArguments dst => 17 :: writeRegister dst
  | .loadNewTarget dst => 18 :: writeRegister dst
  | .arrayPush array value => 19 :: (writeRegister array ++ writeRegister value)
  | .arrayExtend array iterable => 20 :: (writeRegister array ++ writeRegister iterable)
  | .objectSpread target source => 21 :: (writeRegister target ++ writeRegister source)
  | .setPrototype object prototype => 22 :: (writeRegister object ++ writeRegister prototype)
  | .createPrivateName dst description => 23 :: (writeRegister dst ++ writeConstantId description)
  | .createRegExp dst pattern flags =>
    24 :: (writeRegister dst ++ (writeConstantId pattern ++ writeConstantId flags))
  | .getIterator dst src kind => 25 :: (writeRegister dst ++ (writeRegister src ++ [kind.toU8]))
  | .iteratorNext done value iterator =>
    26 :: (writeRegister done ++ (writeRegister value ++ writeRegister iterator))
  | .jump target => 27 :: writePc target
  | .jumpIfTrue condition target => 28 :: (writeRegister condition ++ writePc target)
  | .jumpIfFalse condition target => 29 :: (writeRegister condition ++ writePc target)
  | .ret value => 30 :: writeRegister value
  | .throw value => 31 :: writeRegister value
  | .suspend dst src resume mode =>
    32 :: (writeRegister dst ++ (writeRegister src ++ (writePc resume ++ writeRegister mode)))
  | .import dst specifier => 33 :: (writeRegister dst ++ writeConstantId specifier)
  | .importDynamic dst specifier => 43 :: (writeRegister dst ++ writeRegister specifier)
  | .export name src => 34 :: (writeConstantId name ++ writeRegister src)
  | .halt => [35]
  | .createCell dst => 36 :: writeRegister dst
  | .await dst src resume => 37 :: (writeRegister dst ++ (writeRegister src ++ writePc resume))
  | .iteratorStep dst iterator => 38 :: (writeRegister dst ++ writeRegister iterator)
  | .iteratorResult done value result =>
    39 :: (writeRegister done ++ (writeRegister value ++ writeRegister result))
  | .iteratorClose result called iterator mode =>
    40 :: (writeRegister result ++ (writeRegister called ++ (writeRegister iterator ++ [mode.toU8])))
  | .requireCloseResult result called => 41 :: (writeRegister result ++ writeRegister called)
  | .disposeCapture method kind src hint =>
    45 :: (writeRegister method ++ (writeRegister kind ++ (writeRegister src ++ [hint.toU8])))
  | .suppressError dst error suppressed =>
    46 :: (writeRegister dst ++ (writeRegister error ++ writeRegister suppressed))
  | .toObject dst src => 42 :: (writeRegister dst ++ writeRegister src)
  | .loadImportMeta dst => 44 :: writeRegister dst
  | .constructWithNewTarget dst callee newTarget arguments =>
    47 :: (writeRegister dst ++ (writeRegister callee ++ (writeRegister newTarget ++ writeRegister arguments)))
  | .defineDataProperty object key value =>
    48 :: (writeRegister object ++ (writeRegister key ++ writeRegister value))
  | .loadOwnDescriptorSlot dst object key slot =>
    49 :: (writeRegister dst ++ (writeRegister object ++ (writeRegister key ++ [slot.toU8])))
  | .defineOwnDescriptorSlot object key src slot =>
    50 :: (writeRegister object ++ (writeRegister key ++ (writeRegister src ++ [slot.toU8])))
  | .withHasBinding dst object key =>
    51 :: (writeRegister dst ++ (writeRegister object ++ writeRegister key))
  | .getSuper .. | .setSuper .. | .importAttributes .. | .importDynamicAttributes ..
  | .copyDataProperties .. | .getTemplateObject .. => []

def encodeInstruction (instruction : Instruction) : Bytes :=
  match instruction.extension with
  | some extension => extension.encode
  | none => encodeBase instruction

def encodeHandler (h : ExceptionHandler) : Bytes :=
  writePc h.start ++ (writePc h.stop ++ (writePc h.handler ++ writeRegister h.catchRegister))

-- The name is stored off by one, `0` for none.
def encodeName (name : Option ConstantId) : Bytes :=
  writeU32 (match name with | none => 0 | some name => name.get + 1)

def encodeFunction (f : Function) : Bytes :=
  encodeName f.name ++ (writeU32 f.captureCount ++ (writeU32 f.parameterCount ++
    (writeU32 f.registerCount ++ ([f.flags.toBits] ++
    (writeU32 (UInt32.ofNat f.code.length) ++ (f.code.flatMap encodeInstruction ++
    (writeU32 (UInt32.ofNat f.handlers.length) ++ f.handlers.flatMap encodeHandler)))))))

def Module.encode (m : Module) : Bytes :=
  magic ++ ([formatVersion] ++ (writeU32 (UInt32.ofNat m.constants.length) ++
    (m.constants.flatMap encodeConstant ++ (writeU32 (UInt32.ofNat m.functions.length) ++
    (writeFunctionId m.entry ++ m.functions.flatMap encodeFunction)))))

structure DecodeLimits where
  maxBytes : Nat
  maxConstants : UInt32
  maxFunctions : UInt32
  maxCaptureCount : UInt32
  maxParameterCount : UInt32
  maxRegisterCount : UInt32
  maxInstructionsPerFunction : UInt32
  maxTotalInstructions : UInt64
  maxHandlersPerFunction : UInt32
  maxStringUnits : UInt32
  maxBigintBytes : UInt32
  deriving DecidableEq, Repr

def DecodeLimits.default : DecodeLimits where
  maxBytes := 16 * 1024 * 1024
  maxConstants := Bytecode.maxConstants
  maxFunctions := Bytecode.maxFunctions
  maxCaptureCount := maxRegisters
  maxParameterCount := maxRegisters
  maxRegisterCount := maxRegisters
  maxInstructionsPerFunction := maxInstructions
  maxTotalInstructions := 16777216
  maxHandlersPerFunction := maxHandlers
  maxStringUnits := 1048576
  maxBigintBytes := 1048576

inductive DecodeErrorKind where
  | inputLimitExceeded (limit actual : Nat)
  | unexpectedEof
  | badMagic (expected actual : UInt8)
  | unsupportedVersion (version : UInt8)
  | nonCanonicalInteger
  | integerOverflow
  | invalidConstantTag (tag : UInt8)
  | nonCanonicalNumber (bits : UInt64)
  | invalidUtf8
  | invalidBigInt
  | invalidFunctionFlags (bits : UInt8)
  | invalidUnaryOp (tag : UInt8)
  | invalidBinaryOp (tag : UInt8)
  | invalidIteratorKind (tag : UInt8)
  | invalidIteratorCloseMode (tag : UInt8)
  | invalidDisposeHint (tag : UInt8)
  | invalidAccessorKind (tag : UInt8)
  | invalidDescriptorSlot (tag : UInt8)
  | invalidOpcode (opcode : UInt8)
  | limitExceeded (field : String) (limit actual : Nat)
  | trailingBytes (count : Nat)
  deriving DecidableEq, Repr

structure DecodeError where
  offset : Nat
  kind : DecodeErrorKind
  deriving DecidableEq, Repr

structure Decoder where
  bytes : Bytes
  offset : Nat
  totalInstructions : Nat
  deriving DecidableEq, Repr

abbrev Decode := StateT Decoder (Except DecodeError)

namespace Decoder

-- `let at = self.offset`
def here : Decode Nat := fun s => .ok (s.offset,s)

-- `value.ok_or_else(|| self.error(at, kind))`
def okOr {α : Type} (value : Option α) (error : DecodeError) : Decode α := fun s =>
  match value with
  | none => .error error
  | some a => .ok (a,s)

def byte : Decode UInt8 := fun s =>
  match s.bytes[s.offset]? with
  | none => .error ⟨s.offset,.unexpectedEof⟩
  | some b => .ok (b,{ s with offset := s.offset+1 })

def slice (length : Nat) : Decode Bytes := fun s =>
  if s.offset + length ≤ s.bytes.length then
    .ok ((s.bytes.drop s.offset).take length,{ s with offset := s.offset + length })
  else .error ⟨s.offset,.unexpectedEof⟩

def leb128 : Decode UInt32 := fun s =>
  match readLeb128 s.bytes s.offset with
  | (.ok value,stop) => .ok (value,{ s with offset := stop })
  | (.error .unexpectedEof,stop) => .error ⟨stop,.unexpectedEof⟩
  | (.error .integerOverflow,_) => .error ⟨s.offset,.integerOverflow⟩
  | (.error .nonCanonicalInteger,_) => .error ⟨s.offset,.nonCanonicalInteger⟩

def bounded (field : String) (limit : UInt32) : Decode UInt32 := do
  let start ← here
  let actual ← leb128
  okOr (if actual > limit then none else some actual) ⟨start,.limitExceeded field limit.toNat actual.toNat⟩

def register : Decode Register := do return ⟨← leb128⟩
def constantId : Decode ConstantId := do return ⟨← leb128⟩
def functionId : Decode FunctionId := do return ⟨← leb128⟩
def pc : Decode Pc := do return ⟨← leb128⟩

def tagged {α : Type} (fromU8 : UInt8 → Option α) (kind : UInt8 → DecodeErrorKind) : Decode α := do
  let start ← here
  let tag ← byte
  okOr (fromU8 tag) ⟨start,kind tag⟩

def unaryOp : Decode UnaryOp := tagged UnaryOp.fromU8 .invalidUnaryOp
def binaryOp : Decode BinaryOp := tagged BinaryOp.fromU8 .invalidBinaryOp
def iteratorKind : Decode IteratorKind := tagged IteratorKind.fromU8 .invalidIteratorKind
def iteratorCloseMode : Decode IteratorCloseMode := tagged IteratorCloseMode.fromU8 .invalidIteratorCloseMode
def disposeHint : Decode DisposeHint := tagged DisposeHint.fromU8 .invalidDisposeHint
def accessorKind : Decode AccessorKind := tagged AccessorKind.fromU8 .invalidAccessorKind
def descriptorSlot : Decode DescriptorSlot := tagged DescriptorSlot.fromU8 .invalidDescriptorSlot
def functionFlags : Decode FunctionFlags := tagged FunctionFlags.fromBits .invalidFunctionFlags

def string (limits : DecodeLimits) : Decode EcmaString := do
  let unitCount ← bounded "string unit count" limits.maxStringUnits
  let bytes ← slice (unitCount.toNat * 2)
  return EcmaString.fromLeBytes bytes

def text (limits : DecodeLimits) : Decode String := do
  let length ← bounded "bigint byte length" limits.maxBigintBytes
  let start ← here
  let bytes ← slice length.toNat
  okOr (String.fromUTF8? ⟨bytes.toArray⟩) ⟨start,.invalidUtf8⟩

def number : Decode Constant := do
  let numberAt ← here
  let bits := UInt64.ofNat (ofLeBytes (← slice 8))
  okOr ((NumberBits.fromWire bits).map .number) ⟨numberAt,.nonCanonicalNumber bits⟩

def int32 : Decode Constant := do
  let bytes ← slice 4
  return .int32 (UInt32.ofNat (ofLeBytes bytes)).toInt32

def bigInt (limits : DecodeLimits) : Decode Constant := do
  let start ← here
  let text ← text limits
  okOr ((BigIntLiteral.new text).map .bigInt) ⟨start,.invalidBigInt⟩

def constantBody (limits : DecodeLimits) (tagAt : Nat) : UInt8 → Decode Constant
  | 0 => number
  | 1 => int32
  | 2 => do return .string (← string limits)
  | 3 => pure (.boolean false)
  | 4 => pure (.boolean true)
  | 5 => pure .null
  | 6 => pure .undefined
  | 7 => bigInt limits
  | tag => okOr none ⟨tagAt,.invalidConstantTag tag⟩

def constant (limits : DecodeLimits) : Decode Constant := do
  let tagAt ← here
  let tag ← byte
  constantBody limits tagAt tag

end Decoder

namespace Isa

structure Cursor where
  bytes : Bytes
  offset : Nat
  deriving DecidableEq, Repr

abbrev Read := StateT Cursor (Except DecodeError)

namespace Cursor

def byte : Read UInt8 := fun s =>
  match s.bytes[s.offset]? with
  | none => .error ⟨s.offset,.unexpectedEof⟩
  | some b => .ok (b,{ s with offset := s.offset+1 })

/- The loop of `Cursor::leb128`, a second copy of the LEB128 reader; `more` counts the
groups still allowed, as in `Leb128.readGroups`. -/
def groups (start : Nat) : Nat → UInt32 → Read UInt32
  | 0, result => do
    let byte ← byte
    if byte &&& 0x80 != 0 || byte > 0x0f then throw ⟨start,.integerOverflow⟩
    else if byte == 0 then throw ⟨start,.nonCanonicalInteger⟩
    else return result ||| (byte.toUInt32 <<< 28)
  | more+1, result => do
    let byte ← byte
    let next ← get
    let result := result ||| ((byte &&& 0x7f).toUInt32 <<< UInt32.ofNat (28 - 7 * (more+1)))
    if byte &&& 0x80 == 0 then
      if byte == 0 && next.offset - start > 1 then throw ⟨start,.nonCanonicalInteger⟩
      else return result
    else groups start more result

def leb128 : Read UInt32 := do
  let start := (← get).offset
  groups start 4 0

def register : Read Register := do return ⟨← leb128⟩
def constantId : Read ConstantId := do return ⟨← leb128⟩

end Cursor

open Cursor in
def operands (tagAt : Nat) : UInt8 → Read Isa.Instruction
  | 52 => do
    let dst ← register; let home ← register; let receiver ← register; let key ← register
    return .getSuper dst home receiver key
  | 53 => do
    let home ← register; let receiver ← register; let key ← register; let value ← register
    return .setSuper home receiver key value
  | 54 => do
    let dst ← register; let specifier ← constantId; let attributes ← register
    return .importAttributes dst specifier attributes
  | 55 => do
    let dst ← register; let specifier ← register; let attributes ← register
    return .importDynamicAttributes dst specifier attributes
  | 56 => do
    let target ← register; let source ← register; let excluded ← register
    return .copyDataProperties target source excluded
  | 57 => do
    let dst ← register; let cooked ← register; let raw ← register
    return .getTemplateObject dst cooked raw
  | opcode => throw ⟨tagAt,.invalidOpcode opcode⟩

def decodeFromTag (tag : UInt8) (bytes : Bytes) (offset : Nat) : Except DecodeError (Isa.Instruction × Nat) := do
  let (instruction,cursor) ← operands (offset - 1) tag ⟨bytes,offset⟩
  return (instruction,cursor.offset)

def firstExtensionTag : UInt8 := 52
def extensionTagEnd : UInt8 := 58

end Isa

namespace Decoder

def extension (opcode : UInt8) : Decode Instruction := fun s => do
  let (instruction,next) ← Isa.decodeFromTag opcode s.bytes s.offset
  return (Instruction.ofIsa instruction,{ s with offset := next })

def operands (opcodeAt : Nat) : UInt8 → Decode Instruction
  | 0 => do let dst ← register; let constant ← constantId; return .loadConst dst constant
  | 1 => do let dst ← register; let src ← register; return .move dst src
  | 2 => do let dst ← register; let op ← unaryOp; let operand ← register; return .unary dst op operand
  | 3 => do
    let dst ← register; let op ← binaryOp; let left ← register; let right ← register
    return .binary dst op left right
  | 4 => do let dst ← register; return .createObject dst
  | 5 => do let dst ← register; return .createArray dst
  | 6 => do
    let dst ← register; let function ← functionId; let captures ← register
    return .createClosure dst function captures
  | 7 => do let dst ← register; let object ← register; let key ← register; return .getProperty dst object key
  | 8 => do let object ← register; let key ← register; let value ← register; return .setProperty object key value
  | 9 => do let dst ← register; let object ← register; let key ← register; return .deleteProperty dst object key
  | 10 => do
    let object ← register; let key ← register; let accessor ← register; let kind ← accessorKind
    return .defineAccessor object key accessor kind
  | 11 => do
    let dst ← register; let callee ← register; let thisValue ← register; let arguments ← register
    return .call dst callee thisValue arguments
  | 12 => do
    let dst ← register; let callee ← register; let arguments ← register
    return .construct dst callee arguments
  | 13 => do let dst ← register; let name ← constantId; return .loadGlobal dst name
  | 14 => do let name ← constantId; let value ← register; return .storeGlobal name value
  | 15 => do let dst ← register; let name ← constantId; return .typeOfGlobal dst name
  | 16 => do let dst ← register; return .loadThis dst
  | 17 => do let dst ← register; return .loadArguments dst
  | 18 => do let dst ← register; return .loadNewTarget dst
  | 19 => do let array ← register; let value ← register; return .arrayPush array value
  | 20 => do let array ← register; let iterable ← register; return .arrayExtend array iterable
  | 21 => do let target ← register; let source ← register; return .objectSpread target source
  | 22 => do let object ← register; let prototype ← register; return .setPrototype object prototype
  | 23 => do let dst ← register; let description ← constantId; return .createPrivateName dst description
  | 24 => do
    let dst ← register; let pattern ← constantId; let flags ← constantId
    return .createRegExp dst pattern flags
  | 25 => do let dst ← register; let src ← register; let kind ← iteratorKind; return .getIterator dst src kind
  | 26 => do
    let done ← register; let value ← register; let iterator ← register
    return .iteratorNext done value iterator
  | 27 => do let target ← pc; return .jump target
  | 28 => do let condition ← register; let target ← pc; return .jumpIfTrue condition target
  | 29 => do let condition ← register; let target ← pc; return .jumpIfFalse condition target
  | 30 => do let value ← register; return .ret value
  | 31 => do let value ← register; return .throw value
  | 32 => do
    let dst ← register; let src ← register; let resume ← pc; let mode ← register
    return .suspend dst src resume mode
  | 33 => do let dst ← register; let specifier ← constantId; return .import dst specifier
  | 34 => do let name ← constantId; let src ← register; return .export name src
  | 35 => pure .halt
  | 36 => do let dst ← register; return .createCell dst
  | 37 => do let dst ← register; let src ← register; let resume ← pc; return .await dst src resume
  | 38 => do let dst ← register; let iterator ← register; return .iteratorStep dst iterator
  | 39 => do
    let done ← register; let value ← register; let result ← register
    return .iteratorResult done value result
  | 40 => do
    let result ← register; let called ← register; let iterator ← register; let mode ← iteratorCloseMode
    return .iteratorClose result called iterator mode
  | 41 => do let result ← register; let called ← register; return .requireCloseResult result called
  | 42 => do let dst ← register; let src ← register; return .toObject dst src
  | 43 => do let dst ← register; let specifier ← register; return .importDynamic dst specifier
  | 44 => do let dst ← register; return .loadImportMeta dst
  | 45 => do
    let method ← register; let kind ← register; let src ← register; let hint ← disposeHint
    return .disposeCapture method kind src hint
  | 46 => do
    let dst ← register; let error ← register; let suppressed ← register
    return .suppressError dst error suppressed
  | 47 => do
    let dst ← register; let callee ← register; let newTarget ← register; let arguments ← register
    return .constructWithNewTarget dst callee newTarget arguments
  | 48 => do
    let object ← register; let key ← register; let value ← register
    return .defineDataProperty object key value
  | 49 => do
    let dst ← register; let object ← register; let key ← register; let slot ← descriptorSlot
    return .loadOwnDescriptorSlot dst object key slot
  | 50 => do
    let object ← register; let key ← register; let src ← register; let slot ← descriptorSlot
    return .defineOwnDescriptorSlot object key src slot
  | 51 => do let dst ← register; let object ← register; let key ← register; return .withHasBinding dst object key
  | opcode =>
    if Isa.firstExtensionTag ≤ opcode ∧ opcode < Isa.extensionTagEnd then extension opcode
    else okOr none ⟨opcodeAt,.invalidOpcode opcode⟩

def instruction : Decode Instruction := do
  let opcodeAt ← here
  let opcode ← byte
  operands opcodeAt opcode

def handler : Decode ExceptionHandler := do
  let start ← pc; let stop ← pc; let handler ← pc; let catchRegister ← register
  return ⟨start,stop,handler,catchRegister⟩

def functionName : Decode (Option ConstantId) := do
  let encoded ← leb128
  return if encoded = 0 then none else some ⟨encoded - 1⟩

def countInstructions (limits : DecodeLimits) (instructionAt : Nat) (count : UInt32) : Decode Unit := fun s =>
  let total := s.totalInstructions + count.toNat
  if total > limits.maxTotalInstructions.toNat then
    .error ⟨instructionAt,.limitExceeded "total instruction count" limits.maxTotalInstructions.toNat total⟩
  else .ok ((),{ s with totalInstructions := total })

def function (limits : DecodeLimits) : Decode Function := do
  let name ← functionName
  let captureCount ← bounded "capture count" limits.maxCaptureCount
  let parameterCount ← bounded "parameter count" limits.maxParameterCount
  let registerCount ← bounded "register count" limits.maxRegisterCount
  let flags ← functionFlags
  let instructionAt ← here
  let instructionCount ← bounded "instruction count" limits.maxInstructionsPerFunction
  countInstructions limits instructionAt instructionCount
  let code ← readN instruction instructionCount.toNat
  let handlerCount ← bounded "handler count" limits.maxHandlersPerFunction
  let handlers ← readN handler handlerCount.toNat
  return ⟨name,captureCount,parameterCount,registerCount,flags,code,handlers⟩

def expect (expected : UInt8) (kind : UInt8 → DecodeErrorKind) : Decode Unit := do
  let start ← here
  let actual ← byte
  okOr (if actual = expected then some () else none) ⟨start,kind actual⟩

def checkMagic : Bytes → Decode Unit
  | [] => pure ()
  | expected :: rest => do
    expect expected (.badMagic expected)
    checkMagic rest

def module (limits : DecodeLimits) : Decode Module := do
  checkMagic magic
  expect formatVersion .unsupportedVersion
  let constantCount ← bounded "constant count" limits.maxConstants
  let constants ← readN (constant limits) constantCount.toNat
  let functionCount ← bounded "function count" limits.maxFunctions
  let entry ← functionId
  let functions ← readN (function limits) functionCount.toNat
  return ⟨constants,functions,entry⟩

end Decoder

def decode (bytes : Bytes) (limits : DecodeLimits) : Except DecodeError Module :=
  if bytes.length > limits.maxBytes then .error ⟨0,.inputLimitExceeded limits.maxBytes bytes.length⟩
  else
    match Decoder.module limits ⟨bytes,0,0⟩ with
    | .error e => .error e
    | .ok (m,s) =>
      if s.offset ≠ bytes.length then .error ⟨s.offset,.trailingBytes (bytes.length - s.offset)⟩
      else .ok m

end Bamts.Bytecode
