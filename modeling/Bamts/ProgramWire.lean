import Bamts.BytecodeWire
import Bamts.ProgramModel

/-! The program envelope: `Program::encode` and the strict `ProgramDecoder` with its running
totals. `usize` is 64 bits wide; the `as u32` length casts of the encoder are kept. -/
set_option linter.all false
namespace Bamts.Linkage
open Bytecode
open ByteReader (readN readEach)
open Leb128 (writeU32 readLeb128)

def programMagic : Bytes := [66,77,84,80,67,0,0,1]
def programVersion : UInt8 := 4

def writeModuleId (m : ModuleId) : Bytes := writeU32 m.get
def writeEdgeId (e : EdgeId) : Bytes := writeU32 e.get
def writeBindingId (b : BindingId) : Bytes := writeU32 b.get

def encodeEdgeTarget : EdgeTarget → Bytes
  | .local target => 0 :: writeModuleId target
  | .external => [1]

def EdgeKind.toU8 : EdgeKind → UInt8
  | .static => 0
  | .dynamic => 1
  | .staticAndDynamic => 2

def encodeEdge (e : Edge) : Bytes :=
  writeConstantId e.specifier ++ (encodeEdgeTarget e.target ++ [e.kind.toU8])

def encodeBindingKind : BindingKind → Bytes
  | .hoisted => [0]
  | .lexical => [1]
  | .imported edge name => 2 :: (writeEdgeId edge ++ writeConstantId name)
  | .namespace edge => 3 :: writeEdgeId edge

def encodeBinding (b : Binding) : Bytes := writeConstantId b.name ++ encodeBindingKind b.kind

def encodeExportSource : ExportSource → Bytes
  | .local binding => 0 :: writeBindingId binding
  | .indirect edge name => 1 :: (writeEdgeId edge ++ writeConstantId name)

def encodeExport (e : Export) : Bytes := writeConstantId e.name ++ encodeExportSource e.source

def encodeModule (m : ProgramModule) : Bytes :=
  let blob := m.code.encode
  writeConstantId m.name ++ (writeU32 (UInt32.ofNat blob.length) ++ (blob ++
    (writeU32 (UInt32.ofNat m.edges.length) ++ (m.edges.flatMap encodeEdge ++
    (writeU32 (UInt32.ofNat m.bindings.length) ++ (m.bindings.flatMap encodeBinding ++
    (writeU32 (UInt32.ofNat m.exports.length) ++ m.exports.flatMap encodeExport)))))))

def Program.encode (p : Program) : Bytes :=
  programMagic ++ ([programVersion] ++ (writeModuleId p.entry ++
    (writeU32 (UInt32.ofNat p.modules.length) ++ p.modules.flatMap encodeModule)))

structure ProgramDecodeLimits where
  maxBytes : UInt64
  maxModules : UInt32
  maxModuleBytes : UInt64
  maxTotalModuleBytes : UInt64
  maxEdgesPerModule : UInt32
  maxBindingsPerModule : UInt32
  maxExportsPerModule : UInt32
  maxTotalEdges : UInt32
  maxTotalBindings : UInt32
  maxTotalExports : UInt32
  module : DecodeLimits
  deriving DecidableEq, Repr

def ProgramDecodeLimits.default : ProgramDecodeLimits where
  maxBytes := 64 * 1024 * 1024
  maxModules := 65536
  maxModuleBytes := 16 * 1024 * 1024
  maxTotalModuleBytes := 48 * 1024 * 1024
  maxEdgesPerModule := 1048576
  maxBindingsPerModule := 1048576
  maxExportsPerModule := 1048576
  maxTotalEdges := 4194304
  maxTotalBindings := 4194304
  maxTotalExports := 4194304
  module := DecodeLimits.default

inductive ProgramDecodeErrorKind where
  | inputLimitExceeded (limit actual : Nat)
  | unexpectedEof
  | badMagic (expected actual : UInt8)
  | unsupportedVersion (version : UInt8)
  | nonCanonicalInteger
  | integerOverflow
  | invalidEdgeTarget (tag : UInt8)
  | invalidEdgeKind (tag : UInt8)
  | invalidBindingKind (tag : UInt8)
  | invalidExportSource (tag : UInt8)
  | limitExceeded (field : String) (limit actual : Nat)
  | module (module : ModuleId) (error : DecodeError)
  | trailingBytes (count : Nat)
  deriving DecidableEq, Repr

structure ProgramDecodeError where
  offset : Nat
  kind : ProgramDecodeErrorKind
  deriving DecidableEq, Repr

structure ProgramDecoder where
  bytes : Bytes
  offset : Nat
  totalModuleBytes : Nat
  totalEdges : Nat
  totalBindings : Nat
  totalExports : Nat
  deriving DecidableEq, Repr

abbrev ProgramDecode := StateT ProgramDecoder (Except ProgramDecodeError)

namespace ProgramDecoder

def here : ProgramDecode Nat := fun s => .ok (s.offset,s)

-- `error_at(at, kind)` when there is no value.
def okAt {α : Type} (value : Option α) (start : Nat) (kind : ProgramDecodeErrorKind) : ProgramDecode α := fun s =>
  match value with
  | none => .error ⟨start,kind⟩
  | some a => .ok (a,s)

def byte : ProgramDecode UInt8 := fun s =>
  match s.bytes[s.offset]? with
  | none => .error ⟨s.offset,.unexpectedEof⟩
  | some b => .ok (b,{ s with offset := s.offset+1 })

def slice (length : Nat) : ProgramDecode Bytes := fun s =>
  if s.offset + length ≤ s.bytes.length then
    .ok ((s.bytes.drop s.offset).take length,{ s with offset := s.offset + length })
  else .error ⟨s.offset,.unexpectedEof⟩

def u32 : ProgramDecode UInt32 := fun s =>
  match readLeb128 s.bytes s.offset with
  | (.ok value,stop) => .ok (value,{ s with offset := stop })
  | (.error .unexpectedEof,_) => .error ⟨s.offset,.unexpectedEof⟩
  | (.error .integerOverflow,_) => .error ⟨s.offset,.integerOverflow⟩
  | (.error .nonCanonicalInteger,_) => .error ⟨s.offset,.nonCanonicalInteger⟩

-- `count` and `length`: the limit is reported after the integer.
def limited (field : String) (limit : Nat) : ProgramDecode UInt32 := do
  let actual ← u32
  let stop ← here
  okAt (if actual.toNat > limit then none else some actual) stop (.limitExceeded field limit actual.toNat)

def count (field : String) (limit : UInt32) : ProgramDecode UInt32 := limited field limit.toNat
def length (field : String) (limit : UInt64) : ProgramDecode UInt32 := limited field limit.toNat

def usizeMax : Nat := 2^64 - 1

def addModuleBytes (limits : ProgramDecodeLimits) (length : Nat) : ProgramDecode Unit := fun s =>
  let total := s.totalModuleBytes + length
  let limit := limits.maxTotalModuleBytes.toNat
  if total > usizeMax then .error ⟨s.offset,.integerOverflow⟩
  else if total > limit then .error ⟨s.offset,.limitExceeded "total module bytes" limit total⟩
  else .ok ((),{ s with totalModuleBytes := total })

inductive Total where
  | edges | bindings | exports
  deriving DecidableEq, Repr

def slot (s : ProgramDecoder) : Total → Nat
  | .edges => s.totalEdges
  | .bindings => s.totalBindings
  | .exports => s.totalExports

def setSlot (s : ProgramDecoder) (value : Nat) : Total → ProgramDecoder
  | .edges => { s with totalEdges := value }
  | .bindings => { s with totalBindings := value }
  | .exports => { s with totalExports := value }

def addTotal (field : String) (count : Nat) (limit : UInt32) (total : Total) : ProgramDecode Unit := fun s =>
  let value := s.slot total + count
  if value > limit.toNat then .error ⟨s.offset,.limitExceeded field limit.toNat value⟩
  else .ok ((),s.setSlot value total)

def constantId : ProgramDecode ConstantId := do return ⟨← u32⟩
def moduleId : ProgramDecode ModuleId := do return ⟨← u32⟩
def edgeId : ProgramDecode EdgeId := do return ⟨← u32⟩
def bindingId : ProgramDecode BindingId := do return ⟨← u32⟩

def edgeTargetBody (tagAt : Nat) : UInt8 → ProgramDecode EdgeTarget
  | 0 => do let target ← moduleId; return .local target
  | 1 => pure .external
  | tag => okAt none tagAt (.invalidEdgeTarget tag)

def edgeKindOf : UInt8 → Option EdgeKind
  | 0 => some .static
  | 1 => some .dynamic
  | 2 => some .staticAndDynamic
  | _ => none

def edgeTarget : ProgramDecode EdgeTarget := do
  let tagAt ← here
  let tag ← byte
  edgeTargetBody tagAt tag

def edgeKind : ProgramDecode EdgeKind := do
  let kindAt ← here
  let tag ← byte
  okAt (edgeKindOf tag) kindAt (.invalidEdgeKind tag)

def edge : ProgramDecode Edge := do
  let specifier ← constantId; let target ← edgeTarget; let kind ← edgeKind
  return ⟨specifier,target,kind⟩

def bindingKindBody (tagAt : Nat) : UInt8 → ProgramDecode BindingKind
  | 0 => pure .hoisted
  | 1 => pure .lexical
  | 2 => do let edge ← edgeId; let name ← constantId; return .imported edge name
  | 3 => do let edge ← edgeId; return .namespace edge
  | tag => okAt none tagAt (.invalidBindingKind tag)

def bindingKind : ProgramDecode BindingKind := do
  let tagAt ← here
  let tag ← byte
  bindingKindBody tagAt tag

def binding : ProgramDecode Binding := do
  let name ← constantId; let kind ← bindingKind
  return ⟨name,kind⟩

def exportSourceBody (tagAt : Nat) : UInt8 → ProgramDecode ExportSource
  | 0 => do let binding ← bindingId; return .local binding
  | 1 => do let edge ← edgeId; let name ← constantId; return .indirect edge name
  | tag => okAt none tagAt (.invalidExportSource tag)

def exportSource : ProgramDecode ExportSource := do
  let tagAt ← here
  let tag ← byte
  exportSourceBody tagAt tag

def exportEntry : ProgramDecode Export := do
  let name ← constantId; let source ← exportSource
  return ⟨name,source⟩

def moduleLimits (limits : ProgramDecodeLimits) : DecodeLimits :=
  { limits.module with maxBytes := min limits.module.maxBytes limits.maxModuleBytes.toNat }

def code (limits : ProgramDecodeLimits) (id : ModuleId) (blobOffset : Nat) (blob : Bytes) : ProgramDecode Module :=
  fun s =>
    match decode blob (moduleLimits limits) with
    | .error e => .error ⟨blobOffset + e.offset,.module id e⟩
    | .ok m => .ok (m,s)

def module (limits : ProgramDecodeLimits) (id : ModuleId) : ProgramDecode ProgramModule := do
  let name ← constantId
  let length ← length "module bytes" limits.maxModuleBytes
  addModuleBytes limits length.toNat
  let blobOffset ← here
  let blob ← slice length.toNat
  let code ← code limits id blobOffset blob
  let edgeCount ← count "edges" limits.maxEdgesPerModule
  addTotal "total edges" edgeCount.toNat limits.maxTotalEdges .edges
  let edges ← readN edge edgeCount.toNat
  let bindingCount ← count "bindings" limits.maxBindingsPerModule
  addTotal "total bindings" bindingCount.toNat limits.maxTotalBindings .bindings
  let bindings ← readN binding bindingCount.toNat
  let exportCount ← count "exports" limits.maxExportsPerModule
  addTotal "total exports" exportCount.toNat limits.maxTotalExports .exports
  let exports ← readN exportEntry exportCount.toNat
  return ⟨name,code,edges,bindings,exports⟩

def expect (expected : UInt8) (kind : UInt8 → ProgramDecodeErrorKind) : ProgramDecode Unit := do
  let start ← here
  let actual ← byte
  okAt (if actual = expected then some () else none) start (kind actual)

def checkMagic : Bytes → ProgramDecode Unit
  | [] => pure ()
  | expected :: rest => do
    expect expected (.badMagic expected)
    checkMagic rest

def program (limits : ProgramDecodeLimits) : ProgramDecode Program := do
  checkMagic programMagic
  expect programVersion .unsupportedVersion
  let entry ← moduleId
  let moduleCount ← count "modules" limits.maxModules
  let modules ← readEach (fun index => module limits ⟨UInt32.ofNat index⟩) 0 moduleCount.toNat
  return ⟨modules,entry⟩

end ProgramDecoder

def decodeProgram (bytes : Bytes) (limits : ProgramDecodeLimits) : Except ProgramDecodeError Program :=
  if bytes.length > limits.maxBytes.toNat then
    .error ⟨0,.inputLimitExceeded limits.maxBytes.toNat bytes.length⟩
  else
    match ProgramDecoder.program limits ⟨bytes,0,0,0,0,0⟩ with
    | .error e => .error e
    | .ok (p,s) =>
      if s.offset ≠ bytes.length then .error ⟨s.offset,.trailingBytes (bytes.length - s.offset)⟩
      else .ok p

end Bamts.Linkage
