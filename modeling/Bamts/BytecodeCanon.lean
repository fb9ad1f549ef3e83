import Bamts.BytecodeWire
import Bamts.BytecodeInit

/-! Exactness of the module codec: every decoder routine reads exactly the words the
encoder writes. The round trip and canonicity of the format are its two halves. -/
set_option linter.all false
namespace Bamts.Bytecode
open ByteReader (Cursor Buffered readsPosition readsDemand readsNextByte readsBlock readsOneOf readsExpected readsLiteral
  literal Reads Local Grammar Field plain plainLocal chain chainLocal readsPure readsBind row rowLocal
  readN readsN readsRow rowPlain readsSeq readsAfter readsFields seqCons rowLengthLocal seq1 seq2 seq3 seq4 bindRun)
open Leb128 (writeU32 readLeb128 readLeb128Exact readsU32)
open Outcome (bindOk seqOk rejectIfOk)

instance : Buffered Decoder where
  rest s := s.bytes.drop s.offset
  advance n s := { s with offset := s.offset + n }
  restAdvance n s := by simp only [List.drop_drop]
  advanceZero s := rfl
  advanceAdd a b s := by simp only [Nat.add_assoc]
  Inside s := s.offset ≤ s.bytes.length
  insideAdvance n s inside fits := by
    rw [List.length_drop] at fits
    change s.offset + n ≤ s.bytes.length
    omega
  bytes s := s.bytes
  offset s := s.offset
  restIs s := rfl
  insideIs s inside := inside

instance : Buffered Isa.Cursor where
  rest s := s.bytes.drop s.offset
  advance n s := { s with offset := s.offset + n }
  restAdvance n s := by simp only [List.drop_drop]
  advanceZero s := rfl
  advanceAdd a b s := by simp only [Nat.add_assoc]
  Inside s := s.offset ≤ s.bytes.length
  insideAdvance n s inside fits := by
    rw [List.length_drop] at fits
    change s.offset + n ≤ s.bytes.length
    omega
  bytes s := s.bytes
  offset s := s.offset
  restIs s := rfl
  insideIs s inside := inside

theorem leLength (width value) : (leBytes width value).length = width := by
  induction width generalizing value with
  | zero => rfl
  | succ width ih => rw [leBytes,List.length_cons,ih]

theorem leRead (width value) (fits : value < 256^width) : ofLeBytes (leBytes width value) = value := by
  induction width generalizing value with
  | zero => simp at fits; rw [fits]; rfl
  | succ width ih =>
    have quotient : value / 256 < 256^width := by
      omega
    rw [leBytes,ofLeBytes,ih _ quotient,UInt8.toNat_ofNat']
    omega

theorem leWrite (bytes) : leBytes bytes.length (ofLeBytes bytes) = bytes := by
  induction bytes with
  | nil => rfl
  | cons b rest ih =>
    have small := b.toNat_lt
    have low : (b.toNat + 256 * ofLeBytes rest) % 256 = b.toNat := by omega
    have high : (b.toNat + 256 * ofLeBytes rest) / 256 = ofLeBytes rest := by omega
    rw [List.length_cons,ofLeBytes,leBytes,low,high,ih,UInt8.ofNat_toNat]

theorem leBound (bytes) : ofLeBytes bytes < 256^bytes.length := by
  induction bytes with
  | nil => exact Nat.one_pos
  | cons b rest ih =>
    have small := b.toNat_lt
    rw [ofLeBytes,List.length_cons,Nat.pow_succ]
    omega

namespace Decoder

theorem readsHere {α} {f : Nat → Decode α} {g} (all : ∀ n, Reads (f n) g) :
    Reads (here >>= f) g := readsPosition all

theorem readsOkOr {α} (value : Option α) (e) :
    Reads (okOr value e) (plain fun a word => value = some a ∧ word = []) := readsDemand value e

instance byteField : Field byte (fun b => [b]) where
  reads := readsNextByte (DecodeError.mk · .unexpectedEof)

theorem readsSlice (length) : Reads (slice length) (plain fun bytes word => word = bytes ∧ bytes.length = length) :=
  readsBlock (DecodeError.mk · .unexpectedEof) length

instance leb128Field : Field leb128 writeU32 where
  reads := by
    refine readsU32 ?_ ?_
    · intro s v n found
      change readLeb128 s.bytes s.offset = (.ok v,s.offset + n) at found
      unfold leb128
      rw [found]
      rfl
    · intro s e stop found
      change readLeb128 s.bytes s.offset = (.error e,stop) at found
      unfold leb128
      rw [found]
      cases e <;> simp

theorem fieldOf {σ α β} [Cursor σ] {r : StateT σ (Except DecodeError) α} {w : α → Bytes} [Field r w]
    (make : α → β) (write : β → Bytes) (same : ∀ b word, (∃ a, b = make a ∧ word = w a) ↔ word = write b) :
    Reads (do let a ← r; pure (make a)) (plain fun b word => word = write b) :=
  (seq1 make).respell same

instance registerField : Field register writeRegister where
  reads := fieldOf Register.new writeRegister fun ⟨_⟩ _ => by simp [writeRegister]

instance constantIdField : Field constantId writeConstantId where
  reads := fieldOf ConstantId.new writeConstantId fun ⟨_⟩ _ => by simp [writeConstantId]

instance functionIdField : Field functionId writeFunctionId where
  reads := fieldOf FunctionId.new writeFunctionId fun ⟨_⟩ _ => by simp [writeFunctionId]

instance pcField : Field pc writePc where
  reads := fieldOf Pc.new writePc fun ⟨_⟩ _ => by simp [writePc]

theorem taggedReads {α fromU8} {toU8 : α → UInt8} (kind) (tags : ∀ tag a, fromU8 tag = some a ↔ tag = toU8 a) :
    Reads (tagged fromU8 kind) (plain fun a word => word = [toU8 a]) :=
  readsOneOf (DecodeError.mk · .unexpectedEof) (fun start tag => DecodeError.mk start (kind tag)) tags

theorem unaryOpTag (tag op) : UnaryOp.fromU8 tag = some op ↔ tag = op.toU8 := by
  constructor
  · intro h
    unfold UnaryOp.fromU8 at h
    split at h <;> cases h <;> rfl
  · rintro rfl
    cases op <;> rfl

theorem binaryOpTag (tag op) : BinaryOp.fromU8 tag = some op ↔ tag = op.toU8 := by
  constructor
  · intro h
    unfold BinaryOp.fromU8 at h
    split at h <;> cases h <;> rfl
  · rintro rfl
    cases op <;> rfl

theorem iteratorKindTag (tag kind) :
    IteratorKind.fromU8 tag = some kind ↔ tag = kind.toU8 := by
  constructor
  · intro h
    unfold IteratorKind.fromU8 at h
    split at h <;> cases h <;> rfl
  · rintro rfl
    cases kind <;> rfl

theorem iteratorCloseModeTag (tag mode) :
    IteratorCloseMode.fromU8 tag = some mode ↔ tag = mode.toU8 := by
  constructor
  · intro h
    unfold IteratorCloseMode.fromU8 at h
    split at h <;> cases h <;> rfl
  · rintro rfl
    cases mode <;> rfl

theorem disposeHintTag (tag hint) : DisposeHint.fromU8 tag = some hint ↔ tag = hint.toU8 := by
  constructor
  · intro h
    unfold DisposeHint.fromU8 at h
    split at h <;> cases h <;> rfl
  · rintro rfl
    cases hint <;> rfl

theorem accessorKindTag (tag kind) :
    AccessorKind.fromU8 tag = some kind ↔ tag = kind.toU8 := by
  constructor
  · intro h
    unfold AccessorKind.fromU8 at h
    split at h <;> cases h <;> rfl
  · rintro rfl
    cases kind <;> rfl

theorem descriptorSlotTag (tag slot) :
    DescriptorSlot.fromU8 tag = some slot ↔ tag = slot.toU8 := by
  constructor
  · intro h
    unfold DescriptorSlot.fromU8 at h
    split at h <;> cases h <;> rfl
  · rintro rfl
    cases slot <;> rfl

theorem functionFlagsBits (bits flags) :
    FunctionFlags.fromBits bits = some flags ↔ bits = flags.toBits := by
  have sound : ∀ n : Fin 256, ∀ read ∈ FunctionFlags.fromBits (UInt8.ofNat n), UInt8.ofNat n = read.toBits := by decide +kernel
  have complete : ∀ x y z, FunctionFlags.fromBits (FunctionFlags.toBits ⟨x,y,z⟩) = some ⟨x,y,z⟩ := by decide
  constructor
  · intro read
    have here := sound ⟨bits.toNat,bits.toNat_lt⟩ flags
    rw [UInt8.ofNat_toNat] at here
    exact here read
  · rintro rfl
    exact complete flags.isAsync flags.isGenerator flags.isConstructable

instance : Field unaryOp (fun op => [op.toU8]) where
  reads := taggedReads _ unaryOpTag

instance : Field binaryOp (fun op => [op.toU8]) where
  reads := taggedReads _ binaryOpTag

instance : Field iteratorKind (fun kind => [kind.toU8]) where
  reads := taggedReads _ iteratorKindTag

instance : Field iteratorCloseMode (fun mode => [mode.toU8]) where
  reads := taggedReads _ iteratorCloseModeTag

instance : Field disposeHint (fun hint => [hint.toU8]) where
  reads := taggedReads _ disposeHintTag

instance : Field accessorKind (fun kind => [kind.toU8]) where
  reads := taggedReads _ accessorKindTag

instance : Field descriptorSlot (fun slot => [slot.toU8]) where
  reads := taggedReads _ descriptorSlotTag

instance : Field functionFlags (fun flags => [flags.toBits]) where
  reads := taggedReads _ functionFlagsBits

end Decoder

namespace Isa
open Isa.Cursor

theorem byteThen {α} (bytes offset) (f : UInt8 → Read α) :
    (Isa.Cursor.byte >>= f) ⟨bytes,offset⟩ = match bytes[offset]? with
      | none => .error ⟨offset,.unexpectedEof⟩
      | some b => f b ⟨bytes,offset+1⟩ := by
  change (Isa.Cursor.byte ⟨bytes,offset⟩ >>= fun p => f p.1 p.2) = _
  unfold Isa.Cursor.byte
  cases bytes[offset]? with
  | none => rfl
  | some b => rfl

theorem groupsAgree (bytes start more offset result) :
    groups start more result ⟨bytes,offset⟩ =
      match Leb128.readGroups bytes start more offset result with
      | (.ok value,stop) => .ok (value,⟨bytes,stop⟩)
      | (.error .unexpectedEof,stop) => .error ⟨stop,.unexpectedEof⟩
      | (.error .integerOverflow,_) => .error ⟨start,.integerOverflow⟩
      | (.error .nonCanonicalInteger,_) => .error ⟨start,.nonCanonicalInteger⟩ := by
  induction more generalizing offset result with
  | zero =>
    unfold groups Leb128.readGroups
    rw [byteThen]
    cases bytes[offset]? with
    | none => rfl
    | some b =>
      dsimp only
      split
      · rfl
      · split
        · rfl
        · rfl
  | succ more ih =>
    unfold groups Leb128.readGroups
    rw [byteThen]
    cases bytes[offset]? with
    | none => rfl
    | some b =>
      dsimp only
      cases top : b &&& 0x80 == 0 with
      | true =>
        cases late : b == 0 && decide (offset + 1 - start > 1) with
        | true =>
          change (if (b == 0 && decide (offset + 1 - start > 1)) = true then _ else _ : Read UInt32) _ = _
          rw [late]
          rfl
        | false =>
          change (if (b == 0 && decide (offset + 1 - start > 1)) = true then _ else _ : Read UInt32) _ = _
          rw [late]
          rfl
      | false => exact ih _ _

theorem leb128Agree (s) :
    leb128 s = match Leb128.readLeb128 s.bytes s.offset with
      | (.ok value,stop) => .ok (value,{ s with offset := stop })
      | (.error .unexpectedEof,stop) => .error ⟨stop,.unexpectedEof⟩
      | (.error .integerOverflow,_) => .error ⟨s.offset,.integerOverflow⟩
      | (.error .nonCanonicalInteger,_) => .error ⟨s.offset,.nonCanonicalInteger⟩ :=
  groupsAgree s.bytes s.offset 4 s.offset 0

instance leb128Field : Field leb128 writeU32 where
  reads := by
    refine readsU32 ?_ ?_
    · intro s v n found
      change readLeb128 s.bytes s.offset = (.ok v,s.offset + n) at found
      rw [leb128Agree,found]
      rfl
    · intro s e stop found
      change readLeb128 s.bytes s.offset = (.error e,stop) at found
      rw [leb128Agree,found]
      cases e <;> simp

instance registerField : Field register writeRegister where
  reads := Decoder.fieldOf Register.new writeRegister fun ⟨_⟩ _ => by simp [writeRegister]

instance constantIdField : Field constantId writeConstantId where
  reads := Decoder.fieldOf ConstantId.new writeConstantId fun ⟨_⟩ _ => by simp [writeConstantId]

theorem readsOperands (tagAt tag) :
    Reads (operands tagAt tag) (plain fun e word => e.wireTag = tag ∧ word = e.operandBytes) := by
  refine Reads.intro ?_ ?_
  · intro s e s' inside h
    unfold operands at h
    split at h
    case h_1 | h_2 =>
      obtain ⟨word,tail,⟨a,b,c,d,rfl,rfl⟩,here,rfl⟩ := (seq4 _).forward inside h
      exact ⟨_,tail,⟨rfl,rfl⟩,here,rfl⟩
    case h_3 | h_4 | h_5 | h_6 =>
      obtain ⟨word,tail,⟨a,b,c,rfl,rfl⟩,here,rfl⟩ := (seq3 _).forward inside h
      exact ⟨_,tail,⟨rfl,rfl⟩,here,rfl⟩
    case h_7 => cases h
  · rintro s e word tail inside ⟨rfl,rfl⟩ here
    cases e with
    | getSuper dst home receiver key => exact (seq4 Isa.Instruction.getSuper).backward inside ⟨_,_,_,_,rfl,rfl⟩ here
    | setSuper home receiver key value => exact (seq4 Isa.Instruction.setSuper).backward inside ⟨_,_,_,_,rfl,rfl⟩ here
    | importAttributes dst specifier attributes =>
      exact (seq3 Isa.Instruction.importAttributes).backward inside ⟨_,_,_,rfl,rfl⟩ here
    | importDynamicAttributes dst specifier attributes =>
      exact (seq3 Isa.Instruction.importDynamicAttributes).backward inside ⟨_,_,_,rfl,rfl⟩ here
    | copyDataProperties target source excluded =>
      exact (seq3 Isa.Instruction.copyDataProperties).backward inside ⟨_,_,_,rfl,rfl⟩ here
    | getTemplateObject dst cooked raw =>
      exact (seq3 Isa.Instruction.getTemplateObject).backward inside ⟨_,_,_,rfl,rfl⟩ here

end Isa

/-- The bytes from `offset` on begin with what the writer makes of `value`, and `stop` is where that ends. -/
def Written (bytes : Bytes) (offset : Nat) (value : UInt32) (stop : Nat) : Prop :=
  ∃ tail, bytes.drop offset = writeU32 value ++ tail ∧ stop = offset + (writeU32 value).length

theorem decoderLeb128Exact {s value stop} :
    Decoder.leb128 s = .ok (value,{ s with offset := stop }) ↔ Written s.bytes s.offset value stop := by
  rw [Written,← readLeb128Exact,Decoder.leb128]
  rcases found : readLeb128 s.bytes s.offset with ⟨e | read,next⟩
  · cases e <;> simp
  · simp

theorem cursorLeb128Exact {s value stop} :
    Isa.Cursor.leb128 s = .ok (value,{ s with offset := stop }) ↔ Written s.bytes s.offset value stop := by
  rw [Written,← readLeb128Exact,Isa.leb128Agree]
  rcases found : readLeb128 s.bytes s.offset with ⟨e | read,next⟩
  · cases e <;> simp
  · simp

/-- The two copies of the reader end with the same value at the same offset or with the same error at the
same offset, and what they accept is what the writer makes. -/
theorem leb128ReadersAgree (bytes : Bytes) (offset totalInstructions : Nat) :
    ((Isa.Cursor.leb128 ⟨bytes,offset⟩).map fun read => (read.1,read.2.offset)) =
      ((Decoder.leb128 ⟨bytes,offset,totalInstructions⟩).map fun read => (read.1,read.2.offset)) ∧
    ∀ value stop,
      (Isa.Cursor.leb128 ⟨bytes,offset⟩ = .ok (value,⟨bytes,stop⟩) ↔ Written bytes offset value stop) ∧
      (Decoder.leb128 ⟨bytes,offset,totalInstructions⟩ = .ok (value,⟨bytes,stop,totalInstructions⟩) ↔
        Written bytes offset value stop) := by
  refine ⟨?_,fun value stop => ⟨cursorLeb128Exact,decoderLeb128Exact⟩⟩
  rw [Isa.leb128Agree,Decoder.leb128]
  rcases readLeb128 bytes offset with ⟨e | value,stop⟩
  · cases e <;> rfl
  · rfl

namespace Decoder

theorem readsExtension (opcode) :
    Reads (extension opcode)
      (plain fun c word => ∃ e, c = Instruction.ofIsa e ∧ e.wireTag = opcode ∧ word = e.operandBytes) := by
  refine Reads.intro ?_ ?_
  · intro s c s' inside h
    obtain ⟨⟨e,next⟩,decoded,same⟩ := Outcome.bindOk.mp h
    obtain ⟨⟨e,cursor⟩,read,same'⟩ := Outcome.bindOk.mp decoded
    cases same
    cases same'
    obtain ⟨word,tail,⟨tag,rfl⟩,here,rfl⟩ := (Isa.readsOperands (s.offset - 1) opcode).forward inside read
    exact ⟨_,tail,⟨e,rfl,tag,rfl⟩,here,rfl⟩
  · rintro s c word tail inside ⟨e,rfl,rfl,rfl⟩ here
    have inner : Cursor.Inside (⟨s.bytes,s.offset⟩ : Isa.Cursor) := inside
    have read := (Isa.readsOperands (s.offset - 1) e.wireTag).backward inner ⟨rfl,rfl⟩ here
    unfold extension Isa.decodeFromTag
    rw [read]
    rfl

theorem encodeExtension (e) : encodeInstruction (Instruction.ofIsa e) = e.encode := by
  unfold encodeInstruction
  rw [extensionOfIsa]

theorem operandsSound {opcodeAt opcode s s' c} (inside : Cursor.Inside s) (h : operands opcodeAt opcode s = .ok (c,s')) :
    ∃ word tail, encodeInstruction c = opcode :: word ∧ Cursor.rest s = word ++ tail ∧
      s' = Cursor.advance word.length s := by
  unfold operands at h
  split at h
  case h_36 =>
    obtain ⟨word,tail,⟨rfl,rfl⟩,here,rfl⟩ := (readsPure _).forward inside h
    exact ⟨_,tail,rfl,here,rfl⟩
  case h_53 =>
    split at h
    · obtain ⟨word,tail,⟨e,rfl,rfl,rfl⟩,here,rfl⟩ := (readsExtension _).forward inside h
      exact ⟨_,tail,encodeExtension e,here,rfl⟩
    · cases h
  case h_5 | h_6 | h_17 | h_18 | h_19 | h_28 | h_31 | h_32 | h_37 | h_45 =>
    obtain ⟨word,tail,⟨a,rfl,rfl⟩,here,rfl⟩ := (seq1 _).forward inside h
    exact ⟨_,tail,rfl,here,rfl⟩
  case h_1 | h_2 | h_14 | h_15 | h_16 | h_20 | h_21 | h_22 | h_23 | h_24 | h_29 | h_30 | h_34 | h_35 | h_39 |
      h_42 | h_43 | h_44 =>
    obtain ⟨word,tail,⟨a,b,rfl,rfl⟩,here,rfl⟩ := (seq2 _).forward inside h
    exact ⟨_,tail,rfl,here,rfl⟩
  case h_3 | h_7 | h_8 | h_9 | h_10 | h_13 | h_25 | h_26 | h_27 | h_38 | h_40 | h_47 | h_49 | h_52 =>
    obtain ⟨word,tail,⟨a,b,c,rfl,rfl⟩,here,rfl⟩ := (seq3 _).forward inside h
    exact ⟨_,tail,rfl,here,rfl⟩
  case h_4 | h_11 | h_12 | h_33 | h_41 | h_46 | h_48 | h_50 | h_51 =>
    obtain ⟨word,tail,⟨a,b,c,d,rfl,rfl⟩,here,rfl⟩ := (seq4 _).forward inside h
    exact ⟨_,tail,rfl,here,rfl⟩

theorem operandsComplete {opcodeAt opcode s c} {word tail : Bytes}
    (inside : Cursor.Inside s) (spelled : encodeInstruction c = opcode :: word) (here : Cursor.rest s = word ++ tail) :
    operands opcodeAt opcode s = .ok (c,Cursor.advance word.length s) := by
  cases c
  case createObject | createArray | loadThis | loadArguments | loadNewTarget | jump | ret | throw | createCell |
      loadImportMeta =>
    cases spelled
    exact (seq1 _).backward inside ⟨_,rfl,rfl⟩ here
  case loadConst | move | loadGlobal | storeGlobal | typeOfGlobal | arrayPush | arrayExtend | objectSpread |
      setPrototype | createPrivateName | jumpIfTrue | jumpIfFalse | «import» | «export» | iteratorStep |
      requireCloseResult | toObject | importDynamic =>
    cases spelled
    exact (seq2 _).backward inside ⟨_,_,rfl,rfl⟩ here
  case unary | createClosure | getProperty | setProperty | deleteProperty | construct | createRegExp |
      getIterator | iteratorNext | await | iteratorResult | suppressError | defineDataProperty | withHasBinding =>
    cases spelled
    exact (seq3 _).backward inside ⟨_,_,_,rfl,rfl⟩ here
  case binary | defineAccessor | call | suspend | iteratorClose | disposeCapture | constructWithNewTarget |
      loadOwnDescriptorSlot | defineOwnDescriptorSlot =>
    cases spelled
    exact (seq4 _).backward inside ⟨_,_,_,_,rfl,rfl⟩ here
  case halt =>
    cases spelled
    exact (readsPure _).backward inside ⟨rfl,rfl⟩ here
  case getSuper =>
    cases spelled
    exact (readsExtension 52).backward inside ⟨.getSuper ..,rfl,rfl,rfl⟩ here
  case setSuper =>
    cases spelled
    exact (readsExtension 53).backward inside ⟨.setSuper ..,rfl,rfl,rfl⟩ here
  case importAttributes =>
    cases spelled
    exact (readsExtension 54).backward inside ⟨.importAttributes ..,rfl,rfl,rfl⟩ here
  case importDynamicAttributes =>
    cases spelled
    exact (readsExtension 55).backward inside ⟨.importDynamicAttributes ..,rfl,rfl,rfl⟩ here
  case copyDataProperties =>
    cases spelled
    exact (readsExtension 56).backward inside ⟨.copyDataProperties ..,rfl,rfl,rfl⟩ here
  case getTemplateObject =>
    cases spelled
    exact (readsExtension 57).backward inside ⟨.getTemplateObject ..,rfl,rfl,rfl⟩ here

theorem instructionHead (c) : ∃ opcode word, encodeInstruction c = opcode :: word := by
  cases c <;> exact ⟨_,_,rfl⟩

instance instructionField : Field instruction encodeInstruction where
  reads := by
    have operands : ∀ opcodeAt opcode, Reads (operands opcodeAt opcode)
        (plain fun c word => encodeInstruction c = opcode :: word) := fun _ _ =>
      Reads.intro operandsSound operandsComplete
    refine readsHere fun opcodeAt => (seqCons (operands opcodeAt)).respell ?_
    intro c word
    constructor
    · rintro ⟨opcode,right,spelled,rfl⟩
      exact spelled.symm
    · rintro rfl
      obtain ⟨opcode,right,spelled⟩ := instructionHead c
      exact ⟨opcode,right,spelled,spelled⟩

instance handlerField : Field handler encodeHandler where
  reads := by
    refine (seq4 ExceptionHandler.mk).respell ?_
    rintro ⟨start,stop,handler,catchRegister⟩ word
    constructor
    · rintro ⟨_,_,_,_,same,rfl⟩
      cases same
      rfl
    · rintro rfl
      exact ⟨_,_,_,_,rfl,rfl⟩

theorem readsBounded (field limit) :
    Reads (bounded field limit) (plain fun n word => word = writeU32 n ∧ n ≤ limit) := by
  refine readsHere fun start => ?_
  refine (seqCons fun actual => readsOkOr _ _).respell ?_
  intro n word
  constructor
  · rintro ⟨actual,right,⟨kept,rfl⟩,rfl⟩
    split at kept
    · cases kept
    · cases kept
      exact ⟨List.append_nil _,UInt32.not_lt.mp ‹_›⟩
  · rintro ⟨rfl,small⟩
    exact ⟨n,[],⟨if_neg (UInt32.not_lt.mpr small),rfl⟩,(List.append_nil _).symm⟩

theorem fromWireSome (bits n) : NumberBits.fromWire bits = some n ↔ n.bits = bits := by
  unfold NumberBits.fromWire
  constructor
  · intro h
    split at h
    · cases h
    · cases h
      rfl
  · rintro rfl
    have canonical := n.canonical
    unfold CanonicalNumber at canonical
    simpa using canonical

theorem bigIntSome (text l) : BigIntLiteral.new text = some l ↔ l.asStr = text := by
  unfold BigIntLiteral.new
  constructor
  · intro h
    split at h
    · cases h
      rfl
    · cases h
  · rintro rfl
    rw [dif_pos l.canonical]

theorem utf8Some (bytes text) :
    String.fromUTF8? ⟨bytes.toArray⟩ = some text ↔ textBytes text = bytes := by
  unfold String.fromUTF8? textBytes
  constructor
  · intro h
    split at h
    · cases h
      rfl
    · cases h
  · rintro rfl
    rw [dif_pos (by simpa using text.isValidUTF8)]
    rfl

theorem le64 (bytes) (size : bytes.length = 8) : leBytes 8 (UInt64.ofNat (ofLeBytes bytes)).toNat = bytes := by
  have bound := leBound bytes
  rw [size] at bound
  rw [UInt64.toNat_ofNat_of_lt' bound,← size,leWrite]

theorem readsNumber : Reads number
    (plain fun c word => ∃ bits, c = .number bits ∧ word = leBytes 8 bits.bits.toNat) := by
  refine readsHere fun numberAt => (readsSeq (readsSlice 8) fun bytes => readsOkOr _ _).respell ?_
  intro c word
  constructor
  · rintro ⟨bytes,left,right,⟨rfl,size⟩,⟨found,rfl⟩,rfl⟩
    obtain ⟨n,wire,rfl⟩ := Option.map_eq_some_iff.mp found
    refine ⟨n,rfl,?_⟩
    rw [(fromWireSome _ n).mp wire,le64 left size,List.append_nil]
  · rintro ⟨n,rfl,rfl⟩
    refine ⟨_,_,[],⟨rfl,leLength 8 _⟩,⟨?_,rfl⟩,(List.append_nil _).symm⟩
    rw [leRead 8 _ n.bits.toNat_lt,UInt64.ofNat_toNat,(fromWireSome _ n).mpr rfl]
    rfl

theorem readsInt32 : Reads int32
    (plain fun c word => ∃ value, c = .int32 value ∧ word = leBytes 4 value.toUInt32.toNat) := by
  refine (readsSeq (readsSlice 4) fun bytes => readsPure _).respell ?_
  intro c word
  constructor
  · rintro ⟨bytes,left,right,⟨rfl,size⟩,⟨rfl,rfl⟩,rfl⟩
    have bound := leBound left
    rw [size] at bound
    refine ⟨_,rfl,?_⟩
    rw [UInt32.toUInt32_toInt32,UInt32.toNat_ofNat_of_lt' bound,List.append_nil,← size,leWrite]
  · rintro ⟨value,rfl,rfl⟩
    refine ⟨_,_,[],⟨rfl,leLength 4 _⟩,⟨?_,rfl⟩,(List.append_nil _).symm⟩
    rw [leRead 4 _ value.toUInt32.toNat_lt,UInt32.ofNat_toNat,Int32.toInt32_toUInt32]

theorem unitsLength (units : List UInt16) : (units.flatMap fun unit => leBytes 2 unit.toNat).length = units.length * 2 := by
  induction units with
  | nil => rfl
  | cons unit units ih =>
    rw [List.flatMap_cons,List.length_append,ih,leLength,List.length_cons]
    omega

theorem unitsRead (units) : unitsOfLeBytes (units.flatMap fun unit => leBytes 2 unit.toNat) = units := by
  induction units with
  | nil => rfl
  | cons unit units ih =>
    have value : ofLeBytes (leBytes 2 unit.toNat) = unit.toNat := leRead 2 _ unit.toNat_lt
    have two : leBytes 2 unit.toNat = [UInt8.ofNat (unit.toNat % 256),UInt8.ofNat (unit.toNat / 256 % 256)] := rfl
    rw [List.flatMap_cons,two,List.cons_append,List.cons_append,List.nil_append,unitsOfLeBytes,ih,← two,value,
      UInt16.ofNat_toNat]

theorem unitsWrite (n bytes) (even : bytes.length = n * 2) :
    ((unitsOfLeBytes bytes).flatMap fun unit => leBytes 2 unit.toNat) = bytes ∧ (unitsOfLeBytes bytes).length = n := by
  induction n generalizing bytes with
  | zero =>
    cases List.length_eq_zero_iff.mp (even.trans (Nat.zero_mul 2))
    exact ⟨rfl,rfl⟩
  | succ n ih =>
    match bytes, even with
    | low :: high :: rest, even =>
      rw [List.length_cons,List.length_cons] at even
      obtain ⟨write,size⟩ := ih rest (by omega)
      have bound : ofLeBytes [low,high] < UInt16.size := by simpa using leBound [low,high]
      have value : (UInt16.ofNat (ofLeBytes [low,high])).toNat = ofLeBytes [low,high] :=
        UInt16.toNat_ofNat_of_lt' bound
      have two : leBytes 2 (ofLeBytes [low,high]) = [low,high] := leWrite [low,high]
      rw [unitsOfLeBytes,List.flatMap_cons,write,value,two,List.length_cons,size]
      exact ⟨rfl,rfl⟩
    | [], even => simp at even
    | [_], even => rw [List.length_singleton] at even; omega

theorem countCast {n : Nat} {limit} (small : n ≤ limit.toNat) :
    (UInt32.ofNat n).toNat = n ∧ UInt32.ofNat n ≤ limit := by
  have bound := limit.toNat_lt
  have cast : (UInt32.ofNat n).toNat = n := UInt32.toNat_ofNat_of_lt' (by rw [UInt32.size]; omega)
  refine ⟨cast,?_⟩
  rw [UInt32.le_iff_toNat_le,cast]
  exact small

theorem readsString (limits) : Reads (string limits)
    (plain fun value word => word = writeString value ∧ value.lenUnits ≤ limits.maxStringUnits.toNat) := by
  refine (readsSeq (readsBounded _ _) fun n => readsSeq (readsSlice _) fun bytes => readsPure _).respell ?_
  intro value word
  constructor
  · rintro ⟨n,_,_,⟨rfl,small⟩,⟨bytes,_,_,⟨rfl,size⟩,⟨rfl,rfl⟩,rfl⟩,rfl⟩
    obtain ⟨write,count⟩ := unitsWrite _ _ size
    unfold writeString EcmaString.toLeBytes EcmaString.lenUnits EcmaString.fromLeBytes
    rw [write,count,UInt32.ofNat_toNat,List.append_nil]
    exact ⟨rfl,UInt32.le_iff_toNat_le.mp small⟩
  · rintro ⟨rfl,small⟩
    obtain ⟨cast,below⟩ := countCast small
    refine ⟨_,_,_,⟨rfl,below⟩,⟨_,_,[],⟨rfl,?_⟩,⟨?_,rfl⟩,(List.append_nil _).symm⟩,rfl⟩
    · rw [cast]
      exact unitsLength _
    · unfold EcmaString.fromLeBytes EcmaString.toLeBytes
      rw [unitsRead]

theorem readsText (limits) : Reads (text limits)
    (plain fun value word => word = writeText value ∧ (textBytes value).length ≤ limits.maxBigintBytes.toNat) := by
  refine (readsSeq (readsBounded _ _) fun n => readsHere fun start => readsSeq (readsSlice n.toNat) fun bytes =>
    readsOkOr (String.fromUTF8? ⟨bytes.toArray⟩) ⟨start,.invalidUtf8⟩).respell ?_
  intro value word
  constructor
  · rintro ⟨n,_,_,⟨rfl,small⟩,⟨bytes,_,_,⟨rfl,size⟩,⟨found,rfl⟩,rfl⟩,rfl⟩
    unfold writeText
    rw [(utf8Some _ _).mp found,size,UInt32.ofNat_toNat,List.append_nil]
    exact ⟨rfl,UInt32.le_iff_toNat_le.mp small⟩
  · rintro ⟨rfl,small⟩
    obtain ⟨cast,below⟩ := countCast small
    exact ⟨_,_,_,⟨rfl,below⟩,⟨_,_,[],⟨rfl,cast.symm⟩,⟨(utf8Some _ _).mpr rfl,rfl⟩,(List.append_nil _).symm⟩,rfl⟩

theorem readsBigInt (limits) : Reads (bigInt limits)
    (plain fun c word => ∃ value, c = .bigInt value ∧ word = writeText value.asStr ∧
      (textBytes value.asStr).length ≤ limits.maxBigintBytes.toNat) := by
  refine readsHere fun start => (readsSeq (readsText limits) fun text => readsOkOr _ _).respell ?_
  intro c word
  constructor
  · rintro ⟨text,left,right,⟨rfl,small⟩,⟨found,rfl⟩,rfl⟩
    obtain ⟨value,literal,rfl⟩ := Option.map_eq_some_iff.mp found
    rw [← (bigIntSome _ _).mp literal] at small ⊢
    exact ⟨value,rfl,List.append_nil _,small⟩
  · rintro ⟨value,rfl,rfl,small⟩
    refine ⟨_,_,[],⟨rfl,small⟩,⟨?_,rfl⟩,(List.append_nil _).symm⟩
    rw [(bigIntSome _ value).mpr rfl]
    rfl

end Decoder

def ConstantFits (limits : DecodeLimits) : Constant → Prop
  | .string value => value.lenUnits ≤ limits.maxStringUnits.toNat
  | .bigInt value => (textBytes value.asStr).length ≤ limits.maxBigintBytes.toNat
  | _ => True

instance (limits : DecodeLimits) : ∀ c, Decidable (ConstantFits limits c)
  | .string value => inferInstanceAs (Decidable (value.lenUnits ≤ limits.maxStringUnits.toNat))
  | .bigInt value => inferInstanceAs (Decidable ((textBytes value.asStr).length ≤ limits.maxBigintBytes.toNat))
  | .number _ | .int32 _ | .boolean _ | .null | .undefined => instDecidableTrue

namespace Decoder

theorem readsConstant (limits) : Reads (constant limits)
    (plain fun c word => word = encodeConstant c ∧ ConstantFits limits c) := by
  have body : ∀ tagAt tag, Reads (constantBody limits tagAt tag)
      (plain fun c word => encodeConstant c = tag :: word ∧ ConstantFits limits c) := by
    intro tagAt tag
    refine Reads.intro ?_ ?_
    · intro s c s' inside h
      unfold constantBody at h
      split at h
      case h_1 =>
        obtain ⟨word,tail,⟨bits,rfl,rfl⟩,here,rfl⟩ := readsNumber.forward inside h
        exact ⟨_,tail,⟨rfl,trivial⟩,here,rfl⟩
      case h_2 =>
        obtain ⟨word,tail,⟨value,rfl,rfl⟩,here,rfl⟩ := readsInt32.forward inside h
        exact ⟨_,tail,⟨rfl,trivial⟩,here,rfl⟩
      case h_3 =>
        obtain ⟨word,tail,⟨value,left,right,⟨rfl,small⟩,⟨rfl,rfl⟩,rfl⟩,here,rfl⟩ :=
          (readsSeq (readsString limits) fun value => readsPure _).forward inside h
        rw [List.append_nil] at here ⊢
        exact ⟨_,tail,⟨rfl,small⟩,here,rfl⟩
      case h_4 | h_5 | h_6 | h_7 =>
        obtain ⟨word,tail,⟨rfl,rfl⟩,here,rfl⟩ := (readsPure _).forward inside h
        exact ⟨_,tail,⟨rfl,trivial⟩,here,rfl⟩
      case h_8 =>
        obtain ⟨word,tail,⟨value,rfl,rfl,small⟩,here,rfl⟩ := (readsBigInt limits).forward inside h
        exact ⟨_,tail,⟨rfl,small⟩,here,rfl⟩
      case h_9 => cases h
    · rintro s c word tail inside ⟨spelled,fits⟩ here
      cases c with
      | number bits => cases spelled; exact readsNumber.backward inside ⟨bits,rfl,rfl⟩ here
      | int32 value => cases spelled; exact readsInt32.backward inside ⟨value,rfl,rfl⟩ here
      | string value =>
        cases spelled
        exact (readsSeq (readsString limits) fun value => readsPure (Constant.string value)).backward inside
          ⟨value,_,[],⟨rfl,fits⟩,⟨rfl,rfl⟩,(List.append_nil _).symm⟩ here
      | boolean value =>
        cases value with
        | false => cases spelled; exact (readsPure _).backward inside ⟨rfl,rfl⟩ here
        | true => cases spelled; exact (readsPure _).backward inside ⟨rfl,rfl⟩ here
      | null => cases spelled; exact (readsPure _).backward inside ⟨rfl,rfl⟩ here
      | undefined => cases spelled; exact (readsPure _).backward inside ⟨rfl,rfl⟩ here
      | bigInt value => cases spelled; exact (readsBigInt limits).backward inside ⟨value,rfl,rfl,fits⟩ here
  refine readsHere fun tagAt => (seqCons (body tagAt)).respell ?_
  intro c word
  constructor
  · rintro ⟨tag,right,⟨spelled,fits⟩,rfl⟩
    exact ⟨spelled.symm,fits⟩
  · rintro ⟨rfl,fits⟩
    have head : ∃ tag right, encodeConstant c = tag :: right := by
      unfold encodeConstant
      split <;> exact ⟨_,_,rfl⟩
    obtain ⟨tag,right,spelled⟩ := head
    exact ⟨tag,right,⟨spelled,fits⟩,spelled⟩

end Decoder

-- The name is stored off by one in a `u32`.
def NameFits (name : Option ConstantId) : Prop := ∀ c, name = some c → c.get + 1 ≠ 0

namespace Decoder

theorem readsFunctionName : Reads functionName (plain fun name word => word = encodeName name ∧ NameFits name) := by
  refine (seq1 _).respell ?_
  intro name word
  constructor
  · rintro ⟨encoded,rfl,rfl⟩
    split
    · rename_i zero
      rw [zero]
      exact ⟨rfl,by intro c none; cases none⟩
    · rename_i nonzero
      have back : encoded - 1 + 1 = encoded := UInt32.sub_add_cancel encoded 1
      refine ⟨by unfold encodeName; dsimp only; rw [back],?_⟩
      intro c same
      cases same
      rwa [back]
  · rintro ⟨rfl,fits⟩
    cases name with
    | none => exact ⟨0,rfl,rfl⟩
    | some c =>
      have back : c.get + 1 - 1 = c.get := UInt32.add_sub_cancel c.get 1
      exact ⟨c.get + 1,by rw [if_neg (fits c rfl),back],rfl⟩

/- The running instruction total: a part that adds `size a` to it, checked on the spot. -/
def tallied {α : Type} (limits : DecodeLimits) (size : α → Nat) (spells : α → Bytes → Prop) : Grammar Decoder α :=
  fun s a word t => spells a word ∧ s.totalInstructions + size a ≤ limits.maxTotalInstructions.toNat ∧
    t = { s with totalInstructions := s.totalInstructions + size a }

theorem talliedLocal {α} (limits) (size : α → Nat) (spells) :
    Local (tallied limits size spells) := by
  constructor
  · rintro s a word t ⟨_,_,rfl⟩
    exact ⟨rfl,id⟩
  · intro n s a word u
    constructor
    · rintro ⟨spelled,small,rfl⟩
      exact ⟨_,⟨spelled,small,rfl⟩,rfl⟩
    · rintro ⟨t,⟨spelled,small,rfl⟩,rfl⟩
      exact ⟨spelled,small,rfl⟩

theorem readsTally {α} {r : Decode α} {spells : α → Bytes → Prop} (size limits instructionAt n) (reads : Reads r (plain spells)) (counts : ∀ a word, spells a word → size a = n.toNat) :
    Reads (countInstructions limits instructionAt n >>= fun _ => r) (tallied limits size spells) := by
  intro s a s' inside
  have inside' : Cursor.Inside { s with totalInstructions := s.totalInstructions + n.toNat } := inside
  rw [bindRun]
  unfold countInstructions
  constructor
  · rintro ⟨_,t,counted,read⟩
    dsimp only at counted
    split at counted
    · cases counted
    · cases counted
      obtain ⟨word,tail,spelled,here,rfl⟩ := reads.forward inside' read
      refine ⟨word,tail,_,⟨spelled,?_,rfl⟩,here,?_⟩
      · rw [counts a word spelled]
        omega
      · rw [counts a word spelled]
  · rintro ⟨word,tail,t,⟨spelled,small,rfl⟩,here,rfl⟩
    rw [counts a word spelled] at small ⊢
    refine ⟨(),{ s with totalInstructions := s.totalInstructions + n.toNat },?_,?_⟩
    · dsimp only
      rw [if_neg (by omega)]
    · exact reads.backward inside' spelled here

theorem readsThenTally {α β} {r : Decode α} {f : α → Decode β} {spells : α → Bytes → Prop} {size limits} {more : α → β → Bytes → Prop} (head : Reads r (plain spells))
    (tail : ∀ a, Reads (f a) (tallied limits size (more a))) :
    Reads (r >>= f) (tallied limits size fun b word => ∃ a left right, spells a left ∧ more a b right ∧ word = left ++ right) := by
  refine (readsAfter head fun a => ⟨tail a,talliedLocal _ _ _⟩).1.congr ?_
  intro s b word t
  constructor
  · rintro ⟨a,left,right,spelled,⟨spelled',small,rfl⟩,rfl⟩
    exact ⟨⟨a,left,right,spelled,spelled',rfl⟩,small,rfl⟩
  · rintro ⟨⟨a,left,right,spelled,spelled',rfl⟩,small,rfl⟩
    exact ⟨a,left,right,spelled,⟨spelled',small,rfl⟩,rfl⟩

theorem rowTallied {α} (limits size) (write : α → Bytes) (ok : α → Prop)
    (s t as) (word : Bytes) (start : s.totalInstructions ≤ limits.maxTotalInstructions.toNat) :
    row (tallied limits size fun a word => word = write a ∧ ok a) s as word t ↔
      word = as.flatMap write ∧ (∀ a ∈ as, ok a) ∧
      s.totalInstructions + (as.map size).sum ≤ limits.maxTotalInstructions.toNat ∧
      t = { s with totalInstructions := s.totalInstructions + (as.map size).sum } := by
  induction as generalizing s word with
  | nil =>
    constructor
    · rintro ⟨rfl,rfl⟩
      exact ⟨rfl,by simp,start,rfl⟩
    · rintro ⟨rfl,_,_,rfl⟩
      exact ⟨rfl,rfl⟩
  | cons a as ih =>
    rw [List.map_cons,List.sum_cons,List.flatMap_cons,List.forall_mem_cons,← Nat.add_assoc]
    constructor
    · rintro ⟨left,right,mid,⟨⟨rfl,good⟩,small,rfl⟩,others,rfl⟩
      obtain ⟨rfl,all,total,rfl⟩ := (ih _ _ small).mp others
      exact ⟨rfl,⟨good,all⟩,total,rfl⟩
    · rintro ⟨rfl,⟨good,all⟩,total,rfl⟩
      have small : s.totalInstructions + size a ≤ limits.maxTotalInstructions.toNat := by omega
      exact ⟨_,_,_,⟨⟨rfl,good⟩,small,rfl⟩,(ih _ _ small).mpr ⟨rfl,all,total,rfl⟩,rfl⟩

end Decoder

structure FunctionFits (limits : DecodeLimits) (f : Function) : Prop where
  captures : f.captureCount ≤ limits.maxCaptureCount
  parameters : f.parameterCount ≤ limits.maxParameterCount
  registers : f.registerCount ≤ limits.maxRegisterCount
  instructions : f.code.length ≤ limits.maxInstructionsPerFunction.toNat
  handlers : f.handlers.length ≤ limits.maxHandlersPerFunction.toNat

namespace Decoder

theorem readsCounted {α} {r : Decode α} {w : α → Bytes} {ok : α → Prop} (field limit) (item : Reads r (plain fun a word => word = w a ∧ ok a)) :
    Reads (bounded field limit >>= fun k => readN r k.toNat) (plain fun as word => as.length ≤ limit.toNat ∧
      (∀ a ∈ as, ok a) ∧ word = writeU32 (UInt32.ofNat as.length) ++ as.flatMap w) := by
  have items : ∀ n, Reads (readN r n)
      (plain fun as word => as.length = n ∧ word = as.flatMap w ∧ ∀ a ∈ as, ok a) := by
    intro n
    refine (readsN item (plainLocal _) n).congr ?_
    intro s as word t
    rw [rowPlain,plain]
    tauto
  refine (readsSeq (readsBounded field limit) fun k => items k.toNat).respell ?_
  intro as word
  constructor
  · rintro ⟨k,_,_,⟨rfl,small⟩,⟨size,rfl,good⟩,rfl⟩
    refine ⟨?_,good,?_⟩
    · rw [size]
      exact UInt32.le_iff_toNat_le.mp small
    · rw [size,UInt32.ofNat_toNat]
  · rintro ⟨small,good,rfl⟩
    obtain ⟨cast,below⟩ := countCast small
    exact ⟨_,_,_,⟨rfl,below⟩,⟨cast.symm,rfl,good⟩,rfl⟩

theorem readsFunctionTail (limits : DecodeLimits) (n : UInt32) (make : List Instruction → List ExceptionHandler → Function) :
    Reads (do
      let code ← readN instruction n.toNat
      let handlerCount ← bounded "handler count" limits.maxHandlersPerFunction
      let handlers ← readN handler handlerCount.toNat
      return make code handlers)
    (plain fun f word => ∃ code handlers, f = make code handlers ∧ code.length = n.toNat ∧
      handlers.length ≤ limits.maxHandlersPerFunction.toNat ∧ word = code.flatMap encodeInstruction ++
        (writeU32 (UInt32.ofNat handlers.length) ++ handlers.flatMap encodeHandler)) := by
  have item : Reads handler (plain fun h word => word = encodeHandler h ∧ True) :=
    handlerField.reads.respell fun h word => (iff_of_eq (and_true _)).symm
  have counted := readsCounted "handler count" limits.maxHandlersPerFunction item
  have whole := readsSeq (readsFields (r := instruction) n.toNat) fun code =>
    readsSeq counted fun handlers => readsPure (make code handlers)
  simp only [bind_assoc] at whole
  refine whole.respell ?_
  intro f word
  constructor
  · rintro ⟨code,_,_,⟨size,rfl⟩,⟨handlers,_,_,⟨small,_,rfl⟩,⟨rfl,rfl⟩,rfl⟩,rfl⟩
    exact ⟨code,handlers,rfl,size,small,by rw [List.append_nil]⟩
  · rintro ⟨code,handlers,rfl,size,small,rfl⟩
    exact ⟨code,_,_,⟨size,rfl⟩,⟨handlers,_,[],⟨small,fun _ _ => trivial,rfl⟩,⟨rfl,rfl⟩,rfl⟩,by rw [List.append_nil]⟩

def functionGrammar (limits : DecodeLimits) : Grammar Decoder Function :=
  tallied limits (fun f => f.code.length) fun f word => word = encodeFunction f ∧ NameFits f.name ∧ FunctionFits limits f

theorem readsFunction (limits) : Reads (function limits) (functionGrammar limits) := by
  have body : ∀ (name : Option ConstantId) (captureCount parameterCount registerCount : UInt32) (flags : FunctionFlags)
      (instructionAt : Nat) (n : UInt32), Reads _ (tallied limits (fun f : Function => f.code.length) _) :=
    fun name captureCount parameterCount registerCount flags instructionAt n =>
      readsTally (fun f : Function => f.code.length) limits instructionAt n
        (readsFunctionTail limits n (Function.mk name captureCount parameterCount registerCount flags))
        (by rintro f word ⟨code,handlers,rfl,size,_⟩; exact size)
  have whole := readsThenTally readsFunctionName fun name =>
    readsThenTally (readsBounded "capture count" limits.maxCaptureCount) fun captureCount =>
    readsThenTally (readsBounded "parameter count" limits.maxParameterCount) fun parameterCount =>
    readsThenTally (readsBounded "register count" limits.maxRegisterCount) fun registerCount =>
    readsThenTally (Field.reads (r := functionFlags)) fun flags => readsHere fun instructionAt =>
    readsThenTally (readsBounded "instruction count" limits.maxInstructionsPerFunction) fun n =>
    body name captureCount parameterCount registerCount flags instructionAt n
  refine Reads.congr whole ?_
  intro s f word t
  refine and_congr_left fun _ => ?_
  constructor
  · rintro ⟨name,_,_,⟨rfl,named⟩,h,rfl⟩
    obtain ⟨captures,_,_,⟨rfl,few⟩,h,rfl⟩ := h
    obtain ⟨parameters,_,_,⟨rfl,few'⟩,h,rfl⟩ := h
    obtain ⟨registers,_,_,⟨rfl,few''⟩,h,rfl⟩ := h
    obtain ⟨flags,_,_,rfl,h,rfl⟩ := h
    obtain ⟨n,_,_,⟨rfl,short⟩,⟨code,handlers,rfl,size,brief,rfl⟩,rfl⟩ := h
    have count : n = UInt32.ofNat code.length := by rw [size,UInt32.ofNat_toNat]
    refine ⟨?_,named,few,few',few'',?_,brief⟩
    · rw [count]
      rfl
    · rw [size]
      exact UInt32.le_iff_toNat_le.mp short
  · rintro ⟨rfl,named,fits⟩
    obtain ⟨cast,below⟩ := countCast fits.instructions
    exact ⟨f.name,_,_,⟨rfl,named⟩,⟨_,_,_,⟨rfl,fits.captures⟩,⟨_,_,_,⟨rfl,fits.parameters⟩,
      ⟨_,_,_,⟨rfl,fits.registers⟩,⟨f.flags,_,_,rfl,⟨_,_,_,⟨rfl,below⟩,
      ⟨f.code,f.handlers,rfl,cast.symm,fits.handlers,rfl⟩,rfl⟩,rfl⟩,rfl⟩,rfl⟩,rfl⟩,rfl⟩

theorem readsExpect (expected kind) :
    Reads (expect expected kind) (plain fun _ word => word = [expected]) :=
  readsExpected (DecodeError.mk · .unexpectedEof) (fun start actual => DecodeError.mk start (kind actual)) expected

theorem readsMagic (expected) : Reads (checkMagic expected) (plain fun _ word => word = expected) := by
  have same : checkMagic expected =
      literal (fun start => ⟨start,.unexpectedEof⟩) (fun b start actual => ⟨start,.badMagic b actual⟩) expected := by
    induction expected with
    | nil => rfl
    | cons b rest ih => rw [checkMagic,literal,ih]; rfl
  rw [same]
  exact readsLiteral _ _ expected

/- The module with its function table left as a row, whose total runs along. -/
def moduleGrammar (limits : DecodeLimits) : Grammar Decoder Module := fun s m word t =>
  ∃ table, m.constants.length ≤ limits.maxConstants.toNat ∧ (∀ c ∈ m.constants, ConstantFits limits c) ∧
    m.functions.length ≤ limits.maxFunctions.toNat ∧
    row (functionGrammar limits) s m.functions table t ∧
    word = magic ++ ([formatVersion] ++ (writeU32 (UInt32.ofNat m.constants.length) ++
      (m.constants.flatMap encodeConstant ++ (writeU32 (UInt32.ofNat m.functions.length) ++
      (writeFunctionId m.entry ++ table)))))

theorem readsModule (limits) : Reads (module limits) (moduleGrammar limits) := by
  have whole := readsAfter (readsMagic magic) fun _ => readsAfter (readsExpect formatVersion .unsupportedVersion)
    fun _ => readsAfter (readsCounted "constant count" limits.maxConstants (readsConstant limits)) fun constants =>
    readsAfter (readsBounded "function count" limits.maxFunctions) fun k =>
    readsAfter (Field.reads (r := functionId)) fun entry =>
    readsRow (fun _ => readsFunction limits) (talliedLocal _ _ _) 0 k.toNat fun fs => Module.mk constants fs entry
  simp only [bind_assoc] at whole
  refine Reads.congr whole.1 ?_
  intro s m word t
  constructor
  · rintro ⟨_,_,_,rfl,⟨_,_,_,rfl,⟨constants,_,_,⟨few,fit,rfl⟩,⟨k,_,_,⟨rfl,few'⟩,⟨entry,_,_,rfl,
      ⟨fs,rfl,size,spelled⟩,rfl⟩,rfl⟩,rfl⟩,rfl⟩,rfl⟩
    have count : k = UInt32.ofNat fs.length := by rw [size,UInt32.ofNat_toNat]
    refine ⟨_,few,fit,?_,spelled,?_⟩
    · change fs.length ≤ _
      rw [size]
      exact UInt32.le_iff_toNat_le.mp few'
    · rw [count,List.append_assoc]
  · rintro ⟨table,few,fit,few',spelled,rfl⟩
    obtain ⟨cast,below⟩ := countCast few'
    exact ⟨(),_,_,rfl,⟨(),_,_,rfl,⟨m.constants,_,_,⟨few,fit,rfl⟩,⟨_,_,_,⟨rfl,below⟩,⟨m.entry,_,_,rfl,
      ⟨m.functions,rfl,cast.symm,spelled⟩,rfl⟩,rfl⟩,by rw [List.append_assoc]⟩,rfl⟩,rfl⟩

end Decoder

structure ModuleFits (limits : DecodeLimits) (m : Module) : Prop where
  constants : m.constants.length ≤ limits.maxConstants.toNat
  constant : ∀ c ∈ m.constants, ConstantFits limits c
  functions : m.functions.length ≤ limits.maxFunctions.toNat
  function : ∀ f ∈ m.functions, FunctionFits limits f
  total : (m.functions.map fun f => f.code.length).sum ≤ limits.maxTotalInstructions.toNat

theorem moduleRun (bytes limits m s) :
    Decoder.module limits ⟨bytes,0,0⟩ = .ok (m,s) ↔ ∃ tail, bytes = m.encode ++ tail ∧ (∀ f ∈ m.functions, NameFits f.name) ∧ ModuleFits limits m ∧
      s = ⟨bytes,m.encode.length,(m.functions.map fun f => f.code.length).sum⟩ := by
  have start : Cursor.Inside (⟨bytes,0,0⟩ : Decoder) := Nat.zero_le _
  have rows := fun t table => Decoder.rowTallied limits (fun f : Function => f.code.length) encodeFunction
    (fun f => NameFits f.name ∧ FunctionFits limits f) ⟨bytes,0,0⟩ t m.functions table (Nat.zero_le _)
  rw [Decoder.readsModule limits ⟨bytes,0,0⟩ m s start]
  constructor
  · rintro ⟨word,tail,t,⟨table,few,fit,few',spelled,rfl⟩,here,rfl⟩
    obtain ⟨rfl,fits,total,rfl⟩ := (rows t table).mp spelled
    rw [Nat.zero_add] at total ⊢
    refine ⟨tail,here,fun f member => (fits f member).1,⟨few,fit,few',fun f member => (fits f member).2,total⟩,?_⟩
    change (⟨bytes,0 + m.encode.length,_⟩ : Decoder) = _
    rw [Nat.zero_add]
  · rintro ⟨tail,here,named,fits,rfl⟩
    have spelled := (rows ⟨bytes,0,(m.functions.map fun f => f.code.length).sum⟩ _).mpr
      ⟨rfl,fun f member => ⟨named f member,fits.function f member⟩,by rw [Nat.zero_add]; exact fits.total,by rw [Nat.zero_add]⟩
    refine ⟨_,tail,_,⟨_,fits.constants,fits.constant,fits.functions,spelled,rfl⟩,here,?_⟩
    change _ = (⟨bytes,0 + m.encode.length,_⟩ : Decoder)
    rw [Nat.zero_add]

theorem decodeExact (bytes limits m) :
    decode bytes limits = .ok m ↔ bytes = m.encode ∧ bytes.length ≤ limits.maxBytes ∧
      (∀ f ∈ m.functions, NameFits f.name) ∧ ModuleFits limits m := by
  unfold decode
  constructor
  · intro h
    split at h
    · cases h
    · rename_i small
      cases ran : Decoder.module limits ⟨bytes,0,0⟩ with
      | error e => rw [ran] at h; cases h
      | ok result =>
        obtain ⟨m',s⟩ := result
        rw [ran] at h
        dsimp only at h
        split at h
        · cases h
        · rename_i finished
          cases h
          obtain ⟨tail,here,named,fits,rfl⟩ := (moduleRun bytes limits m s).mp ran
          have reached : m.encode.length = bytes.length := not_not.mp finished
          have none : tail = [] := by
            have size := congrArg List.length here
            rw [List.length_append] at size
            exact List.length_eq_zero_iff.mp (by omega)
          rw [none,List.append_nil] at here
          exact ⟨here,by omega,named,fits⟩
  · rintro ⟨whole,small,named,fits⟩
    have ran := (moduleRun bytes limits m _).mpr ⟨[],whole.trans (List.append_nil _).symm,named,fits,rfl⟩
    rw [if_neg (by omega),ran]
    dsimp only
    rw [if_neg]
    rw [← whole]
    exact fun differs => differs rfl

theorem verifiedName {m certificates} (verified : verifyModule m = .ok certificates) :
    ∀ f ∈ m.functions, NameFits f.name := by
  intro f member c named wraps
  obtain ⟨_,bounds,functions⟩ := bindOk.mp verified
  obtain ⟨index,at_⟩ := List.mem_iff_getElem?.mp member
  obtain ⟨certificate,checked,_⟩ := verifyFunctionsAt functions at_
  obtain ⟨_,structural,_⟩ := bindOk.mp checked
  simp only [verifyStructure,verifyModuleBounds,seqOk,rejectIfOk] at structural bounds
  obtain ⟨_,name,_⟩ := structural
  unfold verifyFunctionName at name
  rw [named] at name
  dsimp only at name
  cases found : m.constants[c.get.toNat]? with
  | none => rw [found] at name; cases name
  | some constant =>
    obtain ⟨inside,_⟩ := List.getElem?_eq_some_iff.mp found
    have limit : maxConstants.toNat = 1048576 := rfl
    have sum := UInt32.toNat_add c.get 1
    rw [wraps] at sum
    have one : (1 : UInt32).toNat = 1 := rfl
    have zero : (0 : UInt32).toNat = 0 := rfl
    omega

structure Respects (m : Module) (limits : DecodeLimits) : Prop where
  bytes : m.encode.length ≤ limits.maxBytes
  counts : ModuleFits limits m

theorem moduleRoundTrip (m : Module) (limits : DecodeLimits) (certificates : List Certificate)
    (verified : verifyModule m = .ok certificates) (within : Respects m limits) :
    decode m.encode limits = .ok m :=
  (decodeExact _ _ _).mpr ⟨rfl,within.bytes,verifiedName verified,within.counts⟩

def namedSample : Module where
  constants := [.string ⟨[0x66,0xd800]⟩,.bigInt ⟨"-12",by decide⟩]
  functions := [⟨some ⟨0⟩,0,1,3,⟨true,false,true⟩,
    [.loadConst ⟨1⟩ ⟨1⟩,.getTemplateObject ⟨2⟩ ⟨0⟩ ⟨1⟩,.ret ⟨2⟩],[⟨⟨1⟩,⟨2⟩,⟨2⟩,⟨2⟩⟩]⟩]
  entry := ⟨0⟩

theorem moduleRoundTripNamed : decode namedSample.encode DecodeLimits.default = .ok namedSample := by
  have counts : ModuleFits DecodeLimits.default namedSample := by
    constructor
    · decide
    · decide
    · decide
    · intro f member
      rcases List.mem_singleton.mp member with rfl
      exact ⟨by decide,by decide,by decide,by decide,by decide⟩
    · decide
  exact moduleRoundTrip namedSample DecodeLimits.default _ rfl ⟨by decide,counts⟩

theorem moduleCanonical (bytes : Bytes) (limits : DecodeLimits) (m : Module) (decoded : decode bytes limits = .ok m) :
    m.encode = bytes ∧ ∀ other limits', decode other limits' = .ok m → other = bytes := by
  obtain ⟨spelled,_⟩ := (decodeExact _ _ _).mp decoded
  refine ⟨spelled.symm,?_⟩
  intro other limits' decoded'
  obtain ⟨spelled',_⟩ := (decodeExact _ _ _).mp decoded'
  exact spelled'.trans spelled.symm

def minimalModule : Module where
  constants := [.int32 7]
  functions := [⟨none,0,0,1,⟨false,false,false⟩,[.loadConst ⟨0⟩ ⟨0⟩,.ret ⟨0⟩],[]⟩]
  entry := ⟨0⟩

def minimalBytes : Bytes :=
  [66,77,84,66,67,0,0,1,5,1,1,7,0,0,0,1,0,0,0,0,1,0,2,0,0,0,30,0,0]

theorem moduleCanonicalMinimal : minimalModule.encode = minimalBytes ∧
    ∀ other limits', decode other limits' = .ok minimalModule → other = minimalBytes :=
  moduleCanonical minimalBytes DecodeLimits.default minimalModule (by decide +kernel)

end Bamts.Bytecode
