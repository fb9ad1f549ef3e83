import Bamts.BytecodeFlow
import Bamts.RegisterSet
import Bamts.Outcome
import Mathlib.Data.List.Sort

/-! The structural verifier: module and function bounds, handler nesting, operand
bounds of every opcode and the control-flow targets. The definite-initialization
pass that closes `verify_function` has its own module. -/
set_option linter.all false
namespace Bamts.Bytecode
open Outcome

inductive VerifyErrorKind where
  | emptyModule
  | verifierWorkLimitExceeded (work limit : Nat)
  | tooManyConstants (count : Nat)
  | tooManyFunctions (count : Nat)
  | entryFunctionOutOfBounds (entry : UInt32) (functionCount : Nat)
  | emptyFunction
  | tooManyInstructions (count : Nat)
  | tooManyHandlers (count : Nat)
  | registerCountOutOfBounds (count : UInt32)
  | parameterCountExceedsRegisters (parameterCount registerCount : UInt32)
  | entryRegistersExceedRegisterCount (captureCount parameterCount registerCount : UInt32)
  | functionNameOutOfBounds (constant : UInt32)
  | functionNameNotString (constant : ConstantId)
  | registerOutOfBounds (register : Register) (registerCount : UInt32)
  | aliasedIteratorCloseOutputs (register : Register)
  | aliasedIteratorNextOutputs (register : Register)
  | aliasedIteratorResultOutputs (register : Register)
  | aliasedDisposeCaptureOutputs (register : Register)
  | aliasedCopyDataProperties (register : Register)
  | constantOutOfBounds (constant : ConstantId) (constantCount : Nat)
  | stringConstantExpected (constant : ConstantId)
  | functionReferenceOutOfBounds (function : FunctionId) (functionCount : Nat)
  | jumpOutOfBounds (target : UInt32) (instructionCount : Nat)
  | invalidHandlerBounds (handler : Nat) (start stop target : UInt32)
  | handlerCatchRegisterOutOfBounds (handler : Nat) (register : Register) (registerCount : UInt32)
  | handlersPartiallyOverlap (left right : Nat)
  | readBeforeWrite (register : Register)
  deriving DecidableEq, Repr

structure VerifyError where
  function : Option FunctionId
  instruction : Option Pc
  kind : VerifyErrorKind
  deriving DecidableEq, Repr

abbrev Verify := Except VerifyError

def moduleError (kind : VerifyErrorKind) : VerifyError := ⟨none,none,kind⟩
def functionError (function : Nat) (kind : VerifyErrorKind) : VerifyError :=
  ⟨some ⟨UInt32.ofNat function⟩,none,kind⟩
def instructionError (function pc : Nat) (kind : VerifyErrorKind) : VerifyError :=
  ⟨some ⟨UInt32.ofNat function⟩,some ⟨UInt32.ofNat pc⟩,kind⟩

def Constant.isString : Constant → Bool
  | .string _ => true
  | _ => false

def verifyFunctionName (m : Module) (functionIndex : Nat) (f : Function) : Verify Unit :=
  match f.name with
  | none => .ok ()
  | some name =>
    match m.constants[name.get.toNat]? with
    | none => .error (functionError functionIndex (.functionNameOutOfBounds name.get))
    | some constant =>
      if !constant.isString then .error (functionError functionIndex (.functionNameNotString name))
      else .ok ()

/- `verify_handlers`: bounds of every range first, then one sweep over the ranges
sorted by (start ascending, end descending) with a stack of open ancestor ends. -/
def verifyHandlerBounds (functionIndex : Nat) (f : Function) (index : Nat) (h : ExceptionHandler) : Verify Unit := do
  rejectIf (h.start.get ≥ h.stop.get || h.stop.get.toNat > f.code.length || h.handler.get.toNat ≥ f.code.length)
    (functionError functionIndex (.invalidHandlerBounds index h.start.get h.stop.get h.handler.get))
  rejectIf (h.catchRegister.get ≥ f.registerCount)
    (functionError functionIndex (.handlerCatchRegisterOutOfBounds index h.catchRegister f.registerCount))

def handlerBefore (a b : ExceptionHandler × Nat) : Prop :=
  a.1.start.get < b.1.start.get ∨ (a.1.start.get = b.1.start.get ∧ b.1.stop.get ≤ a.1.stop.get)
instance : DecidableRel handlerBefore := fun a b => by unfold handlerBefore; infer_instance

def popClosed (start : UInt32) : List (UInt32 × Nat) → List (UInt32 × Nat)
  | [] => []
  | (openEnd,index) :: rest => if openEnd ≤ start then popClosed start rest else (openEnd,index) :: rest

def sweepHandlers (functionIndex : Nat) : List (UInt32 × Nat) → List (ExceptionHandler × Nat) → Verify Unit
  | _, [] => .ok ()
  | opened, (range,index) :: rest =>
    let opened := popClosed range.start.get opened
    match opened with
    | (parentEnd,parentIndex) :: _ =>
      if range.stop.get > parentEnd then
        let (left,right) := if parentIndex < index then (parentIndex,index) else (index,parentIndex)
        .error (functionError functionIndex (.handlersPartiallyOverlap left right))
      else sweepHandlers functionIndex ((range.stop.get,index) :: opened) rest
    | [] => sweepHandlers functionIndex [(range.stop.get,index)] rest

def verifyHandlers (functionIndex : Nat) (f : Function) : Verify Unit := do
  eachFrom (verifyHandlerBounds functionIndex f) 0 f.handlers
  sweepHandlers functionIndex [] (f.handlers.zipIdx.insertionSort handlerBefore)

def verifyTarget (functionIndex pc : Nat) (target : Pc) (instructionCount : Nat) : Verify Unit :=
  rejectIf (target.get.toNat ≥ instructionCount)
    (instructionError functionIndex pc (.jumpOutOfBounds target.get instructionCount))

def verifySuccessors (functionIndex pc instructionCount : Nat) : List Pc → Verify Unit
  | [] => .ok ()
  | target :: rest => do
    verifyTarget functionIndex pc target instructionCount
    verifySuccessors functionIndex pc instructionCount rest

section Operands
variable (functionIndex pc : Nat) (registerCount : UInt32) (constants : List Constant)

def checkRegister (r : Register) : Verify Unit :=
  rejectIf (r.get ≥ registerCount)
    (instructionError functionIndex pc (.registerOutOfBounds r registerCount))

def checkConstant (c : ConstantId) : Verify Unit :=
  rejectIf (c.get.toNat ≥ constants.length)
    (instructionError functionIndex pc (.constantOutOfBounds c constants.length))

def checkStringConstant (c : ConstantId) : Verify Unit := do
  checkConstant functionIndex pc constants c
  if constants[c.get.toNat]?.any Constant.isString then .ok ()
  else .error (instructionError functionIndex pc (.stringConstantExpected c))

def checkDistinct (left right : Register) (kind : Register → VerifyErrorKind) : Verify Unit :=
  rejectIf (left = right) (instructionError functionIndex pc (kind left))

-- `verifier::verify_extension`; its error kinds map field by field onto `VerifyErrorKind`.
def verifyExtension (i : Isa.Instruction) (instructionCount : Nat) : Verify Unit := do
  let reg := checkRegister functionIndex pc registerCount
  match i with
  | .getSuper dst home receiver key => do reg dst; reg home; reg receiver; reg key
  | .setSuper home receiver key value => do reg home; reg receiver; reg key; reg value
  | .importAttributes dst specifier attributes => do
    reg dst; checkStringConstant functionIndex pc constants specifier; reg attributes
  | .importDynamicAttributes dst specifier attributes => do reg dst; reg specifier; reg attributes
  | .copyDataProperties target source excluded => do
    reg target; reg source; reg excluded
    rejectIf (target = source ∨ target = excluded)
      (instructionError functionIndex pc (.aliasedCopyDataProperties target))
  | .getTemplateObject dst cooked raw => do reg dst; reg cooked; reg raw
  verifySuccessors functionIndex pc instructionCount [⟨UInt32.ofNat pc + 1⟩]

def verifyOperands (functionCount instructionCount : Nat) (i : Instruction) : Verify Unit :=
  let reg := checkRegister functionIndex pc registerCount
  let str := checkStringConstant functionIndex pc constants
  let target := fun t => verifyTarget functionIndex pc t instructionCount
  match i with
  | .loadConst dst constant => do reg dst; checkConstant functionIndex pc constants constant
  | .move dst src => do reg dst; reg src
  | .toObject dst src => do reg dst; reg src
  | .unary dst _ operand => do reg dst; reg operand
  | .binary dst _ left right => do reg dst; reg left; reg right
  | .createObject dst | .createArray dst | .createCell dst => reg dst
  | .createClosure dst reference captures => do
    reg dst; reg captures
    rejectIf (reference.get.toNat ≥ functionCount)
      (instructionError functionIndex pc (.functionReferenceOutOfBounds reference functionCount))
  | .getProperty dst object key
  | .deleteProperty dst object key
  | .withHasBinding dst object key => do reg dst; reg object; reg key
  | .setProperty object key value
  | .defineDataProperty object key value => do reg object; reg key; reg value
  | .loadOwnDescriptorSlot dst object key _ => do reg dst; reg object; reg key
  | .defineOwnDescriptorSlot object key src _ => do reg object; reg key; reg src
  | .defineAccessor object key accessor _ => do reg object; reg key; reg accessor
  | .call dst callee thisValue arguments => do reg dst; reg callee; reg thisValue; reg arguments
  | .construct dst callee arguments => do reg dst; reg callee; reg arguments
  | .constructWithNewTarget dst callee newTarget arguments => do
    reg dst; reg callee; reg newTarget; reg arguments
  | .loadGlobal dst name | .typeOfGlobal dst name => do reg dst; str name
  | .storeGlobal name value => do str name; reg value
  | .loadThis dst | .loadArguments dst | .loadNewTarget dst | .loadImportMeta dst => reg dst
  | .arrayPush array value => do reg array; reg value
  | .arrayExtend array iterable => do reg array; reg iterable
  | .objectSpread target source => do reg target; reg source
  | .setPrototype object prototype => do reg object; reg prototype
  | .createPrivateName dst description => do reg dst; str description
  | .createRegExp dst pattern flags => do reg dst; str pattern; str flags
  | .getIterator dst src _ => do reg dst; reg src
  | .iteratorNext done value iterator => do
    reg done; reg value; reg iterator
    checkDistinct functionIndex pc done value .aliasedIteratorNextOutputs
  | .iteratorStep dst iterator => do reg dst; reg iterator
  | .iteratorResult done value result => do
    reg done; reg value; reg result
    checkDistinct functionIndex pc done value .aliasedIteratorResultOutputs
  | .iteratorClose result called iterator _ => do
    reg result; reg called; reg iterator
    checkDistinct functionIndex pc result called .aliasedIteratorCloseOutputs
  | .requireCloseResult result called => do reg result; reg called
  | .disposeCapture method kind src _ => do
    reg method; reg kind; reg src
    checkDistinct functionIndex pc method kind .aliasedDisposeCaptureOutputs
  | .suppressError dst error suppressed => do reg dst; reg error; reg suppressed
  | .jump t => target t
  | .jumpIfTrue condition t | .jumpIfFalse condition t => do reg condition; target t
  | .ret value | .throw value => reg value
  | .suspend dst src resume mode => do reg dst; reg src; reg mode; target resume
  | .await dst src resume => do reg dst; reg src; target resume
  | .import dst specifier => do reg dst; str specifier
  | .importDynamic dst specifier => do reg dst; reg specifier
  | .export name src => do str name; reg src
  | .getSuper .. | .setSuper .. | .importAttributes .. | .importDynamicAttributes ..
  | .copyDataProperties .. | .getTemplateObject .. => .ok ()
  | .halt => .ok ()

end Operands

def verifyInstruction (m : Module) (functionIndex : Nat) (f : Function) (pc : Nat) (i : Instruction) :
    Verify Unit := do
  i.extension.elim (.ok ()) fun extension =>
    verifyExtension functionIndex pc f.registerCount m.constants extension f.code.length
  verifyOperands functionIndex pc f.registerCount m.constants m.functions.length f.code.length i
  verifySuccessors functionIndex pc f.code.length (i.visitSuccessors (UInt32.ofNat pc))

def verifyFunctionBounds (functionIndex : Nat) (f : Function) : Verify Unit := do
  rejectIf f.code.isEmpty (functionError functionIndex .emptyFunction)
  rejectIf (f.code.length > maxInstructions.toNat)
    (functionError functionIndex (.tooManyInstructions f.code.length))
  rejectIf (f.handlers.length > maxHandlers.toNat)
    (functionError functionIndex (.tooManyHandlers f.handlers.length))
  rejectIf (f.registerCount > maxRegisters)
    (functionError functionIndex (.registerCountOutOfBounds f.registerCount))
  rejectIf (f.parameterCount > f.registerCount)
    (functionError functionIndex (.parameterCountExceedsRegisters f.parameterCount f.registerCount))
  rejectIf (f.captureCount.toNat + f.parameterCount.toNat > f.registerCount.toNat)
    (functionError functionIndex
      (.entryRegistersExceedRegisterCount f.captureCount f.parameterCount f.registerCount))

-- Every check of `verify_function` before the dataflow pass.
def verifyStructure (m : Module) (functionIndex : Nat) (f : Function) : Verify Unit := do
  verifyFunctionBounds functionIndex f
  verifyFunctionName m functionIndex f
  verifyHandlers functionIndex f
  eachFrom (verifyInstruction m functionIndex f) 0 f.code

-- `u64` saturation only tightens the running total, which is compared at every step.
def saturate (n : Nat) : Nat := min n (2^64 - 1)

def verifyWork : Nat → List Function → Verify Unit
  | _, [] => .ok ()
  | total, f :: rest =>
    let functionWords := saturate (f.code.length * RegisterSet.wordsFor f.registerCount)
    let total := saturate (total + functionWords)
    if total > maxVerifierFactsWords then
      .error (moduleError (.verifierWorkLimitExceeded total maxVerifierFactsWords))
    else verifyWork total rest

def verifyModuleBounds (m : Module) : Verify Unit := do
  rejectIf m.functions.isEmpty (moduleError .emptyModule)
  rejectIf (m.constants.length > maxConstants.toNat) (moduleError (.tooManyConstants m.constants.length))
  rejectIf (m.functions.length > maxFunctions.toNat) (moduleError (.tooManyFunctions m.functions.length))
  rejectIf (m.entry.get.toNat ≥ m.functions.length)
    (moduleError (.entryFunctionOutOfBounds m.entry.get m.functions.length))
  verifyWork 0 m.functions

theorem checkRegisterOk {functionIndex pc registerCount r} :
    checkRegister functionIndex pc registerCount r = .ok () ↔ r.get.toNat < registerCount.toNat := by
  unfold checkRegister
  rw [rejectIfOk]
  simp [UInt32.lt_iff_toNat_lt]

theorem verifySuccessorsOk {functionIndex pc count targets} :
    verifySuccessors functionIndex pc count targets = .ok () ↔ ∀ t ∈ targets, t.get.toNat < count := by
  induction targets with
  | nil => simp [verifySuccessors]
  | cons t rest ih =>
    unfold verifySuccessors
    rw [seqOk,ih]
    unfold verifyTarget
    rw [rejectIfOk]
    simp

-- The six extension opcodes are bounded by `verify_extension`, the others by the operand match.
theorem operandsBounded {functionIndex pc registerCount constants functionCount instructionCount i}
    (ok : verifyOperands functionIndex pc registerCount constants functionCount instructionCount i = .ok ())
    (core : i.extension = none) (r) (used : r ∈ i.visitReads ∨ r ∈ i.visitWrites) :
    r.get.toNat < registerCount.toNat := by
  unfold verifyOperands at ok
  unfold Instruction.extension at core
  unfold Instruction.visitReads Instruction.visitWrites at used
  cases i <;> simp only [seqOk,checkRegisterOk,reduceCtorEq,List.mem_cons,List.not_mem_nil,or_false,
    false_or] at ok core used <;> grind

theorem extensionBounded {functionIndex pc registerCount constants instructionCount i e}
    (ok : verifyExtension functionIndex pc registerCount constants e instructionCount = .ok ()) (some : Instruction.extension i = some e) (r)
    (used : r ∈ i.visitReads ∨ r ∈ i.visitWrites) : r.get.toNat < registerCount.toNat := by
  unfold Instruction.extension at some
  unfold verifyExtension at ok
  unfold Instruction.visitReads Instruction.visitWrites at used
  cases i <;> simp only [reduceCtorEq,Option.some.injEq] at some
  all_goals
    subst e
    simp only [seqOk,checkRegisterOk,List.mem_cons,List.not_mem_nil,or_false] at ok used
    grind

theorem instructionBounded {m functionIndex f pc i} (ok : verifyInstruction m functionIndex f pc i = .ok ()) :
    (∀ r, r ∈ i.visitReads ∨ r ∈ i.visitWrites → r.get.toNat < f.registerCount.toNat) ∧
    ∀ t ∈ i.visitSuccessors (UInt32.ofNat pc), t.get.toNat < f.code.length := by
  unfold verifyInstruction at ok
  cases h : i.extension with
  | none =>
    simp only [h,seqOk] at ok
    exact ⟨operandsBounded ok.2.1 h,verifySuccessorsOk.mp ok.2.2⟩
  | some e =>
    simp only [h,seqOk,Option.elim_some] at ok
    exact ⟨extensionBounded ok.1 h,verifySuccessorsOk.mp ok.2.2⟩

/- What the dataflow pass relies on: no index it uses leaves the code or the register file. -/
structure Bounded (f : Function) : Prop where
  nonempty : 0 < f.code.length
  short : f.code.length ≤ maxInstructions.toNat
  entry : f.captureCount.toNat + f.parameterCount.toNat ≤ f.registerCount.toNat
  registers : ∀ (pc : Nat) (i : Instruction), f.code[pc]? = some i →
    ∀ r, r ∈ i.visitReads ∨ r ∈ i.visitWrites → r.get.toNat < f.registerCount.toNat
  successors : ∀ (pc : Nat) (i : Instruction), f.code[pc]? = some i →
    ∀ t ∈ i.visitSuccessors (UInt32.ofNat pc), t.get.toNat < f.code.length
  handlers : ∀ h ∈ f.handlers, h.start.get.toNat < h.stop.get.toNat ∧
    h.stop.get.toNat ≤ f.code.length ∧ h.handler.get.toNat < f.code.length ∧
    h.catchRegister.get.toNat < f.registerCount.toNat

theorem functionBoundsOk {functionIndex f} (ok : verifyFunctionBounds functionIndex f = .ok ()) :
    0 < f.code.length ∧ f.code.length ≤ maxInstructions.toNat ∧ f.handlers.length ≤ maxHandlers.toNat ∧
    f.captureCount.toNat + f.parameterCount.toNat ≤ f.registerCount.toNat := by
  simp only [verifyFunctionBounds,seqOk,rejectIfOk] at ok
  obtain ⟨nonempty,short,few,_,_,entry⟩ := ok
  have positive : 0 < f.code.length := by
    cases h : f.code with
    | nil => simp [h] at nonempty
    | cons i rest => simp
  exact ⟨positive,Nat.le_of_not_lt short,Nat.le_of_not_lt few,Nat.le_of_not_lt entry⟩

structure HandlerFits (f : Function) (h : ExceptionHandler) : Prop where
  proper : h.start.get.toNat < h.stop.get.toNat
  inside : h.stop.get.toNat ≤ f.code.length
  target : h.handler.get.toNat < f.code.length
  catches : h.catchRegister.get.toNat < f.registerCount.toNat

theorem handlerBoundsOk {functionIndex index f h} :
    verifyHandlerBounds functionIndex f index h = .ok () ↔ HandlerFits f h := by
  unfold verifyHandlerBounds
  simp only [seqOk,rejectIfOk,Bool.or_eq_true,decide_eq_true_eq,not_or,ge_iff_le,gt_iff_lt,UInt32.not_le,Nat.not_le,
    Nat.not_lt,UInt32.lt_iff_toNat_lt]
  exact ⟨fun ok => ⟨ok.1.1.1,ok.1.1.2,ok.1.2,ok.2⟩,fun fits => ⟨⟨⟨fits.proper,fits.inside⟩,fits.target⟩,fits.catches⟩⟩

theorem structureBounded {m functionIndex f} (ok : verifyStructure m functionIndex f = .ok ()) :
    Bounded f := by
  simp only [verifyStructure,seqOk] at ok
  obtain ⟨bounds,_,handlers,code⟩ := ok
  obtain ⟨nonempty,short,_,entry⟩ := functionBoundsOk bounds
  have each := eachFromOk.mp code
  simp only [verifyHandlers,seqOk] at handlers
  have ranges := eachFromOk.mp handlers.1
  constructor
  · exact nonempty
  · exact short
  · exact entry
  · intro pc i found
    have h := each pc i found
    exact (instructionBounded h).1
  · intro pc i found
    have h := each pc i found
    rw [Nat.zero_add] at h
    exact (instructionBounded h).2
  · intro h member
    obtain ⟨index,found⟩ := List.mem_iff_getElem?.mp member
    have fits := handlerBoundsOk.mp (ranges index h found)
    exact ⟨fits.proper,fits.inside,fits.target,fits.catches⟩

end Bamts.Bytecode
