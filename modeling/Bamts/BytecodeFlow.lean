import Bamts.BytecodeModel

/-! Per-opcode facts of the verifier: the registers an instruction reads and
writes and its normal-control successors. The source visits them through
closures; the order of the lists is the order of the visits. -/
set_option linter.all false
namespace Bamts.Bytecode

namespace Instruction

def visitReads : Instruction → List Register
  | .move _ src => [src]
  | .toObject _ src => [src]
  | .unary _ _ operand => [operand]
  | .binary _ _ left right => [left,right]
  | .createClosure _ _ captures => [captures]
  | .getProperty _ object key
  | .deleteProperty _ object key
  | .withHasBinding _ object key => [object,key]
  | .setProperty object key value
  | .defineDataProperty object key value => [object,key,value]
  | .loadOwnDescriptorSlot _ object key _ => [object,key]
  | .defineOwnDescriptorSlot object key src _ => [object,key,src]
  | .defineAccessor object key accessor _ => [object,key,accessor]
  | .call _ callee thisValue arguments => [callee,thisValue,arguments]
  | .construct _ callee arguments => [callee,arguments]
  | .constructWithNewTarget _ callee newTarget arguments => [callee,newTarget,arguments]
  | .storeGlobal _ value => [value]
  | .arrayPush array value => [array,value]
  | .arrayExtend array iterable => [array,iterable]
  | .objectSpread target source => [target,source]
  | .setPrototype object prototype => [object,prototype]
  | .getIterator _ src _ => [src]
  | .iteratorNext _ _ iterator
  | .iteratorStep _ iterator
  | .iteratorClose _ _ iterator _ => [iterator]
  | .iteratorResult _ _ result => [result]
  | .requireCloseResult result called => [result,called]
  | .disposeCapture _ _ src _ => [src]
  | .suppressError _ error suppressed => [error,suppressed]
  | .jumpIfTrue condition _ | .jumpIfFalse condition _ => [condition]
  | .ret value | .throw value | .export _ value => [value]
  | .suspend _ src _ _ | .await _ src _ => [src]
  | .importDynamic _ specifier => [specifier]
  | .getSuper _ home receiver key => [home,receiver,key]
  | .setSuper home receiver key value => [home,receiver,key,value]
  | .importAttributes _ _ attributes => [attributes]
  | .importDynamicAttributes _ specifier attributes => [specifier,attributes]
  | .copyDataProperties target source excluded => [target,source,excluded]
  | .getTemplateObject _ cooked raw => [cooked,raw]
  | .loadConst .. | .createObject _ | .createArray _ | .createCell _ | .loadGlobal ..
  | .typeOfGlobal .. | .loadThis _ | .loadArguments _ | .loadNewTarget _ | .loadImportMeta _
  | .createPrivateName .. | .createRegExp .. | .jump _ | .import .. | .halt => []

def visitWrites : Instruction → List Register
  | .loadConst dst _ | .move dst _ | .unary dst _ _ | .binary dst _ _ _ | .createObject dst
  | .toObject dst _ | .createArray dst | .createCell dst | .createClosure dst _ _
  | .getProperty dst _ _ | .deleteProperty dst _ _ | .withHasBinding dst _ _
  | .loadOwnDescriptorSlot dst _ _ _ | .call dst _ _ _ | .construct dst _ _
  | .constructWithNewTarget dst _ _ _ | .loadGlobal dst _ | .typeOfGlobal dst _ | .loadThis dst
  | .loadArguments dst | .loadNewTarget dst | .loadImportMeta dst | .createPrivateName dst _
  | .createRegExp dst _ _ | .getIterator dst _ _ | .iteratorStep dst _ | .await dst _ _
  | .import dst _ | .importDynamic dst _ | .getSuper dst _ _ _ | .importAttributes dst _ _
  | .importDynamicAttributes dst _ _ | .getTemplateObject dst _ _ | .suppressError dst _ _ => [dst]
  | .suspend dst _ _ mode => [dst,mode]
  | .iteratorNext done value _ | .iteratorResult done value _ => [done,value]
  | .iteratorClose result called _ _ => [result,called]
  | .disposeCapture method kind _ _ => [method,kind]
  | .setProperty .. | .defineDataProperty .. | .defineOwnDescriptorSlot .. | .defineAccessor ..
  | .storeGlobal .. | .arrayPush .. | .arrayExtend .. | .setSuper .. | .copyDataProperties ..
  | .objectSpread .. | .setPrototype .. | .export .. | .jump _ | .jumpIfTrue .. | .jumpIfFalse ..
  | .ret _ | .throw _ | .requireCloseResult .. | .halt => []

def visitSuccessors (pc : UInt32) : Instruction → List Pc
  | .jump target => [target]
  | .jumpIfTrue _ target | .jumpIfFalse _ target => [target,⟨pc + 1⟩]
  | .suspend _ _ resume _ | .await _ _ resume => [resume]
  | .ret _ | .throw _ | .halt => []
  | .loadConst .. | .move .. | .unary .. | .binary .. | .createObject _ | .toObject ..
  | .createArray _ | .createCell _ | .createClosure .. | .getProperty .. | .setProperty ..
  | .defineDataProperty .. | .loadOwnDescriptorSlot .. | .defineOwnDescriptorSlot ..
  | .withHasBinding .. | .deleteProperty .. | .defineAccessor .. | .call .. | .construct ..
  | .constructWithNewTarget .. | .loadGlobal .. | .storeGlobal .. | .typeOfGlobal .. | .loadThis _
  | .loadArguments _ | .loadNewTarget _ | .loadImportMeta _ | .arrayPush .. | .arrayExtend ..
  | .objectSpread .. | .setPrototype .. | .createPrivateName .. | .createRegExp ..
  | .getIterator .. | .iteratorNext .. | .iteratorStep .. | .iteratorResult .. | .iteratorClose ..
  | .requireCloseResult .. | .disposeCapture .. | .suppressError .. | .import .. | .importDynamic ..
  | .getSuper .. | .setSuper .. | .importAttributes .. | .importDynamicAttributes ..
  | .copyDataProperties .. | .getTemplateObject .. | .export .. => [⟨pc + 1⟩]

end Instruction

end Bamts.Bytecode
