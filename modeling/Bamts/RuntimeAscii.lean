import Bamts.RuntimePrototype

/-! The lookup of ASCII names, which `[[Get]]` takes in place of the general one: where the two agree. -/
set_option linter.all false
namespace Bamts.Runtime
open Effect Bytecode Linkage

def isAscii (text : String) : Bool := text.toList.all fun c => c.toNat < 128

def PropertyMap.getAscii (map : PropertyMap) (name : String) : Option Property :=
  (map.entries.find? fun entry => entry.1.eqAscii name).map Prod.snd

def propertyLookupAscii (properties : PropertyMap) (name : String) : Option Found :=
  (properties.getAscii name).map fun
    | .data value .. => .value value
    | .accessor (some getter) .. => .getter getter
    | .accessor none .. => .noGetter

def arrayIndexAsciiLoop : List Char → Nat → Option Nat
  | [], index => some index
  | c :: rest, index =>
    if c.isDigit ∧ index*10 + (c.toNat-48) < 2^32 then arrayIndexAsciiLoop rest (index*10 + (c.toNat-48)) else none

-- `array_index_ascii`
def arrayIndexText (key : String) : Option Nat :=
  if !isAscii key || key.toList.isEmpty || (1 < key.toList.length && key.toList.head? == some '0') then none else do
    let index ← arrayIndexAsciiLoop key.toList 0
    if index ≠ 4294967295 then some index else none

def typedArrayIndexAscii (name : String) : Option (Option Nat) := canonicalIndex (ascii name)

def stringOwnGetAscii (text : EcmaString) (name : String) : Option Found :=
  if name = "length" then some (.value (numberValue (.ofNat text.lenUnits)))
  else do
    let offset ← arrayIndexText name
    let unit ← text.asUnits[offset]?
    some (.text ⟨[unit]⟩)

def Machine.functionOwnGetAscii (m : Machine) (module : ModuleId) (function : FunctionId) (name : String) : Option Found :=
  match (m.moduleCode module).bind (·.functions[function.get.toNat]?) with
  | none => some (.failure (.panicked .unexpected))
  | some metadata =>
    if name = "length" then some (.value (numberValue (.ofNat metadata.parameterCount.toNat)))
    else if name = "name" then some (.text (metadata.name.elim ⟨[]⟩ fun id => (m.constantText module id).getD ⟨[]⟩))
    else none

def regExpOwnGetAscii (pattern flags : EcmaString) (name : String) : Option Found :=
  let flag (unit : UInt16) : Option Found := some (.value (.boolean (flags.asUnits.contains unit)))
  match name with
  | "source" => some (.text (canonicalSource pattern))
  | "flags" => some (.text flags)
  | "global" => flag 103
  | "ignoreCase" => flag 105
  | "multiline" => flag 109
  | "sticky" => flag 121
  | "unicode" => flag 117
  | "dotAll" => flag 115
  | "lastIndex" => some (.value (.int32 0))
  | _ => none

def hashOwnGetAscii (update digest : Value) : String → Option Found
  | "update" => some (.value update)
  | "digest" => some (.value digest)
  | _ => none

def Machine.namespaceGetAscii (m : Machine) (module : ModuleId) (name : String) : Option Found :=
  match m.programModule module with
  | none => some (.failure (.panicked .unexpected))
  | some source =>
    match source.exports.find? fun exported => (m.constantText module exported.name).elim true (eqAscii · name) with
    | none => none
    | some exported => match m.constantText module exported.name with
      | none => some (.failure (.panicked .unexpected))
      | some key => match m.namespaceExport module key with
        | .ok (some value) => some (.value value)
        | .ok none => none
        | .error fault => some (.failure fault)

def Machine.ownGetAsciiEntry (m : Machine) (index : Nat) (name : String) : HeapEntry → Option Found
  | .object header boxedPrimitive =>
    (propertyLookupAscii header.properties name).or
      ((boxedPrimitive.bind m.stringValue).bind fun text => stringOwnGetAscii text name)
  | .array header elements _ =>
    if name = "length" then some (.value (numberValue (.ofNat elements.length)))
    else match (arrayIndexText name).bind (elements[·]?) with
      | some element => if element = .hole then propertyLookupAscii header.properties name else some (.value element)
      | none => propertyLookupAscii header.properties name
  | .typedArray header _ =>
    match typedArrayIndexAscii name with
    | some typedIndex =>
      match typedIndex,m.typedArrayLengthAt index with
      | some offset, some length => if offset < length then some (.value .undefined) else none
      | _, _ => none
    | none => propertyLookupAscii header.properties name
  | .function header module function _ _ =>
    (propertyLookupAscii header.properties name).or (m.functionOwnGetAscii module function name)
  | .moduleNamespace module => m.namespaceGetAscii module name
  | .externalModuleNamespace specifier =>
    match m.externalModule specifier with
    | none => some (.failure (.panicked .unexpected))
    | some external => (external.exports.find? fun exported => eqAscii exported.1 name).map fun exported =>
      match exported.2.cell with
      | none => .value exported.2.value
      | some cell => match m.cell cell with
        | .ok value => .value value
        | .error fault => .failure fault
  | .regExp header pattern flags =>
    (propertyLookupAscii header.properties name).or (regExpOwnGetAscii pattern flags name)
  | .hashState _ _ _ update digest => hashOwnGetAscii update digest name
  | .string _ => none
  | .vacant => some (.failure (.panicked .unexpected))
  | entry => entry.header?.bind fun header => propertyLookupAscii header.properties name

def Machine.ownGetAscii (m : Machine) (index : Nat) (name : String) : Option Found :=
  if m.slotOk m.intrinsics.objectPrototype = some index ∧ name = "toString" then
    match m.intrinsics.builtins.slot .objectToString with
    | some value => some (.value value)
    | none => some (.failure (.panicked .unexpected))
  else m.ownGetAsciiEntry index name (m.entry index)

def resolveGetAsciiFrom (name : String) : Nat → Nat → Exec GetOutcome
  | 0, _ => pure (.value .undefined)
  | fuel+1, node => do
    let m ← read
    if (m.entry node).kind = .proxy then do
      let proxy ← lift (Machine.valueForRuntimeIndex node)
      fail (.callout proxy .undefined [])
    else match (m.entry node).kind,typedArrayIndexAscii name with
      | .typedArray, some typedIndex => match typedIndex with
        | some offset => do
          let view ← lift (Machine.valueForRuntimeIndex node)
          let value ← readElement view offset
          pure (.value value)
        | none => pure (.value .undefined)
      | _, _ => match m.ownGetAscii node name with
        | some found => lift (foundOutcome found)
        | none => do
          match ← lift (m.prototypeIndex node) with
          | some next => resolveGetAsciiFrom name fuel next
          | none => pure (.value .undefined)

def textOutcomeAscii (text : EcmaString) (name : String) : Option GetOutcome :=
  if name = "length" then some (.value (numberValue (.ofNat text.lenUnits)))
  else do
    let offset ← arrayIndexText name
    let unit ← text.asUnits[offset]?
    some (.text ⟨[unit]⟩)

def resolveGetAscii (object : Value) (name : String) : Exec GetOutcome := do
  let m ← read
  match (← runtimeSlot object).map m.entry with
  | some (.processEnv ..) => fail (.callout .undefined .undefined [])
  | entry =>
    let primitive := match entry with
      | some (.string text) => textOutcomeAscii text name
      | _ => none
    match primitive with
    | some outcome => pure outcome
    | none => do
      match ← lift (m.getStart object) with
      | none => pure (.value .undefined)
      | some start => resolveGetAsciiFrom name (m.heap.length+1) start

theorem arrayLoopAscii {cs} (small : ∀ c ∈ cs, c.toNat < 128) (index) :
    arrayIndexAsciiLoop cs index = arrayIndexLoop (cs.map fun c => UInt16.ofNat c.toNat) index := by
  induction cs generalizing index with
  | nil => rfl
  | cons c rest ih =>
    have here := small c List.mem_cons_self
    have unit : (UInt16.ofNat c.toNat).toNat = c.toNat := by rw [UInt16.toNat_ofNat',Nat.mod_eq_of_lt (by omega)]
    have digit : c.isDigit = isDigit (UInt16.ofNat c.toNat) := by
      rw [Bool.eq_iff_iff]
      simp only [Char.isDigit,isDigit,Bool.and_eq_true,decide_eq_true_eq,ge_iff_le,UInt32.le_iff_toNat_le,UInt16.le_iff_toNat_le,unit]
      exact Iff.rfl
    rw [List.map_cons,arrayIndexAsciiLoop,arrayIndexLoop,unit,digit,ih fun c later => small c (List.mem_cons_of_mem _ later)]

def Machine.Linked (m : Machine) : Prop :=
  ∀ (i : Nat) module, m.heap[i]? = some (.moduleNamespace module) → ∃ source, m.programModule module = some source ∧
    ∀ exported ∈ source.exports, ∃ text, m.constantText module exported.name = some text

section Names

variable {name : String} (plain : isAscii name = true)
include plain

theorem asciiChar {c} (member : c ∈ name.toList) : c.toNat < 128 := by
  simpa using List.all_eq_true.mp plain c member

theorem asciiUnit {c} (member : c ∈ name.toList) : (UInt16.ofNat c.toNat).toNat = c.toNat := by
  have := asciiChar plain member
  rw [UInt16.toNat_ofNat',Nat.mod_eq_of_lt (by omega)]

theorem arrayIndexAgrees : arrayIndexText name = arrayIndex (ascii name) := by
  have head : (name.toList.head? == some '0') = ((ascii name).asUnits.head? == some 48) := by
    rw [ascii,List.head?_map]
    cases chars : name.toList with
    | nil => rfl
    | cons c rest =>
      have unit := asciiUnit plain (c := c) (by rw [chars]; exact List.mem_cons_self)
      have zero : UInt16.ofNat c.toNat = 48 ↔ c = '0' := by
        rw [← UInt16.toNat_inj,unit,← Char.toNat_inj]
        exact Iff.rfl
      rw [List.head?_cons,Option.map_some,Bool.eq_iff_iff,beq_iff_eq,beq_iff_eq,Option.some.injEq,Option.some.injEq,zero]
  have loop := arrayLoopAscii (fun c => asciiChar plain) 0
  unfold arrayIndexText arrayIndex
  rw [plain,head,loop]
  simp only [ascii,List.isEmpty_map,List.length_map,Bool.not_true,Bool.false_or]

end Names

section Walk

variable {m : Machine} {name : String} {node : Nat}

structure Passes (m : Machine) (name : String) (node : Nat) : Prop where
  direct : (m.entry node).kind ≠ .proxy
  untyped : (m.entry node).kind = .typedArray → typedArrayIndexAscii name = none

end Walk

def searchFrom (start : Except Fault (Option Nat)) (walk : Nat → Exec GetOutcome) : Exec GetOutcome := do
  match ← lift start with
  | none => pure (.value .undefined)
  | some start => walk start

def firstText : Value := (valueForHeapIndex 1).getD .undefined
end Bamts.Runtime
