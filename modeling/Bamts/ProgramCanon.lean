import Mathlib.Tactic.Linarith
import Bamts.BytecodeCanon
import Bamts.ProgramLink
import Bamts.ProgramWire

/-! Exactness of the program envelope. The encoder casts the length of a module blob to
`u32`, so the round trip holds for the programs whose blobs are shorter than `2^32`. -/
set_option linter.all false
namespace Bamts.Linkage
open Bytecode
open ByteReader (Cursor Buffered Reads Local Grammar Field plain plainLocal after bump Steady row
  readN readEach readsPure readsAfter readsBump readsFields readsRow seqCons seq1 seq2
  seq3 readsPosition readsDemand readsNextByte readsBlock readsOneOf readsExpected readsLiteral literal)
open Leb128 (writeU32 readLeb128 readsU32)
open Bytecode.Decoder (countCast)

instance : Buffered ProgramDecoder where
  rest s := s.bytes.drop s.offset
  advance n s := { s with offset := s.offset + n }
  restAdvance n s := by simp only [List.drop_drop]
  advanceZero s := rfl
  advanceAdd a b s := by simp only [Nat.add_assoc]
  Inside s := s.offset ≤ s.bytes.length
  insideAdvance n s inside fits := by
    rw [List.length_drop] at fits
    change s.offset + n ≤ s.bytes.length
    omega
  bytes s := s.bytes
  offset s := s.offset
  restIs s := rfl
  insideIs s inside := inside

namespace ProgramDecoder

theorem readsHere {α} {f : Nat → ProgramDecode α} {g} (all : ∀ n, Reads (f n) g) :
    Reads (here >>= f) g := readsPosition all

theorem readsOkAt {α} (value : Option α) (start kind) :
    Reads (okAt value start kind) (plain fun a word => value = some a ∧ word = []) := readsDemand value _

instance byteField : Field byte (fun b => [b]) where
  reads := readsNextByte (ProgramDecodeError.mk · .unexpectedEof)

theorem readsSlice (length) : Reads (slice length) (plain fun bytes word => word = bytes ∧ bytes.length = length) :=
  readsBlock (ProgramDecodeError.mk · .unexpectedEof) length

instance u32Field : Field u32 writeU32 where
  reads := by
    refine readsU32 ?_ ?_
    · intro s v n found
      change readLeb128 s.bytes s.offset = (.ok v,s.offset + n) at found
      unfold u32
      rw [found]
      rfl
    · intro s e stop found
      change readLeb128 s.bytes s.offset = (.error e,stop) at found
      unfold u32
      rw [found]
      cases e <;> simp

theorem readsLimited (field limit) :
    Reads (limited field limit) (plain fun n word => word = writeU32 n ∧ n.toNat ≤ limit) := by
  refine (seqCons fun actual => readsHere fun stop => readsOkAt (if actual.toNat > limit then none else some actual) stop
    (.limitExceeded field limit actual.toNat)).respell ?_
  intro n word
  constructor
  · intro h
    obtain ⟨actual,right,⟨kept,rfl⟩,rfl⟩ := h
    split at kept
    · cases kept
    · cases kept
      exact ⟨List.append_nil _,by omega⟩
  · intro h
    obtain ⟨rfl,small⟩ := h
    exact ⟨n,[],⟨if_neg (by omega),rfl⟩,(List.append_nil _).symm⟩

instance constantIdField : Field constantId writeConstantId where
  reads := (seq1 ConstantId.new).respell fun ⟨_⟩ _ => by simp [writeConstantId]

instance moduleIdField : Field moduleId writeModuleId where
  reads := (seq1 ModuleId.new).respell fun ⟨_⟩ _ => by simp [writeModuleId]

instance edgeIdField : Field edgeId writeEdgeId where
  reads := (seq1 EdgeId.new).respell fun ⟨_⟩ _ => by simp [writeEdgeId]

instance bindingIdField : Field bindingId writeBindingId where
  reads := (seq1 BindingId.new).respell fun ⟨_⟩ _ => by simp [writeBindingId]

theorem taggedBody {α} {body : Nat → UInt8 → ProgramDecode α} {write : α → Bytes}
    (bodies : ∀ tagAt tag, Reads (body tagAt tag) (plain fun a word => write a = tag :: word)) (head : ∀ a, ∃ tag word, write a = tag :: word) :
    Reads (do let tagAt ← here; let tag ← byte; body tagAt tag) (plain fun a word => word = write a) := by
  refine readsHere fun tagAt => (seqCons (bodies tagAt)).respell ?_
  intro a word
  constructor
  · intro h
    obtain ⟨tag,right,spelled,rfl⟩ := h
    exact spelled.symm
  · intro h
    subst h
    obtain ⟨tag,right,spelled⟩ := head a
    exact ⟨tag,right,spelled,spelled⟩

instance edgeTargetField : Field edgeTarget encodeEdgeTarget where
  reads := by
    refine taggedBody ?_ (fun a => by cases a <;> exact ⟨_,_,rfl⟩)
    intro tagAt tag
    refine Reads.intro ?_ ?_
    · intro s a s' inside h
      unfold edgeTargetBody at h
      split at h
      · obtain ⟨_,tail,⟨target,rfl,rfl⟩,here,rfl⟩ := (seq1 _).forward inside h
        exact ⟨_,tail,rfl,here,rfl⟩
      · obtain ⟨_,tail,⟨rfl,rfl⟩,here,rfl⟩ := (readsPure _).forward inside h
        exact ⟨_,tail,rfl,here,rfl⟩
      · cases h
    · intro s a word tail inside spelled here
      cases a with
      | «local» target => cases spelled; exact (seq1 _).backward inside ⟨_,rfl,rfl⟩ here
      | external => cases spelled; exact (readsPure _).backward inside ⟨rfl,rfl⟩ here

instance edgeKindField : Field edgeKind (fun kind => [kind.toU8]) where
  reads := by
    refine readsOneOf (ProgramDecodeError.mk · .unexpectedEof)
      (fun start tag => ProgramDecodeError.mk start (.invalidEdgeKind tag)) ?_
    intro tag kind
    constructor
    · intro h
      unfold edgeKindOf at h
      split at h <;> cases h <;> rfl
    · intro h
      subst h
      cases kind <;> rfl

instance edgeField : Field edge encodeEdge where
  reads := by
    refine (seq3 Edge.mk).respell ?_
    intro e word
    constructor
    · intro h
      obtain ⟨_,_,_,rfl,rfl⟩ := h
      rfl
    · intro h
      exact ⟨_,_,_,rfl,h⟩

instance bindingKindField : Field bindingKind encodeBindingKind where
  reads := by
    refine taggedBody ?_ (fun a => by cases a <;> exact ⟨_,_,rfl⟩)
    intro tagAt tag
    refine Reads.intro ?_ ?_
    · intro s a s' inside h
      unfold bindingKindBody at h
      split at h
      case h_1 | h_2 =>
        obtain ⟨_,tail,⟨rfl,rfl⟩,here,rfl⟩ := (readsPure _).forward inside h
        exact ⟨_,tail,rfl,here,rfl⟩
      case h_3 =>
        obtain ⟨_,tail,⟨edge,name,rfl,rfl⟩,here,rfl⟩ := (seq2 _).forward inside h
        exact ⟨_,tail,rfl,here,rfl⟩
      case h_4 =>
        obtain ⟨_,tail,⟨edge,rfl,rfl⟩,here,rfl⟩ := (seq1 _).forward inside h
        exact ⟨_,tail,rfl,here,rfl⟩
      case h_5 => cases h
    · intro s a word tail inside spelled here
      cases a with
      | hoisted => cases spelled; exact (readsPure _).backward inside ⟨rfl,rfl⟩ here
      | lexical => cases spelled; exact (readsPure _).backward inside ⟨rfl,rfl⟩ here
      | imported edge name => cases spelled; exact (seq2 _).backward inside ⟨_,_,rfl,rfl⟩ here
      | «namespace» edge => cases spelled; exact (seq1 _).backward inside ⟨_,rfl,rfl⟩ here

instance bindingField : Field binding encodeBinding where
  reads := by
    refine (seq2 Binding.mk).respell ?_
    intro b word
    constructor
    · intro h
      obtain ⟨_,_,rfl,rfl⟩ := h
      rfl
    · intro h
      exact ⟨_,_,rfl,h⟩

instance exportSourceField : Field exportSource encodeExportSource where
  reads := by
    refine taggedBody ?_ (fun a => by cases a <;> exact ⟨_,_,rfl⟩)
    intro tagAt tag
    refine Reads.intro ?_ ?_
    · intro s a s' inside h
      unfold exportSourceBody at h
      split at h
      · obtain ⟨_,tail,⟨binding,rfl,rfl⟩,here,rfl⟩ := (seq1 _).forward inside h
        exact ⟨_,tail,rfl,here,rfl⟩
      · obtain ⟨_,tail,⟨edge,name,rfl,rfl⟩,here,rfl⟩ := (seq2 _).forward inside h
        exact ⟨_,tail,rfl,here,rfl⟩
      · cases h
    · intro s a word tail inside spelled here
      cases a with
      | «local» binding => cases spelled; exact (seq1 _).backward inside ⟨_,rfl,rfl⟩ here
      | indirect edge name => cases spelled; exact (seq2 _).backward inside ⟨_,_,rfl,rfl⟩ here

instance exportEntryField : Field exportEntry encodeExport where
  reads := by
    refine (seq2 Export.mk).respell ?_
    intro e word
    constructor
    · intro h
      obtain ⟨_,_,rfl,rfl⟩ := h
      rfl
    · intro h
      exact ⟨_,_,rfl,h⟩

theorem steadySlot (count) (limit : UInt32) (total) :
    Steady (fun s : ProgramDecoder => s.slot total + count ≤ limit.toNat)
      (fun s => s.setSlot (s.slot total + count) total) := by
  constructor
  · intro s; cases total <;> rfl
  · intro s inside; cases total <;> exact inside
  · intro n s; cases total <;> rfl
  · intro n s; cases total <;> rfl

theorem addTotalRuns (field count limit total s s') :
    addTotal field count limit total s = .ok ((),s') ↔
      s.slot total + count ≤ limit.toNat ∧ s' = s.setSlot (s.slot total + count) total := by
  unfold addTotal
  dsimp only
  split
  · constructor
    · intro h; cases h
    · intro h; omega
  · constructor
    · intro h; cases h; exact ⟨by omega,rfl⟩
    · intro h; rw [h.2]

/- One linkage table: its count, the running total, then its rows. -/
theorem readsSection {α β} (item : ProgramDecode α) {write : α → Bytes} [Field item write]
    {f : List α → ProgramDecode β} {g} (field limit totalField totalLimit total) (tail : ∀ as, Reads (f as) (g as) ∧ Local (g as)) :
    Reads (do
      let n ← count field limit
      addTotal totalField n.toNat totalLimit total
      let as ← readN item n.toNat
      f as) (after (fun n word => word = writeU32 n ∧ n.toNat ≤ limit.toNat) fun n =>
        bump (fun s => s.slot total + n.toNat ≤ totalLimit.toNat) (fun s => s.setSlot (s.slot total + n.toNat) total)
        (after (fun as word => as.length = n.toNat ∧ word = as.flatMap write) g)) ∧
    Local (after (fun (n : UInt32) word => word = writeU32 n ∧ n.toNat ≤ limit.toNat) fun n =>
        bump (fun s => s.slot total + n.toNat ≤ totalLimit.toNat) (fun s => s.setSlot (s.slot total + n.toNat) total)
        (after (fun as word => as.length = n.toNat ∧ word = as.flatMap write) g)) :=
  readsAfter (readsLimited field limit.toNat) fun n =>
    readsBump (steadySlot n.toNat totalLimit total) (addTotalRuns totalField n.toNat totalLimit total)
      (readsAfter (readsFields n.toNat) tail)

theorem steadyBytes (length) (limit : UInt64) :
    Steady (fun s : ProgramDecoder => s.totalModuleBytes + length ≤ limit.toNat)
      (fun s => { s with totalModuleBytes := s.totalModuleBytes + length }) :=
  ⟨fun _ => rfl,fun _ inside => inside,fun _ _ => Iff.rfl,fun _ _ => rfl⟩

theorem addModuleBytesRuns (limits length s s') :
    addModuleBytes limits length s = .ok ((),s') ↔
      s.totalModuleBytes + length ≤ limits.maxTotalModuleBytes.toNat ∧
      s' = { s with totalModuleBytes := s.totalModuleBytes + length } := by
  have width := limits.maxTotalModuleBytes.toNat_lt
  have top : usizeMax = 2^64 - 1 := rfl
  unfold addModuleBytes
  dsimp only
  split
  · constructor
    · intro h; cases h
    · intro h; omega
  · split
    · constructor
      · intro h; cases h
      · intro h; omega
    · constructor
      · intro h; cases h; exact ⟨by omega,rfl⟩
      · intro h; rw [h.2]

theorem readsCode (limits id blobOffset blob) :
    Reads (code limits id blobOffset blob)
      (plain fun m word => decode blob (moduleLimits limits) = .ok m ∧ word = []) := by
  cases decoded : decode blob (moduleLimits limits) with
  | error e =>
    refine Reads.intro ?_ ?_
    · intro s m s' _ h
      unfold code at h
      rw [decoded] at h
      cases h
    · intro s m word tail _ h
      cases h.1
  | ok m =>
    have same : code limits id blobOffset blob = pure m := by
      unfold code
      rw [decoded]
      rfl
    rw [same]
    refine (readsPure m).respell ?_
    intro m' word
    rw [Except.ok.injEq,eq_comm]

def spend (s : ProgramDecoder) (m : ProgramModule) : ProgramDecoder :=
  { s with
    totalModuleBytes := s.totalModuleBytes + m.code.encode.length
    totalEdges := s.totalEdges + m.edges.length
    totalBindings := s.totalBindings + m.bindings.length
    totalExports := s.totalExports + m.exports.length }

structure Within (limits : ProgramDecodeLimits) (s : ProgramDecoder) : Prop where
  moduleBytes : s.totalModuleBytes ≤ limits.maxTotalModuleBytes.toNat
  edges : s.totalEdges ≤ limits.maxTotalEdges.toNat
  bindings : s.totalBindings ≤ limits.maxTotalBindings.toNat
  exports : s.totalExports ≤ limits.maxTotalExports.toNat

end ProgramDecoder

-- The per-module ceilings, those of the nested module decoder included.
structure WithinModule (limits : ProgramDecodeLimits) (m : ProgramModule) : Prop where
  bytes : m.code.encode.length ≤ limits.maxModuleBytes.toNat
  nestedBytes : m.code.encode.length ≤ limits.module.maxBytes
  nested : ModuleFits limits.module m.code
  edges : m.edges.length ≤ limits.maxEdgesPerModule.toNat
  bindings : m.bindings.length ≤ limits.maxBindingsPerModule.toNat
  exports : m.exports.length ≤ limits.maxExportsPerModule.toNat

-- What the encoder can spell: the blob length in a `u32`, the function names off by one.
structure Spellable (m : ProgramModule) : Prop where
  blob : m.code.encode.length < 2^32
  names : ∀ f ∈ m.code.functions, NameFits f.name

namespace ProgramDecoder

def moduleGrammar (limits : ProgramDecodeLimits) : Grammar ProgramDecoder ProgramModule := fun s m word t =>
  word = encodeModule m ∧ Spellable m ∧ WithinModule limits m ∧ Within limits (spend s m) ∧ t = spend s m

theorem moduleLocal (limits) : Local (moduleGrammar limits) := by
  constructor
  · intro s m word t h
    obtain ⟨_,_,_,_,rfl⟩ := h
    exact ⟨rfl,id⟩
  · intro n s m word u
    constructor
    · intro h
      obtain ⟨spelled,ok,fits,total,rfl⟩ := h
      exact ⟨spend s m,⟨spelled,ok,fits,⟨total.1,total.2,total.3,total.4⟩,rfl⟩,rfl⟩
    · intro h
      obtain ⟨t,⟨spelled,ok,fits,total,rfl⟩,rfl⟩ := h
      exact ⟨spelled,ok,fits,⟨total.1,total.2,total.3,total.4⟩,rfl⟩

theorem nestedFits (limits m) :
    ModuleFits (moduleLimits limits) m ↔ ModuleFits limits.module m := by
  constructor
  · intro h
    refine ⟨h.constants,h.constant,h.functions,?_,h.total⟩
    intro f member
    have fits := h.function f member
    exact ⟨fits.captures,fits.parameters,fits.registers,fits.instructions,fits.handlers⟩
  · intro h
    refine ⟨h.constants,h.constant,h.functions,?_,h.total⟩
    intro f member
    have fits := h.function f member
    exact ⟨fits.captures,fits.parameters,fits.registers,fits.instructions,fits.handlers⟩

theorem countOf {n : UInt32} {size} (same : size = n.toNat) : n = UInt32.ofNat size := by
  rw [same,UInt32.ofNat_toNat]

theorem readsModule (limits id) :
    Reads (module limits id) (moduleGrammar limits) := by
  have exports := fun (name : ConstantId) (code : Module) (edges : List Edge) (bindings : List Binding) =>
    readsSection exportEntry "exports" limits.maxExportsPerModule "total exports" limits.maxTotalExports .exports
      fun exports => ⟨readsPure (ProgramModule.mk name code edges bindings exports),plainLocal _⟩
  have bindings := fun (name : ConstantId) (code : Module) (edges : List Edge) =>
    readsSection binding "bindings" limits.maxBindingsPerModule "total bindings" limits.maxTotalBindings .bindings
      fun bindings => exports name code edges bindings
  have edges := fun (name : ConstantId) (code : Module) =>
    readsSection edge "edges" limits.maxEdgesPerModule "total edges" limits.maxTotalEdges .edges
      fun edges => bindings name code edges
  have blob := fun (name : ConstantId) (n : UInt32) (blobOffset : Nat) =>
    readsAfter (readsSlice n.toNat) fun blob => readsAfter (readsCode limits id blobOffset blob) fun code => edges name code
  have whole := readsAfter constantIdField.reads fun name =>
    readsAfter (readsLimited "module bytes" limits.maxModuleBytes.toNat) fun n =>
    readsBump (steadyBytes n.toNat limits.maxTotalModuleBytes) (addModuleBytesRuns limits n.toNat)
      ⟨readsHere fun blobOffset => (blob name n blobOffset).1,(blob name n 0).2⟩
  refine Reads.congr whole.1 ?_
  intro s m word t
  constructor
  · intro h
    obtain ⟨name,_,_,rfl,h,rfl⟩ := h
    obtain ⟨n,_,_,⟨rfl,short⟩,⟨bytesTotal,h⟩,rfl⟩ := h
    obtain ⟨blob,_,_,⟨rfl,size⟩,h,rfl⟩ := h
    obtain ⟨code,_,_,⟨decoded,rfl⟩,h,rfl⟩ := h
    obtain ⟨k,_,_,⟨rfl,fewEdges⟩,⟨edgesTotal,h⟩,rfl⟩ := h
    obtain ⟨edges,_,_,⟨edgesSize,rfl⟩,h,rfl⟩ := h
    obtain ⟨k',_,_,⟨rfl,fewBindings⟩,⟨bindingsTotal,h⟩,rfl⟩ := h
    obtain ⟨bindings,_,_,⟨bindingsSize,rfl⟩,h,rfl⟩ := h
    obtain ⟨k'',_,_,⟨rfl,fewExports⟩,⟨exportsTotal,h⟩,rfl⟩ := h
    obtain ⟨exports,_,_,⟨exportsSize,rfl⟩,⟨⟨rfl,rfl⟩,rfl⟩,rfl⟩ := h
    obtain ⟨rfl,small,names,fits⟩ := (decodeExact _ _ _).mp decoded
    have width := n.toNat_lt
    have bounded : code.encode.length < 2^32 := by omega
    obtain ⟨nestedBytes,bytes⟩ := Nat.le_min.mp small
    refine ⟨?_,⟨bounded,names⟩,?_,?_,?_⟩
    · rw [countOf size,countOf edgesSize,countOf bindingsSize,countOf exportsSize,List.append_nil]
      rfl
    · rw [← edgesSize] at fewEdges
      rw [← bindingsSize] at fewBindings
      rw [← exportsSize] at fewExports
      exact ⟨bytes,nestedBytes,(nestedFits limits code).mp fits,fewEdges,fewBindings,fewExports⟩
    · rw [← size] at bytesTotal
      rw [← edgesSize] at edgesTotal
      rw [← bindingsSize] at bindingsTotal
      rw [← exportsSize] at exportsTotal
      exact ⟨bytesTotal,edgesTotal,bindingsTotal,exportsTotal⟩
    · unfold spend
      rw [size,edgesSize,bindingsSize,exportsSize]
      rfl
  · intro h
    obtain ⟨rfl,ok,fits,total,rfl⟩ := h
    have castOf : ∀ {n : Nat}, n < 2^32 → (UInt32.ofNat n).toNat = n := fun small => UInt32.toNat_ofNat_of_lt' small
    have decoded : decode m.code.encode (moduleLimits limits) = .ok m.code :=
      (decodeExact _ _ _).mpr ⟨rfl,Nat.le_min.mpr ⟨fits.nestedBytes,fits.bytes⟩,ok.names,
        (nestedFits limits m.code).mpr fits.nested⟩
    have bytes := castOf ok.blob
    obtain ⟨edges,fewEdges⟩ := countCast fits.edges
    obtain ⟨bindings,fewBindings⟩ := countCast fits.bindings
    obtain ⟨exports,fewExports⟩ := countCast fits.exports
    refine ⟨m.name,_,_,rfl,⟨_,_,_,⟨rfl,?_⟩,⟨?_,⟨m.code.encode,_,_,⟨rfl,bytes.symm⟩,⟨m.code,_,_,⟨decoded,rfl⟩,
      ⟨_,_,_,⟨rfl,?_⟩,⟨?_,⟨m.edges,_,_,⟨edges.symm,rfl⟩,⟨_,_,_,⟨rfl,?_⟩,⟨?_,⟨m.bindings,_,_,⟨bindings.symm,rfl⟩,
      ⟨_,_,_,⟨rfl,?_⟩,⟨?_,⟨m.exports,_,[],⟨exports.symm,rfl⟩,⟨⟨rfl,rfl⟩,?_⟩,
      (List.append_nil _).symm⟩⟩,rfl⟩,rfl⟩⟩,rfl⟩,rfl⟩⟩,rfl⟩,rfl⟩,rfl⟩⟩,rfl⟩,rfl⟩
    · rw [bytes]
      exact fits.bytes
    · rw [bytes]
      exact total.moduleBytes
    · exact UInt32.le_iff_toNat_le.mp fewEdges
    · rw [edges]
      exact total.edges
    · exact UInt32.le_iff_toNat_le.mp fewBindings
    · rw [bindings]
      exact total.bindings
    · exact UInt32.le_iff_toNat_le.mp fewExports
    · rw [exports]
      exact total.exports
    · unfold spend
      rw [bytes,edges,bindings,exports]
      rfl

theorem withinBefore {limits s} (modules : List ProgramModule) (after : Within limits (modules.foldl spend s)) : Within limits s := by
  induction modules generalizing s with
  | nil => exact after
  | cons m rest ih =>
    have next : Within limits (spend s m) := ih after
    exact ⟨Nat.le_of_add_right_le next.moduleBytes,Nat.le_of_add_right_le next.edges,
      Nat.le_of_add_right_le next.bindings,Nat.le_of_add_right_le next.exports⟩

theorem rowModules (limits s t modules) (word : Bytes) (start : Within limits s) :
    row (moduleGrammar limits) s modules word t ↔
      word = modules.flatMap encodeModule ∧ (∀ m ∈ modules, Spellable m ∧ WithinModule limits m) ∧
      Within limits (modules.foldl spend s) ∧ t = modules.foldl spend s := by
  induction modules generalizing s word with
  | nil =>
    constructor
    · intro h
      obtain ⟨rfl,rfl⟩ := h
      exact ⟨rfl,by simp,start,rfl⟩
    · intro h
      obtain ⟨rfl,_,_,rfl⟩ := h
      exact ⟨rfl,rfl⟩
  | cons m rest ih =>
    rw [List.flatMap_cons,List.forall_mem_cons,List.foldl_cons]
    constructor
    · intro h
      obtain ⟨left,right,mid,⟨rfl,ok,fits,total,rfl⟩,others,rfl⟩ := h
      obtain ⟨rfl,all,totals,rfl⟩ := (ih _ _ total).mp others
      exact ⟨rfl,⟨⟨ok,fits⟩,all⟩,totals,rfl⟩
    · intro h
      obtain ⟨rfl,⟨⟨ok,fits⟩,all⟩,totals,rfl⟩ := h
      have total := withinBefore rest totals
      exact ⟨_,_,_,⟨rfl,ok,fits,total,rfl⟩,(ih _ _ total).mpr ⟨rfl,all,totals,rfl⟩,rfl⟩

theorem readsExpect (expected kind) :
    Reads (expect expected kind) (plain fun _ word => word = [expected]) :=
  readsExpected (ProgramDecodeError.mk · .unexpectedEof) (fun start actual => ProgramDecodeError.mk start (kind actual))
    expected

theorem readsMagic (expected) : Reads (checkMagic expected) (plain fun _ word => word = expected) := by
  have same : checkMagic expected =
      literal (fun start => ⟨start,.unexpectedEof⟩) (fun b start actual => ⟨start,.badMagic b actual⟩) expected := by
    induction expected with
    | nil => rfl
    | cons b rest ih => rw [checkMagic,literal,ih]; rfl
  rw [same]
  exact readsLiteral _ _ expected

/- The program with its module table left as a row, whose totals run along. -/
def programGrammar (limits : ProgramDecodeLimits) : Grammar ProgramDecoder Program := fun s p word t =>
  ∃ table, p.modules.length ≤ limits.maxModules.toNat ∧ row (moduleGrammar limits) s p.modules table t ∧
    word = programMagic ++ ([programVersion] ++ (writeModuleId p.entry ++
      (writeU32 (UInt32.ofNat p.modules.length) ++ table)))

theorem readsProgram (limits) : Reads (program limits) (programGrammar limits) := by
  have whole := readsAfter (readsMagic programMagic) fun _ =>
    readsAfter (readsExpect programVersion .unsupportedVersion) fun _ =>
    readsAfter moduleIdField.reads fun entry => readsAfter (readsLimited "modules" limits.maxModules.toNat) fun k =>
    readsRow (fun index => readsModule limits ⟨UInt32.ofNat index⟩) (moduleLocal limits) 0 k.toNat
      fun modules => Program.mk modules entry
  refine Reads.congr whole.1 ?_
  intro s p word t
  constructor
  · intro h
    obtain ⟨_,_,_,rfl,⟨_,_,_,rfl,⟨entry,_,_,rfl,⟨k,_,_,⟨rfl,few⟩,⟨modules,rfl,size,spelled⟩,rfl⟩,rfl⟩,rfl⟩,rfl⟩ := h
    refine ⟨_,?_,spelled,?_⟩
    · change modules.length ≤ _
      rw [size]
      exact few
    · rw [countOf size]
  · intro h
    obtain ⟨table,few,spelled,rfl⟩ := h
    obtain ⟨cast,below⟩ := countCast few
    exact ⟨(),_,_,rfl,⟨(),_,_,rfl,⟨p.entry,_,_,rfl,⟨_,_,_,⟨rfl,UInt32.le_iff_toNat_le.mp below⟩,
      ⟨p.modules,rfl,cast.symm,spelled⟩,rfl⟩,rfl⟩,rfl⟩,rfl⟩

end ProgramDecoder

-- The limits as the claim lists them: per module, running totals, nested limits.
structure WithinProgram (limits : ProgramDecodeLimits) (p : Program) : Prop where
  bytes : p.encode.length ≤ limits.maxBytes.toNat
  modules : p.modules.length ≤ limits.maxModules.toNat
  module : ∀ m ∈ p.modules, WithinModule limits m
  totalModuleBytes : (p.modules.map fun m => m.code.encode.length).sum ≤ limits.maxTotalModuleBytes.toNat
  totalEdges : (p.modules.map fun m => m.edges.length).sum ≤ limits.maxTotalEdges.toNat
  totalBindings : (p.modules.map fun m => m.bindings.length).sum ≤ limits.maxTotalBindings.toNat
  totalExports : (p.modules.map fun m => m.exports.length).sum ≤ limits.maxTotalExports.toNat

theorem spendAll (modules : List ProgramModule) (s) :
    modules.foldl ProgramDecoder.spend s =
      { s with
        totalModuleBytes := s.totalModuleBytes + (modules.map fun m => m.code.encode.length).sum
        totalEdges := s.totalEdges + (modules.map fun m => m.edges.length).sum
        totalBindings := s.totalBindings + (modules.map fun m => m.bindings.length).sum
        totalExports := s.totalExports + (modules.map fun m => m.exports.length).sum } := by
  induction modules generalizing s with
  | nil => rfl
  | cons m rest ih => rw [List.foldl_cons,ih]; simp [ProgramDecoder.spend,Nat.add_assoc]

theorem programRun (bytes limits p s) :
    ProgramDecoder.program limits ⟨bytes,0,0,0,0,0⟩ = .ok (p,s) ↔ ∃ tail, bytes = p.encode ++ tail ∧
      p.modules.length ≤ limits.maxModules.toNat ∧ (∀ m ∈ p.modules, Spellable m ∧ WithinModule limits m) ∧
      ProgramDecoder.Within limits (p.modules.foldl ProgramDecoder.spend ⟨bytes,0,0,0,0,0⟩) ∧
      s = Cursor.advance p.encode.length (p.modules.foldl ProgramDecoder.spend ⟨bytes,0,0,0,0,0⟩) := by
  have inside : Cursor.Inside (⟨bytes,0,0,0,0,0⟩ : ProgramDecoder) := Nat.zero_le _
  have start : ProgramDecoder.Within limits ⟨bytes,0,0,0,0,0⟩ :=
    ⟨Nat.zero_le _,Nat.zero_le _,Nat.zero_le _,Nat.zero_le _⟩
  have rows := fun t table => ProgramDecoder.rowModules limits ⟨bytes,0,0,0,0,0⟩ t p.modules table start
  rw [ProgramDecoder.readsProgram limits ⟨bytes,0,0,0,0,0⟩ p s inside]
  constructor
  · intro h
    obtain ⟨word,tail,t,⟨table,few,spelled,rfl⟩,here,rfl⟩ := h
    obtain ⟨rfl,all,totals,rfl⟩ := (rows t table).mp spelled
    exact ⟨tail,here,few,all,totals,rfl⟩
  · intro h
    obtain ⟨tail,here,few,all,totals,rfl⟩ := h
    exact ⟨_,tail,_,⟨_,few,(rows _ _).mpr ⟨rfl,all,totals,rfl⟩,rfl⟩,here,rfl⟩

theorem decodeProgramExact (bytes limits p) :
    decodeProgram bytes limits = .ok p ↔
      bytes = p.encode ∧ (∀ m ∈ p.modules, Spellable m) ∧ WithinProgram limits p := by
  unfold decodeProgram
  constructor
  · intro h
    split at h
    · cases h
    · rename_i small
      cases ran : ProgramDecoder.program limits ⟨bytes,0,0,0,0,0⟩ with
      | error e => rw [ran] at h; cases h
      | ok result =>
        obtain ⟨p',s⟩ := result
        rw [ran] at h
        dsimp only at h
        split at h
        · cases h
        · rename_i finished
          cases h
          obtain ⟨tail,here,few,all,totals,rfl⟩ := (programRun bytes limits p s).mp ran
          rw [spendAll] at totals finished
          have reached : 0 + p.encode.length = bytes.length := not_not.mp finished
          have none : tail = [] := by
            have size := congrArg List.length here
            rw [List.length_append] at size
            exact List.length_eq_zero_iff.mp (by omega)
          rw [none,List.append_nil] at here
          refine ⟨here,fun m member => (all m member).1,by omega,few,fun m member => (all m member).2,?_,?_,?_,?_⟩
          · simpa using totals.moduleBytes
          · simpa using totals.edges
          · simpa using totals.bindings
          · simpa using totals.exports
  · intro h
    obtain ⟨whole,ok,within⟩ := h
    have totals : ProgramDecoder.Within limits (p.modules.foldl ProgramDecoder.spend ⟨bytes,0,0,0,0,0⟩) := by
      rw [spendAll]
      constructor
      · simpa using within.totalModuleBytes
      · simpa using within.totalEdges
      · simpa using within.totalBindings
      · simpa using within.totalExports
    have ran := (programRun bytes limits p _).mpr ⟨[],whole.trans (List.append_nil _).symm,within.modules,
      fun m member => ⟨ok m member,within.module m member⟩,totals,rfl⟩
    have small := within.bytes
    rw [← whole] at small
    rw [if_neg (by omega),ran]
    dsimp only
    rw [if_neg]
    rw [spendAll]
    change ¬0 + p.encode.length ≠ bytes.length
    rw [whole,Nat.zero_add]
    exact fun differs => differs rfl

/- The round trip holds exactly for the programs whose blob lengths fit the `u32` they are
cast to; the envelope itself is canonical without exception. -/
theorem programCodecExact {p : Program} {limits : ProgramDecodeLimits} (linked : Linked p) (within : WithinProgram limits p) :
    (decodeProgram p.encode limits = .ok p ↔ ∀ m ∈ p.modules, m.code.encode.length < 2^32) ∧
    (∀ bytes limits q, decodeProgram bytes limits = .ok q → q.encode = bytes) := by
  constructor
  · rw [decodeProgramExact]
    constructor
    · intro h m member
      exact (h.2.1 m member).blob
    · intro fit
      refine ⟨rfl,?_,within⟩
      intro m member
      obtain ⟨certificates,verified⟩ := linked.verified m member
      exact ⟨fit m member,verifiedName verified⟩
  · intro bytes limits q decoded
    exact ((decodeProgramExact _ _ _).mp decoded).1.symm

theorem stubFits (names bytes units) (few : names.length ≤ 1048576) (short : ∀ name ∈ names, name.length ≤ units.toNat) :
    ModuleFits { DecodeLimits.default with maxBytes := bytes,maxStringUnits := units } (stubCode names) := by
  constructor
  · unfold stubCode
    rw [List.length_map]
    exact few
  · intro c member
    obtain ⟨name,inside,rfl⟩ := List.mem_map.mp member
    exact short name inside
  · exact (by decide : 1 ≤ maxFunctions.toNat)
  · intro f member
    rcases List.mem_singleton.mp member with rfl
    have fits : FunctionFits DecodeLimits.default ⟨none,0,1,1,⟨false,false,false⟩,[.ret ⟨0⟩],[]⟩ :=
      ⟨by decide,by decide,by decide,by decide,by decide⟩
    exact ⟨fits.captures,fits.parameters,fits.registers,fits.instructions,fits.handlers⟩
  · exact (by decide : 1 ≤ DecodeLimits.default.maxTotalInstructions.toNat)

theorem programCodecExactReentrant : decodeProgram reentrant.encode ProgramDecodeLimits.default = .ok reentrant := by
  have within : WithinProgram ProgramDecodeLimits.default reentrant := by
    refine ⟨by decide +kernel,by decide,?_,by decide +kernel,by decide,by decide,by decide⟩
    intro m member
    rcases List.mem_cons.mp member with rfl | member
    · exact ⟨by decide,by decide,stubFits _ _ _ (by decide) (by decide),by decide,by decide,by decide⟩
    · rcases List.mem_singleton.mp member with rfl
      exact ⟨by decide,by decide,stubFits _ _ _ (by decide) (by decide),by decide,by decide,by decide⟩
  exact (programCodecExact reentrantLinked within).1.mpr (by decide)

def bulky (units : List UInt16) : Program where
  modules := [⟨⟨0⟩,stubCode [[109],units],[],[],[]⟩]
  entry := ⟨0⟩

def wideLimits : ProgramDecodeLimits where
  maxBytes := 1099511627776
  maxModules := 1
  maxModuleBytes := 1099511627776
  maxTotalModuleBytes := 1099511627776
  maxEdgesPerModule := 0
  maxBindingsPerModule := 0
  maxExportsPerModule := 0
  maxTotalEdges := 0
  maxTotalBindings := 0
  maxTotalExports := 0
  module := { DecodeLimits.default with maxBytes := 1099511627776,maxStringUnits := 4294967295 }

theorem bulkyLinked (units) : Linked (bulky units) := by
  refine ⟨?_,rfl⟩
  intro m member
  rcases List.mem_singleton.mp member with rfl
  exact ⟨_,rfl⟩

theorem writeU32Length (n) : (writeU32 n).length ≤ 5 := by
  have groups : ∀ fuel r, (Leb128.writeGroups fuel r).length ≤ fuel := by
    intro fuel
    induction fuel with
    | zero => intro r; exact Nat.le_refl 0
    | succ fuel ih =>
      intro r
      rw [Leb128.writeGroupsStep]
      split
      · simp
      · rw [List.length_cons]
        exact Nat.succ_le_succ (ih _)
  exact groups 5 n

theorem bulkyLength (units) :
    units.length * 2 ≤ (stubCode [[109],units]).encode.length ∧
    (stubCode [[109],units]).encode.length ≤ units.length * 2 + 64 := by
  have long := Decoder.unitsLength units
  have count := writeU32Length (UInt32.ofNat units.length)
  have header : magic.length = 8 := rfl
  have body : (encodeFunction ⟨none,0,1,1,⟨false,false,false⟩,[.ret ⟨0⟩],[]⟩).length = 9 := by decide
  have two := writeU32Length (UInt32.ofNat (0 + 1 + 1))
  have one := writeU32Length (UInt32.ofNat (0 + 1))
  have entry : (writeFunctionId ⟨0⟩).length ≤ 5 := writeU32Length 0
  simp only [Module.encode,stubCode,List.map_cons,List.map_nil,List.length_append,List.flatMap_cons,List.flatMap_nil,
    encodeConstant,writeString,EcmaString.toLeBytes,EcmaString.lenUnits,List.length_cons,List.length_nil,leLength,long]
  omega

theorem bulkyWithin (units) (small : units.length < 2^32) : WithinProgram wideLimits (bulky units) := by
  obtain ⟨_,high⟩ := bulkyLength units
  have ceiling : wideLimits.maxBytes.toNat = 1099511627776 := rfl
  have blob : (stubCode [[109],units]).encode.length ≤ 1099511627776 := by omega
  have envelope : (bulky units).encode.length ≤ (stubCode [[109],units]).encode.length + 64 := by
    have header : programMagic.length = 8 := rfl
    have entry : (writeModuleId ⟨0⟩).length ≤ 5 := writeU32Length 0
    have name : (writeConstantId ⟨0⟩).length ≤ 5 := writeU32Length 0
    have one := writeU32Length (UInt32.ofNat (0 + 1))
    have zero := writeU32Length (UInt32.ofNat 0)
    have size := writeU32Length (UInt32.ofNat (stubCode [[109],units]).encode.length)
    simp only [Program.encode,bulky,encodeModule,List.length_append,List.flatMap_cons,List.flatMap_nil,List.length_cons,
      List.length_nil]
    linarith
  refine ⟨by omega,Nat.le_refl 1,?_,?_,Nat.le_refl 0,Nat.le_refl 0,Nat.le_refl 0⟩
  · intro m member
    rcases List.mem_singleton.mp member with rfl
    refine ⟨blob,blob,stubFits _ _ _ (by decide : 2 ≤ 1048576) ?_,Nat.le_refl 0,Nat.le_refl 0,Nat.le_refl 0⟩
    intro name member
    have limit : (4294967295 : UInt32).toNat = 4294967295 := rfl
    rcases List.mem_cons.mp member with rfl | member
    · decide
    · rcases List.mem_singleton.mp member with rfl
      omega
  · change (stubCode [[109],units]).encode.length + 0 ≤ 1099511627776
    omega

/- A module of four gibibytes: the length written in front of its blob is the length
modulo `2^32`, and what the decoder reads back is not the program. -/
theorem programCodecTruncates :
    Linked (bulky (List.replicate (2^31) 0)) ∧ WithinProgram wideLimits (bulky (List.replicate (2^31) 0)) ∧
    decodeProgram (bulky (List.replicate (2^31) 0)).encode wideLimits ≠ .ok (bulky (List.replicate (2^31) 0)) := by
  have size : (List.replicate (2^31) (0 : UInt16)).length = 2^31 := List.length_replicate
  obtain ⟨low,_⟩ := bulkyLength (List.replicate (2^31) 0)
  refine ⟨bulkyLinked _,bulkyWithin _ (by omega),?_⟩
  intro decoded
  obtain ⟨_,spelled,_⟩ := (decodeProgramExact _ _ _).mp decoded
  have short := (spelled _ List.mem_cons_self).blob
  change (stubCode [[109],List.replicate (2^31) 0]).encode.length < 2^32 at short
  omega

end Bamts.Linkage
