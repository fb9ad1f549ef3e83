import Bamts.ProgramLink

/-! The constant specifiers of a linked program: what the link-time scan of the instructions
leaves for the lookup of an import at run time. -/
set_option linter.all false
namespace Bamts.Linkage
open Bytecode
open Outcome (bindOk seqOk rejectIf rejectIfOk eachFrom eachFromOk foldFrom foldFromAt)

inductive ImportTarget where
  | local (target : ModuleId)
  | external (edge : EdgeId)
  deriving DecidableEq, Repr

inductive LookupFault where
  | dynamicImportEdgeMissing (specifier : ConstantId)
  | panicked
  deriving DecidableEq, Repr

def importTarget (index : Nat) : EdgeTarget → ImportTarget
  | .local target => .local target
  | .external => .external ⟨UInt32.ofNat index⟩

def findDynamic (m : ProgramModule) (specifier : ConstantId) (name : EcmaString) :
    Nat → List Edge → Except LookupFault ImportTarget
  | _, [] => .error (.dynamicImportEdgeMissing specifier)
  | index, edge :: rest =>
    if edge.kind.hasDynamic then
      match string m.code edge.specifier with
      | none => .error .panicked
      | some text =>
        if text = name then .ok (importTarget index edge.target) else findDynamic m specifier name (index+1) rest
    else findDynamic m specifier name (index+1) rest

def resolveImport (m : ProgramModule) (specifier : ConstantId) : Except LookupFault ImportTarget :=
  match string m.code specifier with
  | none => .error .panicked
  | some name => findDynamic m specifier name 0 m.edges

def importSpecifier : Instruction → Option ConstantId
  | .import _ specifier | .importAttributes _ specifier _ => some specifier
  | _ => none

def isImport : Instruction → Bool
  | .import .. => true
  | _ => false

structure ImportLinked (m : ProgramModule) (i : Instruction) (specifier : ConstantId) : Prop where
  named : ∃ name, string m.code specifier = some name ∧ isWellFormed name = true ∧
    ∃ edge ∈ m.edges, string m.code edge.specifier = some name ∧ (isImport i = true → edge.kind.hasDynamic = true)
  found : ∃ target, resolveImport m specifier = .ok target

def edgeTable (p : Program) (index : Nat) (m : ProgramModule) : Link (Names EdgeId) :=
  foldFrom (verifyEdge p.modules.length ⟨UInt32.ofNat index⟩ m) 0 [] m.edges

-- Whether the check that linking makes of an `Import` accepts a specifier.
def acceptsImport (p : Program) (index : Nat) (m : ProgramModule) (specifier : ConstantId) : Bool :=
  match edgeTable p index m with
  | .error _ => false
  | .ok specifiers => decide (verifyImport ⟨UInt32.ofNat index⟩ m specifiers specifier = .ok ())

theorem verifyEdgeEntry {moduleCount id m index names out edge} (ok : verifyEdge moduleCount id m index names edge = .ok out) :
    ∃ k, string m.code edge.specifier = some k ∧ names.lookup k = none ∧ out = (k,⟨UInt32.ofNat index⟩) :: names := by
  obtain ⟨k,known,ok⟩ := bindOk.mp ok
  obtain ⟨_,_,ok⟩ := bindOk.mp ok
  obtain ⟨names',inserted,ok⟩ := bindOk.mp ok
  obtain ⟨_,_,ok⟩ := bindOk.mp ok
  cases ok
  obtain ⟨fresh,same⟩ := insertNewOk inserted
  exact ⟨k,(requiredStringOk known).1,fresh,same⟩

-- The table maps the text of every edge to its position, and nothing else.
structure Tabled (m : ProgramModule) (start : Nat) (before after : Names EdgeId) (edges : List Edge) : Prop where
  kept : ∀ name e, before.lookup name = some e → after.lookup name = some e
  named : ∀ edge ∈ edges, ∃ name, string m.code edge.specifier = some name
  listed : ∀ (k : Nat) edge name, edges[k]? = some edge → string m.code edge.specifier = some name →
    after.lookup name = some ⟨UInt32.ofNat (start+k)⟩
  only : ∀ name e, after.lookup name = some e → before.lookup name = some e ∨
    ∃ (k : Nat) (edge : Edge), edges[k]? = some edge ∧ string m.code edge.specifier = some name ∧ e = ⟨UInt32.ofNat (start+k)⟩

theorem tabled {moduleCount id m edges start before after} (ok : foldFrom (verifyEdge moduleCount id m) start before edges = .ok after) :
    Tabled m start before after edges := by
  induction edges generalizing start before with
  | nil =>
    cases ok
    exact ⟨fun _ _ found => found,by simp,by simp,fun _ _ found => .inl found⟩
  | cons edge rest ih =>
    obtain ⟨between,head,tail⟩ := bindOk.mp ok
    obtain ⟨text,known,fresh,rfl⟩ := verifyEdgeEntry head
    obtain ⟨kept,named,listed,only⟩ := ih tail
    have here : after.lookup text = some ⟨UInt32.ofNat start⟩ := kept text _ (by simp)
    refine ⟨?_,?_,?_,?_⟩
    · intro name e found
      have other : (name == text) = false := by
        rw [beq_eq_false_iff_ne]
        intro same
        subst same
        rw [fresh] at found
        cases found
      exact kept name e (by rw [List.lookup_cons,other]; exact found)
    · intro x member
      rcases List.mem_cons.mp member with rfl | later
      · exact ⟨text,known⟩
      · exact named x later
    · intro k x name at_ same
      cases k with
      | zero =>
        cases at_
        rw [known] at same
        cases same
        exact here
      | succ k =>
        have := listed k x name at_ same
        rwa [Nat.add_right_comm] at this
    · intro name e found
      rcases only name e found with old | ⟨k,x,at_,same,rfl⟩
      · rw [List.lookup_cons] at old
        by_cases same : name = text
        · subst same
          simp only [beq_self_eq_true,Option.some.injEq] at old
          exact .inr ⟨0,edge,rfl,known,old.symm⟩
        · rw [beq_eq_false_iff_ne.mpr same] at old
          exact .inl old
      · exact .inr ⟨k+1,x,at_,same,by rw [Nat.add_right_comm]; rfl⟩

theorem findDynamicOk {m specifier name edges index} (named : ∀ edge ∈ edges, ∃ text, string m.code edge.specifier = some text) :
    (∃ target, findDynamic m specifier name index edges = .ok target) ↔
      ∃ edge ∈ edges, string m.code edge.specifier = some name ∧ edge.kind.hasDynamic = true := by
  induction edges generalizing index with
  | nil => simp [findDynamic]
  | cons edge rest ih =>
    obtain ⟨text,known⟩ := named edge List.mem_cons_self
    have later := @ih (index+1) fun x member => named x (List.mem_cons_of_mem _ member)
    simp only [findDynamic,known,List.exists_mem_cons_iff,Option.some.injEq]
    by_cases dynamic : edge.kind.hasDynamic = true
    · by_cases same : text = name
      · simp [dynamic,same]
      · simpa [dynamic,same] using later
    · simpa [dynamic] using later

/-- Once the edges are tabled, the check of an `Import` accepts exactly the specifiers that the
runtime will find. -/
theorem verifyImportExact {id m specifiers specifier} (count : m.edges.length ≤ u32Max) (table : Tabled m 0 [] specifiers m.edges) :
    verifyImport id m specifiers specifier = .ok () ↔
      (∃ name, string m.code specifier = some name ∧ isWellFormed name = true ∧
        ∃ edge ∈ m.edges, string m.code edge.specifier = some name ∧ edge.kind.hasDynamic = true) := by
  have position : ∀ (k : Nat) edge, m.edges[k]? = some edge → (UInt32.ofNat (0+k)).toNat = k := by
    intro k edge at_
    have := (List.getElem?_eq_some_iff.mp at_).1
    rw [Nat.zero_add]
    exact UInt32.toNat_ofNat_of_lt' (by simp only [u32Max] at count; simp only [UInt32.size]; omega)
  unfold verifyImport
  rw [bindOk]
  simp only [orFaultOk]
  refine exists_congr fun name => and_congr_right fun _ => ?_
  rw [seqOk,rejectIfOk,rejectIfOk,not_not,not_not]
  refine and_congr_right fun _ => ?_
  constructor
  · intro found
    cases listed : specifiers.lookup name with
    | none =>
      rw [listed] at found
      cases found
    | some e =>
      rcases table.only name e listed with old | ⟨k,edge,at_,same,rfl⟩
      · cases old
      · simp only [listed,Option.any_some,position k edge at_,at_] at found
        exact ⟨edge,List.mem_of_getElem? at_,same,found⟩
  · intro found
    obtain ⟨edge,member,same,dynamic⟩ := found
    obtain ⟨k,at_⟩ := List.getElem?_of_mem member
    rw [table.listed k edge name at_ same]
    simp only [Option.any_some,position k edge at_,at_,dynamic]

theorem instructionsOk {moduleCount id m} (ok : verifyModuleMetadata moduleCount id m = .ok ()) :
    m.edges.length ≤ u32Max ∧ ∃ specifiers, foldFrom (verifyEdge moduleCount id m) 0 [] m.edges = .ok specifiers ∧
      ∀ f ∈ m.code.functions, ∀ dst specifier, .import dst specifier ∈ f.code →
        verifyImport id m specifiers specifier = .ok () := by
  obtain ⟨edgeCount,ok⟩ := seqOk.mp ok
  obtain ⟨_,ok⟩ := seqOk.mp ok
  obtain ⟨_,ok⟩ := seqOk.mp ok
  obtain ⟨specifiers,edges,ok⟩ := bindOk.mp ok
  obtain ⟨_,_,ok⟩ := bindOk.mp ok
  obtain ⟨_,_,functions⟩ := bindOk.mp ok
  refine ⟨Nat.le_of_not_gt (rejectIfOk.mp edgeCount),specifiers,edges,?_⟩
  intro f member dst specifier inside
  obtain ⟨k,at_⟩ := List.getElem?_of_mem member
  obtain ⟨_,code⟩ := seqOk.mp (eachFromOk.mp functions k f at_)
  obtain ⟨pc,here⟩ := List.getElem?_of_mem inside
  exact eachFromOk.mp code pc _ here

theorem linkedMetadata {p} (linked : Linked p) {index : Nat} {m}
    (at_ : p.modules[index]? = some m) : verifyModuleMetadata p.modules.length ⟨UInt32.ofNat index⟩ m = .ok () := by
  obtain ⟨_,ok⟩ := seqOk.mp linked.metadata
  obtain ⟨_,ok⟩ := seqOk.mp ok
  obtain ⟨_,ok⟩ := seqOk.mp ok
  obtain ⟨_,modules,_⟩ := bindOk.mp ok
  obtain ⟨before,after,ok⟩ := foldFromAt modules at_
  obtain ⟨_,_,ok⟩ := bindOk.mp ok
  obtain ⟨_,_,ok⟩ := bindOk.mp ok
  obtain ⟨_,_,ok⟩ := bindOk.mp ok
  obtain ⟨_,metadata,_⟩ := bindOk.mp ok
  rwa [Nat.zero_add] at metadata

theorem acceptsExact {p} (linked : Linked p) {index m} (at_ : p.modules[index]? = some m) (specifier) :
    acceptsImport p index m specifier = true ↔
      ∃ name, string m.code specifier = some name ∧ isWellFormed name = true ∧
        ∃ edge ∈ m.edges, string m.code edge.specifier = some name ∧ edge.kind.hasDynamic = true := by
  obtain ⟨count,specifiers,edges,_⟩ := instructionsOk (linkedMetadata linked at_)
  have table : edgeTable p index m = .ok specifiers := edges
  rw [acceptsImport,table,decide_eq_true_eq]
  exact verifyImportExact count (tabled edges)

theorem linkedIffAccepted {p} (linked : Linked p) {index m} (at_ : p.modules[index]? = some m) {i specifier} :
    ImportLinked m i specifier ↔ acceptsImport p index m specifier = true := by
  obtain ⟨_,specifiers,edges,_⟩ := instructionsOk (linkedMetadata linked at_)
  have named := (tabled edges).named
  rw [acceptsExact linked at_]
  constructor
  · intro good
    obtain ⟨name,text,formed,_⟩ := good.named
    obtain ⟨target,found⟩ := good.found
    rw [resolveImport,text] at found
    exact ⟨name,text,formed,(findDynamicOk named).mp ⟨target,found⟩⟩
  · intro accepted
    obtain ⟨name,text,formed,edge,member,same,dynamic⟩ := accepted
    refine ⟨⟨name,text,formed,edge,member,same,fun _ => dynamic⟩,?_⟩
    rw [resolveImport,text]
    exact (findDynamicOk named).mpr ⟨edge,member,same,dynamic⟩

/-- Every import of a linked program is linked just when each import with attributes would have
passed the check that linking makes of the imports without. -/
theorem importsLinkedExactly {p : Program} (linked : Linked p) :
    (∀ (index : Nat) m f i specifier, p.modules[index]? = some m → f ∈ m.code.functions → i ∈ f.code →
      importSpecifier i = some specifier → ImportLinked m i specifier) ↔
    ∀ (index : Nat) m f dst specifier attributes, p.modules[index]? = some m → f ∈ m.code.functions →
      .importAttributes dst specifier attributes ∈ f.code → acceptsImport p index m specifier = true := by
  constructor
  · intro all index m f dst specifier attributes at_ member inside
    exact (linkedIffAccepted linked at_).mp (all index m f _ specifier at_ member inside rfl)
  · intro attributed index m f i specifier at_ member inside same
    rw [linkedIffAccepted linked at_]
    cases i with
    | «import» dst constant =>
      cases same
      obtain ⟨count,specifiers,edges,checked⟩ := instructionsOk (linkedMetadata linked at_)
      rw [acceptsExact linked at_]
      exact (verifyImportExact count (tabled edges)).mp (checked f member dst specifier inside)
    | importAttributes dst constant attributes =>
      cases same
      exact attributed index m f dst specifier attributes at_ member inside
    | _ => cases same

-- A module with one import with attributes, of the text `x`, over the given edges.
def attributed (edges : List Edge) : Program where
  modules := [⟨⟨0⟩,⟨[.string ⟨[109]⟩,.string ⟨[120]⟩],
    [⟨none,0,1,1,⟨false,false,false⟩,[.importAttributes ⟨0⟩ ⟨1⟩ ⟨0⟩,.ret ⟨0⟩],[]⟩],⟨0⟩⟩,edges,[],[]⟩]
  entry := ⟨0⟩

theorem attributedLinked {edges} (metadata : verifyProgramMetadata (attributed edges).modules ⟨0⟩ = .ok ()) :
    Linked (attributed edges) := by
  refine ⟨?_,metadata⟩
  intro m member
  rcases List.mem_singleton.mp member with rfl
  exact ⟨_,rfl⟩

theorem importsLinkedExactlyAttributed :
    ∃ m, (attributed [⟨⟨1⟩,.external,.dynamic⟩]).modules[0]? = some m ∧ ImportLinked m (.importAttributes ⟨0⟩ ⟨1⟩ ⟨0⟩) ⟨1⟩ := by
  refine ⟨_,rfl,(importsLinkedExactly (attributedLinked (by decide))).mpr ?_ 0 _ _ _ ⟨1⟩ rfl List.mem_cons_self List.mem_cons_self rfl⟩
  intro index m f dst specifier attributes at_ member inside
  cases index with
  | zero =>
    cases at_
    rcases List.mem_singleton.mp member with rfl
    have : specifier = ⟨1⟩ := by
      rcases List.mem_cons.mp inside with same | later
      · cases same
        rfl
      · cases List.mem_singleton.mp later
    subst this
    decide
  | succ index => cases at_

theorem attributedImportMisses :
    ¬∀ p, Linked p → ∀ (index : Nat) m f i specifier, p.modules[index]? = some m → f ∈ m.code.functions → i ∈ f.code →
      importSpecifier i = some specifier → ImportLinked m i specifier := by
  intro all
  have misses := all (attributed []) (attributedLinked (by decide)) 0 _ _ (.importAttributes ⟨0⟩ ⟨1⟩ ⟨0⟩) ⟨1⟩ rfl
    List.mem_cons_self List.mem_cons_self rfl
  obtain ⟨target,found⟩ := misses.found
  cases found

end Bamts.Linkage
