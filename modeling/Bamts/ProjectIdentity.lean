import Bamts.ProjectGraph

/-! When the identity of a project's build info tells two projects apart. -/
set_option linter.all false
namespace Bamts.Project

def fed (node : ReferenceNode String) : List String :=
  node.path :: (node.buildInfoPath.toList ++ ([flagText node.composite,flagText node.isIncremental,flagText (node.declaration.getD false),
    flagText node.noEmit] ++ (node.references ++ (node.files ++ (node.include_ ++ node.exclude)))))

-- What the strings of two projects have to agree on for their fields to start at the same places.
structure SameCuts (x y : ReferenceNode String) : Prop where
  buildInfo : x.buildInfoPath.isSome = y.buildInfoPath.isSome
  references : x.references.length = y.references.length
  files : x.files.length = y.files.length
  include_ : x.include_.length = y.include_.length

structure Agree (x y : ReferenceNode String) : Prop where
  path : x.path = y.path
  buildInfo : x.buildInfoPath = y.buildInfoPath
  composite : x.composite = y.composite
  incremental : x.isIncremental = y.isIncremental
  declaration : x.declaration.getD false = y.declaration.getD false
  noEmit : x.noEmit = y.noEmit
  references : x.references = y.references
  files : x.files = y.files
  include_ : x.include_ = y.include_
  exclude : x.exclude = y.exclude

def NulFree (node : ReferenceNode String) : Prop := ∀ text ∈ fed node, 0 ∉ asBytes text

theorem asBytesInjective {s t} (same : asBytes s = asBytes t) : s = t :=
  String.toByteArray_inj.mp (ByteArray.ext (Array.toList_inj.mp same))

theorem flagInjective {a b} (same : flagText a = flagText b) : a = b := by
  cases a with
  | _ =>
    cases b with
    | _ => simp_all [flagText]

theorem toListInjective {α : Type} {a b : Option α} (same : a.toList = b.toList) : a = b := by
  cases a with
  | none =>
    cases b with
    | none => rfl
    | some y => cases same
  | some x =>
    cases b with
    | none => cases same
    | some y =>
      cases same
      rfl

def closed (texts : List String) : List UInt8 := texts.flatMap fun text => asBytes text ++ [0]

theorem feedClosed (texts canonical) :
    texts.foldl (fun canonical text => feedBytes canonical (asBytes text)) canonical = canonical ++ closed texts := by
  induction texts generalizing canonical with
  | nil => simp [closed]
  | cons text rest ih =>
    rw [List.foldl_cons,ih]
    simp [closed,feedBytes]

theorem identityClosed (node) : identityBytes node.path node = closed (fed node) := by
  unfold identityBytes fed
  simp only [feedClosed]
  cases node.buildInfoPath with
  | none => simp [closed,feedBytes]
  | some buildInfo => simp [closed,feedBytes]

theorem cutOnce {a b rest rest' : List UInt8} (freeA : 0 ∉ a) (freeB : 0 ∉ b) (same : a ++ 0 :: rest = b ++ 0 :: rest') : a = b ∧ rest = rest' := by
  induction a generalizing b with
  | nil =>
    cases b with
    | nil => exact ⟨rfl,(List.cons.inj same).2⟩
    | cons y b => exact absurd (List.mem_cons.mpr (.inl (List.cons.inj same).1)) freeB
  | cons x a ih =>
    cases b with
    | nil => exact absurd (List.mem_cons.mpr (.inl (List.cons.inj same).1.symm)) freeA
    | cons y b =>
      obtain ⟨first,later⟩ := List.cons.inj same
      obtain ⟨equal,rest_⟩ := ih (fun inside => freeA (List.mem_cons_of_mem _ inside)) (fun inside => freeB (List.mem_cons_of_mem _ inside)) later
      exact ⟨by rw [first,equal],rest_⟩

/-- Strings without zero bytes can be read back. -/
theorem closedInjective {xs ys} (freeX : ∀ text ∈ xs, 0 ∉ asBytes text) (freeY : ∀ text ∈ ys, 0 ∉ asBytes text)
    (same : closed xs = closed ys) : xs = ys := by
  induction xs generalizing ys with
  | nil =>
    cases ys with
    | nil => rfl
    | cons y ys => simp [closed] at same
  | cons x xs ih =>
    cases ys with
    | nil => simp [closed] at same
    | cons y ys =>
      simp only [closed,List.flatMap_cons,List.append_assoc,List.singleton_append] at same
      obtain ⟨first,later⟩ := cutOnce (freeX x List.mem_cons_self) (freeY y List.mem_cons_self) same
      have rest := ih (fun text inside => freeX text (List.mem_cons_of_mem _ inside)) (fun text inside => freeY text (List.mem_cons_of_mem _ inside)) later
      rw [asBytesInjective first,rest]

theorem cutsAgree {x y} (cuts : SameCuts x y) (same : fed x = fed y) : Agree x y := by
  obtain ⟨path,same⟩ := List.cons.inj same
  have buildInfo : x.buildInfoPath.toList.length = y.buildInfoPath.toList.length := by
    rw [Option.length_toList,Option.length_toList,cuts.buildInfo]
  obtain ⟨buildInfo,same⟩ := List.append_inj same buildInfo
  obtain ⟨flags,same⟩ := List.append_inj same rfl
  obtain ⟨references,same⟩ := List.append_inj same cuts.references
  obtain ⟨files,same⟩ := List.append_inj same cuts.files
  obtain ⟨include_,exclude⟩ := List.append_inj same cuts.include_
  simp only [List.cons.injEq,and_true] at flags
  obtain ⟨composite,incremental,declaration,noEmit⟩ := flags
  exact ⟨path,toListInjective buildInfo,flagInjective composite,flagInjective incremental,flagInjective declaration,flagInjective noEmit,
    references,files,include_,exclude⟩

theorem Agree.cuts {x y} (agree : Agree x y) : SameCuts x y :=
  ⟨congrArg _ agree.buildInfo,congrArg _ agree.references,congrArg _ agree.files,congrArg _ agree.include_⟩

section
variable {Digest : Type} {sha256 : List UInt8 → Digest} {g g' : ReferenceGraph String} {p p' : String} {x y : ReferenceNode String}

theorem identityFed (found : g.nodes.get p = some x) (incremental : x.isIncremental = true) :
    g.tsbuildinfoIdentity sha256 p = some (sha256 (closed (fed x))) := by
  rw [ReferenceGraph.tsbuildinfoIdentity,found,← g.keyed p x found,← identityClosed]
  exact if_pos incremental

/-- Equal identities mean equal projects, unless the same strings are cut into other fields. -/
theorem identityDistinguishes (injective : Function.Injective sha256) (found : g.nodes.get p = some x) (found' : g'.nodes.get p' = some y)
    (incremental : x.isIncremental = true) (incremental' : y.isIncremental = true) (free : NulFree x) (free' : NulFree y) :
    (g.tsbuildinfoIdentity sha256 p = g'.tsbuildinfoIdentity sha256 p' → Agree x y) ↔ SameCuts x y ∨ fed x ≠ fed y := by
  rw [identityFed found incremental,identityFed found' incremental',Option.some.injEq]
  constructor
  · intro distinguishes
    by_cases same : fed x = fed y
    · exact .inl (distinguishes (by rw [same])).cuts
    · exact .inr same
  · intro either same
    have strings := closedInjective free free' (injective same)
    exact cutsAgree (either.resolve_right fun other => other strings) strings

end

def included (pattern : String) : ReferenceNode String := ⟨"/p/tsconfig.json",[],[],[pattern],[],true,none,none,false,some "/p/tsconfig.tsbuildinfo"⟩
def excluded (pattern : String) : ReferenceNode String := ⟨"/p/tsconfig.json",[],[],[],[pattern],true,none,none,false,some "/p/tsconfig.tsbuildinfo"⟩

theorem identityDistinguishesIncludes : (ReferenceGraph.empty.insert (included "a")).tsbuildinfoIdentity id "/p/tsconfig.json" ≠
    (ReferenceGraph.empty.insert (included "b")).tsbuildinfoIdentity id "/p/tsconfig.json" := by
  intro same
  have found : ∀ pattern, (ReferenceGraph.empty.insert (included pattern)).nodes.get "/p/tsconfig.json" = some (included pattern) := fun _ => rfl
  have free : NulFree (included "a") ∧ NulFree (included "b") := by
    unfold NulFree
    decide
  have agree := (identityDistinguishes Function.injective_id (found "a") (found "b") rfl rfl free.1 free.2).mpr (.inl ⟨rfl,rfl,rfl,rfl⟩) same
  exact absurd agree.include_ (by decide)

theorem identityCollides : (ReferenceGraph.empty.insert (included "src")).tsbuildinfoIdentity id "/p/tsconfig.json" =
      (ReferenceGraph.empty.insert (excluded "src")).tsbuildinfoIdentity id "/p/tsconfig.json" ∧
    ¬Agree (included "src") (excluded "src") := by
  refine ⟨rfl,fun agree => ?_⟩
  have apart : (included "src").include_ ≠ (excluded "src").include_ := by decide
  exact apart agree.include_

end Bamts.Project
