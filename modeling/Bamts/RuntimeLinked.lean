import Bamts.RuntimeCells

/-! What linking leaves of the cells: two bindings share one exactly when they resolve to the same place,
in every state the program comes to later. -/
set_option linter.all false
namespace Bamts.Runtime
open Effect Bytecode Linkage
open Outcome (bindOk)

def isImmutable : BindingKind → Bool
  | .imported .. | .namespace _ => true
  | .hoisted | .lexical => false

inductive Origin where
  | own (module binding : Nat)
  | outside (specifier name : EcmaString)
  deriving DecidableEq

def outsideOrigin (p : Program) (module : ModuleId) (edge : EdgeId) (name : EcmaString) : Option Origin := do
  let source ← p.module module
  let dependency ← source.edges[edge.get.toNat]?
  let specifier ← string source.code dependency.specifier
  some (.outside specifier name)

def resolvedOrigin (p : Program) : ResolvedExport → Option Origin
  | .local module binding => some (.own module.get.toNat binding.get.toNat)
  | .external module edge name => do
    let source ← p.module module
    let text ← string source.code name
    outsideOrigin p module edge text

def importOrigin (p : Program) (module : ModuleId) (edge : EdgeId) (name : ConstantId) : Option Origin := do
  let source ← p.module module
  let dependency ← source.edges[edge.get.toNat]?
  let text ← string source.code name
  match dependency.target with
  | .external => outsideOrigin p module edge text
  | .local target => (resolveExport p target text).bind (resolvedOrigin p)

def BindingSite.origin (p : Program) (site : BindingSite) : Option Origin :=
  match site.kind with
  | .imported edge name => importOrigin p site.id edge name
  | .hoisted | .lexical | .namespace _ => some (.own site.module site.binding)

def BindingSite.place (site : BindingSite) : Origin := .own site.module site.binding

def Machine.cellAt (m : Machine) : Origin → Option Nat
  | .own module binding => m.boundCell module binding
  | .outside specifier name => (m.externalModule specifier).bind fun source => (source.exports.lookup name).bind (·.cell)

def Owned (p : Program) (o : Origin) : Prop := ∀ site ∈ bindingSites p, o = site.place → site.origin p = some o

structure CellsSound (p : Program) (m : Machine) : Prop where
  distinct : ∀ o o' c, Owned p o → Owned p o' → m.cellAt o = some c → m.cellAt o' = some c → o = o'
  bounded : ∀ o c, m.cellAt o = some c → c < m.registry.cells.length
  aliases : ∀ site ∈ bindingSites p, ∀ c, m.cellAt site.place = some c → ∃ o, site.origin p = some o ∧ Owned p o ∧ m.cellAt o = some c
  shaped : ∀ site ∈ bindingSites p, ∃ found, m.registry.modules[site.module]? = some found ∧ site.binding < found.bindingCells.length

structure Based (p : Program) (m : Machine) : Prop where
  program : m.program = some p
  base : m.dynamicBase = p.modules.length

def Machine.bindingTable (m : Machine) : List (List (Option Nat)) := m.registry.modules.map (·.bindingCells)

-- What a request for a namespace or an outside export leaves alone.
structure Unbound (m t : Machine) : Prop where
  program : t.program = m.program
  base : t.dynamicBase = m.dynamicBase
  table : t.bindingTable = m.bindingTable

theorem Unbound.refl (m) : Unbound m m := ⟨rfl,rfl,rfl⟩

theorem Unbound.trans {m t u} (first : Unbound m t) (second : Unbound t u) : Unbound m u :=
  ⟨second.program.trans first.program,second.base.trans first.base,second.table.trans first.table⟩

theorem Unbound.based {p m t} (same : Unbound m t) (based : Based p m) : Based p t :=
  ⟨same.program.trans based.program,same.base.trans based.base⟩

section
variable {p : Program} {m t : Machine} {o : Origin} {c limit : Nat}

theorem ownedOutside (specifier name) : Owned p (.outside specifier name) := by
  intro site _ same
  cases same

theorem memSites {site} : site ∈ bindingSites p ↔
    ∃ m b, p.modules[site.module]? = some m ∧ m.bindings[site.binding]? = some b ∧ b.kind = site.kind := by
  simp only [bindingSites,List.mem_flatMap,List.mem_map]
  constructor
  · intro listed
    obtain ⟨module,inside,binding,inside',same⟩ := listed
    subst same
    exact ⟨_,_,List.mem_zipIdx_iff_getElem?.mp inside,List.mem_zipIdx_iff_getElem?.mp inside',rfl⟩
  · intro there
    obtain ⟨m,b,module,binding,kind⟩ := there
    exact ⟨(m,site.module),List.mem_zipIdx_iff_getElem?.mpr module,(b,site.binding),List.mem_zipIdx_iff_getElem?.mpr binding,by rw [kind]⟩

theorem siteUnique {site other} (inside : site ∈ bindingSites p) (inside' : other ∈ bindingSites p) (same : site.place = other.place) :
    site = other := by
  obtain ⟨m,b,module,binding,kind⟩ := memSites.mp inside
  obtain ⟨m',b',module',binding',kind'⟩ := memSites.mp inside'
  simp only [BindingSite.place,Origin.own.injEq] at same
  rw [same.1,module'] at module
  cases site
  simp_all

theorem boundTable (m : Machine) (i j) : m.boundCell i j = (m.bindingTable[i]?.bind fun cells => cells[j]?).join := by
  rw [Machine.boundCell,Machine.bindingTable,List.getElem?_map]
  cases m.registry.modules[i]? with
  | none => rfl
  | some found => rfl

theorem shapedTable (same : t.bindingTable = m.bindingTable)
    (shaped : ∀ site ∈ bindingSites p, ∃ found, m.registry.modules[site.module]? = some found ∧ site.binding < found.bindingCells.length) :
    ∀ site ∈ bindingSites p, ∃ found, t.registry.modules[site.module]? = some found ∧ site.binding < found.bindingCells.length := by
  intro site inside
  obtain ⟨found,there,small⟩ := shaped site inside
  have row : m.bindingTable[site.module]? = some found.bindingCells := by rw [Machine.bindingTable,List.getElem?_map,there]; rfl
  rw [← same,Machine.bindingTable,List.getElem?_map,Option.map_eq_some_iff] at row
  obtain ⟨found',there',cells⟩ := row
  exact ⟨found',there',cells ▸ small⟩

theorem CellsSound.claim (sound : CellsSound p m) (owned : Owned p o) (free : m.cellAt o = none)
    (here : t.cellAt o = some m.registry.cells.length) (others : ∀ o', o' ≠ o → t.cellAt o' = m.cellAt o')
    (cells : t.registry.cells.length = m.registry.cells.length+1)
    (shaped : ∀ site ∈ bindingSites p, ∃ found, t.registry.modules[site.module]? = some found ∧ site.binding < found.bindingCells.length) :
    CellsSound p t := by
  have old : ∀ o' c, o' ≠ o → t.cellAt o' = some c → c < m.registry.cells.length := fun o' c other found =>
    sound.bounded o' c (others o' other ▸ found)
  refine ⟨fun a b c ownA ownB atA atB => ?_,fun o' c found => ?_,fun site inside c found => ?_,shaped⟩
  · by_cases first : a = o
    · by_cases second : b = o
      · exact first.trans second.symm
      · rw [first,here] at atA
        exact absurd (old b c second atB) (Nat.not_lt.mpr (Nat.le_of_eq (Option.some.inj atA)))
    · by_cases second : b = o
      · rw [second,here] at atB
        exact absurd (old a c first atA) (Nat.not_lt.mpr (Nat.le_of_eq (Option.some.inj atB)))
      · exact sound.distinct a b c ownA ownB (others a first ▸ atA) (others b second ▸ atB)
  · rw [cells]
    by_cases same : o' = o
    · rw [same,here] at found
      exact Nat.lt_succ_of_le (Nat.le_of_eq (Option.some.inj found).symm)
    · exact Nat.lt_succ_of_lt (old o' c same found)
  · by_cases same : site.place = o
    · exact ⟨o,owned site inside same.symm,owned,same ▸ found⟩
    · obtain ⟨q,origin,own,at_⟩ := sound.aliases site inside c (others _ same ▸ found)
      have other : q ≠ o := by
        intro equal
        rw [equal,free] at at_
        cases at_
      exact ⟨q,origin,own,(others q other).trans at_⟩

theorem CellsSound.share {site} (sound : CellsSound p m) (inside : site ∈ bindingSites p) (origin : site.origin p = some o) (owned : Owned p o)
    (source : m.cellAt o = some c) (free : m.cellAt site.place = none) (here : t.cellAt site.place = some c)
    (others : ∀ o', o' ≠ site.place → t.cellAt o' = m.cellAt o') (cells : t.registry.cells.length = m.registry.cells.length)
    (shaped : ∀ site ∈ bindingSites p, ∃ found, t.registry.modules[site.module]? = some found ∧ site.binding < found.bindingCells.length) :
    CellsSound p t := by
  have apart : o ≠ site.place := by
    intro equal
    rw [equal,free] at source
    cases source
  have alone : ∀ o', Owned p o' → o' ≠ site.place := by
    intro o' own equal
    have itself := own site inside equal
    rw [origin] at itself
    exact apart ((Option.some.inj itself).trans equal)
  refine ⟨fun a b c ownA ownB atA atB => ?_,fun o' c' found => ?_,fun other inside' c' found => ?_,shaped⟩
  · exact sound.distinct a b c ownA ownB (others a (alone a ownA) ▸ atA) (others b (alone b ownB) ▸ atB)
  · rw [cells]
    by_cases same : o' = site.place
    · rw [same,here] at found
      exact Option.some.inj found ▸ sound.bounded o c source
    · exact sound.bounded o' c' (others o' same ▸ found)
  · by_cases same : other.place = site.place
    · rw [same,here] at found
      rw [siteUnique inside' inside same,← Option.some.inj found]
      exact ⟨o,origin,owned,(others o apart).trans source⟩
    · obtain ⟨q,origin',own,at_⟩ := sound.aliases other inside' c' (others _ same ▸ found)
      exact ⟨q,origin',own,(others q (alone q own)).trans at_⟩

theorem lookupUpdate {α} {f : α → α} (key k entries) :
    (updateKey key f entries).lookup k = if k = key then (entries.lookup k).map f else entries.lookup k := by
  induction entries with
  | nil => split <;> rfl
  | cons entry rest ih =>
    have step : updateKey key f (entry :: rest) = (if entry.1 = key then (entry.1,f entry.2) else entry) :: updateKey key f rest := rfl
    rw [step]
    by_cases hit : entry.1 = key
    · rw [if_pos hit,List.lookup_cons,List.lookup_cons,ih,hit]
      by_cases same : k = key
      · rw [if_pos same,if_pos same,beq_iff_eq.mpr same]
        rfl
      · rw [if_neg same,if_neg same,beq_eq_false_iff_ne.mpr same]
    · rw [if_neg hit,List.lookup_cons,List.lookup_cons,ih]
      by_cases same : k = entry.1
      · rw [if_neg (same ▸ hit),if_neg (same ▸ hit)]
      · rw [beq_eq_false_iff_ne.mpr same]

theorem externalCellAt (m : Machine) (specifier name o) :
    (m.setExternalCell specifier name c).cellAt o = if o = .outside specifier name then
      ((m.externalModule specifier).bind fun source => source.exports.lookup name).map fun _ => c else m.cellAt o := by
  cases o with
  | own module binding => rw [if_neg (by simp)]; rfl
  | outside source exported =>
    have registry : (m.setExternalCell specifier name c).registry.external = updateKey specifier (fun source =>
      { source with exports := updateKey name (fun found => { found with cell := some c }) source.exports }) m.registry.external := rfl
    simp only [Machine.cellAt,Machine.externalModule,registry,lookupUpdate,Origin.outside.injEq]
    by_cases first : source = specifier
    · subst first
      rw [if_pos rfl]
      cases m.registry.external.lookup source with
      | none => simp
      | some value =>
        simp only [Option.map_some,Option.bind_some,lookupUpdate,true_and]
        by_cases second : exported = name
        · subst second
          rw [if_pos rfl,if_pos rfl]
          cases value.exports.lookup exported with
          | none => rfl
          | some exported => rfl
        · rw [if_neg second,if_neg second]
    · rw [if_neg first,if_neg fun both => first both.1]

def CellsGrow (p : Program) (m t : Machine) : Prop := Unbound m t ∧ (CellsSound p m → CellsSound p t)

theorem CellsGrow.refl (m) : CellsGrow p m m := ⟨.refl m,id⟩

theorem CellsGrow.trans {u} (first : CellsGrow p m t) (second : CellsGrow p t u) : CellsGrow p m u :=
  ⟨first.1.trans second.1,second.2 ∘ first.2⟩

theorem CellsSound.same (sound : CellsSound p m) (cells : ∀ o, t.cellAt o = m.cellAt o) (more : m.registry.cells.length ≤ t.registry.cells.length)
    (table : t.bindingTable = m.bindingTable) : CellsSound p t := by
  refine ⟨fun a b c ownA ownB atA atB => sound.distinct a b c ownA ownB (cells a ▸ atA) (cells b ▸ atB),
    fun o c found => (sound.bounded o c (cells o ▸ found)).trans_le more,fun site inside c found => ?_,shapedTable table sound.shaped⟩
  obtain ⟨o,origin,owned,at_⟩ := sound.aliases site inside c (cells _ ▸ found)
  exact ⟨o,origin,owned,(cells o).trans at_⟩

theorem cellAtSame (table : t.bindingTable = m.bindingTable) (external : t.registry.external = m.registry.external) (o) :
    t.cellAt o = m.cellAt o := by
  cases o with
  | own module binding => rw [Machine.cellAt,Machine.cellAt,boundTable,boundTable,table]
  | outside specifier name => rw [Machine.cellAt,Machine.cellAt,Machine.externalModule,Machine.externalModule,external]

theorem growSame (same : Unbound m t) (external : t.registry.external = m.registry.external)
    (more : m.registry.cells.length ≤ t.registry.cells.length) : CellsGrow p m t :=
  ⟨same,fun sound => sound.same (cellAtSame same.table external) more same.table⟩

def Machine.pushCell (m : Machine) (value : Value) : Machine := { m with registry.cells := m.registry.cells ++ [value] }

theorem pushLength (m : Machine) (value) : (m.pushCell value).registry.cells.length = m.registry.cells.length+1 := by
  rw [Machine.pushCell,List.length_append,List.length_singleton]

theorem allocateCellSpec (m limit value) :
    After (allocateCell limit value) m (fun c t => c = m.registry.cells.length ∧ t = m.pushCell value) (fun _ t => t = m) := by
  unfold allocateCell
  simp only [afterBind,afterRead,afterIte,afterFail,afterUpdate,afterPure]
  exact ⟨fun _ => trivial,fun _ => ⟨trivial,rfl⟩⟩

theorem afterRequest {α β x} {f : α → Exec β} {Q} (next : ∀ a, x = .ok a → After (f a) m Q (fun _ t => CellsGrow p m t)) :
    After (lift x >>= f) m Q (fun _ t => CellsGrow p m t) := by
  cases x with
  | error fault => exact .refl m
  | ok a => exact next a rfl

theorem externalExportGrows (m module edge name) :
    After (externalExportCell limit module edge name) m
      (fun c t => CellsGrow p m t ∧ ∃ specifier, m.externalSpecifier module edge = .ok (some specifier) ∧ t.cellAt (.outside specifier name) = some c)
      (fun _ t => CellsGrow p m t) := by
  refine afterRequest fun specifier known => ?_
  cases specifier with
  | none => exact .refl m
  | some specifier =>
    dsimp only
    cases listed : (m.externalModule specifier).bind fun source => source.exports.lookup name with
    | none => exact .refl m
    | some found =>
      obtain ⟨source,there,exported⟩ := Option.bind_eq_some_iff.mp listed
      have place : m.cellAt (.outside specifier name) = found.cell := by
        rw [Machine.cellAt,there,Option.bind_some,exported,Option.bind_some]
      dsimp only
      cases cell : found.cell with
      | some c => exact ⟨.refl m,specifier,known,place.trans cell⟩
      | none =>
        rw [afterBind]
        refine (allocateCellSpec m limit found.value).mono (fun c t made => ?_) fun _ t same => by rw [same]; exact .refl m
        obtain ⟨fresh,pushed⟩ := made
        subst fresh pushed
        have at_ := fun o => @externalCellAt m.registry.cells.length (m.pushCell found.value) specifier name o
        have here : ((m.pushCell found.value).setExternalCell specifier name m.registry.cells.length).cellAt (.outside specifier name) =
            some m.registry.cells.length := by
          rw [at_,if_pos rfl,show (m.pushCell found.value).externalModule specifier = some source from there,Option.bind_some,exported,Option.map_some]
        refine ⟨⟨⟨rfl,rfl,rfl⟩,fun sound => ?_⟩,specifier,known,here⟩
        refine sound.claim (ownedOutside specifier name) (place.trans cell) here (fun o other => ?_) (pushLength m found.value) ?_
        · rw [at_,if_neg other]
          exact cellAtSame rfl rfl o
        · exact shapedTable rfl sound.shaped

def Requests {α : Type} (p : Program) (x : Exec α) : Prop := ∀ m, After x m (fun _ t => CellsGrow p m t) (fun _ t => CellsGrow p m t)

theorem requestsPure {α} (a) : Requests p (pure a : Exec α) := fun m => .refl m

theorem requestsFail {α} (fault) : Requests p (fail fault : Exec α) := fun m => .refl m

theorem requestsRead : Requests p (Effect.read : Exec Machine) := fun m => .refl m

theorem requestsLift {α} (x) : Requests p (lift x : Exec α) := by
  intro m
  cases x with
  | error fault => exact .refl m
  | ok a => exact .refl m

theorem Requests.bind {α β x} {f : α → Exec β} (first : Requests p x) (next : ∀ a, Requests p (f a)) : Requests p (x >>= f) := by
  intro m
  rw [afterBind]
  exact (first m).mono (fun a t grown => (next a t).mono (fun _ _ more => grown.trans more) fun _ _ more => grown.trans more) fun _ _ grown => grown

theorem Requests.each {α : Type} {f : α → Exec Unit} (step : ∀ a, Requests p (f a)) (xs : List α) : Requests p (forM xs f) := fun m =>
  afterForM (I := fun _ t => CellsGrow p m t) (fun a _ t grown => (step a t).mono (fun _ _ more => grown.trans more) fun _ _ more => grown.trans more)
    (.refl m)

theorem requestsExport (module edge name) : Requests p (externalExportCell limit module edge name) := fun m =>
  (externalExportGrows m module edge name).mono (fun _ _ grown => grown.1) fun _ _ grown => grown

theorem requestsReexport (target name) : Requests p (linkReexport limit target name) := by
  refine requestsRead.bind fun m => (requestsLift _).bind fun program => ?_
  cases resolveExport program target name with
  | none => exact requestsPure ()
  | some resolved => cases resolved with
    | «local» module binding => exact requestsPure ()
    | external module edge name => exact (requestsLift _).bind fun name => (requestsExport module edge name).bind fun _ => requestsPure ()

theorem requestsAllocate (entry) : Requests p (allocate entry) := by
  have heap : ∀ {m t : Machine}, OnlyHeap m t → CellsGrow p m t := by
    intro m t only
    have registry : t.registry = m.registry := by rw [only]
    exact growSame ⟨by rw [only],by rw [only],by rw [Machine.bindingTable,Machine.bindingTable,registry]⟩ (by rw [registry]) (by rw [registry])
  exact fun m => (allocateFrame m entry).mono (fun _ _ frame => heap frame.1) fun _ _ frame => heap frame.1

theorem requestsModule (target) : Requests p (moduleNamespace limit target) := by
  refine requestsRead.bind fun m => (requestsLift _).bind fun found => ?_
  cases found.namespace_ with
  | some value => exact requestsPure value
  | none =>
    refine (requestsLift _).bind fun source => (requestsLift _).bind fun names =>
      (Requests.each (requestsReexport target) names).bind fun _ => (requestsAllocate _).bind fun value => Requests.bind ?_ fun _ => requestsPure value
    intro t
    have table : (t.registry.modules.modify target.get.toNat fun found => { found with namespace_ := some value }).map (·.bindingCells) =
        t.registry.modules.map (·.bindingCells) := by
      refine List.ext_getElem? fun i => ?_
      rw [List.getElem?_map,List.getElem?_map,List.getElem?_modify]
      split <;> cases t.registry.modules[i]? <;> rfl
    exact growSame ⟨rfl,rfl,table⟩ rfl (Nat.le_refl _)

theorem requestsExternal (module edge) : Requests p (externalNamespace limit module edge) := by
  refine requestsRead.bind fun m => (requestsLift _).bind fun specifier => ?_
  cases specifier with
  | none => exact requestsFail _
  | some specifier =>
    exact (requestsLift _).bind fun source =>
      (Requests.each (fun name => (requestsExport module edge name).bind fun _ => requestsPure ()) _).bind fun _ => requestsPure _

def Ended (p : Program) : ResolvedExport → Prop
  | .local module binding => ∃ source b, p.module module = some source ∧ source.bindings[binding.get.toNat]? = some b ∧
      ∀ edge name, b.kind ≠ .imported edge name
  | .external module _ _ => ∃ source, p.module module = some source

theorem followEnds {source id edge name resolved}
    (at_ : p.module id = some source) (done : follow source id edge name = some (.done resolved)) : Ended p resolved := by
  obtain ⟨found,_,done⟩ := Option.bind_eq_some_iff.mp done
  cases target : found.target with
  | «local» target =>
    rw [target] at done
    obtain ⟨linked,_,next⟩ := Option.bind_eq_some_iff.mp done
    cases next
  | external =>
    rw [target] at done
    cases done
    exact ⟨source,at_⟩

theorem stepEnds {id name resolved} (done : resolveStep p id name = some (.done resolved)) : Ended p resolved := by
  obtain ⟨source,at_,done⟩ := Option.bind_eq_some_iff.mp done
  obtain ⟨found,_,done⟩ := Option.bind_eq_some_iff.mp done
  cases origin : found.source with
  | indirect edge name =>
    rw [origin] at done
    exact followEnds at_ done
  | «local» binding =>
    rw [origin] at done
    obtain ⟨b,there,done⟩ := Option.bind_eq_some_iff.mp done
    cases kind : b.kind with
    | imported edge name =>
      rw [kind] at done
      exact followEnds at_ done
    | _ =>
      rw [kind] at done
      cases done
      exact ⟨source,b,at_,there,fun edge name imported => by rw [kind] at imported; cases imported⟩

theorem resolveEnds {id name resolved} (found : resolveExport p id name = some resolved) : Ended p resolved := by
  unfold resolveExport at found
  generalize exportCount p+1 = n at found
  induction n generalizing id name with
  | zero => cases found
  | succ n ih =>
    unfold resolveLoop at found
    cases step : resolveStep p id name with
    | none =>
      rw [step] at found
      cases found
    | some hop =>
      rw [step] at found
      cases hop with
      | next id name => exact ih found
      | done last =>
        cases found
        exact stepEnds step

theorem ownedBinding {module j source b} (at_ : p.module module = some source) (there : source.bindings[j]? = some b)
    (own : ∀ edge name, b.kind ≠ .imported edge name) : Owned p (.own module.get.toNat j) := by
  intro site inside same
  simp only [BindingSite.place,Origin.own.injEq] at same
  obtain ⟨source',b',module',binding,kind⟩ := memSites.mp inside
  rw [← same.1,show p.modules[module.get.toNat]? = some source from at_] at module'
  cases module'
  rw [← same.2,there] at binding
  cases binding
  rw [BindingSite.origin,← kind,same.1,same.2]
  cases shape : b.kind with
  | imported edge name => exact absurd shape (own edge name)
  | _ => rfl

theorem Based.module {id source} (based : Based p m) (inside : p.module id = some source) :
    m.programModule id = some source ∧ ∀ name, m.constantText id name = string source.code name := by
  have small : ¬m.dynamicBase ≤ id.get.toNat := by
    rw [based.base]
    exact Nat.not_le.mpr (List.getElem?_eq_some_iff.mp inside).1
  have found : m.programModule id = some source := by rw [Machine.programModule,if_neg small,based.program,Option.bind_some,inside]
  refine ⟨found,fun name => ?_⟩
  rw [Machine.constantText,Machine.moduleCode,if_neg small,based.program]
  simp only [inside,Option.map_some,Option.bind_some]

theorem orPanicOk {α} {x : Option α} {a} (ok : orPanic x = .ok a) : x = some a := by
  cases x with
  | none => cases ok
  | some b =>
    cases ok
    rfl

theorem outsideKnown {module edge name specifier source} (based : Based p m)
    (inside : p.module module = some source) (known : m.externalSpecifier module edge = .ok (some specifier)) :
    outsideOrigin p module edge name = some (.outside specifier name) := by
  obtain ⟨found,text⟩ := based.module inside
  obtain ⟨source',there,known⟩ := bindOk.mp known
  obtain ⟨dependency,listed,known⟩ := bindOk.mp known
  obtain ⟨spelled,named,known⟩ := bindOk.mp known
  rw [orPanicOk there,Option.some.injEq] at found
  subst found
  rw [text] at named
  have same := Except.ok.inj known
  split at same
  · cases same
    unfold outsideOrigin
    rw [inside]
    show (source'.edges[edge.get.toNat]?).bind _ = _
    rw [orPanicOk listed]
    show (string source'.code dependency.specifier).bind _ = _
    rw [orPanicOk named]
    rfl
  · cases same

def Reaches (p : Program) (m : Machine) (origin : Option Origin) (c : Nat) (t : Machine) : Prop :=
  CellsGrow p m t ∧ ∃ o, origin = some o ∧ Owned p o ∧ t.cellAt o = some c

theorem outsideReaches {module edge name source} (based : Based p m) (inside : p.module module = some source) :
    After (externalExportCell limit module edge name) m (Reaches p m (outsideOrigin p module edge name)) (fun _ t => CellsGrow p m t) := by
  refine (externalExportGrows m module edge name).mono (fun c t grown => ⟨grown.1,?_⟩) fun _ _ grown => grown
  obtain ⟨specifier,known,at_⟩ := grown.2
  exact ⟨_,outsideKnown based inside known,ownedOutside specifier name,at_⟩

theorem importedReaches {module edge name source} (based : Based p m) (inside : p.module module = some source) :
    After (importedCell limit module edge name) m (Reaches p m (importOrigin p module edge name)) (fun _ t => CellsGrow p m t) := by
  obtain ⟨found,text⟩ := based.module inside
  refine afterRequest fun source' there => afterRequest fun dependency listed => afterRequest fun linked named => ?_
  rw [orPanicOk there,Option.some.injEq] at found
  subst found
  rw [text] at named
  have origin : importOrigin p module edge name = match dependency.target with
      | .external => outsideOrigin p module edge linked
      | .local target => (resolveExport p target linked).bind (resolvedOrigin p) := by
    rw [importOrigin,inside]
    show (source'.edges[edge.get.toNat]?).bind _ = _
    rw [orPanicOk listed]
    rw [orPanicOk named]
    rfl
  rw [origin]
  cases aim : dependency.target with
  | external => exact outsideReaches based inside
  | «local» target =>
    refine afterRequest fun program known => ?_
    rw [based.program] at known
    cases known
    show After _ m (Reaches p m ((resolveExport p target linked).bind (resolvedOrigin p))) _
    cases resolved : resolveExport p target linked with
    | none => exact .refl m
    | some resolved' =>
      have ended := resolveEnds resolved
      cases resolved' with
      | «local» module binding =>
        obtain ⟨source,b,at_,there,own⟩ := ended
        show After (lift (orPanic (m.boundCell module.get.toNat binding.get.toNat))) m _ _
        cases cell : m.boundCell module.get.toNat binding.get.toNat with
        | none => exact .refl m
        | some c => exact ⟨.refl m,_,rfl,ownedBinding at_ there own,cell⟩
      | external module edge name =>
        obtain ⟨source,at_⟩ := ended
        refine afterRequest fun linked named => ?_
        rw [(based.module at_).2] at named
        have origin : resolvedOrigin p (.external module edge name) = outsideOrigin p module edge linked := by
          rw [resolvedOrigin,at_]
          show (string source.code name).bind _ = _
          rw [orPanicOk named]
          rfl
        rw [Option.bind_some,origin]
        exact outsideReaches based at_

def FreshCell (p : Program) (m : Machine) (c : Nat) (t : Machine) : Prop :=
  ∃ u value, CellsGrow p m u ∧ c = u.registry.cells.length ∧ t = u.pushCell value

theorem requestFresh {request} (requests : Requests p request) (m) :
    After (request >>= allocateCell limit) m (FreshCell p m) (fun _ t => CellsGrow p m t) := by
  rw [afterBind]
  refine (requests m).mono (fun value u grown => ?_) fun _ _ grown => grown
  refine (allocateCellSpec u limit value).mono (fun c t made => ⟨u,value,grown,made.1,made.2⟩) fun _ t same => ?_
  rw [same]
  exact grown

theorem namespaceFresh (module edge m) :
    After (namespaceCell limit module edge) m (FreshCell p m) (fun _ t => CellsGrow p m t) := by
  refine afterRequest fun source there => afterRequest fun dependency listed => ?_
  cases dependency.target with
  | «local» target => exact requestFresh (requestsModule target) m
  | external => exact requestFresh (requestsExternal module edge) m

end

end Bamts.Runtime
