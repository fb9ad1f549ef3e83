import Bamts.RuntimeLinked

/-! Both loops of linking, and the assignments to names of modules that were linked. -/
set_option linter.all false
namespace Bamts.Runtime
open Effect Bytecode Linkage

section
variable {p : Program} {m t : Machine} {c limit : Nat} {site : BindingSite}

theorem zipIdxDistinct {α : Type} (xs : List α) : xs.zipIdx.Nodup :=
  List.Nodup.of_map Prod.snd (by rw [List.zipIdx_map_snd]; exact List.nodup_range')

theorem sitesDistinct (p) : (bindingSites p).Nodup := by
  refine List.nodup_flatMap.mpr ⟨fun module inside => ?_,?_⟩
  · refine (zipIdxDistinct _).map_on fun a insideA b insideB same => ?_
    simp only [BindingSite.mk.injEq,true_and] at same
    have atA := List.mem_zipIdx_iff_getElem?.mp insideA
    rw [same.1,List.mem_zipIdx_iff_getElem?.mp insideB] at atA
    exact Prod.ext (Option.some.inj atA).symm same.1
  · have apart : p.modules.zipIdx.Pairwise fun a b => a.2 ≠ b.2 := by
      refine List.pairwise_map.mp ?_
      rw [List.zipIdx_map_snd]
      exact List.nodup_range'
    refine apart.imp fun {a b} other site first second => ?_
    obtain ⟨x,_,same⟩ := List.mem_map.mp first
    obtain ⟨y,_,same'⟩ := List.mem_map.mp second
    exact other ((congrArg BindingSite.module same).trans (congrArg BindingSite.module same').symm)

theorem setCellAt {found} (there : m.registry.modules[site.module]? = some found) (small : site.binding < found.bindingCells.length) (o) :
    (m.setBindingCell site.module site.binding c).cellAt o = if o = site.place then some c else m.cellAt o := by
  cases o with
  | outside specifier name => rw [if_neg (by simp [BindingSite.place])]; rfl
  | own i j =>
    simp only [Machine.cellAt,Machine.boundCell,Machine.setBindingCell,List.getElem?_modify,BindingSite.place,Origin.own.injEq]
    by_cases module : i = site.module
    · subst module
      rw [there]
      simp only [if_true,Option.map_eq_map,Option.map_some,Option.bind_some,List.getElem?_set,true_and]
      by_cases binding : j = site.binding
      · subst binding
        simp [small]
      · rw [if_neg (Ne.symm binding),if_neg binding]
    · rw [if_neg fun both => module both.1]
      simp only [if_neg (Ne.symm module)]
      cases m.registry.modules[i]? <;> rfl

theorem setShaped {i j} (shaped : ∀ site ∈ bindingSites p, ∃ found, m.registry.modules[site.module]? = some found ∧ site.binding < found.bindingCells.length) :
    ∀ site ∈ bindingSites p, ∃ found, (m.setBindingCell i j c).registry.modules[site.module]? = some found ∧ site.binding < found.bindingCells.length := by
  intro site inside
  obtain ⟨found,there,small⟩ := shaped site inside
  simp only [Machine.setBindingCell,List.getElem?_modify,there]
  by_cases same : i = site.module
  · exact ⟨_,rfl,by simp [same,small]⟩
  · exact ⟨_,rfl,by simp [same,small]⟩

theorem setLength (m : Machine) (i j c) : (m.setBindingCell i j c).registry.modules.length = m.registry.modules.length :=
  List.length_modify ..

theorem tableLength {u : Machine} (table : u.bindingTable = m.bindingTable) : u.registry.modules.length = m.registry.modules.length := by
  have same := congrArg List.length table
  rwa [Machine.bindingTable,Machine.bindingTable,List.length_map,List.length_map] at same

-- Which bindings have no cell yet: those still to come in the first loop, and those in the second.
structure Progress (p : Program) (early late : List BindingSite) (m : Machine) : Prop where
  based : Based p m
  full : m.registry.modules.length = p.modules.length
  sound : CellsSound p m
  linked : ∀ site ∈ bindingSites p, m.cellAt site.place = none ↔ site ∈ if isImmutable site.kind then late else early

theorem ownOrigin (kind : isImmutable site.kind = false) : site.origin p = some site.place := by
  unfold BindingSite.origin
  cases shape : site.kind with
  | imported edge name =>
    rw [shape] at kind
    cases kind
  | _ => rfl

theorem namespaceOrigin {edge} (kind : site.kind = .namespace edge) : site.origin p = some site.place := by
  unfold BindingSite.origin
  rw [kind]
  rfl

theorem ownedSite (inside : site ∈ bindingSites p) (origin : site.origin p = some site.place) : Owned p site.place := fun other inside' same => by
  rw [← siteUnique inside inside' same]
  exact origin

theorem takeFresh {u value} (inside : site ∈ bindingSites p) (origin : site.origin p = some site.place)
    (free : u.cellAt site.place = none) (sound : CellsSound p u) :
    CellsSound p ((u.pushCell value).setBindingCell site.module site.binding u.registry.cells.length) := by
  obtain ⟨found,there,small⟩ := sound.shaped site inside
  have at_ := fun o => @setCellAt (u.pushCell value) u.registry.cells.length site found there small o
  refine sound.claim (ownedSite inside origin) free (by rw [at_,if_pos rfl]) (fun o other => ?_) (pushLength u value) (setShaped sound.shaped)
  rw [at_,if_neg other]
  exact cellAtSame rfl rfl o

theorem placeSame {u : Machine} (table : u.bindingTable = m.bindingTable) : u.cellAt site.place = m.cellAt site.place := by
  rw [BindingSite.place,Machine.cellAt,Machine.cellAt,boundTable,boundTable,table]

theorem linkedAfter {u : Machine} {early late early' late' : List BindingSite} (progress : Progress p early late m) (table : u.bindingTable = m.bindingTable)
    (there : ∃ found, u.registry.modules[site.module]? = some found ∧ site.binding < found.bindingCells.length) (inside : site ∈ bindingSites p)
    (gone : site ∉ if isImmutable site.kind then late' else early') (rest : ∀ other ∈ bindingSites p, other ≠ site →
      ((other ∈ if isImmutable other.kind then late' else early') ↔ other ∈ if isImmutable other.kind then late else early)) :
    ∀ other ∈ bindingSites p, (u.setBindingCell site.module site.binding c).cellAt other.place = none ↔
      other ∈ if isImmutable other.kind then late' else early' := by
  intro other inside'
  obtain ⟨found,at_,small⟩ := there
  rw [setCellAt at_ small]
  by_cases same : other = site
  · subst same
    exact iff_of_false (by simp) gone
  · rw [if_neg fun place => same (siteUnique inside' inside place),rest other inside' same,← progress.linked other inside',placeSame table]

theorem nextSite {rest} (left : site :: rest <:+ bindingSites p) :
    site ∈ bindingSites p ∧ site ∉ rest ∧ rest <:+ bindingSites p := by
  have distinct := (sitesDistinct p).sublist left.sublist
  exact ⟨left.subset List.mem_cons_self,(List.nodup_cons.mp distinct).1,(List.suffix_cons _ _).trans left⟩

theorem othersLeft {other rest} (apart : other ≠ site) : other ∈ rest ↔ other ∈ site :: rest := by
  rw [List.mem_cons,or_iff_right apart]

def Failed {α : Type} : α → Machine → Prop := fun _ _ => True

theorem ownStep {rest} (left : site :: rest <:+ bindingSites p) (progress : Progress p (site :: rest) (bindingSites p) m) :
    After (ownCell limit site) m (fun _ t => rest <:+ bindingSites p ∧ Progress p rest (bindingSites p) t) Failed := by
  obtain ⟨inside,gone,suffix⟩ := nextSite left
  have others : ∀ other ∈ bindingSites p, other ≠ site → ((other ∈ if isImmutable other.kind then bindingSites p else rest) ↔
      other ∈ if isImmutable other.kind then bindingSites p else site :: rest) := by
    intro other inside' apart
    split
    · exact Iff.rfl
    · exact othersLeft apart
  cases kind : isImmutable site.kind with
  | true =>
    have idle : ownCell limit site = pure () := by
      unfold ownCell
      cases shape : site.kind with
      | imported edge name => rfl
      | «namespace» edge => rfl
      | _ =>
        rw [shape] at kind
        cases kind
    rw [idle]
    refine ⟨suffix,progress.based,progress.full,progress.sound,fun other inside' => ?_⟩
    rw [progress.linked other inside']
    by_cases same : other = site
    · rw [same,if_pos kind,if_pos kind]
    · exact (others other inside' same).symm
  | false =>
    obtain ⟨value,runs⟩ : ∃ value, ownCell limit site = (do
        let cell ← allocateCell limit value
        update fun m => m.setBindingCell site.module site.binding cell) := by
      unfold ownCell
      cases shape : site.kind with
      | hoisted => exact ⟨_,rfl⟩
      | lexical => exact ⟨_,rfl⟩
      | _ =>
        rw [shape] at kind
        cases kind
    rw [runs,afterBind]
    refine (allocateCellSpec m limit value).mono (fun c t made => ?_) fun _ _ _ => trivial
    obtain ⟨fresh,pushed⟩ := made
    subst fresh pushed
    have free : m.cellAt site.place = none := by
      rw [progress.linked site inside,if_neg (by rw [kind]; exact Bool.false_ne_true)]
      exact List.mem_cons_self
    have taken : CellsSound p ((m.pushCell value).setBindingCell site.module site.binding _) := takeFresh inside (ownOrigin kind) free progress.sound
    refine ⟨suffix,⟨progress.based.program,progress.based.base⟩,(setLength _ _ _ _).trans progress.full,taken,
      linkedAfter progress rfl (progress.sound.shaped site inside) inside ?_ others⟩
    rw [kind]
    exact gone

theorem lateStep {rest} (left : site :: rest <:+ bindingSites p) (small : p.modules.length < 2^32) (progress : Progress p [] (site :: rest) m) :
    After (aliasCell limit site) m (fun _ t => rest <:+ bindingSites p ∧ Progress p [] rest t) Failed := by
  obtain ⟨inside,gone,suffix⟩ := nextSite left
  have others : ∀ other ∈ bindingSites p, other ≠ site → ((other ∈ if isImmutable other.kind then rest else []) ↔
      other ∈ if isImmutable other.kind then site :: rest else []) := by
    intro other inside' apart
    split
    · exact othersLeft apart
    · exact Iff.rfl
  unfold aliasCell
  cases shape : site.kind with
  | imported edge name =>
    obtain ⟨source,b,module,binding,_⟩ := memSites.mp inside
    have at_ : p.module site.id = some source := by
      have fits : (UInt32.ofNat site.module).toNat = site.module :=
        UInt32.toNat_ofNat_of_lt' ((List.getElem?_eq_some_iff.mp module).1.trans small)
      rw [Program.module,BindingSite.id,fits]
      exact module
    rw [afterBind]
    refine (importedReaches progress.based at_).mono (fun c u reached => ?_) fun _ _ _ => trivial
    obtain ⟨grown,o,origin,owned,cell⟩ := reached
    have same : site.origin p = some o := by rw [BindingSite.origin,shape]; exact origin
    have sound := grown.2 progress.sound
    obtain ⟨found,there,fits⟩ := sound.shaped site inside
    have free : u.cellAt site.place = none := by
      rw [placeSame grown.1.table,progress.linked site inside,shape]
      exact List.mem_cons_self
    have cells := fun o => @setCellAt u c site found there fits o
    have shared : CellsSound p (u.setBindingCell site.module site.binding c) :=
      sound.share inside same owned cell free (by rw [cells,if_pos rfl]) (fun o other => by rw [cells,if_neg other]) rfl (setShaped sound.shaped)
    have based := grown.1.based progress.based
    refine ⟨suffix,⟨based.program,based.base⟩,(setLength _ _ _ _).trans ((tableLength grown.1.table).trans progress.full),shared,linkedAfter progress grown.1.table ⟨found,there,fits⟩ inside ?_ others⟩
    rw [shape]
    exact gone
  | «namespace» edge =>
    rw [afterBind]
    have request : After (namespaceCell limit site.id edge) m (FreshCell p m) _ := namespaceFresh site.id edge m
    refine request.mono (fun c t made => ?_) fun _ _ _ => trivial
    obtain ⟨u,value,grown,fresh,pushed⟩ := made
    subst fresh pushed
    have sound := grown.2 progress.sound
    have free : u.cellAt site.place = none := by
      rw [placeSame grown.1.table,progress.linked site inside,shape]
      exact List.mem_cons_self
    have based := grown.1.based progress.based
    refine ⟨suffix,⟨based.program,based.base⟩,(setLength _ _ _ _).trans ((tableLength grown.1.table).trans progress.full),takeFresh inside (namespaceOrigin shape) free sound,
      linkedAfter progress grown.1.table (sound.shaped site inside) inside ?_ others⟩
    rw [shape]
    exact gone
  | _ =>
    refine ⟨suffix,progress.based,progress.full,progress.sound,fun other inside' => ?_⟩
    rw [progress.linked other inside']
    by_cases same : other = site
    · rw [same,shape]
      rfl
    · exact (others other inside' same).symm

-- The machine of a program before its modules are instantiated.
structure Unlinked (p : Program) (m : Machine) : Prop where
  based : Based p m
  outside : ∀ specifier name, m.cellAt (.outside specifier name) = none

def Machine.instantiated (m : Machine) (p : Program) : Machine := { m with registry.modules := p.modules.map emptyInstance }

theorem unlinkedProgress (unlinked : Unlinked p m) : Progress p (bindingSites p) (bindingSites p) (m.instantiated p) := by
  have none_ : ∀ o, (m.instantiated p).cellAt o = none := by
    intro o
    cases o with
    | outside specifier name => exact unlinked.outside specifier name
    | own i j =>
      simp only [Machine.cellAt,Machine.boundCell,Machine.instantiated,List.getElem?_map]
      cases p.modules[i]? with
      | none => rfl
      | some source =>
        simp only [Option.map_some,Option.bind_some,emptyInstance,List.getElem?_replicate]
        split <;> rfl
  have absent : ∀ o c, (m.instantiated p).cellAt o ≠ some c := by
    intro o c found
    rw [none_] at found
    cases found
  refine ⟨⟨unlinked.based.program,unlinked.based.base⟩,List.length_map _,⟨fun a b c _ _ found => absurd found (absent a c),fun o c found => absurd found (absent o c),
    fun site _ c found => absurd found (absent _ c),fun site inside => ?_⟩,fun site inside => ?_⟩
  · obtain ⟨source,b,module,binding,_⟩ := memSites.mp inside
    refine ⟨emptyInstance source,by simp only [Machine.instantiated,List.getElem?_map,module,Option.map_some],?_⟩
    rw [emptyInstance,List.length_replicate]
    exact (List.getElem?_eq_some_iff.mp binding).1
  · rw [none_]
    split <;> exact iff_of_true rfl inside

theorem instantiateLinks (small : p.modules.length < 2^32) (unlinked : Unlinked p m) :
    After (instantiateModules limit) m (fun constants t => Progress p [] [] t ∧ constants = constantCells p t.registry.modules) Failed := by
  unfold instantiateModules
  rw [afterBind,afterRead,unlinked.based.program,orPanic,afterBind,afterLiftOk,afterBind,afterUpdate,afterBind]
  refine (afterForM (I := fun rest t => rest <:+ bindingSites p ∧ Progress p rest (bindingSites p) t)
    (fun site rest t good => ownStep good.1 good.2) ⟨List.suffix_refl _,unlinkedProgress unlinked⟩).mono (fun _ t good => ?_) fun _ _ _ => trivial
  rw [afterBind]
  exact (afterForM (I := fun rest t => rest <:+ bindingSites p ∧ Progress p [] rest t)
    (fun site rest t good => lateStep good.1 small good.2) ⟨List.suffix_refl _,good.2⟩).mono (fun _ t good => ⟨good.2,rfl⟩) fun _ _ _ => trivial

theorem sharedExactly (progress : Progress p [] [] m) {other} (inside : site ∈ bindingSites p) (inside' : other ∈ bindingSites p) :
    ∃ c, m.cellAt site.place = some c ∧ (m.cellAt other.place = some c ↔ other.origin p = site.origin p) := by
  have has : ∀ site ∈ bindingSites p, ∃ c, m.cellAt site.place = some c := by
    intro site inside
    refine Option.ne_none_iff_exists'.mp fun free => ?_
    have left := (progress.linked site inside).mp free
    split at left <;> cases left
  obtain ⟨c,here⟩ := has site inside
  obtain ⟨d,there⟩ := has other inside'
  obtain ⟨o,origin,owned,at_⟩ := progress.sound.aliases site inside c here
  obtain ⟨q,origin',owned',at_'⟩ := progress.sound.aliases other inside' d there
  refine ⟨c,here,?_⟩
  rw [there,origin,origin',Option.some.injEq,Option.some.injEq]
  constructor
  · intro same
    exact progress.sound.distinct q o c owned' owned (same ▸ at_') at_
  · intro same
    rw [same,at_] at at_'
    exact (Option.some.inj at_').symm

end

end Bamts.Runtime
