import Bamts.ExportTable
import Bamts.SimplePath

/-! What an exported name resolves to is told by the paths that pass no module and name twice. -/
set_option linter.all false
namespace Bamts.Exports
open Bytecode SimplePath

/-- A type-only star serves types alone. -/
def StarExport.UsableIn (star : StarExport) (space : ResolveSpace) : Prop := star.specifier = .typeOnly → space = .type

/-- What a target is the origin of. -/
def ExportTarget.origin : ExportTarget → Option ExportCandidate
  | .local_ source symbol => some (.symbol source symbol)
  | .forward _ _ => none
  | .starNamespace source => some (.namespace_ source)

namespace ExportTable

def named (table : ExportTable) (module : SourceId) (name : EcmaString) : Option NamedExport :=
  (table.entry module).named.get name

def stars (table : ExportTable) (module : SourceId) : List StarExport := (table.entry module).stars

/-- A visible named export of a module's own shadows its stars. -/
def Own (table : ExportTable) (space : ResolveSpace) (key : Key) (export_ : NamedExport) : Prop :=
  table.named key.1 key.2 = some export_ ∧ export_.flags.visibleIn space = true

inductive Edge (table : ExportTable) (space : ResolveSpace) (key : Key) : Key → Prop where
  | forward {export_ : NamedExport} {source : SourceId} {name : EcmaString} (own : table.Own space key export_)
      (target : export_.target = .forward source name) : Edge table space key (source,name)
  | star {star : StarExport} (hidden : ∀ export_, ¬table.Own space key export_) (other : key.2 ≠ defaultExportName)
      (listed : star ∈ table.stars key.1) (usable : star.UsableIn space) :
      Edge table space key (star.target,key.2)

def Origin (table : ExportTable) (space : ResolveSpace) (origin : ExportCandidate) (key : Key) : Prop :=
  ∃ export_, table.Own space key export_ ∧ export_.target.origin = some origin

/-- Reached from `key` by a path that passes nothing twice. -/
def ReachesOrigin (table : ExportTable) (space : ResolveSpace) (visited : List Key) (key : Key) (origin : ExportCandidate) : Prop :=
  Reaches (table.Edge space) (table.Origin space origin) visited key

def Reenters (table : ExportTable) (space : ResolveSpace) (visited : List Key) (key : Key) : Prop :=
  key ∈ visited ∨ Returns (table.Edge space) visited key

end ExportTable

variable {table : ExportTable} {space : ResolveSpace} {visited : List Key} {key : Key} {names : List EcmaString}

/-- What a search from `key` has to find. -/
structure Answers (table : ExportTable) (space : ResolveSpace) (visited : List Key) (key : Key) (found : ResolutionSet) : Prop where
  once : found.candidates.Nodup
  origins : ∀ origin, origin ∈ found.candidates ↔ table.ReachesOrigin space visited key origin
  cycled : found.cycled = true ↔ table.Reenters space visited key

section
variable {after : List Key}

theorem originOf {export_} (own : table.Own space key export_) {origin} :
    table.Origin space origin key ↔ export_.target.origin = some origin := by
  constructor
  · intro final
    obtain ⟨other,found,target⟩ := final
    cases Option.some.inj (own.1.symm.trans found.1)
    exact target
  · intro target
    exact ⟨export_,own,target⟩

theorem noEdge {export_} (own : table.Own space key export_) (target : ∀ source name, export_.target ≠ .forward source name)
    (next) : ¬table.Edge space key next := by
  intro edge
  cases edge with
  | forward found forwards =>
    cases Option.some.inj (own.1.symm.trans found.1)
    exact target _ _ forwards
  | star hidden => exact hidden export_ own

/-- Where no edge leaves, the origins of the pair itself are all there is. -/
theorem answersHere {found} (free : key ∉ visited) (stuck : ∀ next, ¬table.Edge space key next)
    (once : found.candidates.Nodup) (origins : ∀ origin, origin ∈ found.candidates ↔ table.Origin space origin key)
    (calm : found.cycled = false) : Answers table space visited key found := by
  refine ⟨once,?_,?_⟩
  · intro origin
    rw [origins,ExportTable.ReachesOrigin,reachesStep]
    simp [free,stuck]
  · rw [calm,ExportTable.Reenters,returnsStep]
    simp [free,stuck]

/-- One edge leaves: the pair answers as its target does. -/
theorem answersForward {found export_ source name} (free : key ∉ visited)
    (own : table.Own space key export_) (target : export_.target = .forward source name)
    (later : Answers table space (key :: visited) (source,name) found) : Answers table space visited key found := by
  have only : ∀ next, table.Edge space key next ↔ next = (source,name) := by
    intro next
    constructor
    · intro edge
      cases edge with
      | forward found forwards =>
        cases Option.some.inj (own.1.symm.trans found.1)
        rw [target] at forwards
        cases forwards
        rfl
      | star hidden => exact absurd own (hidden export_)
    · intro same
      exact same ▸ .forward own target
  have nothing : ∀ origin, ¬table.Origin space origin key := by
    intro origin
    rw [originOf own,target]
    intro bad
    cases bad
  refine ⟨later.once,?_,?_⟩
  · intro origin
    rw [later.origins]
    conv_rhs => rw [ExportTable.ReachesOrigin,reachesStep]
    simp [free,nothing,only,ExportTable.ReachesOrigin]
  · rw [later.cycled]
    conv_rhs => rw [ExportTable.Reenters,returnsStep]
    simp [free,only,ExportTable.Reenters]

/-- The stars are followed one after the other, and what they find is put together. -/
theorem collectStarsSpec {search name stars start} (found : ∀ star ∈ stars, star.UsableIn space →
      ∃ result, search star.target name visited = some (result,visited) ∧ Answers table space visited (star.target,name) result)
    (once : start.candidates.Nodup) :
    ∃ result, collectStars search name space stars start visited = some (result,visited) ∧ result.candidates.Nodup ∧
      (∀ origin, origin ∈ result.candidates ↔ origin ∈ start.candidates ∨ ∃ star ∈ stars,
        star.UsableIn space ∧ table.ReachesOrigin space visited (star.target,name) origin) ∧
      (result.cycled = true ↔ start.cycled = true ∨ ∃ star ∈ stars,
        star.UsableIn space ∧ table.Reenters space visited (star.target,name)) := by
  induction stars generalizing start with
  | nil => exact ⟨start,rfl,once,by simp,by simp⟩
  | cons star rest ih =>
    have later := fun star member => found star (List.mem_cons_of_mem _ member)
    rw [collectStars]
    by_cases skipped : star.specifier = .typeOnly ∧ space ≠ .type
    · obtain ⟨result,run,distinct,origins,cycled⟩ := ih later once
      have unusable : ¬star.UsableIn space := fun usable => skipped.2 (usable skipped.1)
      refine ⟨result,(if_pos skipped).trans run,distinct,?_,?_⟩
      · intro origin
        rw [origins]
        simp only [List.exists_mem_cons_iff,unusable,false_and,false_or]
      · rw [cycled]
        simp only [List.exists_mem_cons_iff,unusable,false_and,false_or]
    · have usable : star.UsableIn space := fun only => by_contra fun other => skipped ⟨only,other⟩
      obtain ⟨first,run,answers⟩ := found star List.mem_cons_self usable
      have more : (start.extend first).candidates.Nodup := once.union first.candidates
      obtain ⟨result,runs,distinct,origins,cycled⟩ := ih later more
      refine ⟨result,?_,distinct,?_,?_⟩
      · rw [if_neg skipped,run]
        exact runs
      · intro origin
        rw [origins,ResolutionSet.extend,List.mem_union_iff,answers.origins]
        simp only [List.exists_mem_cons_iff,usable,true_and]
        rw [or_assoc,or_left_comm]
      · rw [cycled,ResolutionSet.extend,Bool.or_eq_true,answers.cycled]
        simp only [List.exists_mem_cons_iff,usable,true_and]
        rw [or_assoc]

theorem answersStars {found} (free : key ∉ visited) (hidden : ∀ export_, ¬table.Own space key export_)
    (other : key.2 ≠ defaultExportName) (once : found.candidates.Nodup)
    (origins : ∀ origin, origin ∈ found.candidates ↔ ∃ star ∈ table.stars key.1, star.UsableIn space ∧
      table.ReachesOrigin space (key :: visited) (star.target,key.2) origin)
    (cycled : found.cycled = true ↔ ∃ star ∈ table.stars key.1, star.UsableIn space ∧
      table.Reenters space (key :: visited) (star.target,key.2)) : Answers table space visited key found := by
  have some_ : ∀ P : Key → Prop, (∃ next, table.Edge space key next ∧ P next) ↔
      ∃ star ∈ table.stars key.1, star.UsableIn space ∧ P (star.target,key.2) := by
    intro P
    constructor
    · intro h
      obtain ⟨next,edge,holds⟩ := h
      cases edge with
      | forward own => exact absurd own (hidden _)
      | star _ _ listed usable => exact ⟨_,listed,usable,holds⟩
    · intro h
      obtain ⟨star,listed,usable,holds⟩ := h
      exact ⟨_,.star hidden other listed usable,holds⟩
  have nothing : ∀ origin, ¬table.Origin space origin key := fun origin final => hidden _ final.choose_spec.1
  refine ⟨once,?_,?_⟩
  · intro origin
    rw [origins,ExportTable.ReachesOrigin,reachesStep,some_]
    simp only [free,nothing,not_false_eq_true,true_and,false_or]
    rfl
  · rw [cycled,ExportTable.Reenters,returnsStep,some_]
    simp only [free,not_false_eq_true,true_and,false_or]
    rfl

/-- One visit answers when every later one does. -/
theorem collectVisibleSpec {search} (free : key ∉ visited) (step : (table.modules.get key.1).isSome = true → ∀ next, table.Edge space key next →
      ∃ found, search next.1 next.2 (key :: visited) = some (found,key :: visited) ∧ Answers table space (key :: visited) next found) :
    ∃ found, table.collectVisible space search key.1 key.2 (key :: visited) = some (found,key :: visited) ∧
      Answers table space visited key found := by
  rw [ExportTable.collectVisible]
  cases entry : table.modules.get key.1 with
  | none =>
    have blank : table.entry key.1 = ⟨.empty,[]⟩ := by rw [ExportTable.entry,entry]; rfl
    have hidden : ∀ export_, ¬table.Own space key export_ := by
      intro export_ own
      have found := own.1
      rw [ExportTable.named,blank] at found
      cases found
    refine ⟨.empty,rfl,answersHere free ?_ List.nodup_nil ?_ rfl⟩
    · intro next edge
      cases edge with
      | forward own => exact hidden _ own
      | star _ _ listed =>
        rw [ExportTable.stars,blank] at listed
        cases listed
    · exact fun origin => iff_of_false List.not_mem_nil fun final => hidden _ final.choose_spec.1
  | some exports =>
    have same : table.entry key.1 = exports := by rw [ExportTable.entry,entry]; rfl
    have step := step (by rw [entry]; rfl)
    cases shown : (exports.named.get key.2).filter fun named => named.flags.visibleIn space with
    | some export_ =>
      have own : table.Own space key export_ := by
        obtain ⟨found,visible⟩ := Option.filter_eq_some_iff.mp shown
        rw [← same] at found
        exact ⟨found,visible⟩
      simp only [shown]
      cases target : export_.target with
      | local_ source symbol =>
        refine ⟨_,rfl,answersHere free (noEdge own (by simp [target])) (List.nodup_singleton _) ?_ rfl⟩
        intro origin
        rw [originOf own,target]
        simp [ResolutionSet.candidate,ExportTarget.origin,eq_comm]
      | forward source name =>
        obtain ⟨found,run,answers⟩ := step (source,name) (.forward own target)
        exact ⟨found,run,answersForward free own target answers⟩
      | starNamespace source =>
        refine ⟨_,rfl,answersHere free (noEdge own (by simp [target])) (List.nodup_singleton _) ?_ rfl⟩
        intro origin
        rw [originOf own,target]
        simp [ResolutionSet.candidate,ExportTarget.origin,eq_comm]
    | none =>
      have hidden : ∀ export_, ¬table.Own space key export_ := by
        intro export_ own
        have found : exports.named.get key.2 = some export_ := same ▸ own.1
        rw [found,Option.filter_some,if_pos own.2] at shown
        cases shown
      simp only [shown]
      by_cases default_ : key.2 = defaultExportName
      · rw [if_pos default_]
        refine ⟨.empty,rfl,answersHere free ?_ List.nodup_nil ?_ rfl⟩
        · intro next edge
          cases edge with
          | forward own => exact hidden _ own
          | star _ other => exact other default_
        · exact fun origin => iff_of_false List.not_mem_nil fun final => hidden _ final.choose_spec.1
      · rw [if_neg default_]
        have listed : table.stars key.1 = exports.stars := by rw [ExportTable.stars,same]
        have blank : ResolutionSet.empty.candidates.Nodup := List.nodup_nil
        obtain ⟨found,run,once,origins,cycled⟩ := collectStarsSpec (fun star member usable =>
          step (star.target,key.2) (.star hidden default_ (listed ▸ member) usable)) blank
        refine ⟨found,run,answersStars free hidden default_ once ?_ ?_⟩
        · intro origin
          rw [origins,listed]
          simp [ResolutionSet.empty]
        · rw [cycled,listed]
          simp [ResolutionSet.empty]

/-- Enough fuel for the pairs that are left, and the search answers with the visited pairs as they were. -/
theorem collectSpec {fuel} (closed : ∀ module name export_ source forwarded, table.named module name = some export_ →
      export_.target = .forward source forwarded → forwarded ∈ names)
    (enough : remaining ((table.modules.entries.map Prod.fst).product names) visited < fuel) (inside : key.2 ∈ names) :
    ∃ found, table.collect space fuel key.1 key.2 visited = some (found,visited) ∧ Answers table space visited key found := by
  induction fuel generalizing key visited with
  | zero => exact absurd enough (Nat.not_lt_zero _)
  | succ fuel ih =>
    rw [ExportTable.collect]
    by_cases member : key ∈ visited
    · refine ⟨.cycle,if_pos member,List.nodup_nil,?_,iff_of_true rfl (.inl member)⟩
      exact fun origin => iff_of_false List.not_mem_nil fun reached => (reachesStep.mp reached).1 member
    · have search : ∃ found, table.collectVisible space (table.collect space fuel) key.1 key.2 (key :: visited) =
          some (found,key :: visited) ∧ Answers table space visited key found := by
        refine collectVisibleSpec member fun known next edge => ih ?_ ?_
        · have node : key ∈ (table.modules.entries.map Prod.fst).product names :=
            List.pair_mem_product.mpr ⟨OrderedMap.memKeys.mpr known,inside⟩
          have drops := remainingDrops node member
          omega
        · cases edge with
          | forward own target => exact closed _ _ _ _ _ own.1 target
          | star => exact inside
      obtain ⟨found,run,answers⟩ := search
      refine ⟨found,?_,answers⟩
      rw [if_neg member,run,Option.map_some,List.erase_cons_head]

end

namespace ExportTable

def forwards (table : ExportTable) : List EcmaString :=
  table.modules.values.flatMap fun exports => exports.named.values.filterMap fun export_ =>
    match export_.target with
    | .forward _ name => some name
    | _ => none

/-- Fuel for every search of a name. -/
def depth (table : ExportTable) (name : EcmaString) : Nat :=
  ((table.modules.entries.map Prod.fst).product (name :: table.forwards)).length + 1

theorem forwardListed {module source name forwarded export_}
    (found : table.named module name = some export_) (target : export_.target = .forward source forwarded) :
    forwarded ∈ table.forwards := by
  rw [named,entry] at found
  cases known : table.modules.get module with
  | none =>
    rw [known] at found
    cases found
  | some exports =>
    rw [known] at found
    have module_ : exports ∈ table.modules.values := List.mem_map_of_mem (OrderedMap.getMem.mp known)
    have export__ : export_ ∈ exports.named.values := List.mem_map_of_mem (OrderedMap.getMem.mp found)
    exact List.mem_flatMap.mpr ⟨exports,module_,List.mem_filterMap.mpr ⟨export_,export__,by rw [target]⟩⟩

end ExportTable

/-- What each answer says about the origins a name reaches and the ways back. -/
def Resolves (reached : ExportCandidate → Prop) (reenters : Prop) : ResolvedExport → Prop
  | .symbol source symbol => ∀ origin, reached origin ↔ origin = .symbol source symbol
  | .namespace_ source => ∀ origin, reached origin ↔ origin = .namespace_ source
  | .ambiguous => ∃ first second, first ≠ second ∧ reached first ∧ reached second
  | .cycle => (∀ origin, ¬reached origin) ∧ reenters
  | .unresolved => (∀ origin, ¬reached origin) ∧ ¬reenters

theorem aloneIff {reached : ExportCandidate → Prop} {only other} (alone : ∀ origin, reached origin ↔ origin = only) :
    (∀ origin, reached origin ↔ origin = other) ↔ only = other := by
  constructor
  · intro all
    exact (all only).mp ((alone only).mpr rfl)
  · intro same
    exact same ▸ alone

theorem resolutionExact {reached reenters} {found : ResolutionSet} (once : found.candidates.Nodup)
    (origins : ∀ origin, origin ∈ found.candidates ↔ reached origin) (cycled : found.cycled = true ↔ reenters)
    (answer) : found.intoResolution = answer ↔ Resolves reached reenters answer := by
  obtain ⟨candidates,cycle⟩ := found
  rcases candidates with _ | ⟨first,_ | ⟨second,rest⟩⟩
  · have nothing : ∀ origin, ¬reached origin := fun origin => (origins origin).not.mp List.not_mem_nil
    have answered : (ResolutionSet.mk [] cycle).intoResolution = if cycle then .cycle else .unresolved := rfl
    rw [answered]
    cases answer with
    | symbol source symbol => exact iff_of_false (by split <;> simp) fun all => nothing _ ((all _).mpr rfl)
    | namespace_ source => exact iff_of_false (by split <;> simp) fun all => nothing _ ((all _).mpr rfl)
    | ambiguous => exact iff_of_false (by split <;> simp) fun two => nothing _ two.choose_spec.choose_spec.2.1
    | cycle => simp [Resolves,nothing,← cycled]
    | unresolved => simp [Resolves,nothing,← cycled]
  · have alone : ∀ origin, reached origin ↔ origin = first := fun origin => by rw [← origins,List.mem_singleton]
    have some_ : reached first := (alone first).mpr rfl
    have ambiguous : ¬Resolves reached reenters .ambiguous := by
      intro two
      obtain ⟨a,b,apart,here,there⟩ := two
      exact apart (((alone a).mp here).trans ((alone b).mp there).symm)
    have stuck : ¬Resolves reached reenters .cycle ∧ ¬Resolves reached reenters .unresolved :=
      ⟨fun none_ => none_.1 _ some_,fun none_ => none_.1 _ some_⟩
    cases first with
    | symbol source symbol =>
      cases answer with
      | symbol => simp [ResolutionSet.intoResolution,Resolves,aloneIff alone]
      | namespace_ => simp [ResolutionSet.intoResolution,Resolves,aloneIff alone]
      | ambiguous => simp [ResolutionSet.intoResolution,ambiguous]
      | cycle => simp [ResolutionSet.intoResolution,stuck.1]
      | unresolved => simp [ResolutionSet.intoResolution,stuck.2]
    | namespace_ source =>
      cases answer with
      | symbol => simp [ResolutionSet.intoResolution,Resolves,aloneIff alone]
      | namespace_ => simp [ResolutionSet.intoResolution,Resolves,aloneIff alone]
      | ambiguous => simp [ResolutionSet.intoResolution,ambiguous]
      | cycle => simp [ResolutionSet.intoResolution,stuck.1]
      | unresolved => simp [ResolutionSet.intoResolution,stuck.2]
  · have apart : first ≠ second := fun same => (List.nodup_cons.mp once).1 (same ▸ List.mem_cons_self)
    have here : reached first := (origins first).mp List.mem_cons_self
    have there : reached second := (origins second).mp (List.mem_cons_of_mem _ List.mem_cons_self)
    have answered : (ResolutionSet.mk (first :: second :: rest) cycle).intoResolution = .ambiguous := by cases first <;> rfl
    rw [answered]
    cases answer with
    | symbol source symbol =>
      exact iff_of_false (by simp) fun all => apart (((all _).mp here).trans ((all _).mp there).symm)
    | namespace_ source =>
      exact iff_of_false (by simp) fun all => apart (((all _).mp here).trans ((all _).mp there).symm)
    | ambiguous => exact iff_of_true rfl ⟨first,second,apart,here,there⟩
    | cycle => exact iff_of_false (by simp) fun none_ => none_.1 _ here
    | unresolved => exact iff_of_false (by simp) fun none_ => none_.1 _ here

theorem resolveSpec (table : ExportTable) (module name space) :
    ∃ answer, (∀ fuel, table.depth name ≤ fuel → table.resolve fuel module name space = some answer) ∧
      ∀ other, answer = other ↔
        Resolves (table.ReachesOrigin space [] (module,name)) (table.Reenters space [] (module,name)) other := by
  have closed : ∀ module name' export_ source forwarded, table.named module name' = some export_ →
      export_.target = .forward source forwarded → forwarded ∈ name :: table.forwards :=
    fun _ _ _ _ _ found target => List.mem_cons_of_mem _ (ExportTable.forwardListed found target)
  have runs : ∀ fuel, table.depth name ≤ fuel → ∃ answer, table.resolve fuel module name space = some answer ∧
      ∀ other, answer = other ↔
        Resolves (table.ReachesOrigin space [] (module,name)) (table.Reenters space [] (module,name)) other := by
    intro fuel enough
    have fits : remaining ((table.modules.entries.map Prod.fst).product (name :: table.forwards)) [] < fuel :=
      Nat.lt_of_le_of_lt (List.length_filter_le _ _) enough
    let key : Key := (module,name)
    have inside : key.2 ∈ name :: table.forwards := List.mem_cons_self
    obtain ⟨found,run,answers⟩ : ∃ found, table.collect space fuel key.1 key.2 [] = some (found,[]) ∧
        Answers table space [] key found := collectSpec closed fits inside
    exact ⟨found.intoResolution,by rw [ExportTable.resolve,run]; rfl,resolutionExact answers.once answers.origins answers.cycled⟩
  obtain ⟨answer,_,exact_⟩ := runs _ (Nat.le_refl _)
  refine ⟨answer,fun fuel enough => ?_,exact_⟩
  obtain ⟨other,run,same⟩ := runs fuel enough
  rw [run,(same answer).mpr ((exact_ answer).mp rfl)]

namespace ExportTable

/-- Tables that a search cannot tell apart. -/
def Alike (table other : ExportTable) : Prop :=
  (∀ module name, table.named module name = other.named module name) ∧
    ∀ module star, star ∈ table.stars module ↔ star ∈ other.stars module

theorem entrySet (table : ExportTable) (module other exports) :
    (table.setEntry module exports).entry other = if other = module then exports else table.entry other := by
  rw [entry,setEntry,OrderedMap.getInsert]
  split
  · rfl
  · rfl

theorem bindNamedRuns (table : ExportTable) (module name export_) : table.bindNamed module name export_ =
    match boundFlags (table.named module name) export_ with
    | none => table
    | some flags => table.setEntry module { table.entry module with
        named := (table.entry module).named.insert name ⟨export_.target,flags⟩ } := rfl

theorem bindNamedNames (table : ExportTable) (module other name name' export_) :
    (table.bindNamed module name export_).named other name' =
      if other = module ∧ name' = name then
        ((boundFlags (table.named module name) export_).map fun flags => ⟨export_.target,flags⟩).or (table.named module name)
      else table.named other name' := by
  rw [bindNamedRuns]
  cases boundFlags (table.named module name) export_ with
  | none =>
    by_cases here : other = module ∧ name' = name
    · rw [if_pos here,here.1,here.2]
      rfl
    · rw [if_neg here]
  | some flags =>
    by_cases module_ : other = module
    · by_cases name_ : name' = name
      · simp [named,entrySet,module_,name_,OrderedMap.getInsert]
      · simp [named,entrySet,module_,name_,OrderedMap.getInsert]
    · simp [named,entrySet,module_]

theorem bindNamedStars (table : ExportTable) (module other name export_) :
    (table.bindNamed module name export_).stars other = table.stars other := by
  simp only [bindNamed]
  split
  · rfl
  · rw [stars,entrySet,stars]
    split
    · rename_i same
      rw [same]
    · rfl

theorem exportStarNames (table : ExportTable) (module target other specifier name) :
    (table.exportStar module target specifier).named other name = table.named other name := by
  rw [named,exportStar,entrySet,named]
  split
  · rename_i same
    rw [same]
  · rfl

theorem exportStarStars (table : ExportTable) (module target other specifier star) :
    star ∈ (table.exportStar module target specifier).stars other ↔
      star ∈ table.stars other ∨ other = module ∧ star = ⟨target,specifier⟩ := by
  rw [stars,exportStar,entrySet]
  by_cases same : other = module
  · subst same
    rw [if_pos rfl,stars]
    by_cases known : ⟨target,specifier⟩ ∈ (table.entry other).stars
    · simp only [if_pos known,true_and]
      exact ⟨.inl,fun h => h.elim id fun new => new ▸ known⟩
    · simp [known]
  · simp [same,stars]

end ExportTable

theorem callBinds {call : Call} (plain : call.isStar = false) :
    ∃ module name export_, ∀ table, call.run table = table.bindNamed module name export_ := by
  cases call with
  | exportLocal => exact ⟨_,_,_,fun _ => rfl⟩
  | exportForward => exact ⟨_,_,_,fun _ => rfl⟩
  | exportStar => cases plain
  | exportStarAs => exact ⟨_,_,_,fun _ => rfl⟩
  | exportDefault => exact ⟨_,_,_,fun _ => rfl⟩

/-- The names come from the other calls alone, and the stars from the star calls in any order. -/
theorem builtNames {calls : List Call} {table other} (same : ∀ module name, table.named module name = other.named module name) (module name) :
    (calls.foldl Call.run table).named module name =
      ((calls.filter fun call => !call.isStar).foldl Call.run other).named module name := by
  induction calls generalizing table other with
  | nil => exact same module name
  | cons call calls ih =>
    cases starred : call.isStar with
    | true =>
      rw [List.filter_cons_of_neg (by simp [starred]),List.foldl_cons]
      refine ih fun module name => ?_
      cases call with
      | exportStar from_ target specifier => exact (ExportTable.exportStarNames table from_ target module specifier name).trans (same module name)
      | _ => cases starred
    | false =>
      rw [List.filter_cons_of_pos (by simp [starred]),List.foldl_cons,List.foldl_cons]
      refine ih fun module name => ?_
      obtain ⟨_,_,_,binds⟩ := callBinds starred
      rw [binds,binds,ExportTable.bindNamedNames,ExportTable.bindNamedNames,same,same]

theorem builtStars {calls : List Call} {table module star} :
    star ∈ (calls.foldl Call.run table).stars module ↔
      star ∈ table.stars module ∨ .exportStar module star.target star.specifier ∈ calls.filter Call.isStar := by
  induction calls generalizing table with
  | nil => simp
  | cons call calls ih =>
    rw [List.foldl_cons,ih]
    cases starred : call.isStar with
    | true =>
      rw [List.filter_cons_of_pos starred,List.mem_cons]
      cases call with
      | exportStar from_ target specifier =>
        rw [Call.run,ExportTable.exportStarStars,or_assoc]
        have named_ : Call.exportStar module star.target star.specifier = .exportStar from_ target specifier ↔
            module = from_ ∧ star = ⟨target,specifier⟩ := by
          cases star
          simp
        rw [named_]
      | _ => cases starred
    | false =>
      obtain ⟨_,_,_,binds⟩ := callBinds starred
      rw [List.filter_cons_of_neg (by simp [starred]),binds,ExportTable.bindNamedStars]

theorem builtAlike {calls other} (plain : (other.filter fun call => !call.isStar) = calls.filter fun call => !call.isStar)
    (stars : (other.filter Call.isStar).Perm (calls.filter Call.isStar)) : (built other).Alike (built calls) := by
  refine ⟨fun module name => ?_,fun module star => ?_⟩
  · refine (builtNames (fun _ _ => rfl) module name).trans ?_
    rw [plain]
    exact (builtNames (fun _ _ => rfl) module name).symm
  · rw [built,builtStars,stars.mem_iff,built,builtStars]

theorem alikeEdges {other} (alike : table.Alike other) :
    table.Edge space = other.Edge space ∧ table.Origin space = other.Origin space := by
  have own : table.Own space = other.Own space := by
    funext key export_
    rw [ExportTable.Own,alike.1,ExportTable.Own]
  constructor
  · funext key next
    refine propext ⟨fun edge => ?_,fun edge => ?_⟩
    · cases edge with
      | forward found target => exact .forward (own ▸ found) target
      | star hidden other_ listed usable => exact .star (own ▸ hidden) other_ ((alike.2 _ _).mp listed) usable
    · cases edge with
      | forward found target => exact .forward (own ▸ found) target
      | star hidden other_ listed usable => exact .star (own ▸ hidden) other_ ((alike.2 _ _).mpr listed) usable
  · funext origin key
    rw [ExportTable.Origin,own,ExportTable.Origin]

/-- Resolving ends with the answer that the simple paths of visible edges give, whatever the order
of the stars. -/
theorem resolvesByPaths (calls : List Call) (module : SourceId) (name : EcmaString) (space : ResolveSpace) :
    (∃ answer, (∀ fuel, (built calls).depth name ≤ fuel → (built calls).resolve fuel module name space = some answer) ∧
      ∀ other, answer = other ↔ Resolves ((built calls).ReachesOrigin space [] (module,name))
        ((built calls).Reenters space [] (module,name)) other) ∧
    ∀ reordered : List Call, (reordered.filter fun call => !call.isStar) = calls.filter (fun call => !call.isStar) →
      (reordered.filter Call.isStar).Perm (calls.filter Call.isStar) →
      ∀ fuel, (built calls).depth name ≤ fuel → (built reordered).depth name ≤ fuel →
        (built reordered).resolve fuel module name space = (built calls).resolve fuel module name space := by
  refine ⟨resolveSpec (built calls) module name space,?_⟩
  intro reordered plain stars fuel enough enough'
  obtain ⟨edges,origins⟩ := alikeEdges (builtAlike plain stars)
  obtain ⟨answer,runs,exact_⟩ := resolveSpec (built calls) module name space
  obtain ⟨answer',runs',exact'⟩ := resolveSpec (built reordered) module name space
  have reaches : (built reordered).ReachesOrigin space = (built calls).ReachesOrigin space := by
    funext visited key origin
    rw [ExportTable.ReachesOrigin,edges,origins,ExportTable.ReachesOrigin]
  have reenters : (built reordered).Reenters space = (built calls).Reenters space := by
    funext visited key
    rw [ExportTable.Reenters,edges,ExportTable.Reenters]
  rw [reaches,reenters] at exact'
  rw [runs fuel enough,runs' fuel enough',(exact' answer).mpr ((exact_ answer).mp rfl)]

/-- Two stars into a cycle, one of which also reaches a declaration. -/
def cycledStars : List Call :=
  [.exportStar 0 1 .value,.exportStar 0 2 .value,.exportStar 1 0 .value,.exportLocal 2 ⟨[97]⟩ 2 7 .function]

theorem resolvesCycledStars :
    (built ((cycledStars.take 3).reverse ++ cycledStars.drop 3)).resolve 20 0 ⟨[97]⟩ .value = (built cycledStars).resolve 20 0 ⟨[97]⟩ .value ∧
      (built cycledStars).resolve 20 0 ⟨[97]⟩ .value = some (.symbol 2 7) :=
  ⟨(resolvesByPaths cycledStars 0 ⟨[97]⟩ .value).2 ((cycledStars.take 3).reverse ++ cycledStars.drop 3) rfl (by decide) 20
    (by decide) (by decide),by decide⟩

end Bamts.Exports
