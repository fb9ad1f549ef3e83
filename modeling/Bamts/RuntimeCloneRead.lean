import Bamts.RuntimeCloneKeep

/-! What reading the source of a clone can do to the machine: nothing but what the code of the program does when it is asked. -/
set_option linter.all false
namespace Bamts.Runtime
open Effect Bytecode Linkage Binary64

section
variable {J : Machine → Prop} {script : Value → Value → List Value → Exec Value}

def MakesTexts (J : Machine → Prop) : Prop := ∀ e : HeapEntry, e.kind = .string ∨ e.kind = .bigInt → Steady J (allocate e)

theorem steadyElement (texts : MakesTexts J) (view offset) : Steady J (readElement view offset) := by
  refine steadyRead fun m _ => (steadyLift _).bind fun fields => (steadyLift _).bind fun bounds => .ite (fun _ => steadyPure _) fun _ => ?_
  refine (steadyLift _).bind fun buffer => ?_
  split
  · exact steadyFail _
  · refine .ite (fun _ => steadyFail _) fun _ => ?_
    unfold valueFromStorage
    split
    all_goals first | exact texts _ (.inr rfl) | exact steadyPure _

theorem steadyResolveFrom (texts : MakesTexts J) (key fuel node) : Steady J (resolveGetFrom key fuel node) := by
  induction fuel generalizing node with
  | zero => exact steadyPure _
  | succ fuel ih =>
    refine steadyRead fun m _ => ?_
    split
    · split
      · exact steadyPure _
      · exact (steadyLift _).bind fun view => (steadyElement texts view _).bind fun _ => steadyPure _
    · refine .ite (fun _ => (steadyLift _).bind fun _ => steadyFail _) fun _ => ?_
      split
      · exact steadyLift _
      · refine (steadyLift _).bind fun next => ?_
        cases next with
        | none => exact steadyPure _
        | some next => exact ih next

theorem steadyAsciiFrom (texts : MakesTexts J) (name fuel node) : Steady J (resolveGetAsciiFrom name fuel node) := by
  induction fuel generalizing node with
  | zero => exact steadyPure _
  | succ fuel ih =>
    refine steadyRead fun m _ => .ite (fun _ => (steadyLift _).bind fun _ => steadyFail _) fun _ => ?_
    split
    · split
      · exact (steadyLift _).bind fun view => (steadyElement texts view _).bind fun _ => steadyPure _
      · exact steadyPure _
    · split
      · exact steadyLift _
      · refine (steadyLift _).bind fun next => ?_
        cases next with
        | none => exact steadyPure _
        | some next => exact ih next

theorem steadyFound (v) : Steady J (runtimeSlot v) := steadyRead fun _ _ => steadyLift _

theorem steadyOutcome (texts : MakesTexts J) (object key) : Steady J (getOutcome object key) := by
  unfold getOutcome
  split
  · refine steadyRead fun m _ => (steadyFound object).bind fun slot => ?_
    split
    · exact steadyFail _
    · dsimp only
      split
      · exact steadyPure _
      · refine (steadyLift _).bind fun start => ?_
        cases start with
        | none => exact steadyPure _
        | some start => exact steadyAsciiFrom texts _ _ start
  · refine steadyRead fun m _ => (steadyFound object).bind fun slot => ?_
    split
    · split
      · exact steadyFail _
      · exact steadyPure _
    · dsimp only
      split
      · exact steadyLift _
      · refine (steadyLift _).bind fun start => ?_
        cases start with
        | none => exact steadyPure _
        | some start => exact steadyResolveFrom texts key _ start

theorem steadyProperty (texts : MakesTexts J) (scripts : ∀ callee this args, Steady J (script callee this args)) (object key) :
    Steady J (readProperty script object key) := by
  refine Steady.caught ?_ fun fault => ?_
  · refine steadyRead fun m _ => .ite (fun _ => steadyFail _) fun _ => (steadyOutcome texts object key).bind fun outcome => ?_
    cases outcome with
    | value value => exact steadyPure _
    | text text => exact texts _ (.inl rfl)
    | getter getter => exact steadyFail _
  · cases fault with
    | callout callee this args => exact scripts callee this args
    | _ => exact steadyFail _

theorem afterEvaluate {α} {p : Exec α} {m Q E} :
    After (evaluate p) m Q E ↔ After p m Q fun fault t => E (.evaluation fault) t := by
  unfold After evaluate
  cases p m with
  | ok a t => rfl
  | error fault t => rfl

theorem steadyEvaluate {α} {p : Exec α} (steady : Steady J p) : Steady J (evaluate p) := fun m holds => afterEvaluate.mpr (steady m holds)

-- The machine as `J` has it, the listed buffers, and at least so many nodes.
structure Growing (J : Machine → Prop) (listed : List Value) (count : Nat) (s : Planner) : Prop where
  machine : J s.machine
  listed : s.plan.transfers = listed
  count : count ≤ s.plan.nodes.length

variable {listed : List Value} {count : Nat}

theorem steadyPlanner {α} {p : Clone α} (steady : Steady J p) : Steady (Growing J listed count) (inPlanner p) := by
  intro s holds
  unfold inPlanner
  rw [afterZoom]
  exact (steady s.machine holds.machine).mono (fun _ _ later => ⟨later,holds.listed,holds.count⟩) fun _ _ later => ⟨later,holds.listed,holds.count⟩

theorem steadyEncode (v) : Steady (Growing J listed count) (encode v) := by
  unfold encode
  split
  · refine (steadyPlanner (steadyEvaluate (steadyFound v))).bind fun slot => ?_
    cases slot with
    | none => exact steadyFail _
    | some slot =>
      refine steadyRead fun s holds => ?_
      dsimp only
      split
      · exact steadyPure _
      · refine (steadyUpdate fun t later => ⟨later.machine,holds.listed,?_⟩).bind fun _ => steadyPure _
        rw [List.length_append]
        exact Nat.le_trans holds.count (Nat.le_add_right _ _)
  · exact steadyPure _

variable (reads : ∀ object key, Steady J (readProperty script object key))
include reads

theorem steadyPlanned (source excluded keys) :
    Steady (Growing J listed count) (plannedProperties script source excluded keys) := by
  induction keys with
  | nil => exact steadyPure _
  | cons key rest ih =>
    refine .ite (fun _ => ih) fun _ => steadyRead fun s _ => (steadyPlanner (steadyEvaluate (steadyLift _))).bind fun enumerable => .ite (fun _ => ?_) fun _ => ih
    exact (steadyPlanner (steadyEvaluate (reads source key))).bind fun value => (steadyEncode value).bind fun encoded => ih.bind fun _ => steadyPure _

theorem steadyEnumerable (source excluded) : Steady (Growing J listed count) (enumerableProperties script source excluded) :=
  steadyRead fun _ _ => (steadyPlanner (steadyEvaluate (steadyLift _))).bind fun keys => steadyPlanned reads source excluded keys

theorem steadyErrorState (source stored names properties) :
    Steady (Growing J listed count) (appendErrorState script source stored names properties) := by
  induction names generalizing properties with
  | nil => exact steadyPure _
  | cons name rest ih =>
    refine .ite (fun _ => ih _) fun _ => ?_
    exact (steadyPlanner (steadyEvaluate (reads source _))).bind fun value => (steadyEncode value).bind fun encoded => ih _

omit reads in
theorem steadyPairsEncoded (entries : List CollectionEntry) : Steady (Growing J listed count) (encodePairs entries) := by
  induction entries with
  | nil => exact steadyPure _
  | cons entry rest ih => exact (steadyEncode _).bind fun _ => (steadyEncode _).bind fun _ => ih.bind fun _ => steadyPure _

omit reads in
theorem steadyKeysEncoded (entries : List CollectionEntry) : Steady (Growing J listed count) (encodeKeys entries) := by
  induction entries with
  | nil => exact steadyPure _
  | cons entry rest ih => exact (steadyEncode _).bind fun _ => ih.bind fun _ => steadyPure _

omit reads in
theorem steadyRegexpProperty (properties : PropertyMap) (name : String) : Steady (Growing J listed count) (regexpProperty properties name) := by
  unfold regexpProperty
  split
  · exact steadyPure _
  · exact steadyFail _

theorem steadyObject (source header boxed) : Steady (Growing J listed count) (planObject script source header boxed) := by
  refine steadyRead fun s _ => (steadyEnumerable reads source []).bind fun planned => ?_
  cases boxed with
  | none => exact .ite (fun _ => (steadyErrorState reads _ _ _ _).bind fun _ => steadyPure _) fun _ => steadyPure _
  | some value =>
    have encodes : Steady (Growing J listed count) (some <$> encode value) := (steadyEncode value).bind fun _ => steadyPure _
    exact .ite (fun _ => (steadyErrorState reads _ _ _ _).bind fun _ => encodes.bind fun _ => steadyPure _) fun _ =>
      encodes.bind fun _ => steadyPure _

theorem steadyNode (source e) : Steady (Growing J listed count) (planNode script source e) := by
  cases e with
  | string text => exact steadyPure _
  | bigInt text => exact steadyPure _
  | object header boxed => exact steadyObject reads source header boxed
  | array header elements lengthWritable => exact (steadyEnumerable reads source []).bind fun _ => steadyPure _
  | date header time => exact steadyPure _
  | regExp header pattern flags =>
    exact (steadyRegexpProperty _ _).bind fun _ => (steadyRegexpProperty _ _).bind fun _ => (steadyEncode _).bind fun _ => (steadyEncode _).bind fun _ =>
      (steadyEnumerable reads source _).bind fun _ => steadyPure _
  | collection header kind entries index size nextOrder =>
    cases kind with
    | map => exact (steadyPairsEncoded _).bind fun _ => (steadyEnumerable reads source []).bind fun _ => steadyPure _
    | set =>
      exact (steadyKeysEncoded _).bind fun _ => (steadyEnumerable reads source []).bind fun _ => steadyRead fun s _ =>
        (steadyPlanner (steadyEvaluate (steadyLift _))).bind fun _ => steadyPure _
    | weakMap => exact steadyFail _
    | weakSet => exact steadyFail _
  | arrayBuffer header data =>
    obtain ⟨bytes,maxByteLength,detachKey⟩ := data
    cases bytes with
    | none => exact steadyFail _
    | some bytes => exact (steadyEnumerable reads source []).bind fun _ => steadyPure _
  | sharedArrayBuffer header block => exact (steadyEnumerable reads source []).bind fun _ => steadyPure _
  | _ => exact steadyFail _

theorem steadyBuild (fuel) : Steady (Growing J listed count) (buildPlan script fuel) := by
  induction fuel with
  | zero => exact steadyFail _
  | succ fuel ih =>
    refine steadyRead fun s holds => ?_
    dsimp only
    split
    · exact steadyPure _
    · refine (steadyUpdate fun t later => ⟨later.machine,holds.listed,holds.count⟩).bind fun _ => ?_
      split
      · refine (steadyPlanner (steadyEvaluate (steadyFound _))).bind fun slot => ?_
        cases slot with
        | none => exact steadyFail _
        | some slot =>
          refine steadyRead fun u _ => (steadyNode reads _ _).bind fun node => (steadyUpdate fun w later => ⟨later.machine,later.listed,?_⟩).bind fun _ => ih
          rw [List.length_set]
          exact later.count
      · exact steadyFail _

end

end Bamts.Runtime
