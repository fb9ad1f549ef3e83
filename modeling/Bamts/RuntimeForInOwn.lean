import Bamts.RuntimeForInEdit
import Bamts.RuntimeKeyOrder
import Bamts.RuntimeProxy

/-! What the keys an iteration gives have to do with what the objects own: the iteration knows only what an object lists and
describes, which for some kinds of object is less than it owns. -/
set_option linter.all false
namespace Bamts.Runtime.ForIn
open Effect Bytecode Linkage LayerWalk

/- The requests at which the levels show what they own: an enumerable key is listed and described, and a key that is neither
hides no farther one. -/
structure Shown (levels : List Nat) (asked : List Asked) : Prop where
  enumerable : ∀ a ∈ asked, ∀ i ∈ levels, ∀ name, owns a.machine i name = some true → (view a.machine).shows i name = some true
  hidden : ∀ first a later, asked = first ++ a :: later → ∀ b ∈ first ++ [a], ∀ near i far, levels = near ++ i :: far → ∀ e ∈ near, ∀ name,
    owns b.machine e name = some false → (view b.machine).shows e name = none → described a.machine i name ≠ some true

/-- The keys of `for`/`in`: a key comes from the nearest level that owned it when it was visited, which has it enumerable, and a
key that a level has throughout with no nearer one is not left out. -/
structure Enumerates (index : Nat) (levels : List Nat) (asked : List Asked) : Prop where
  nearest : ∀ first a later name, asked = first ++ a :: later → a.turn = .yields name →
    ∃ near i far, levels = near ++ i :: far ∧ owns a.machine i name = some true ∧
      ∀ e ∈ near, ∃ b ∈ first ++ [a], b.visits index levels e ∧ owns b.machine e name = none
  complete : (∃ a ∈ asked, a.turn = .ended) → ∀ near i far name, levels = near ++ i :: far →
    (∀ a ∈ asked, owns a.machine i name = some true ∧ ∀ e ∈ near, owns a.machine e name = none) → ∃ a ∈ asked, a.turn = .yields name

section
variable {m t start : Machine} {index i : Nat} {levels : List Nat} {asked : List Asked} {name : EcmaString}

theorem describedOwned {enumerable} (shown : described m i name = some enumerable) : owns m i name = some enumerable := by
  rw [owns,shown]

theorem unowned (none_ : owns m i name = none) : described m i name = none := by
  cases shown : described m i name with
  | none => rfl
  | some enumerable =>
    rw [describedOwned shown] at none_
    cases none_

theorem enumerates (distinct : levels.Nodup) (begun : Running index levels [] start) (run : Enumeration index levels start asked t)
    (shown : Shown levels asked) : Enumerates index levels asked := by
  refine ⟨fun first a later name parts yields => ?_,fun over_ near i far name whole present => ?_⟩
  · obtain ⟨before,done⟩ := run.upTo first a later parts
    obtain ⟨near,i,far,whole,here,lacks⟩ := yieldedFrom distinct (before.running distinct begun) done yields
    refine ⟨near,i,far,whole,describedOwned here,fun e member => ?_⟩
    obtain ⟨b,inside,visits,none_⟩ := lacks e member
    refine ⟨b,inside,visits,?_⟩
    have asked_ : b ∈ asked := by
      rw [parts,List.append_cons]
      exact List.mem_append_left _ inside
    have level : e ∈ levels := by
      rw [whole]
      exact List.mem_append_left _ member
    cases owned : owns b.machine e name with
    | none => rfl
    | some enumerable =>
      cases enumerable with
      | true => exact absurd ((shown.enumerable b asked_ e level name owned).symm.trans none_) (Option.some_ne_none _)
      | false => exact absurd here (shown.hidden first a later parts b inside near i far whole e member name owned none_)
  · obtain ⟨a,member,last⟩ := over_
    obtain ⟨first,later,parts⟩ := List.append_of_mem member
    obtain ⟨before,done⟩ := run.upTo first a later parts
    have among : ∀ b ∈ first ++ [a], b ∈ asked := by
      intro b inside
      rw [parts,List.append_cons]
      exact List.mem_append_left _ inside
    have level : i ∈ levels := by
      rw [whole]
      exact List.mem_append_right _ List.mem_cons_self
    obtain ⟨b,inside,yields⟩ := shownYielded whole distinct (before.running distinct begun) done last
      (fun b inside => shown.enumerable b (among b inside) i level name (present b (among b inside)).1)
      fun b inside e near => unowned ((present b (among b inside)).2 e near)
    exact ⟨b,among b inside,yields⟩

theorem stateFresh (src) : After (forInIteratorState src) m (fun s _ => ∃ current, s = fresh current) (fun _ _ => True) := by
  unfold forInIteratorState
  split
  · exact ⟨_,rfl⟩
  · exact ⟨_,rfl⟩
  · rw [afterBind]
    unfold After
    cases valueToObject src m with
    | ok object t => exact ⟨_,rfl⟩
    | error fault t => trivial

theorem createStarts {src it} (created : createIterator src start = .ok it m) :
    ∃ index current, m.slot it = .ok (some index) ∧ At index m (fresh current) := by
  have spec : After (createIterator src) start (fun it m => ∃ index current, m.slot it = .ok (some index) ∧ At index m (fresh current))
      fun _ _ => True := by
    unfold createIterator
    rw [afterBind]
    refine (stateFresh src).mono (fun s t begun => ?_) fun _ _ _ => trivial
    obtain ⟨current,rfl⟩ := begun
    refine (allocateFrame t _).mono (fun it u done => ?_) fun _ _ _ => trivial
    obtain ⟨_,heap,value⟩ := done
    have at_ : u.heap[t.heap.length]? = some (.iterator (.keys (fresh current))) := by
      rw [heap]
      exact List.getElem?_concat_length
    exact ⟨_,current,slotOfIndex value at_ (fun none_ => (by cases none_)),at_⟩
  rw [After,created] at spec
  exact spec

theorem begins {src it before} (created : createIterator src before = .ok it m) (there : m.slot it = .ok (some index))
    (chain : Chain m (stateAt m index).current levels) : Running index levels [] m := by
  obtain ⟨index',current,there',at_⟩ := createStarts created
  rw [there] at there'
  cases there'
  rw [at_.stateAt] at chain
  exact .first at_ chain

theorem plainListed {header} (plain : m.entry i = .object header none) :
    name ∈ names m i ↔ (header.properties.get (.named name)).isSome = true := by
  have stored : storedKeys m i = orderedPropertyKeys header.properties := by
    rw [storedKeys,Machine.ownPropertyKeysAt,plain]
    rfl
  have text : boxedText m i = none := by rw [boxedText,plain]
  rw [names,text,stored,Option.elim_none,List.mem_filterMap]
  constructor
  · rintro ⟨key,member,is⟩
    cases key with
    | named other =>
      cases is
      exact PropertyMap.containsIff.mpr (((keysListed header.properties).complete _).mp member).1
    | symbol _ => cases is
    | «private» _ => cases is
  · intro there
    exact ⟨.named name,((keysListed header.properties).complete _).mpr ⟨PropertyMap.containsIff.mp there,rfl⟩,rfl⟩

theorem plainDescribed {header} (plain : m.entry i = .object header none) :
    described m i name = (header.properties.get (.named name)).map Property.enumerable := by
  rw [described,plain]
  rfl

theorem plainShows {header} (plain : m.entry i = .object header none) : (view m).shows i name = described m i name := by
  unfold View.shows
  split
  · rfl
  · rename_i unlisted
    have none_ : header.properties.get (.named name) = none := by
      by_contra some_
      exact unlisted ((plainListed plain).mpr (Option.isSome_iff_ne_none.mpr some_))
    rw [plainDescribed plain,none_]
    rfl

theorem plainEnumerable {header} (plain : m.entry i = .object header none) (owned : owns m i name = some true) :
    described m i name = some true := by
  cases known : described m i name with
  | some enumerable => rw [← owned,describedOwned known]
  | none =>
    rw [owns,known] at owned
    dsimp only at owned
    split at owned
    · rw [enumerableOwn,plain] at owned
      rw [plainDescribed plain] at known
      have none_ : header.properties.get (.named name) = none := by simpa using known
      unfold HeapEntry.header? at owned
      simp [none_] at owned
    · cases owned

theorem plainOwns {header} (plain : m.entry i = .object header none) (apart : m.slotOk m.intrinsics.objectPrototype ≠ some i) :
    owns m i name = described m i name := by
  cases known : described m i name with
  | some enumerable => exact describedOwned known
  | none =>
    rw [plainDescribed plain] at known
    have none_ : header.properties.get (.named name) = none := by simpa using known
    have silent : m.ownGet i (.named name) = none := by
      rw [Machine.ownGet,if_neg fun both => apart both.1,plain]
      simp [Machine.ownGetEntry,propertyLookup,none_]
    rw [owns,plainDescribed plain,none_,silent]
    rfl

def isPlain : HeapEntry → Bool
  | .object _ none => true
  | _ => false

theorem plainHeader (plain : isPlain (m.entry i) = true) : ∃ header, m.entry i = .object header none := by
  cases entry : m.entry i with
  | object header primitive =>
    rw [entry] at plain
    cases primitive with
    | none => exact ⟨header,rfl⟩
    | some primitive => cases plain
  | _ =>
    rw [entry] at plain
    cases plain

theorem plainShown (plain : ∀ a ∈ asked, ∀ i ∈ levels, isPlain (a.machine.entry i) = true)
    (last : ∀ a ∈ asked, ∀ i ∈ levels.dropLast, a.machine.slotOk a.machine.intrinsics.objectPrototype ≠ some i) : Shown levels asked := by
  refine ⟨fun a member i level name owned => ?_,fun first a later parts b inside near i far whole e member name owned hidden => ?_⟩
  · obtain ⟨header,plain⟩ := plainHeader (plain a member i level)
    rw [plainShows plain]
    exact plainEnumerable plain owned
  · have among : b ∈ asked := by
      rw [parts,List.append_cons]
      exact List.mem_append_left _ inside
    have level : e ∈ levels.dropLast := by
      rw [whole,List.dropLast_append_cons]
      exact List.mem_append_left _ member
    obtain ⟨header,plain⟩ := plainHeader (plain b among e (List.dropLast_subset _ level))
    rw [plainShows plain,← plainOwns plain (last b among e level),owned] at hidden
    cases hidden

/- However the program edits the objects between two requests, no key is given twice, a request gives an answer or fails with a
fault of a read of one of the objects, and the keys end; where the objects show what they own, the keys are those of the
language. -/
theorem forInEnumerates {src it : Value} {before m : Machine} {index : Nat} {levels : List Nat} (created : createIterator src before = .ok it m)
    (there : m.slot it = .ok (some index)) (chain : Chain m (stateAt m index).current levels) :
    (∀ asked t, Enumeration index levels m asked t → (asked.filterMap Asked.yielded).Nodup ∧ (Shown levels asked → Enumerates index levels asked) ∧
      After (forInNext index) t (fun turn _ => turn ≠ .goesOn) (fun fault _ => LevelFault levels fault)) ∧
    ∀ calls : Nat → Asked, (∀ n, ∃ t, Enumeration index levels m ((List.range n).map calls) t) → ∃ n, (calls n).turn = .ended := by
  have begun := begins created there chain
  have distinct := chain.distinct
  refine ⟨fun asked t run => ?_,runsEnd distinct begun⟩
  have running := run.running distinct begun
  refine ⟨running.once distinct,enumerates distinct begun run,(forInNextSpec running.stands).mono (fun turn _ done => ?_)
    fun _ _ failed => failed.among running.part.subset⟩
  rw [done.1]
  cases (next (view t) (cursor (stateAt t index) (ahead levels (stateAt t index)))).1 with
  | none => exact Turn.noConfusion
  | some name => exact Turn.noConfusion

theorem answeredDone {α} {p : Exec α} {a} (done : answered p m = some a) : p m = .ok a (left p m) := by
  unfold answered at done
  unfold left
  cases result : p m with
  | ok b t =>
    rw [result] at done
    cases done
    rfl
  | error fault t =>
    rw [result] at done
    cases done

end

def nearHeader : Header :=
  ⟨(PropertyMap.empty.insert (.named (ascii "a")) (.plain .null)).insert (.named (ascii "c")) (.data .null true false true),valueForHeapIndex 2,true⟩
def farHeader : Header :=
  ⟨((PropertyMap.empty.insert (.named (ascii "b")) (.plain .null)).insert (.named (ascii "c")) (.plain .null)).insert (.named (ascii "d")) (.plain .null),
    none,true⟩
def pairMachine : Machine := { bareMachine with heap := bareMachine.heap ++ [.object nearHeader none,.object farHeader none] }
def nearObject : Value := (valueForHeapIndex 1).getD .undefined
def farObject : Value := (valueForHeapIndex 2).getD .undefined
def keyIterator : Value := (valueForHeapIndex 3).getD .undefined
def pairStart : Machine := left (createIterator nearObject) pairMachine
def firstAsked : Machine := left (forInNext 3) pairStart
def keyDeleted : Machine := left (internalDelete farObject (.named (ascii "b"))) firstAsked
def secondAsked : Machine := left (forInNext 3) keyDeleted
def thirdAsked : Machine := left (forInNext 3) secondAsked

def pairAsked : List Asked :=
  [⟨pairStart,.yields (ascii "a"),firstAsked⟩,⟨keyDeleted,.yields (ascii "d"),secondAsked⟩,⟨secondAsked,.ended,thirdAsked⟩]

def textMachine : Machine := { bareMachine with heap := bareMachine.heap ++ [.string (ascii "ab")] }
def textStart : Machine := left (createIterator firstText) textMachine
def textAsked : Machine := left (forInNext 3) textStart

theorem askedAnswers : answered (forInNext 3) pairStart = some (.yields (ascii "a")) ∧ answered (forInNext 3) keyDeleted = some (.yields (ascii "d")) ∧
    answered (forInNext 3) secondAsked = some .ended ∧ answered (forInNext 3) textStart = some .ended ∧
    (∀ a ∈ pairAsked, ∀ i ∈ [1,2], isPlain (a.machine.entry i) = true) ∧
    ∀ a ∈ pairAsked, ∀ i ∈ [1,2].dropLast, a.machine.slotOk a.machine.intrinsics.objectPrototype ≠ some i := by
  decide +kernel

theorem pairChain : Chain pairStart (stateAt pairStart 3).current [1,2] := .level rfl rfl rfl (.level rfl rfl rfl .ends)

theorem pairRun : Enumeration 3 [1,2] pairStart pairAsked thirdAsked := by
  have first : Enumeration 3 [1,2] pairStart [⟨pairStart,.yields (ascii "a"),firstAsked⟩] firstAsked :=
    .ask .start (answeredDone askedAnswers.1)
  have running := first.running pairChain.distinct (begins (show createIterator nearObject pairMachine = .ok keyIterator pairStart from rfl) rfl pairChain)
  exact .ask (.ask (.edit first (deleteLeaves running.stands.at_ [1,2] farObject (.named (ascii "b")))) (answeredDone askedAnswers.2.1))
    (answeredDone askedAnswers.2.2.1)

theorem pairShown : Shown [1,2] pairAsked := plainShown askedAnswers.2.2.2.2.1 askedAnswers.2.2.2.2.2

theorem pairEnumerates : (pairAsked.filterMap Asked.yielded).Nodup ∧ Enumerates 3 [1,2] pairAsked := by
  have told := (forInEnumerates (show createIterator nearObject pairMachine = .ok keyIterator pairStart from rfl) rfl pairChain).1 pairAsked thirdAsked
    pairRun
  exact ⟨told.1,told.2.1 pairShown⟩

theorem textUnitsMissed :
    ¬∀ (src it : Value) (before m : Machine) (index : Nat) (levels : List Nat), createIterator src before = .ok it m → m.slot it = .ok (some index) →
      Chain m (stateAt m index).current levels → ∀ asked t, Enumeration index levels m asked t → Enumerates index levels asked := by
  intro always
  have chain : Chain textStart (stateAt textStart 3).current [2,0] := .level rfl rfl rfl (.level rfl rfl rfl .ends)
  have run : Enumeration 3 [2,0] textStart [⟨textStart,.ended,textAsked⟩] textAsked :=
    .ask .start (answeredDone askedAnswers.2.2.2.1)
  have enumerated := always firstText keyIterator textMachine textStart 3 [2,0] rfl rfl chain _ _ run
  have present : ∀ a ∈ [Asked.mk textStart .ended textAsked], owns a.machine 2 (ascii "0") = some true ∧
      ∀ e ∈ ([] : List Nat), owns a.machine e (ascii "0") = none := by
    intro a member
    obtain rfl := List.mem_singleton.mp member
    exact ⟨rfl,fun _ none_ => absurd none_ List.not_mem_nil⟩
  obtain ⟨a,member,yields⟩ := enumerated.complete ⟨_,List.mem_singleton.mpr rfl,rfl⟩ [] 2 [0] (ascii "0") rfl present
  obtain rfl := List.mem_singleton.mp member
  cases yields

end Bamts.Runtime.ForIn
