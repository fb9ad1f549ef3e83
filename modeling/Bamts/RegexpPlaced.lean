import Bamts.RegexpDedup
import Bamts.RegexpParser

/-! Where repetitions stand in a pattern: as the items of sequences, as the matcher expects them and the parser builds them. -/
set_option linter.all false
namespace Bamts.Regexp
open Effect

mutual

def Node.placed : Node → Prop
  | .sequence nodes => placedItems nodes
  | .alternation branches => placedBranches branches
  | .group _ body => body.placed
  | .look body _ _ => body.placed
  | .repeat_ _ _ _ _ => False
  | _ => True

def placedItems : List Node → Prop
  | [] => True
  | .repeat_ body _ _ _ :: rest => body.placed ∧ placedItems rest
  | node :: rest => node.placed ∧ placedItems rest

def placedBranches : List Node → Prop
  | [] => True
  | branch :: rest => branch.placed ∧ placedBranches rest

end

def placedItem : Node → Prop
  | .repeat_ body _ _ _ => body.placed
  | node => node.placed

theorem placedItemsCons {node rest} : placedItems (node :: rest) ↔ placedItem node ∧ placedItems rest := by
  cases node <;> rfl

theorem Node.placed.item {node} (placed : node.placed) : placedItem node := by
  cases node <;> first | exact placed | exact placed.elim

-- A match that does not come to the arm of the source that cannot be reached.
def Clear {α : Type} (x : Except Stop α) : Prop := x ≠ .error .unreachable

section
variable {α β : Type} {x : Except Stop α}

theorem clearOk (a) : Clear (.ok a : Except Stop α) := fun same => by cases same

theorem clearRange : Clear (.error .outOfRange : Except Stop α) := fun same => by cases same

theorem Clear.bind {f : α → Except Stop β} (first : Clear x) (later : ∀ a, Clear (f a)) : Clear (x >>= f) := by
  cases x with
  | ok a => exact later a
  | error e => exact fun same => first (congrArg (fun e => (.error e : Except Stop α)) (Except.error.inj same))

theorem Clear.collect {f : α → Except Stop (List β)} (clear : ∀ a, Clear (f a)) (xs) : Clear (collect f xs) := by
  induction xs with
  | nil => exact clearOk _
  | cons x xs ih => exact (clear x).bind fun _ => ih.bind fun _ => clearOk _

theorem clearUnitAt (input position) : Clear (unitAt input position) := by
  unfold unitAt
  split
  · exact clearOk _
  · exact clearRange

theorem clearNext (input position unicode) : Clear (nextCodePoint input position unicode) := by
  refine (clearUnitAt _ _).bind fun first => ?_
  split
  · split <;> exact clearOk _
  · exact clearOk _

end

namespace Run

section
variable (run : Run) (s : State)

theorem clearOne (accepts) : Clear (run.matchOne accepts s) := by
  unfold matchOne
  split
  · exact clearOk _
  · exact (clearNext _ _ _).bind fun _ => clearOk _

theorem clearStart : Clear (run.matchStart s) := by
  unfold matchStart
  split
  · exact clearOk _
  · split
    · exact (clearUnitAt _ _).bind fun _ => clearOk _
    · exact clearOk _

theorem clearBoundary (positive) : Clear (run.matchWordBoundary positive s) := by
  have before : Clear (run.wordBefore s) := by
    unfold wordBefore
    split
    · exact clearOk _
    · exact (clearUnitAt _ _).bind fun _ => clearOk _
  have after : Clear (run.wordAfter s) := by
    unfold wordAfter
    split
    · exact (clearNext _ _ _).bind fun _ => clearOk _
    · exact clearOk _
  exact before.bind fun _ => after.bind fun _ => clearOk _

theorem clearLoop (stop fuel captured candidate) : Clear (run.backreferenceLoop stop fuel captured candidate) := by
  induction fuel generalizing captured candidate with
  | zero => exact clearOk _
  | succ fuel ih =>
    rw [backreferenceLoop]
    split
    · split
      · exact clearOk _
      · refine (clearNext _ _ _).bind fun left => (clearNext _ _ _).bind fun right => ?_
        dsimp only
        split
        · exact clearOk _
        · exact ih _ _
    · exact clearOk _

theorem clearReference (index) : Clear (run.matchReference index s) := by
  unfold matchReference
  split
  · refine (run.clearLoop _ _ _ _).bind fun answer => ?_
    split <;> exact clearOk _
  · exact clearOk _

theorem clearNamed (name) : Clear (run.matchNamed name s) := by
  unfold matchNamed
  split
  · exact run.clearReference s _
  · exact clearOk _

theorem clearCapture (index begin) (found : List State) : Clear (found.mapM (capture index begin)) := by
  rw [mapMCollect]
  refine Clear.collect (fun matched => ?_) found
  unfold capture
  split
  · split
    · exact clearOk _
    · exact clearRange
  · exact clearOk _

variable {body : State → Except Stop (List State)} (clear : ∀ s, Clear (body s))
include clear

theorem clearBehind (fuel begin) : Clear (run.lookBehind body s fuel begin) := by
  induction fuel generalizing begin with
  | zero =>
    refine (clear _).bind fun found => ?_
    split <;> exact clearOk _
  | succ fuel ih =>
    refine (clear _).bind fun found => ?_
    split
    · exact clearOk _
    · refine (clearNext _ _ _).bind fun first => ?_
      dsimp only
      split
      · exact clearOk _
      · exact (ih _).bind fun _ => clearOk _

theorem clearLevel (min count level next) : Clear (run.nextLevel body min count level next) := by
  induction level generalizing next with
  | nil => exact clearOk _
  | cons prior rest ih => exact (clear prior).bind fun _ => ih _

theorem clearLevels (min remaining count level total) : Clear (run.levels body min remaining count level total) := by
  induction remaining generalizing count level total with
  | zero => exact clearOk _
  | succ remaining ih =>
    refine (run.clearLevel clear min count level []).bind fun next => ?_
    split
    · exact clearOk _
    · split
      · exact fun same => by cases same
      · exact (ih _ _ _).bind fun _ => clearOk _

theorem clearRepeated (min max greedy) : Clear (run.repeated body min max greedy s) :=
  (run.clearLevels clear _ _ _ _ _).bind fun _ => clearOk _

end

section
variable (run : Run)

mutual

theorem clearNode (node : Node) (placed : node.placed) (s : State) : Clear (run.matchNode node s) := by
  cases node with
  | sequence nodes => exact clearSequence nodes placed s
  | alternation branches => exact clearBranches branches placed s
  | literal expected => exact run.clearOne s _
  | dot => exact run.clearOne s _
  | class_ set => exact run.clearOne s _
  | start => exact run.clearStart s
  | end_ => exact clearOk _
  | wordBoundary positive => exact run.clearBoundary s positive
  | group index body =>
    rw [matchNode]
    exact (clearNode body placed s).bind fun found => clearCapture index s.position found
  | backReference index => exact run.clearReference s index
  | namedBackReference name => exact run.clearNamed s name
  | look body behind positive =>
    rw [matchNode]
    cases behind with
    | true => exact (run.clearBehind s (clearNode body placed) _ 0).bind fun _ => clearOk _
    | false => exact (clearNode body placed s).bind fun _ => clearOk _
  | repeat_ => exact placed.elim

theorem clearBranches (branches : List Node) (placed : placedBranches branches) (s : State) : Clear (run.matchBranches branches s) := by
  cases branches with
  | nil => exact clearOk _
  | cons branch rest =>
    rw [matchBranches]
    exact (clearNode branch placed.1 s).bind fun _ => (clearBranches rest placed.2 s).bind fun _ => clearOk _

theorem clearSequence (nodes : List Node) (placed : placedItems nodes) (s : State) : Clear (run.matchSequence nodes s) := by
  cases nodes with
  | nil => exact clearOk _
  | cons first rest =>
    obtain ⟨here,later⟩ := placedItemsCons.mp placed
    cases first with
    | repeat_ body min max greedy =>
      rw [matchSequence]
      exact (run.clearRepeated s (clearNode body here) min max greedy).bind fun found => Clear.collect (clearSequence rest later) found
    | _ =>
      rw [matchSequence]
      · exact (clearNode _ here s).bind fun found => Clear.collect (clearSequence rest later) found
      all_goals
        intros
        contradiction

end

end

end Run

namespace Parse

def Gives {α : Type} (p : Parse α) (Q : α → Prop) : Prop := ∀ s, After p s (fun a _ => Q a) fun _ _ => True

section
variable {α β : Type} {p : Parse α} {Q : α → Prop} {R : β → Prop}

theorem givesTrivial (p : Parse α) : Gives p fun _ => True := by
  intro s
  unfold After
  cases p s <;> trivial

theorem givesPure {a} (holds : Q a) : Gives (pure a) Q := fun _ => holds

theorem givesFail (e) : Gives (fail e : Parse α) Q := fun _ => True.intro

theorem Gives.bind {f} (first : Gives p Q) (later : ∀ a, Q a → Gives (f a) R) : Gives (p >>= f) R := by
  intro s
  rw [afterBind]
  exact (first s).mono (fun a t holds => later a holds t) fun _ _ _ => True.intro

theorem givesAfter {f} (later : ∀ a, Gives (f a) R) : Gives (p >>= f) R := (givesTrivial p).bind fun a _ => later a

theorem givesError (message) : Gives (error message : Parse α) Q := givesAfter fun _ => givesFail _

theorem Gives.ite {c} [Decidable c] {p q} (yes : Gives p Q) (no : Gives q Q) : Gives (if c then p else q) Q := by
  split
  · exact yes
  · exact no

end

theorem givesEscape (unicode) : Gives (parseEscape unicode) Node.placed := by
  refine givesAfter fun token => ?_
  cases token with
  | none => exact givesError _
  | some escaped =>
    iterate 8 refine .ite (givesPure trivial) ?_
    refine givesAfter fun named => .ite (givesAfter fun _ => givesPure trivial) (.ite (givesAfter fun _ => givesPure trivial) ?_)
    exact givesAfter fun _ => givesPure trivial

theorem givesQuantified {atom} (placed : atom.placed) : Gives (parseQuantifier atom) placedItem := by
  refine givesAfter fun token => ?_
  cases token with
  | none => exact givesPure placed.item
  | some token =>
    refine givesAfter fun range => ?_
    cases range with
    | none => exact givesPure placed.item
    | some range => exact givesAfter fun _ => .ite (givesAfter fun _ => givesPure placed) (givesPure placed)

theorem placedKind (kind : GroupKind) {body} (placed : body.placed) : (kind.node body).placed := by
  cases kind <;> exact placed

-- One lemma for each of the mutual parsers, by the fuel they share.
structure Places (unicode : Bool) (fuel : Nat) : Prop where
  disjunction : ∀ terminator, Gives (parseDisjunction unicode fuel terminator) Node.placed
  branches : ∀ terminator, Gives (parseBranches unicode fuel terminator) placedBranches
  sequence : ∀ terminator, Gives (parseSequence unicode fuel terminator) placedItems
  atom : Gives (parseAtom unicode fuel) Node.placed
  group : Gives (parseGroup unicode fuel) Node.placed

theorem places (unicode fuel) : Places unicode fuel := by
  induction fuel with
  | zero => exact ⟨fun _ => givesFail _,fun _ => givesFail _,fun _ => givesFail _,givesFail _,givesFail _⟩
  | succ fuel ih =>
    constructor
    · intro terminator
      refine (ih.branches terminator).bind fun branches placed => ?_
      split
      · exact givesPure placed.1
      · exact givesPure placed
    · intro terminator
      refine (ih.sequence terminator).bind fun branch placed => givesAfter fun token => .ite (givesPure ⟨placed,trivial⟩) ?_
      exact givesAfter fun _ => (ih.branches terminator).bind fun branches later => givesPure ⟨placed,later⟩
    · intro terminator
      refine givesAfter fun token => ?_
      cases token with
      | none => exact givesPure trivial
      | some token =>
        refine .ite (givesPure trivial) (ih.atom.bind fun atom placed => (givesQuantified placed).bind fun node item => ?_)
        exact (ih.sequence terminator).bind fun nodes later => givesPure (placedItemsCons.mpr ⟨item,later⟩)
    · refine givesAfter fun token => ?_
      cases token with
      | none => exact givesError _
      | some token =>
        iterate 3 refine .ite (givesPure trivial) ?_
        refine .ite (givesAfter fun _ => givesPure trivial) (.ite ih.group (.ite (givesEscape unicode) ?_))
        exact .ite (givesError _) (.ite (givesError _) (givesAfter fun _ => givesPure trivial))
    · refine givesAfter fun kind => (ih.disjunction (some 0x29)).bind fun body placed => givesAfter fun token => ?_
      exact .ite (givesError _) (givesPure (placedKind kind placed))

end Parse

theorem compilePlaced {pattern flags regex} (compiled : Regex.compileWith pattern flags = .ok regex) :
    regex.expression.placed := by
  unfold Regex.compileWith at compiled
  have gives := (Parse.places flags.unicode (parseFuel pattern)).disjunction none ⟨0,pattern,0,[]⟩
  split at compiled
  · rename_i expression s parsed
    split at compiled
    · cases compiled
      exact gives.ok parsed
    · cases compiled
  · cases compiled

def Lossless (collapsed plain : Except Stop (List State)) : Prop :=
  collapsed = .error .budgetExhausted ∨ plain = .error .budgetExhausted ∨ (∃ e f, collapsed = .error e ∧ plain = .error f) ∨
    ∃ found all, collapsed = .ok found ∧ plain = .ok all ∧ found.head? = all.head? ∧ ∀ matched, matched ∈ found ↔ matched ∈ all

theorem agreeLossless {x y} (agree : Agree FirstKept.Alike x y) : Lossless x y := by
  cases agree with
  | left => exact .inl rfl
  | right => exact .inr (.inl rfl)
  | stopped e f => exact .inr (.inr (.inl ⟨e,f,rfl,rfl⟩))
  | done related => exact .inr (.inr (.inr ⟨_,_,rfl,rfl,related.head,related.mem⟩))

theorem dedupLossless :
    (∀ (run : Run) (nodes : List Node) (s : State),
      Lossless ((run.collapsing true).matchSequence nodes s) ((run.collapsing false).matchSequence nodes s)) ∧
    ∀ (pattern flags : List Nat) (regex : Regex), Regex.compile pattern flags = .ok regex → ∀ (run : Run) (s : State),
      run.matchNode regex.expression s ≠ .error .unreachable := by
  refine ⟨fun run nodes s => agreeLossless (run.matchSequenceAgrees nodes s),fun pattern flags regex compiled run s => ?_⟩
  unfold Regex.compile at compiled
  cases parsed : Flags.parse flags with
  | error failure =>
    rw [parsed] at compiled
    cases compiled
  | ok flags =>
    rw [parsed] at compiled
    exact run.clearNode regex.expression (compilePlaced compiled) s

def starNode : Node := .sequence [.repeat_ (.group (some 1) (.alternation [.sequence [.literal 0x61],.sequence [.literal 0x61]])) 0 none true]

def plainTable : CharTable := ⟨fun value => [value],fun _ => false⟩

theorem starLossless :
    Lossless ((Run.collapsing ⟨plainTable,noFlags,[],[0x61,0x61],true⟩ true).matchSequence [starNode] ⟨0,[none,none]⟩)
      ((Run.collapsing ⟨plainTable,noFlags,[],[0x61,0x61],true⟩ false).matchSequence [starNode] ⟨0,[none,none]⟩) ∧
    Run.matchNode ⟨plainTable,noFlags,[],[0x61,0x61],true⟩ starNode ⟨0,[none,none]⟩ ≠ .error .unreachable := by
  have compiled : Regex.compile [0x28,0x61,0x7c,0x61,0x29,0x2a] [] = .ok ⟨starNode,noFlags,1,[]⟩ := by rfl
  exact ⟨dedupLossless.1 _ _ _,dedupLossless.2 _ _ _ compiled _ _⟩

end Bamts.Regexp
