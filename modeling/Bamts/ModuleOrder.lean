import Bamts.ModuleStart
import Mathlib.Logic.Relation

/-! The order of evaluation: an entry starts after the modules it depends on, cycles apart, as long as no import reaches back
into an evaluation that is under way. -/
set_option linter.all false
namespace Bamts.Evaluation
open Effect Linkage
open Bamts.Runtime (Value ThrowOrigin RuntimeErrorKind)

def Setup.Depends (setup : Setup) (m d : ModuleId) : Prop :=
  ∃ code, setup.program.module m = some code ∧ ∃ edge ∈ code.edges, edge.kind.hasStatic = true ∧ edge.target = .local d

def Setup.Reaches (setup : Setup) : ModuleId → ModuleId → Prop := Relation.ReflTransGen setup.Depends

def Setup.Cyclic (setup : Setup) (m d : ModuleId) : Prop := setup.Reaches m d ∧ setup.Reaches d m

theorem dependenciesFromExact {setup module m index edges found} (ok : dependenciesFrom setup module m index edges = .ok found) (d) :
    d ∈ found ↔ ∃ edge ∈ edges, edge.kind.hasStatic = true ∧ edge.target = .local d := by
  induction edges generalizing index found with
  | nil =>
    cases ok
    simp
  | cons edge rest ih =>
    unfold dependenciesFrom at ok
    split at ok
    · rename_i dynamic
      rw [ih ok]
      simp [dynamic]
    · rename_i static
      have static : edge.kind.hasStatic = true := by simpa using static
      split at ok
      · rename_i target inside
        cases tail : dependenciesFrom setup module m (index+1) rest with
        | error kind =>
          rw [tail] at ok
          cases ok
        | ok others =>
          rw [tail] at ok
          cases ok
          rw [List.mem_cons,ih tail,List.exists_mem_cons_iff]
          exact or_congr_left ⟨fun same => ⟨static,by rw [inside,same]⟩,fun there => (EdgeTarget.local.inj (inside.symm.trans there.2)).symm⟩
      · rename_i outside
        split at ok
        · rw [ih ok]
          simp [outside]
        · cases ok

theorem dependenciesExact {setup : Setup} {m found} (ok : setup.dependencies m = .ok found) (d) :
    d ∈ found ↔ setup.Depends m d := by
  unfold Setup.dependencies at ok
  unfold Setup.Depends
  cases here : setup.program.module m with
  | none =>
    rw [here] at ok
    cases ok
    simp
  | some code =>
    rw [here] at ok
    rw [dependenciesFromExact ok d]
    simp

def Done (s : Evaluator) (d : ModuleId) : Prop := s.modules d = .evaluated (.ok ())
def Owner (s : Evaluator) (q : Nat) (d : ModuleId) : Prop := ∃ (r : Nat) (a : AsyncActivation), s.records[r]? = some a ∧ a.promise = q ∧ a.module = d
def Awaits (s : Evaluator) (p : ModuleId) (q : Nat) : Prop := ∃ parents, s.promises[q]? = some (.pending parents) ∧ p ∈ parents
def Refused (s : Evaluator) (p : ModuleId) : Prop := ∃ value origin, ⟨p,.rejected value origin⟩ ∈ s.jobs

def Satisfied (setup : Setup) (s : Evaluator) (m d : ModuleId) : Prop :=
  Done s d ∨ setup.Cyclic m d ∨ (∃ q, Awaits s m q ∧ Owner s q d) ∨ Refused s m

-- A promise belongs to one record, and the module of a fulfilled one is done.
structure Board (s : Evaluator) : Prop where
  unique : ∀ (r r' : Nat) a a', s.records[r]? = some a → s.records[r']? = some a' → a.promise = a'.promise → r = r'
  inside : ∀ (r : Nat) a, s.records[r]? = some a → a.promise < s.promises.length
  fulfilled : ∀ q d, s.promises[q]? = some (.settled .fulfilled) → Owner s q d → Done s d

-- What is done stays done, and a reaction stays until its dependency is done or has rejected.
structure Advance (s t : Evaluator) : Prop where
  done : ∀ d, Done s d → Done t d
  owner : ∀ q d, Owner s q d → Owner t q d
  awaits : ∀ p q, Awaits s p q → Awaits t p q ∨ Refused t p ∨ ∀ d, Owner s q d → Done t d
  refused : ∀ p, Refused s p → Refused t p

section
variable {setup : Setup} {s t u : Evaluator} {m : ModuleId}

theorem Advance.refl (s) : Advance s s := ⟨fun _ h => h,fun _ _ h => h,fun _ _ h => .inl h,fun _ h => h⟩

theorem Advance.trans (first : Advance s t) (second : Advance t u) : Advance s u := by
  refine ⟨fun d h => second.done d (first.done d h),fun q d h => second.owner q d (first.owner q d h),?_,fun p h => second.refused p (first.refused p h)⟩
  intro p q waits
  rcases first.awaits p q waits with still | refused | done
  · rcases second.awaits p q still with still | refused | done
    · exact .inl still
    · exact .inr (.inl refused)
    · exact .inr (.inr fun d owns => done d (first.owner q d owns))
  · exact .inr (.inl (second.refused p refused))
  · exact .inr (.inr fun d owns => second.done d (done d owns))

theorem Advance.satisfied (advance : Advance s t) {d} (known : Satisfied setup s m d) : Satisfied setup t m d := by
  rcases known with done | cyclic | ⟨q,waits,owns⟩ | refused
  · exact .inl (advance.done d done)
  · exact .inr (.inl cyclic)
  · rcases advance.awaits m q waits with still | refused | done
    · exact .inr (.inr (.inl ⟨q,still,advance.owner q d owns⟩))
    · exact .inr (.inr (.inr refused))
    · exact .inl (done d owns)
  · exact .inr (.inr (.inr (advance.refused m refused)))

theorem Satisfied.settles (none_ : s.outstanding m = 0) {d} (known : Satisfied setup s m d) : Done s d ∨ setup.Cyclic m d := by
  rcases known with done | cyclic | ⟨q,⟨parents,found,member⟩,_⟩ | ⟨value,origin,member⟩
  · exact .inl done
  · exact .inr cyclic
  · have here : m ∈ s.promises.flatMap ModulePromise.parents := List.mem_flatMap.mpr ⟨_,List.mem_of_getElem? found,member⟩
    have := List.count_pos_iff.mpr here
    unfold Evaluator.outstanding at none_
    omega
  · have here : m ∈ s.jobs.map ModuleJob.parent := List.mem_map.mpr ⟨_,member,rfl⟩
    have := List.count_pos_iff.mpr here
    unfold Evaluator.outstanding at none_
    omega

def ModuleState.Plain (state : ModuleState) : Prop := state ≠ .evaluating ∧ ∀ p n, state = .evaluatingAsync p n → n = 0

-- What a computation for module `m` may do besides moving frames. Only an abort makes it unevaluated again.
structure Local (m : ModuleId) (s t : Evaluator) : Prop where
  stack : t.stack = s.stack
  others : ∀ x, x ≠ m → t.modules x = s.modules x
  plain : t.modules m = s.modules m ∨ (t.modules m).Plain
  kept : ∀ result, s.modules m = .evaluated result → t.modules m = .evaluated result
  idle : t.modules m = .unevaluated → s.modules m = .unevaluated ∨ .aborted m ∈ t.log
  log : s.log <+: t.log
  board : Board t
  advance : Advance s t

theorem Local.refl (board : Board s) (m) : Local m s s := ⟨rfl,fun _ _ => rfl,.inl rfl,fun _ h => h,.inl,List.prefix_refl _,board,.refl s⟩

theorem Local.silent (modules : t.modules = s.modules) (stack : t.stack = s.stack) (log : s.log <+: t.log) (board : Board t) (advance : Advance s t) :
    Local m s t := by
  refine ⟨stack,fun x _ => by rw [modules],.inl (by rw [modules]),fun result state => by rw [modules]; exact state,fun state => .inl ?_,log,board,advance⟩
  rw [← modules]
  exact state

theorem Local.trans (first : Local m s t) (second : Local m t u) : Local m s u := by
  refine ⟨second.stack.trans first.stack,fun x other => (second.others x other).trans (first.others x other),?_,
    fun result state => second.kept result (first.kept result state),?_,first.log.trans second.log,second.board,first.advance.trans second.advance⟩
  · rcases second.plain with same | plain
    · rw [same]
      exact first.plain
    · exact .inr plain
  · intro state
    rcases second.idle state with before | aborted
    · exact (first.idle before).imp_right fun member => second.log.subset member
    · exact .inr aborted

section
variable {α β : Type} {p q : Walk α}

end

theorem writeAdvance (board : Board s) (state) (allowed : Done s m → state = .evaluated (.ok ())) :
    Board (s.write m state) ∧ Advance s (s.write m state) := by
  have done : ∀ d, Done s d → Done (s.write m state) d := by
    intro d finished
    unfold Done at finished ⊢
    by_cases same : d = m
    · subst same
      rw [writeSame,allowed finished]
    · rw [writeOther s state same]
      exact finished
  exact ⟨⟨board.unique,board.inside,fun q d settled owns => done d (board.fulfilled q d settled owns)⟩,
    ⟨done,fun _ _ h => h,fun _ _ h => .inl h,fun _ h => h⟩⟩

theorem notedLocal (board : Board s) (m returning log) (longer : s.log <+: log) : Local m s { s with returning := returning,log := log } :=
  .silent rfl rfl longer ⟨board.unique,board.inside,board.fulfilled⟩ ⟨fun _ h => h,fun _ _ h => h,fun _ _ h => .inl h,fun _ h => h⟩

structure Completes (s : Evaluator) (p : ModulePending) (completion : Option (Except RuntimeErrorKind Unit)) : Prop where
  stored : ∃ a, s.records[p.record]? = some a ∧ a.completion = completion

theorem Pairs.owner (board : Board s) {p} (known : Pairs s m p) {d} (owns : Owner s p.promise d) : d = m := by
  obtain ⟨a,found,owner,promise⟩ := known.made
  obtain ⟨r,b,there,same,other⟩ := owns
  have equal := board.unique r p.record b a there found (same.trans promise.symm)
  subst equal
  rw [found] at there
  cases there
  exact other.symm.trans owner

variable {p : ModulePending}

theorem Completes.only {completion} (stored : Completes s p completion) (same : t.records = s.records) :
    Completes t p completion := ⟨by rw [same]; exact stored.stored⟩

theorem Pairs.same (known : Pairs s m p) (same : t.records = s.records) : Pairs t m p := ⟨by rw [same]; exact known.made⟩

structure Ends (m : ModuleId) (pair : Option ModulePending) (s : Evaluator) (result : StartResult) (t : Evaluator) : Prop where
  here : Local m s t
  known : ∀ p, pair = some p → Pairs t m p
  success : result = .settled (.ok ()) → ∀ kind, t.modules m ≠ .evaluated (.error kind)
  parked : ∀ q, result = .pending q → t.modules m = .evaluatingAsync q 0 ∧ Pairs t m q

end

def Frame.holds : Frame → Bool
  | .walk .. | .entry _ _ .walk => true
  | .entry .. => false

def Calls (upper lower : Frame) : Prop := ∀ m d rest n pair, lower = .walk m d rest n pair → upper.holds = true ∧ d = some upper.module

def Nested (setup : Setup) (s : Evaluator) (frames : List Frame) : Prop := ∀ (above : List Frame) (f : Frame) (below : List Frame), frames = above ++ f :: below → f.holds = true →
  ∀ x, s.modules x = .evaluating → x ∉ above.map Frame.module → setup.Reaches f.module x → setup.Reaches x f.module

def Hears (setup : Setup) (s : Evaluator) (m : ModuleId) (d : Option ModuleId) : Option (Except RuntimeErrorKind ModuleStart) → Prop
  | none => d = none
  | some (.error _) => True
  | some (.ok (.pending q)) => ∃ x, d = some x ∧ Owner s q.promise x
  | some (.ok _) => ∃ x, d = some x ∧ (Done s x ∨ setup.Cyclic m x)

structure Walked (setup : Setup) (s : Evaluator) (m : ModuleId) (d : Option ModuleId) (rest : List ModuleId) : Prop where
  called : ∀ x, setup.Depends m x → x ∈ rest ∨ d = some x ∨ Satisfied setup s m x
  static : ∀ x, x ∈ rest ∨ d = some x → setup.Depends m x

structure Arranged (setup : Setup) (s : Evaluator) : Prop where
  board : Board s
  walked : ∀ m d rest n pair, .walk m d rest n pair ∈ s.stack → Walked setup s m d rest
  parked : ∀ m p n, s.modules m = .evaluatingAsync p n → 0 < n → ∀ x, setup.Depends m x → Satisfied setup s m x
  nested : Nested setup s s.stack
  linked : s.stack.IsChain Calls

structure Ordered (setup : Setup) (s : Evaluator) : Prop extends Arranged setup s where
  heard : ∀ m d rest n pair below, s.stack = .walk m d rest n pair :: below → Hears setup s m d s.returning

section
variable {setup : Setup} {s t u : Evaluator} {m : ModuleId} {f : Frame} {below : List Frame}

theorem Walked.advance {d rest} (walked : Walked setup s m d rest) (advance : Advance s t) : Walked setup t m d rest :=
  ⟨fun x depends => (walked.called x depends).imp_right fun called => called.imp_right fun known => advance.satisfied known,walked.static⟩

theorem Nested.pop (nested : Nested setup s (f :: below)) (gone : ∀ x, t.modules x = .evaluating → s.modules x = .evaluating ∧ x ≠ f.module) :
    Nested setup t below := by
  intro above g rest split holds x evaluating away reaches
  obtain ⟨before,other⟩ := gone x evaluating
  refine nested (f :: above) g rest (by rw [split]; rfl) holds x before ?_ reaches
  intro member
  rcases List.mem_cons.mp member with same | inside
  · exact other same
  · exact away inside

theorem Nested.push (nested : Nested setup s below) (grown : ∀ x, t.modules x = .evaluating → x = f.module ∨ s.modules x = .evaluating)
    (back : f.holds = true → ∀ x, t.modules x = .evaluating → setup.Reaches f.module x → setup.Reaches x f.module) : Nested setup t (f :: below) := by
  intro above g rest split holds x evaluating away reaches
  cases above with
  | nil =>
    cases split
    exact back holds x evaluating reaches
  | cons h above =>
    cases split
    rcases grown x evaluating with same | before
    · exact absurd (same ▸ List.mem_cons_self) away
    · exact nested above g rest rfl holds x before (fun inside => away (List.mem_cons_of_mem _ inside)) reaches

theorem Nested.rename {g} (nested : Nested setup s (f :: below)) (module : g.module = f.module) (holds : g.holds = true → f.holds = true)
    (same : ∀ x, t.modules x = .evaluating → s.modules x = .evaluating) : Nested setup t (g :: below) := by
  intro above h lower split holding x evaluating away reaches
  cases above with
  | nil =>
    cases split
    rw [module] at reaches ⊢
    exact nested [] f below rfl (holds holding) x (same x evaluating) List.not_mem_nil reaches
  | cons k above =>
    cases split
    refine nested (f :: above) h lower rfl holding x (same x evaluating) ?_ reaches
    rw [List.map_cons,← module]
    exact away

theorem Hears.advance {d returning} (heard : Hears setup s m d returning) (advance : Advance s t) : Hears setup t m d returning := by
  cases returning with
  | none => exact heard
  | some result => cases result with
    | error kind => exact trivial
    | ok start => cases start with
      | pending q =>
        obtain ⟨x,same,owns⟩ := heard
        exact ⟨x,same,advance.owner _ x owns⟩
      | settled =>
        obtain ⟨x,same,ready⟩ := heard
        exact ⟨x,same,ready.imp_left (advance.done x)⟩
      | cached =>
        obtain ⟨x,same,ready⟩ := heard
        exact ⟨x,same,ready.imp_left (advance.done x)⟩

theorem Ordered.pop (good : Ordered setup s) (top : s.stack = f :: below) (held : f.module = m) (here : Local m { s with stack := below } t)
    (plain : (t.modules m).Plain) (heard : ∀ d rest n pair lower x, below = .walk x d rest n pair :: lower → f.holds = true → d = some m →
      Hears setup t x d t.returning) : Ordered setup t := by
  have stack : t.stack = below := here.stack
  have advance : Advance s t := ⟨here.advance.done,here.advance.owner,here.advance.awaits,here.advance.refused⟩
  have linked : (f :: below).IsChain Calls := top ▸ good.linked
  refine ⟨⟨here.board,?_,?_,?_,?_⟩,?_⟩
  · intro x d rest n pair member
    rw [stack] at member
    exact (good.walked x d rest n pair (by rw [top]; exact List.mem_cons_of_mem _ member)).advance advance
  · intro x p n state positive y depends
    by_cases same : x = m
    · subst same
      have none_ := plain.2 p n state
      omega
    · exact advance.satisfied (good.parked x p n ((here.others x same).symm.trans state) positive y depends)
  · rw [stack]
    refine Nested.pop (top ▸ good.nested) fun x evaluating => ?_
    have other : x ≠ m := fun same => plain.1 (same ▸ evaluating)
    exact ⟨(here.others x other).symm.trans evaluating,by rw [held]; exact other⟩
  · rw [stack]
    exact linked.tail
  · intro x d rest n pair lower split
    rw [stack] at split
    subst split
    obtain ⟨holds,called⟩ := (List.isChain_cons_cons.mp linked).1 x d rest n pair rfl
    exact heard d rest n pair lower x rfl holds (by rw [called,held])

theorem Arranged.begin (good : Arranged setup s) {found} (idle : s.modules m = .unevaluated) (ok : setup.dependencies m = .ok found)
    (calls : ∀ lower, s.stack.head? = some lower → Calls (.walk m none found 0 none) lower)
    (back : ∀ x, s.modules x = .evaluating → setup.Reaches m x → setup.Reaches x m) :
    Arranged setup { s.write m .evaluating with stack := .walk m none found 0 none :: s.stack } := by
  obtain ⟨board,advance⟩ := writeAdvance (m := m) good.board .evaluating fun done => nomatch idle.symm.trans done
  have advance : Advance s { s.write m .evaluating with stack := .walk m none found 0 none :: s.stack } :=
    ⟨advance.done,advance.owner,advance.awaits,advance.refused⟩
  have grown : ∀ x, (s.write m .evaluating).modules x = .evaluating → x = m ∨ s.modules x = .evaluating := by
    intro x evaluating
    by_cases same : x = m
    · exact .inl same
    · exact .inr ((writeOther s .evaluating same).symm.trans evaluating)
  refine ⟨⟨board.unique,board.inside,board.fulfilled⟩,?_,?_,?_,?_⟩
  · intro x d rest n pair member
    rcases List.mem_cons.mp member with equal | old
    · cases equal
      exact ⟨fun y depends => .inl ((dependenciesExact ok y).mpr depends),fun y called => called.elim (dependenciesExact ok y).mp nofun⟩
    · exact (good.walked x d rest n pair old).advance advance
  · intro x p n state positive y depends
    by_cases same : x = m
    · subst same
      rw [writeSame] at state
      cases state
    · exact advance.satisfied (good.parked x p n ((writeOther s .evaluating same).symm.trans state) positive y depends)
  · refine Nested.push good.nested grown fun _ x evaluating reaches => ?_
    rcases grown x evaluating with rfl | before
    · exact .refl
    · exact back x before reaches
  · show (_ :: s.stack).IsChain Calls
    cases top : s.stack with
    | nil => exact List.isChain_singleton _
    | cons lower rest => exact List.isChain_cons_cons.mpr ⟨calls lower (by rw [top]; rfl),top ▸ good.linked⟩

end

end Bamts.Evaluation
