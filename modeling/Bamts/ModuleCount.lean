import Bamts.ModuleEvaluate
import Mathlib.Data.List.Count
import Mathlib.Data.List.Nodup

/-! The count of a parked module: it is the number of reactions that are outstanding for it, as long as no fatal failure ends
an evaluation that already waits. -/
set_option linter.all false
namespace Bamts.Evaluation
open Effect Linkage
open Bamts.Runtime (Value ThrowOrigin RuntimeErrorKind)

def ModulePromise.parents : ModulePromise → List ModuleId
  | .pending parents => parents
  | .settled _ => []

def Evaluator.outstanding (s : Evaluator) (parent : ModuleId) : Nat :=
  (s.promises.flatMap ModulePromise.parents).count parent+(s.jobs.map ModuleJob.parent).count parent

def Frame.module : Frame → ModuleId
  | .walk module .. => module
  | .entry module .. => module

structure Pairs (s : Evaluator) (m : ModuleId) (pair : ModulePending) : Prop where
  made : ∃ activation, s.records[pair.record]? = some activation ∧ activation.module = m ∧ activation.promise = pair.promise

structure Blank (s : Evaluator) (pair : ModulePending) : Prop where
  blank : ∀ activation, s.records[pair.record]? = some activation → activation.completion = none

def owes (s : Evaluator) (owed : List ModuleId) (m : ModuleId) : Nat := s.outstanding m+owed.count m

def Frame.Sound (s : Evaluator) (owed : List ModuleId) : Frame → Prop
  | .walk m _ _ n pair => s.modules m = .evaluating ∧ owes s owed m = n ∧ (0 < n → pair ≠ none) ∧
      ∀ p, pair = some p → Pairs s m p ∧ Blank s p
  | .entry m pair .walk => s.modules m = .evaluating ∧ owes s owed m = 0 ∧ ∀ p, pair = some p → Pairs s m p ∧ Blank s p
  | .entry m pair .counted => ∃ p, pair = some p ∧ s.modules m = .evaluatingAsync p 0 ∧ Pairs s m p ∧ Blank s p
  | .entry m pair .resumed => ∃ p, pair = some p ∧ s.modules m = .evaluatingAsync p 0

structure Counted (frames : List Frame) (owed : List ModuleId) (s : Evaluator) : Prop where
  distinct : (frames.map Frame.module).Nodup
  framed : ∀ f ∈ frames, f.Sound s owed
  idle : ∀ m, s.modules m = .unevaluated → owes s owed m = 0
  waiting : ∀ m p n, s.modules m = .evaluatingAsync p n → owes s owed m = n ∧ Pairs s m p ∧ (0 < n → Blank s p)
  asleep : ∀ (r : Nat) a, s.records[r]? = some a → a.suspended = true →
    s.modules a.module = .evaluatingAsync ⟨r,a.promise⟩ 0 ∧ a.module ∉ frames.map Frame.module
  owned : ∀ (r : Nat) a, s.records[r]? = some a → a.promise < s.promises.length
  returned : ∀ p, s.returning = some (.ok (.pending p)) → p.promise < s.promises.length
  exact_ : ∀ m, .underflowed m ∉ s.log

@[simp] theorem writeSame (s : Evaluator) (m state) : (s.write m state).modules m = state := Function.update_self _ _ _

theorem writeOther (s : Evaluator) {m x} (state) (other : x ≠ m) : (s.write m state).modules x = s.modules x :=
  Function.update_of_ne other _ _

section
variable {s t : Evaluator} {frames : List Frame} {owed : List ModuleId} {f : Frame} {m : ModuleId}

theorem Counted.drop (good : Counted (f :: frames) owed s) : Counted frames owed s := by
  refine ⟨(List.nodup_cons.mp good.distinct).2,fun g member => good.framed g (List.mem_cons_of_mem _ member),good.idle,good.waiting,?_,
    good.owned,good.returned,good.exact_⟩
  intro r a found asleep
  obtain ⟨state,away⟩ := good.asleep r a found asleep
  exact ⟨state,fun inside => away (List.mem_cons_of_mem _ inside)⟩

theorem Counted.away (good : Counted (f :: frames) owed s) : f.module ∉ frames.map Frame.module := (List.nodup_cons.mp good.distinct).1

theorem Counted.awake (good : Counted (f :: frames) owed s) {r : Nat} {a} (found : s.records[r]? = some a)
    (same : a.module = f.module) : a.suspended = false := by
  cases asleep : a.suspended with
  | false => rfl
  | true => exact absurd (same ▸ List.mem_cons_self) (good.asleep r a found asleep).2

theorem Counted.push (good : Counted frames owed s) (sound : f.Sound s owed) (away : f.module ∉ frames.map Frame.module)
    (awake : ∀ (r : Nat) a, s.records[r]? = some a → a.module = f.module → a.suspended = false) : Counted (f :: frames) owed s := by
  refine ⟨List.nodup_cons.mpr ⟨away,good.distinct⟩,?_,good.idle,good.waiting,?_,good.owned,good.returned,good.exact_⟩
  · intro g member
    rcases List.mem_cons.mp member with rfl | old
    · exact sound
    · exact good.framed g old
  · intro r a found asleep
    obtain ⟨state,apart⟩ := good.asleep r a found asleep
    refine ⟨state,fun inside => ?_⟩
    rcases List.mem_cons.mp inside with same | old
    · rw [awake r a found same] at asleep
      cases asleep
    · exact apart old

theorem Frame.Sound.moved {s t owed owed'} (sound : f.Sound s owed)
    (state : t.modules f.module = s.modules f.module) (count : owes t owed' f.module = owes s owed f.module)
    (pairs : ∀ p, Pairs s f.module p → Pairs t f.module p) (blank : ∀ p, Pairs s f.module p → Blank s p → Blank t p) : f.Sound t owed' := by
  cases f with
  | walk m dependency rest n pair =>
    obtain ⟨now,number,forced,known⟩ := sound
    exact ⟨state.trans now,count.trans number,forced,fun p same => ⟨pairs p (known p same).1,blank p (known p same).1 (known p same).2⟩⟩
  | entry m pair caller => cases caller with
    | walk =>
      obtain ⟨now,number,known⟩ := sound
      exact ⟨state.trans now,count.trans number,fun p same => ⟨pairs p (known p same).1,blank p (known p same).1 (known p same).2⟩⟩
    | counted =>
      obtain ⟨p,same,now,known,old⟩ := sound
      exact ⟨p,same,state.trans now,pairs p known,blank p known old⟩
    | resumed =>
      obtain ⟨p,same,now⟩ := sound
      exact ⟨p,same,state.trans now⟩

theorem Counted.write (good : Counted frames owed s) {state owed'} (away : m ∉ frames.map Frame.module)
    (awake : ∀ (r : Nat) a, s.records[r]? = some a → a.module = m → a.suspended = false)
    (same : ∀ x, x ≠ m → owed'.count x = owed.count x) (idle : state = .unevaluated → owes s owed' m = 0)
    (waiting : ∀ p n, state = .evaluatingAsync p n → owes s owed' m = n ∧ Pairs s m p ∧ (0 < n → Blank s p)) :
    Counted frames owed' (s.write m state) := by
  have kept : ∀ x, x ≠ m → (s.write m state).modules x = s.modules x := fun x other => writeOther s state other
  have count : ∀ x, x ≠ m → owes (s.write m state) owed' x = owes s owed x := fun x other => by
    show s.outstanding x+owed'.count x = _
    rw [same x other,owes]
  refine ⟨good.distinct,?_,?_,?_,?_,good.owned,good.returned,good.exact_⟩
  · intro g member
    have other : g.module ≠ m := fun equal => away (equal ▸ List.mem_map_of_mem member)
    exact (good.framed g member).moved (kept _ other) (count _ other) (fun _ known => ⟨known.made⟩) fun _ _ blank => ⟨blank.blank⟩
  · intro x state'
    by_cases equal : x = m
    · subst equal
      exact idle ((writeSame s x state).symm.trans state')
    · rw [count x equal]
      exact good.idle x ((kept x equal).symm.trans state')
  · intro x p n state'
    by_cases equal : x = m
    · subst equal
      obtain ⟨number,known,blank⟩ := waiting p n ((writeSame s x state).symm.trans state')
      exact ⟨number,⟨known.made⟩,fun positive => ⟨(blank positive).blank⟩⟩
    · rw [count x equal]
      obtain ⟨number,known,blank⟩ := good.waiting x p n ((kept x equal).symm.trans state')
      exact ⟨number,⟨known.made⟩,fun positive => ⟨(blank positive).blank⟩⟩
  · intro r a found asleep
    have other : a.module ≠ m := fun equal => by
      rw [awake r a found equal] at asleep
      cases asleep
    rw [kept _ other]
    exact good.asleep r a found asleep

theorem Counted.reacted (good : Counted frames owed s) (promises jobs) {owed'} (grows : s.promises.length ≤ promises.length)
    (count : ∀ x, (s.modules x = .evaluating → x ∈ frames.map Frame.module) →
      (∀ result, s.modules x ≠ .evaluated result) → owes { s with promises := promises,jobs := jobs } owed' x = owes s owed x) :
    Counted frames owed' { s with promises := promises,jobs := jobs } := by
  refine ⟨good.distinct,?_,?_,?_,good.asleep,?_,?_,good.exact_⟩
  · intro g member
    refine (good.framed g member).moved rfl ?_ (fun _ known => ⟨known.made⟩) fun _ _ blank => ⟨blank.blank⟩
    refine count g.module (fun _ => List.mem_map_of_mem member) ?_
    intro result state
    have sound := good.framed g member
    cases g with
    | walk m dependency rest n pair => exact nomatch sound.1.symm.trans state
    | entry m pair caller => cases caller with
      | walk => exact nomatch sound.1.symm.trans state
      | counted =>
        obtain ⟨_,_,now,_⟩ := sound
        exact nomatch now.symm.trans state
      | resumed =>
        obtain ⟨_,_,now⟩ := sound
        exact nomatch now.symm.trans state
  · intro x state
    rw [count x (fun other => nomatch state.symm.trans other) fun _ other => nomatch state.symm.trans other]
    exact good.idle x state
  · intro x p n state
    rw [count x (fun other => nomatch state.symm.trans other) fun _ other => nomatch state.symm.trans other]
    obtain ⟨number,known,blank⟩ := good.waiting x p n state
    exact ⟨number,⟨known.made⟩,fun positive => ⟨(blank positive).blank⟩⟩
  · intro r a found
    exact Nat.lt_of_lt_of_le (good.owned r a found) grows
  · intro p back
    exact Nat.lt_of_lt_of_le (good.returned p back) grows

theorem Counted.recorded (good : Counted frames owed s) {r a b} (found : s.records[r]? = some a)
    (module : b.module = a.module) (promise : b.promise = a.promise)
    (asleep : b.suspended = true → s.modules a.module = .evaluatingAsync ⟨r,a.promise⟩ 0 ∧ a.module ∉ frames.map Frame.module)
    (blank : b.completion ≠ none → b.completion ≠ a.completion →
      (∀ p n, s.modules a.module = .evaluatingAsync p n → n = 0) ∧ a.module ∉ frames.map Frame.module) :
    Counted frames owed { s with records := s.records.set r b } := by
  have inside := (List.getElem?_eq_some_iff.mp found).1
  have pairs : ∀ x p, Pairs s x p → Pairs { s with records := s.records.set r b } x p := by
    intro x p known
    obtain ⟨activation,there,owner,same⟩ := known.made
    by_cases equal : r = p.record
    · subst equal
      rw [found] at there
      cases there
      exact ⟨b,List.getElem?_set_self inside,module.trans owner,promise.trans same⟩
    · exact ⟨activation,(List.getElem?_set_ne equal).trans there,owner,same⟩
  have blanks : ∀ x p, Pairs s x p → (x = a.module → b.completion = none ∨ b.completion = a.completion) → Blank s p →
      Blank { s with records := s.records.set r b } p := by
    intro x p known allowed blank
    refine ⟨fun activation there => ?_⟩
    by_cases equal : r = p.record
    · subst equal
      obtain ⟨_,here,owner,_⟩ := known.made
      rw [found] at here
      cases here
      rw [List.getElem?_set_self inside] at there
      cases there
      rcases allowed owner.symm with none_ | same
      · exact none_
      · rw [same]
        exact blank.blank a found
    · exact blank.blank activation ((List.getElem?_set_ne equal).symm.trans there)
  refine ⟨good.distinct,?_,good.idle,?_,?_,?_,good.returned,good.exact_⟩
  · intro g member
    refine (good.framed g member).moved rfl rfl (pairs _) fun p known old => blanks _ p known ?_ old
    intro same
    by_contra strange
    rw [not_or] at strange
    exact (blank strange.1 strange.2).2 (same ▸ List.mem_map_of_mem member)
  · intro x p n state
    obtain ⟨number,known,old⟩ := good.waiting x p n state
    refine ⟨number,pairs x p known,fun positive => blanks x p known ?_ (old positive)⟩
    intro same
    by_contra strange
    rw [not_or] at strange
    have none_ := (blank strange.1 strange.2).1 p n (by rw [← same]; exact state)
    omega
  · intro r' a' found' suspended
    by_cases equal : r = r'
    · subst equal
      rw [List.getElem?_set_self inside] at found'
      cases found'
      rw [module,promise]
      exact asleep suspended
    · exact good.asleep r' a' ((List.getElem?_set_ne equal).symm.trans found') suspended
  · intro r' a' found'
    by_cases equal : r = r'
    · subst equal
      rw [List.getElem?_set_self inside] at found'
      cases found'
      rw [promise]
      exact good.owned r a found
    · exact good.owned r' a' ((List.getElem?_set_ne equal).symm.trans found')

theorem Counted.made (good : Counted frames owed s) {q} (inside : q < s.promises.length) (m) :
    Counted frames owed { s with records := s.records ++ [⟨q,m,false,none⟩] } := by
  have old : ∀ {r : Nat} {a : AsyncActivation}, s.records[r]? = some a → (s.records ++ [⟨q,m,false,none⟩])[r]? = some a := by
    intro r a found
    rw [List.getElem?_append_left (List.getElem?_eq_some_iff.mp found).1]
    exact found
  have back : ∀ {r : Nat} {a : AsyncActivation}, (s.records ++ [⟨q,m,false,none⟩])[r]? = some a →
      s.records[r]? = some a ∨ a = ⟨q,m,false,none⟩ := by
    intro r a found
    rcases Nat.lt_or_ge r s.records.length with before | after
    · rw [List.getElem?_append_left before] at found
      exact .inl found
    · rw [List.getElem?_append_right after] at found
      exact .inr (List.mem_singleton.mp (List.mem_of_getElem? found))
  have pairs : ∀ x p, Pairs s x p → Pairs { s with records := s.records ++ [⟨q,m,false,none⟩] } x p := by
    intro x p known
    obtain ⟨a,there,rest⟩ := known.made
    exact ⟨a,old there,rest⟩
  have blanks : ∀ x p, Pairs s x p → Blank s p → Blank { s with records := s.records ++ [⟨q,m,false,none⟩] } p := by
    intro x p known blank
    refine ⟨fun a there => ?_⟩
    rcases back there with before | rfl
    · exact blank.blank a before
    · rfl
  refine ⟨good.distinct,?_,good.idle,?_,?_,?_,good.returned,good.exact_⟩
  · exact fun g member => (good.framed g member).moved rfl rfl (pairs _) (blanks _)
  · intro x p n state
    obtain ⟨number,known,blank⟩ := good.waiting x p n state
    exact ⟨number,pairs x p known,fun positive => blanks x p known (blank positive)⟩
  · intro r a found suspended
    rcases back found with before | rfl
    · exact good.asleep r a before suspended
    · cases suspended
  · intro r a found
    rcases back found with before | rfl
    · exact good.owned r a before
    · exact inside

theorem Counted.noted (good : Counted frames owed s) {returning log}
    (stack) (returned : ∀ p, returning = some (.ok (.pending p)) → p.promise < s.promises.length)
    (exact_ : ∀ m, .underflowed m ∉ log) : Counted frames owed { s with stack := stack,returning := returning,log := log } := by
  refine ⟨good.distinct,?_,good.idle,?_,good.asleep,good.owned,returned,exact_⟩
  · exact fun g member => (good.framed g member).moved rfl rfl (fun _ known => ⟨known.made⟩) fun _ _ blank => ⟨blank.blank⟩
  · intro x p n state
    obtain ⟨number,known,blank⟩ := good.waiting x p n state
    exact ⟨number,⟨known.made⟩,fun positive => ⟨(blank positive).blank⟩⟩

-- The bookkeeping around promises and records leaves the rest alone and does not move a count.
structure Steady (s t : Evaluator) : Prop where
  modules : t.modules = s.modules
  stack : t.stack = s.stack
  returning : t.returning = s.returning
  log : t.log = s.log
  grows : s.promises.length ≤ t.promises.length
  count : ∀ owed x, owes t owed x = owes s owed x

theorem Steady.refl (s) : Steady s s := ⟨rfl,rfl,rfl,rfl,Nat.le_refl _,fun _ _ => rfl⟩

theorem atSpec (failing site s) :
    After (at_ failing site) s (fun _ t => t = s) (fun kind t => t = s ∧ ∃ fatal, failing = some (site,fatal) ∧ kind = fatal.kind) := by
  unfold at_
  cases failing with
  | none => exact rfl
  | some here =>
    obtain ⟨here,fatal⟩ := here
    dsimp only
    split
    · rename_i same
      subst same
      exact ⟨rfl,fatal,rfl,rfl⟩
    · exact rfl

theorem createSpec (failing) (good : Counted frames owed s) (evaluating : s.modules m = .evaluating) :
    After (createModuleAsyncPair failing m) s (fun p t => Counted frames owed t ∧ Steady s t ∧ Pairs t m p ∧ Blank t p)
      (fun kind t => Counted frames owed t ∧ Steady s t ∧ isThrow kind = false) := by
  have count : ∀ owed x, owes { s with promises := s.promises ++ [.pending []] } owed x = owes s owed x := by
    simp [owes,Evaluator.outstanding,ModulePromise.parents]
  have more : Counted frames owed { s with promises := s.promises ++ [.pending []] } :=
    good.reacted _ s.jobs (by simp) fun x _ _ => count owed x
  unfold createModuleAsyncPair
  rw [afterBind,afterRead,evaluating]
  simp only [afterBind]
  refine (atSpec failing .promise s).mono ?_ fun kind t failed => ?_
  · intro _ t same
    subst same
    refine (atSpec failing .activation _).mono ?_ fun kind u failed => ?_
    · intro _ u same
      subst same
      refine ⟨more.made (by simp) m,⟨rfl,rfl,rfl,rfl,by simp,count⟩,⟨_,List.getElem?_concat_length,rfl,rfl⟩,⟨?_⟩⟩
      intro a found
      rw [List.getElem?_concat_length] at found
      cases found
      rfl
    · obtain ⟨rfl,fatal,_,rfl⟩ := failed
      exact ⟨more,⟨rfl,rfl,rfl,rfl,by simp,count⟩,fatal.fatal⟩
  · obtain ⟨rfl,fatal,_,rfl⟩ := failed
    exact ⟨good,.refl _,fatal.fatal⟩

theorem countSet {promises : List ModulePromise} {q old} (found : promises[q]? = some old) (new x) :
    ((promises.set q new).flatMap ModulePromise.parents).count x+old.parents.count x =
      (promises.flatMap ModulePromise.parents).count x+new.parents.count x := by
  induction promises generalizing q with
  | nil => cases found
  | cons head rest ih => cases q with
    | zero =>
      cases found
      simp only [List.set_cons_zero,List.flatMap_cons,List.count_append]
      omega
    | succ q =>
      have tail := ih found
      simp only [List.set_cons_succ,List.flatMap_cons,List.count_append]
      omega

variable {setup : Setup}

theorem settlePromiseSpec (failing) (good : Counted frames owed s) (q outcome) :
    After (settlePromise setup failing q outcome) s (fun _ t => Counted frames owed t ∧ Steady s t ∧ t.records = s.records)
      (fun kind t => t = s ∧ isThrow kind = false) := by
  unfold settlePromise
  rw [afterBind,afterRead]
  split
  · exact ⟨rfl,rfl⟩
  · exact ⟨good,.refl s,rfl⟩
  · rename_i parents found
    rw [afterBind]
    refine (atSpec failing .settle s).mono ?_ fun _ _ failed => ⟨failed.1,by obtain ⟨_,fatal,_,rfl⟩ := failed; exact fatal.fatal⟩
    intro _ t same
    subst same
    have count : ∀ owed x, owes { t with promises := t.promises.set q (.settled outcome),jobs := t.jobs ++ parents.map (⟨·,outcome⟩) } owed x =
        owes t owed x := by
      intro owed x
      have moved := countSet found (.settled outcome) x
      simp only [owes,Evaluator.outstanding,List.map_append,List.map_map,List.count_append,ModulePromise.parents,List.count_nil] at moved ⊢
      have same : (parents.map (ModuleJob.parent ∘ fun parent => ⟨parent,outcome⟩)) = parents := List.map_id parents
      rw [same]
      omega
    exact ⟨good.reacted _ _ (by simp) fun x _ _ => count owed x,⟨rfl,rfl,rfl,rfl,by simp,count⟩,rfl⟩

theorem attachSpec (failing) (good : Counted frames owed s) {q} (inside : q < s.promises.length)
    (evaluating : s.modules m = .evaluating) (away : m ∉ frames.map Frame.module) :
    After (attachModuleReactions setup failing m q) s
      (fun _ t => Counted frames owed t ∧ t.modules = s.modules ∧ t.stack = s.stack ∧ t.returning = s.returning ∧ t.log = s.log ∧
        t.records = s.records ∧ owes t owed m = owes s owed m+1)
      (fun kind t => t = s ∧ ∃ fatal, failing = some (.attach,fatal) ∧ kind = fatal.kind) := by
  have free : ∀ x, (s.modules x = .evaluating → x ∈ frames.map Frame.module) → x ≠ m := fun x held same =>
    away (same ▸ held (same ▸ evaluating))
  unfold attachModuleReactions
  rw [afterBind,afterRead]
  split
  · rename_i missing
    rw [List.getElem?_eq_none_iff] at missing
    omega
  · rename_i outcome found
    rw [afterBind]
    refine (atSpec failing .attach s).mono ?_ fun _ _ failed => failed
    intro _ t same
    subst same
    refine ⟨good.reacted t.promises _ (Nat.le_refl _) fun x held _ => ?_,rfl,rfl,rfl,rfl,rfl,?_⟩
    · have other := free x held
      simp [owes,Evaluator.outstanding,Ne.symm other]
    · simp [owes,Evaluator.outstanding]
      omega
  · rename_i parents found
    rw [afterBind]
    refine (atSpec failing .attach s).mono ?_ fun _ _ failed => failed
    intro _ t same
    subst same
    have moved := countSet found (.pending (parents ++ [m]))
    simp only [ModulePromise.parents,List.count_append,List.count_singleton] at moved
    refine ⟨good.reacted _ t.jobs (by simp) fun x held _ => ?_,rfl,rfl,rfl,rfl,rfl,?_⟩
    · have here := moved x
      rw [if_neg (by simpa using Ne.symm (free x held))] at here
      simp only [owes,Evaluator.outstanding]
      omega
    · have here := moved m
      rw [if_pos (by simp)] at here
      simp only [owes,Evaluator.outstanding]
      omega

theorem Counted.aborted (good : Counted frames owed s) (away : m ∉ frames.map Frame.module)
    (awake : ∀ (r : Nat) a, s.records[r]? = some a → a.module = m → a.suspended = false) (none_ : owes s owed m = 0) :
    Counted frames owed (s.abortModuleEvaluation m) := by
  have gone : Counted frames owed (s.write m .unevaluated) := good.write away awake (fun _ _ => rfl) (fun _ => none_) nofun
  have logged : ∀ x, ModuleEvent.underflowed x ∉ s.log ++ [ModuleEvent.aborted m] := fun x => by simp [good.exact_ x]
  unfold Evaluator.abortModuleEvaluation
  split
  · exact gone.noted _ gone.returned logged
  · exact gone.noted _ gone.returned logged
  · exact good
  · exact good

theorem Counted.settled (good : Counted frames owed s) {result} (away : m ∉ frames.map Frame.module)
    (awake : ∀ (r : Nat) a, s.records[r]? = some a → a.module = m → a.suspended = false)
    (none_ : ∀ kind, result = .error kind → isThrow kind = false → owes s owed m = 0) :
    Counted frames owed (s.settleModuleEvaluation m result) := by
  have finished : ∀ result, Counted frames owed (s.write m (.evaluated result)) := fun _ => good.write away awake (fun _ _ => rfl) nofun nofun
  unfold Evaluator.settleModuleEvaluation
  split
  · exact good
  · split
    · exact finished _
    · rename_i kind
      split
      · exact finished _
      · rename_i fatal
        exact good.aborted away awake (none_ kind rfl (by simpa using fatal))

-- The frame of an entry has been taken off: nothing is outstanding for its module, which is running.
structure Released (below : List Frame) (m : ModuleId) (s : Evaluator) : Prop where
  counted : Counted below [] s
  away : m ∉ below.map Frame.module
  awake : ∀ (r : Nat) a, s.records[r]? = some a → a.module = m → a.suspended = false
  count : owes s [] m = 0
  stack : s.stack = below
  silent : s.returning = none

variable {below : List Frame} {p : ModulePending}

theorem Counted.released {pair caller} (good : Counted (.entry m pair caller :: below) [] s)
    (stack : s.stack = below) (silent : s.returning = none) : Released below m s := by
  refine ⟨good.drop,good.away,fun r a found same => good.awake found same,?_,stack,silent⟩
  have sound := good.framed _ List.mem_cons_self
  cases caller with
  | walk => exact sound.2.1
  | counted =>
    obtain ⟨p,_,state,_⟩ := sound
    exact (good.waiting m p 0 state).1
  | resumed =>
    obtain ⟨p,_,state⟩ := sound
    exact (good.waiting m p 0 state).1

def OnlyModules (s t : Evaluator) : Prop := t = { s with modules := t.modules,log := t.log }

theorem abortOnly (s m) : OnlyModules s (s.abortModuleEvaluation m) := by
  unfold OnlyModules Evaluator.abortModuleEvaluation
  cases s.modules m with
  | _ => rfl

theorem settleOnly (s m result) : OnlyModules s (s.settleModuleEvaluation m result) := by
  have aborted := abortOnly s m
  unfold Evaluator.settleModuleEvaluation
  split
  · rfl
  · split
    · rfl
    · split
      · rfl
      · exact aborted

theorem Released.only (free : Released below m s) (only : OnlyModules s t) (counted : Counted below [] t) : Released below m t := by
  refine ⟨counted,free.away,?_,?_,?_,?_⟩
  · rw [only]
    exact free.awake
  · rw [only]
    exact free.count
  · rw [only]
    exact free.stack
  · rw [only]
    exact free.silent

theorem Released.settled (free : Released below m s) (result) : Released below m (s.settleModuleEvaluation m result) :=
  free.only (settleOnly s m result) (free.counted.settled free.away free.awake fun _ _ _ => free.count)

theorem Released.aborted (free : Released below m s) : Released below m (s.abortModuleEvaluation m) :=
  free.only (abortOnly s m) (free.counted.aborted free.away free.awake free.count)

theorem Pairs.only (known : Pairs s m p) (only : OnlyModules s t) : Pairs t m p := by
  rw [only]
  exact ⟨known.made⟩

theorem Released.zero (free : Released below m s) {n} (state : s.modules m = .evaluatingAsync p n) : n = 0 :=
  ((free.counted.waiting m p n state).1).symm.trans free.count

theorem Released.completed (free : Released below m s) {r a} (found : s.records[r]? = some a) (owner : a.module = m) (completion) :
    Released below m { s with records := s.records.set r { a with completion := completion } } := by
  have inside := (List.getElem?_eq_some_iff.mp found).1
  refine ⟨?_,free.away,?_,free.count,free.stack,free.silent⟩
  · refine free.counted.recorded found rfl rfl ?_ ?_
    · intro asleep
      rw [free.awake r a found owner] at asleep
      cases asleep
    · intro _ _
      exact ⟨fun p n state => free.zero (owner ▸ state),owner ▸ free.away⟩
  · intro r' b there same
    by_cases equal : r = r'
    · subst equal
      rw [List.getElem?_set_self inside] at there
      cases there
      exact free.awake r a found owner
    · exact free.awake r' b ((List.getElem?_set_ne equal).symm.trans there) same

theorem Pairs.completed (known : Pairs s m p) {r a b} (found : s.records[r]? = some a) (module : b.module = a.module)
    (promise : b.promise = a.promise) : Pairs { s with records := s.records.set r b } m p := by
  have inside := (List.getElem?_eq_some_iff.mp found).1
  obtain ⟨activation,there,owner,same⟩ := known.made
  by_cases equal : r = p.record
  · subst equal
    rw [found] at there
    cases there
    exact ⟨b,List.getElem?_set_self inside,module.trans owner,promise.trans same⟩
  · exact ⟨activation,(List.getElem?_set_ne equal).trans there,owner,same⟩

theorem storeSpec (free : Released below m s) (known : Pairs s m p) (completed) :
    After (storeAsyncModuleCompletion setup p.record completed) s (fun _ t => Released below m t ∧ Pairs t m p)
      (fun kind t => t = s ∧ isThrow kind = false) := by
  obtain ⟨a,found,owner,_⟩ := known.made
  unfold storeAsyncModuleCompletion onRecord
  simp only [afterBind,afterRead,found,afterIte,afterFail,afterPure,afterUpdate]
  exact ⟨fun _ => ⟨trivial,rfl⟩,fun _ => ⟨free.completed found owner _,known.completed found rfl rfl⟩⟩

theorem moduleSpec (known : Pairs s m p) : After (asyncActivationModule setup p.record) s (fun x t => x = m ∧ t = s) (fun _ _ => False) := by
  obtain ⟨a,found,owner,_⟩ := known.made
  unfold asyncActivationModule
  simp only [afterBind,afterRead,found,afterPure]
  exact ⟨owner,trivial⟩

theorem releasePromise (failing) (free : Released below m s) (known : Pairs s m p) (q outcome) :
    After (settlePromise setup failing q outcome) s (fun _ t => Released below m t ∧ Pairs t m p) (fun kind t => t = s ∧ isThrow kind = false) := by
  refine (settlePromiseSpec failing free.counted q outcome).mono ?_ fun _ _ failed => failed
  intro _ t done
  obtain ⟨counted,steady,records⟩ := done
  refine ⟨⟨counted,free.away,?_,?_,steady.stack.trans free.stack,steady.returning.trans free.silent⟩,?_⟩
  · rw [records]
    exact free.awake
  · rw [steady.count]
    exact free.count
  · obtain ⟨a,found,rest⟩ := known.made
    exact ⟨a,by rw [records]; exact found,rest⟩

theorem settleStepSpec (failing) (free : Released below m s) (known : Pairs s m p) {outcome} (running : outcome ≠ .suspended) :
    After (settleAsyncStep setup failing p outcome) s (fun _ t => Released below m t ∧ Pairs t m p)
      (fun kind t => Released below m t ∧ Pairs t m p ∧ isThrow kind = false) := by
  cases outcome with
  | suspended => exact absurd rfl running
  | failed fatal => exact ⟨free,known,fatal.fatal⟩
  | returned =>
    unfold settleAsyncStep
    simp only [afterBind,afterUpdate]
    refine (storeSpec free known _).mono ?_ fun _ _ failed => by obtain ⟨rfl,fatal⟩ := failed; exact ⟨free,known,fatal⟩
    intro _ t stored
    obtain ⟨free,known⟩ := stored
    refine (moduleSpec known).mono ?_ fun _ _ failed => failed.elim
    intro x u same
    obtain ⟨rfl,rfl⟩ := same
    refine (atSpec failing .exports u).mono ?_ fun _ _ failed => by obtain ⟨rfl,fatal,_,rfl⟩ := failed; exact ⟨free,known,fatal.fatal⟩
    intro _ v same
    subst same
    refine (releasePromise failing free known _ _).mono ?_ fun _ _ failed => by obtain ⟨rfl,fatal⟩ := failed; exact ⟨free,known,fatal⟩
    intro _ w done
    exact ⟨done.1.settled _,done.2.only (settleOnly w x _)⟩
  | threw value origin =>
    unfold settleAsyncStep
    simp only [afterBind,afterUpdate]
    refine (storeSpec free known _).mono ?_ fun _ _ failed => by obtain ⟨rfl,fatal⟩ := failed; exact ⟨free,known,fatal⟩
    intro _ t stored
    obtain ⟨free,known⟩ := stored
    refine (moduleSpec known).mono ?_ fun _ _ failed => failed.elim
    intro x u same
    obtain ⟨rfl,rfl⟩ := same
    have finished := free.settled (.error (.uncaughtThrow value origin none))
    have still := known.only (settleOnly u x (.error (.uncaughtThrow value origin none)))
    refine (releasePromise failing finished still _ _).mono (fun _ _ done => done) fun _ _ failed => ?_
    obtain ⟨rfl,fatal⟩ := failed
    exact ⟨finished,still,fatal⟩

theorem Released.parked (free : Released below m s) (known : Pairs s m p) : Released below m (s.write m (.evaluatingAsync p 0)) := by
  refine ⟨?_,free.away,free.awake,free.count,free.stack,free.silent⟩
  refine free.counted.write free.away free.awake (fun _ _ => rfl) nofun ?_
  intro q n same
  cases same
  exact ⟨free.count,known,fun positive => absurd positive (Nat.lt_irrefl 0)⟩

def Finished (below : List Frame) (m : ModuleId) (pair : Option ModulePending) : StartResult → Evaluator → Prop
  | .settled _,t => Released below m t ∧ ∀ p, pair = some p → Pairs t m p
  | .pending q,t => Counted below [] t ∧ t.stack = below ∧ t.returning = none ∧ q.promise < t.promises.length

theorem Pairs.inside (good : Counted frames owed s) (known : Pairs s m p) : p.promise < s.promises.length := by
  obtain ⟨a,found,_,same⟩ := known.made
  rw [← same]
  exact good.owned p.record a found

theorem finishStartSpec (free : Released below m s) (known : Pairs s m p) :
    After (finishModuleStart setup m p) s (fun result t => Finished below m (some p) result t) (fun _ _ => False) := by
  obtain ⟨a,found,owner,_⟩ := known.made
  unfold finishModuleStart
  simp only [afterBind,afterRead,found]
  split
  · refine ⟨free.completed found owner none,fun q same => ?_⟩
    cases same
    exact known.completed found rfl rfl
  · have parked := free.parked known
    have inside := Pairs.inside free.counted known
    exact ⟨parked.counted,parked.stack,parked.silent,inside⟩

theorem Released.sleeps (free : Released below m s) (known : Pairs s m p) {a} (found : s.records[p.record]? = some a) :
    Counted below [] (({ s with records := s.records.set p.record { a with suspended := true } } : Evaluator).write m (.evaluatingAsync p 0)) := by
  obtain ⟨b,there,owner,same⟩ := known.made
  rw [found] at there
  cases there
  have parked := free.parked known
  refine parked.counted.recorded (b := { a with suspended := true }) found rfl rfl (fun _ => ?_) (fun _ other => absurd rfl other)
  rw [owner,writeSame,same]
  exact ⟨rfl,free.away⟩

theorem suspendSpec (failing) (known : Pairs s m p) :
    After (settleAsyncStep setup failing p .suspended) s
      (fun _ t => ∃ a, s.records[p.record]? = some a ∧ t = { s with records := s.records.set p.record { a with suspended := true } })
      (fun kind t => t = s ∧ isThrow kind = false) := by
  obtain ⟨a,found,_⟩ := known.made
  unfold settleAsyncStep
  rw [afterBind]
  refine (atSpec failing .await s).mono ?_ fun _ _ failed => by obtain ⟨rfl,fatal,_,rfl⟩ := failed; exact ⟨rfl,fatal.fatal⟩
  intro _ t same
  subst same
  unfold onRecord
  simp only [afterBind,afterRead,found,afterPure,afterUpdate]
  exact ⟨a,rfl,rfl⟩

theorem finishEntrySpec (failing outcome) {pair} (free : Released below m s) (known : ∀ p, pair = some p → Pairs s m p ∧ Blank s p) :
    After (finishEntry setup failing m pair outcome) s (fun result t => Finished below m pair result t) (fun _ _ => False) := by
  unfold finishEntry
  split
  · rename_i p suspends
    obtain ⟨known,blank⟩ := known p rfl
    rw [afterTryCatch,afterBind]
    have failed : ∀ kind t, Released below m t ∧ Pairs t m p ∧ isThrow kind = false →
        After (failedStart m kind) t (fun result u => Finished below m (some p) result u) (fun _ _ => False) := by
      intro kind t failed
      obtain ⟨free,known,fatal⟩ := failed
      unfold failedStart
      rw [fatal,afterBind,afterGiven]
      refine ⟨fun _ => ⟨free.aborted,fun q same => ?_⟩,fun strange => absurd rfl strange⟩
      cases same
      exact known.only (abortOnly t m)
    by_cases running : outcome = .suspended
    · subst running
      refine (suspendSpec failing known).mono ?_ fun kind t same => by obtain ⟨rfl,fatal⟩ := same; exact failed kind t ⟨free,known,fatal⟩
      intro _ t asleep
      obtain ⟨a,found,rfl⟩ := asleep
      have inside := (List.getElem?_eq_some_iff.mp found).1
      unfold finishModuleStart
      simp only [afterBind,afterRead,List.getElem?_set_self inside,blank.blank a found,afterUpdate,afterPure]
      have bound := Pairs.inside free.counted known
      have sleeps := free.sleeps known found
      rw [blank.blank a found] at sleeps
      exact ⟨sleeps,free.stack,free.silent,bound⟩
    · refine (settleStepSpec failing free known running).mono ?_ fun kind t done => failed kind t done
      intro _ t done
      exact (finishStartSpec done.1 done.2).mono (fun _ _ finished => finished) fun _ _ none_ => none_.elim
  · exact ⟨free,fun q same => (known q same).1⟩

def Evaluator.Counts (s : Evaluator) : Prop := Counted s.stack [] s

theorem Released.counts (free : Released below m s) : s.Counts := by
  unfold Evaluator.Counts
  rw [free.stack]
  exact free.counted

theorem returnsSpec (good : s.Counts) (result) (inside : ∀ p, result = .ok (.pending p) → p.promise < s.promises.length) :
    After (returns result) s (fun _ t => t.Counts) (fun _ _ => False) := by
  refine Counted.noted good s.stack (fun p same => inside p ?_) good.exact_
  cases same
  rfl

theorem settleWalkSpec (good : s.Counts) (away : m ∉ s.stack.map Frame.module)
    (awake : ∀ (r : Nat) a, s.records[r]? = some a → a.module = m → a.suspended = false) (result)
    (none_ : ∀ kind, result = .error kind → isThrow kind = false → owes s [] m = 0) :
    After (settleWalk m result) s (fun _ t => t.Counts) (fun _ _ => False) := by
  unfold settleWalk
  rw [afterBind,afterUpdate]
  have only := settleOnly s m result
  refine returnsSpec ?_ _ ?_
  · have counted := Counted.settled good away awake none_
    rw [only] at counted ⊢
    exact counted
  · intro p same
    cases result with
    | ok => cases same
    | error => cases same

theorem finishTurnSpec (failing outcome) {pair caller}
    (good : Counted (.entry m pair caller :: below) [] s) (stack : s.stack = below) (silent : s.returning = none) :
    After (finishTurn setup failing m pair outcome caller) s (fun _ t => t.Counts) (fun _ t => t.Counts) := by
  have free := good.released stack silent
  have sound := good.framed _ List.mem_cons_self
  cases caller with
  | walk =>
    unfold finishTurn
    rw [afterBind]
    refine (finishEntrySpec failing outcome free sound.2.2).mono ?_ fun _ _ none_ => none_.elim
    intro result t done
    cases result with
    | settled result =>
      obtain ⟨free,_⟩ := done
      exact (settleWalkSpec free.counts (by rw [free.stack]; exact free.away) free.awake result fun _ _ _ => free.count).mono
        (fun _ _ counts => counts) fun _ _ none_ => none_.elim
    | pending q =>
      obtain ⟨counted,stack,silent,inside⟩ := done
      refine (returnsSpec (by rw [Evaluator.Counts,stack]; exact counted) _ ?_).mono (fun _ _ counts => counts) fun _ _ none_ => none_.elim
      intro p same
      cases same
      exact inside
  | counted =>
    obtain ⟨p,rfl,state,known,blank⟩ := sound
    unfold finishTurn
    rw [afterBind]
    refine (finishEntrySpec failing outcome free (fun q same => by cases same; exact ⟨known,blank⟩)).mono ?_ fun _ _ none_ => none_.elim
    intro result t done
    have settle : ∀ step, step ≠ .suspended → Released below m t → Pairs t m p →
        After (settleAsyncStep setup failing p step) t (fun _ t => t.Counts) (fun _ t => t.Counts) := fun step running free known =>
      (settleStepSpec failing free known running).mono (fun _ _ done => done.1.counts) fun _ _ done => done.1.counts
    cases result with
    | pending q =>
      obtain ⟨counted,stack,_⟩ := done
      rw [← stack] at counted
      exact counted
    | settled result => cases result with
      | ok => exact settle .returned nofun done.1 (done.2 p rfl)
      | error kind => cases kind with
        | uncaughtThrow value origin => exact settle (.threw value origin) nofun done.1 (done.2 p rfl)
        | _ => exact done.1.aborted.counts
  | resumed =>
    obtain ⟨p,rfl,state⟩ := sound
    have known := (good.waiting m p 0 state).2.1
    unfold finishTurn
    rw [afterTryCatch]
    have failed : ∀ t, Released below m t ∧ Pairs t m p →
        After (abortRecord setup p.record) t (fun _ t => t.Counts) (fun _ t => t.Counts) := by
      intro t done
      rw [abortRecord,afterBind]
      refine (moduleSpec done.2).mono ?_ fun _ _ none_ => none_.elim
      intro x u same
      obtain ⟨rfl,rfl⟩ := same
      exact done.1.aborted.counts
    by_cases running : outcome = .suspended
    · subst running
      refine (suspendSpec failing known).mono ?_ fun kind t same => by obtain ⟨rfl,_⟩ := same; exact failed t ⟨free,known⟩
      intro _ t asleep
      obtain ⟨a,found,rfl⟩ := asleep
      obtain ⟨b,there,owner,same⟩ := known.made
      rw [found] at there
      cases there
      have counted := free.counted.recorded (b := { a with suspended := true }) found rfl rfl
        (fun _ => by rw [owner,same]; exact ⟨state,free.away⟩) (fun _ other => absurd rfl other)
      rw [← free.stack] at counted
      exact counted
    · exact (settleStepSpec failing free known running).mono (fun _ _ done => done.1.counts) fun _ t done => failed t ⟨done.1,done.2.1⟩

theorem Counted.free (good : Counted frames owed s) (idle : s.modules m = .unevaluated) :
    m ∉ frames.map Frame.module ∧ ∀ (r : Nat) a, s.records[r]? = some a → a.module = m → a.suspended = false := by
  refine ⟨fun held => ?_,fun r a found owner => ?_⟩
  · obtain ⟨g,member,rfl⟩ := List.mem_map.mp held
    have sound := good.framed g member
    cases g with
    | walk x dependency rest n pair => exact nomatch sound.1.symm.trans idle
    | entry x pair caller => cases caller with
      | walk => exact nomatch sound.1.symm.trans idle
      | counted =>
        obtain ⟨_,_,state,_⟩ := sound
        exact nomatch state.symm.trans idle
      | resumed =>
        obtain ⟨_,_,state⟩ := sound
        exact nomatch state.symm.trans idle
  · cases asleep : a.suspended with
    | false => rfl
    | true =>
      have state := (good.asleep r a found asleep).1
      rw [owner,idle] at state
      cases state

theorem evaluateSpec (good : s.Counts) (m) :
    After (evaluateModule setup m) s
      (fun start t => t.Counts ∧ t.returning = s.returning ∧ ∀ p, start = some (.pending p) → p.promise < t.promises.length)
      (fun _ t => t.Counts ∧ t.returning = s.returning) := by
  unfold evaluateModule
  rw [afterBind,afterRead]
  cases state : s.modules m with
  | evaluatingAsync p n =>
    refine ⟨good,rfl,fun q same => ?_⟩
    cases same
    exact Pairs.inside good (Counted.waiting good m p n state).2.1
  | evaluating =>
    simp only [afterBind,beginModuleEvaluation,afterRead,state,afterPure]
    exact ⟨good,trivial,by rintro _ ⟨⟩⟩
  | evaluated result =>
    simp only [afterBind,beginModuleEvaluation,afterRead,state,afterPure]
    cases result with
    | ok => exact ⟨good,rfl,by rintro _ ⟨⟩⟩
    | error kind => exact ⟨good,rfl⟩
  | unevaluated =>
    have none_ := Counted.idle good m state
    obtain ⟨away,awake⟩ := Counted.free good state
    have began : Counted s.stack [] (s.write m .evaluating) := Counted.write good away awake (fun _ _ => rfl) (by rintro ⟨⟩) (by rintro _ _ ⟨⟩)
    simp only [afterBind,beginModuleEvaluation,afterRead,state,afterUpdate]
    cases known : setup.dependencies m with
    | ok dependencies =>
      refine ⟨?_,rfl,by rintro _ ⟨⟩⟩
      have framed := began.push (f := .walk m none dependencies 0 none)
        ⟨writeSame s m _,none_,fun positive => absurd positive (Nat.lt_irrefl 0),by rintro _ ⟨⟩⟩ away awake
      exact framed.noted _ framed.returned framed.exact_
    | error kind =>
      simp only [afterBind,afterUpdate,afterFail]
      have settled := Counted.settled began away awake fun (other : RuntimeErrorKind) (_ : Except.error kind = .error other) _ => none_
      have only := settleOnly (s.write m .evaluating) m (.error kind)
      rw [only] at settled ⊢
      exact ⟨settled,rfl⟩

structure Walking (below : List Frame) (m : ModuleId) (n : Nat) (pair : Option ModulePending) (s : Evaluator) : Prop where
  counted : Counted (.walk m none [] n pair :: below) [] s
  stack : s.stack = below
  silent : s.returning = none

theorem Walking.fails {n pair} (walking : Walking below m n pair s) {kind}
    (idle : isThrow kind = false → n = 0) : After (settleWalk m (.error kind)) s (fun _ t => t.Counts) (fun _ _ => False) := by
  obtain ⟨counted,stack,_⟩ := walking
  subst stack
  refine settleWalkSpec counted.drop counted.away (fun r a found owner => counted.awake found owner) _ ?_
  intro other same fatal
  cases same
  exact (counted.framed _ List.mem_cons_self).2.1.trans (idle fatal)

theorem Walking.enters {n pair} (walking : Walking below m n pair s) (none_ : n = 0) {pair'} (known : ∀ p, pair' = some p → Pairs s m p ∧ Blank s p) :
    ({ s with stack := .entry m pair' .walk :: s.stack,log := s.log ++ [.started m] } : Evaluator).Counts := by
  obtain ⟨counted,stack,_⟩ := walking
  subst stack none_
  have sound := counted.framed _ List.mem_cons_self
  have framed := counted.drop.push (f := .entry m pair' .walk) ⟨sound.1,sound.2.1,known⟩ counted.away (fun r a found owner => counted.awake found owner)
  exact framed.noted _ framed.returned fun x => by simp [framed.exact_ x]

theorem startSpec (failing) {n pair} (walking : Walking below m n pair s) (none_ : n = 0) :
    After (startReadyEntry setup failing m none .walk) s (fun _ t => t.Counts) (fun kind t => Walking below m n pair t ∧ isThrow kind = false) := by
  have enter : ∀ pair' t, Walking below m n pair t → (∀ p, pair' = some p → Pairs t m p ∧ Blank t p) →
      After (enterEntry failing m pair' .walk) t (fun _ t => t.Counts) (fun kind t => Walking below m n pair t ∧ isThrow kind = false) := by
    intro pair' t walking known
    rw [enterEntry,afterBind]
    refine (atSpec failing .enter t).mono ?_ fun _ _ failed => by obtain ⟨rfl,fatal,_,rfl⟩ := failed; exact ⟨walking,fatal.fatal⟩
    intro _ u same
    subst same
    exact walking.enters none_ known
  have sound := walking.counted.framed _ List.mem_cons_self
  unfold startReadyEntry
  split
  · rw [afterBind]
    refine (createSpec failing walking.counted sound.1).mono ?_ ?_
    · intro p t made
      obtain ⟨counted,steady,known,blank⟩ := made
      refine enter (some p) t ⟨counted,steady.stack.trans walking.stack,steady.returning.trans walking.silent⟩ fun q same => ?_
      cases same
      exact ⟨known,blank⟩
    · intro kind t failed
      obtain ⟨counted,steady,fatal⟩ := failed
      exact ⟨⟨counted,steady.stack.trans walking.stack,steady.returning.trans walking.silent⟩,fatal⟩
  · exact enter none s walking nofun

theorem Walking.framed {n n' pair pair'} (walking : Walking below m n pair s) (good : Counted below [] t)
    (modules : t.modules = s.modules) (stack : t.stack = s.stack) (returning : t.returning = s.returning) (count : owes t [] m = n')
    (awake : ∀ (r : Nat) a, t.records[r]? = some a → a.module = m → a.suspended = false)
    (forced : 0 < n' → pair' ≠ none) (known : ∀ p, pair' = some p → Pairs t m p ∧ Blank t p) : Walking below m n' pair' t := by
  have sound := walking.counted.framed _ List.mem_cons_self
  refine ⟨good.push (f := .walk m none [] n' pair') ⟨?_,count,forced,known⟩ walking.counted.away awake,stack.trans walking.stack,
    returning.trans walking.silent⟩
  rw [modules]
  exact sound.1

theorem Walking.shared (failing) {n pair} (walking : Walking below m n pair s) :
    After (sharedPair failing m pair) s (fun p t => Walking below m n (some p) t ∧ s.promises.length ≤ t.promises.length)
      (fun kind t => Walking below m n pair t ∧ isThrow kind = false ∧ n = 0) := by
  have sound := walking.counted.framed _ List.mem_cons_self
  cases pair with
  | some p => exact ⟨walking,Nat.le_refl _⟩
  | none =>
    have none_ : n = 0 := by
      by_contra positive
      exact sound.2.2.1 (Nat.pos_of_ne_zero positive) rfl
    refine (createSpec failing walking.counted sound.1).mono ?_ ?_
    · intro p t made
      obtain ⟨counted,steady,known,blank⟩ := made
      refine ⟨walking.framed counted.drop steady.modules steady.stack steady.returning ?_ (fun r a found owner => counted.awake found owner) nofun ?_,
        steady.grows⟩
      · rw [steady.count]
        exact sound.2.1
      · intro q same
        cases same
        exact ⟨known,blank⟩
    · intro kind t failed
      obtain ⟨counted,steady,fatal⟩ := failed
      exact ⟨⟨counted,steady.stack.trans walking.stack,steady.returning.trans walking.silent⟩,fatal,none_⟩

structure Spared (failing : Failing) (n : Nat) (result : Except RuntimeErrorKind ModuleStart) : Prop where
  attach : ∀ p fatal, result = .ok (.pending p) → failing = some (.attach,fatal) → n = 0
  error : ∀ kind, result = .error kind → isThrow kind = false → n = 0

theorem Walking.goesOn {n pair} (walking : Walking below m n pair s) (dependency rest) :
    After (push (.walk m dependency rest n pair)) s (fun _ t => t.Counts ∧ t.returning = none) (fun _ _ => False) := by
  obtain ⟨counted,stack,silent⟩ := walking
  subst stack
  have sound := counted.framed _ List.mem_cons_self
  have framed := counted.drop.push (f := .walk m dependency rest n pair) sound counted.away (fun r a found owner => counted.awake found owner)
  exact ⟨framed.noted _ framed.returned framed.exact_,silent⟩

theorem receiveSpec (failing) {n pair} (walking : Walking below m n pair s) (rest result) (inside : ∀ p, result = .ok (.pending p) → p.promise < s.promises.length)
    (spared : Spared failing n result) :
    After (receive setup failing m rest n pair result) s (fun _ t => t.Counts)
      (fun kind t => ∃ n' pair', Walking below m n' pair' t ∧ (isThrow kind = false → n' = 0)) := by
  have goes : ∀ {n' pair'} {u : Evaluator}, Walking below m n' pair' u → After (push (.walk m none rest n' pair')) u (fun _ t => t.Counts)
      (fun kind t => ∃ n' pair', Walking below m n' pair' t ∧ (isThrow kind = false → n' = 0)) := fun walking =>
    (walking.goesOn none rest).mono (fun _ _ counts => counts.1) fun _ _ none_ => none_.elim
  cases result with
  | error kind => exact ⟨n,pair,walking,spared.error kind rfl⟩
  | ok start => cases start with
    | settled => exact goes walking
    | cached => exact goes walking
    | pending awaited =>
      unfold receive
      rw [afterBind]
      refine (walking.shared failing).mono ?_ fun kind t failed => ⟨n,pair,failed.1,fun _ => failed.2.2⟩
      intro p t done
      obtain ⟨walking,grows⟩ := done
      have sound := walking.counted.framed _ List.mem_cons_self
      rw [afterBind]
      refine (attachSpec failing walking.counted.drop (Nat.lt_of_lt_of_le (inside awaited rfl) grows) sound.1 walking.counted.away).mono ?_ ?_
      · intro _ u attached
        obtain ⟨counted,modules,stack,returning,_,records,count⟩ := attached
        have known : ∀ q, some p = some q → Pairs u m q ∧ Blank u q := by
          intro q same
          obtain ⟨⟨made⟩,⟨blank⟩⟩ := sound.2.2.2 q same
          exact ⟨⟨by rw [records]; exact made⟩,⟨by rw [records]; exact blank⟩⟩
        refine goes (walking.framed counted modules stack returning (count.trans (congrArg (·+1) sound.2.1)) ?_ nofun known)
        rw [records]
        exact fun r a found owner => walking.counted.awake found owner
      · intro kind u failed
        obtain ⟨rfl,fatal,same,rfl⟩ := failed
        exact ⟨n,some p,walking,fun _ => spared.attach awaited fatal rfl same⟩

theorem endSpec (failing) {n pair} (walking : Walking below m n pair s) :
    After (endOfWalk setup failing m n pair) s (fun _ t => t.Counts)
      (fun kind t => ∃ n' pair', Walking below m n' pair' t ∧ (isThrow kind = false → n' = 0)) := by
  have sound := walking.counted.framed _ List.mem_cons_self
  unfold endOfWalk
  split
  · exact (startSpec failing walking rfl).mono (fun _ _ counts => counts) fun kind t failed => ⟨0,pair,failed.1,fun _ => rfl⟩
  · rename_i p _
    obtain ⟨known,blank⟩ := sound.2.2.2 p rfl
    obtain ⟨counted,stack,_⟩ := walking
    subst stack
    have parked : (s.write m (.evaluatingAsync p n)).Counts := by
      refine counted.drop.write counted.away (fun r a found owner => counted.awake found owner) (fun _ _ => rfl) nofun ?_
      intro q k same
      cases same
      exact ⟨sound.2.1,known,fun _ => blank⟩
    rw [afterBind,afterUpdate]
    refine (returnsSpec parked _ ?_).mono (fun _ _ counts => counts) fun _ _ none_ => none_.elim
    intro q same
    cases same
    have bound := Pairs.inside counted known
    exact bound
  · rename_i positive
    exact absurd rfl (sound.2.2.1 (Nat.pos_of_ne_zero positive))

theorem walkTurnSpec (failing) {n pair dependency rest}
    (good : s.Counts) (top : s.stack = .walk m dependency rest n pair :: below) (spared : ∀ result, s.returning = some result → Spared failing n result) :
    After (walkTurn setup failing m rest n pair) { s with stack := below } (fun _ t => t.Counts) (fun _ t => t.Counts) := by
  have counted : Counted (.walk m dependency rest n pair :: below) [] s := top ▸ good
  have sound := counted.framed _ List.mem_cons_self
  have walks : ∀ returning, (∀ p, returning = some (.ok (.pending p)) → p.promise < s.promises.length) →
      Counted (.walk m none [] n pair :: below) [] { s with stack := below,returning := returning } := fun returning inside =>
    (counted.drop.push (f := .walk m none [] n pair) sound counted.away fun r a found owner => counted.awake found owner).noted below inside counted.exact_
  have caught : ∀ kind t, (∃ n' pair', Walking below m n' pair' t ∧ (isThrow kind = false → n' = 0)) →
      After (settleWalk m (.error kind)) t (fun _ t => t.Counts) (fun _ t => t.Counts) := by
    intro kind t failed
    obtain ⟨n',pair',walking,idle⟩ := failed
    exact (walking.fails idle).mono (fun _ _ counts => counts) fun _ _ none_ => none_.elim
  unfold walkTurn
  rw [afterBind,afterRead]
  split
  · rename_i result back
    rw [afterBind,afterUpdate,afterTryCatch]
    refine (receiveSpec failing ⟨walks none nofun,rfl,rfl⟩ _ result ?_ (spared result back)).mono (fun _ _ counts => counts) caught
    intro p same
    subst same
    exact counted.returned p back
  · rename_i next rest silent
    have walking : Walking below m n pair { s with stack := below } := ⟨walks s.returning counted.returned,rfl,silent⟩
    rw [afterBind]
    refine (walking.goesOn (some next) rest).mono ?_ fun _ _ none_ => none_.elim
    intro _ t done
    rw [afterTryCatch,afterBind]
    refine (evaluateSpec done.1 next).mono ?_ ?_
    · intro start u called
      obtain ⟨counts,_,inside⟩ := called
      cases start with
      | none => exact counts
      | some start =>
        refine (returnsSpec counts _ ?_).mono (fun _ _ counts => counts) fun _ _ none_ => none_.elim
        intro p same
        cases same
        exact inside p rfl
    · intro kind u called
      exact (returnsSpec called.1 (.error kind) fun _ same => nomatch same).mono (fun _ _ counts => counts) fun _ _ none_ => none_.elim
  · rename_i silent
    have walking : Walking below m n pair { s with stack := below } := ⟨walks s.returning counted.returned,rfl,silent⟩
    rw [afterTryCatch]
    exact (endSpec failing walking).mono (fun _ _ counts => counts) caught

theorem Counted.popped {job jobs} (good : Counted [] [] s) (front : s.jobs = job :: jobs) :
    Counted [] [job.parent] { s with jobs := jobs } := by
  refine good.reacted s.promises jobs (Nat.le_refl _) fun x _ _ => ?_
  simp only [owes,Evaluator.outstanding,front,List.map_cons,List.count_cons,List.count_nil]
  omega

theorem Counted.paid (good : Counted [] [m] s) (finished : s.modules m = .evaluating ∨ ∃ result, s.modules m = .evaluated result) :
    Counted [] [] s := by
  refine good.reacted s.promises s.jobs (Nat.le_refl _) fun x held unsettled => ?_
  have other : x ≠ m := by
    intro same
    subst same
    rcases finished with evaluating | ⟨result,evaluated⟩
    · exact nomatch held evaluating
    · exact unsettled result evaluated
  simp [owes,Evaluator.outstanding,Ne.symm other]

theorem Counted.positive {n} (good : Counted [] [m] s) (state : s.modules m = .evaluatingAsync p n) : 0 < n := by
  have number := (good.waiting m p n state).1
  simp only [owes,List.count_singleton_self] at number
  omega

theorem Counted.alert {n} (good : Counted [] [m] s) (state : s.modules m = .evaluatingAsync p n) (r : Nat) (a)
    (found : s.records[r]? = some a) (owner : a.module = m) : a.suspended = false := by
  have positive := good.positive state
  cases asleep : a.suspended with
  | false => rfl
  | true =>
    have other := (good.asleep r a found asleep).1
    rw [owner,state] at other
    cases other
    omega

theorem fulfilledSpec (failing) (good : Counted [] [m] s) (empty : s.stack = []) :
    After (onModuleDepFulfilled setup failing m) s (fun _ t => t.Counts) (fun _ t => t.Counts) := by
  have idle : ∀ t, t.stack = [] → Counted [] [] t → t.Counts := fun t empty counted => by
    rw [Evaluator.Counts,empty]
    exact counted
  unfold onModuleDepFulfilled takeModuleAsyncPending
  rw [afterBind,afterBind,afterRead]
  cases state : s.modules m with
  | unevaluated =>
    have none_ := good.idle m state
    simp [owes] at none_
  | evaluating => exact idle s empty (good.paid (.inl state))
  | evaluated result => exact idle s empty (good.paid (.inr ⟨result,state⟩))
  | evaluatingAsync p n =>
    have positive := good.positive state
    obtain ⟨number,known,blank⟩ := good.waiting m p n state
    have rest : owes s [] m = n-1 := by
      simp only [owes,List.count_singleton_self,List.count_nil] at number ⊢
      omega
    have counted : Counted [] [] (s.write m (.evaluatingAsync p (n-1))) := by
      refine good.write (by simp) (good.alert state) (fun x other => ?_) nofun ?_
      · simp [Ne.symm other]
      · intro q k same
        cases same
        exact ⟨rest,known,fun _ => blank positive⟩
    dsimp only
    rw [if_neg (Nat.ne_of_gt positive),afterBind,afterUpdate]
    split
    · exact idle _ empty counted
    · rename_i last
      have zero : n-1 = 0 := by omega
      rw [afterPure,afterTryCatch]
      have enter : After (enterEntry failing m (some p) .counted) (s.write m (.evaluatingAsync p (n-1))) (fun _ t => t.Counts)
          (fun _ t => (t.abortModuleEvaluation m).Counts) := by
        rw [enterEntry,afterBind]
        refine (atSpec failing .enter _).mono ?_ ?_
        · intro _ t same
          subst same
          have framed := counted.push (f := .entry m (some p) .counted)
            ⟨p,rfl,by rw [writeSame,zero],⟨known.made⟩,⟨(blank positive).blank⟩⟩ (by simp) (good.alert state)
          show Counted (.entry m (some p) .counted :: s.stack) [] _
          rw [empty]
          exact framed.noted _ framed.returned fun x => by simp [framed.exact_ x]
        · intro kind t failed
          obtain ⟨rfl,_⟩ := failed
          have only := abortOnly (s.write m (.evaluatingAsync p (n-1))) m
          refine idle _ (by rw [only]; exact empty) (counted.aborted (by simp) (good.alert state) ?_)
          exact rest.trans zero
      unfold startReadyEntry
      split
      · rename_i strange
        cases strange
      · exact enter

theorem rejectedSpec (failing) (good : Counted [] [m] s) (empty : s.stack = []) (value origin) :
    After (onModuleDepRejected setup failing m value origin) s
      (fun _ t => t.Counts ∧ ∀ p n, s.modules m = .evaluatingAsync p n → t.modules m = .evaluated (.error (.uncaughtThrow value origin none)))
      (fun _ t => t.Counts ∧ ∀ p n, s.modules m = .evaluatingAsync p n → t.modules m = .evaluated (.error (.uncaughtThrow value origin none))) := by
  have idle : ∀ t, t.stack = [] → Counted [] [] t → t.Counts := fun t empty counted => by
    rw [Evaluator.Counts,empty]
    exact counted
  unfold onModuleDepRejected
  rw [afterBind,afterRead]
  cases state : s.modules m with
  | unevaluated =>
    have none_ := good.idle m state
    simp [owes] at none_
  | evaluating => exact ⟨idle s empty (good.paid (.inl state)),nofun⟩
  | evaluated result => exact ⟨idle s empty (good.paid (.inr ⟨result,state⟩)),nofun⟩
  | evaluatingAsync p n =>
    obtain ⟨_,known,blank⟩ := good.waiting m p n state
    obtain ⟨a,found,owner,_⟩ := known.made
    have none_ := (blank (good.positive state)).blank a found
    have settled : Counted [] [] (s.write m (.evaluated (.error (.uncaughtThrow value origin none)))) :=
      good.write (by simp) (good.alert state) (fun x other => by simp [Ne.symm other]) nofun nofun
    have stored := settled.recorded (b := { a with completion := some (.error (.uncaughtThrow value origin none)) }) found rfl rfl
      (fun asleep => by rw [good.alert state p.record a found owner] at asleep; cases asleep)
      (fun _ _ => ⟨fun q k same => (by rw [owner,writeSame] at same; cases same),by simp⟩)
    simp only [storeAsyncModuleCompletion,onRecord,afterBind,afterRead,found,none_,Option.isSome_none,Bool.false_eq_true,if_false,afterPure,
      afterUpdate,Evaluator.settleModuleEvaluation,state,isThrow,if_true]
    have finished : ∀ t : Evaluator, t.modules = (s.write m (.evaluated (.error (.uncaughtThrow value origin none)))).modules →
        t.modules m = .evaluated (.error (.uncaughtThrow value origin none)) := fun t same => by rw [same,writeSame]
    refine (settlePromiseSpec failing stored p.promise _).mono ?_ ?_
    · intro _ t done
      exact ⟨idle t (done.2.1.stack.trans empty) done.1,fun _ _ _ => finished t done.2.1.modules⟩
    · intro _ t same
      rw [same.1]
      exact ⟨idle _ empty stored,fun _ _ _ => finished _ rfl⟩

theorem resumeSpec (failing) (good : Counted [] [] s) (empty : s.stack = []) (r) :
    After (resumeAsync failing r) s (fun _ t => t.Counts) (fun _ t => t.Counts) := by
  have idle : ∀ t, t.stack = [] → Counted [] [] t → t.Counts := fun t empty counted => by
    rw [Evaluator.Counts,empty]
    exact counted
  unfold resumeAsync
  rw [afterBind,afterRead]
  split
  · exact idle s empty good
  · rename_i a found
    split
    · exact idle s empty good
    · rename_i asleep
      have asleep : a.suspended = true := by simpa using asleep
      obtain ⟨state,_⟩ := good.asleep r a found asleep
      have inside := (List.getElem?_eq_some_iff.mp found).1
      have awake := good.recorded (b := { a with suspended := false }) found rfl rfl nofun (fun _ other => absurd rfl other)
      rw [afterBind,afterUpdate,afterBind]
      refine (atSpec failing .enter _).mono ?_ fun _ t failed => by rw [failed.1]; exact idle _ empty awake
      intro _ t same
      subst same
      have framed := awake.push (f := .entry a.module (some ⟨r,a.promise⟩) .resumed) ⟨_,rfl,state⟩ (by simp) ?_
      · rw [push,afterUpdate,Evaluator.Counts]
        rw [empty]
        exact framed.noted _ framed.returned framed.exact_
      · intro r' b there owner
        cases sleeps : b.suspended with
        | false => rfl
        | true =>
          by_cases equal : r = r'
          · subst equal
            rw [List.getElem?_set_self inside] at there
            cases there
            cases sleeps
          · rw [List.getElem?_set_ne equal] at there
            have other := (good.asleep r' b there sleeps).1
            rw [show b.module = a.module from owner,state] at other
            exact absurd (congrArg ModulePending.record (ModuleState.evaluatingAsync.inj other).1) equal

def Choice.Spares (choice : Choice) (s : Evaluator) : Prop := ∀ failing m dependency rest n pair below result,
  choice = .walk failing → s.stack = .walk m dependency rest n pair :: below → s.returning = some result → Spared failing n result

theorem turnSpec (choice) (good : s.Counts) (spares : choice.Spares s) :
    After (turn setup choice) s (fun _ t => t.Counts) (fun _ t => t.Counts) := by
  have imports : ∀ target, After (do
      let _ ← evaluateModule setup target
      pure ()) s (fun _ t => t.Counts) (fun _ t => t.Counts) := by
    intro target
    rw [afterBind]
    exact (evaluateSpec good target).mono (fun _ _ done => done.1) fun _ _ done => done.1
  unfold turn
  rw [afterBind,afterRead]
  split
  · rename_i failing m dependency rest n pair below top
    exact walkTurnSpec failing good top fun result back => spares failing m dependency rest n pair below result rfl top back
  · exact Counted.noted good s.stack nofun good.exact_
  · split
    · exact good
    · exact imports _
  · split
    · exact good
    · exact imports _
  · rename_i outcome failing m pair caller below top
    have counted : Counted (.entry m pair caller :: below) [] s := top ▸ good
    have finish : s.returning = none → After (do
        update fun s => { s with stack := below }
        finishTurn setup failing m pair outcome caller) s (fun _ t => t.Counts) (fun _ t => t.Counts) := by
      intro silent
      exact finishTurnSpec failing outcome (counted.noted below counted.returned counted.exact_) rfl silent
    cases silent : s.returning with
    | some result => exact good
    | none =>
      split
      · rename_i strange
        cases strange
      · exact good
      · exact finish silent
  · rename_i failing empty
    have counted : Counted [] [] s := empty ▸ good
    split
    · rename_i job jobs silent front
      have popped := counted.popped front
      unfold runJob
      split
      · exact fulfilledSpec failing popped empty
      · exact (rejectedSpec failing popped empty _ _).mono (fun _ _ done => done.1) fun _ _ done => done.1
    · exact good
  · rename_i record failing empty
    split
    · exact good
    · have counted : Counted [] [] s := empty ▸ good
      exact resumeSpec failing counted empty record
  · exact good

end

end Bamts.Evaluation
