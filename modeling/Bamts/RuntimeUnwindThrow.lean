import Bamts.RuntimeUnwind
import Bamts.RuntimeSolvent

/-! Where a throw goes: the innermost handler of a function, the frames a search passes, what is restored for them, and what
the handler is given. -/
set_option linter.all false
namespace Bamts.Runtime.Unwind
open Effect Bytecode Linkage IntervalSweep

theorem deeperIs (a b) : deeper a b = .gt ↔
    b.range.1 < a.range.1 ∨ a.range.1 = b.range.1 ∧ a.range.2 < b.range.2 := by
  rw [deeper,Ordering.then_eq_gt,Std.compare_eq_gt,Std.compare_eq_eq_iff_eq,Std.compare_eq_gt]
  simp only [ExceptionHandler.range,UInt32.lt_iff_toNat_lt,UInt32.toNat_inj]

theorem deeperDecides (a b) : if deeper a b = .gt then Before b.range a.range else Before a.range b.range := by
  have decides := deeperIs a b
  unfold Before
  split
  · have := decides.mp (by assumption)
    omega
  · have := mt decides.mpr (by assumption)
    omega

theorem coversIs {pc h} : covers pc h = true ↔ Contains h.range pc := by
  rw [covers,Bool.and_eq_true,decide_eq_true_eq,decide_eq_true_eq]
  rfl

theorem nestedSelf (a : Nat × Nat) : Nested a a := .inr (.inr (.inl ⟨Nat.le_refl _,Nat.le_refl _⟩))

theorem innermostSpec {index f} (verified : verifyHandlers index f = .ok ()) (pc) :
    (innermostHandler f pc = none ↔ ∀ h ∈ f.handlers, covers pc h = false) ∧
    ∀ h, innermostHandler f pc = some h → h ∈ f.handlers ∧ covers pc h = true ∧
      ∀ other ∈ f.handlers, covers pc other = true → other.range.1 ≤ h.range.1 ∧ h.range.2 ≤ other.range.2 := by
  obtain ⟨_,nested⟩ := (handlersNested index f).mp verified
  have refl : ∀ a : ExceptionHandler, Before a.range a.range := fun a => .inr ⟨rfl,Nat.le_refl _⟩
  have trans : ∀ a b c : ExceptionHandler, Before a.range b.range → Before b.range c.range → Before a.range c.range :=
    fun _ _ _ => Before.trans
  have most := @maxByIs _ _ _ deeperDecides refl trans (f.handlers.filter (covers pc))
  constructor
  · rw [innermostHandler,most.1,List.filter_eq_nil_iff]
    simp only [Bool.not_eq_true]
  · intro h found
    obtain ⟨member,last⟩ := most.2 h found
    obtain ⟨inside,around⟩ := List.mem_filter.mp member
    refine ⟨inside,around,fun other at_ covered => ?_⟩
    have symmetric : Std.Symm fun a b : ExceptionHandler => Nested a.range b.range := ⟨fun _ _ apart => apart.symm⟩
    have pair : Nested other.range h.range := List.Pairwise.forall_of_forall (fun a _ => nestedSelf a.range) nested at_ inside
    exact (last other (List.mem_filter.mpr ⟨at_,covered⟩)).inside pair (coversIs.mp covered) (coversIs.mp around)

def registersOf (frames : List Frame) : Nat := (frames.map (·.registers.length)).sum

def boundary (s : Stack) : Nat := s.callbackBoundaries.headD 0

structure Sound (code : Code) (s : Stack) : Prop where
  frames : ∀ frame ∈ s.frames ++ s.suspended, ∃ f, code.function frame.module frame.function = some f ∧ frame.registers.length = f.registerCount.toNat
  bottom : ∀ frame, s.frames.getLast? = some frame → frame.returnTo = none
  boundaries : ∀ b ∈ s.callbackBoundaries, b ≤ s.frames.length
  ordered : s.callbackBoundaries.Pairwise (· ≥ ·)
  paid : registersOf s.frames+registersOf s.suspended ≤ s.liveRegisters

-- What is undone for the frames that were popped, the last of them the lowest.
structure Restored (s : Stack) (popped : List Frame) (t : Stack) : Prop where
  machine : t.machine = { s.machine with contextGlobal := (popped.getLast?.map Frame.outerContext).getD s.machine.contextGlobal }
  registers : t.liveRegisters+registersOf popped = s.liveRegisters
  boundaries : t.callbackBoundaries = s.callbackBoundaries
  suspended : t.suspended = s.suspended
  native : t.nativeDepth = s.nativeDepth

inductive Passed (code : Code) : Nat → List Frame → Nat → Prop
  | here {pc : Nat} : Passed code pc [] pc
  | up {pc last : Nat} {frame : Frame} {f : Function} {returnTo : ReturnTo} {rest : List Frame} :
    code.function frame.module frame.function = some f → innermostHandler f pc = none → frame.returnTo = some returnTo →
    Passed code returnTo.callPc rest last → Passed code pc (frame :: rest) last

def errorAt (kind : RuntimeErrorKind) (site : Frame) (faultingPc : Nat) : Raised :=
  .error ⟨kind,.new (UInt32.ofNat site.function),.new (UInt32.ofNat faultingPc)⟩

def Frame.caughtAt (frame : Frame) (handler : ExceptionHandler) (value : Value) : Frame :=
  { frame with registers := frame.registers.set handler.catchRegister.get.toNat value,pc := handler.handler.get.toNat }

def Caught (code : Code) (value : Value) (origin : ThrowOrigin) (before : Machine) (caught : Value) (after : Machine) : Prop :=
  if catchValueNeedsMaterialization value origin then materializeEngineOrigin code origin before = .ok caught after ∧ OnlyHeap before after
  else caught = value ∧ after = before

inductive Thrown (code : Code) (s : Stack) (value : Value) (origin : ThrowOrigin) (site : Frame) (faultingPc : Nat) :
    EStateM.Result Raised Stack Unit → Prop
  | caught {popped below : List Frame} {frame : Frame} {searchPc : Nat} {f : Function} {handler : ExceptionHandler} {caught : Value}
    {u : Stack} {m : Machine} :
    s.frames = popped ++ frame :: below → Passed code faultingPc popped searchPc → boundary s ≤ below.length →
    code.function frame.module frame.function = some f → innermostHandler f searchPc = some handler → Restored s popped u →
    Caught code value origin u.machine caught m →
    Thrown code s value origin site faultingPc (.ok () { u with machine := m,frames := frame.caughtAt handler caught :: below })
  | unmade {popped below : List Frame} {frame : Frame} {searchPc : Nat} {f : Function} {handler : ExceptionHandler} {kind : RuntimeErrorKind}
    {u : Stack} :
    s.frames = popped ++ frame :: below → Passed code faultingPc popped searchPc → boundary s ≤ below.length →
    code.function frame.module frame.function = some f → innermostHandler f searchPc = some handler → Restored s popped u →
    catchValueNeedsMaterialization value origin = true → LimitFault s.machine (runtimeFault kind) → u.frames = frame :: below →
    {m : Machine} → OnlyHeap u.machine m → materializeEngineOrigin code origin u.machine = .error (runtimeFault kind) m →
    Thrown code s value origin site faultingPc (.error (errorAt kind site faultingPc) { u with machine := m })
  | boundary {popped rest : List Frame} {searchPc : Nat} {t : Stack} :
    s.frames = popped ++ rest → Passed code faultingPc popped searchPc → s.callbackBoundaries.head? = some rest.length → Restored s popped t → t.frames = rest →
    Thrown code s value origin site faultingPc (.error (errorAt (.uncaughtThrow value origin none) site faultingPc) t)
  | entry {popped rest : List Frame} {frame : Frame} {searchPc : Nat} {f : Function} {t : Stack} :
    s.frames = popped ++ frame :: rest → Passed code faultingPc popped searchPc → boundary s ≤ rest.length →
    code.function frame.module frame.function = some f → innermostHandler f searchPc = none → frame.returnTo = none →
    Restored s (popped ++ [frame]) t → t.frames = rest →
    Thrown code s value origin site faultingPc (.error (errorAt (.uncaughtThrow value origin none) site faultingPc) t)

section
variable {code : Code} {s t : Stack} {value : Value} {origin : ThrowOrigin} {site frame : Frame} {faultingPc searchPc : Nat} {popped rest : List Frame}

theorem Passed.snoc {last f returnTo} (passed : Passed code searchPc popped last)
    (at_ : code.function frame.module frame.function = some f) (none_ : innermostHandler f last = none) (returns : frame.returnTo = some returnTo) :
    Passed code searchPc (popped ++ [frame]) returnTo.callPc := by
  induction passed with
  | here => exact .up at_ none_ returns .here
  | up known unhandled called _ ih => exact .up known unhandled called (ih none_)

theorem Passed.returns {last} (passed : Passed code searchPc popped last) : ∀ frame ∈ popped, frame.returnTo.isSome = true := by
  induction passed with
  | here => exact fun _ member => absurd member List.not_mem_nil
  | up _ _ called _ ih =>
    intro x member
    rcases List.mem_cons.mp member with rfl | member
    · rw [called]
      rfl
    · exact ih x member

theorem registersAppend (a b) : registersOf (a ++ b) = registersOf a+registersOf b := by
  rw [registersOf,List.map_append,List.sum_append]
  rfl

theorem registersSnoc (popped : List Frame) (frame : Frame) : registersOf (popped ++ [frame]) = registersOf popped+frame.registers.length := by
  simp [registersOf]

def withoutTop (s : Stack) (frame : Frame) (rest : List Frame) : Stack :=
  { s with frames := rest,machine := { s.machine with contextGlobal := frame.outerContext },liveRegisters := s.liveRegisters-frame.registers.length }

theorem popFrameIs (top : s.frames = frame :: rest) (counted : frame.registers.length ≤ s.liveRegisters) :
    popFrame s = .ok frame (withoutTop s frame rest) := by
  have enough : ¬s.liveRegisters < frame.registers.length := Nat.not_lt.mpr counted
  simp only [popFrame,bind,EStateM.bind,Effect.read,top,update,enough,if_false]
  rfl

theorem Restored.refl (s) : Restored s [] s := ⟨rfl,rfl,rfl,rfl,rfl⟩

theorem Restored.pop (restored : Restored s popped t) (counted : frame.registers.length ≤ t.liveRegisters) :
    Restored s (popped ++ [frame]) (withoutTop t frame rest) := by
  refine ⟨?_,?_,restored.boundaries,restored.suspended,restored.native⟩
  · rw [List.getLast?_append_of_ne_nil _ (List.cons_ne_nil _ _)]
    simp only [withoutTop,restored.machine]
    rfl
  · have := restored.registers
    rw [registersSnoc]
    simp only [withoutTop]
    omega

def SiteFits (code : Code) (site : Frame) (faultingPc : Nat) : Prop :=
  ∃ f, code.function site.module site.function = some f ∧ faultingPc < f.code.length

theorem raiseIs {α} (kind) (fits : SiteFits code site faultingPc) (t) :
    (raise code kind site.module site.function faultingPc : Unwinding α) t = .error (errorAt kind site faultingPc) t := by
  obtain ⟨f,known,inside⟩ := fits
  simp only [raise,errorAtInModule,known,if_pos inside]
  rfl

theorem allocateOnly (m entry) :
    After (allocate entry) m (fun _ t => OnlyHeap m t) (fun fault t => OnlyHeap m t ∧ LimitFault m fault) := by
  unfold allocate
  simp only [afterBind,afterRead]
  apply afterCapacity
  · intro fits
    obtain ⟨id,value,_⟩ := valueForIndex fits
    simp only [syncSlotLedger,afterUpdate,value]
    exact rfl
  · exact fun _ limit => ⟨rfl,limit⟩

theorem limitBefore {m t fault} (only : OnlyHeap m t) (limit : LimitFault t fault) : LimitFault m fault := by
  have same : t.limits = m.limits := by rw [only]
  cases limit with
  | slots =>
    rw [heapSlotLimitExceeded,same]
    exact .slots
  | bytes =>
    rw [heapByteLimitExceeded,same]
    exact .bytes

theorem materializeSpec (code) {origin} (engine : origin ≠ .bytecode) (m) :
    After (materializeEngineOrigin code origin) m (fun _ t => OnlyHeap m t) (fun fault t => OnlyHeap m t ∧ LimitFault m fault) := by
  unfold materializeEngineOrigin
  cases named : engineError origin with
  | none => cases origin <;> first | exact absurd rfl engine | cases named
  | some error =>
    obtain ⟨name,message⟩ := error
    obtain ⟨prototype,installed⟩ := Option.isSome_iff_exists.mp (code.installed origin name message named)
    simp only [installed,throwErrorObject,afterBind]
    refine (allocateOnly m _).mono (fun text t only => ?_) (fun _ _ failed => failed)
    exact (allocateOnly t _).mono (fun _ u next => only.trans next) fun _ u failed => ⟨only.trans failed.1,limitBefore only failed.2⟩

theorem catchValueSpec (fits : SiteFits code site faultingPc) (t) :
    After (catchValue code value origin site faultingPc) t (fun caught u => ∃ m, u = { t with machine := m } ∧ Caught code value origin t.machine caught m)
      fun e u => ∃ kind m, e = errorAt kind site faultingPc ∧ u = { t with machine := m } ∧ OnlyHeap t.machine m ∧
        catchValueNeedsMaterialization value origin = true ∧ LimitFault t.machine (runtimeFault kind) ∧
        materializeEngineOrigin code origin t.machine = .error (runtimeFault kind) m := by
  by_cases needed : catchValueNeedsMaterialization value origin
  · rw [catchValue,if_pos needed]
    have engine : origin ≠ .bytecode := by
      intro bytecode
      rw [catchValueNeedsMaterialization,bytecode] at needed
      cases needed
    have made := materializeSpec code engine t.machine
    unfold After at made ⊢
    unfold materializeAt
    cases result : materializeEngineOrigin code origin t.machine with
    | ok caught m =>
      rw [result] at made
      refine ⟨m,rfl,?_⟩
      rw [Caught,if_pos needed]
      exact ⟨result,made⟩
    | error fault m =>
      rw [result] at made
      obtain ⟨only,limit⟩ := made
      cases limit with
      | slots => simpa only [heapSlotLimitExceeded,raiseIs _ fits] using ⟨_,m,rfl,rfl,only,needed,.slots,rfl⟩
      | bytes => simpa only [heapByteLimitExceeded,raiseIs _ fits] using ⟨_,m,rfl,rfl,only,needed,.bytes,rfl⟩
  · rw [catchValue,if_neg needed,afterPure]
    refine ⟨t.machine,rfl,?_⟩
    rw [Caught,if_neg needed]
    exact ⟨rfl,rfl⟩

theorem Restored.counted (restored : Restored s popped t) (frames : s.frames = popped ++ frame :: rest) (sound : Sound code s) :
    frame.registers.length ≤ t.liveRegisters := by
  have paid := sound.paid
  have live := restored.registers
  rw [frames,← List.singleton_append,registersAppend,registersAppend] at paid
  have own : registersOf [frame] = frame.registers.length := by simp [registersOf]
  omega

theorem belowFrame {length} (ends : s.callbackBoundaries.head? ≠ some (length+1)) (above : boundary s ≤ length+1) : boundary s ≤ length := by
  unfold boundary at *
  cases boundaries : s.callbackBoundaries with
  | nil => exact Nat.zero_le _
  | cons first later =>
    rw [boundaries] at ends above
    have apart : first ≠ length+1 := fun same => ends (congrArg some same)
    exact Nat.lt_succ_iff.mp (Nat.lt_of_le_of_ne above apart)

theorem catchesInside {m i f handler} (at_ : code.function m i = some f)
    (found : innermostHandler f searchPc = some handler) : handler.catchRegister.get.toNat < f.registerCount.toNat := by
  obtain ⟨index,verified⟩ := code.verified m i f at_
  exact (((handlersNested index f).mp verified).1 handler ((innermostSpec verified searchPc).2 handler found).1).catches

theorem limitSame {m t context fault} (same : t = { m with contextGlobal := context }) (limit : LimitFault t fault) :
    LimitFault m fault := by
  subst same
  cases limit with
  | slots => exact .slots
  | bytes => exact .bytes

/- The induction is on the frames that are left; what the search has passed so far is in front of them. -/
theorem throwFromSpec (sound : Sound code s) (fits : SiteFits code site faultingPc) :
    ∀ (frames popped : List Frame) (searchPc : Nat) (t : Stack), s.frames = popped ++ frames → s.frames ≠ [] → t.frames = frames →
    boundary s ≤ frames.length → Passed code faultingPc popped searchPc → Restored s popped t →
    Thrown code s value origin site faultingPc (throwFrom code value origin site faultingPc frames searchPc t) := by
  intro frames
  induction frames with
  | nil =>
    intro popped searchPc t split live _ _ passed _
    rw [List.append_nil] at split
    obtain ⟨bottom,last⟩ := List.getLast?_isSome.mpr live |> Option.isSome_iff_exists.mp
    have returns := passed.returns bottom (split ▸ List.mem_of_getLast? last)
    rw [sound.bottom bottom last] at returns
    cases returns
  | cons frame rest ih =>
    intro popped searchPc t split live top above passed restored
    have known : ∃ f, code.function frame.module frame.function = some f ∧ frame.registers.length = f.registerCount.toNat :=
      sound.frames frame (List.mem_append_left _ (split ▸ List.mem_append_right _ List.mem_cons_self))
    obtain ⟨f,at_,sized⟩ := known
    rw [throwFrom,doneBind (show Effect.read t = .ok t t from rfl)]
    by_cases ends : t.callbackBoundaries.head? = some (rest.length+1)
    · rw [if_pos ends,uncaughtThrow,raiseIs _ fits]
      exact .boundary split passed (by rw [← restored.boundaries,ends]; rfl) restored top
    · rw [if_neg ends]
      simp only [at_]
      have below : boundary s ≤ rest.length := belowFrame (restored.boundaries ▸ ends) above
      cases search : innermostHandler f searchPc with
      | none =>
        have counted := restored.counted split sound
        have next := @Restored.pop _ _ _ _ rest restored counted
        dsimp only
        rw [doneBind (popFrameIs top counted)]
        cases called : frame.returnTo with
        | none =>
          dsimp only
          rw [uncaughtThrow,raiseIs _ fits]
          exact .entry split passed below at_ search called next rfl
        | some returnTo =>
          exact ih _ _ _ (by rw [split,List.append_assoc]; rfl) live rfl below (passed.snoc at_ search called) next
      | some handler =>
        have given := @catchValueSpec _ value origin _ _ fits t
        unfold After at given
        dsimp only
        cases result : catchValue code value origin site faultingPc t with
        | ok caught u =>
          rw [result] at given
          obtain ⟨m,rfl,caught⟩ := given
          have inside : handler.catchRegister.get.toNat < frame.registers.length := sized ▸ catchesInside at_ search
          rw [doneBind result,if_pos inside]
          exact .caught (u := t) split passed below at_ search restored caught
        | error e u =>
          rw [result] at given
          obtain ⟨kind,m,rfl,rfl,only,needed,limit,made⟩ := given
          rw [failedBind result]
          exact .unmade (u := t) split passed below at_ search restored needed (limitSame restored.machine limit) top only made

theorem throwSpec (sound : Sound code s) (fits : SiteFits code site faultingPc) (top : s.frames = site :: rest) :
    Thrown code s value origin site faultingPc (throw code value origin faultingPc s) := by
  rw [throw,doneBind (show Effect.read s = .ok s s from rfl),top]
  have live : s.frames ≠ [] := top ▸ List.cons_ne_nil _ _
  refine throwFromSpec sound fits _ [] _ s top live top ?_ .here (.refl s)
  rw [← top,boundary]
  cases boundaries : s.callbackBoundaries with
  | nil => exact Nat.zero_le _
  | cons first later => exact sound.boundaries first (boundaries ▸ List.mem_cons_self)

end

end Bamts.Runtime.Unwind
