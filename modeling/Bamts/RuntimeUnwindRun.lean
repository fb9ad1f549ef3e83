import Bamts.RuntimeUnwindThrow

/-! The stacks that calls, entries, callbacks, suspensions and throws lead to. Every one of them is counted, ends in an entry and
has its boundaries in order, so a throw from any of them is dispatched. -/
set_option linter.all false
namespace Bamts.Runtime.Unwind
open Effect Bytecode Linkage IntervalSweep

inductive Operation where
  | enter (request : Request)
  | call (request : Request) (destination : Option Nat) (callPc : Nat) (constructed : Option Value)
  | opened
  | closed
  | unwind (depth : Nat)
  | complete (returned : Value)
  | throw (value : Value) (origin : ThrowOrigin) (pc : Nat)
  | suspend
  | resume (index pc : Nat) (returnTo : Option ReturnTo) (writes : List (Nat × Value))
  | release (index : Nat)
  | execute (pc : Nat) (writes : List (Nat × Value)) (machine : Machine) (nativeDepth : Nat)

def Stack.executed (s : Stack) (pc : Nat) (writes : List (Nat × Value)) (machine : Machine) (nativeDepth : Nat) : Stack :=
  { s with
    machine := machine,nativeDepth := nativeDepth
    frames := match s.frames with
      | [] => []
      | frame :: rest => { frame with pc := pc,registers := writes.foldl (fun registers write => registers.set write.1 write.2) frame.registers } :: rest }

def releaseSuspended (index : Nat) : Unwinding Unit := do
  let s ← read
  match s.suspended[index]? with
  | none => panic
  | some frame => do
    update fun s => { s with suspended := s.suspended.eraseIdx index }
    releaseSuspendedActivationRegisters frame.registers.length

namespace Operation

def run (code : Code) : Operation → Unwinding Unit
  | enter request => pushFrame code request none
  | call request destination callPc constructed => pushFrame code request (some ⟨destination,callPc,constructed⟩)
  | opened => update fun s => { s with callbackBoundaries := (s.frames.length-1) :: s.callbackBoundaries }
  | closed => update fun s => { s with callbackBoundaries := s.callbackBoundaries.tail }
  | unwind depth => unwindFramesTo depth
  | complete returned => do let _ ← completeFrame returned
  | throw value origin pc => Unwind.throw code value origin pc
  | suspend => suspendFrame
  | resume index pc returnTo writes => resumeFrame code index pc returnTo writes
  | release index => releaseSuspended index
  | execute pc writes machine nativeDepth => update fun s => s.executed pc writes machine nativeDepth

def meets (code : Code) : Operation → Stack → Prop
  | call .., s | opened, s | complete _, s | suspend, s => boundary s < s.frames.length
  | unwind depth, s => boundary s ≤ depth
  | throw _ _ pc, s => ∃ site rest, s.frames = site :: rest ∧ SiteFits code site pc
  | resume _ _ returnTo _, s => s.frames = [] → returnTo = none
  | _, _ => True

end Operation

section
variable {code : Code} {s t : Stack} {frame : Frame} {popped rest : List Frame}

structure Alike (a b : Frame) : Prop where
  module : b.module = a.module
  function : b.function = a.function
  returnTo : b.returnTo = a.returnTo
  registers : b.registers.length = a.registers.length

theorem alikeSet (frame i pc value) : Alike frame { frame with registers := frame.registers.set i value,pc := pc } :=
  ⟨rfl,rfl,rfl,List.length_set⟩

theorem writesLength (writes : List (Nat × Value)) (registers : List Value) :
    (writes.foldl (fun registers write => registers.set write.1 write.2) registers).length = registers.length := by
  induction writes generalizing registers with
  | nil => rfl
  | cons write later ih => exact (ih _).trans List.length_set

theorem alikeWrites (frame pc) (writes : List (Nat × Value)) : Alike frame { frame with
    pc := pc,registers := writes.foldl (fun registers write => registers.set write.1 write.2) frame.registers } :=
  ⟨rfl,rfl,rfl,writesLength _ _⟩

theorem lastTail {last} (found : rest.getLast? = some last) : (frame :: rest).getLast? = some last := by
  cases rest with
  | nil => cases found
  | cons next later => exact found

theorem registersCons (frame rest) : registersOf (frame :: rest) = frame.registers.length+registersOf rest := by
  rfl

theorem boundaryBelow (sound : Sound code s) : boundary s ≤ s.frames.length := by
  rw [boundary]
  cases boundaries : s.callbackBoundaries with
  | nil => exact Nat.zero_le _
  | cons first later => exact sound.boundaries first (boundaries ▸ List.mem_cons_self)

theorem boundaryMost (sound : Sound code s) : ∀ b ∈ s.callbackBoundaries, b ≤ boundary s := by
  intro b member
  have ordered := sound.ordered
  rw [boundary]
  cases boundaries : s.callbackBoundaries with
  | nil =>
    rw [boundaries] at member
    cases member
  | cons first later =>
    rw [boundaries] at member ordered
    rcases List.mem_cons.mp member with rfl | member
    · exact Nat.le_refl _
    · exact (List.pairwise_cons.mp ordered).1 b member

theorem Sound.lower (sound : Sound code s) (frames : s.frames = popped ++ t.frames) (above : boundary s ≤ t.frames.length)
    (suspended : t.suspended = s.suspended) (boundaries : t.callbackBoundaries = s.callbackBoundaries)
    (registers : t.liveRegisters+registersOf popped = s.liveRegisters) : Sound code t := by
  refine ⟨fun frame member => ?_,fun last found => ?_,?_,boundaries ▸ sound.ordered,?_⟩
  · apply sound.frames frame
    rw [frames,← suspended,List.append_assoc]
    exact List.mem_append_right _ member
  · apply sound.bottom last
    rw [frames,List.getLast?_append,found]
    rfl
  · rw [boundaries]
    exact fun b member => Nat.le_trans (boundaryMost sound b member) above
  · have paid := sound.paid
    rw [frames,registersAppend] at paid
    rw [suspended]
    omega

theorem Sound.top (sound : Sound code s) (before : s.frames = frame :: rest) {after} (alike : Alike frame after)
    (now : t.frames = after :: rest) (suspended : t.suspended = s.suspended) (boundaries : t.callbackBoundaries = s.callbackBoundaries)
    (registers : t.liveRegisters = s.liveRegisters) : Sound code t := by
  refine ⟨fun x member => ?_,fun last found => ?_,?_,boundaries ▸ sound.ordered,?_⟩
  · rw [now,suspended,List.cons_append] at member
    have known := fun y at_ => sound.frames y (by rw [before,List.cons_append]; exact at_)
    rcases List.mem_cons.mp member with rfl | member
    · obtain ⟨f,at_,sized⟩ := known frame List.mem_cons_self
      exact ⟨f,by rw [alike.module,alike.function]; exact at_,alike.registers.trans sized⟩
    · exact known x (List.mem_cons_of_mem _ member)
  · rw [now] at found
    cases rest with
    | nil =>
      cases found
      exact alike.returnTo.trans (sound.bottom frame (by rw [before]; rfl))
    | cons next later => exact sound.bottom last (by rw [before]; exact found)
  · have below := sound.boundaries
    rw [before] at below
    rw [boundaries,now]
    exact below
  · have paid := sound.paid
    rw [before,registersCons] at paid
    rw [now,registersCons,suspended,registers,alike.registers]
    exact paid

theorem Sound.push (sound : Sound code s) (now : t.frames = frame :: s.frames)
    (known : ∃ f, code.function frame.module frame.function = some f ∧ frame.registers.length = f.registerCount.toNat)
    (entry : s.frames = [] → frame.returnTo = none) (suspended : ∀ x ∈ t.suspended, x ∈ s.suspended)
    (boundaries : t.callbackBoundaries = s.callbackBoundaries) (paid : registersOf t.frames+registersOf t.suspended ≤ t.liveRegisters) :
    Sound code t := by
  refine ⟨fun x member => ?_,fun last found => ?_,?_,boundaries ▸ sound.ordered,paid⟩
  · rcases List.mem_append.mp member with member | member
    · rw [now] at member
      rcases List.mem_cons.mp member with rfl | member
      · exact known
      · exact sound.frames x (List.mem_append_left _ member)
    · exact sound.frames x (List.mem_append_right _ (suspended x member))
  · rw [now] at found
    cases below : s.frames with
    | nil =>
      rw [below] at found
      cases found
      exact entry below
    | cons next later =>
      rw [below] at found
      exact sound.bottom last (by rw [below]; exact found)
  · rw [boundaries,now]
    exact fun b member => Nat.le_succ_of_le (sound.boundaries b member)

theorem raiseKept {α} (kind module function pc) :
    After (raise code kind module function pc : Unwinding α) s (fun _ _ => False) (fun _ t => t = s) := by
  rw [raise,afterBind]
  cases errorAtInModule code kind module function pc with
  | ok error => exact rfl
  | error raised => exact rfl

theorem limitKept (request : Request) (returnTo : Option ReturnTo) (kind : RuntimeErrorKind) : After (match s.frames, returnTo with
    | caller :: _, some returnTo => raise code kind caller.module caller.function returnTo.callPc
    | _, none => raise code kind request.module request.function 0
    | [], some _ => panic : Unwinding Unit) s (fun _ _ => False) (fun _ t => t = s) := by
  split
  · exact raiseKept _ _ _ _
  · exact raiseKept _ _ _ _
  · exact rfl

theorem pushFrameSpec (request returnTo) :
    After (pushFrame code request returnTo) s
      (fun _ t => ∃ f, code.function request.module request.function = some f ∧
        t = { s with
          frames := ⟨request.module,request.function,0,entryRegisters f request.captures request.arguments,returnTo,request.context,
            s.machine.contextGlobal⟩ :: s.frames
          machine := { s.machine with contextGlobal := request.context }
          liveRegisters := s.liveRegisters+f.registerCount.toNat })
      (fun _ t => t = s) := by
  unfold pushFrame
  rw [afterBind,afterRead]
  cases at_ : code.function request.module request.function with
  | none => exact rfl
  | some f =>
    rw [afterIte,afterIte]
    refine ⟨fun _ => (limitKept request returnTo _).mono (fun _ _ no => no.elim) fun _ _ same => same,fun _ =>
      ⟨fun _ => (limitKept request returnTo _).mono (fun _ _ no => no.elim) fun _ _ same => same,fun _ => ?_⟩⟩
    exact ⟨f,rfl,rfl⟩

theorem entryLength (f captures arguments) :
    (entryRegisters f captures arguments).length = f.registerCount.toNat := by
  rw [entryRegisters,List.length_map,List.length_range]

theorem pushSound (sound : Sound code s) (request) {returnTo} (entry : s.frames = [] → returnTo = none) :
    After (pushFrame code request returnTo) s (fun _ t => Sound code t) (fun _ t => Sound code t) := by
  refine (pushFrameSpec request returnTo).mono ?_ fun _ _ same => same ▸ sound
  rintro _ t ⟨f,at_,rfl⟩
  refine sound.push rfl ⟨f,at_,entryLength _ _ _⟩ entry (fun _ member => member) rfl ?_
  have paid := sound.paid
  rw [registersCons,entryLength]
  dsimp only
  omega

theorem popFrameSpec (sound : Sound code s) (above : boundary s < s.frames.length) :
    ∃ frame rest, s.frames = frame :: rest ∧ popFrame s = .ok frame (withoutTop s frame rest) ∧ Sound code (withoutTop s frame rest) := by
  cases frames : s.frames with
  | nil =>
    rw [frames] at above
    exact absurd above (Nat.not_lt_zero _)
  | cons frame rest =>
    have counted := (Restored.refl s).counted frames sound
    refine ⟨frame,rest,rfl,popFrameIs frames counted,?_⟩
    rw [frames] at above
    refine sound.lower (show s.frames = [frame] ++ rest from frames) (Nat.lt_succ_iff.mp above) rfl rfl ?_
    exact Nat.sub_add_cancel counted

theorem popFramesSound (n) (sound : Sound code s) (above : boundary s+n ≤ s.frames.length) :
    After (popFrames n) s (fun _ t => Sound code t) (fun _ t => Sound code t) := by
  induction n generalizing s with
  | zero => exact sound
  | succ n ih =>
    obtain ⟨frame,rest,frames,popped,lower⟩ := popFrameSpec sound (by omega)
    rw [popFrames,After,doneBind popped]
    refine ih lower ?_
    rw [frames,List.length_cons] at above
    exact Nat.succ_le_succ_iff.mp above

theorem completeSound (sound : Sound code s) (above : boundary s < s.frames.length) (returned) :
    After (completeFrame returned) s (fun _ t => Sound code t) (fun _ t => Sound code t) := by
  obtain ⟨frame,rest,frames,popped,lower⟩ := popFrameSpec sound above
  rw [completeFrame,After,doneBind popped]
  cases frame.returnTo with
  | none => exact lower
  | some returnTo =>
    dsimp only
    rw [doneBind (show Effect.read (withoutTop s frame rest) = .ok _ _ from rfl)]
    cases returnTo.destination with
    | none => exact ⟨lower.frames,lower.bottom,lower.boundaries,lower.ordered,lower.paid⟩
    | some destination =>
      cases callers : (withoutTop s frame rest).frames with
      | nil => exact lower
      | cons caller below =>
        dsimp only
        by_cases inside : destination < caller.registers.length
        · rw [if_pos inside]
          exact lower.top callers (alikeSet _ _ _ _) rfl rfl rfl rfl
        · rw [if_neg inside]
          exact lower

theorem suspendSound (sound : Sound code s) (above : boundary s < s.frames.length) :
    After suspendFrame s (fun _ t => Sound code t) (fun _ t => Sound code t) := by
  rw [suspendFrame,afterBind,afterRead]
  cases frames : s.frames with
  | nil => exact sound
  | cons frame rest =>
    have known := sound.frames
    have paid := sound.paid
    rw [frames] at known paid above
    refine ⟨fun x member => known x ?_,fun last found => ?_,?_,sound.ordered,?_⟩
    · simp only [List.mem_append,List.mem_cons,List.not_mem_nil,or_false] at member ⊢
      tauto
    · exact sound.bottom last (by rw [frames]; exact lastTail found)
    · exact fun b member => Nat.le_trans (boundaryMost sound b member) (Nat.lt_succ_iff.mp above)
    · rw [registersCons] at paid
      dsimp only
      rw [registersSnoc]
      omega

theorem registersErase {frames i} (at_ : frames[i]? = some frame) :
    frame.registers.length+registersOf (frames.eraseIdx i) = registersOf frames := by
  obtain ⟨inside,rfl⟩ := List.getElem?_eq_some_iff.mp at_
  have perm := List.getElem_cons_eraseIdx_perm inside
  rw [← registersCons,registersOf,registersOf]
  exact (perm.map _).sum_eq

theorem erasedSound (sound : Sound code s) {index live} (at_ : s.suspended[index]? = some frame)
    (paid : s.liveRegisters ≤ live+frame.registers.length) :
    Sound code { s with suspended := s.suspended.eraseIdx index,liveRegisters := live } := by
  refine ⟨fun x member => sound.frames x ?_,sound.bottom,sound.boundaries,sound.ordered,?_⟩
  · rcases List.mem_append.mp member with member | member
    · exact List.mem_append_left _ member
    · exact List.mem_append_right _ (List.mem_of_mem_eraseIdx member)
  · have all := sound.paid
    rw [← registersErase at_] at all
    dsimp only
    omega

theorem releaseSound (sound : Sound code s) (index) :
    After (releaseSuspended index) s (fun _ t => Sound code t) (fun _ t => Sound code t) := by
  rw [releaseSuspended,afterBind,afterRead]
  cases at_ : s.suspended[index]? with
  | none => exact sound
  | some frame =>
    simp only [releaseSuspendedActivationRegisters,afterBind,afterUpdate,afterRead,afterIte,afterFail]
    exact ⟨fun _ => erasedSound sound at_ (Nat.le_add_right _ _),fun enough => erasedSound sound at_ (by omega)⟩

theorem resumeSound (sound : Sound code s) (index pc) {returnTo} (writes) (entry : s.frames = [] → returnTo = none) :
    After (resumeFrame code index pc returnTo writes) s (fun _ t => Sound code t) (fun _ t => Sound code t) := by
  rw [resumeFrame,afterBind,afterRead]
  cases at_ : s.suspended[index]? with
  | none => exact sound
  | some frame =>
    simp only [releaseSuspendedActivationRegisters,afterBind,afterUpdate,afterRead,afterIte,afterFail]
    refine ⟨fun _ => ⟨fun _ => erasedSound sound at_ (Nat.le_add_right _ _),fun enough => erasedSound sound at_ (by omega)⟩,fun _ => ?_⟩
    have known := sound.frames frame (List.mem_append_right _ (List.mem_of_getElem? at_))
    have paid := sound.paid
    refine sound.push rfl ?_ entry (fun x member => List.mem_of_mem_eraseIdx member) rfl ?_
    · dsimp only
      rw [writesLength]
      exact known
    · dsimp only
      rw [registersCons,writesLength]
      rw [← registersErase at_] at paid
      omega

def ended : EStateM.Result Raised Stack Unit → Stack
  | .ok _ t | .error _ t => t

theorem thrownSound {value origin site pc result}
    (sound : Sound code s) (thrown : Thrown code s value origin site pc result) : Sound code (ended result) := by
  cases thrown with
  | @caught popped below frame _ _ _ _ u m frames _ above _ _ restored _ =>
    have lower : Sound code { u with frames := frame :: below } :=
      sound.lower frames (Nat.le_succ_of_le above) restored.suspended restored.boundaries restored.registers
    exact lower.top rfl (alikeSet frame _ _ _) rfl rfl rfl rfl
  | @unmade popped below frame _ _ _ _ u frames _ above _ _ restored _ _ top m _ _ =>
    refine sound.lower (t := { u with machine := m }) ?_ ?_ restored.suspended restored.boundaries restored.registers
    · exact frames.trans (by rw [← top])
    · exact Nat.le_succ_of_le above |>.trans (by simp [top])
  | @boundary popped rest _ t frames _ here restored top =>
    refine sound.lower (t := t) (frames.trans (by rw [top])) ?_ restored.suspended restored.boundaries restored.registers
    rw [top]
    exact Nat.le_of_eq (by rw [boundary,List.headD_eq_head?_getD,here]; rfl)
  | @entry popped rest frame _ _ t frames _ above _ _ _ restored top =>
    refine sound.lower (t := t) (show s.frames = (popped ++ [frame]) ++ t.frames from ?_) (by rw [top]; exact above) restored.suspended restored.boundaries
      restored.registers
    rw [frames,top,List.append_assoc]
    rfl

theorem throwSound {value origin pc site} (sound : Sound code s) (top : s.frames = site :: rest)
    (fits : SiteFits code site pc) : After (throw code value origin pc) s (fun _ t => Sound code t) (fun _ t => Sound code t) := by
  have thrown : Thrown code s value origin site pc (throw code value origin pc s) := throwSpec sound fits top
  have kept := thrownSound sound thrown
  unfold After
  cases result : throw code value origin pc s with
  | ok _ t =>
    rw [result] at kept
    exact kept
  | error _ t =>
    rw [result] at kept
    exact kept

/-- What one operation keeps, whether it fails or not. -/
theorem stepSound (o : Operation) (sound : Sound code s) (met : o.meets code s) :
    After (o.run code) s (fun _ t => Sound code t) (fun _ t => Sound code t) := by
  cases o with
  | enter request => exact pushSound sound request fun _ => rfl
  | call request destination callPc constructed =>
    refine pushSound sound request fun empty => ?_
    rw [Operation.meets,empty] at met
    exact absurd met (Nat.not_lt_zero _)
  | opened =>
    refine ⟨sound.frames,sound.bottom,fun b member => ?_,?_,sound.paid⟩
    · rcases List.mem_cons.mp member with rfl | member
      · exact Nat.sub_le _ _
      · exact sound.boundaries b member
    · exact List.pairwise_cons.mpr ⟨fun b member => Nat.le_trans (boundaryMost sound b member) (Nat.le_sub_one_of_lt met),sound.ordered⟩
  | closed =>
    exact ⟨sound.frames,sound.bottom,fun b member => sound.boundaries b (List.mem_of_mem_tail member),
      sound.ordered.sublist (List.tail_sublist _),sound.paid⟩
  | unwind depth =>
    refine popFramesSound _ sound ?_
    have := boundaryBelow sound
    have above : boundary s ≤ depth := met
    omega
  | complete returned =>
    rw [Operation.run,afterBind]
    exact completeSound sound met returned
  | throw value origin pc =>
    obtain ⟨site,rest,top,fits⟩ := met
    exact throwSound sound top fits
  | suspend => exact suspendSound sound met
  | resume index pc returnTo writes => exact resumeSound sound index pc writes met
  | release index => exact releaseSound sound index
  | execute pc writes machine nativeDepth =>
    cases frames : s.frames with
    | nil =>
      have now : s.frames = [] ++ (s.executed pc writes machine nativeDepth).frames := by
        rw [Stack.executed,frames]
        rfl
      have below := boundaryBelow sound
      rw [now] at below
      exact sound.lower now below rfl rfl rfl
    | cons frame rest =>
      have now : (s.executed pc writes machine nativeDepth).frames = { frame with
          pc := pc,registers := writes.foldl (fun registers write => registers.set write.1 write.2) frame.registers } :: rest := by
        rw [Stack.executed,frames]
      exact sound.top (t := s.executed pc writes machine nativeDepth) frames (alikeWrites frame pc writes) now rfl rfl rfl

def Stack.empty (machine : Machine) (nativeDepth : Nat) : Stack := ⟨machine,[],[],[],0,nativeDepth⟩

theorem runSound {machine nativeDepth} (runs : Runs (Operation.run code) (Operation.meets code) (.empty machine nativeDepth) s) :
    Sound code s := by
  refine runs.invariant ?_ fun o _ sound met => stepSound o sound met
  exact ⟨fun _ member => absurd member List.not_mem_nil,fun _ found => (by cases found),fun _ member => absurd member List.not_mem_nil,
    List.Pairwise.nil,Nat.le_refl _⟩

end

/-- The innermost handler of a verified function is found, the stacks of every run are counted and in order, and a throw from such a
stack ends in the handler of the nearest frame that has one above the last boundary and below no entry, or passes on what it
unwound. -/
theorem exceptionsDispatched (code : Code) :
    (∀ index f, verifyHandlers index f = .ok () → ∀ pc,
      (innermostHandler f pc = none ↔ ∀ h ∈ f.handlers, ¬Contains h.range pc) ∧
      ∀ h, innermostHandler f pc = some h → h ∈ f.handlers ∧ Contains h.range pc ∧
        ∀ other ∈ f.handlers, Contains other.range pc → other.range.1 ≤ h.range.1 ∧ h.range.2 ≤ other.range.2) ∧
    (∀ machine nativeDepth s, Runs (Operation.run code) (Operation.meets code) (.empty machine nativeDepth) s → Sound code s) ∧
    ∀ s site rest value origin pc, Sound code s → s.frames = site :: rest → SiteFits code site pc →
      Thrown code s value origin site pc (throw code value origin pc s) := by
  refine ⟨fun index f verified pc => ?_,fun _ _ _ runs => runSound runs,fun s site rest value origin pc sound top fits => throwSpec sound fits top⟩
  obtain ⟨none_,some_⟩ := innermostSpec verified pc
  simp only [← coversIs,Bool.not_eq_true]
  exact ⟨none_,some_⟩

def catching : Function := ⟨none,0,0,1,⟨false,false,false⟩,[.halt,.halt,.halt],[⟨.new 0,.new 2,.new 2,.new 0⟩]⟩
def throwing : Function := ⟨none,0,0,0,⟨false,false,false⟩,[.halt],[]⟩

def twoFunctions : Code where
  function := fun _ i => if i = 0 then some catching else if i = 1 then some throwing else none
  verified := by
    intro m i f at_
    split at at_
    · cases at_
      exact ⟨0,rfl⟩
    · split at at_
      · cases at_
        exact ⟨1,rfl⟩
      · cases at_
  errorPrototype := fun _ => some .null
  installed := fun _ _ _ _ => rfl
  maxCallDepth := 8
  maxTotalRegisters := 8

def request (i : Nat) : Request := ⟨.new 0,i,[],[],none⟩
def enteredStack : Stack := left (Operation.run twoFunctions (.enter (request 0))) (.empty bareMachine 0)
def calledStack : Stack := left (Operation.run twoFunctions (.call (request 1) (some 0) 1 none)) enteredStack
def nestedStack : Stack := left (Operation.run twoFunctions (.enter (request 1))) enteredStack

def throwingFrame (returnTo : Option ReturnTo) : Frame := ⟨.new 0,1,0,[],returnTo,none,none⟩
def catchingFrame : Frame := ⟨.new 0,0,0,[.uninitialized],none,none,none⟩

theorem enteredRuns : Runs (Operation.run twoFunctions) (Operation.meets twoFunctions) (.empty bareMachine 0) enteredStack :=
  .step .start (Operation.enter (request 0)) trivial

theorem throwingFits (returnTo) : SiteFits twoFunctions (throwingFrame returnTo) 0 := ⟨throwing,rfl,by decide⟩

theorem calledDispatched :
    (innermostHandler catching 1 = none ↔ ∀ h ∈ catching.handlers, ¬Contains h.range 1) ∧ Sound twoFunctions calledStack ∧
    Thrown twoFunctions calledStack (.int32 7) .bytecode (throwingFrame (some ⟨some 0,1,none⟩)) 0
      (throw twoFunctions (.int32 7) .bytecode 0 calledStack) := by
  have sound : Sound twoFunctions calledStack :=
    (exceptionsDispatched twoFunctions).2.1 bareMachine 0 calledStack (.step enteredRuns (Operation.call (request 1) (some 0) 1 none) (show 0 < 1 from Nat.zero_lt_one))
  exact ⟨((exceptionsDispatched twoFunctions).1 0 catching rfl 1).1,sound,
    (exceptionsDispatched twoFunctions).2.2 calledStack _ [catchingFrame] _ _ 0 sound rfl (throwingFits _)⟩

theorem entryEndsSearch :
    ¬∀ code machine nativeDepth s site rest value origin pc, Runs (Operation.run code) (Operation.meets code) (.empty machine nativeDepth) s →
      s.frames = site :: rest → SiteFits code site pc →
      (∃ t, throw code value origin pc s = .ok () t) ∨ ∃ error t, throw code value origin pc s = .error error t ∧ t.frames.length = boundary s := by
  intro claimed
  have runs : Runs (Operation.run twoFunctions) (Operation.meets twoFunctions) (.empty bareMachine 0) nestedStack :=
    .step enteredRuns (Operation.enter (request 1)) trivial
  have ends : throw twoFunctions (.int32 7) .bytecode 0 nestedStack =
      .error (errorAt (.uncaughtThrow (.int32 7) .bytecode none) (throwingFrame none) 0) enteredStack := rfl
  rcases claimed twoFunctions bareMachine 0 nestedStack (throwingFrame none) [catchingFrame] (.int32 7) .bytecode 0 runs rfl (throwingFits none)
    with ⟨t,done⟩ | ⟨error,t,failed,length⟩
  · rw [ends] at done
    cases done
  · rw [ends] at failed
    cases failed
    exact absurd length (by decide)

end Bamts.Runtime.Unwind
