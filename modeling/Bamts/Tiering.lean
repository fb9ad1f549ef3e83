import Bamts.BytecodeModel
import Bamts.Outcome
import Mathlib.Data.List.Induction
import Mathlib.Data.List.TakeWhile

/-! The tier of a function unit: how often it is invoked, how often compiled code is abandoned, and when it is promoted. -/
set_option linter.all false
namespace Bamts.Tiering
open Bytecode (Pc)

inductive Tier where
  | interpreter | baseline | optimized
  deriving DecidableEq

structure WarmupPolicy where
  baselineInvocations : UInt32
  optimizedInvocations : UInt32
  osrBackEdges : UInt32
  deoptBudget : UInt32
  deriving DecidableEq

inductive TieringError where
  | zeroThreshold
  | invertedThresholds (baseline optimized : UInt32)
  deriving DecidableEq

namespace WarmupPolicy

def default : WarmupPolicy := ⟨10,1000,100,8⟩

def validated (p : WarmupPolicy) : Except TieringError WarmupPolicy :=
  if p.baselineInvocations = 0 ∨ p.optimizedInvocations = 0 ∨ p.osrBackEdges = 0 ∨ p.deoptBudget = 0 then .error .zeroThreshold
  else if p.baselineInvocations > p.optimizedInvocations then .error (.invertedThresholds p.baselineInvocations p.optimizedInvocations)
  else .ok p

end WarmupPolicy

structure TierTransition where
  source : Tier
  target : Tier
  deriving DecidableEq

structure OsrEntry where
  pc : Pc
  deriving DecidableEq

inductive CompletionTag where
  | normal | throw | suspend | fatalTrap
  deriving DecidableEq

inductive DeoptReason where
  | missingNativeOps | invalidFrame | panic | invalidRegister | invalidCompletionTag
  | unknownTrap (trapId : UInt32)
  deriving DecidableEq

structure TieringState where
  policy : WarmupPolicy
  tier : Tier
  invocations : UInt32
  backEdges : UInt32
  deopts : UInt32
  pinned : Bool
  cancelled : Bool
  deriving DecidableEq

-- `saturating_add(1)`.
def saturatingNext (n : UInt32) : UInt32 := if n = 0xffffffff then n else n+1

namespace TieringState

def new (policy : WarmupPolicy) : Except TieringError TieringState := do
  let policy ← policy.validated
  return ⟨policy,.interpreter,0,0,0,false,false⟩

def observeInvocation (s : TieringState) : Option TierTransition × TieringState :=
  if s.cancelled || s.pinned then (none,s)
  else
    let s := { s with invocations := saturatingNext s.invocations }
    match s.tier with
    | .interpreter =>
      if s.invocations ≥ s.policy.baselineInvocations then (some ⟨.interpreter,.baseline⟩,{ s with tier := .baseline }) else (none,s)
    | .baseline =>
      if s.invocations ≥ s.policy.optimizedInvocations then (some ⟨.baseline,.optimized⟩,{ s with tier := .optimized }) else (none,s)
    | .optimized => (none,s)

def observeBackEdge (target current : Pc) (s : TieringState) : Option OsrEntry × TieringState :=
  if s.cancelled || s.pinned || decide (target.get > current.get) then (none,s)
  else
    let s := { s with backEdges := saturatingNext s.backEdges }
    if s.tier = .interpreter ∧ s.backEdges ≥ s.policy.osrBackEdges then (some ⟨target⟩,{ s with backEdges := 0 }) else (none,s)

def recordDeopt (_ : DeoptReason) (s : TieringState) : Tier × TieringState :=
  if s.cancelled then (s.tier,s)
  else
    let s := { s with tier := .interpreter,invocations := 0,backEdges := 0,deopts := saturatingNext s.deopts }
    let s := if s.deopts ≥ s.policy.deoptBudget then { s with pinned := true } else s
    (s.tier,s)

def cancel (s : TieringState) : TieringState := { s with cancelled := true }

end TieringState

inductive Event where
  | invocation
  | backEdge (target current : Pc)
  | deopt (reason : DeoptReason)
  | cancel
  deriving DecidableEq

def Event.step : Event → TieringState → Option TierTransition × TieringState
  | .invocation, s => s.observeInvocation
  | .backEdge target current, s => (none,(s.observeBackEdge target current).2)
  | .deopt reason, s => (none,(s.recordDeopt reason).2)
  | .cancel, s => (none,s.cancel)

def TieringState.after (s : TieringState) (events : List Event) : TieringState := events.foldl (fun s e => (e.step s).2) s

def TieringState.reports (s : TieringState) (events : List Event) (e : Event) : Option TierTransition := (e.step (s.after events)).1

/-! The same as history: what the events before say, without the state. -/

def Event.isDeopt : Event → Bool
  | .deopt _ => true
  | _ => false

def Event.warms (n : Nat) : Event → Nat
  | .invocation => n+1
  | .deopt _ => 0
  | _ => n

def invocationsSince (events : List Event) : Nat := events.foldl Event.warms 0

def deoptsOf (events : List Event) : Nat := (events.takeWhile (· != .cancel)).countP Event.isDeopt

def Live (p : WarmupPolicy) (events : List Event) : Prop := .cancel ∉ events ∧ deoptsOf events < p.deoptBudget.toNat

def toBaseline : TierTransition := ⟨.interpreter,.baseline⟩
def toOptimized : TierTransition := ⟨.baseline,.optimized⟩

/-- Promotions at the invocations that reach a threshold, and at no others; pinning at the deoptimization that reaches the
budget. -/
structure Promotes (p : WarmupPolicy) (start : TieringState) : Prop where
  baseline : ∀ events, start.reports events .invocation = some toBaseline ↔
    Live p events ∧ invocationsSince events+1 = p.baselineInvocations.toNat
  optimized : ∀ events, start.reports events .invocation = some toOptimized ↔
    Live p events ∧ invocationsSince events+1 = p.optimizedInvocations.toNat
  others : ∀ events e t, start.reports events e = some t → e = .invocation ∧ (t = toBaseline ∨ t = toOptimized)
  once : ∀ (events between : List Event) (t : TierTransition), (∀ e ∈ between, e.isDeopt = false) → start.reports events .invocation = some t →
    start.reports (events ++ Event.invocation :: between) .invocation ≠ some t
  pinned : ∀ events, (start.after events).pinned = true ↔ p.deoptBudget.toNat ≤ deoptsOf events
  quiet : ∀ events e, .cancel ∈ events ∨ (start.after events).pinned = true → start.reports events e = none

section
variable {p : WarmupPolicy} {s : TieringState} {events : List Event}

def u32Max : Nat := 2^32-1

theorem nextNat (n) : (saturatingNext n).toNat = min (n.toNat+1) u32Max := by
  have bound := n.toNat_lt
  unfold saturatingNext u32Max
  split
  · rename_i full
    subst full
    rfl
  · rename_i room
    have differs : n.toNat ≠ 4294967295 := fun same => room (UInt32.toNat_inj.mp same)
    rw [UInt32.toNat_add]
    have one : (1 : UInt32).toNat = 1 := rfl
    omega

theorem atMost (n : UInt32) : n.toNat ≤ u32Max := by
  have := n.toNat_lt
  unfold u32Max
  omega

def tierAt (p : WarmupPolicy) (n : Nat) : Tier :=
  if n < p.baselineInvocations.toNat then .interpreter
  else if n < max p.optimizedInvocations.toNat (p.baselineInvocations.toNat+1) then .baseline
  else .optimized

theorem deoptsOpen (open_ : .cancel ∉ events) (e : Event) : deoptsOf (events ++ [e]) = deoptsOf events + if e.isDeopt then 1 else 0 := by
  have all : ∀ e ∈ events, (e != .cancel) = true := fun e member => bne_iff_ne.mpr fun same => open_ (same ▸ member)
  have whole : events.takeWhile (· != .cancel) = events := List.takeWhile_eq_self_iff.mpr all
  rw [deoptsOf,deoptsOf,List.takeWhile_append_of_pos all,whole,List.countP_append]
  cases e with
  | _ => rfl

theorem deoptsCancelled (cancelled : .cancel ∈ events) (e) : deoptsOf (events ++ [e]) = deoptsOf events := by
  obtain ⟨before,later,rfl,open_⟩ := List.eq_append_cons_of_mem cancelled
  have all : ∀ e ∈ before, (e != .cancel) = true := fun e member => bne_iff_ne.mpr fun same => open_ (same ▸ member)
  have stop : ∀ rest : List Event, (before ++ .cancel :: rest).takeWhile (· != .cancel) = before := by
    intro rest
    rw [List.takeWhile_append_of_pos all,List.takeWhile_cons_of_neg (by decide),List.append_nil]
  rw [deoptsOf,deoptsOf,List.append_assoc,List.cons_append,stop,stop]

theorem sinceNext (e : Event) : invocationsSince (events ++ [e]) = e.warms (invocationsSince events) := by
  rw [invocationsSince,List.foldl_append]
  rfl

theorem afterNext (e : Event) : s.after (events ++ [e]) = (e.step (s.after events)).2 := by
  rw [TieringState.after,List.foldl_append]
  rfl

structure Tracks (p : WarmupPolicy) (events : List Event) (s : TieringState) : Prop where
  policy : s.policy = p
  cancelled : s.cancelled = true ↔ .cancel ∈ events
  deopts : s.deopts.toNat = min (deoptsOf events) u32Max
  pinned : s.pinned = true ↔ p.deoptBudget.toNat ≤ deoptsOf events
  invocations : Live p events → s.invocations.toNat = min (invocationsSince events) u32Max
  tier : Live p events → s.tier = tierAt p (invocationsSince events)

theorem Tracks.live (tracks : Tracks p events s) : (s.cancelled || s.pinned) = false ↔ Live p events := by
  have cancelled := tracks.cancelled
  have pinned := tracks.pinned
  unfold Live
  cases one : s.cancelled <;> cases two : s.pinned <;> simp_all

structure Sound (p : WarmupPolicy) : Prop where
  baseline : 0 < p.baselineInvocations.toNat
  ordered : p.baselineInvocations.toNat ≤ p.optimizedInvocations.toNat
  budget : 0 < p.deoptBudget.toNat

theorem positive {n : UInt32} (nonzero : n ≠ 0) : 0 < n.toNat := Nat.pos_of_ne_zero fun zero => nonzero (UInt32.toNat_inj.mp zero)

theorem newStart (made : TieringState.new p = .ok s) : Sound p ∧ s = ⟨p,.interpreter,0,0,0,false,false⟩ := by
  obtain ⟨q,valid,same⟩ := Outcome.bindOk.mp made
  cases same
  unfold WarmupPolicy.validated at valid
  split at valid
  · cases valid
  · rename_i nonzero
    split at valid
    · cases valid
    · rename_i ordered
      cases valid
      simp only [not_or] at nonzero
      exact ⟨⟨positive nonzero.1,Nat.not_lt.mp ordered,positive nonzero.2.2.2⟩,rfl⟩

theorem tierLow {n} (low : n < p.baselineInvocations.toNat) : tierAt p n = .interpreter := if_pos low

theorem tierMid {n} (warm : p.baselineInvocations.toNat ≤ n) (mid : n < max p.optimizedInvocations.toNat (p.baselineInvocations.toNat+1)) :
    tierAt p n = .baseline := by
  rw [tierAt,if_neg (Nat.not_lt.mpr warm),if_pos mid]

theorem tierHigh {n} (hot : max p.optimizedInvocations.toNat (p.baselineInvocations.toNat+1) ≤ n) : tierAt p n = .optimized := by
  rw [tierAt,if_neg (by omega),if_neg (by omega)]

theorem Tracks.start (sound : Sound p) : Tracks p [] ⟨p,.interpreter,0,0,0,false,false⟩ := by
  refine ⟨rfl,by simp,rfl,?_,fun _ => rfl,fun _ => (if_pos sound.baseline).symm⟩
  have none_ : ¬p.deoptBudget.toNat ≤ deoptsOf [] := Nat.not_le.mpr sound.budget
  simp [none_]

theorem deoptsSame {e : Event} (other : e.isDeopt = false) : deoptsOf (events ++ [e]) = deoptsOf events := by
  by_cases cancelled : .cancel ∈ events
  · exact deoptsCancelled cancelled e
  · simp [deoptsOpen cancelled e,other]

theorem liveNext {e : Event} (other : e.isDeopt = false) (going : e ≠ Event.cancel) : Live p (events ++ [e]) ↔ Live p events := by
  rw [Live,Live,deoptsSame other,List.mem_append,List.mem_singleton]
  exact and_congr_left' (not_congr (or_iff_left going.symm))

theorem Tracks.next {t : TieringState} {e : Event} (tracks : Tracks p events s) (other : e.isDeopt = false) (going : e ≠ Event.cancel) (policy : t.policy = s.policy)
    (cancelled : t.cancelled = s.cancelled) (deopts : t.deopts = s.deopts) (pinned : t.pinned = s.pinned)
    (invocations : Live p events → t.invocations.toNat = min (invocationsSince (events ++ [e])) u32Max)
    (tier : Live p events → t.tier = tierAt p (invocationsSince (events ++ [e]))) : Tracks p (events ++ [e]) t := by
  refine ⟨policy.trans tracks.policy,?_,?_,?_,fun live => invocations ((liveNext other going).mp live),fun live => tier ((liveNext other going).mp live)⟩
  · rw [cancelled,tracks.cancelled,List.mem_append,List.mem_singleton]
    exact (or_iff_left going.symm).symm
  · rw [deopts,deoptsSame other]
    exact tracks.deopts
  · rw [pinned,deoptsSame other]
    exact tracks.pinned

theorem invocationReports (tracks : Tracks p events s) (sound : Sound p) (live : Live p events) :
    s.observeInvocation.1 = (if invocationsSince events+1 = p.baselineInvocations.toNat then some toBaseline
      else if invocationsSince events+1 = max p.optimizedInvocations.toNat (p.baselineInvocations.toNat+1) then some toOptimized
      else none) ∧
    s.observeInvocation.2 = { s with invocations := saturatingNext s.invocations,tier := tierAt p (invocationsSince events+1) } := by
  have open_ : (s.cancelled || s.pinned) = false := tracks.live.mpr live
  have counted : (saturatingNext s.invocations).toNat = min (invocationsSince events+1) u32Max := by
    rw [nextNat,tracks.invocations live]
    omega
  have warm : saturatingNext s.invocations ≥ s.policy.baselineInvocations ↔ p.baselineInvocations.toNat ≤ invocationsSince events+1 := by
    have := atMost p.baselineInvocations
    rw [ge_iff_le,UInt32.le_iff_toNat_le,counted,tracks.policy]
    omega
  have hot : saturatingNext s.invocations ≥ s.policy.optimizedInvocations ↔ p.optimizedInvocations.toNat ≤ invocationsSince events+1 := by
    have := atMost p.optimizedInvocations
    rw [ge_iff_le,UInt32.le_iff_toNat_le,counted,tracks.policy]
    omega
  have tier := tracks.tier live
  unfold TieringState.observeInvocation
  simp only [open_,Bool.false_eq_true,if_false]
  by_cases low : invocationsSince events < p.baselineInvocations.toNat
  · rw [tierLow low] at tier
    simp only [tier,warm]
    by_cases first : invocationsSince events+1 = p.baselineInvocations.toNat
    · rw [if_pos (Nat.le_of_eq first.symm),if_pos first,tierMid (by omega) (by omega)]
      exact ⟨rfl,rfl⟩
    · rw [if_neg (by omega),if_neg first,if_neg (by omega),tierLow (by omega),← tier]
      exact ⟨rfl,rfl⟩
  · by_cases mid : invocationsSince events < max p.optimizedInvocations.toNat (p.baselineInvocations.toNat+1)
    · rw [tierMid (by omega) mid] at tier
      simp only [tier,hot]
      have past : ¬invocationsSince events+1 = p.baselineInvocations.toNat := by omega
      by_cases second : invocationsSince events+1 = max p.optimizedInvocations.toNat (p.baselineInvocations.toNat+1)
      · have reached : p.optimizedInvocations.toNat ≤ invocationsSince events+1 := by omega
        rw [if_pos reached,if_neg past,if_pos second,tierHigh (by omega)]
        exact ⟨rfl,rfl⟩
      · have short : ¬p.optimizedInvocations.toNat ≤ invocationsSince events+1 := by omega
        rw [if_neg short,if_neg past,if_neg second,tierMid (by omega) (by omega),← tier]
        exact ⟨rfl,rfl⟩
    · rw [tierHigh (by omega)] at tier
      simp only [tier]
      rw [if_neg (by omega),if_neg (by omega),tierHigh (by omega),← tier]
      exact ⟨rfl,rfl⟩

theorem Tracks.deopt (tracks : Tracks p events s) (sound : Sound p) (active : s.cancelled = false) (reason) :
    Tracks p (events ++ [Event.deopt reason]) (s.recordDeopt reason).2 := by
  have open_ : .cancel ∉ events := fun member => Bool.false_ne_true (active.symm.trans (tracks.cancelled.mpr member))
  have more : deoptsOf (events ++ [Event.deopt reason]) = deoptsOf events+1 := deoptsOpen open_ _
  have counted : (saturatingNext s.deopts).toNat = min (deoptsOf events+1) u32Max := by
    rw [nextNat,tracks.deopts]
    omega
  have spent : saturatingNext s.deopts ≥ s.policy.deoptBudget ↔ p.deoptBudget.toNat ≤ deoptsOf events+1 := by
    have := atMost p.deoptBudget
    rw [ge_iff_le,UInt32.le_iff_toNat_le,counted,tracks.policy]
    omega
  have still : Event.cancel ∈ events ++ [Event.deopt reason] ↔ s.cancelled = true := by
    rw [tracks.cancelled,List.mem_append,List.mem_singleton]
    exact or_iff_left Event.noConfusion
  rw [active] at still
  have cold : invocationsSince (events ++ [Event.deopt reason]) = 0 := sinceNext _
  unfold TieringState.recordDeopt
  simp only [active,Bool.false_eq_true,if_false,spent]
  by_cases reached : p.deoptBudget.toNat ≤ deoptsOf events+1
  · rw [if_pos reached]
    refine ⟨tracks.policy,still.symm,?_,?_,fun live => absurd live.2 (by omega),fun live => absurd live.2 (by omega)⟩
    · rw [more]
      exact counted
    · rw [more]
      exact iff_of_true rfl reached
  · rw [if_neg reached]
    refine ⟨tracks.policy,still.symm,?_,?_,fun _ => ?_,fun _ => ?_⟩
    · rw [more]
      exact counted
    · rw [more]
      exact tracks.pinned.trans (iff_of_false (by omega) reached)
    · rw [cold]
      rfl
    · rw [cold]
      exact (tierLow sound.baseline).symm

theorem Tracks.cancel (tracks : Tracks p events s) : Tracks p (events ++ [Event.cancel]) s.cancel := by
  have inside : Event.cancel ∈ events ++ [Event.cancel] := List.mem_append_right _ (List.mem_singleton.mpr rfl)
  refine ⟨tracks.policy,iff_of_true rfl inside,?_,?_,fun live => absurd inside live.1,fun live => absurd inside live.1⟩
  · rw [deoptsSame rfl]
    exact tracks.deopts
  · rw [deoptsSame rfl]
    exact tracks.pinned

theorem Tracks.idle (tracks : Tracks p events s) (dead : ¬Live p events) {e : Event} (other : e.isDeopt = false) (going : e ≠ Event.cancel) :
    Tracks p (events ++ [e]) s :=
  tracks.next other going rfl rfl rfl rfl (fun live => absurd live dead) fun live => absurd live dead

theorem backEdgeCounts (target current) (s : TieringState) :
    (s.observeBackEdge target current).2 = { s with backEdges := (s.observeBackEdge target current).2.backEdges } := by
  unfold TieringState.observeBackEdge
  split
  · rfl
  · dsimp only
    split <;> rfl

theorem Tracks.step (tracks : Tracks p events s) (sound : Sound p) (e : Event) : Tracks p (events ++ [e]) (e.step s).2 := by
  cases e with
  | invocation =>
    by_cases live : Live p events
    · rw [Event.step,(invocationReports tracks sound live).2]
      refine tracks.next rfl Event.noConfusion rfl rfl rfl rfl (fun live => ?_) fun live => ?_
      · rw [sinceNext,nextNat,tracks.invocations live]
        simp only [Event.warms]
        omega
      · rw [sinceNext]
        rfl
    · have closed : (s.cancelled || s.pinned) = true := Bool.not_eq_false _ |>.mp fun open_ => live (tracks.live.mp open_)
      rw [Event.step,TieringState.observeInvocation,if_pos closed]
      exact tracks.idle live rfl Event.noConfusion
  | backEdge target current =>
    rw [Event.step,backEdgeCounts]
    refine tracks.next rfl Event.noConfusion rfl rfl rfl rfl (fun live => ?_) fun live => ?_
    · rw [sinceNext]
      exact tracks.invocations live
    · rw [sinceNext]
      exact tracks.tier live
  | deopt reason =>
    cases active : s.cancelled with
    | false => exact tracks.deopt sound active reason
    | true =>
      have inside := tracks.cancelled.mp active
      have inside' : Event.cancel ∈ events ++ [Event.deopt reason] := List.mem_append_left _ inside
      rw [Event.step,TieringState.recordDeopt,if_pos active]
      refine ⟨tracks.policy,iff_of_true active inside',?_,?_,fun live => absurd inside' live.1,fun live => absurd inside' live.1⟩
      · rw [deoptsCancelled inside]
        exact tracks.deopts
      · rw [deoptsCancelled inside]
        exact tracks.pinned
  | cancel => exact tracks.cancel

theorem tracked (made : TieringState.new p = .ok s) (events) : Tracks p events (s.after events) := by
  obtain ⟨sound,rfl⟩ := newStart made
  induction events using List.reverseRecOn with
  | nil => exact .start sound
  | append_singleton events e ih =>
    rw [afterNext]
    exact ih.step sound e

theorem deadReports (made : TieringState.new p = .ok s) (dead : ¬Live p events) (e) : s.reports events e = none := by
  have tracks := tracked made events
  cases e with
  | invocation =>
    have closed : ((s.after events).cancelled || (s.after events).pinned) = true := Bool.not_eq_false _ |>.mp fun open_ => dead (tracks.live.mp open_)
    rw [TieringState.reports,Event.step,TieringState.observeInvocation,if_pos closed]
  | _ => rfl

theorem liveReports (made : TieringState.new p = .ok s) (live : Live p events) : s.reports events .invocation =
    if invocationsSince events+1 = p.baselineInvocations.toNat then some toBaseline
    else if invocationsSince events+1 = max p.optimizedInvocations.toNat (p.baselineInvocations.toNat+1) then some toOptimized
    else none :=
  (invocationReports (tracked made events) (newStart made).1 live).1

theorem baselineReports (made : TieringState.new p = .ok s) : s.reports events .invocation = some toBaseline ↔
    Live p events ∧ invocationsSince events+1 = p.baselineInvocations.toNat := by
  by_cases live : Live p events
  · rw [liveReports made live,and_iff_right live]
    constructor
    · intro reported
      by_contra other
      rw [if_neg other] at reported
      split at reported
      · cases reported
      · cases reported
    · exact fun first => if_pos first
  · rw [deadReports made live]
    exact iff_of_false (Option.some_ne_none _).symm fun both => live both.1

theorem optimizedReports (made : TieringState.new p = .ok s) : s.reports events .invocation = some toOptimized ↔
    Live p events ∧ invocationsSince events+1 = max p.optimizedInvocations.toNat (p.baselineInvocations.toNat+1) := by
  by_cases live : Live p events
  · rw [liveReports made live,and_iff_right live]
    constructor
    · intro reported
      split at reported
      · cases reported
      · split at reported
        · assumption
        · cases reported
    · intro second
      rw [if_neg (by omega),if_pos second]
  · rw [deadReports made live]
    exact iff_of_false (Option.some_ne_none _).symm fun both => live both.1

theorem transitions (made : TieringState.new p = .ok s) {e t} (reported : s.reports events e = some t) :
    e = .invocation ∧ (t = toBaseline ∨ t = toOptimized) := by
  cases e with
  | invocation =>
    refine ⟨rfl,?_⟩
    by_cases live : Live p events
    · rw [liveReports made live] at reported
      split at reported
      · exact .inl (Option.some.inj reported).symm
      · split at reported
        · exact .inr (Option.some.inj reported).symm
        · cases reported
    · rw [deadReports made live] at reported
      cases reported
  | _ => cases reported

theorem warmsOnly (n) {between : List Event} (calm : ∀ e ∈ between, e.isDeopt = false) : n ≤ between.foldl Event.warms n := by
  induction between generalizing n with
  | nil => exact Nat.le_refl _
  | cons e between ih =>
    have more : n ≤ e.warms n := by
      cases e with
      | invocation => exact Nat.le_succ _
      | deopt reason => exact absurd (calm _ List.mem_cons_self) Bool.noConfusion
      | _ => exact Nat.le_refl _
    exact Nat.le_trans more (ih (e.warms n) fun e member => calm e (List.mem_cons_of_mem _ member))

theorem sinceGrows {between : List Event} (calm : ∀ e ∈ between, e.isDeopt = false) :
    invocationsSince events < invocationsSince (events ++ Event.invocation :: between) := by
  rw [invocationsSince,invocationsSince,List.foldl_append]
  exact warmsOnly _ calm

theorem reportedOnce (made : TieringState.new p = .ok s) {between : List Event} {t : TierTransition} (calm : ∀ e ∈ between, e.isDeopt = false)
    (first : s.reports events .invocation = some t) : s.reports (events ++ Event.invocation :: between) .invocation ≠ some t := by
  intro again
  have later := @sinceGrows events between calm
  rcases (transitions made first).2 with rfl | rfl
  · have one := (baselineReports made).mp first
    have two := (baselineReports made).mp again
    omega
  · have one := (optimizedReports made).mp first
    have two := (optimizedReports made).mp again
    omega

theorem invokedSince (n) : invocationsSince (List.replicate n .invocation) = n := by
  induction n with
  | zero => rfl
  | succ n ih =>
    rw [List.replicate_succ',sinceNext,ih]
    rfl

theorem invokedLive (sound : Sound p) (n) : Live p (List.replicate n .invocation) := by
  refine ⟨fun member => Event.noConfusion (List.eq_of_mem_replicate member),?_⟩
  have none_ : deoptsOf (List.replicate n .invocation) = 0 := by
    refine List.countP_eq_zero.mpr fun e member => ?_
    rw [List.eq_of_mem_replicate ((List.takeWhile_prefix _).subset member)]
    exact Bool.noConfusion
  rw [none_]
  exact sound.budget

/- A unit whose two thresholds are one makes one promotion at that invocation and the other at the next. -/
theorem promotesExact (made : TieringState.new p = .ok s) : Promotes p s ↔ p.baselineInvocations < p.optimizedInvocations := by
  have sound := (newStart made).1
  constructor
  · intro promotes
    by_contra low
    have same : p.baselineInvocations.toNat = p.optimizedInvocations.toNat := Nat.le_antisymm sound.ordered (Nat.not_lt.mp low)
    have warm := sound.baseline
    have live := invokedLive sound (p.baselineInvocations.toNat-1)
    have reached : invocationsSince (List.replicate (p.baselineInvocations.toNat-1) .invocation)+1 = p.baselineInvocations.toNat := by
      rw [invokedSince]
      omega
    have first := (promotes.baseline _).mpr ⟨live,reached⟩
    rw [(promotes.optimized _).mpr ⟨live,reached.trans same⟩] at first
    cases first
  · intro apart
    have apart : p.baselineInvocations.toNat < p.optimizedInvocations.toNat := apart
    refine ⟨fun events => baselineReports made,fun events => ?_,fun events e t => transitions made,
      fun events between t calm => reportedOnce made calm,fun events => (tracked made events).pinned,fun events e stopped => ?_⟩
    · rw [optimizedReports made,Nat.max_eq_left apart]
    · refine deadReports made (fun live => ?_) e
      rcases stopped with cancelled | pinned
      · exact live.1 cancelled
      · exact absurd ((tracked made events).pinned.mp pinned) (Nat.not_le.mpr live.2)

end

theorem defaultPromotes : ∃ s, TieringState.new .default = .ok s ∧ Promotes .default s :=
  ⟨_,rfl,(promotesExact rfl).mpr (by decide)⟩

def oneThreshold : WarmupPolicy := ⟨1,1,1,1⟩

theorem oneLate : ¬∀ (p : WarmupPolicy) (s : TieringState), TieringState.new p = .ok s → Promotes p s := by
  intro always
  have promotes := always oneThreshold ⟨oneThreshold,.interpreter,0,0,0,false,false⟩ rfl
  have live : Live oneThreshold [] := ⟨List.not_mem_nil,by decide⟩
  have reported := (promotes.optimized []).mpr ⟨live,rfl⟩
  cases reported

end Bamts.Tiering
