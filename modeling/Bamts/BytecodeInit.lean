import Bamts.BytecodeVerify
import Bamts.ForwardFlow

/-! Definite initialization. The source iterates in place, round-robin, over the
instructions and then the handlers until a round changes nothing; the facts it
ends with are the meet over all normal and exceptional paths. -/
set_option linter.all false
namespace Bamts.Bytecode
open Outcome ForwardFlow

abbrev Facts := List RegisterSet

structure Certificate where
  registerCount : UInt32
  facts : Facts
  deriving DecidableEq, Repr

-- `changed |= facts[target].intersect(&incoming)`
def meetAt (state : Bool × Facts) (target : Nat) (incoming : RegisterSet) : Bool × Facts :=
  match state.2[target]? with
  | none => state
  | some old =>
    let r := old.intersect incoming
    (state.1 || r.1,state.2.set target r.2)

def factAt (registerCount : UInt32) (facts : Facts) (pc : Nat) : RegisterSet :=
  (facts[pc]?).getD (.full registerCount)

def afterWrites (f : Function) (facts : Facts) (pc : Nat) (i : Instruction) : RegisterSet :=
  i.visitWrites.foldl .insert (factAt f.registerCount facts pc)

def flowInstruction (f : Function) (state : Bool × Facts) (pc : Nat) (i : Instruction) : Bool × Facts :=
  let after := afterWrites f state.2 pc i
  (i.visitSuccessors (UInt32.ofNat pc)).foldl (fun s t => meetAt s t.get.toNat after) state

-- Intersection of the pre-facts over `facts[start..end]`, plus the catch register.
def contribution (f : Function) (facts : Facts) (h : ExceptionHandler) : RegisterSet :=
  let range := (facts.take h.stop.get.toNat).drop h.start.get.toNat
  (range.foldl (fun c p => (c.intersect p).2) (RegisterSet.full f.registerCount)).insert h.catchRegister

def flowHandler (f : Function) (state : Bool × Facts) (h : ExceptionHandler) : Bool × Facts :=
  meetAt state h.handler.get.toNat (contribution f state.2 h)

def flowRound (f : Function) (facts : Facts) : Bool × Facts :=
  let state := f.code.zipIdx.foldl (fun s ip => flowInstruction f s ip.2 ip.1) (false,facts)
  f.handlers.foldl (flowHandler f) state

-- The loop of the source; `settleStable` shows that the fuel passed below is never used up.
def settle (f : Function) : Nat → Facts → Facts
  | 0, facts => facts
  | fuel+1, facts =>
    let round := flowRound f facts
    if round.1 then settle f fuel round.2 else round.2

def initialFacts (f : Function) : Facts :=
  (List.replicate f.code.length (RegisterSet.full f.registerCount)).set 0
    ((RegisterSet.empty f.registerCount).insertPrefix f.entryInitialized)

def settledFacts (f : Function) : Facts :=
  settle f (64 * RegisterSet.wordsFor f.registerCount * f.code.length + 1) (initialFacts f)

def checkReads (functionIndex : Nat) (facts : Facts) (registerCount : UInt32) (pc : Nat) (i : Instruction) :
    Verify Unit :=
  match i.visitReads.find? (fun r => !(factAt registerCount facts pc).contains r) with
  | some register => .error (instructionError functionIndex pc (.readBeforeWrite register))
  | none => .ok ()

def definiteInitialization (functionIndex : Nat) (f : Function) : Verify Certificate := do
  let facts := settledFacts f
  eachFrom (checkReads functionIndex facts f.registerCount) 0 f.code
  pure ⟨f.registerCount,facts⟩

def verifyFunction (m : Module) (functionIndex : Nat) (f : Function) : Verify Certificate := do
  verifyStructure m functionIndex f
  definiteInitialization functionIndex f

def verifyFunctions (m : Module) : Nat → List Function → Verify (List Certificate)
  | _, [] => .ok []
  | index, f :: rest => do
    let certificate ← verifyFunction m index f
    let certificates ← verifyFunctions m (index+1) rest
    pure (certificate :: certificates)

def verifyModule (m : Module) : Verify (List Certificate) := do
  verifyModuleBounds m
  verifyFunctions m 0 m.functions

/- Paths of the claim: a normal successor is taken after the writes, an exceptional
edge from any protected pc keeps the state before the instruction and adds the catch register. -/
inductive Edge (f : Function) : Nat → Set Register → Nat → Prop where
  | normal {pc : Nat} {i : Instruction} {target : Pc} (at_ : f.code[pc]? = some i)
      (next : target ∈ i.visitSuccessors (UInt32.ofNat pc)) :
      Edge f pc {r | r ∈ i.visitWrites} target.get.toNat
  | exceptional {pc : Nat} {h : ExceptionHandler} (member : h ∈ f.handlers)
      (above : h.start.get.toNat ≤ pc) (below : pc < h.stop.get.toNat) :
      Edge f pc {h.catchRegister} h.handler.get.toNat

def flowGraph (f : Function) : ForwardFlow.Graph Nat Register where
  entry := 0
  start := {r | r.get.toNat < f.captureCount.toNat + f.parameterCount.toNat}
  edge := Edge f

def registerFile (f : Function) : Set Register := {r | r.get.toNat < f.registerCount.toNat}

def held (f : Function) (facts : Facts) (pc : Nat) : Set Register :=
  {r | (factAt f.registerCount facts pc).contains r = true}

structure Inv (f : Function) (facts : Facts) : Prop where
  count : facts.length = f.code.length
  width : ∀ s ∈ facts, s.words.length = RegisterSet.wordsFor f.registerCount
  entry : held f facts 0 ⊆ (flowGraph f).start
  justified : Justified (flowGraph f) (registerFile f) (held f facts)

def total (facts : Facts) : Nat := (facts.map RegisterSet.size).sum

structure Progress (f : Function) (s t : Bool × Facts) : Prop where
  inv : Inv f t.2
  spent : total t.2 + t.1.toNat ≤ total s.2 + s.1.toNat
  quiet : t.1 = false → s.1 = false ∧ t.2 = s.2

theorem Progress.trans {f s t u} (a : Progress f s t) (b : Progress f t u) : Progress f s u := by
  refine ⟨b.inv,Nat.le_trans b.spent a.spent,?_⟩
  intro calm
  obtain ⟨middle,same⟩ := b.quiet calm
  obtain ⟨first,other⟩ := a.quiet middle
  exact ⟨first,same.trans other⟩

theorem foldProgress {α : Type} {f g} {xs : List α} (step : ∀ s x, x ∈ xs → Inv f s.2 → Progress f s (g s x)) (s) (inv : Inv f s.2) :
    Progress f s (xs.foldl g s) := by
  induction xs generalizing s with
  | nil => exact ⟨inv,Nat.le_refl _,fun calm => ⟨calm,rfl⟩⟩
  | cons x rest ih =>
    have first := step s x List.mem_cons_self inv
    have later := ih (fun s y member => step s y (List.mem_cons_of_mem x member)) (g s x) first.inv
    exact first.trans later

theorem foldQuiet {α : Type} {f} {g : Bool × Facts → α → Bool × Facts} {xs : List α}
    (step : ∀ s x, x ∈ xs → Inv f s.2 → Progress f s (g s x)) (s) (inv : Inv f s.2)
    (calm : (xs.foldl g s).1 = false) : ∀ x ∈ xs, (g s x).1 = false := by
  induction xs generalizing s with
  | nil => simp
  | cons x rest ih =>
    have tailStep := fun s y (member : y ∈ rest) => step s y (List.mem_cons_of_mem x member)
    have first := step s x List.mem_cons_self inv
    have later := foldProgress tailStep (g s x) first.inv
    have headCalm := (later.quiet calm).1
    have same : g s x = s := by
      obtain ⟨flag,facts⟩ := first.quiet headCalm
      exact Prod.ext (headCalm.trans flag.symm) facts
    intro y member
    rcases List.mem_cons.mp member with rfl | old
    · exact headCalm
    · rw [List.foldl_cons,same] at calm
      exact ih tailStep s inv calm y old

theorem factAtWidth {f facts} (inv : Inv f facts) (pc) :
    (factAt f.registerCount facts pc).words.length = RegisterSet.wordsFor f.registerCount := by
  unfold factAt
  cases h : facts[pc]? with
  | none => exact RegisterSet.fullLength _
  | some s => exact inv.width s (List.mem_of_getElem? h)

theorem setSame {facts : Facts} {n old} (found : facts[n]? = some old) :
    facts.set n old = facts := by
  obtain ⟨inside,rfl⟩ := List.getElem?_eq_some_iff.mp found
  exact List.set_getElem_self inside

theorem totalSet {facts n old} (found : facts[n]? = some old) (new) :
    total (facts.set n new) + old.size = total facts + new.size := by
  induction facts generalizing n with
  | nil => simp at found
  | cons x rest ih =>
    cases n with
    | zero =>
      simp only [List.getElem?_cons_zero,Option.some.injEq] at found
      subst x
      simp only [total,List.set_cons_zero,List.map_cons,List.sum_cons]; omega
    | succ n =>
      have h := ih (by simpa using found : rest[n]? = some old)
      simp only [total,List.set_cons_succ,List.map_cons,List.sum_cons] at h ⊢; omega

theorem heldMeet {f facts} (inv : Inv f facts) {target old} (incoming) (width : incoming.words.length = RegisterSet.wordsFor f.registerCount)
    (found : facts[target]? = some old) (pc r) :
    r ∈ held f (facts.set target (old.intersect incoming).2) pc ↔
      r ∈ held f facts pc ∧ (pc = target → incoming.contains r = true) := by
  have inside : target < facts.length := (List.getElem?_eq_some_iff.mp found).1
  by_cases same : pc = target
  · subst pc
    have lengths : old.words.length = incoming.words.length :=
      (inv.width old (List.mem_of_getElem? found)).trans width.symm
    simp only [held,factAt,Set.mem_ofPred_eq,List.getElem?_set_self inside,found,Option.getD_some,
      RegisterSet.contains,RegisterSet.containsIntersect _ _ _ lengths,Bool.and_eq_true,forall_const]
  · simp only [held,factAt,Set.mem_ofPred_eq,List.getElem?_set_ne (Ne.symm same),same,false_implies,and_true]

/- `warranted`: whatever the incoming set lacks is missing at the end of some path to the target. -/
theorem meetProgress {f state} (inv : Inv f state.2) {target incoming} (width : incoming.words.length = RegisterSet.wordsFor f.registerCount)
    (warranted : ∀ r ∈ registerFile f, incoming.contains r = false → ∃ held, Path (flowGraph f) target held ∧ r ∉ held) :
    Progress f state (meetAt state target incoming) := by
  unfold meetAt
  cases found : state.2[target]? with
  | none => exact ⟨inv,Nat.le_refl _,fun calm => ⟨calm,rfl⟩⟩
  | some old =>
    have mem := heldMeet inv incoming width found
    have shrink := RegisterSet.intersectShrinks old incoming
    have sum := totalSet found (old.intersect incoming).2
    refine ⟨⟨?_,?_,?_,?_⟩,?_,?_⟩
    · simpa using inv.count
    · intro s member
      rcases List.mem_or_eq_of_mem_set member with old' | rfl
      · exact inv.width s old'
      · rw [RegisterSet.intersectLength]
        exact inv.width old (List.mem_of_getElem? found)
    · intro r hr
      exact inv.entry ((mem 0 r).mp hr).1
    · intro pc r known absent
      by_cases kept : r ∈ held f state.2 pc
      · have lost : ¬(pc = target → incoming.contains r = true) := fun h => absent ((mem pc r).mpr ⟨kept,h⟩)
        obtain ⟨rfl,missing⟩ := Classical.not_imp.mp lost
        exact warranted r known (by simpa using missing)
      · exact inv.justified pc r known kept
    · dsimp only
      have flag : (state.1 || (old.intersect incoming).1).toNat ≤
          state.1.toNat + (old.intersect incoming).1.toNat := by
        cases state.1 <;> cases (old.intersect incoming).1 <;> decide
      omega
    · intro calm
      obtain ⟨before,unchanged⟩ := Bool.or_eq_false_iff.mp calm
      refine ⟨before,?_⟩
      dsimp only
      rw [RegisterSet.intersectUnchanged _ _ unchanged]
      exact setSame found

theorem meetQuiet {f state} (inv : Inv f state.2) {target incoming} (inside : target < f.code.length)
    (width : incoming.words.length = RegisterSet.wordsFor f.registerCount) (calm : (meetAt state target incoming).1 = false) :
    ∀ r ∈ held f state.2 target, incoming.contains r = true := by
  have bound : target < state.2.length := inv.count ▸ inside
  have found := List.getElem?_eq_getElem bound
  unfold meetAt at calm
  rw [found] at calm
  have unchanged := (Bool.or_eq_false_iff.mp calm).2
  intro r hr
  have mem := heldMeet inv incoming width found target r
  rw [RegisterSet.intersectUnchanged _ _ unchanged,setSame found] at mem
  exact (mem.mp hr).2 rfl

theorem insertAllWidth (s : RegisterSet) (rs : List Register) :
    (rs.foldl .insert s).words.length = s.words.length := by
  induction rs generalizing s with
  | nil => rfl
  | cons r rest ih => exact (ih (s.insert r)).trans (s.insertIndexLength _)

theorem containsInsertAll {f} {s : RegisterSet} {rs : List Register}
    (width : s.words.length = RegisterSet.wordsFor f.registerCount) (file : ∀ r ∈ rs, r ∈ registerFile f)
    (q) : (rs.foldl .insert s).contains q = true ↔ s.contains q = true ∨ q ∈ rs := by
  induction rs generalizing s with
  | nil => simp
  | cons r rest ih =>
    have inside : r.get.toNat / 64 < s.words.length := width ▸ RegisterSet.insideWords (file r List.mem_cons_self)
    have next := ih ((s.insertIndexLength r.get.toNat).trans width)
      (fun q member => file q (List.mem_cons_of_mem r member))
    have head := RegisterSet.containsInsert s r q inside
    refine next.trans ?_
    rw [show (s.insertIndex r.get.toNat).contains q = (s.insert r).contains q from rfl,head]
    simp [or_assoc]

theorem afterWidth {f facts} (inv : Inv f facts) (pc i) :
    (afterWrites f facts pc i).words.length = RegisterSet.wordsFor f.registerCount :=
  (insertAllWidth _ _).trans (factAtWidth inv pc)

theorem containsAfter {f facts} (bounded : Bounded f) (inv : Inv f facts) {pc i} (at_ : f.code[pc]? = some i) (q) :
    (afterWrites f facts pc i).contains q = true ↔ q ∈ held f facts pc ∨ q ∈ i.visitWrites :=
  containsInsertAll (factAtWidth inv pc) (fun r h => bounded.registers pc i at_ r (Or.inr h)) q

-- The facts may have moved on since `after` was taken; the paths behind it stay valid.
theorem successorProgress {f facts} (bounded : Bounded f) (inv : Inv f facts) {pc i} (at_ : f.code[pc]? = some i) (s target)
    (next : target ∈ i.visitSuccessors (UInt32.ofNat pc)) (later : Inv f s.2) :
    Progress f s (meetAt s target.get.toNat (afterWrites f facts pc i)) := by
  refine meetProgress later (afterWidth inv pc i) ?_
  intro r known missing
  have absent : ¬(r ∈ held f facts pc ∨ r ∈ i.visitWrites) := by
    rw [← containsAfter bounded inv at_,missing]; exact Bool.false_ne_true
  exact missingThrough inv.justified (Edge.normal at_ next) known (fun h => absent (Or.inl h))
    (fun h => absent (Or.inr h))

theorem instructionProgress {f} (bounded : Bounded f) (state) (inv : Inv f state.2) {pc i} (at_ : f.code[pc]? = some i) :
    Progress f state (flowInstruction f state pc i) :=
  foldProgress (successorProgress bounded inv at_) state inv

theorem instructionQuiet {f} (bounded : Bounded f) {state} (inv : Inv f state.2) {pc i} (at_ : f.code[pc]? = some i)
    (calm : (flowInstruction f state pc i).1 = false) {target} (next : target ∈ i.visitSuccessors (UInt32.ofNat pc)) :
    held f state.2 target.get.toNat ⊆ held f state.2 pc ∪ {r | r ∈ i.visitWrites} := by
  have each := foldQuiet (successorProgress bounded inv at_) state inv calm target next
  intro r hr
  have kept := meetQuiet inv (bounded.successors pc i at_ target next) (afterWidth inv pc i) each r hr
  exact (containsAfter bounded inv at_ r).mp kept

theorem intersectAll {registerCount} {range : List RegisterSet} {c : RegisterSet} (width : c.words.length = RegisterSet.wordsFor registerCount)
    (widths : ∀ s ∈ range, s.words.length = RegisterSet.wordsFor registerCount) :
    (range.foldl (fun c p => (c.intersect p).2) c).words.length = RegisterSet.wordsFor registerCount ∧
    ∀ q, (range.foldl (fun c p => (c.intersect p).2) c).contains q = true ↔
      c.contains q = true ∧ ∀ s ∈ range, s.contains q = true := by
  induction range generalizing c with
  | nil => simp [width]
  | cons s rest ih =>
    have same : c.words.length = s.words.length := width.trans (widths s List.mem_cons_self).symm
    have next := ih ((RegisterSet.intersectLength c s).trans width)
      (fun t member => widths t (List.mem_cons_of_mem s member))
    refine ⟨next.1,?_⟩
    intro q
    rw [List.foldl_cons,next.2 q]
    simp [RegisterSet.contains,RegisterSet.containsIntersect c s _ same,and_assoc]

theorem protectedAt {facts : Facts} {h : ExceptionHandler} {s} (member : s ∈ (facts.take h.stop.get.toNat).drop h.start.get.toNat) :
    ∃ pc, h.start.get.toNat ≤ pc ∧ pc < h.stop.get.toNat ∧ facts[pc]? = some s := by
  obtain ⟨n,found⟩ := List.mem_iff_getElem?.mp member
  rw [List.getElem?_drop,List.getElem?_take] at found
  split at found
  · exact ⟨_,Nat.le_add_right _ _,by assumption,found⟩
  · contradiction

theorem protectedMember {f facts} (inv : Inv f facts) {h : ExceptionHandler} {pc}
    (inside : h.stop.get.toNat ≤ f.code.length) (above : h.start.get.toNat ≤ pc) (below : pc < h.stop.get.toNat) :
    factAt f.registerCount facts pc ∈ (facts.take h.stop.get.toNat).drop h.start.get.toNat := by
  have bound : pc < facts.length := by rw [inv.count]; omega
  refine List.mem_iff_getElem?.mpr ⟨pc - h.start.get.toNat,?_⟩
  rw [List.getElem?_drop,Nat.add_sub_cancel' above,List.getElem?_take,if_pos below]
  simp [factAt,List.getElem?_eq_getElem bound]

theorem contributionSpec {f facts} (bounded : Bounded f) (inv : Inv f facts) {h} (member : h ∈ f.handlers) :
    (contribution f facts h).words.length = RegisterSet.wordsFor f.registerCount ∧
    ∀ q ∈ registerFile f, (contribution f facts h).contains q = true ↔
      (∀ pc, h.start.get.toNat ≤ pc → pc < h.stop.get.toNat → q ∈ held f facts pc) ∨ q = h.catchRegister := by
  obtain ⟨_,stop,_,catch_⟩ := bounded.handlers h member
  have widths : ∀ s ∈ (facts.take h.stop.get.toNat).drop h.start.get.toNat,
      s.words.length = RegisterSet.wordsFor f.registerCount := by
    intro s hs
    exact inv.width s (List.mem_of_mem_take (List.mem_of_mem_drop hs))
  obtain ⟨width,mem⟩ := intersectAll (RegisterSet.fullLength f.registerCount) widths
  refine ⟨(RegisterSet.insertIndexLength _ _).trans width,?_⟩
  intro q known
  have full : (RegisterSet.full f.registerCount).contains q = true := RegisterSet.containsFull known
  unfold contribution
  rw [RegisterSet.containsInsert _ _ _ (width ▸ RegisterSet.insideWords catch_),Bool.or_eq_true,
    decide_eq_true_eq,mem q]
  refine or_congr_left ?_
  constructor
  · intro all pc above below
    exact all.2 _ (protectedMember inv stop above below)
  · intro all
    refine ⟨full,?_⟩
    intro s hs
    obtain ⟨pc,above,below,found⟩ := protectedAt hs
    have h := all pc above below
    simpa [held,factAt,found] using h

theorem handlerProgress {f} (bounded : Bounded f) (state h)
    (member : h ∈ f.handlers) (inv : Inv f state.2) : Progress f state (flowHandler f state h) := by
  obtain ⟨width,mem⟩ := contributionSpec bounded inv member
  refine meetProgress inv width ?_
  intro r known missing
  have absent : ¬((∀ pc, h.start.get.toNat ≤ pc → pc < h.stop.get.toNat → r ∈ held f state.2 pc) ∨
      r = h.catchRegister) := by
    rw [← mem r known,missing]; exact Bool.false_ne_true
  obtain ⟨lost,other⟩ := not_or.mp absent
  simp only [not_forall] at lost
  obtain ⟨pc,above,below,gone⟩ := lost
  exact missingThrough inv.justified (Edge.exceptional member above below) known gone other

theorem handlerQuiet {f} (bounded : Bounded f) {state} (inv : Inv f state.2) {h} (member : h ∈ f.handlers) (calm : (flowHandler f state h).1 = false)
    {pc} (above : h.start.get.toNat ≤ pc) (below : pc < h.stop.get.toNat) :
    held f state.2 h.handler.get.toNat ∩ registerFile f ⊆ held f state.2 pc ∪ {h.catchRegister} := by
  obtain ⟨width,mem⟩ := contributionSpec bounded inv member
  rintro r ⟨hr,known⟩
  have kept := meetQuiet inv (bounded.handlers h member).2.2.1 width calm r hr
  rcases (mem r known).mp kept with all | same
  · exact Or.inl (all pc above below)
  · exact Or.inr same

theorem codeProgress {f} (bounded : Bounded f) (state ip) (member : ip ∈ f.code.zipIdx) (inv : Inv f state.2) :
    Progress f state (flowInstruction f state ip.2 ip.1) :=
  instructionProgress bounded state inv (List.mem_zipIdx_iff_getElem?.mp member)

theorem roundProgress {f} (bounded : Bounded f) {facts} (inv : Inv f facts) :
    Progress f (false,facts) (flowRound f facts) := by
  have first := foldProgress (codeProgress bounded) (false,facts) inv
  exact first.trans (foldProgress (handlerProgress bounded) _ first.inv)

theorem quietClosed {f} (bounded : Bounded f) {facts} (inv : Inv f facts) (calm : (flowRound f facts).1 = false) :
    Closed (flowGraph f) (fun pc => held f facts pc ∩ registerFile f) := by
  have code := foldProgress (codeProgress bounded) (false,facts) inv
  have handlers := foldProgress (handlerProgress bounded) _ code.inv
  obtain ⟨codeCalm,_⟩ := handlers.quiet calm
  have same : f.code.zipIdx.foldl (fun s ip => flowInstruction f s ip.2 ip.1) (false,facts) = (false,facts) :=
    Prod.ext codeCalm (code.quiet codeCalm).2
  have eachCode := foldQuiet (codeProgress bounded) (false,facts) inv codeCalm
  have eachHandler := foldQuiet (handlerProgress bounded) _ code.inv calm
  rw [same] at eachHandler
  refine ⟨fun r hr => inv.entry hr.1,?_⟩
  rintro n gained m along r ⟨hr,known⟩
  cases along with
  | normal at_ next =>
    have calmHere := eachCode (_,n) (List.mem_zipIdx_iff_getElem?.mpr at_)
    rcases instructionQuiet bounded inv at_ calmHere next hr with old | new
    · exact Or.inl ⟨old,known⟩
    · exact Or.inr new
  | exceptional member above below =>
    rcases handlerQuiet bounded inv member (eachHandler _ member) above below ⟨hr,known⟩ with old | new
    · exact Or.inl ⟨old,known⟩
    · exact Or.inr new

theorem settleStable {f} (bounded : Bounded f) (fuel) {facts} (inv : Inv f facts) (enough : total facts < fuel) :
    Inv f (settle f fuel facts) ∧ (flowRound f (settle f fuel facts)).1 = false := by
  induction fuel generalizing facts with
  | zero => omega
  | succ fuel ih =>
    have round := roundProgress bounded inv
    unfold settle
    cases flag : (flowRound f facts).1 with
    | true =>
      have spent := round.spent
      simp only [flag,Bool.toNat_true,Bool.toNat_false] at spent
      simpa [flag] using ih round.inv (by omega)
    | false =>
      have same := (round.quiet flag).2
      have result : (if (flowRound f facts).1 then settle f fuel (flowRound f facts).2
          else (flowRound f facts).2) = facts := by rw [flag,same]; rfl
      rw [result]
      exact ⟨inv,flag⟩

theorem initialInv {f} (bounded : Bounded f) : Inv f (initialFacts f) := by
  have small : f.entryInitialized = f.captureCount.toNat + f.parameterCount.toNat := by
    have fits := bounded.entry
    have word := f.registerCount.toNat_lt
    unfold Function.entryInitialized
    omega
  have inside : f.entryInitialized ≤ 64 * (RegisterSet.empty f.registerCount).words.length := by
    have fits := bounded.entry
    rw [RegisterSet.emptyLength,small,RegisterSet.wordsFor]
    omega
  have first : ∀ r, r ∈ held f (initialFacts f) 0 ↔ r ∈ (flowGraph f).start := by
    intro r
    have mem := RegisterSet.containsInsertPrefix (RegisterSet.empty f.registerCount) f.entryInitialized
      r.get.toNat inside
    rw [RegisterSet.containsEmpty,Bool.false_or,small] at mem
    have at_ : (initialFacts f)[0]? =
        some ((RegisterSet.empty f.registerCount).insertPrefix f.entryInitialized) := by
      unfold initialFacts
      rw [List.getElem?_set_self (by simpa using bounded.nonempty)]
    simp only [held,factAt,at_,RegisterSet.contains,Option.getD_some,Set.mem_ofPred_eq,mem,flowGraph,
      decide_eq_true_eq,small]
  refine ⟨by simp [initialFacts],?_,fun r hr => (first r).mp hr,?_⟩
  · intro s member
    rcases List.mem_or_eq_of_mem_set member with old | rfl
    · rw [List.eq_of_mem_replicate old,RegisterSet.fullLength]
    · rw [RegisterSet.insertPrefixLength,RegisterSet.emptyLength]
  · intro pc r known absent
    cases pc with
    | zero => exact ⟨_,Path.entry,fun h => absent ((first r).mpr h)⟩
    | succ pc =>
      refine absurd ?_ absent
      have untouched : (initialFacts f)[pc+1]? =
          (List.replicate f.code.length (RegisterSet.full f.registerCount))[pc+1]? :=
        List.getElem?_set_ne (by omega)
      have full : factAt f.registerCount (initialFacts f) (pc+1) = RegisterSet.full f.registerCount := by
        rw [factAt,untouched,List.getElem?_replicate]
        split <;> rfl
      exact (congrArg (·.contains r) full).trans (RegisterSet.containsFull known)

theorem totalBound {f facts} (inv : Inv f facts) :
    total facts ≤ 64 * RegisterSet.wordsFor f.registerCount * f.code.length := by
  have h : ∀ sets, (∀ s ∈ sets, s.words.length = RegisterSet.wordsFor f.registerCount) →
      total sets ≤ 64 * RegisterSet.wordsFor f.registerCount * sets.length := by
    intro sets widths
    induction sets with
    | nil => simp [total]
    | cons s rest ih =>
      have head := RegisterSet.sizeBound s
      have tail := ih (fun t member => widths t (List.mem_cons_of_mem s member))
      rw [widths s List.mem_cons_self] at head
      simp only [total,List.map_cons,List.sum_cons,List.length_cons,Nat.mul_succ] at tail ⊢
      omega
  rw [← inv.count]
  exact h facts inv.width

-- The computed facts are the meet over all paths; in particular the loop of the source ends.
theorem settledMeet {f} (bounded : Bounded f) (pc) {r} (known : r ∈ registerFile f) :
    r ∈ held f (settledFacts f) pc ↔ ∀ initialized, Path (flowGraph f) pc initialized → r ∈ initialized := by
  have initial := initialInv bounded
  have bound := totalBound initial
  obtain ⟨inv,calm⟩ := settleStable bounded
    (64 * RegisterSet.wordsFor f.registerCount * f.code.length + 1) initial (by omega)
  have closed := quietClosed bounded inv calm
  have justified : Justified (flowGraph f) (registerFile f)
      (fun pc => held f (settledFacts f) pc ∩ registerFile f) := by
    intro pc x tracked absent
    exact inv.justified pc x tracked (fun h => absent ⟨h,tracked⟩)
  rw [← meetOverAllPaths closed justified pc known]
  exact ⟨fun h => ⟨h,known⟩,fun h => h.1⟩

theorem pathInside {f} (bounded : Bounded f) {pc set} (path : Path (flowGraph f) pc set) :
    pc < f.code.length := by
  cases path with
  | entry => exact bounded.nonempty
  | step before along =>
    cases along with
    | normal at_ next => exact bounded.successors _ _ at_ _ next
    | exceptional member above below => exact (bounded.handlers _ member).2.2.1

theorem verifyFunctionsAt {m start fs certificates} (ok : verifyFunctions m start fs = .ok certificates) {i f} (at_ : fs[i]? = some f) :
    ∃ certificate, verifyFunction m (start+i) f = .ok certificate ∧ certificates[i]? = some certificate := by
  induction fs generalizing start certificates i with
  | nil => simp at at_
  | cons g rest ih =>
    obtain ⟨first,hfirst,ok⟩ := bindOk.mp ok
    obtain ⟨others,hothers,last⟩ := bindOk.mp ok
    cases last
    cases i with
    | zero =>
      simp only [List.getElem?_cons_zero,Option.some.injEq] at at_
      subst g
      exact ⟨first,hfirst,rfl⟩
    | succ i =>
      obtain ⟨certificate,checked,found⟩ := ih hothers at_
      rw [Nat.add_right_comm] at checked
      exact ⟨certificate,checked,found⟩

theorem verifyFunctionsError {m start fs e} (failed : verifyFunctions m start fs = .error e) :
    ∃ i f, fs[i]? = some f ∧ verifyFunction m (start+i) f = .error e := by
  induction fs generalizing start with
  | nil => simp [verifyFunctions] at failed
  | cons f rest ih =>
    rcases bindError.mp failed with here | ⟨_,_,later⟩
    · exact ⟨0,f,rfl,here⟩
    · rcases bindError.mp later with there | ⟨_,_,impossible⟩
      · obtain ⟨i,g,found,bad⟩ := ih there
        refine ⟨i+1,g,found,?_⟩
        rwa [Nat.add_right_comm] at bad
      · cases impossible

def NoRead (x : Verify Unit) : Prop := ∀ e r, x = .error e → e.kind ≠ .readBeforeWrite r

theorem noReadOk : NoRead (.ok ()) := by intro e r h; cases h

theorem noReadSeq {x y} (first : NoRead x) (second : NoRead y) : NoRead (do x; y) := by
  intro e r failed
  rcases bindError.mp failed with here | ⟨_,_,there⟩
  · exact first e r here
  · exact second e r there

theorem noReadReject {p} [Decidable p] {e} (other : ∀ r, e.kind ≠ .readBeforeWrite r) :
    NoRead (rejectIf p e) := by
  intro e' r failed
  unfold rejectIf at failed
  split at failed
  · cases failed; exact other r
  · contradiction

theorem noReadEach {α} {check : Nat → α → Verify Unit} {start xs} (each : ∀ n x, NoRead (check n x)) : NoRead (eachFrom check start xs) := by
  intro e r failed
  obtain ⟨i,x,_,bad,_⟩ := eachFromError failed
  exact each _ x e r bad

theorem noReadSuccessors {functionIndex pc count targets} :
    NoRead (verifySuccessors functionIndex pc count targets) := by
  induction targets with
  | nil => exact noReadOk
  | cons t rest ih => exact noReadSeq (noReadReject (by intro r h; cases h)) ih

theorem noReadOperands {functionIndex pc registerCount constants functionCount instructionCount i} :
    NoRead (verifyOperands functionIndex pc registerCount constants functionCount instructionCount i) := by
  have reg : ∀ r, NoRead (checkRegister functionIndex pc registerCount r) :=
    fun r => noReadReject (by intro r h; cases h)
  have target : ∀ t, NoRead (verifyTarget functionIndex pc t instructionCount) :=
    fun t => noReadReject (by intro r h; cases h)
  have distinct : ∀ l r kind, (∀ x e, kind x ≠ .readBeforeWrite e) → NoRead (checkDistinct functionIndex pc l r kind) :=
    fun l r kind other => noReadReject fun _ => other l _
  have constant : ∀ c, NoRead (checkConstant functionIndex pc constants c) :=
    fun c => noReadReject (by intro r h; cases h)
  have str : ∀ c, NoRead (checkStringConstant functionIndex pc constants c) := by
    intro c
    refine noReadSeq (constant c) ?_
    split
    · exact noReadOk
    · intro e r h; cases h; intro h; cases h
  unfold verifyOperands
  cases i <;> dsimp only <;>
    repeat' first
      | with_reducible refine noReadSeq ?_ ?_
      | with_reducible first | exact reg _ | exact str _ | exact constant _ | exact target _ | exact noReadOk | refine distinct _ _ _ ?_
      | with_reducible refine noReadReject ?_
      | (intros; intro h; cases h)

theorem noReadExtension {functionIndex pc registerCount constants e instructionCount} :
    NoRead (verifyExtension functionIndex pc registerCount constants e instructionCount) := by
  have reg : ∀ r, NoRead (checkRegister functionIndex pc registerCount r) :=
    fun r => noReadReject (by intro r h; cases h)
  have str : ∀ c, NoRead (checkStringConstant functionIndex pc constants c) := by
    intro c
    refine noReadSeq (noReadReject (by intro r h; cases h)) ?_
    split
    · exact noReadOk
    · intro e r h; cases h; intro h; cases h
  cases e <;> simp only [verifyExtension] <;>
    repeat' first
      | with_reducible refine noReadSeq ?_ ?_
      | with_reducible first | exact reg _ | exact str _ | exact noReadSuccessors
      | with_reducible refine noReadReject ?_
      | (intro r h; cases h)

theorem noReadSweep {functionIndex} (opened ranges) :
    NoRead (sweepHandlers functionIndex opened ranges) := by
  induction ranges generalizing opened with
  | nil => exact noReadOk
  | cons range rest ih =>
    unfold sweepHandlers
    dsimp only
    split
    · split
      · intro e r h; cases h; intro h; cases h
      · exact ih _
    · exact ih _

theorem noReadStructure {m functionIndex f} : NoRead (verifyStructure m functionIndex f) := by
  refine noReadSeq ?bounds (noReadSeq ?name (noReadSeq ?handlers (noReadEach ?code)))
  case bounds =>
    repeat' first
      | exact noReadReject (by intro r h; cases h)
      | refine noReadSeq ?_ ?_
  case name =>
    unfold verifyFunctionName
    split
    · exact noReadOk
    · split
      · intro e r h; cases h; intro h; cases h
      · split
        · intro e r h; cases h; intro h; cases h
        · exact noReadOk
  case handlers =>
    refine noReadSeq (noReadEach ?_) (noReadSweep _ _)
    intro n h
    exact noReadSeq (noReadReject (by intro r h; cases h)) (noReadReject (by intro r h; cases h))
  case code =>
    intro n i
    refine noReadSeq ?_ (noReadSeq noReadOperands noReadSuccessors)
    cases i.extension with
    | none => exact noReadOk
    | some e => exact noReadExtension

theorem noReadModuleBounds (m) : NoRead (verifyModuleBounds m) := by
  have work : ∀ fs total, NoRead (verifyWork total fs) := by
    intro fs
    induction fs with
    | nil => intro total; exact noReadOk
    | cons f rest ih =>
      intro total
      unfold verifyWork
      dsimp only
      split
      · intro e r h; cases h; intro h; cases h
      · exact ih _
  repeat' first
    | exact work _ _
    | exact noReadReject (by intro r h; cases h)
    | refine noReadSeq ?_ ?_

theorem initializationRead {functionIndex f certificate} (ok : definiteInitialization functionIndex f = .ok certificate) {pc i}
    (at_ : f.code[pc]? = some i) : ∀ r ∈ i.visitReads, r ∈ held f (settledFacts f) pc := by
  obtain ⟨_,checked,_⟩ := bindOk.mp ok
  have here := eachFromOk.mp checked pc i at_
  rw [Nat.zero_add,checkReads] at here
  split at here
  · contradiction
  · rename_i none_
    intro r member
    simpa [held] using List.find?_eq_none.mp none_ r member

theorem initializationMissing {functionIndex f e} (failed : definiteInitialization functionIndex f = .error e) :
    ∃ pc i r, f.code[pc]? = some i ∧ e = instructionError functionIndex pc (.readBeforeWrite r) ∧
      r ∈ i.visitReads ∧ r ∉ held f (settledFacts f) pc := by
  rcases bindError.mp failed with here | ⟨_,_,impossible⟩
  · obtain ⟨pc,i,at_,bad,_⟩ := eachFromError here
    rw [Nat.zero_add,checkReads] at bad
    split at bad
    · rename_i r found
      cases bad
      refine ⟨pc,i,r,at_,rfl,List.mem_of_find?_eq_some found,?_⟩
      have h := List.find?_some found
      simpa [held] using h
    · contradiction
  · cases impossible

/- Exactness of the verifier for every module, every function and paths of any length. -/
theorem definiteInitializationExact (m : Module) :
    (∀ certificates, verifyModule m = .ok certificates → ∀ f ∈ m.functions, ∀ pc initialized,
      Path (flowGraph f) pc initialized →
        ∃ i, f.code[pc]? = some i ∧ ∀ r ∈ i.visitReads, r ∈ initialized) ∧
    (∀ e r, verifyModule m = .error e → e.kind = .readBeforeWrite r →
      ∃ index f pc i initialized, m.functions[index]? = some f ∧
        e = instructionError index pc (.readBeforeWrite r) ∧ verifyStructure m index f = .ok () ∧
        Path (flowGraph f) pc initialized ∧ f.code[pc]? = some i ∧
        r ∈ i.visitReads ∧ r ∉ initialized) := by
  constructor
  · intro certificates ok f member pc initialized path
    obtain ⟨_,_,functions⟩ := bindOk.mp ok
    obtain ⟨index,at_⟩ := List.mem_iff_getElem?.mp member
    obtain ⟨certificate,checked,_⟩ := verifyFunctionsAt functions at_
    obtain ⟨_,structural,initial⟩ := bindOk.mp checked
    have bounded := structureBounded structural
    have inside := pathInside bounded path
    refine ⟨f.code[pc],List.getElem?_eq_getElem inside,?_⟩
    intro r read
    have fact := initializationRead initial (List.getElem?_eq_getElem inside) r read
    have known := bounded.registers pc _ (List.getElem?_eq_getElem inside) r (Or.inl read)
    exact (settledMeet bounded pc known).mp fact initialized path
  · intro e r failed kind
    rcases bindError.mp failed with bounds | ⟨_,_,functions⟩
    · exact absurd kind (noReadModuleBounds m e r bounds)
    obtain ⟨index,f,at_,bad⟩ := verifyFunctionsError functions
    rw [Nat.zero_add] at bad
    rcases bindError.mp bad with structural | ⟨_,structural,initial⟩
    · exact absurd kind (noReadStructure e r structural)
    obtain ⟨pc,i,q,found,same,read,missing⟩ := initializationMissing initial
    subst same
    cases kind
    have bounded := structureBounded structural
    have known := bounded.registers pc i found r (Or.inl read)
    rw [settledMeet bounded pc known] at missing
    simp only [not_forall] at missing
    obtain ⟨initialized,path,absent⟩ := missing
    exact ⟨index,f,pc,i,initialized,at_,rfl,structural,path,found,read,absent⟩

def guardedLoop (tail : Instruction) : Module where
  constants := [.undefined]
  functions := [⟨none,0,1,4,⟨false,false,false⟩,
    [.jumpIfFalse ⟨0⟩ ⟨3⟩,.loadConst ⟨1⟩ ⟨0⟩,.jump ⟨0⟩,.ret ⟨0⟩,tail],
    [⟨⟨1⟩,⟨3⟩,⟨4⟩,⟨2⟩⟩]⟩]
  entry := ⟨0⟩

theorem definiteInitializationExactGuardedLoop :
    (∀ f ∈ (guardedLoop (.ret ⟨2⟩)).functions, ∀ pc initialized, Path (flowGraph f) pc initialized →
      ∃ i, f.code[pc]? = some i ∧ ∀ r ∈ i.visitReads, r ∈ initialized) ∧
    (∃ index f pc i initialized, (guardedLoop (.ret ⟨1⟩)).functions[index]? = some f ∧
      instructionError 0 4 (.readBeforeWrite ⟨1⟩) = instructionError index pc (.readBeforeWrite ⟨1⟩) ∧
      verifyStructure (guardedLoop (.ret ⟨1⟩)) index f = .ok () ∧
      Path (flowGraph f) pc initialized ∧ f.code[pc]? = some i ∧
      (⟨1⟩ : Register) ∈ i.visitReads ∧ (⟨1⟩ : Register) ∉ initialized) :=
  ⟨(definiteInitializationExact (guardedLoop (.ret ⟨2⟩))).1 _ rfl,
    (definiteInitializationExact (guardedLoop (.ret ⟨1⟩))).2 _ _ rfl rfl⟩

end Bamts.Bytecode
