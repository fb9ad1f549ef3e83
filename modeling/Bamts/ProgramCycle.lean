import Bamts.ProgramResolve
import Mathlib.Logic.Relation

/-! The export walk against the hops themselves: it passes exactly the modules whose every
chain of local hops ends, and reports a cycle only at an export that lies on one. -/
set_option linter.all false
namespace Bamts.Linkage
open Bytecode
open Outcome (bindOk seqOk rejectIf rejectIfOk eachFrom eachFromOk foldFrom)
open HopChain (Ends)
open Relation (TransGen)

-- The export at `x` is forwarded over a local edge, to the export of `target` that `n` names.
def SentTo (modules : List ProgramModule) (x : Node) (m : ProgramModule) (n : ConstantId) (target : ModuleId) : Prop :=
  modules[x.1]? = some m ∧ ∃ e edge dependency, m.exports[x.2]? = some e ∧ Forwards m e edge n ∧
    m.edges[edge.get.toNat]? = some dependency ∧ dependency.target = .local target

def ExportHop (modules : List ProgramModule) (x y : Node) : Prop :=
  ∃ m n target name m' e, SentTo modules x m n target ∧ string m.code n = some name ∧ y.1 = target.get.toNat ∧
    modules[y.1]? = some m' ∧ m'.exports[y.2]? = some e ∧ string m'.code e.name = some name

def Rests (modules : List ProgramModule) (x : Node) : Prop := ∀ m n target, ¬SentTo modules x m n target

inductive Arrives (modules : List ProgramModule) : Node → Prop where
  | rests {x : Node} (last : Rests modules x) : Arrives modules x
  | hop {x y : Node} (here : ExportHop modules x y) (rest : Arrives modules y) : Arrives modules x

theorem stateAtSet (states node x value) :
    stateAt (setState states node value) x = if x = node then (stateAt states x).map fun _ => value else stateAt states x := by
  unfold stateAt setState
  rw [List.getElem?_modify]
  cases row : states[x.1]? with
  | none => simp
  | some colours =>
    by_cases here : node.1 = x.1
    · by_cases there : node.2 = x.2
      · have same : x = node := Prod.ext here.symm there.symm
        subst same
        simp [List.getElem?_set]
        split
        · rename_i inside
          simp [inside]
        · rename_i outside
          simp [Nat.le_of_not_lt outside]
      · have apart : x ≠ node := by
          rintro rfl
          exact there rfl
        simp [here,apart,there]
    · have apart : x ≠ node := by
        rintro rfl
        exact here rfl
      simp [here,apart]

theorem stateAtStack (stack : List Node) (states x) :
    stateAt (stack.foldr (fun node states => setState states node 2) states) x =
      if x ∈ stack then (stateAt states x).map fun _ => 2 else stateAt states x := by
  induction stack with
  | nil => simp
  | cons node rest ih =>
    rw [List.foldr_cons,stateAtSet,ih]
    by_cases here : x = node
    · subst here
      rw [if_pos rfl,if_pos List.mem_cons_self]
      split
      · rw [Option.map_map]
        rfl
      · rfl
    · simp only [here,if_false,List.mem_cons,false_or]

theorem indexCovers {m : ProgramModule} {start} {acc out : Names Nat} {xs : List Export} (ok : foldFrom (fun index names e => do
      let name ← orFault (string m.code e.name) .panicked return (name,index) :: names) start acc xs = .ok out)
    {name} (known : (∃ e ∈ xs, string m.code e.name = some name) ∨ (acc.lookup name).isSome = true) :
    (out.lookup name).isSome = true := by
  induction xs generalizing start acc with
  | nil =>
    cases ok
    rcases known with ⟨e,member,_⟩ | old
    · cases member
    · exact old
  | cons e rest ih =>
    obtain ⟨acc',head,tail⟩ := bindOk.mp ok
    obtain ⟨n,named,same⟩ := bindOk.mp head
    cases same
    refine ih tail ?_
    rw [List.lookup_cons]
    rcases known with ⟨e',member,here⟩ | old
    · rcases List.mem_cons.mp member with rfl | later
      · rw [orFaultOk.mp named] at here
        cases here
        exact Or.inr (by simp)
      · exact Or.inl ⟨e',later,here⟩
    · refine Or.inr ?_
      split
      · rfl
      · exact old

theorem exportIndexTotal {m} (named : ∀ e ∈ m.exports, ∃ n, string m.code e.name = some n) :
    ∃ index, exportIndex m = .ok index := by
  have total : ∀ (xs : List Export) start (acc : Names Nat), (∀ e ∈ xs, ∃ n, string m.code e.name = some n) →
      ∃ out, foldFrom (fun index names e => do
        let name ← orFault (string m.code e.name) .panicked
        return (name,index) :: names) start acc xs = Except.ok (ε := LinkFault) out := by
    intro xs
    induction xs with
    | nil => exact fun _ acc _ => ⟨acc,rfl⟩
    | cons e rest ih =>
      intro start acc named
      obtain ⟨n,here⟩ := named e List.mem_cons_self
      obtain ⟨out,done⟩ := ih (start+1) ((n,start) :: acc) fun e' member => named e' (List.mem_cons_of_mem _ member)
      exact ⟨out,bindOk.mpr ⟨_,bindOk.mpr ⟨n,orFaultOk.mpr here,rfl⟩,done⟩⟩
  exact total m.exports 0 [] named

theorem exportIndicesTotal {modules} (named : ∀ m ∈ modules, ∀ e ∈ m.exports, ∃ n, string m.code e.name = some n) :
    ∃ indices, exportIndices modules = .ok indices := by
  induction modules with
  | nil => exact ⟨[],rfl⟩
  | cons m rest ih =>
    obtain ⟨index,head⟩ := exportIndexTotal (named m List.mem_cons_self)
    obtain ⟨indices,tail⟩ := ih fun m' member => named m' (List.mem_cons_of_mem _ member)
    exact ⟨index :: indices,bindOk.mpr ⟨index,head,bindOk.mpr ⟨indices,tail,rfl⟩⟩⟩

theorem forwardsUnique {m e edge edge' n n'} (left : Forwards m e edge n) (right : Forwards m e edge' n') : edge = edge' ∧ n = n' := by
  rcases left with source | ⟨binding,b,source,found,kind⟩ <;> rcases right with source' | ⟨binding',b',source',found',kind'⟩ <;>
    rw [source] at source' <;> cases source'
  · exact ⟨rfl,rfl⟩
  · rw [found] at found'
    cases found'
    rw [kind] at kind'
    cases kind'
    exact ⟨rfl,rfl⟩

theorem sentUnique {modules x m m' n n' target target'}
    (left : SentTo modules x m n target) (right : SentTo modules x m' n' target') : m = m' ∧ n = n' ∧ target = target' := by
  obtain ⟨at_,e,edge,dependency,place,forwards,found,inside⟩ := left
  obtain ⟨at',e',edge',dependency',place',forwards',found',inside'⟩ := right
  rw [at_] at at'
  cases at'
  rw [place] at place'
  cases place'
  obtain ⟨rfl,rfl⟩ := forwardsUnique forwards forwards'
  rw [found] at found'
  cases found'
  rw [inside] at inside'
  cases inside'
  exact ⟨rfl,rfl,rfl⟩

inductive Steps (modules : List ProgramModule) (indices : List (Names Nat)) (x : Node) : Prop where
  | last (next : nextExport modules indices x = .ok none) (rests : Rests modules x)
  | hop {y : Node} (next : nextExport modules indices x = .ok (some y)) (here : ExportHop modules x y)
  | lost {id : ModuleId} {kind : ProgramVerifyErrorKind} (next : nextExport modules indices x = .error (moduleError id kind))
      (other : ∀ index, kind ≠ .indirectExportCycle index) (sent : ¬Rests modules x) (nowhere : ∀ y, ¬ExportHop modules x y)

inductive Blocked (modules : List ProgramModule) : LinkFault → Prop where
  | cycle {x : Node} (inside : x ∈ exportNodes 0 modules) (round : TransGen (ExportHop modules) x x) :
      Blocked modules (moduleError ⟨UInt32.ofNat x.1⟩ (.indirectExportCycle (UInt32.ofNat x.2)))
  | lost {x : Node} {id : ModuleId} {kind : ProgramVerifyErrorKind} (inside : x ∈ exportNodes 0 modules)
      (other : ∀ index, kind ≠ .indirectExportCycle index) (sent : ¬Rests modules x)
      (nowhere : ∀ y, ¬ExportHop modules x y) : Blocked modules (moduleError id kind)

def Coloured (modules : List ProgramModule) (states : States) : Prop :=
  ∀ x ∈ exportNodes 0 modules, ∃ c, stateAt states x = some c ∧ (c = 0 ∨ c = 1 ∨ c = 2)

-- The walk between two rounds: exactly the stack is grey, and all of it leads to the current export.
structure Walking (modules : List ProgramModule) (states : States) (stack : List Node) (current : Node) : Prop where
  inside : current ∈ exportNodes 0 modules
  coloured : Coloured modules states
  onStack : ∀ x, stateAt states x = some 1 → x ∈ stack
  grey : ∀ x ∈ stack, stateAt states x = some 1
  members : ∀ x ∈ stack, x ∈ exportNodes 0 modules
  leads : ∀ x ∈ stack, TransGen (ExportHop modules) x current
  distinct : stack.Nodup

theorem Coloured.set {modules states} (coloured : Coloured modules states) (node)
    {value} (known : value = 0 ∨ value = 1 ∨ value = 2) : Coloured modules (setState states node value) := by
  intro x inside
  obtain ⟨c,here,colour⟩ := coloured x inside
  rw [stateAtSet,here]
  split
  · exact ⟨value,rfl,known⟩
  · exact ⟨c,rfl,colour⟩

theorem Coloured.settled {modules states} (coloured : Coloured modules states) (stack : List Node) :
    Coloured modules (stack.foldr (fun node states => setState states node 2) states) := by
  induction stack with
  | nil => exact coloured
  | cons node rest ih => exact ih.set node (.inr (.inr rfl))

theorem hopInside {modules x y} (here : ExportHop modules x y) : y ∈ exportNodes 0 modules := by
  obtain ⟨m,n,target,name,m',e,_,_,_,at_,place,_⟩ := here
  obtain ⟨small,_⟩ := List.getElem?_eq_some_iff.mp place
  exact nodeMember.mpr ⟨y.1,m',at_,(Nat.zero_add _).symm,small⟩

theorem Walking.push {modules states stack current next} (walking : Walking modules states stack current) (white : stateAt states current = some 0)
    (here : ExportHop modules current next) : Walking modules (setState states current 1) (current :: stack) next := by
  have fresh : current ∉ stack := by
    intro again
    have := walking.grey current again
    rw [white] at this
    cases this
  constructor
  · exact hopInside here
  · exact walking.coloured.set current (.inr (.inl rfl))
  · intro x colour
    rw [stateAtSet] at colour
    split at colour
    · rename_i same
      rw [same]
      exact List.mem_cons_self
    · exact List.mem_cons_of_mem _ (walking.onStack x colour)
  · intro x member
    rw [stateAtSet]
    split
    · rename_i same
      rw [same,white]
      rfl
    · rename_i apart
      exact walking.grey x ((List.mem_cons.mp member).resolve_left apart)
  · intro x member
    rcases List.mem_cons.mp member with rfl | old
    · exact walking.inside
    · exact walking.members x old
  · intro x member
    rcases List.mem_cons.mp member with rfl | old
    · exact .single here
    · exact (walking.leads x old).tail here
  · exact List.nodup_cons.mpr ⟨fresh,walking.distinct⟩

section Checked

variable {modules : List ProgramModule} {indices : List (Names Nat)}
  (links : ∀ m ∈ modules, ModuleLinks modules.length m) (indexed : exportIndices modules = .ok indices)
include links

theorem hopUnique {x y z} (left : ExportHop modules x y) (right : ExportHop modules x z) : y = z := by
  obtain ⟨m,n,target,name,m',e,sent,known,same,at_,place,named⟩ := left
  obtain ⟨_,_,_,name',_,e',sent',known',same',at',place',named'⟩ := right
  obtain ⟨rfl,rfl,rfl⟩ := sentUnique sent sent'
  rw [known] at known'
  cases known'
  have module : y.1 = z.1 := same.trans same'.symm
  rw [← module,at_] at at'
  cases at'
  refine Prod.ext module ?_
  by_contra apart
  obtain ⟨small,rfl⟩ := List.getElem?_eq_some_iff.mp place
  obtain ⟨small',rfl⟩ := List.getElem?_eq_some_iff.mp place'
  have distinct := List.pairwise_iff_getElem.mp (links m' (List.mem_of_getElem? at_)).distinct
  rcases Nat.lt_or_gt_of_ne apart with before | after
  · exact distinct y.2 z.2 small small' before (named.trans named'.symm)
  · exact distinct z.2 y.2 small' small after (named'.trans named.symm)

include indexed

theorem forwardSteps {x m e edge n dependency name id kind} (at_ : modules[x.1]? = some m)
    (place : m.exports[x.2]? = some e) (forwards : Forwards m e edge n) (found : m.edges[edge.get.toNat]? = some dependency)
    (known : string m.code n = some name) (other : ∀ index, kind ≠ .indirectExportCycle index)
    (next : nextExport modules indices x = forward indices m edge n (moduleError id kind)) : Steps modules indices x := by
  cases inside : dependency.target with
  | external =>
    refine .last ?_ ?_
    · rw [next,forward,orFaultOk.mpr found]
      simp only [bind,Except.bind,inside]
      rfl
    · rintro m' n' target ⟨at',e',edge',dependency',place',forwards',found',inside'⟩
      rw [at_] at at'
      cases at'
      rw [place] at place'
      cases place'
      obtain ⟨rfl,rfl⟩ := forwardsUnique forwards forwards'
      rw [found] at found'
      cases found'
      rw [inside] at inside'
      cases inside'
  | «local» target =>
    have sent : SentTo modules x m n target := ⟨at_,e,edge,dependency,place,forwards,found,inside⟩
    have bound := (links m (List.mem_of_getElem? at_)).targets dependency (List.mem_of_getElem? found) target inside
    have there : modules[target.get.toNat]? = some modules[target.get.toNat] := List.getElem?_eq_getElem bound
    obtain ⟨index,stored,built⟩ := indicesAt indexed there
    have looked : nextExport modules indices x =
        (do return some (target.get.toNat,← orFault (index.lookup name) (moduleError id kind))) := by
      rw [next,forward,orFaultOk.mpr found]
      simp only [bind,Except.bind,inside,orFaultOk.mpr known,orFaultOk.mpr stored]
    cases hit : index.lookup name with
    | some j =>
      obtain ⟨e',place',named⟩ := indexNamed built hit
      refine .hop (y := (target.get.toNat,j)) ?_ ⟨m,n,target,name,_,e',sent,known,rfl,there,place',named⟩
      rw [looked,hit]
      rfl
    | none =>
      refine .lost (looked.trans (by rw [hit]; rfl)) other (fun rests => rests m n target sent) ?_
      rintro y ⟨m',n',target',name',m'',e',sent',known',same,at',place',named⟩
      obtain ⟨rfl,rfl,rfl⟩ := sentUnique sent sent'
      rw [known] at known'
      cases known'
      rw [same,there] at at'
      cases at'
      have covered := indexCovers built (Or.inl ⟨e',List.mem_of_getElem? place',named⟩)
      rw [hit] at covered
      cases covered

theorem exportSteps {x} (inside : x ∈ exportNodes 0 modules) : Steps modules indices x := by
  obtain ⟨i,m,at_,same,small⟩ := nodeMember.mp inside
  rw [Nat.zero_add] at same
  rw [← same] at at_
  have place : m.exports[x.2]? = some m.exports[x.2] := List.getElem?_eq_getElem small
  have linked := links m (List.mem_of_getElem? at_)
  have next : nextExport modules indices x = nextOf indices m x m.exports[x.2].source := by
    rw [nextExport,orFaultOk.mpr at_]
    simp only [bind,Except.bind,orFaultOk.mpr place]
  have source := linked.sources _ (List.mem_of_getElem? place)
  cases here : m.exports[x.2].source with
  | indirect edge n =>
    rw [here] at next source
    obtain ⟨⟨dependency,found⟩,name,known⟩ := source
    refine forwardSteps links indexed at_ place (Or.inl here) found known ?_ next
    rintro _ ⟨⟩
  | «local» binding =>
    rw [here] at next source
    have found : m.bindings[binding.get.toNat]? = some m.bindings[binding.get.toNat] := List.getElem?_eq_getElem source
    have bound := linked.bindings _ (List.mem_of_getElem? found)
    rw [nextOf,orFaultOk.mpr found] at next
    cases kind : m.bindings[binding.get.toNat].kind with
    | imported edge n =>
      rw [kind] at bound
      obtain ⟨⟨dependency,edgeFound⟩,name,known⟩ := bound
      simp only [bind,Except.bind,kind] at next
      refine forwardSteps links indexed at_ place (Or.inr ⟨binding,_,here,found,kind⟩) edgeFound known ?_ next
      rintro _ ⟨⟩
    | hoisted | lexical | «namespace» _ =>
      refine .last (next.trans (by simp only [bind,Except.bind,kind]; rfl)) ?_
      rintro m' n target ⟨at',e,edge,dependency,place',forwards,_,_⟩
      rw [at_] at at'
      cases at'
      rw [place] at place'
      cases place'
      rcases forwards with source' | ⟨binding',b,source',found',kind'⟩
      · rw [here] at source'
        cases source'
      · rw [here] at source'
        cases source'
        rw [found] at found'
        cases found'
        rw [kind] at kind'
        cases kind'

theorem walkBlocked {fuel states stack current} (walking : Walking modules states stack current)
    (enough : (exportNodes 0 modules).length < fuel + stack.length) :
    (∃ states' stack', walk modules indices fuel states stack current = .ok (states',stack') ∧ Coloured modules states' ∧
      ∀ x, stateAt states' x = some 1 → x ∈ stack') ∨
    ∃ fault, walk modules indices fuel states stack current = .error fault ∧ Blocked modules fault := by
  induction fuel generalizing states stack current with
  | zero =>
    have size := (walking.distinct.subperm walking.members).length_le
    omega
  | succ fuel ih =>
    obtain ⟨c,colour,known⟩ := walking.coloured current walking.inside
    rw [walk,colour]
    rcases known with rfl | rfl | rfl
    · have coloured := walking.coloured.set current (.inr (.inl rfl))
      cases exportSteps links indexed walking.inside with
      | last next rests =>
        refine .inl ⟨setState states current 1,current :: stack,?_,coloured,?_⟩
        · simp only [next]
          rfl
        · intro x grey
          rw [stateAtSet] at grey
          split at grey
          · rename_i same
            rw [same]
            exact List.mem_cons_self
          · exact List.mem_cons_of_mem _ (walking.onStack x grey)
      | @hop y next here =>
        have further := ih (walking.push colour here) (by rw [List.length_cons]; omega)
        simp only [next]
        exact further
      | @lost id kind next other sent nowhere =>
        refine .inr ⟨moduleError id kind,?_,.lost walking.inside other sent nowhere⟩
        simp only [next]
        rfl
    · exact .inr ⟨_,rfl,.cycle walking.inside (walking.leads current (walking.onStack current colour))⟩
    · exact .inl ⟨states,stack,rfl,walking.coloured,walking.onStack⟩

theorem settleBlocked {states node} (inside : node ∈ exportNodes 0 modules) (coloured : Coloured modules states)
    (clean : ∀ x, stateAt states x ≠ some 1) :
    (∃ states', settleExport modules indices states node = .ok states' ∧ Coloured modules states' ∧
      ∀ x, stateAt states' x ≠ some 1) ∨
    ∃ fault, settleExport modules indices states node = .error fault ∧ Blocked modules fault := by
  obtain ⟨c,colour,known⟩ := coloured node inside
  rw [settleExport,colour]
  by_cases black : c = 2
  · simp only [if_pos black]
    exact .inl ⟨states,rfl,coloured,clean⟩
  have start : Walking modules states [] node :=
    ⟨inside,coloured,fun x grey => absurd grey (clean x),by simp,by simp,by simp,List.nodup_nil⟩
  simp only [if_neg black]
  rcases walkBlocked links indexed start (Nat.lt_succ_self _) with ⟨states',stack,ran,coloured',onStack⟩ | ⟨fault,ran,blocked⟩
  · refine .inl ⟨_,by rw [ran]; rfl,coloured'.settled stack,?_⟩
    intro x grey
    rw [stateAtStack] at grey
    split at grey
    · obtain ⟨_,_,two⟩ := Option.map_eq_some_iff.mp grey
      cases two
    · rename_i off
      exact off (onStack x grey)
  · exact .inr ⟨fault,by rw [ran]; rfl,blocked⟩

theorem foldBlocked {start states nodes} (inside : ∀ x ∈ nodes, x ∈ exportNodes 0 modules)
    (coloured : Coloured modules states) (clean : ∀ x, stateAt states x ≠ some 1) :
    (∃ states', foldFrom (fun _ => settleExport modules indices) start states nodes = .ok states') ∨
    ∃ fault, foldFrom (fun _ => settleExport modules indices) start states nodes = .error fault ∧ Blocked modules fault := by
  induction nodes generalizing start states with
  | nil => exact .inl ⟨states,rfl⟩
  | cons node rest ih =>
    rw [foldFrom]
    rcases settleBlocked links indexed (inside node List.mem_cons_self) coloured clean with
      ⟨states',ran,coloured',clean'⟩ | ⟨fault,ran,blocked⟩
    · rw [ran]
      exact ih (fun x member => inside x (List.mem_cons_of_mem _ member)) coloured' clean'
    · exact .inr ⟨fault,by rw [ran]; rfl,blocked⟩

theorem resolutionsBlocked : verifyExportResolutions modules indices = .ok () ∨
    ∃ fault, verifyExportResolutions modules indices = .error fault ∧ Blocked modules fault := by
  have white : ∀ x c, stateAt (modules.map fun m => List.replicate m.exports.length 0) x = some c → c = 0 := by
    intro x c colour
    obtain ⟨row,at_,found⟩ := Option.bind_eq_some_iff.mp colour
    rw [List.getElem?_map] at at_
    obtain ⟨m,_,rfl⟩ := Option.map_eq_some_iff.mp at_
    exact List.eq_of_mem_replicate (List.mem_of_getElem? found)
  have coloured : Coloured modules (modules.map fun m => List.replicate m.exports.length 0) := by
    intro x inside
    obtain ⟨i,m,at_,same,small⟩ := nodeMember.mp inside
    refine ⟨0,Option.bind_eq_some_iff.mpr ⟨List.replicate m.exports.length 0,?_,?_⟩,.inl rfl⟩
    · rw [List.getElem?_map,same,Nat.zero_add,at_]
      rfl
    · rw [List.getElem?_replicate,if_pos small]
  rcases @foldBlocked modules indices links indexed 0 _ _ (fun _ member => member) coloured
    (fun x grey => absurd (white x 1 grey) (by decide)) with ⟨states,ran⟩ | ⟨fault,ran,blocked⟩
  · exact .inl (by rw [verifyExportResolutions,ran]; rfl)
  · exact .inr ⟨fault,by rw [verifyExportResolutions,ran]; rfl,blocked⟩

theorem endsArrives {x e n} (ends : Ends (nextExport modules indices) x n e) (inside : x ∈ exportNodes 0 modules) :
    Arrives modules x := by
  induction ends with
  | @stop x final =>
    cases exportSteps links indexed inside with
    | last _ rests => exact .rests rests
    | hop next _ | lost next _ _ _ =>
      rw [final] at next
      cases next
  | @hop x y e n stepped _ ih =>
    cases exportSteps links indexed inside with
    | hop next here =>
      rw [stepped] at next
      cases next
      exact .hop here (ih (hopInside here))
    | last next _ | lost next _ _ _ =>
      rw [stepped] at next
      cases next

omit indexed

theorem arrivesOnce {x} (arrives : Arrives modules x) : ¬TransGen (ExportHop modules) x x := by
  induction arrives with
  | rests last =>
    intro round
    obtain ⟨y,⟨m,n,target,_,_,_,sent,_⟩,_⟩ := Relation.TransGen.head'_iff.mp round
    exact last m n target sent
  | @hop x y here _ ih =>
    intro round
    obtain ⟨z,first,back⟩ := Relation.TransGen.head'_iff.mp round
    rw [← hopUnique links here first] at back
    exact ih (.tail' back here)

theorem blockedLost {fault} (blocked : Blocked modules fault) : ∃ x ∈ exportNodes 0 modules, ¬Arrives modules x := by
  cases blocked with
  | @cycle x inside round => exact ⟨x,inside,fun arrives => arrivesOnce links arrives round⟩
  | @lost x id kind inside other sent nowhere =>
    refine ⟨x,inside,fun arrives => ?_⟩
    cases arrives with
    | rests last => exact sent last
    | hop here _ => exact nowhere _ here

end Checked

/- The export check passes exactly when every chain of local hops ends, each hop naming an
export of its target, and an export it reports as cyclic comes back to itself. -/
theorem resolutionsExact (modules : List ProgramModule)
    (checked : ∀ i m, modules[i]? = some m → verifyModuleMetadata modules.length ⟨UInt32.ofNat i⟩ m = .ok ()) :
    ∃ indices, exportIndices modules = .ok indices ∧
      (verifyExportResolutions modules indices = .ok () ↔ ∀ x ∈ exportNodes 0 modules, Arrives modules x) ∧
      ∀ id index, verifyExportResolutions modules indices = .error (moduleError id (.indirectExportCycle index)) →
        ∃ x ∈ exportNodes 0 modules, id = ⟨UInt32.ofNat x.1⟩ ∧ index = UInt32.ofNat x.2 ∧ TransGen (ExportHop modules) x x := by
  have links : ∀ m ∈ modules, ModuleLinks modules.length m := by
    intro m member
    obtain ⟨i,at_⟩ := List.mem_iff_getElem?.mp member
    exact moduleMetadataOk (checked i m at_)
  obtain ⟨indices,indexed⟩ := exportIndicesTotal fun m member => (links m member).named
  refine ⟨indices,indexed,⟨fun ok x inside => ?_,fun arrive => ?_⟩,fun id index failed => ?_⟩
  · obtain ⟨n,e,ends⟩ := resolutionsEnd ok x inside
    exact endsArrives links indexed ends inside
  · rcases resolutionsBlocked links indexed with ok | ⟨fault,_,blocked⟩
    · exact ok
    · obtain ⟨x,inside,stuck⟩ := blockedLost links blocked
      exact absurd (arrive x inside) stuck
  · rcases resolutionsBlocked links indexed with ok | ⟨fault,ran,blocked⟩
    · rw [ok] at failed
      cases failed
    · rw [failed] at ran
      have same : fault = moduleError id (.indirectExportCycle index) := (Except.error.inj ran).symm
      cases blocked with
      | @cycle x inside round =>
        injection same with same
        injection same with same kind
        cases same
        cases kind
        exact ⟨x,inside,rfl,rfl,round⟩
      | lost _ other _ _ =>
        injection same with same
        injection same with _ kind
        exact absurd kind (other index)

theorem resolutionsExactReentrant :
    ∃ indices, exportIndices reentrant.modules = .ok indices ∧
      (verifyExportResolutions reentrant.modules indices = .ok () ↔ ∀ x ∈ exportNodes 0 reentrant.modules, Arrives reentrant.modules x) ∧
      ∀ id index, verifyExportResolutions reentrant.modules indices = .error (moduleError id (.indirectExportCycle index)) →
        ∃ x ∈ exportNodes 0 reentrant.modules, id = ⟨UInt32.ofNat x.1⟩ ∧ index = UInt32.ofNat x.2 ∧
          TransGen (ExportHop reentrant.modules) x x :=
  resolutionsExact reentrant.modules (by
    intro i m at_
    rcases i with _ | _ | i
    · cases at_
      decide
    · cases at_
      decide
    · cases at_)

end Bamts.Linkage
