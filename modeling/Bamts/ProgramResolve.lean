import Bamts.HopChain
import Bamts.ProgramLink
import Mathlib.Data.List.Pairwise

/-! Export resolution on linked programs: the walk of `resolve_export` follows the unique
chain of hops to its end, within the bound it sets itself. -/
set_option linter.all false
namespace Bamts.Linkage
open Bytecode
open Outcome (bindOk seqOk rejectIf rejectIfOk eachFrom eachFromOk foldFrom)
open HopChain (Ends)

def Forwards (m : ProgramModule) (e : Export) (edge : EdgeId) (name : ConstantId) : Prop :=
  e.source = .indirect edge name ∨
  ∃ binding b, e.source = .local binding ∧ m.bindings[binding.get.toNat]? = some b ∧ b.kind = .imported edge name

structure Exports (p : Program) (id : ModuleId) (name : EcmaString) (m : ProgramModule) (e : Export) : Prop where
  module : p.module id = some m
  member : e ∈ m.exports
  named : string m.code e.name = some name

/- The chain of hops from an exported name: it ends at a binding of its own module or at
the first external edge. -/
inductive Chain (p : Program) : ModuleId → EcmaString → Nat → ResolvedExport → Prop where
  | bound {id name m e binding b} (here : Exports p id name m e) (source : e.source = .local binding)
      (found : m.bindings[binding.get.toNat]? = some b) (own : ∀ edge n, b.kind ≠ .imported edge n) :
      Chain p id name 0 (.local id binding)
  | external {id name m e edge n dependency} (here : Exports p id name m e) (forwards : Forwards m e edge n)
      (found : m.edges[edge.get.toNat]? = some dependency) (out : dependency.target = .external) :
      Chain p id name 0 (.external id edge n)
  | hop {id name m e edge n dependency target next hops resolved} (here : Exports p id name m e)
      (forwards : Forwards m e edge n) (found : m.edges[edge.get.toNat]? = some dependency)
      (inside : dependency.target = .local target) (linked : string m.code n = some next)
      (rest : Chain p target next hops resolved) : Chain p id name (hops+1) resolved

theorem indicesAt {modules indices} (ok : exportIndices modules = .ok indices) {i : Nat} {m} (at_ : modules[i]? = some m) :
    ∃ index, indices[i]? = some index ∧ exportIndex m = .ok index := by
  induction modules generalizing indices i with
  | nil => simp at at_
  | cons first rest ih =>
    obtain ⟨index,head,ok⟩ := bindOk.mp ok
    obtain ⟨others,tail,ok⟩ := bindOk.mp ok
    cases ok
    cases i with
    | zero =>
      simp only [List.getElem?_cons_zero,Option.some.injEq] at at_
      subst m
      exact ⟨index,rfl,head⟩
    | succ i => exact ih tail (by simpa using at_)

theorem indexLookup {m : ProgramModule} {start} {acc out : Names Nat} {xs : List Export} (ok : foldFrom (fun index names e => do
      let name ← orFault (string m.code e.name) .panicked return (name,index) :: names) start acc xs = .ok out)
    {name j} (found : out.lookup name = some j) :
    acc.lookup name = some j ∨ ∃ i e, xs[i]? = some e ∧ string m.code e.name = some name ∧ j = start + i := by
  induction xs generalizing start acc with
  | nil =>
    cases ok
    exact Or.inl found
  | cons e rest ih =>
    obtain ⟨acc',head,tail⟩ := bindOk.mp ok
    obtain ⟨n,known,same⟩ := bindOk.mp head
    cases same
    rcases ih tail with old | ⟨i,x,at_,named,rfl⟩
    · rw [List.lookup_cons] at old
      cases same : name == n with
      | true =>
        rw [same] at old
        cases old
        rw [eq_of_beq same]
        exact Or.inr ⟨0,e,rfl,orFaultOk.mp known,rfl⟩
      | false =>
        rw [same] at old
        exact Or.inl old
    · exact Or.inr ⟨i+1,x,by simpa using at_,named,by omega⟩

theorem indexNamed {m index} (ok : exportIndex m = .ok index) {name j}
    (found : index.lookup name = some j) : ∃ e, m.exports[j]? = some e ∧ string m.code e.name = some name := by
  rcases indexLookup ok found with old | ⟨i,e,at_,named,rfl⟩
  · cases old
  · rw [Nat.zero_add]
    exact ⟨e,at_,named⟩

theorem stateSet {states node x value colour} (h : stateAt (setState states node value) x = some colour) :
    (x = node ∧ colour = value) ∨ stateAt states x = some colour := by
  obtain ⟨row,inside,found⟩ := Option.bind_eq_some_iff.mp h
  unfold setState at inside
  rw [List.getElem?_modify] at inside
  obtain ⟨old,before,same⟩ := Option.map_eq_some_iff.mp inside
  split at same
  · rename_i here
    subst same
    rw [List.getElem?_set] at found
    split at found
    · rename_i there
      split at found
      · exact Or.inl ⟨Prod.ext here.symm there.symm,(Option.some.inj found).symm⟩
      · cases found
    · exact Or.inr (Option.bind_eq_some_iff.mpr ⟨old,before,found⟩)
  · subst same
    exact Or.inr (Option.bind_eq_some_iff.mpr ⟨_,before,found⟩)

/- The walk: what carries it is that a chain found to end ends for the whole stack. -/
theorem walkSettles {modules indices fuel states states' stack stack' current}
    (ok : walk modules indices fuel states stack current = .ok (states',stack'))
    (settled : ∀ x, stateAt states x = some 2 → ∃ n e, Ends (nextExport modules indices) x n e)
    (trail : (∃ n e, Ends (nextExport modules indices) current n e) → ∀ x ∈ stack, ∃ n e, Ends (nextExport modules indices) x n e) :
    (∀ x ∈ stack', ∃ n e, Ends (nextExport modules indices) x n e) ∧
    (∀ x, stateAt states' x = some 2 → ∃ n e, Ends (nextExport modules indices) x n e) ∧
    ∃ n e, Ends (nextExport modules indices) current n e := by
  induction fuel generalizing states stack current with
  | zero => cases ok
  | succ fuel ih =>
    unfold walk at ok
    cases colour : stateAt states current with
    | none => rw [colour] at ok; cases ok
    | some c =>
      simp only [colour] at ok
      split at ok
      · rename_i black
        cases ok
        have here := settled current (by rw [colour,black])
        exact ⟨trail here,settled,here⟩
      · split at ok
        · cases ok
        · obtain ⟨next,stepped,ok⟩ := bindOk.mp ok
          have settled' : ∀ x, stateAt (setState states current 1) x = some 2 →
              ∃ n e, Ends (nextExport modules indices) x n e := by
            intro x black
            rcases stateSet black with ⟨_,grey⟩ | old
            · cases grey
            · exact settled x old
          cases next with
          | none =>
            cases ok
            have here : ∃ n e, Ends (nextExport modules indices) current n e := ⟨0,current,Ends.stop stepped⟩
            refine ⟨?_,settled',here⟩
            intro x inside
            rcases List.mem_cons.mp inside with rfl | old
            · exact here
            · exact trail here x old
          | some next =>
            have back : (∃ n e, Ends (nextExport modules indices) next n e) →
                ∃ n e, Ends (nextExport modules indices) current n e := by
              intro ends
              obtain ⟨n,e,rest⟩ := ends
              exact ⟨n+1,e,Ends.hop stepped rest⟩
            have trail' : (∃ n e, Ends (nextExport modules indices) next n e) →
                ∀ x ∈ current :: stack, ∃ n e, Ends (nextExport modules indices) x n e := by
              intro ends x inside
              rcases List.mem_cons.mp inside with rfl | old
              · exact back ends
              · exact trail (back ends) x old
            obtain ⟨all,settled'',here⟩ := ih ok settled' trail'
            exact ⟨all,settled'',back here⟩

theorem stackSet {stack : List Node} {states x colour}
    (h : stateAt (stack.foldr (fun node states => setState states node 2) states) x = some colour) :
    x ∈ stack ∨ stateAt states x = some colour := by
  induction stack with
  | nil => exact Or.inr h
  | cons node rest ih =>
    rcases stateSet h with ⟨rfl,_⟩ | before
    · exact Or.inl List.mem_cons_self
    · rcases ih before with inside | old
      · exact Or.inl (List.mem_cons_of_mem _ inside)
      · exact Or.inr old

theorem settleEnds {modules indices states states' node} (ok : settleExport modules indices states node = .ok states')
    (settled : ∀ x, stateAt states x = some 2 → ∃ n e, Ends (nextExport modules indices) x n e) :
    (∀ x, stateAt states' x = some 2 → ∃ n e, Ends (nextExport modules indices) x n e) ∧
    ∃ n e, Ends (nextExport modules indices) node n e := by
  unfold settleExport at ok
  cases colour : stateAt states node with
  | none => rw [colour] at ok; cases ok
  | some c =>
    simp only [colour] at ok
    split at ok
    · rename_i black
      cases ok
      exact ⟨settled,settled node (by rw [colour,black])⟩
    · obtain ⟨⟨walked,stack⟩,ran,same⟩ := bindOk.mp ok
      cases same
      obtain ⟨all,settled',here⟩ := walkSettles ran settled (by simp)
      refine ⟨?_,here⟩
      intro x black
      rcases stackSet black with inside | old
      · exact all x inside
      · exact settled' x old

theorem foldEnds {modules indices start states states' nodes} (ok : foldFrom (fun _ => settleExport modules indices) start states nodes = .ok states')
    (settled : ∀ x, stateAt states x = some 2 → ∃ n e, Ends (nextExport modules indices) x n e) :
    ∀ x ∈ nodes, ∃ n e, Ends (nextExport modules indices) x n e := by
  induction nodes generalizing start states with
  | nil => simp
  | cons node rest ih =>
    obtain ⟨states'',head,tail⟩ := bindOk.mp ok
    obtain ⟨settled',here⟩ := settleEnds head settled
    intro x inside
    rcases List.mem_cons.mp inside with rfl | later
    · exact here
    · exact ih tail settled' x later

theorem resolutionsEnd {modules indices} (ok : verifyExportResolutions modules indices = .ok ()) :
    ∀ x ∈ exportNodes 0 modules, ∃ n e, Ends (nextExport modules indices) x n e := by
  obtain ⟨states,ok,_⟩ := bindOk.mp ok
  refine foldEnds ok ?_
  intro x black
  obtain ⟨row,inside,found⟩ := Option.bind_eq_some_iff.mp black
  rw [List.getElem?_map] at inside
  obtain ⟨m,_,rfl⟩ := Option.map_eq_some_iff.mp inside
  rw [List.getElem?_replicate] at found
  split at found <;> cases found

theorem nodeMember {start modules node} :
    node ∈ exportNodes start modules ↔
      ∃ i m, modules[i]? = some m ∧ node.1 = start + i ∧ node.2 < m.exports.length := by
  induction modules generalizing start with
  | nil => simp [exportNodes]
  | cons m rest ih =>
    rw [exportNodes,List.mem_append,ih,List.mem_map]
    constructor
    · intro h
      rcases h with ⟨e,inside,rfl⟩ | ⟨i,m',at_,same,inside⟩
      · exact ⟨0,m,rfl,rfl,List.mem_range.mp inside⟩
      · exact ⟨i+1,m',by simpa using at_,by omega,inside⟩
    · intro h
      obtain ⟨i,m',at_,same,inside⟩ := h
      cases i with
      | zero =>
        simp only [List.getElem?_cons_zero,Option.some.injEq] at at_
        subst m'
        exact Or.inl ⟨node.2,List.mem_range.mpr inside,Prod.ext same.symm rfl⟩
      | succ i => exact Or.inr ⟨i,m',by simpa using at_,by omega,inside⟩

theorem nodeCount (start modules) :
    (exportNodes start modules).length = (modules.map fun m => m.exports.length).sum := by
  induction modules generalizing start with
  | nil => rfl
  | cons m rest ih => rw [exportNodes,List.length_append,ih]; simp

def HopsOn (p : Program) (id : ModuleId) (name : EcmaString) : Option Node → Prop
  | none => ∃ resolved, Chain p id name 0 resolved
  | some node => ∃ target linked m e, node.1 = target.get.toNat ∧ m.exports[node.2]? = some e ∧
      Exports p target linked m e ∧
      ∀ hops resolved, Chain p target linked hops resolved → Chain p id name (hops+1) resolved

section Linked

variable {p : Program} {indices : List (Names Nat)} (links : ProgramLinks p indices)
include links

theorem linksAt {id m} (at_ : p.module id = some m) : ModuleLinks p.modules.length m :=
  links.modules m (List.mem_of_getElem? at_)

theorem exportUnique {id name m m' e e'} (left : Exports p id name m e) (right : Exports p id name m' e') : m = m' ∧ e = e' := by
  have same : m = m' := Option.some.inj (left.module.symm.trans right.module)
  subst m'
  refine ⟨rfl,?_⟩
  have symmetric : Std.Symm fun a b : Export => string m.code a.name ≠ string m.code b.name :=
    ⟨fun a b h h' => h h'.symm⟩
  by_contra differs
  have apart := (linksAt links left.module).distinct.forall left.member right.member differs
  exact apart (left.named.trans right.named.symm)

theorem stepAt {id name m e} (here : Exports p id name m e) :
    resolveStep p id name = resolveSource m id e.source := by
  unfold resolveStep
  rw [here.module]
  cases found : m.exports.find? fun e => string m.code e.name = some name with
  | none =>
    have none := List.find?_eq_none.mp found e here.member
    simp [here.named] at none
  | some e' =>
    have member := List.mem_of_find?_eq_some found
    have named : string m.code e'.name = some name := by simpa using List.find?_some found
    obtain ⟨_,rfl⟩ := exportUnique links here ⟨here.module,member,named⟩
    simp [found]

omit links in
theorem forwardsSource {m : ProgramModule} {id : ModuleId} {e : Export} {edge : EdgeId} {n : ConstantId}
    (forwards : Forwards m e edge n) : resolveSource m id e.source = follow m id edge n := by
  rcases forwards with source | ⟨binding,b,source,found,kind⟩
  · rw [source]
    rfl
  · rw [source]
    simp [resolveSource,found,kind]

theorem chainResolves {id name hops resolved}
    (chain : Chain p id name hops resolved) : ∀ fuel, hops < fuel → resolveLoop p fuel id name = some resolved := by
  induction chain with
  | @bound id name m e binding b here source found own =>
    intro fuel more
    obtain ⟨fuel,rfl⟩ := Nat.exists_eq_succ_of_ne_zero (Nat.ne_of_gt more)
    have step : resolveStep p id name = some (.done (.local id binding)) := by
      rw [stepAt links here,source]
      simp only [resolveSource,found,Option.bind_eq_bind,Option.bind_some]
      cases kind : b.kind with
      | imported edge n => exact absurd kind (own edge n)
      | hoisted => rfl
      | lexical => rfl
      | «namespace» edge => rfl
    simp [resolveLoop,step]
  | @external id name m e edge n dependency here forwards found out =>
    intro fuel more
    obtain ⟨fuel,rfl⟩ := Nat.exists_eq_succ_of_ne_zero (Nat.ne_of_gt more)
    have step : resolveStep p id name = some (.done (.external id edge n)) := by
      rw [stepAt links here,forwardsSource forwards]
      simp [follow,found,out]
    simp [resolveLoop,step]
  | @hop id name m e edge n dependency target next hops resolved here forwards found inside linked rest ih =>
    intro fuel more
    obtain ⟨fuel,rfl⟩ := Nat.exists_eq_succ_of_ne_zero (Nat.ne_of_gt (Nat.zero_lt_of_lt more))
    have step : resolveStep p id name = some (.next target next) := by
      rw [stepAt links here,forwardsSource forwards]
      simp [follow,found,inside,linked]
    simp [resolveLoop,step,ih fuel (by omega)]

/- One hop of the verifier is one hop of the chain. -/
theorem forwardChain {id name m e edge n missing next} (here : Exports p id name m e)
    (forwards : Forwards m e edge n) (ok : forward indices m edge n missing = .ok next) :
    HopsOn p id name next := by
  obtain ⟨dependency,found,ok⟩ := bindOk.mp ok
  have found := orFaultOk.mp found
  cases target : dependency.target with
  | external =>
    rw [target] at ok
    cases ok
    exact ⟨_,Chain.external here forwards found target⟩
  | «local» t =>
    rw [target] at ok
    obtain ⟨linked,named,ok⟩ := bindOk.mp ok
    obtain ⟨index,indexed,ok⟩ := bindOk.mp ok
    obtain ⟨j,hit,ok⟩ := bindOk.mp ok
    cases ok
    have inside := (linksAt links here.module).targets dependency (List.mem_of_getElem? found) t target
    have at_ : p.modules[t.get.toNat]? = some p.modules[t.get.toNat] := List.getElem?_eq_getElem inside
    obtain ⟨index',indexed',built⟩ := indicesAt links.indexed at_
    have same : index' = index := Option.some.inj (indexed'.symm.trans (orFaultOk.mp indexed))
    subst index'
    obtain ⟨e',place,named'⟩ := indexNamed built (orFaultOk.mp hit)
    refine ⟨t,linked,_,e',rfl,place,⟨at_,List.mem_of_getElem? place,named'⟩,?_⟩
    intro hops resolved rest
    exact Chain.hop here forwards found target (orFaultOk.mp named) rest

theorem nextChain {id name m e j next} (here : Exports p id name m e) (place : m.exports[j]? = some e)
    (ok : nextExport p.modules indices (id.get.toNat,j) = .ok next) :
    HopsOn p id name next := by
  obtain ⟨m',at_,ok⟩ := bindOk.mp ok
  obtain ⟨e',at_',ok⟩ := bindOk.mp ok
  have same : m' = m := Option.some.inj ((orFaultOk.mp at_).symm.trans here.module)
  subst m'
  have same : e' = e := Option.some.inj ((orFaultOk.mp at_').symm.trans place)
  subst e'
  cases source : e.source with
  | indirect edge n =>
    rw [source] at ok
    exact forwardChain links here (Or.inl source) ok
  | «local» binding =>
    rw [source] at ok
    obtain ⟨b,found,ok⟩ := bindOk.mp ok
    have found := orFaultOk.mp found
    cases kind : b.kind with
    | imported edge n =>
      rw [kind] at ok
      exact forwardChain links here (Or.inr ⟨binding,b,source,found,kind⟩) ok
    | hoisted | lexical | «namespace» _ =>
      rw [kind] at ok
      cases ok
      exact ⟨_,Chain.bound here source found (by simp [kind])⟩

theorem endsChain {node last n} (ends : Ends (nextExport p.modules indices) node n last) {id name m e} (here : Exports p id name m e)
    (place : m.exports[node.2]? = some e) (same : node.1 = id.get.toNat) : ∃ resolved, Chain p id name n resolved := by
  induction ends generalizing id name m e with
  | @stop node final =>
    obtain ⟨i,j⟩ := node
    cases same
    exact nextChain links here place final
  | @hop node next last n stepped rest ih =>
    obtain ⟨i,j⟩ := node
    cases same
    obtain ⟨target,linked,m',e',same',place',here',extend⟩ := nextChain links here place stepped
    obtain ⟨resolved,chain⟩ := ih here' place' same'
    exact ⟨resolved,extend n resolved chain⟩

theorem nextInside {x y} (inside : x ∈ exportNodes 0 p.modules)
    (ok : nextExport p.modules indices x = .ok (some y)) : y ∈ exportNodes 0 p.modules := by
  obtain ⟨i,m,at_,same,small⟩ := nodeMember.mp inside
  obtain ⟨i',j⟩ := x
  rw [Nat.zero_add] at same
  change i' = i at same
  subst i'
  have fits : i < 2^32 := by
    obtain ⟨bound,_⟩ := List.getElem?_eq_some_iff.mp at_
    have count : p.modules.length ≤ 2^32 - 1 := links.moduleCount
    omega
  have cast : (UInt32.ofNat i).toNat = i := UInt32.toNat_ofNat_of_lt' fits
  have module : p.module ⟨UInt32.ofNat i⟩ = some m := by
    unfold Program.module
    rw [cast,at_]
  have place : m.exports[j]? = some m.exports[j] := List.getElem?_eq_getElem small
  obtain ⟨name,named⟩ := (linksAt links module).named _ (List.mem_of_getElem? place)
  have ok' : nextExport p.modules indices ((UInt32.ofNat i).toNat,j) = .ok (some y) := by rw [cast]; exact ok
  obtain ⟨target,_,m',e',same,place',here',_⟩ :=
    nextChain links ⟨module,List.mem_of_getElem? place,named⟩ place ok'
  obtain ⟨small',_⟩ := List.getElem?_eq_some_iff.mp place'
  exact nodeMember.mpr ⟨_,m',here'.module,by rw [same,Nat.zero_add],small'⟩

theorem chainExists {id name m e} (here : Exports p id name m e) :
    ∃ hops resolved, hops < exportCount p ∧ Chain p id name hops resolved := by
  obtain ⟨j,place⟩ := List.mem_iff_getElem?.mp here.member
  obtain ⟨small,_⟩ := List.getElem?_eq_some_iff.mp place
  have inside : (id.get.toNat,j) ∈ exportNodes 0 p.modules :=
    nodeMember.mpr ⟨_,m,here.module,(Nat.zero_add _).symm,small⟩
  obtain ⟨n,last,ends⟩ := resolutionsEnd links.resolutions _ inside
  obtain ⟨resolved,chain⟩ := endsChain links ends here place rfl
  have bound := ends.bound (fun x member y next => nextInside links member next) inside
  rw [nodeCount] at bound
  exact ⟨n,resolved,bound,chain⟩

theorem importedExports {id m} (at_ : p.module id = some m) {b} (member : b ∈ m.bindings) {edge n} (kind : b.kind = .imported edge n) {dependency}
    (found : m.edges[edge.get.toNat]? = some dependency) {target} (inside : dependency.target = .local target) :
    ∃ name m' e, string m.code n = some name ∧ Exports p target name m' e := by
  obtain ⟨i,place⟩ := List.mem_iff_getElem?.mp member
  have each := eachFromOk.mp (eachFromOk.mp links.imported _ _ at_) _ _ place
  unfold verifyImportedBinding at each
  rw [kind] at each
  obtain ⟨dependency',found',each⟩ := bindOk.mp each
  have same : dependency' = dependency := Option.some.inj ((orFaultOk.mp found').symm.trans found)
  subst dependency'
  rw [inside] at each
  obtain ⟨name,named,each⟩ := bindOk.mp each
  obtain ⟨index,indexed,each⟩ := bindOk.mp each
  have hit := rejectIfOk.mp each
  obtain ⟨j,hit⟩ : ∃ j, index.lookup name = some j := Option.ne_none_iff_exists'.mp (by simpa using hit)
  have bound := (linksAt links at_).targets dependency (List.mem_of_getElem? found) target inside
  have there : p.modules[target.get.toNat]? = some p.modules[target.get.toNat] := List.getElem?_eq_getElem bound
  obtain ⟨index',indexed',built⟩ := indicesAt links.indexed there
  have same : index' = index := Option.some.inj (indexed'.symm.trans (orFaultOk.mp indexed))
  subst index'
  obtain ⟨e,place',named'⟩ := indexNamed built hit
  exact ⟨name,_,e,orFaultOk.mp named,there,List.mem_of_getElem? place',named'⟩

theorem resolvesAt {id name m e} (here : Exports p id name m e) :
    ∃ hops resolved, hops < exportCount p ∧ Chain p id name hops resolved ∧
      resolveExport p id name = some resolved ∧ ∀ hops' other, Chain p id name hops' other → other = resolved := by
  obtain ⟨hops,resolved,bound,chain⟩ := chainExists links here
  refine ⟨hops,resolved,bound,chain,chainResolves links chain _ (by omega),?_⟩
  intro hops' other chain'
  have left := chainResolves links chain (hops + hops' + 1) (by omega)
  have right := chainResolves links chain' (hops + hops' + 1) (by omega)
  exact Option.some.inj (right.symm.trans left)

end Linked

/- Every exported name of a linked program resolves to the end of its chain of hops, which
is shorter than the bound of the walk; so does every import over a local edge. -/
theorem resolveExportTotal (p : Program) (linked : Linked p) :
    (∀ id name m e, Exports p id name m e → ∃ hops resolved, hops < exportCount p ∧ Chain p id name hops resolved ∧
      resolveExport p id name = some resolved ∧ ∀ hops' other, Chain p id name hops' other → other = resolved) ∧
    (∀ id m, p.module id = some m → ∀ b ∈ m.bindings, ∀ edge n, b.kind = .imported edge n →
      ∀ dependency, m.edges[edge.get.toNat]? = some dependency → ∀ target, dependency.target = .local target →
      ∃ name m' e resolved, string m.code n = some name ∧ Exports p target name m' e ∧
        resolveExport p target name = some resolved) := by
  obtain ⟨indices,links⟩ := linkedLinks linked
  constructor
  · intro id name m e here
    exact resolvesAt links here
  · intro id m at_ b member edge n kind dependency found target inside
    obtain ⟨name,m',e,named,here⟩ := importedExports links at_ member kind found inside
    obtain ⟨_,resolved,_,_,result,_⟩ := resolvesAt links here
    exact ⟨name,m',e,resolved,named,here,result⟩

theorem resolveExportTotalReentrant :
    (∃ hops resolved, hops < exportCount reentrant ∧ Chain reentrant ⟨0⟩ ⟨[97]⟩ hops resolved ∧
      resolveExport reentrant ⟨0⟩ ⟨[97]⟩ = some resolved ∧
      ∀ hops' other, Chain reentrant ⟨0⟩ ⟨[97]⟩ hops' other → other = resolved) ∧
    resolveExport reentrant ⟨0⟩ ⟨[97]⟩ = some (.local ⟨0⟩ ⟨0⟩) :=
  ⟨(resolveExportTotal reentrant reentrantLinked).1 ⟨0⟩ ⟨[97]⟩ _ _ ⟨rfl,List.mem_cons_self,rfl⟩,by decide⟩

end Bamts.Linkage
