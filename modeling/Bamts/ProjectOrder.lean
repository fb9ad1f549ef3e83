import Bamts.ProjectCycle
import Mathlib.Algebra.GroupWithZero.Nat

/-! The order in which projects are built: every project after the projects it references, and the least path first
among those that can be built. -/
set_option linter.all false
namespace Bamts.Project.ReferenceGraph
open GraphOrder

variable {Path : Type} [LinearOrder Path] {g : ReferenceGraph Path}

def outstanding (g : ReferenceGraph Path) (order : List Path) (p : Path) : List Path := (g.references p).filter fun y => g.contains y && decide (y ∉ order)

theorem outstandingNone {order p} : (outstanding g order p).length = 0 ↔ ∀ y, g.Next p y → y ∈ order := by
  rw [List.length_eq_zero_iff,outstanding,List.filter_eq_nil_iff]
  constructor
  · intro none_ y next
    by_contra open_
    exact none_ y next.1 (by simp [next.2,open_])
  · intro all y member out
    rw [Bool.and_eq_true,decide_eq_true_eq] at out
    exact out.2 (all y ⟨member,out.1⟩)

theorem outstandingTaken {order current} (known : g.contains current = true) (fresh : current ∉ order) (p) :
    (outstanding g (order ++ [current]) p).length+(g.references p).count current = (outstanding g order p).length := by
  unfold outstanding
  induction g.references p with
  | nil => rfl
  | cons y rest ih =>
    by_cases same : y = current
    · subst same
      have left : (g.contains y && decide (y ∉ order ++ [y])) = false := by simp
      have right : (g.contains y && decide (y ∉ order)) = true := by simp [known,fresh]
      rw [List.filter_cons,List.filter_cons,left,right,List.count_cons_self]
      simp only [Bool.false_eq_true,if_false,if_true,List.length_cons]
      omega
    · have alike : decide (y ∉ order ++ [current]) = decide (y ∉ order) := by simp [same]
      rw [List.filter_cons,List.filter_cons,alike,List.count_cons_of_ne same]
      split
      · simp only [List.length_cons]
        omega
      · exact ih

-- What the degrees and the lists of dependents say once the edges are counted.
structure Counted (g : ReferenceGraph Path) (inDegree : OrderedMap Path Nat) (dependents : OrderedMap Path (List Path)) : Prop where
  degrees : ∀ p, inDegree.get p = if g.contains p then some (outstanding g [] p).length else none
  dependents : ∀ q p, g.contains q = true → ((dependents.get q).getD []).count p = (g.references p).count q

theorem addDependentsGet (path : Path) (targets dependents q) :
    (addDependents path targets dependents).get q = (dependents.get q).map (· ++ List.replicate (targets.count q) path) := by
  induction targets generalizing dependents with
  | nil => simp [addDependents]
  | cons target rest ih =>
    rw [addDependents,ih]
    by_cases same : target = q
    · subst same
      cases found : dependents.get target with
      | none => simp [found]
      | some list =>
        rw [OrderedMap.getInsert,if_pos rfl,List.count_cons_self,List.replicate_succ]
        simp
    · rw [List.count_cons_of_ne same]
      congr 1
      cases dependents.get target with
      | none => rfl
      | some list => exact OrderedMap.getInsert.trans (if_neg fun here => same here.symm)

theorem countEdgesSpec (g : ReferenceGraph Path) {nodes inDegree} (dependents)
    (present : ∀ node ∈ nodes, (inDegree.get node.path).isSome = true) (distinct : (nodes.map (·.path)).Nodup) :
    ∃ inDegree' dependents', g.countEdges nodes inDegree dependents = some (inDegree',dependents') ∧
      (∀ node ∈ nodes, inDegree'.get node.path = some (node.references.filter g.contains).length) ∧
      (∀ p, (∀ node ∈ nodes, node.path ≠ p) → inDegree'.get p = inDegree.get p) ∧
      ∀ q, (dependents'.get q).isSome = (dependents.get q).isSome ∧ ∀ p, (dependents.get q).isSome = true →
        ((dependents'.get q).getD []).count p =
          ((dependents.get q).getD []).count p+((nodes.filter (·.path = p)).map fun node => node.references.count q).sum := by
  induction nodes generalizing inDegree dependents with
  | nil => exact ⟨inDegree,dependents,rfl,nofun,fun _ _ => rfl,fun q => ⟨rfl,fun p _ => rfl⟩⟩
  | cons node rest ih =>
    obtain ⟨fresh,distinct⟩ := List.nodup_cons.mp distinct
    have other : ∀ node' ∈ rest, node'.path ≠ node.path := fun node' member same => fresh (List.mem_map.mpr ⟨node',member,same⟩)
    unfold countEdges
    rw [if_pos (present node List.mem_cons_self)]
    have still : ∀ node' ∈ rest, ((inDegree.insert node.path (node.references.filter g.contains).length).get node'.path).isSome = true := by
      intro node' member
      rw [OrderedMap.getInsert,if_neg (other node' member)]
      exact present node' (List.mem_cons_of_mem _ member)
    obtain ⟨inDegree',dependents',done,degrees,away,lists⟩ := ih (addDependents node.path node.references dependents) still distinct
    refine ⟨inDegree',dependents',done,?_,?_,?_⟩
    · intro node' member
      rcases List.mem_cons.mp member with rfl | later
      · rw [away _ other,OrderedMap.getInsert,if_pos rfl]
      · exact degrees node' later
    · intro p apart
      rw [away p fun node' member => apart node' (List.mem_cons_of_mem _ member),OrderedMap.getInsert,
        if_neg (Ne.symm (apart node List.mem_cons_self))]
    · intro q
      obtain ⟨some_,counts⟩ := lists q
      rw [addDependentsGet,Option.isSome_map] at some_ counts
      refine ⟨some_,fun p there => ?_⟩
      rw [counts p there]
      obtain ⟨list,found⟩ := Option.isSome_iff_exists.mp there
      rw [found,Option.map_some,Option.getD_some,Option.getD_some,List.count_append,List.count_replicate,List.filter_cons]
      by_cases same : node.path = p
      · rw [if_pos (by simpa using same),if_pos (by simpa using same),List.map_cons,List.sum_cons,Nat.add_assoc]
      · rw [if_neg (by simpa using same),if_neg (by simpa using same),Nat.add_zero]

theorem pathsKeys : g.nodes.values.map (·.path) = g.keys := by
  rw [OrderedMap.values,List.map_map,keys]
  refine List.map_congr_left fun entry member => ?_
  exact g.keyed entry.1 entry.2 (OrderedMap.getMem.mpr member)

theorem nodeOf {p node} : (node ∈ g.nodes.values ∧ node.path = p) ↔ g.nodes.get p = some node := by
  rw [OrderedMap.values,List.mem_map]
  constructor
  · rintro ⟨⟨entry,member,rfl⟩,rfl⟩
    have here := OrderedMap.getMem.mpr member
    rwa [g.keyed entry.1 entry.2 here]
  · intro found
    exact ⟨⟨(p,node),OrderedMap.getMem.mp found,rfl⟩,g.keyed p node found⟩

theorem counted : ∃ inDegree dependents, g.countEdges g.nodes.values (g.nodes.map fun _ => 0) (g.nodes.map fun _ => []) = some (inDegree,dependents) ∧
    Counted g inDegree dependents := by
  have present : ∀ node ∈ g.nodes.values, ((g.nodes.map fun _ => 0).get node.path).isSome = true := by
    intro node member
    rw [OrderedMap.getMap,nodeOf.mp ⟨member,rfl⟩]
    rfl
  have distinct : (g.nodes.values.map (·.path)).Nodup := by
    rw [pathsKeys]
    exact OrderedMap.keysNodup
  obtain ⟨inDegree,dependents,done,degrees,away,lists⟩ := countEdgesSpec g (g.nodes.map fun _ => []) present distinct
  refine ⟨inDegree,dependents,done,?_,?_⟩
  · intro p
    unfold contains outstanding references
    cases found : g.nodes.get p with
    | some node =>
      obtain ⟨member,rfl⟩ := nodeOf.mpr found
      rw [degrees node member]
      simp
    | none =>
      have apart : ∀ node ∈ g.nodes.values, node.path ≠ p := by
        intro node member same
        rw [nodeOf.mp ⟨member,same⟩] at found
        cases found
      rw [away p apart,OrderedMap.getMap,found]
      rfl
  · intro q p known
    have there : ((g.nodes.map fun _ => ([] : List Path)).get q).isSome = true := by
      rw [OrderedMap.getMap,Option.isSome_map]
      exact known
    rw [(lists q).2 p there]
    obtain ⟨node,found⟩ := Option.isSome_iff_exists.mp known
    rw [OrderedMap.getMap,found,Option.map_some,Option.getD_some,List.count_nil,Nat.zero_add]
    unfold references
    have one : g.nodes.values.filter (·.path = p) = (g.nodes.get p).toList := by
      cases found : g.nodes.get p with
      | none =>
        refine List.filter_eq_nil_iff.mpr fun node member same => ?_
        rw [nodeOf.mp ⟨member,of_decide_eq_true same⟩] at found
        cases found
      | some node =>
        refine List.perm_singleton.mp ((List.perm_ext_iff_of_nodup ((distinct.of_map _).filter _) (List.nodup_singleton _)).mpr fun x => ?_)
        rw [List.mem_filter,decide_eq_true_eq,nodeOf,found,List.mem_singleton,Option.some.injEq,eq_comm]
    rw [one]
    cases g.nodes.get p with
    | none => rfl
    | some node => simp

theorem releaseSpec {s} (degree : Path → Nat) (dependents) (degrees : ∀ p, s.inDegree.get p = if g.contains p then some (degree p) else none)
    (enough : ∀ p, g.contains p = true → dependents.count p ≤ degree p) :
    ∃ s', release s dependents = some s' ∧ s'.order = s.order ∧
      (∀ p, s'.inDegree.get p = if g.contains p then some (degree p-dependents.count p) else none) ∧
      ∀ p, (s'.ready.get p).isSome = true ↔
        (s.ready.get p).isSome = true ∨ p ∈ dependents ∧ g.contains p = true ∧ degree p-dependents.count p = 0 := by
  induction dependents generalizing s degree with
  | nil => exact ⟨s,rfl,rfl,degrees,fun p => ⟨.inl,fun either => either.resolve_right fun right => List.not_mem_nil right.1⟩⟩
  | cons dependent rest ih =>
    have here := degrees dependent
    unfold release
    by_cases known : g.contains dependent = true
    · have some_ := enough dependent known
      rw [List.count_cons_self] at some_
      obtain ⟨less,positive⟩ : ∃ less, degree dependent = less+1 := ⟨degree dependent-1,by omega⟩
      rw [if_pos known,positive] at here
      rw [here]
      have degrees' : ∀ p, (s.inDegree.insert dependent less).get p = if g.contains p then some (if p = dependent then less else degree p) else none := by
        intro p
        rw [OrderedMap.getInsert]
        split
        · rename_i same
          rw [same,if_pos known]
        · exact degrees p
      have counts : ∀ p, (if p = dependent then less else degree p)-rest.count p = degree p-(dependent :: rest).count p := by
        intro p
        split
        · rename_i same
          rw [same,List.count_cons_self]
          omega
        · rename_i other
          rw [List.count_cons_of_ne (Ne.symm other)]
      have enough' : ∀ p, g.contains p = true → rest.count p ≤ if p = dependent then less else degree p := by
        intro p inside
        have := enough p inside
        split
        · rename_i same
          subst same
          omega
        · rename_i other
          rwa [List.count_cons_of_ne (Ne.symm other)] at this
      obtain ⟨s',done,order,degrees'',ready⟩ := ih
        (s := { s with inDegree := s.inDegree.insert dependent less,ready := if less = 0 then s.ready.insert dependent () else s.ready })
        _ degrees' enough'
      refine ⟨s',done,order,fun p => by rw [degrees'',counts],fun p => ?_⟩
      rw [ready,counts,List.mem_cons]
      have added : ((if less = 0 then s.ready.insert dependent () else s.ready).get p).isSome = true ↔
          (s.ready.get p).isSome = true ∨ p = dependent ∧ less = 0 := by
        split
        · rename_i zero
          rw [OrderedMap.getInsert]
          split
          · rename_i same
            exact ⟨fun _ => .inr ⟨same,zero⟩,fun _ => rfl⟩
          · rename_i other
            exact ⟨.inl,fun either => either.resolve_right fun right => other right.1⟩
        · rename_i more
          exact ⟨.inl,fun either => either.resolve_right fun right => more right.2⟩
      rw [added]
      constructor
      · rintro ((old | ⟨rfl,zero⟩) | ⟨later,inside,zero⟩)
        · exact .inl old
        · refine .inr ⟨.inl rfl,known,?_⟩
          rw [List.count_cons_self]
          omega
        · exact .inr ⟨.inr later,inside,zero⟩
      · rintro (old | ⟨same | later,inside,zero⟩)
        · exact .inl (.inl old)
        · by_cases again : p ∈ rest
          · exact .inr ⟨again,inside,zero⟩
          · refine .inl (.inr ⟨same,?_⟩)
            rw [same,List.count_cons_self,List.count_eq_zero.mpr (same ▸ again)] at zero
            omega
        · exact .inr ⟨later,inside,zero⟩
    · rw [if_neg known] at here
      rw [here]
      have other : ∀ p, g.contains p = true → dependent ≠ p := by
        rintro p inside rfl
        exact known inside
      obtain ⟨s',done,order,degrees',ready⟩ := ih degree degrees fun p inside => by
        have := enough p inside
        rwa [List.count_cons_of_ne (other p inside)] at this
      refine ⟨s',done,order,fun p => ?_,fun p => ?_⟩
      · rw [degrees']
        split
        · rename_i inside
          rw [List.count_cons_of_ne (other p inside)]
        · rfl
      · rw [ready]
        refine or_congr_right ?_
        constructor
        · rintro ⟨later,inside,zero⟩
          exact ⟨List.mem_cons_of_mem _ later,inside,by rwa [List.count_cons_of_ne (other p inside)]⟩
        · rintro ⟨member,inside,zero⟩
          refine ⟨(List.mem_cons.mp member).resolve_left fun same => other p inside same.symm,inside,?_⟩
          rwa [List.count_cons_of_ne (other p inside)] at zero

structure Taking (g : ReferenceGraph Path) (s : Kahn Path) : Prop where
  least : LeastFirst g.Next g.keys s.order
  degrees : ∀ p, s.inDegree.get p = if g.contains p then some (outstanding g s.order p).length else none
  ready : ∀ p, (s.ready.get p).isSome = true ↔ Available g.Next g.keys s.order p

theorem availableIff {order p} :
    Available g.Next g.keys order p ↔ g.contains p = true ∧ p ∉ order ∧ (outstanding g order p).length = 0 := by
  constructor
  · intro free
    exact ⟨containsKeys.mpr free.node,free.open_,outstandingNone.mpr free.closed⟩
  · rintro ⟨known,open_,none_⟩
    exact ⟨containsKeys.mp known,open_,outstandingNone.mp none_⟩

theorem takeTurns {s inDegree dependents} (counted : Counted g inDegree dependents)
    (taking : Taking g s) {current} (first : s.ready.first = some current) :
    ∃ s', release { s with ready := s.ready.remove current,order := s.order ++ [current] } ((dependents.get current).getD []) = some s' ∧
      s'.order = s.order ++ [current] ∧ Taking g s' := by
  obtain ⟨there,least⟩ := OrderedMap.firstLeast first
  have free := (taking.ready current).mp (Option.isSome_iff_ne_none.mpr there)
  obtain ⟨known,fresh,none_⟩ := availableIff.mp free
  have counts : ∀ p, ((dependents.get current).getD []).count p = (g.references p).count current := fun p => counted.dependents current p known
  have outstandings := outstandingTaken known fresh
  have enough : ∀ p, g.contains p = true → ((dependents.get current).getD []).count p ≤ (outstanding g s.order p).length := by
    intro p _
    rw [counts]
    have := outstandings p
    omega
  obtain ⟨s',done,order,degrees,ready⟩ := releaseSpec (s := { s with ready := s.ready.remove current,order := s.order ++ [current] })
    (fun p => (outstanding g s.order p).length) _ taking.degrees enough
  dsimp only at order
  have next := taking.least.snoc free fun y other => least y (Option.isSome_iff_ne_none.mp ((taking.ready y).mpr other))
  have left : ∀ p, (outstanding g s.order p).length-((dependents.get current).getD []).count p = (outstanding g (s.order ++ [current]) p).length := by
    intro p
    have := outstandings p
    rw [counts]
    omega
  refine ⟨s',done,order,?_,?_,?_⟩
  · rw [order]
    exact next
  · intro p
    rw [degrees,left,order]
  · intro p
    rw [ready,left,order,availableIff,OrderedMap.getRemove,List.mem_append,List.mem_singleton,not_or]
    have before := taking.ready p
    rw [availableIff] at before
    have counted_ := outstandings p
    constructor
    · rintro (old | ⟨released,inside,zero⟩)
      · split at old
        · cases old
        · rename_i other
          obtain ⟨inside,open_,zero⟩ := before.mp old
          exact ⟨inside,⟨open_,other⟩,by omega⟩
      · have refers : current ∈ g.references p := by
          rw [← List.count_pos_iff,← counts,List.count_pos_iff]
          exact released
        refine ⟨inside,⟨fun taken => ?_,?_⟩,zero⟩
        · -- What was taken references taken projects only.
          obtain ⟨k,at_⟩ := List.mem_iff_getElem?.mp taken
          obtain ⟨j,_,found⟩ := taking.least.earlier at_ ⟨refers,known⟩
          exact fresh (List.mem_of_getElem? found)
        · rintro rfl
          exact fresh (free.closed p ⟨refers,known⟩)
    · rintro ⟨inside,⟨open_,other⟩,zero⟩
      rw [if_neg other]
      by_cases released : p ∈ (dependents.get current).getD []
      · exact .inr ⟨released,inside,zero⟩
      · have none_ : (g.references p).count current = 0 := by rw [← counts,List.count_eq_zero]; exact released
        exact .inl (before.mpr ⟨inside,open_,by omega⟩)

theorem drainSpec {s inDegree dependents} (counted : Counted g inDegree dependents)
    (taking : Taking g s) {fuel} (enough : g.nodes.length < fuel+s.order.length) :
    ∃ s', drain dependents fuel s = some (some s') ∧ Taking g s' ∧ s'.ready.first = none := by
  have bound : s.order.length ≤ g.nodes.length := by
    have short := taking.least.nodup.length_le_of_subset fun x member => taking.least.inside member
    rwa [keys,List.length_map] at short
  induction fuel generalizing s with
  | zero => omega
  | succ fuel ih =>
    unfold drain
    cases first : s.ready.first with
    | none => exact ⟨s,rfl,taking,first⟩
    | some current =>
      obtain ⟨s',done,order,next⟩ := takeTurns counted taking first
      dsimp only
      rw [done]
      have grown : s'.order.length = s.order.length+1 := by rw [order,List.length_append,List.length_singleton]
      have short := next.least.nodup.length_le_of_subset fun x member => next.least.inside member
      rw [keys,List.length_map] at short
      exact ih next (by omega) short

theorem readyGet (entries : List (Path × Nat)) (ready : OrderedMap Path Unit) (p) :
    ((entries.foldl (fun ready entry => ready.insert entry.1 ()) ready).get p).isSome = true ↔
      (ready.get p).isSome = true ∨ ∃ entry ∈ entries, entry.1 = p := by
  induction entries generalizing ready with
  | nil => simp
  | cons entry rest ih =>
    rw [List.foldl_cons,ih,OrderedMap.getInsert]
    split
    · rename_i same
      exact ⟨fun _ => .inr ⟨entry,List.mem_cons_self,same.symm⟩,fun _ => .inl rfl⟩
    · rename_i other
      refine or_congr_right ⟨?_,?_⟩
      · rintro ⟨x,member,same⟩
        exact ⟨x,List.mem_cons_of_mem _ member,same⟩
      · rintro ⟨x,member,same⟩
        exact ⟨x,(List.mem_cons.mp member).resolve_left fun here => other (by rw [← same,here]),same⟩

def DependenciesFirst (g : ReferenceGraph Path) (order : List Path) : Prop :=
  ∀ x y, g.Next x y → ∃ i j : Nat, i < j ∧ order[i]? = some y ∧ order[j]? = some x

theorem topologicalOrderSpec {done} (acyclic : Acyclic g done) {fuel} (enough : 2*g.nodes.length < fuel) (none_ : g.findCycle fuel = some none) :
    ∃ order, g.topologicalOrder fuel = some (.ok order) ∧ LeastFirst g.Next g.keys order ∧ ∀ x ∈ g.keys, x ∈ order := by
  obtain ⟨inDegree,dependents,edges,counts⟩ := counted (g := g)
  let ready := (inDegree.entries.filter fun entry => entry.2 = 0).foldl (fun ready entry => ready.insert entry.1 ()) (OrderedMap.empty : OrderedMap Path Unit)
  have start : Taking g ⟨inDegree,ready,[]⟩ := by
    refine ⟨nofun,counts.degrees,fun p => ?_⟩
    have zero := counts.degrees p
    rw [readyGet,availableIff,OrderedMap.getEmpty]
    constructor
    · rintro (no | ⟨entry,member,rfl⟩)
      · cases no
      · obtain ⟨inside,none_⟩ := List.mem_filter.mp member
        rw [OrderedMap.getMem.mpr inside] at zero
        split at zero
        · rename_i known
          exact ⟨known,List.not_mem_nil,(Option.some.inj zero).symm.trans (of_decide_eq_true none_)⟩
        · cases zero
    · rintro ⟨known,_,none_⟩
      rw [if_pos known,none_] at zero
      exact .inr ⟨(p,0),List.mem_filter.mpr ⟨OrderedMap.getMem.mp zero,rfl⟩,rfl⟩
  have enough' : g.nodes.length < fuel+([] : List Path).length := by
    omega
  obtain ⟨s,drained,taking,over_⟩ := drainSpec counts start enough'
  have all : ∀ x ∈ g.keys, x ∈ s.order := by
    intro x member
    by_contra open_
    obtain ⟨y,finished,out,closed⟩ := acyclic.1.first (· ∈ s.order) ((acyclic.2 x).mp (containsKeys.mpr member)) open_
    have free : Available g.Next g.keys s.order y := ⟨containsKeys.mp ((acyclic.2 y).mpr finished),out,closed⟩
    have there := (taking.ready y).mpr free
    rw [OrderedMap.firstNone.mp over_ y] at there
    cases there
  have whole : s.order.length = g.nodes.length := by
    have perm := (List.perm_ext_iff_of_nodup taking.least.nodup OrderedMap.keysNodup).mpr fun x =>
      ⟨fun member => taking.least.inside member,fun member => all x member⟩
    rw [perm.length_eq,List.length_map]
    rfl
  refine ⟨s.order,?_,taking.least,all⟩
  simp only [topologicalOrder,none_,bind,Option.bind_some,edges]
  rw [drained]
  simp only [Option.bind_some,if_pos whole]
  rfl

theorem configsGet {configs : List (ReferenceNode Path)} (distinct : (configs.map (·.path)).Nodup) (g : ReferenceGraph Path) (p node) : (configs.foldl (fun g config => g.insert config.canonical) g).nodes.get p = some node ↔
      (∃ config ∈ configs, config.path = p ∧ config.canonical = node) ∨ (∀ config ∈ configs, config.path ≠ p) ∧ g.nodes.get p = some node := by
  induction configs generalizing g with
  | nil => simp
  | cons config rest ih =>
    obtain ⟨fresh,distinct⟩ := List.nodup_cons.mp distinct
    rw [List.foldl_cons,ih distinct]
    have here : (g.insert config.canonical).nodes.get p = if p = config.path then some config.canonical else g.nodes.get p := OrderedMap.getInsert
    rw [here]
    constructor
    · rintro (⟨other,member,found⟩ | ⟨apart,found⟩)
      · exact .inl ⟨other,List.mem_cons_of_mem _ member,found⟩
      · split at found
        · rename_i same
          exact .inl ⟨config,List.mem_cons_self,same.symm,Option.some.inj found⟩
        · rename_i other
          refine .inr ⟨fun x member => ?_,found⟩
          rcases List.mem_cons.mp member with rfl | later
          · exact Ne.symm other
          · exact apart x later
    · rintro (⟨x,member,same,shape⟩ | ⟨apart,found⟩)
      · rcases List.mem_cons.mp member with rfl | later
        · refine .inr ⟨fun other there equal => fresh (List.mem_map.mpr ⟨other,there,equal.trans same.symm⟩),?_⟩
          rw [if_pos same.symm,shape]
        · exact .inl ⟨x,later,same,shape⟩
      · refine .inr ⟨fun x member => apart x (List.mem_cons_of_mem _ member),?_⟩
        rw [if_neg (Ne.symm (apart config List.mem_cons_self))]
        exact found

def Resupplied (configs configs' : List (ReferenceNode Path)) : Prop :=
  ∃ between, configs.Perm between ∧ List.Forall₂ (fun x y => y.path = x.path ∧ y.references.Perm x.references) between configs'

theorem sortedPerm {α} [LinearOrder α] (values : List α) : (sorted values).Perm values := List.perm_insertionSort _ _

theorem resuppliedEdges {configs configs' : List (ReferenceNode Path)} (distinct : (configs.map (·.path)).Nodup)
    (again : Resupplied configs configs') (x) :
    (fromTsconfigs configs').contains x = (fromTsconfigs configs).contains x ∧
    ∀ y, y ∈ (fromTsconfigs configs').references x ↔ y ∈ (fromTsconfigs configs).references x := by
  obtain ⟨between,perm,alike⟩ := again
  have paths : configs'.map (·.path) = between.map (·.path) := by
    clear perm
    induction alike with
    | nil => rfl
    | cons same _ ih => rw [List.map_cons,List.map_cons,same.1,ih]
  have distinct' : (configs'.map (·.path)).Nodup := by
    rw [paths]
    exact (perm.map _).nodup_iff.mp distinct
  have pairs : ∀ config ∈ configs, ∃ config' ∈ configs', config'.path = config.path ∧ config'.references.Perm config.references := by
    intro config member
    have inside := perm.mem_iff.mp member
    clear perm paths distinct distinct'
    induction alike with
    | nil => cases inside
    | @cons a b _ _ same _ ih =>
      rcases List.mem_cons.mp inside with rfl | later
      · exact ⟨b,List.mem_cons_self,same⟩
      · obtain ⟨b',there,both⟩ := ih later
        exact ⟨b',List.mem_cons_of_mem _ there,both⟩
  have get : ∀ {configs : List (ReferenceNode Path)}, (configs.map (·.path)).Nodup → ∀ node, (fromTsconfigs configs).nodes.get x = some node ↔
      ∃ config ∈ configs, config.path = x ∧ config.canonical = node := by
    intro configs distinct node
    refine (configsGet distinct empty x node).trans (or_iff_left ?_)
    rintro ⟨_,found⟩
    cases found
  unfold contains references
  cases found : (fromTsconfigs configs).nodes.get x with
  | none =>
    have none_ : (fromTsconfigs configs').nodes.get x = none := by
      by_contra some_
      obtain ⟨node,there⟩ := Option.ne_none_iff_exists'.mp some_
      obtain ⟨config',member,rfl,_⟩ := (get distinct' node).mp there
      have inside : config'.path ∈ configs.map (·.path) := by
        rw [(perm.map _).mem_iff,← paths]
        exact List.mem_map.mpr ⟨config',member,rfl⟩
      obtain ⟨config,member,same⟩ := List.mem_map.mp inside
      rw [(get distinct _).mpr ⟨config,member,same,rfl⟩] at found
      cases found
    rw [none_]
    exact ⟨rfl,fun _ => .rfl⟩
  | some node =>
    obtain ⟨config,member,rfl,rfl⟩ := (get distinct node).mp found
    obtain ⟨config',member',path,references⟩ := pairs config member
    rw [(get distinct' _).mpr ⟨config',member',path,rfl⟩]
    refine ⟨rfl,fun y => ?_⟩
    simp only [Option.elim_some,ReferenceNode.canonical,(sortedPerm _).mem_iff]
    exact references.mem_iff

/-- The order exists exactly when no references form a cycle; it takes every project after those it references and does
not depend on the order of projects or references. Otherwise a cycle is found. -/
theorem projectOrder {fuel : Nat} (enough : 2*g.nodes.length < fuel) :
    ((∃ order, g.topologicalOrder fuel = some (.ok order)) ↔ ¬∃ sequence, Cycle g.Next sequence) ∧
    (∀ order, g.topologicalOrder fuel = some (.ok order) → order.Perm g.keys ∧ DependenciesFirst g order ∧
      (∀ (g' : ReferenceGraph Path) fuel', 2*g'.nodes.length < fuel' → (∀ x, g'.contains x = g.contains x) → (∀ x y, g'.Next x y ↔ g.Next x y) →
        g'.topologicalOrder fuel' = some (.ok order)) ∧
      ∀ configs configs', (configs.map (·.path)).Nodup → Resupplied configs configs' → g = fromTsconfigs configs →
        ∀ fuel', 2*(fromTsconfigs configs').nodes.length < fuel' → (fromTsconfigs configs').topologicalOrder fuel' = some (.ok order)) ∧
    ((∃ sequence, Cycle g.Next sequence) → ∃ sequence, g.findCycle fuel = some (some sequence) ∧ Cycle g.Next sequence ∧
      g.topologicalOrder fuel = some (.error (.cycle sequence))) ∧
    g.topologicalOrder fuel ≠ some (.error .panicked) := by
  have cyclic : ∀ {g : ReferenceGraph Path} {fuel : Nat} {sequence : List Path}, g.findCycle fuel = some (some sequence) →
      g.topologicalOrder fuel = some (.error (.cycle sequence)) := by
    intro g fuel sequence found
    simp only [topologicalOrder,found]
    rfl
  -- Two graphs with the same edges have one order between them.
  have same : ∀ (order : List Path), g.topologicalOrder fuel = some (.ok order) → ∀ (g' : ReferenceGraph Path) fuel', 2*g'.nodes.length < fuel' →
      (∀ x, g'.contains x = g.contains x) → (∀ x y, g'.Next x y ↔ g.Next x y) → g'.topologicalOrder fuel' = some (.ok order) := by
    intro order ordered g' fuel' enough' nodes edges
    have nexts : g'.Next = g.Next := by
      funext x y
      exact propext (edges x y)
    rcases findCycleSpec enough with ⟨sequence,found,_⟩ | ⟨none_,done,acyclic⟩
    · rw [cyclic found] at ordered
      cases ordered
    · rcases findCycleSpec enough' with ⟨sequence,_,cycle⟩ | ⟨none',done',acyclic'⟩
      · rw [nexts] at cycle
        exact absurd cycle acyclic.noCycle
      · obtain ⟨order₁,first,least₁,all₁⟩ := topologicalOrderSpec acyclic enough none_
        obtain ⟨order₂,second,least₂,all₂⟩ := topologicalOrderSpec acyclic' enough' none'
        rw [ordered] at first
        cases first
        have keysSame : g'.keys = g.keys := by
          have perm := (List.perm_ext_iff_of_nodup (OrderedMap.keysNodup (m := g'.nodes)) (OrderedMap.keysNodup (m := g.nodes))).mpr fun x => by
            rw [OrderedMap.memKeys,OrderedMap.memKeys]
            exact Bool.eq_iff_iff.mp (nodes x)
          have rising : ∀ g : ReferenceGraph Path, g.keys.Pairwise (· < ·) := fun g => List.pairwise_map.mpr g.nodes.sorted
          exact perm.eq_of_pairwise (fun x y _ _ less more => absurd (lt_trans less more) (lt_irrefl _)) (rising g') (rising g)
        rw [nexts,keysSame] at least₂
        rw [keysSame] at all₂
        rw [second,least₂.unique least₁ all₂ all₁]
  refine ⟨?_,?_,?_,?_⟩
  · rcases findCycleSpec enough with ⟨sequence,found,cycle⟩ | ⟨none_,done,acyclic⟩
    · rw [cyclic found]
      exact ⟨fun ordered => (by obtain ⟨order,no⟩ := ordered; cases no),fun none_ => absurd ⟨sequence,cycle⟩ none_⟩
    · obtain ⟨order,ordered,_⟩ := topologicalOrderSpec acyclic enough none_
      refine ⟨fun _ => ?_,fun _ => ⟨order,ordered⟩⟩
      rintro ⟨sequence,cycle⟩
      exact acyclic.noCycle cycle
  · intro order ordered
    rcases findCycleSpec enough with ⟨sequence,found,_⟩ | ⟨none_,done,acyclic⟩
    · rw [cyclic found] at ordered
      cases ordered
    · obtain ⟨order',ordered',least,all⟩ := topologicalOrderSpec acyclic enough none_
      rw [ordered] at ordered'
      cases ordered'
      refine ⟨(List.perm_ext_iff_of_nodup least.nodup OrderedMap.keysNodup).mpr fun x => ⟨least.inside,all x⟩,?_,same order ordered,?_⟩
      · intro x y next
        obtain ⟨j,at_⟩ := List.mem_iff_getElem?.mp (all x (containsKeys.mp (nextKnown next)))
        obtain ⟨i,before,found⟩ := least.earlier at_ next
        exact ⟨i,j,before,found,at_⟩
      · rintro configs configs' distinct again rfl fuel' enough'
        refine same order ordered _ fuel' enough' (fun x => (resuppliedEdges distinct again x).1) fun x y => ?_
        rw [Next,Next,(resuppliedEdges distinct again y).1,(resuppliedEdges distinct again x).2]
  · rintro ⟨sequence,cycle⟩
    rcases findCycleSpec enough with ⟨sequence',found,cycle'⟩ | ⟨none_,done,acyclic⟩
    · exact ⟨sequence',found,cycle',cyclic found⟩
    · exact absurd cycle acyclic.noCycle
  · rcases findCycleSpec enough with ⟨sequence,found,_⟩ | ⟨none_,done,acyclic⟩
    · rw [cyclic found]
      exact nofun
    · obtain ⟨order,ordered,_⟩ := topologicalOrderSpec acyclic enough none_
      rw [ordered]
      exact nofun

def project (path : Nat) (references : List Nat) : ReferenceNode Nat := ⟨path,references,[],[],[],true,none,none,false,none⟩

def diamond : ReferenceGraph Nat := fromTsconfigs [project 0 [2,1,1],project 1 [3],project 2 [3,9],project 3 []]

theorem projectOrderDiamond : ∃ order, diamond.topologicalOrder 9 = some (.ok order) ∧ DependenciesFirst diamond order := by
  have ordered : diamond.topologicalOrder 9 = some (.ok [3,1,2,0]) := by decide
  exact ⟨_,ordered,((projectOrder (g := diamond) (by decide)).2.1 _ ordered).2.1⟩

end Bamts.Project.ReferenceGraph
