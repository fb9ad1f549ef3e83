import Bamts.GraphOrder
import Bamts.ProjectGraph
import Mathlib.Data.List.Chain

/-! The search for a cycle among project references finds one whenever there is one. -/
set_option linter.all false
namespace Bamts.Project.ReferenceGraph
open GraphOrder

variable {Path : Type} [LinearOrder Path] (g : ReferenceGraph Path)

def Next (x y : Path) : Prop := y ∈ g.references x ∧ g.contains y = true

def Frames (done : List Path) : Option Path → List (Path × Nat) → Prop
  | _, [] => True
  | above, frame :: rest =>
    (∀ y ∈ (g.references frame.1).take frame.2, g.contains y = true → y ∈ done ∨ above = some y) ∧ Frames done (some frame.1) rest

structure Searching (done : List Path) (s : Search Path) : Prop where
  known : ∀ p, (s.state.get p).isSome = g.contains p
  finished : Finished g.Next done
  black : ∀ p, s.state.get p = some .black ↔ p ∈ done
  gray : ∀ p, s.state.get p = some .gray ↔ p ∈ s.path
  distinct : s.path.Nodup
  single : done.Nodup
  stacked : s.path = (s.stack.map Prod.fst).reverse
  chain : s.path.IsChain g.Next
  frames : Frames g done none s.stack

variable {g} {done : List Path} {s : Search Path}

theorem containsKeys {p} : g.contains p = true ↔ p ∈ g.keys := by rw [contains,keys,OrderedMap.memKeys]

theorem nextKnown {x y} (next : g.Next x y) : g.contains x = true := by
  obtain ⟨member,_⟩ := next
  unfold references at member
  unfold contains
  cases found : g.nodes.get x with
  | none =>
    rw [found] at member
    cases member
  | some node => rfl

theorem Frames.mono {done' above stack} (frames : Frames g done above stack) (more : ∀ y ∈ done, y ∈ done') : Frames g done' above stack := by
  induction stack generalizing above with
  | nil => trivial
  | cons frame rest ih => exact ⟨fun y member known => (frames.1 y member known).imp (more y) id,ih frames.2⟩

theorem Frames.lowered {x stack} (frames : Frames g done (some x) stack) : Frames g (x :: done) none stack := by
  cases stack with
  | nil => trivial
  | cons frame rest =>
    refine ⟨fun y member known => .inl ?_,frames.2.mono fun y inside => List.mem_cons_of_mem _ inside⟩
    rcases frames.1 y member known with old | same
    · exact List.mem_cons_of_mem _ old
    · cases same
      exact List.mem_cons_self

theorem Searching.bound (searching : Searching g done s) : s.path.length+done.length ≤ g.nodes.length := by
  have apart : (s.path ++ done).Nodup := by
    refine List.nodup_append.mpr ⟨searching.distinct,searching.single,?_⟩
    rintro x onPath y inDone rfl
    have gray := (searching.gray x).mpr onPath
    rw [(searching.black x).mpr inDone] at gray
    cases gray
  have inside : s.path ++ done ⊆ g.keys := by
    intro x member
    rw [← containsKeys,← searching.known]
    rcases List.mem_append.mp member with onPath | inDone
    · rw [(searching.gray x).mpr onPath]
      rfl
    · rw [(searching.black x).mpr inDone]
      rfl
  have short := apart.length_le_of_subset inside
  rw [List.length_append,keys,List.length_map] at short
  exact short

-- What a turn of the loop leads to: one project further down, or one project done.
structure Turned (g : ReferenceGraph Path) (done : List Path) (s : Search Path) (done' : List Path) (s' : Search Path) : Prop where
  searching : Searching g done' s'
  progress : s'.path.length+2*done'.length = s.path.length+2*done.length+1
  onward : ∀ y ∈ done, y ∈ done'
  left : ∀ y, s.state.get y ≠ some .white → s'.state.get y ≠ some .white

theorem finishTurns {current i stack} (searching : Searching g done s) (top : s.stack = (current,i) :: stack)
    (past : (g.references current).length ≤ i) :
    Turned g done s (current :: done)
      { s with
        stack := stack
        state := s.state.insert current .black
        path := if s.path.getLast? = some current then s.path.dropLast else s.path } := by
  have stacked := searching.stacked
  rw [top,List.map_cons,List.reverse_cons] at stacked
  have last : s.path.getLast? = some current := by rw [stacked,List.getLast?_append]; rfl
  have front : s.path.dropLast = (stack.map Prod.fst).reverse := by rw [stacked,List.dropLast_concat]
  have distinct := searching.distinct
  rw [stacked] at distinct
  obtain ⟨distinct,_,apart⟩ := List.nodup_append.mp distinct
  have here : current ∈ s.path := by rw [stacked]; simp
  have gray := (searching.gray current).mpr here
  have fresh : current ∉ done := fun inDone => by
    rw [(searching.black current).mpr inDone] at gray
    cases gray
  have frames := searching.frames
  rw [top] at frames
  have closed : ∀ y, g.Next current y → y ∈ done := by
    intro y next
    refine (frames.1 y ?_ next.2).resolve_right nofun
    rw [List.take_of_length_le past]
    exact next.1
  rw [if_pos last]
  refine ⟨⟨?_,.cons closed searching.finished,?_,?_,?_,?_,front,?_,frames.2.lowered⟩,?_,fun y inside => List.mem_cons_of_mem _ inside,?_⟩
  · intro p
    rw [OrderedMap.getInsert,← searching.known]
    split
    · rename_i same
      rw [same,gray]
      rfl
    · rfl
  · intro p
    rw [OrderedMap.getInsert,List.mem_cons]
    split
    · rename_i same
      exact ⟨fun _ => .inl same,fun _ => rfl⟩
    · rename_i other
      rw [searching.black,or_iff_right other]
  · intro p
    rw [OrderedMap.getInsert,front]
    split
    · rename_i same
      subst same
      exact ⟨nofun,fun again => absurd rfl (apart p again p (List.mem_singleton.mpr rfl))⟩
    · rename_i other
      rw [searching.gray,stacked,List.mem_append,List.mem_singleton,or_iff_left other]
  · rw [front]
    exact distinct
  · exact List.nodup_cons.mpr ⟨fresh,searching.single⟩
  · exact searching.chain.dropLast
  · have some_ : 0 < s.path.length := List.length_pos_of_mem here
    rw [List.length_dropLast,List.length_cons]
    omega
  · intro y seen
    rw [OrderedMap.getInsert]
    split
    · exact nofun
    · exact seen

theorem descendTurns {current target i stack} (searching : Searching g done s)
    (top : s.stack = (current,i) :: stack) (next : g.Next current target) (white : s.state.get target = some .white)
    {j} (looked : ∀ y ∈ (g.references current).take j, g.contains y = true → y ∈ done ∨ y = target) :
    Turned g done s done ⟨s.state.insert target .gray,s.path ++ [target],(target,0) :: (current,j) :: stack⟩ := by
  have stacked := searching.stacked
  have fresh : target ∉ s.path := fun onPath => by
    rw [(searching.gray target).mpr onPath] at white
    cases white
  have frames := searching.frames
  rw [top] at stacked frames
  refine ⟨⟨?_,searching.finished,?_,?_,?_,searching.single,?_,?_,?_,?_,frames.2⟩,?_,fun _ inside => inside,?_⟩
  · intro p
    rw [OrderedMap.getInsert,← searching.known]
    split
    · rename_i same
      rw [same,white]
      rfl
    · rfl
  · intro p
    rw [OrderedMap.getInsert,← searching.black]
    split
    · rename_i same
      rw [same,white]
      exact ⟨nofun,nofun⟩
    · rfl
  · intro p
    rw [OrderedMap.getInsert,List.mem_append,List.mem_singleton]
    split
    · rename_i same
      exact ⟨fun _ => .inr same,fun _ => rfl⟩
    · rename_i other
      rw [searching.gray,or_iff_left other]
  · refine List.nodup_append.mpr ⟨searching.distinct,List.nodup_singleton _,?_⟩
    rintro x onPath y single rfl
    exact fresh (List.mem_singleton.mp single ▸ onPath)
  · rw [stacked]
    simp
  · refine searching.chain.append (List.IsChain.singleton _) ?_
    rintro x last y head
    cases head
    rw [stacked,List.map_cons,List.reverse_cons,List.getLast?_append] at last
    cases last
    exact next
  · exact fun _ none_ => absurd none_ (by simp)
  · exact fun y member known => (looked y member known).imp id fun same => by rw [same]
  · rw [List.length_append,List.length_singleton]
    omega
  · intro y seen
    rw [OrderedMap.getInsert]
    split
    · exact nofun
    · exact seen

theorem grayCloses {current target i stack} (searching : Searching g done s)
    (top : s.stack = (current,i) :: stack) (next : g.Next current target) {index} (found : s.path.idxOf? target = some index) :
    Cycle g.Next (s.path.drop index ++ [target]) := by
  obtain ⟨inside,here,_⟩ := List.idxOf?_eq_some_iff.mp found
  have stacked := searching.stacked
  rw [top] at stacked
  have last : s.path.getLast? = some current := by
    rw [stacked,List.map_cons,List.reverse_cons,List.getLast?_append]
    rfl
  have start : (s.path.drop index).head? = some target := by rw [List.head?_drop,List.getElem?_eq_getElem inside,here]
  refine ⟨?_,?_,?_⟩
  · rw [List.length_append,List.length_drop,List.length_singleton]
    omega
  · rw [List.head?_append,start,List.getLast?_append]
    rfl
  · refine (searching.chain.drop index).append (List.IsChain.singleton _) ?_
    rintro x final y head
    cases head
    rw [List.getLast?_drop,if_neg (Nat.not_le_of_lt inside),last] at final
    cases final
    exact next

/-- One turn finds a cycle, goes one project down, or is done with one. -/
theorem scanTurns {current i stack} (searching : Searching g done s) (top : s.stack = (current,i) :: stack)
    {j rest} (ahead : (g.references current).drop j = rest) (looked : ∀ y ∈ (g.references current).take j, g.contains y = true → y ∈ done) :
    match scan { s with stack := stack } current rest j with
    | .ok s' => ∃ done', Turned g done s done' s'
    | .error sequence => Cycle g.Next sequence := by
  induction rest generalizing j with
  | nil =>
    have past : (g.references current).length ≤ j := List.drop_eq_nil_iff.mp ahead
    have moved : Searching g done { s with stack := (current,j) :: stack } := by
      refine { searching with stacked := ?_,frames := ?_ }
      · rw [searching.stacked,top]
        rfl
      · have frames := searching.frames
        rw [top] at frames
        exact ⟨fun y member known => .inl (looked y member known),frames.2⟩
    obtain ⟨after,progress,onward,left⟩ := finishTurns moved rfl past
    exact ⟨current :: done,after,progress,onward,left⟩
  | cons target rest ih =>
    have at_ : (g.references current)[j]? = some target := by
      have := congrArg List.head? ahead
      rwa [List.head?_drop] at this
    have later : (g.references current).drop (j+1) = rest := by
      rw [← List.tail_drop,ahead]
      rfl
    have member : target ∈ g.references current := List.mem_of_getElem? at_
    have known : ∀ visit, s.state.get target = some visit → g.Next current target := by
      intro visit found
      refine ⟨member,?_⟩
      rw [← searching.known,found]
      rfl
    have taken : ∀ y ∈ (g.references current).take (j+1), y ∈ (g.references current).take j ∨ y = target := by
      intro y inside
      rw [List.take_add_one,at_,List.mem_append] at inside
      exact inside.imp id fun single => List.mem_singleton.mp single
    have passed : (g.contains target = true → target ∈ done) → ∀ y ∈ (g.references current).take (j+1), g.contains y = true → y ∈ done := by
      intro settled y inside there
      rcases taken y inside with old | rfl
      · exact looked y old there
      · exact settled there
    unfold scan
    cases found : s.state.get target with
    | none =>
      refine ih later (passed fun there => ?_)
      rw [← searching.known,found] at there
      cases there
    | some visit => cases visit with
      | black => exact ih later (passed fun _ => (searching.black target).mp found)
      | white =>
        refine ⟨done,descendTurns searching top (known _ found) found fun y inside there => ?_⟩
        exact (taken y inside).imp (fun old => looked y old there) id
      | gray =>
        have onPath := (searching.gray target).mp found
        cases place : s.path.idxOf? target with
        | none => exact absurd onPath (List.idxOf?_eq_none_iff.mp place)
        | some index => exact grayCloses searching top (known _ found) place

structure Searched (g : ReferenceGraph Path) (done : List Path) (s : Search Path) (done' : List Path) (s' : Search Path) : Prop where
  searching : Searching g done' s'
  empty : s'.stack = []
  onward : ∀ y ∈ done, y ∈ done'
  left : ∀ y, s.state.get y ≠ some .white → s'.state.get y ≠ some .white

theorem searchSpec {fuel} (searching : Searching g done s) (enough : 2*g.nodes.length < fuel+s.path.length+2*done.length) :
    (∃ sequence, g.search fuel s = some (.error sequence) ∧ Cycle g.Next sequence) ∨
    ∃ done' s', g.search fuel s = some (.ok s') ∧ Searched g done s done' s' := by
  induction fuel generalizing done s with
  | zero =>
    have := searching.bound
    omega
  | succ fuel ih =>
    unfold search
    cases top : s.stack with
    | nil => exact .inr ⟨done,s,rfl,searching,top,fun _ inside => inside,fun _ seen => seen⟩
    | cons frame stack =>
      obtain ⟨current,i⟩ := frame
      have frames := searching.frames
      rw [top] at frames
      have turned := scanTurns searching top rfl fun y member known => (frames.1 y member known).resolve_right nofun
      dsimp only
      cases result : scan { s with stack := stack } current ((g.references current).drop i) i with
      | error sequence =>
        rw [result] at turned
        exact .inl ⟨sequence,rfl,turned⟩
      | ok next =>
        rw [result] at turned
        obtain ⟨done',after,progress,onward,left⟩ := turned
        refine (ih after (by omega)).imp id ?_
        rintro ⟨done'',s',ended,searched⟩
        exact ⟨done'',s',ended,searched.searching,searched.empty,fun y inside => searched.onward y (onward y inside),
          fun y seen => searched.left y (left y seen)⟩

theorem startSearching {start} (searching : Searching g done s) (empty : s.stack = []) (white : s.state.get start = some .white) :
    Searching g done ⟨s.state.insert start .gray,s.path ++ [start],(start,0) :: s.stack⟩ := by
  have stacked := searching.stacked
  rw [empty] at stacked
  have none_ : s.path = [] := stacked
  rw [none_,empty]
  refine ⟨?_,searching.finished,?_,?_,List.nodup_singleton _,searching.single,rfl,List.IsChain.singleton _,fun y member => ?_,trivial⟩
  · intro p
    rw [OrderedMap.getInsert,← searching.known]
    split
    · rename_i same
      rw [same,white]
      rfl
    · rfl
  · intro p
    rw [OrderedMap.getInsert,← searching.black]
    split
    · rename_i same
      rw [same,white]
      exact ⟨nofun,nofun⟩
    · rfl
  · intro p
    rw [OrderedMap.getInsert,List.nil_append,List.mem_singleton]
    split
    · rename_i same
      exact ⟨fun _ => same,fun _ => rfl⟩
    · rename_i other
      rw [searching.gray,none_]
      exact ⟨nofun,fun same => absurd same other⟩
  · cases member

theorem searchFromSpec {fuel} (enough : 2*g.nodes.length < fuel) {starts} (inside : ∀ x ∈ starts, g.contains x = true)
    (searching : Searching g done s) (empty : s.stack = []) :
    (∃ sequence, g.searchFrom fuel starts s = some (.error sequence) ∧ Cycle g.Next sequence) ∨
    ∃ done' s', g.searchFrom fuel starts s = some (.ok s') ∧ Searched g done s done' s' ∧ ∀ x ∈ starts, x ∈ done' := by
  induction starts generalizing done s with
  | nil => exact .inr ⟨done,s,rfl,⟨searching,empty,fun _ there => there,fun _ seen => seen⟩,nofun⟩
  | cons start rest ih =>
    have settled : ∀ {done' s'}, Searched g done s done' s' → s'.state.get start ≠ some .white → start ∈ done' := by
      intro done' s' searched seen
      have known := searched.searching.known start
      rw [inside start List.mem_cons_self] at known
      obtain ⟨visit,found⟩ := Option.isSome_iff_exists.mp known
      cases visit with
      | white => exact absurd found seen
      | black => exact (searched.searching.black start).mp found
      | gray =>
        have onPath := (searched.searching.gray start).mp found
        rw [searched.searching.stacked,searched.empty] at onPath
        cases onPath
    have next : ∀ {done' s'}, Searched g done s done' s' → start ∈ done' →
        (∃ sequence, g.searchFrom fuel rest s' = some (.error sequence) ∧ Cycle g.Next sequence) ∨
        ∃ done'' s'', g.searchFrom fuel rest s' = some (.ok s'') ∧ Searched g done s done'' s'' ∧ ∀ x ∈ start :: rest, x ∈ done'' := by
      intro done' s' searched here
      refine (ih (fun x member => inside x (List.mem_cons_of_mem _ member)) searched.searching searched.empty).imp id ?_
      rintro ⟨done'',s'',ended,later,all⟩
      refine ⟨done'',s'',ended,⟨later.searching,later.empty,fun y there => later.onward y (searched.onward y there),
        fun y seen => later.left y (searched.left y seen)⟩,fun x member => ?_⟩
      rcases List.mem_cons.mp member with rfl | tail
      · exact later.onward x here
      · exact all x tail
    unfold searchFrom
    split
    · rename_i white
      have begun := startSearching searching empty white
      have plenty : 2*g.nodes.length < fuel+(s.path ++ [start]).length+2*done.length := by omega
      rcases searchSpec begun plenty with ⟨sequence,ended,cycle⟩ | ⟨done',s',ended,searched⟩
      · rw [ended]
        exact .inl ⟨sequence,rfl,cycle⟩
      · rw [ended]
        have seen : s'.state.get start ≠ some .white := searched.left start (by rw [OrderedMap.getInsert,if_pos rfl]; exact nofun)
        have whole : Searched g done s done' s' := by
          refine ⟨searched.searching,searched.empty,searched.onward,fun y before => searched.left y ?_⟩
          rw [OrderedMap.getInsert]
          split
          · exact nofun
          · exact before
        exact next whole (settled whole seen)
    · rename_i seen
      have whole : Searched g done s done s := ⟨searching,empty,fun _ there => there,fun _ there => there⟩
      exact next whole (settled whole seen)

def Acyclic (g : ReferenceGraph Path) (done : List Path) : Prop := Finished g.Next done ∧ ∀ x, g.contains x = true ↔ x ∈ done

/-- The search ends with a cycle, or with all projects finished. -/
theorem findCycleSpec {fuel} (enough : 2*g.nodes.length < fuel) :
    (∃ sequence, g.findCycle fuel = some (some sequence) ∧ Cycle g.Next sequence) ∨
    (g.findCycle fuel = some none ∧ ∃ done, Acyclic g done) := by
  have start : Searching g [] ⟨g.nodes.map fun _ => .white,[],[]⟩ := by
    have white : ∀ p visit, (g.nodes.map fun _ => Visit.white).get p = some visit → visit = .white := by
      intro p visit found
      rw [OrderedMap.getMap] at found
      obtain ⟨_,_,same⟩ := Option.map_eq_some_iff.mp found
      exact same.symm
    refine ⟨?_,.nil,?_,?_,List.nodup_nil,List.nodup_nil,rfl,List.IsChain.nil,trivial⟩
    · intro p
      rw [OrderedMap.getMap,Option.isSome_map]
      rfl
    · exact fun p => ⟨fun found => (by cases white p _ found),nofun⟩
    · exact fun p => ⟨fun found => (by cases white p _ found),nofun⟩
  have inside : ∀ x ∈ g.keys, g.contains x = true := fun x member => containsKeys.mpr member
  rcases searchFromSpec enough inside start rfl with
    ⟨sequence,ended,cycle⟩ | ⟨done,s,ended,searched,all⟩
  · exact .inl ⟨sequence,by rw [findCycle,ended]; rfl,cycle⟩
  · refine .inr ⟨by rw [findCycle,ended]; rfl,done,searched.searching.finished,fun x => ⟨fun known => all x (containsKeys.mp known),?_⟩⟩
    intro inside
    rw [← searched.searching.known,(searched.searching.black x).mpr inside]
    rfl

theorem Acyclic.noCycle {done sequence} (acyclic : Acyclic g done) : ¬Cycle g.Next sequence :=
  acyclic.1.noCycle fun x _ next => (acyclic.2 x).mp (nextKnown next)

end Bamts.Project.ReferenceGraph
