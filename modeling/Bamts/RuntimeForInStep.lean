import Bamts.RuntimeForInView

/-! What one call of the iteration does: it walks the chain of objects as the layers of a walk, with the view of the moment
it starts. -/
set_option linter.all false
namespace Bamts.Runtime.ForIn
open Effect Bytecode Linkage LayerWalk

inductive Chain (m : Machine) : Option Value → List Nat → Prop
  | ends : Chain m none []
  | level {v : Value} {i : Nat} {next : Option Value} {rest : List Nat} : m.slot v = .ok (some i) → m.isProxyValue v = false →
    m.internalGetPrototypeOf v = .ok next → Chain m next rest → Chain m (some v) (i :: rest)

section
variable {m t u : Machine} {index i : Nat} {v : Value} {current : Option Value} {levels : List Nat} {s : ForInIteratorState}

theorem Chain.unique {other} (chain : Chain m current levels) (again : Chain m current other) : levels = other := by
  induction chain generalizing other with
  | ends =>
    cases again
    rfl
  | level there _ above _ ih =>
    cases again with
    | level there' _ above' rest' =>
      rw [there] at there'
      rw [above] at above'
      cases there'
      cases above'
      rw [ih rest']

theorem Chain.inside (chain : Chain m current levels) : ∀ i ∈ levels, i < m.heap.length := by
  induction chain with
  | ends => exact fun _ member => absurd member List.not_mem_nil
  | level there _ _ _ ih =>
    intro j member
    rcases List.mem_cons.mp member with rfl | member
    · exact (List.getElem?_eq_some_iff.mp (slotFound there).1).1
    · exact ih j member

theorem Chain.from (chain : Chain m current levels) : ∀ near far, levels = near ++ i :: far → ∃ v, m.slot v = .ok (some i) ∧ Chain m (some v) (i :: far) := by
  induction chain with
  | ends => exact fun near far parts => absurd parts.symm (List.append_ne_nil_of_right_ne_nil near (List.cons_ne_nil _ _))
  | @level v j next rest there direct above later ih =>
    intro near far parts
    cases near with
    | nil =>
      cases parts
      exact ⟨v,there,.level there direct above later⟩
    | cons first near =>
      cases parts
      exact ih near far rfl

theorem Chain.distinct (chain : Chain m current levels) : levels.Nodup := by
  induction chain with
  | ends => exact List.nodup_nil
  | @level v i next rest there direct above later ih =>
    refine List.nodup_cons.mpr ⟨fun again => ?_,ih⟩
    obtain ⟨near,far,parts⟩ := List.append_of_mem again
    obtain ⟨v',there',short⟩ := later.from near far parts
    obtain rfl := slotUnique there there'
    have same := congrArg List.length ((Chain.level there direct above later).unique short)
    rw [parts] at same
    simp only [List.length_cons,List.length_append] at same
    omega

theorem Chain.short (chain : Chain m current levels) : levels.length ≤ m.heap.length := by
  have below : levels ⊆ List.range m.heap.length := fun i member => List.mem_range.mpr (chain.inside i member)
  simpa using (chain.distinct.subperm below).length_le

theorem slotFree (free : m.slot v = .ok none) : t.slot v = .ok none := by
  unfold Machine.slot at free ⊢
  cases decoded : v.decode with
  | none =>
    rw [decoded] at free
    cases free
  | some d =>
    rw [decoded] at free
    cases d with
    | heapRef id =>
      dsimp only at free
      split at free
      · cases free
      · split at free
        · cases free
        · cases free
        · cases free
    | _ => rfl

theorem Beside.slots (beside : Beside index m t) {slot} (there : m.slot v = .ok slot) : t.slot v = .ok slot := by
  cases slot with
  | none => exact slotFree there
  | some i => exact beside.slot there

theorem Beside.prototype (beside : Beside index m t) (inside : i < m.heap.length) {above} (got : m.prototypeIndex i = .ok above) :
    t.prototypeIndex i = .ok above := by
  by_cases own : i = index
  · obtain ⟨before,after,old,now⟩ := beside.iterator
    unfold Machine.prototypeIndex at got ⊢
    rw [own,old] at got
    rw [own,now]
    exact got
  · have intrinsics : t.intrinsics = m.intrinsics := by rw [beside.only]
    unfold Machine.prototypeIndex at got ⊢
    rw [beside.entry inside own,intrinsics]
    dsimp only at got ⊢
    split at got
    · exact beside.slots got
    · exact got

theorem aboveKept (there : m.slot v = .ok (some i)) (later : t.slot v = .ok (some i)) (direct : t.isProxyValue v = m.isProxyValue v)
    (hops : ∀ above, m.prototypeIndex i = .ok above → t.prototypeIndex i = .ok above) {next}
    (got : m.internalGetPrototypeOf v = .ok next) : t.internalGetPrototypeOf v = .ok next := by
  unfold Machine.internalGetPrototypeOf at got ⊢
  rw [direct]
  split at got
  · cases got
  · rename_i plain
    rw [if_neg plain]
    simp only [there,bind,Except.bind] at got
    simp only [later,bind,Except.bind]
    cases above : m.prototypeIndex i with
    | error fault =>
      rw [above] at got
      cases got
    | ok found =>
      rw [above] at got
      rw [hops found above]
      exact got

theorem Beside.above (beside : Beside index m t) (there : m.slot v = .ok (some i)) {next}
    (got : m.internalGetPrototypeOf v = .ok next) : t.internalGetPrototypeOf v = .ok next :=
  aboveKept there (beside.slot there) (beside.proxy v)
    (fun _ => beside.prototype (List.getElem?_eq_some_iff.mp (slotFound there).1).1) got

theorem Chain.beside (chain : Chain m current levels) (beside : Beside index m t) : Chain t current levels := by
  induction chain with
  | ends => exact .ends
  | level there direct above _ ih => exact .level (beside.slot there) ((beside.proxy _).trans direct) (beside.above there above) ih

def At (index : Nat) (m : Machine) (s : ForInIteratorState) : Prop := m.heap[index]? = some (.iterator (.keys s))

theorem At.state (at_ : At index m s) : keysState m index = .ok s := by
  rw [keysState,Machine.entry,List.getD_eq_getElem?_getD,show m.heap[index]? = _ from at_]
  rfl

theorem At.iterates (at_ : At index m s) : ∃ state, m.heap[index]? = some (.iterator state) := ⟨_,at_⟩

theorem afterKeys (at_ : At index m s) {Q E} :
    After (lift (keysState m index)) m Q E ↔ Q s m := by
  rw [at_.state,afterLiftOk]

def moved (m : Machine) (index : Nat) (s : ForInIteratorState) : Machine := { m with heap := m.heap.set index (.iterator (.keys s)) }

theorem afterSetKeys {Q E} : After (setKeys index s) m Q E ↔ Q () (moved m index s) := Iff.rfl

theorem afterUpdateKeys (at_ : At index m s) {f Q E} :
    After (updateKeys index f) m Q E ↔ Q () (moved m index (f s)) := by
  simp only [updateKeys,afterBind,afterRead,afterKeys at_,afterSetKeys]

theorem At.moved (at_ : At index m s) (s') : At index (ForIn.moved m index s') s' :=
  List.getElem?_set_self (List.getElem?_eq_some_iff.mp at_).1

theorem At.beside (at_ : At index m s) (s') : Beside index m (ForIn.moved m index s') := .move at_.iterates (.keys s')

theorem At.refl (at_ : At index m s) : Beside index m m := .refl at_

theorem Still.at (kept : Still index m t) (at_ : At index m s) : At index t s := kept.same.trans at_

/- The names that are left of a level are taken as `pick` takes them; the induction is on the rounds, of which there is one for
every name and one to find none. -/
theorem namesSpec (there : m.slot v = .ok (some i)) (direct : m.isProxyValue v = false) {rounds} (enough : s.remaining.length < rounds)
    (at_ : At index m s) :
    After (forInNames index v rounds) m
      (fun found t => found = .of (pick (described m i) s.remaining s.visitedNames).found ∧ Beside index m t ∧
        At index t { s with
          remaining := (pick (described m i) s.remaining s.visitedNames).remaining
          visitedNames := (pick (described m i) s.remaining s.visitedNames).visited })
      (fun fault _ => ReadFault v fault) := by
  induction rounds generalizing m s with
  | zero => exact absurd enough (Nat.not_lt_zero _)
  | succ rounds ih =>
    have inside := (List.getElem?_eq_some_iff.mp (slotFound there).1).1
    unfold forInNames forInPopName
    simp only [afterBind,afterRead,afterKeys at_]
    cases left : s.remaining with
    | nil =>
      refine ⟨rfl,at_.refl,?_⟩
      rw [pick]
      rw [← left]
      exact at_
    | cons name rest =>
      rw [left,List.length_cons] at enough
      simp only [afterBind,afterSetKeys,afterPure,afterIte,decide_eq_true_eq]
      have now := at_.moved { s with remaining := rest }
      have beside := at_.beside { s with remaining := rest }
      have go : ∀ t s', Beside index m t → At index t s' → s'.remaining.length < rounds → After (forInNames index v rounds) t
          (fun found u => found = .of (pick (described m i) s'.remaining s'.visitedNames).found ∧ Beside index m u ∧
            At index u { s' with
              remaining := (pick (described m i) s'.remaining s'.visitedNames).remaining
              visitedNames := (pick (described m i) s'.remaining s'.visitedNames).visited })
          (fun fault _ => ReadFault v fault) := by
        intro t s' aside here less
        have same : described t i = described m i := funext fun name => aside.described inside name
        have later := ih (aside.slot there) ((aside.proxy v).trans direct) less here
        rw [same] at later
        exact later.mono (fun _ _ done => ⟨done.1,aside.trans done.2.1,done.2.2⟩) fun _ _ failed => failed
      unfold pick
      refine ⟨fun old => ?_,fun new => ?_⟩
      · rw [if_pos old]
        exact go _ _ beside now (Nat.succ_lt_succ_iff.mp enough)
      · rw [if_neg new]
        refine (getOwnPropertyShape now.iterates (beside.slot there) ((beside.proxy v).trans direct) name).mono ?_ fun _ _ failed => failed
        intro d t read
        have aside : Beside index m t := beside.trans read.2.beside
        have here : At index t { s with remaining := rest } := read.2.at now
        have look := read.1
        rw [beside.described inside] at look
        cases d with
        | none =>
          cases known : described m i name with
          | none => exact go _ _ aside here (Nat.succ_lt_succ_iff.mp enough)
          | some enumerable =>
            rw [known] at look
            cases look
        | some descriptor =>
          cases known : described m i name with
          | none =>
            rw [known] at look
            cases look
          | some enumerable =>
            rw [known] at look
            have flag : descriptor.enumerable = some enumerable := Option.some.inj look
            have kept := here.moved { s with remaining := rest,visitedNames := name :: s.visitedNames }
            have moved_ := aside.trans (here.beside { s with remaining := rest,visitedNames := name :: s.visitedNames })
            simp only [flag,Option.some.injEq,afterIte,afterBind,forInRecordName,afterUpdateKeys here,afterPure]
            cases enumerable with
            | true => exact ⟨fun _ => ⟨rfl,moved_,kept⟩,fun no => absurd rfl no⟩
            | false => exact ⟨fun no => (by cases no),fun _ => go _ _ moved_ kept (Nat.succ_lt_succ_iff.mp enough)⟩

structure Stands (index : Nat) (m : Machine) (s : ForInIteratorState) (levels : List Nat) : Prop where
  at_ : At index m s
  chain : Chain m s.current levels
  unvisited : ∀ o ∈ s.visitedObjects, o ∉ if s.objectWasVisited then levels.tail else levels
  idle : s.objectWasVisited = false → s.remaining = []
  over_ : levels = [] → s.objectWasVisited = false

def cursor (s : ForInIteratorState) (levels : List Nat) : Cursor Nat EcmaString := ⟨levels,s.objectWasVisited,s.remaining,s.visitedNames⟩

structure Entered (index : Nat) (m : Machine) (s : ForInIteratorState) (v : Value) (rest : List Nat) (names visited : List EcmaString) : Prop where
  at_ : At index m s
  current : s.current = some v
  entered : s.objectWasVisited = true
  unvisited : ∀ o ∈ s.visitedObjects, o ∉ rest
  remaining : s.remaining = names
  visited : s.visitedNames = visited

theorem enterSpec {rest} (stands : Stands index m s (i :: rest)) (here : s.current = some v) (there : m.slot v = .ok (some i))
    (direct : m.isProxyValue v = false) :
    After (forInEnterLevel index v) m
      (fun entered t => entered = true ∧ Beside index m t ∧ ∃ s', Entered index t s' v rest ((cursor s (i :: rest)).pending (view m)) s.visitedNames)
      (fun fault _ => ReadFault v fault) := by
  have at_ := stands.at_
  have unvisited := stands.unvisited
  have inside := (List.getElem?_eq_some_iff.mp (slotFound there).1).1
  unfold forInEnterLevel
  simp only [afterBind,afterRead,afterKeys at_]
  rw [afterIte]
  refine ⟨fun entered => ?_,fun idle => ?_⟩
  · rw [if_pos entered] at unvisited
    exact ⟨rfl,at_.refl,s,at_,here,entered,unvisited,(if_pos entered).symm,rfl⟩
  · rw [if_neg idle] at unvisited
    have new : i ∉ s.visitedObjects := fun old => unvisited i old List.mem_cons_self
    simp only [afterBind,afterSlotAt there,if_neg new,afterSetKeys]
    have now := at_.moved { s with visitedObjects := i :: s.visitedObjects }
    have beside := at_.beside { s with visitedObjects := i :: s.visitedObjects }
    have direct' := (beside.proxy v).trans direct
    unfold internalOwnPropertyKeys
    simp only [afterBind,afterRead,direct',Bool.false_eq_true,if_false]
    cases listed : (moved m index { s with visitedObjects := i :: s.visitedObjects }).ownKeys v with
    | error fault => exact .inl ⟨_,listed⟩
    | ok keys =>
      rw [afterLiftOk,afterUpdateKeys now,afterPure]
      have shown := (ownKeysNames (beside.slot there) listed).trans (beside.names inside)
      refine ⟨rfl,beside.trans (now.beside _),_,now.moved _,here,rfl,fun o member again => ?_,?_,rfl⟩
      · rcases List.mem_cons.mp member with rfl | member
        · exact (List.nodup_cons.mp stands.chain.distinct).1 again
        · exact unvisited o member (List.mem_cons_of_mem _ again)
      · have pending : (cursor s (i :: rest)).pending (view m) = names m i := if_neg idle
        exact shown.trans pending.symm

theorem Stands.first {rest} (stands : Stands index m s (i :: rest)) :
    ∃ v next, s.current = some v ∧ m.slot v = .ok (some i) ∧ m.isProxyValue v = false ∧ m.internalGetPrototypeOf v = .ok next ∧ Chain m next rest := by
  have chain := stands.chain
  generalize current : s.current = at_ at chain
  cases chain with
  | level there direct above later => exact ⟨_,_,rfl,there,direct,above,later⟩

theorem viewSame (beside : Beside index m t) {c} (inside : ∀ i ∈ c.layers, i < m.heap.length) :
    next (view t) c = next (view m) c :=
  nextSame (fun i member => beside.names (inside i member)) fun i member => funext fun name => beside.described (inside i member) name

def LevelFault (levels : List Nat) (fault : Fault) : Prop := ∃ v i, place v = some i ∧ i ∈ levels ∧ ReadFault v fault

theorem LevelFault.among {more fault} (failed : LevelFault levels fault) (part : levels ⊆ more) : LevelFault more fault := by
  obtain ⟨v,j,at_,member,read⟩ := failed
  exact ⟨v,j,at_,part member,read⟩

/- A call walks the levels as `next` does; the induction is on the rounds, of which there is one for every level and one past
the last. -/
theorem levelsSpec {rounds} (stands : Stands index m s levels) (enough : levels.length < rounds) :
    After (forInLevels index rounds) m
      (fun found t => found = .of (next (view m) (cursor s levels)).1 ∧ Beside index m t ∧ ∃ s',
        Stands index t s' (next (view m) (cursor s levels)).2.layers ∧
        cursor s' (next (view m) (cursor s levels)).2.layers = (next (view m) (cursor s levels)).2)
      (fun fault _ => LevelFault levels fault) := by
  induction rounds generalizing m s levels with
  | zero => exact absurd enough (Nat.not_lt_zero _)
  | succ rounds ih =>
    have at_ := stands.at_
    unfold forInLevels forInCurrent
    simp only [afterBind,afterRead,afterKeys at_,afterPure]
    cases levels with
    | nil =>
      have chain := stands.chain
      generalize current : s.current = none_ at chain
      cases chain
      have idle := stands.over_ rfl
      refine ⟨rfl,at_.refl,s,stands,?_⟩
      show cursor s [] = ⟨[],false,[],s.visitedNames⟩
      rw [cursor,idle,stands.idle idle]
    | cons i rest =>
      obtain ⟨v,above,here,there,direct,prototype,later⟩ := stands.first
      have inside := (List.getElem?_eq_some_iff.mp (slotFound there).1).1
      have failing : ∀ fault, ReadFault v fault → LevelFault (i :: rest) fault :=
        fun fault read => ⟨v,i,(slotPlace.mp there).1,List.mem_cons_self,read⟩
      rw [here]
      rw [afterBind]
      refine (enterSpec stands here there direct).mono (fun entered t done => ?_) fun fault _ read => failing fault read
      obtain ⟨rfl,beside,s',inner⟩ := done
      simp only [if_true,remainingNames,afterBind,afterRead,afterKeys inner.at_,afterPure]
      refine (namesSpec (beside.slot there) ((beside.proxy v).trans direct) (Nat.lt_succ_self _) inner.at_).mono (fun found u taken => ?_)
        fun fault _ read => failing fault read
      have same : described t i = described m i := funext fun name => beside.described inside name
      rw [same,inner.remaining,inner.visited] at taken
      obtain ⟨result,aside,now⟩ := taken
      have beside := beside.trans aside
      unfold next
      cases stop : (pick (described m i) ((cursor s (i :: rest)).pending (view m)) s.visitedNames).found with
      | some name =>
        rw [stop] at result
        subst result
        rw [show (cursor s (i :: rest)).layers = i :: rest from rfl,walkStop stop]
        refine ⟨rfl,beside,_,⟨now,?_,fun o member => ?_,fun idle => ?_,fun empty => (by cases empty)⟩,?_⟩
        · dsimp only
          rw [inner.current]
          exact (Chain.level there direct prototype later).beside beside
        · dsimp only at member ⊢
          rw [if_pos inner.entered]
          exact inner.unvisited o member
        · exact absurd (inner.entered.symm.trans idle) (by decide)
        · rw [cursor]
          rw [inner.entered]
          rfl
      | none =>
        rw [stop] at result
        subst result
        have over_ := (pickSpec (described m i) _ _).done stop
        rw [show (cursor s (i :: rest)).layers = i :: rest from rfl,walkOn stop]
        simp only [Turn.of,afterBind,afterRead,beside.above there prototype,afterLiftOk,afterUpdateKeys now]
        have kept := now.moved { s' with
          current := above
          objectWasVisited := false
          remaining := []
          visitedNames := (pick (described m i) ((cursor s (i :: rest)).pending (view m)) s.visitedNames).visited }
        rw [over_] at now ⊢
        have beside := beside.trans (now.beside { s' with
          current := above
          objectWasVisited := false
          remaining := []
          visitedNames := (pick (described m i) ((cursor s (i :: rest)).pending (view m)) s.visitedNames).visited })
        have stands' : Stands index _ _ rest := ⟨kept,later.beside beside,inner.unvisited,fun _ => rfl,fun _ => rfl⟩
        refine (ih stands' (Nat.succ_lt_succ_iff.mp enough)).mono (fun found t done => ?_) fun _ _ failed => failed.among (List.subset_cons_self _ _)
        have level : ∀ j ∈ rest, j < m.heap.length := fun j member => stands.chain.inside j (List.mem_cons_of_mem _ member)
        rw [viewSame beside level] at done
        exact ⟨done.1,beside.trans done.2.1,done.2.2⟩

theorem forInNextSpec (stands : Stands index m s levels) :
    After (forInNext index) m
      (fun found t => found = .of (next (view m) (cursor s levels)).1 ∧ Beside index m t ∧ ∃ s',
        Stands index t s' (next (view m) (cursor s levels)).2.layers ∧
        cursor s' (next (view m) (cursor s levels)).2.layers = (next (view m) (cursor s levels)).2)
      (fun fault _ => LevelFault levels fault) := by
  exact levelsSpec stands (Nat.lt_succ_of_le stands.chain.short)

end

end Bamts.Runtime.ForIn
