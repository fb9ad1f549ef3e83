import Bamts.RuntimePromiseAll

/-! What every run of Promise.all keeps: the record of an aggregate counts what its history still waits for, and
the capability is resolved when the history is complete. -/
set_option linter.all false
namespace Bamts.Runtime.PromiseAll
open Effect

def Stage.isOpen : Stage → Bool
  | .createIterator | .iteratorNext _ | .resolve .. | .getThen .. | .callThen .. => true
  | _ => false

structure History.Sound (h : History) : Prop where
  lawful : h.gathered.Lawful
  calls : h.callees.length = h.gathered.delivered.length
  callees : ∀ callee ∈ h.callees, callee = h.resolve

def Matches (h : History) : HeapEntry → Prop
  | .vacant => True
  | .promiseAll resolve _ values remaining settled => resolve = h.resolve ∧
    (settled = false → h.gathered.dropped = false ∧ h.gathered.delivered = [] ∧ h.gathered.Counted .undefined values remaining) ∧
    (settled = true → h.gathered.dropped = true ∨ h.gathered.delivered ≠ [])
  | _ => False

def Asks (histories : Value → Option History) (activation : Activation) : Prop :=
  ∃ h, histories activation.aggregate = some h ∧ h.resolve = activation.capabilityResolve ∧
    h.gathered.closed = false ∧ h.gathered.dropped = false

structure Inv (s : Running) : Prop where
  aggregates : ∀ v h, s.histories v = some h →
    h.Sound ∧ ∃ i, valueForHeapIndex i = some v ∧ i < s.machine.heap.length ∧ Matches h (s.machine.entry i)
  uncalled : ∀ i v k, s.machine.entry i = .promiseAllElement v k false →
    ∃ h, s.histories v = some h ∧ h.gathered.answers[k]? = some none
  apart : ∀ i j v k, s.machine.entry i = .promiseAllElement v k false → s.machine.entry j = .promiseAllElement v k false → i = j
  loops : ∀ (n : Nat) (activation : Activation) (stage : Stage), s.loops[n]? = some (activation,stage) → stage.isOpen = true → Asks s.histories activation
  alone : ∀ (m n : Nat) (a b : Activation) (x y : Stage), s.loops[m]? = some (a,x) → s.loops[n]? = some (b,y) → x.isOpen = true → y.isOpen = true →
    a.aggregate = b.aggregate → m = n

section entries

variable {heap extra : List HeapEntry} {i j : Nat} {e : HeapEntry} {m : Machine} {v : Value}

theorem entryHere (inside : i < heap.length) : (heap.set i e ++ extra).getD i .vacant = e := by
  rw [List.getD_eq_getElem?_getD,List.getElem?_append_left (by simpa using inside),List.getElem?_set_self inside]
  rfl

theorem entryOther (away : j ≠ i) (inside : j < heap.length) : (heap.set i e ++ extra).getD j .vacant = heap.getD j .vacant := by
  rw [List.getD_eq_getElem?_getD,List.getD_eq_getElem?_getD,List.getElem?_append_left (by simpa using inside),
    List.getElem?_set_ne (Ne.symm away)]

theorem entryOutside (outside : heap.length ≤ j) : heap.getD j .vacant = .vacant := by
  rw [List.getD_eq_getElem?_getD,List.getElem?_eq_none outside]
  rfl

theorem entryAppended (loose : ∀ x ∈ extra, isRecord x = false) (outside : heap.length ≤ j) :
    isRecord ((heap ++ extra).getD j .vacant) = false := by
  rw [List.getD_eq_getElem?_getD,List.getElem?_append_right outside]
  cases found : extra[j-heap.length]? with
  | none => rfl
  | some x => exact loose x (List.mem_of_getElem? found)

theorem looseOne (loose : isRecord e = false) : ∀ x ∈ [e], isRecord x = false := by
  intro x at_
  rw [List.mem_singleton.mp at_]
  exact loose

theorem indexInjective (left : valueForHeapIndex i = some v) (right : valueForHeapIndex j = some v) : i = j := by
  have small : ∀ k, valueForHeapIndex k = some v → k+1 < 2^32 := by
    intro k value
    unfold valueForHeapIndex at value
    split at value
    · assumption
    · cases value
  obtain ⟨x,valueX,_,slotX⟩ := valueForIndex (small i left)
  obtain ⟨y,valueY,_,slotY⟩ := valueForIndex (small j right)
  rw [valueX] at left
  rw [valueY] at right
  have same : Value.heapRef x = Value.heapRef y := (Option.some.inj left).trans (Option.some.inj right).symm
  have slots : (Value.heapRef x).decode = (Value.heapRef y).decode := congrArg Value.decode same
  rw [Value.decodeHeapRef,Value.decodeHeapRef] at slots
  cases slots
  omega

theorem slotVacant (value : valueForHeapIndex i = some v) (vacant : m.entry i = .vacant) : ∃ kind, m.slot v = .error (runtimeFault kind) := by
  have small : i+1 < 2^32 := by
    unfold valueForHeapIndex at value
    split at value
    · assumption
    · cases value
  obtain ⟨id,known,segment,slot⟩ := valueForIndex small
  rw [known] at value
  cases value
  have back : id.slot.toNat-1 = i := by omega
  have gone : m.heap[i]? = none ∨ m.heap[i]? = some .vacant := by
    rw [Machine.entry,List.getD_eq_getElem?_getD] at vacant
    cases found : m.heap[i]? with
    | none => exact Or.inl rfl
    | some e =>
      rw [found] at vacant
      exact Or.inr (congrArg some vacant)
  refine ⟨.invalidRuntimeHeapReference id.slot,?_⟩
  simp only [Machine.slot,Value.decodeHeapRef,segment,back,ne_eq,not_true,if_false]
  rcases gone with gone | gone
  · rw [gone]
    rfl
  · rw [gone]
    rfl

end entries

theorem matchesRecord {h e} (same : Matches h e) : isRecord e = true ∨ e.isVacant = true := by
  unfold Matches at same
  split at same
  · exact Or.inr rfl
  · exact Or.inl rfl
  · exact same.elim

theorem matchesElement {h e} (same : Matches h e) (v k called) : e ≠ .promiseAllElement v k called := by
  rintro rfl
  exact same

section

variable {s t : Running} {v : Value} {h h' : History} {i : Nat} {e : HeapEntry} {extra : List HeapEntry}

theorem Inv.change (inv : Inv s) (known : s.histories v = some h) (index : valueForHeapIndex i = some v)
    (heap : t.machine.heap = s.machine.heap.set i e ++ extra) (loose : ∀ x ∈ extra, isRecord x = false)
    (histories : ∀ u, t.histories u = if u = v then some h' else s.histories u) (loops : t.loops = s.loops) (sound : h'.Sound) (same : Matches h' e)
    (uncalled : ∀ j k, s.machine.entry j = .promiseAllElement v k false → h'.gathered.answers[k]? = some none)
    (asks : (h'.resolve = h.resolve ∧ h'.gathered.closed = h.gathered.closed ∧ h'.gathered.dropped = h.gathered.dropped) ∨
      ∀ (n : Nat) (activation : Activation) (stage : Stage), s.loops[n]? = some (activation,stage) → stage.isOpen = true → activation.aggregate ≠ v) : Inv t := by
  obtain ⟨_,i',index',inside,matched⟩ := inv.aggregates v h known
  cases indexInjective index index'
  have here : t.machine.entry i = e := by
    rw [Machine.entry,heap]
    exact entryHere inside
  have other : ∀ j, j ≠ i → j < s.machine.heap.length → t.machine.entry j = s.machine.entry j := by
    intro j away short
    rw [Machine.entry,heap]
    exact entryOther away short
  have outside : ∀ j, s.machine.heap.length ≤ j → isRecord (t.machine.entry j) = false := by
    intro j long
    rw [Machine.entry,heap]
    exact entryAppended loose (by simpa using long)
  have grows : s.machine.heap.length ≤ t.machine.heap.length := by
    rw [heap,List.length_append,List.length_set]
    exact Nat.le_add_right _ _
  have element : ∀ j u k, t.machine.entry j = .promiseAllElement u k false → s.machine.entry j = .promiseAllElement u k false := by
    intro j u k at_
    by_cases same_ : j = i
    · subst same_
      rw [here] at at_
      exact absurd at_ (matchesElement same u k false)
    · have short : j < s.machine.heap.length := by
        by_contra long
        have none := outside j (Nat.le_of_not_lt long)
        rw [at_] at none
        cases none
      rw [← other j same_ short]
      exact at_
  constructor
  · intro u g found
    rw [histories] at found
    split at found
    · rename_i same_
      cases found
      subst same_
      exact ⟨sound,i,index,Nat.lt_of_lt_of_le inside grows,here.symm ▸ same⟩
    · rename_i away
      obtain ⟨fine,j,indexJ,insideJ,matchedJ⟩ := inv.aggregates u g found
      have apart : j ≠ i := by
        rintro rfl
        exact away (Option.some.inj (indexJ.symm.trans index))
      exact ⟨fine,j,indexJ,Nat.lt_of_lt_of_le insideJ grows,(other j apart insideJ).symm ▸ matchedJ⟩
  · intro j u k at_
    have before := element j u k at_
    rw [histories]
    split
    · rename_i same_
      subst same_
      exact ⟨h',rfl,uncalled j k before⟩
    · exact inv.uncalled j u k before
  · intro j l u k first second
    exact inv.apart j l u k (element j u k first) (element l u k second)
  · intro n activation stage at_ open_
    rw [loops] at at_
    obtain ⟨g,found,resolve,closed,dropped⟩ := inv.loops n activation stage at_ open_
    unfold Asks
    rw [histories]
    split
    · rename_i same_
      rcases asks with kept | away
      · rw [same_,known] at found
        cases found
        exact ⟨h',rfl,kept.1.trans resolve,kept.2.1.trans closed,kept.2.2.trans dropped⟩
      · exact absurd same_ (away n activation stage at_ open_)
    · exact ⟨g,found,resolve,closed,dropped⟩
  · intro m n a b x y
    rw [loops]
    exact inv.alone m n a b x y

theorem Inv.aside (inv : Inv s) (aside : Elsewhere s.machine t.machine) (histories : t.histories = s.histories) (loops : t.loops = s.loops) : Inv t := by
  constructor
  · intro v h found
    rw [histories] at found
    obtain ⟨sound,i,index,inside,same⟩ := inv.aggregates v h found
    refine ⟨sound,i,index,Nat.lt_of_lt_of_le inside aside.grows,?_⟩
    rcases aside.swept i inside (matchesRecord same) with stays | gone
    · rw [stays]
      exact same
    · cases swept : t.machine.entry i with
      | vacant => trivial
      | _ =>
        rw [swept] at gone
        cases gone
  · intro i v k at_
    rw [histories]
    exact inv.uncalled i v k ((aside.records i (by rw [at_]; rfl)).symm.trans at_)
  · intro i j v k first second
    exact inv.apart i j v k ((aside.records i (by rw [first]; rfl)).symm.trans first) ((aside.records j (by rw [second]; rfl)).symm.trans second)
  · rw [loops,histories]
    exact inv.loops
  · rw [loops]
    exact inv.alone

theorem Elsewhere.same {m n} (heap : n.heap = m.heap) : Elsewhere m n := by
  have entry : ∀ i, n.entry i = m.entry i := by
    intro i
    rw [Machine.entry,Machine.entry,heap]
  exact ⟨heap ▸ Nat.le_refl _,fun i _ => entry i,fun i _ _ => Or.inl (entry i)⟩

theorem Elsewhere.append {m n} (heap : n.heap = m.heap ++ extra) (loose : ∀ x ∈ extra, isRecord x = false) : Elsewhere m n := by
  have inside : ∀ i, i < m.heap.length → n.entry i = m.entry i := by
    intro i short
    rw [Machine.entry,Machine.entry,heap,List.getD_eq_getElem?_getD,List.getD_eq_getElem?_getD,List.getElem?_append_left short]
  refine ⟨by rw [heap,List.length_append]; exact Nat.le_add_right _ _,fun i record => ?_,fun i short _ => Or.inl (inside i short)⟩
  by_contra different
  have long : m.heap.length ≤ i := Nat.le_of_not_lt fun short => different (inside i short)
  have none := entryAppended loose long
  rw [← heap] at none
  exact Bool.false_ne_true (none.symm.trans record)

theorem Inv.element (inv : Inv s) (known : s.histories v = some h) (k) (asked : h.gathered.answers[k]? = some none)
    (fresh : ∀ j, s.machine.entry j ≠ .promiseAllElement v k false)
    (heap : t.machine.heap = s.machine.heap ++ [HeapEntry.promiseAllElement v k false]) (histories : t.histories = s.histories) (loops : t.loops = s.loops) : Inv t := by
  have inside : ∀ i, i < s.machine.heap.length → t.machine.entry i = s.machine.entry i := by
    intro i short
    rw [Machine.entry,Machine.entry,heap,List.getD_eq_getElem?_getD,List.getD_eq_getElem?_getD,List.getElem?_append_left short]
  have last : t.machine.entry s.machine.heap.length = .promiseAllElement v k false := by
    rw [Machine.entry,heap,List.getD_eq_getElem?_getD,List.getElem?_append_right (Nat.le_refl _),Nat.sub_self]
    rfl
  have element : ∀ j u l, t.machine.entry j = .promiseAllElement u l false →
      s.machine.entry j = .promiseAllElement u l false ∨ j = s.machine.heap.length ∧ u = v ∧ l = k := by
    intro j u l at_
    rcases Nat.lt_trichotomy j s.machine.heap.length with short | same | long
    · exact Or.inl ((inside j short).symm.trans at_)
    · rw [same,last] at at_
      cases at_
      exact Or.inr ⟨same,rfl,rfl⟩
    · rw [Machine.entry,heap,entryOutside (by rw [List.length_append]; exact long)] at at_
      cases at_
  constructor
  · intro u g found
    rw [histories] at found
    obtain ⟨sound,i,index,short,same⟩ := inv.aggregates u g found
    exact ⟨sound,i,index,by rw [heap,List.length_append]; exact Nat.lt_of_lt_of_le short (Nat.le_add_right _ _),(inside i short).symm ▸ same⟩
  · intro j u l at_
    rw [histories]
    obtain before | ⟨_,rfl,rfl⟩ := element j u l at_
    · exact inv.uncalled j u l before
    · exact ⟨h,known,asked⟩
  · intro a b u l first second
    obtain left | ⟨placeA,nameA,numberA⟩ := element a u l first
    · obtain right | ⟨placeB,nameB,numberB⟩ := element b u l second
      · exact inv.apart a b u l left right
      · subst nameB numberB
        exact absurd left (fresh a)
    · obtain right | ⟨placeB,nameB,numberB⟩ := element b u l second
      · subst nameA numberA
        exact absurd right (fresh b)
      · exact placeA.trans placeB.symm
  · rw [loops,histories]
    exact inv.loops
  · rw [loops]
    exact inv.alone

theorem Inv.used (inv : Inv s) {k} (at_ : s.machine.entry i = .promiseAllElement v k false)
    (heap : t.machine.heap = s.machine.heap.set i (.promiseAllElement v k true)) (histories : t.histories = s.histories) (loops : t.loops = s.loops) :
    Inv t ∧ ∀ j, t.machine.entry j ≠ .promiseAllElement v k false := by
  have inside : i < s.machine.heap.length := by
    by_contra long
    rw [Machine.entry,entryOutside (Nat.le_of_not_lt long)] at at_
    cases at_
  have here : t.machine.entry i = .promiseAllElement v k true := by
    rw [Machine.entry,heap,← List.append_nil (s.machine.heap.set ..)]
    exact entryHere inside
  have other : ∀ j, j ≠ i → t.machine.entry j = s.machine.entry j := by
    intro j away
    rw [Machine.entry,Machine.entry,heap,List.getD_eq_getElem?_getD,List.getD_eq_getElem?_getD,List.getElem?_set_ne (Ne.symm away)]
  have element : ∀ j u l, t.machine.entry j = .promiseAllElement u l false → j ≠ i ∧ s.machine.entry j = .promiseAllElement u l false := by
    intro j u l found
    have away : j ≠ i := by
      rintro rfl
      rw [here] at found
      cases found
    exact ⟨away,(other j away).symm.trans found⟩
  constructor
  · constructor
    · intro u g found
      rw [histories] at found
      obtain ⟨sound,j,index,short,same⟩ := inv.aggregates u g found
      have away : j ≠ i := by
        rintro rfl
        exact matchesElement same v k false at_
      exact ⟨sound,j,index,by rwa [heap,List.length_set],(other j away).symm ▸ same⟩
    · intro j u l found
      rw [histories]
      exact inv.uncalled j u l (element j u l found).2
    · intro a b u l first second
      exact inv.apart a b u l (element a u l first).2 (element b u l second).2
    · rw [loops,histories]
      exact inv.loops
    · rw [loops]
      exact inv.alone
  · intro j found
    obtain ⟨away,before⟩ := element j v k found
    exact away (inv.apart j i v k before at_)

end

end Bamts.Runtime.PromiseAll
