import Bamts.RuntimeArray
import Bamts.RuntimeBoxing
import Bamts.RuntimeSolvent
import Bamts.RuntimeSpread

/-! Where a search through an array starts, and what it finds from there on or back from there. -/
set_option linter.all false
namespace Bamts.Runtime
open Effect Binary64

-- `n >= len as f64` and `n < -(len as f64)`
def IntegerOrInfinity.reaches : IntegerOrInfinity → Nat → Bool
  | .finite z, length => decide ((length : Int) ≤ z)
  | .infinite negative, _ => !negative

def IntegerOrInfinity.precedes : IntegerOrInfinity → Nat → Bool
  | .finite z, length => decide (z < -(length : Int))
  | .infinite negative, _ => negative

def startIndex (n : IntegerOrInfinity) (length : Nat) (reverse : Bool) : Option Nat :=
  if n.reaches length then none
  else if n.precedes length then if !reverse && 0 < length then some 0 else none
  else match n with
    | .finite z => some (if z < 0 then (length+z).toNat else z.toNat)
    | .infinite _ => none

def Machine.fromIndex (m : Machine) (arg : Option Value) (length : Nat) (reverse : Bool) : Except Fault (Option Nat) :=
  match arg with
  | none => .ok (if 0 < length then some (if reverse then length-1 else 0) else none)
  | some value => do
    let n ← m.toIntegerOrInfinity value
    .ok (startIndex n length reverse)

def Machine.meets (m : Machine) (needle value : Value) : Bool := value != .hole && m.strictEqual value needle

def notFound : Value := numberValue (.ofInt (-1))

def foundValue (found : Option Nat) : Value := (found.map lengthValue).getD notFound

def indexOf (this : Value) (args : List Value) : Exec Value := do
  let values ← arrayElements this
  let m ← read
  let needle := args.head?.getD .undefined
  let start ← lift (m.fromIndex args[1]? values.length false)
  let found := start.bind fun start => ((values.zipIdx.drop start).find? fun item => m.meets needle item.1).map Prod.snd
  pure (foundValue found)

def lastIndexOf (this : Value) (args : List Value) : Exec Value := do
  let values ← arrayElements this
  let m ← read
  let needle := args.head?.getD .undefined
  let start ← lift (m.fromIndex args[1]? values.length true)
  let found := start.bind fun start => (List.range (start+1)).reverse.find? fun i => values[i]?.any (m.meets needle)
  pure (foundValue found)

def Machine.Meets (m : Machine) (values : List Value) (needle : Value) (i : Nat) : Prop := ∃ value, values[i]? = some value ∧ m.meets needle value = true

-- `i >= max(0, n if n >= 0 else length + n)`
def IntegerOrInfinity.AtLeast : IntegerOrInfinity → Nat → Nat → Prop
  | .finite z, length, i => max 0 (if 0 ≤ z then z else length+z) ≤ (i : Int)
  | .infinite negative, _, _ => negative = true

-- `i <= (min(n, length-1) if n >= 0 else length + n)`
def IntegerOrInfinity.AtMost : IntegerOrInfinity → Nat → Nat → Prop
  | .finite z, length, i => (i : Int) ≤ if 0 ≤ z then min z (length-1) else length+z
  | .infinite negative, length, i => negative = false ∧ (i : Int) ≤ length-1

-- The answer is the best of the indices that fit, and it is `-1` when none does.
def Picks (fits : Nat → Prop) (best : Nat → Nat → Prop) (answer : Value) : Prop :=
  (∀ i, fits i → (∀ j, fits j → best i j) → answer = lengthValue i) ∧ (answer = notFound ↔ ∀ i, ¬fits i)

def FirstFound (m : Machine) (values : List Value) (needle : Value) (n : IntegerOrInfinity) : Value → Prop :=
  Picks (fun i => m.Meets values needle i ∧ n.AtLeast values.length i) (· ≤ ·)

def LastFound (m : Machine) (values : List Value) (needle : Value) (n : IntegerOrInfinity) : Value → Prop :=
  Picks (fun i => m.Meets values needle i ∧ n.AtMost values.length i) (· ≥ ·)

theorem belowNegative {x : Double} {z} (whole : x.toInt = some z) (below : z < 0) : x.negative = true := by
  have sign := (Double.toIntCases whole).2.2
  cases negative : x.negative with
  | true => rfl
  | false =>
    rw [negative,if_neg Bool.false_ne_true] at sign
    omega

theorem lengthFound (i) : lengthValue i ≠ notFound := by
  intro same
  have whole : (Double.ofInt (-1)).toInt = some (-1) := Double.toIntOfInt (by decide)
  have plain := Double.plainOfInt whole
  have minus := belowNegative whole (by decide)
  have sign := Double.ofNatSign i
  have kept : ReadsBack (.ofNat i) (lengthValue i) := (numberKept _).mpr fun zero => by
    rw [zero] at sign
    exact absurd sign (by decide)
  have keptNone : ReadsBack (.ofInt (-1)) notFound := (numberKept _).mpr fun zero => by
    rw [zero,Double.toIntOfZero (by decide)] at whole
    cases whole
  obtain ⟨back,read,first⟩ := kept
  obtain ⟨back',read',second⟩ := keptNone
  rw [same,read'] at read
  rw [← Option.some.inj read] at first
  obtain nan | number := second
  · exact absurd (plain.symm.trans nan.2) Bool.false_ne_true
  · rw [number] at first
    obtain nan | equal := first
    · exact absurd (plain.symm.trans nan.1) Bool.false_ne_true
    · rw [← equal,minus] at sign
      cases sign

section
variable {fits : Nat → Prop} {best : Nat → Nat → Prop}

theorem noneFound : foundValue none = notFound := by
  rw [foundValue,Option.map_none,Option.getD_none]

theorem picksFound {i} (fit : fits i) (chosen : ∀ j, fits j → best i j) (unique : ∀ j, best i j → best j i → j = i) :
    Picks fits best (foundValue (some i)) :=
  ⟨fun j other better => congrArg lengthValue (unique j (chosen j other) (better i fit)).symm,
    iff_of_false (lengthFound i) fun none => none i fit⟩

theorem picksNone (absent : ∀ i, ¬fits i) : Picks fits best (foundValue none) :=
  ⟨fun i fit _ => absurd fit (absent i),iff_of_true noneFound absent⟩

end

section
variable {m : Machine} {values : List Value} {needle : Value} {start : Nat}

theorem meetsAny {i} : (values[i]?.any (m.meets needle)) = true ↔ m.Meets values needle i := by
  simp only [Option.any_eq_true,Machine.Meets]

theorem picksFirst :
    Picks (fun i => m.Meets values needle i ∧ start ≤ i) (· ≤ ·)
      (foundValue (((values.zipIdx.drop start).find? fun item => m.meets needle item.1).map Prod.snd)) := by
  have item : ∀ k, (values.zipIdx.drop start)[k]? = values[start+k]?.map fun value => (value,start+k) := by
    intro k
    rw [List.getElem?_drop,List.getElem?_zipIdx,Nat.zero_add]
  cases found : (values.zipIdx.drop start).find? fun item => m.meets needle item.1 with
  | none =>
    refine picksNone fun i fit => ?_
    obtain ⟨⟨value,there,met⟩,after⟩ := fit
    have listed : (value,i) ∈ values.zipIdx.drop start := by
      refine List.mem_of_getElem? (i := i-start) ?_
      rw [item,Nat.add_sub_cancel' after,there,Option.map_some]
    exact List.find?_eq_none.mp found _ listed met
  | some entry =>
    obtain ⟨met,k,small,here,before⟩ := List.find?_eq_some_iff_getElem.mp found
    have place := item k
    rw [List.getElem?_eq_getElem small,here] at place
    obtain ⟨value,there,same⟩ := Option.map_eq_some_iff.mp place.symm
    rw [← same] at met ⊢
    refine picksFound ⟨⟨value,there,met⟩,Nat.le_add_right _ _⟩ (fun j fit => ?_) fun i less more => Nat.le_antisymm more less
    obtain ⟨⟨other,at_,meets⟩,after⟩ := fit
    by_contra early
    have less : j-start < k := by omega
    have passed := before (j-start) less
    have otherItem := item (j-start)
    rw [Nat.add_sub_cancel' after,at_,Option.map_some,List.getElem?_eq_getElem (less.trans small)] at otherItem
    rw [Option.some.inj otherItem,meets] at passed
    cases passed

theorem picksLast :
    Picks (fun i => m.Meets values needle i ∧ i ≤ start) (· ≥ ·)
      (foundValue ((List.range (start+1)).reverse.find? fun i => values[i]?.any (m.meets needle))) := by
  cases found : (List.range (start+1)).reverse.find? fun i => values[i]?.any (m.meets needle) with
  | none =>
    refine picksNone fun i fit => ?_
    have listed : i ∈ (List.range (start+1)).reverse := List.mem_reverse.mpr (List.mem_range.mpr (Nat.lt_succ_of_le fit.2))
    exact List.find?_eq_none.mp found i listed (meetsAny.mpr fit.1)
  | some i =>
    obtain ⟨met,before,after,split,passed⟩ := List.find?_eq_some_iff_append.mp found
    have listed : i ∈ (List.range (start+1)).reverse := List.mem_of_find?_eq_some found
    refine picksFound ⟨meetsAny.mp met,Nat.le_of_lt_succ (List.mem_range.mp (List.mem_reverse.mp listed))⟩ (fun j fit => ?_)
      fun j more less => Nat.le_antisymm more less
    have there : j ∈ (List.range (start+1)).reverse := List.mem_reverse.mpr (List.mem_range.mpr (Nat.lt_succ_of_le fit.2))
    have falling : (List.range (start+1)).reverse.Pairwise (· > ·) := List.pairwise_reverse.mpr List.pairwise_lt_range
    rw [split] at there falling
    obtain early | late := List.mem_append.mp there
    · have skipped := passed j early
      rw [meetsAny.mpr fit.1] at skipped
      cases skipped
    · obtain same | less := List.mem_cons.mp late
      · exact Nat.le_of_eq same
      · exact Nat.le_of_lt ((List.pairwise_cons.mp (List.pairwise_append.mp falling).2.1).1 j less)

theorem Machine.Meets.inside {i} (met : m.Meets values needle i) : i < values.length := by
  obtain ⟨value,there,_⟩ := met
  exact (List.getElem?_eq_some_iff.mp there).1

theorem picksSame {fits fits' best answer} (same : ∀ i, fits i ↔ fits' i) (picks : Picks fits best answer) : Picks fits' best answer :=
  ⟨fun i fit better => picks.1 i ((same i).mpr fit) fun j other => better j ((same j).mp other),
    picks.2.trans (forall_congr' fun i => not_congr (same i))⟩

theorem firstStart {n length i} (inside : i < length) :
    n.AtLeast length i ↔ ∃ start, startIndex n length false = some start ∧ start ≤ i := by
  cases n with
  | infinite negative => cases negative with
    | true =>
      have some : 0 < length := Nat.zero_lt_of_lt inside
      simp [startIndex,IntegerOrInfinity.AtLeast,IntegerOrInfinity.reaches,IntegerOrInfinity.precedes,some]
    | false => simp [startIndex,IntegerOrInfinity.AtLeast,IntegerOrInfinity.reaches]
  | finite z =>
    simp only [startIndex,IntegerOrInfinity.AtLeast,IntegerOrInfinity.reaches,IntegerOrInfinity.precedes,decide_eq_true_eq,Bool.not_false,Bool.true_and]
    by_cases beyond : (length : Int) ≤ z
    · rw [if_pos beyond,if_pos (by omega)]
      refine iff_of_false (by omega) fun found => ?_
      obtain ⟨_,none,_⟩ := found
      cases none
    rw [if_neg beyond]
    by_cases before : z < -(length : Int)
    · rw [if_pos before,if_pos (Nat.zero_lt_of_lt inside),if_neg (by omega)]
      simp only [Option.some.injEq,exists_eq_left']
      omega
    · rw [if_neg before]
      simp only [Option.some.injEq,exists_eq_left']
      by_cases back : z < 0
      · rw [if_pos back,if_neg (by omega)]
        omega
      · rw [if_neg back,if_pos (by omega)]
        omega

theorem lastStart {n length i} (before : n.reaches length = false) :
    n.AtMost length i ↔ ∃ start, startIndex n length true = some start ∧ i ≤ start := by
  cases n with
  | infinite negative => cases negative with
    | true => simp [startIndex,IntegerOrInfinity.AtMost,IntegerOrInfinity.reaches,IntegerOrInfinity.precedes]
    | false => cases before
  | finite z =>
    simp only [startIndex,before,IntegerOrInfinity.AtMost,IntegerOrInfinity.precedes,decide_eq_true_eq,Bool.not_true,Bool.false_and,Bool.false_eq_true,if_false]
    simp only [IntegerOrInfinity.reaches,decide_eq_false_iff_not] at before
    by_cases early : z < -(length : Int)
    · rw [if_pos early,if_neg (by omega)]
      refine iff_of_false (by omega) fun found => ?_
      obtain ⟨_,none,_⟩ := found
      cases none
    · rw [if_neg early]
      simp only [Option.some.injEq,exists_eq_left']
      by_cases back : z < 0
      · rw [if_pos back,if_neg (by omega)]
        omega
      · rw [if_neg back,if_pos (by omega)]
        omega

theorem searchedFirst (n) : FirstFound m values needle n (foundValue ((startIndex n values.length false).bind fun start =>
    ((values.zipIdx.drop start).find? fun item => m.meets needle item.1).map Prod.snd)) := by
  cases start : startIndex n values.length false with
  | none =>
    refine picksNone fun i fit => ?_
    obtain ⟨_,found,_⟩ := (firstStart fit.1.inside).mp fit.2
    rw [start] at found
    cases found
  | some first =>
    refine picksSame (fun i => and_congr_right fun met => ?_) picksFirst
    rw [firstStart met.inside,start]
    simp

theorem searchedLast (n) : LastFound m values needle n (foundValue ((startIndex n values.length true).bind fun start =>
    (List.range (start+1)).reverse.find? fun i => values[i]?.any (m.meets needle))) ↔
      (n.reaches values.length = true → ∀ i, ¬m.Meets values needle i) := by
  cases reaches : n.reaches values.length with
  | true =>
    have start : startIndex n values.length true = none := if_pos reaches
    have fits : ∀ i, m.Meets values needle i → n.AtMost values.length i := by
      intro i met
      have inside := met.inside
      cases n with
      | infinite negative =>
        cases negative with
        | true => cases reaches
        | false => exact ⟨rfl,by omega⟩
      | finite z =>
        have far : (values.length : Int) ≤ z := of_decide_eq_true reaches
        rw [IntegerOrInfinity.AtMost,if_pos (by omega)]
        omega
    rw [start]
    constructor
    · intro found _ i met
      exact found.2.mp noneFound i ⟨met,fits i met⟩
    · intro absent
      exact picksNone fun i fit => absent rfl i fit.1
  | false =>
    refine iff_of_true ?_ fun reached => absurd reached Bool.false_ne_true
    cases start : startIndex n values.length true with
    | none =>
      refine picksNone fun i fit => ?_
      obtain ⟨_,found,_⟩ := (lastStart reaches).mp fit.2
      rw [start] at found
      cases found
    | some last =>
      refine picksSame (fun i => and_congr_right fun met => ?_) picksLast
      rw [lastStart reaches,start]
      simp

theorem elementsRun {this index header writable} (slot : m.slot this = .ok (some index))
    (array : m.entry index = .array header values writable) : arrayElements this m = .ok values m := by
  unfold arrayElements
  rw [doneBind (p := Effect.read) rfl,doneBind (slotRun slot),Option.map_some,array]
  rfl

/- Each search picks the right index, except that a start at the end of the array or beyond it leaves
`lastIndexOf` with none: the clamp is shared, and only the other end depends on the direction. -/
theorem searchesExact {this argument : Value} {index : Nat} {header : Header} {writable : Bool} {n : IntegerOrInfinity}
    (slot : m.slot this = .ok (some index)) (array : m.entry index = .array header values writable)
    (number : m.toIntegerOrInfinity argument = .ok n) :
    (∃ first last, indexOf this [needle,argument] m = .ok first m ∧ lastIndexOf this [needle,argument] m = .ok last m ∧
      FirstFound m values needle n first ∧ LastFound m values needle n last) ↔
      (n.reaches values.length = true → ∀ i, ¬m.Meets values needle i) := by
  have start : ∀ reverse, m.fromIndex [needle,argument][1]? values.length reverse = .ok (startIndex n values.length reverse) := by
    intro reverse
    show (m.toIntegerOrInfinity argument >>= fun n => _) = _
    rw [number]
    rfl
  have firstRun : indexOf this [needle,argument] m = .ok (foundValue ((startIndex n values.length false).bind fun start =>
      ((values.zipIdx.drop start).find? fun item => m.meets needle item.1).map Prod.snd)) m := by
    unfold indexOf
    rw [doneBind (elementsRun slot array),doneBind (p := Effect.read) rfl,start]
    rfl
  have lastRun : lastIndexOf this [needle,argument] m = .ok (foundValue ((startIndex n values.length true).bind fun start =>
      (List.range (start+1)).reverse.find? fun i => values[i]?.any (m.meets needle))) m := by
    unfold lastIndexOf
    rw [doneBind (elementsRun slot array),doneBind (p := Effect.read) rfl,start]
    rfl
  rw [← searchedLast]
  constructor
  · intro found
    obtain ⟨first,last,_,run,_,picked⟩ := found
    rw [lastRun] at run
    cases run
    exact picked
  · intro picked
    exact ⟨_,_,firstRun,lastRun,searchedFirst n,picked⟩

end

def searchedMachine : Machine :=
  { bareMachine with heap := bareMachine.heap ++ [.array ⟨.empty,none,true⟩ [.int32 7] true] }
def searchedArray : Value := (valueForHeapIndex 1).getD .undefined

theorem searchesExactDefault :
    (∃ first last, indexOf searchedArray [.int32 7,.undefined] searchedMachine = .ok first searchedMachine ∧
      lastIndexOf searchedArray [.int32 7,.undefined] searchedMachine = .ok last searchedMachine ∧
      FirstFound searchedMachine [.int32 7] (.int32 7) (.finite 0) first ∧ LastFound searchedMachine [.int32 7] (.int32 7) (.finite 0) last) ↔
      (IntegerOrInfinity.reaches (.finite 0) 1 = true → ∀ i, ¬searchedMachine.Meets [.int32 7] (.int32 7) i) :=
  searchesExact rfl rfl rfl

theorem lastMissed : ¬∀ (m : Machine) (this needle argument : Value) (index : Nat) (header : Header) (values : List Value) (writable : Bool)
    (n : IntegerOrInfinity), m.slot this = .ok (some index) → m.entry index = .array header values writable →
    m.toIntegerOrInfinity argument = .ok n → ∃ first last, indexOf this [needle,argument] m = .ok first m ∧
      lastIndexOf this [needle,argument] m = .ok last m ∧ FirstFound m values needle n first ∧ LastFound m values needle n last := by
  intro always
  obtain ⟨_,last,_,run,_,picked⟩ := always searchedMachine searchedArray (.int32 7) (.number Double.infinity) 1 ⟨.empty,none,true⟩ [.int32 7] true
    (.infinite false) rfl rfl rfl
  have answer : lastIndexOf searchedArray [.int32 7,.number Double.infinity] searchedMachine = .ok (foundValue none) searchedMachine := rfl
  have missed : last = notFound := (EStateM.Result.ok.inj (run.symm.trans answer)).1.trans noneFound
  exact picked.2.mp missed 0 ⟨⟨.int32 7,rfl,rfl⟩,rfl,by decide⟩

end Bamts.Runtime
