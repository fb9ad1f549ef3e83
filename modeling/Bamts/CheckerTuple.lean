import Bamts.CheckerTable

/-! Tuple shapes as sets of sequences: a prefix whose tail may be missing, a rest of any length, and a suffix that is always
there. The closed forms for an index are compared with the layouts that a length admits. -/
set_option linter.all false
namespace Bamts.Checker
open TypeTable (Sound Kept Later)

namespace TupleShape

def minArity (shape : TupleShape) : Nat := shape.required+shape.suffix.length

def maxArity (shape : TupleShape) : Option Nat := if shape.rest.isNone then some (shape.prefix_.length+shape.suffix.length) else none

abbrev pushUnique : List TypeId → TypeId → List TypeId := TypeTable.pushNew

def elementTypesAt (shape : TupleShape) (index : Nat) : List TypeId :=
  let elements := match shape.prefix_[index]? with
    | some element => pushUnique [] element
    | none => []
  match shape.rest with
  | some rest =>
    let elements := if shape.required ≤ index then pushUnique elements rest else elements
    shape.suffix.zipIdx.foldl
      (fun elements entry => if shape.required+entry.2 ≤ index then pushUnique elements entry.1 else elements) elements
  | none =>
    shape.suffix.zipIdx.foldl
      (fun elements entry => if entry.2 ≤ index ∧ shape.required ≤ index-entry.2 ∧ index-entry.2 ≤ shape.prefix_.length
        then pushUnique elements entry.1 else elements) elements

-- Slicing or indexing out of range gives `none`.
def elementTypesFromEnd (shape : TupleShape) (offset : Nat) : Option (List TypeId) :=
  if offset = 0 then some []
  else if offset ≤ shape.suffix.length then shape.suffix[shape.suffix.length-offset]?.map fun element => [element]
  else
    let prefixOffset := offset-shape.suffix.length
    match shape.rest with
    | some rest =>
      let start := shape.required-prefixOffset
      if start ≤ shape.prefix_.length then some ((shape.prefix_.drop start).foldl pushUnique (pushUnique [] rest)) else none
    | none =>
      let firstPresent := max shape.required prefixOffset
      (List.range' firstPresent (shape.prefix_.length+1-firstPresent)).foldlM
        (fun elements present => shape.prefix_[present-prefixOffset]?.map (pushUnique elements)) []

def prefixLengthsAtLength (shape : TupleShape) (length : Nat) : List Nat :=
  if length < shape.minArity ∨ shape.maxArity.any (· < length) then []
  else
    let available := length-shape.suffix.length
    if shape.rest.isSome then List.range' shape.required (min shape.prefix_.length available+1-shape.required)
    else if shape.required ≤ available ∧ available ≤ shape.prefix_.length then [available] else []

def elementAtLayout (shape : TupleShape) (index length prefixLen : Nat) : Option TypeId :=
  let restLen := length-prefixLen-shape.suffix.length
  if index < prefixLen then shape.prefix_[index]?
  else if index < prefixLen+restLen then shape.rest
  else shape.suffix[index-prefixLen-restLen]?

def Clamped (shape : TupleShape) : Prop := shape.required ≤ shape.prefix_.length

instance (shape : TupleShape) : Decidable shape.Clamped := inferInstanceAs (Decidable (_ ≤ _))

def Occupies (shape : TupleShape) (index : Nat) (element : TypeId) : Prop :=
  ∃ length, ∃ prefixLen ∈ shape.prefixLengthsAtLength length, index < length ∧ shape.elementAtLayout index length prefixLen = some element

def OccupiesFromEnd (shape : TupleShape) (offset : Nat) (element : TypeId) : Prop :=
  ∃ length, ∃ prefixLen ∈ shape.prefixLengthsAtLength length, 0 < offset ∧ offset ≤ length ∧
    shape.elementAtLayout (length-offset) length prefixLen = some element

section
variable {shape : TupleShape} {index length prefixLen offset : Nat} {element : TypeId}

theorem memPushUnique {elements other} : element ∈ pushUnique elements other ↔ element ∈ elements ∨ element = other :=
  TypeTable.memPushNew

theorem memPushWhen {Entry : Type} (list : List Entry) (takes) [DecidablePred takes] (value : Entry → TypeId) (elements) :
    element ∈ list.foldl (fun elements entry => if takes entry then pushUnique elements (value entry) else elements) elements ↔
      element ∈ elements ∨ ∃ entry ∈ list, takes entry ∧ value entry = element := by
  induction list generalizing elements with
  | nil => simp
  | cons head tail ih =>
    rw [List.foldl_cons,ih]
    by_cases taken : takes head
    · simp only [taken,if_true,memPushUnique,List.mem_cons,exists_eq_or_imp,true_and,or_assoc,@eq_comm _ element]
    · simp only [taken,if_false,List.mem_cons,exists_eq_or_imp,false_and,false_or]

theorem memPrefixLengths : prefixLen ∈ shape.prefixLengthsAtLength length ↔
    shape.required ≤ prefixLen ∧ prefixLen ≤ shape.prefix_.length ∧ prefixLen+shape.suffix.length ≤ length ∧
      (shape.rest = none → length = prefixLen+shape.suffix.length) := by
  unfold prefixLengthsAtLength minArity maxArity
  cases rest : shape.rest with
  | some rest =>
    simp only [Option.isNone_some,Bool.false_eq_true,if_false,Option.any_none,or_false,Option.isSome_some,if_true,reduceCtorEq,
      false_implies,and_true]
    split
    · rename_i short
      simp only [List.not_mem_nil,false_iff]
      omega
    · rw [List.mem_range'_1]
      omega
  | none =>
    simp only [Option.isNone_none,if_true,Option.any_some,decide_eq_true_eq,Option.isSome_none,Bool.false_eq_true,if_false,true_implies]
    split
    · simp only [List.not_mem_nil,false_iff]
      omega
    · split
      · rw [List.mem_singleton]
        omega
      · simp only [List.not_mem_nil,false_iff]
        omega

inductive Zone (shape : TupleShape) (index : Nat) (element : TypeId) : Prop
  | prefix_ (found : shape.prefix_[index]? = some element)
  | rest (found : shape.rest = some element) (late : shape.required ≤ index)
  | suffix (offset : Nat) (found : shape.suffix[offset]? = some element)
      (open_ : shape.rest ≠ none → shape.required+offset ≤ index)
      (closed : shape.rest = none → offset ≤ index ∧ shape.required ≤ index-offset ∧ index-offset ≤ shape.prefix_.length)

theorem memElementTypesAt : element ∈ shape.elementTypesAt index ↔ Zone shape index element := by
  have inPrefix : element ∈ (match shape.prefix_[index]? with | some element => pushUnique [] element | none => []) ↔
      shape.prefix_[index]? = some element := by
    cases found : shape.prefix_[index]? with
    | none => simp
    | some other => simp [pushUnique,TypeTable.pushNew,eq_comm]
  have listed : ∀ takes : Nat → Prop, (∃ entry ∈ shape.suffix.zipIdx, takes entry.2 ∧ entry.1 = element) ↔
      ∃ offset, shape.suffix[offset]? = some element ∧ takes offset := by
    intro takes
    constructor
    · intro found
      obtain ⟨⟨other,offset⟩,inside,taken,same⟩ := found
      exact ⟨offset,same ▸ List.mem_zipIdx_iff_getElem?.mp inside,taken⟩
    · intro found
      obtain ⟨offset,found,taken⟩ := found
      exact ⟨(element,offset),List.mem_zipIdx_iff_getElem?.mpr found,taken,rfl⟩
  unfold elementTypesAt
  cases rest : shape.rest with
  | some other =>
    have inRest : ∀ elements, element ∈ (if shape.required ≤ index then pushUnique elements other else elements) ↔
        element ∈ elements ∨ (other = element ∧ shape.required ≤ index) := by
      intro elements
      split
      · rename_i late
        rw [memPushUnique]
        simp [late,eq_comm]
      · rename_i early
        simp [early]
    rw [memPushWhen _ (fun entry => shape.required+entry.2 ≤ index) Prod.fst,listed fun offset => shape.required+offset ≤ index,
      inRest,inPrefix]
    constructor
    · intro either
      obtain (first | ⟨same,late⟩) | ⟨offset,found,late⟩ := either
      · exact .prefix_ first
      · exact .rest (rest.trans (congrArg some same)) late
      · exact .suffix offset found (fun _ => late) fun none => absurd (rest.symm.trans none) (Option.some_ne_none _)
    · intro zone
      cases zone with
      | prefix_ found => exact Or.inl (Or.inl found)
      | rest found late => exact Or.inl (Or.inr ⟨Option.some.inj (rest.symm.trans found),late⟩)
      | suffix offset found open_ => exact Or.inr ⟨offset,found,open_ (by simp [rest])⟩
  | none =>
    rw [memPushWhen _ (fun entry => entry.2 ≤ index ∧ shape.required ≤ index-entry.2 ∧ index-entry.2 ≤ shape.prefix_.length) Prod.fst,
      listed fun offset => offset ≤ index ∧ shape.required ≤ index-offset ∧ index-offset ≤ shape.prefix_.length,inPrefix]
    constructor
    · intro either
      obtain first | ⟨offset,found,within⟩ := either
      · exact .prefix_ first
      · exact .suffix offset found (fun some => absurd rest some) fun _ => within
    · intro zone
      cases zone with
      | prefix_ found => exact Or.inl found
      | rest found => exact absurd (rest.symm.trans found).symm (Option.some_ne_none _)
      | suffix offset found _ closed => exact Or.inr ⟨offset,found,closed rest⟩

theorem occupiesZone (occupies : shape.Occupies index element) : shape.Clamped ∧ Zone shape index element := by
  obtain ⟨length,prefixLen,layout,inside,found⟩ := occupies
  obtain ⟨required,present,fits,closed⟩ := memPrefixLengths.mp layout
  refine ⟨le_trans required present,?_⟩
  unfold elementAtLayout at found
  simp only at found
  split at found
  · exact .prefix_ found
  · split at found
    · exact .rest found (by omega)
    · refine .suffix _ found (fun _ => by omega) fun none => ?_
      have whole := closed none
      omega

theorem zoneOccupies (clamped : shape.Clamped) (zone : Zone shape index element) : shape.Occupies index element := by
  cases zone with
  | prefix_ found =>
    have inside := (List.getElem?_eq_some_iff.mp found).choose
    refine ⟨shape.prefix_.length+shape.suffix.length,shape.prefix_.length,memPrefixLengths.mpr ⟨clamped,le_refl _,le_refl _,fun _ => rfl⟩,by omega,?_⟩
    rw [elementAtLayout,if_pos inside,found]
  | rest found late =>
    refine ⟨index+1+shape.suffix.length,shape.required,memPrefixLengths.mpr ⟨le_refl _,clamped,by omega,fun none => ?_⟩,by omega,?_⟩
    · exact absurd (found.symm.trans none) (Option.some_ne_none _)
    · rw [elementAtLayout,if_neg (by omega),if_pos (by omega),found]
  | suffix offset found open_ closed =>
    have inside := (List.getElem?_eq_some_iff.mp found).choose
    cases rest : shape.rest with
    | some other =>
      have late := open_ (by simp [rest])
      refine ⟨index-offset+shape.suffix.length,shape.required,
        memPrefixLengths.mpr ⟨le_refl _,clamped,by omega,fun none => absurd (rest.symm.trans none) (Option.some_ne_none _)⟩,by omega,?_⟩
      rw [elementAtLayout,if_neg (by omega),if_neg (by omega),← found]
      congr 1
      omega
    | none =>
      obtain ⟨before,required,present⟩ := closed rest
      refine ⟨index-offset+shape.suffix.length,index-offset,memPrefixLengths.mpr ⟨required,present,le_refl _,fun _ => rfl⟩,by omega,?_⟩
      rw [elementAtLayout,if_neg (by omega),if_neg (by omega),← found]
      congr 1
      omega

theorem occupiesExact (clamped : shape.Clamped) : element ∈ shape.elementTypesAt index ↔ shape.Occupies index element :=
  memElementTypesAt.trans ⟨zoneOccupies clamped,fun occupies => (occupiesZone occupies).2⟩

theorem pushedEach {Entry : Type} {list : List Entry} {value : Entry → Option TypeId} (present : ∀ entry ∈ list, ∃ element, value entry = some element)
    (elements) : ∃ all, list.foldlM (fun elements entry => (value entry).map (pushUnique elements)) elements = some all ∧
      ∀ element, element ∈ all ↔ element ∈ elements ∨ ∃ entry ∈ list, value entry = some element := by
  induction list generalizing elements with
  | nil => exact ⟨elements,rfl,by simp⟩
  | cons head tail ih =>
    obtain ⟨first,found⟩ := present head List.mem_cons_self
    obtain ⟨all,run,mem⟩ := ih (fun entry inside => present entry (List.mem_cons_of_mem _ inside)) (pushUnique elements first)
    refine ⟨all,by simpa [List.foldlM_cons,found] using run,fun element => ?_⟩
    simp only [mem,memPushUnique,List.mem_cons,exists_eq_or_imp,found,Option.some.injEq,or_assoc,@eq_comm _ element]

inductive EndZone (shape : TupleShape) (offset : Nat) (element : TypeId) : Prop
  | suffix (some_ : 0 < offset) (within : offset ≤ shape.suffix.length) (found : shape.suffix[shape.suffix.length-offset]? = some element)
  | rest (beyond : shape.suffix.length < offset) (found : shape.rest = some element)
  | prefix_ (beyond : shape.suffix.length < offset) (index : Nat) (found : shape.prefix_[index]? = some element)
      (open_ : shape.rest ≠ none → shape.required ≤ index+(offset-shape.suffix.length))
      (closed : shape.rest = none → shape.required ≤ index+(offset-shape.suffix.length) ∧
        index+(offset-shape.suffix.length) ≤ shape.prefix_.length)

theorem elementsFromEnd (clamped : shape.Clamped) (offset) :
    ∃ elements, shape.elementTypesFromEnd offset = some elements ∧ ∀ element, element ∈ elements ↔ EndZone shape offset element := by
  unfold Clamped at clamped
  unfold elementTypesFromEnd
  split
  · rename_i zero
    refine ⟨[],rfl,fun element => ⟨fun inside => absurd inside List.not_mem_nil,fun zone => ?_⟩⟩
    cases zone <;> omega
  split
  · rename_i some_ within
    obtain ⟨other,found⟩ : ∃ other, shape.suffix[shape.suffix.length-offset]? = some other := ⟨_,List.getElem?_eq_getElem (by omega)⟩
    rw [found]
    refine ⟨[other],rfl,fun element => ⟨fun inside => ?_,fun zone => ?_⟩⟩
    · exact .suffix (Nat.pos_of_ne_zero some_) within (List.mem_singleton.mp inside ▸ found)
    · cases zone with
      | suffix _ _ found' => exact List.mem_singleton.mpr (Option.some.inj (found'.symm.trans found))
      | rest beyond => omega
      | prefix_ beyond => omega
  · rename_i some_ outside
    have beyond : shape.suffix.length < offset := by omega
    cases rest : shape.rest with
    | some other =>
      simp only
      rw [if_pos (by omega)]
      refine ⟨_,rfl,fun element => ?_⟩
      rw [(TypeTable.pushNewAll _ _).1,memPushUnique]
      simp only [List.not_mem_nil,false_or,List.mem_iff_getElem? (l := List.drop _ _),List.getElem?_drop]
      constructor
      · intro either
        obtain same | ⟨after,found⟩ := either
        · exact .rest beyond (rest.trans (congrArg some same.symm))
        · exact .prefix_ beyond _ found (fun _ => by omega) fun none => absurd (rest.symm.trans none) (Option.some_ne_none _)
      · intro zone
        cases zone with
        | suffix _ within => omega
        | rest _ found => exact Or.inl (Option.some.inj (found.symm.trans rest))
        | prefix_ _ index found open_ =>
          have late := open_ (by simp [rest])
          refine Or.inr ⟨index-(shape.required-(offset-shape.suffix.length)),?_⟩
          rwa [show shape.required-(offset-shape.suffix.length)+(index-(shape.required-(offset-shape.suffix.length))) = index by omega]
    | none =>
      have bound : ∀ present ∈ List.range' (max shape.required (offset-shape.suffix.length))
          (shape.prefix_.length+1-max shape.required (offset-shape.suffix.length)),
          ∃ element, shape.prefix_[present-(offset-shape.suffix.length)]? = some element := by
        intro present inside
        rw [List.mem_range'_1] at inside
        exact ⟨_,List.getElem?_eq_getElem (by omega)⟩
      obtain ⟨all,run,mem⟩ := pushedEach bound []
      refine ⟨all,run,fun element => ?_⟩
      rw [mem]
      simp only [List.not_mem_nil,false_or,List.mem_range'_1]
      constructor
      · intro found
        obtain ⟨present,range,found⟩ := found
        refine .prefix_ beyond _ found (fun some => absurd rest some) fun _ => ?_
        omega
      · intro zone
        cases zone with
        | suffix _ within => omega
        | rest _ found => exact absurd (rest.symm.trans found).symm (Option.some_ne_none _)
        | prefix_ _ index found _ closed =>
          have range := closed rest
          refine ⟨index+(offset-shape.suffix.length),by omega,?_⟩
          rwa [Nat.add_sub_cancel]

theorem occupiesEndZone (occupies : shape.OccupiesFromEnd offset element) : EndZone shape offset element := by
  obtain ⟨length,prefixLen,layout,some_,inside,found⟩ := occupies
  obtain ⟨required,present,fits,closed⟩ := memPrefixLengths.mp layout
  unfold elementAtLayout at found
  simp only at found
  split at found
  · refine .prefix_ (by omega) _ found (fun _ => by omega) fun none => ?_
    have whole := closed none
    omega
  · split at found
    · exact .rest (by omega) found
    · refine .suffix some_ (by omega) (found ▸ ?_)
      congr 1
      omega

theorem endZoneOccupies (clamped : shape.Clamped) (zone : EndZone shape offset element) : shape.OccupiesFromEnd offset element := by
  unfold Clamped at clamped
  cases zone with
  | suffix some_ within found =>
    refine ⟨shape.prefix_.length+shape.suffix.length,shape.prefix_.length,memPrefixLengths.mpr ⟨clamped,le_refl _,le_refl _,fun _ => rfl⟩,
      some_,by omega,?_⟩
    rw [elementAtLayout,if_neg (by omega),if_neg (by omega),← found]
    congr 1
    omega
  | rest beyond found =>
    refine ⟨shape.prefix_.length+offset,shape.prefix_.length,
      memPrefixLengths.mpr ⟨clamped,le_refl _,by omega,fun none => absurd (found.symm.trans none) (Option.some_ne_none _)⟩,by omega,by omega,?_⟩
    rw [elementAtLayout,if_neg (by omega),if_pos (by omega),found]
  | prefix_ beyond index found open_ closed =>
    have inside := (List.getElem?_eq_some_iff.mp found).choose
    cases rest : shape.rest with
    | some other =>
      have late := open_ (by simp [rest])
      refine ⟨index+offset,max shape.required (index+1),
        memPrefixLengths.mpr ⟨le_max_left _ _,by omega,by omega,fun none => absurd (rest.symm.trans none) (Option.some_ne_none _)⟩,by omega,by omega,?_⟩
      rw [elementAtLayout,if_pos (by omega),Nat.add_sub_cancel,found]
    | none =>
      obtain ⟨late,fits⟩ := closed rest
      refine ⟨index+offset,index+(offset-shape.suffix.length),memPrefixLengths.mpr ⟨late,fits,by omega,fun _ => by omega⟩,by omega,by omega,?_⟩
      rw [elementAtLayout,if_pos (by omega),Nat.add_sub_cancel,found]

end

end TupleShape

namespace TypeTable

def array (table : TypeTable) (element : TypeId) : TypeTable × TypeId := table.intern (.array element)

def canonicalShape (table : TypeTable) (shape : TupleShape) : TupleShape :=
  let shape : TupleShape := { shape with required := min shape.required shape.prefix_.length }
  let shape : TupleShape := if shape.rest.any fun rest => table.get rest = .never then { shape with rest := none } else shape
  if shape.rest.isNone then
    let suffixLen := shape.suffix.length
    let shape : TupleShape := { shape with prefix_ := shape.prefix_ ++ shape.suffix, suffix := [] }
    { shape with required := min (shape.required+suffixLen) shape.prefix_.length }
  else shape

def tupleShape (table : TypeTable) (shape : TupleShape) : TypeTable × TypeId :=
  let shape := table.canonicalShape shape
  match shape.rest with
  | some rest => if shape.prefix_ = [] ∧ shape.suffix = [] then table.array rest else table.intern (.tuple shape)
  | none => table.intern (.tuple shape)

-- A rest of type `never` has no value to put into the sequence.
def Lives (table : TypeTable) (shape : TupleShape) : Prop := ∃ rest, shape.rest = some rest ∧ table.get rest ≠ .never

def sequence (shape : TupleShape) (present count : Nat) : List TypeId :=
  shape.prefix_.take present ++ shape.rest.toList.flatMap (List.replicate count) ++ shape.suffix

def sequences (table : TypeTable) (shape : TupleShape) : Set (List TypeId) :=
  {elements | ∃ present count, min shape.required shape.prefix_.length ≤ present ∧ present ≤ shape.prefix_.length ∧
    (count = 0 ∨ table.Lives shape) ∧ elements = sequence shape present count}

def sequencesOf (table : TypeTable) : «Type» → Set (List TypeId)
  | .array element => table.sequences ⟨[],0,some element,[]⟩
  | .tuple shape => table.sequences shape
  | _ => ∅

def Uniform (shape : TupleShape) : Prop :=
  shape.suffix = [] ∨ ∀ a ∈ shape.prefix_.drop shape.required, ∀ b ∈ shape.prefix_.drop shape.required ++ shape.suffix, a = b

section
variable {table : TypeTable} {shape : TupleShape} {Element : Type} {first second : List Element}

theorem takeMerged {present} (inside : present ≤ first.length) :
    (first ++ second).take (present+second.length) = first.take present ++ (first.drop present ++ second).take second.length := by
  conv_lhs => rw [← List.take_append_drop present first,List.append_assoc]
  rw [List.take_append,List.length_take,Nat.min_eq_left inside,List.take_of_length_le (by rw [List.length_take]; omega),Nat.add_sub_cancel_left]

theorem shiftedConstant {element} (same : second = (element :: second).take second.length) : ∀ other ∈ second, other = element := by
  induction second generalizing element with
  | nil => simp
  | cons head tail ih =>
    obtain ⟨first,rest⟩ := List.cons.inj same
    subst first
    intro other inside
    obtain now | later := List.mem_cons.mp inside
    · exact now
    · exact ih rest other later

theorem mergedUniform (suffix : second ≠ []) (start) :
    (∀ present, start ≤ present → present ≤ first.length → second = (first.drop present ++ second).take second.length) ↔
      ∀ a ∈ first.drop start, ∀ b ∈ first.drop start ++ second, a = b := by
  obtain ⟨head,tail,shape⟩ := List.exists_cons_of_ne_nil suffix
  constructor
  · intro shifts a inside b either
    have leading : ∀ x ∈ first.drop start, x = head := by
      intro x member
      obtain ⟨after,found⟩ := List.mem_iff_getElem?.mp member
      rw [List.getElem?_drop] at found
      have bound := (List.getElem?_eq_some_iff.mp found).choose
      have shift := congrArg List.head? (shifts (start+after) (by omega) (by omega))
      rw [List.drop_eq_getElem_cons bound,shape,List.cons_append,List.length_cons,List.take_succ_cons,List.head?_cons,List.head?_cons] at shift
      rw [List.getElem?_eq_getElem bound] at found
      exact (Option.some.inj found).symm.trans (Option.some.inj shift).symm
    have nonempty : start < first.length := by
      have long := List.length_pos_of_mem inside
      rw [List.length_drop] at long
      omega
    have last := shifts (first.length-1) (by omega) (by omega)
    rw [List.drop_eq_getElem_cons (by omega),show first.length-1+1 = first.length by omega,List.drop_length,List.singleton_append] at last
    have constant := shiftedConstant last
    have headConstant := constant head (by rw [shape]; exact List.mem_cons_self)
    obtain early | late := List.mem_append.mp either
    · exact (leading a inside).trans (leading b early).symm
    · exact (leading a inside).trans (headConstant.trans (constant b late).symm)
  · intro uniform present from_ to_
    cases dropped : first.drop present with
    | nil => simp
    | cons x rest =>
      have within : ∀ y ∈ first.drop present, y ∈ first.drop start := fun y member => List.drop_subset_drop_left first from_ member
      have xInside : x ∈ first.drop start := within x (by rw [dropped]; exact List.mem_cons_self)
      have all : ∀ y ∈ x :: rest ++ second, y = x := by
        intro y member
        refine (uniform x xInside y ?_).symm
        obtain early | late := List.mem_append.mp member
        · exact List.mem_append_left _ (within y (dropped ▸ early))
        · exact List.mem_append_right _ late
      rw [List.eq_replicate_of_mem all,List.take_replicate,
        List.eq_replicate_of_mem fun y member => all y (List.mem_append_right _ member)]
      congr 1
      simp only [List.length_append,List.length_cons,List.length_replicate]
      omega

end

section
variable {table later : TypeTable} {shape : TupleShape}

theorem sequenceClosed (dead : ¬table.Lives shape) {elements} : elements ∈ table.sequences shape ↔
    ∃ present, min shape.required shape.prefix_.length ≤ present ∧ present ≤ shape.prefix_.length ∧
      elements = shape.prefix_.take present ++ shape.suffix := by
  have none : ∀ present, sequence shape present 0 = shape.prefix_.take present ++ shape.suffix := by simp [sequence]
  constructor
  · intro inside
    obtain ⟨present,count,from_,to_,zero,same⟩ := inside
    rw [zero.resolve_right dead,none] at same
    exact ⟨present,from_,to_,same⟩
  · intro inside
    obtain ⟨present,from_,to_,same⟩ := inside
    exact ⟨present,0,from_,to_,Or.inl rfl,same.trans (none present).symm⟩

theorem canonicalLives (lives : table.Lives shape) : table.canonicalShape shape = { shape with required := min shape.required shape.prefix_.length } := by
  obtain ⟨rest,found,alive⟩ := lives
  simp [canonicalShape,found,alive]

theorem canonicalDead (dead : ¬table.Lives shape) : table.canonicalShape shape = ⟨shape.prefix_ ++ shape.suffix,
    min (min shape.required shape.prefix_.length+shape.suffix.length) (shape.prefix_ ++ shape.suffix).length,none,[]⟩ := by
  cases found : shape.rest with
  | none => simp [canonicalShape,found]
  | some rest =>
    have never : table.get rest = .never := not_not.mp fun alive => dead ⟨rest,found,alive⟩
    simp [canonicalShape,found,never]

theorem canonicalSequences : table.sequences (table.canonicalShape shape) = table.sequences shape ↔ table.Lives shape ∨ Uniform shape := by
  by_cases lives : table.Lives shape
  · rw [canonicalLives lives]
    refine iff_of_true ?_ (Or.inl lives)
    simp only [sequences,Lives,sequence,Set.mem_ofPred_eq]
    rw [Nat.min_assoc,Nat.min_self]
  rw [or_iff_right lives,canonicalDead lives]
  have closed : ¬table.Lives ⟨shape.prefix_ ++ shape.suffix,
      min (min shape.required shape.prefix_.length+shape.suffix.length) (shape.prefix_ ++ shape.suffix).length,none,[]⟩ := by
    intro alive
    obtain ⟨rest,found,_⟩ := alive
    cases found
  have byPresent : table.sequences ⟨shape.prefix_ ++ shape.suffix,
      min (min shape.required shape.prefix_.length+shape.suffix.length) (shape.prefix_ ++ shape.suffix).length,none,[]⟩ =
        table.sequences shape ↔ ∀ present, min shape.required shape.prefix_.length ≤ present → present ≤ shape.prefix_.length →
          shape.suffix = (shape.prefix_.drop present ++ shape.suffix).take shape.suffix.length := by
    constructor
    · intro same present from_ to_
      have inside := (sequenceClosed lives).mpr ⟨present,from_,to_,rfl⟩
      rw [← same] at inside
      obtain ⟨count,_,fits,equal⟩ := (sequenceClosed closed).mp inside
      simp only [List.append_nil,List.length_append] at equal fits
      have lengths := congrArg List.length equal
      rw [List.length_append,List.length_take,List.length_take,List.length_append,Nat.min_eq_left to_,Nat.min_eq_left fits] at lengths
      rw [← lengths,takeMerged to_] at equal
      exact List.append_cancel_left equal
    · intro shifts
      have merged : ∀ present, min shape.required shape.prefix_.length ≤ present → present ≤ shape.prefix_.length →
          (shape.prefix_ ++ shape.suffix).take (present+shape.suffix.length) = shape.prefix_.take present ++ shape.suffix := by
        intro present from_ to_
        rw [takeMerged to_,← shifts present from_ to_]
      ext elements
      rw [sequenceClosed lives,sequenceClosed closed]
      simp only [List.append_nil,List.length_append]
      constructor
      · intro inside
        obtain ⟨count,from_,to_,same⟩ := inside
        refine ⟨count-shape.suffix.length,by omega,by omega,same.trans ?_⟩
        rw [← merged _ (by omega) (by omega),Nat.sub_add_cancel (by omega)]
      · intro inside
        obtain ⟨present,from_,to_,same⟩ := inside
        exact ⟨present+shape.suffix.length,by omega,by omega,same.trans (merged present from_ to_).symm⟩
  rw [byPresent]
  unfold Uniform
  by_cases empty : shape.suffix = []
  · simp [empty]
  rw [or_iff_right empty,mergedUniform empty]
  obtain below | above := Nat.le_total shape.required shape.prefix_.length
  · rw [Nat.min_eq_left below]
  · rw [Nat.min_eq_right above,List.drop_length,List.drop_eq_nil_of_le above]

theorem sequencesKept (kept : Kept table later) (valid : ∀ rest, shape.rest = some rest → table.Valid rest) :
    later.sequences shape = table.sequences shape := by
  have lives : later.Lives shape ↔ table.Lives shape := exists_congr fun rest => and_congr_right fun found => by
    rw [kept.get (valid rest found)]
  simp only [sequences,Set.mem_ofPred_eq,lives]

theorem tupleShapeCases (table : TypeTable) (shape) : table.tupleShape shape = table.intern (.tuple (table.canonicalShape shape)) ∨
    ∃ required rest, table.canonicalShape shape = ⟨[],required,some rest,[]⟩ ∧ table.tupleShape shape = table.array rest := by
  unfold tupleShape
  cases canonical : table.canonicalShape shape with
  | mk prefix_ required rest suffix =>
    cases rest with
    | none => exact Or.inl rfl
    | some rest =>
      simp only
      split
      · rename_i empty
        rw [empty.1,empty.2]
        exact Or.inr ⟨required,rest,rfl,rfl⟩
      · exact Or.inl rfl

theorem internedSequences (sound : Sound table) (valid : ∀ rest, shape.rest = some rest → table.Valid rest) :
    (table.tupleShape shape).1.sequencesOf ((table.tupleShape shape).1.get (table.tupleShape shape).2) =
      table.sequences (table.canonicalShape shape) := by
  have valid' : ∀ rest, (table.canonicalShape shape).rest = some rest → table.Valid rest := by
    intro rest found
    by_cases lives : table.Lives shape
    · rw [canonicalLives lives] at found
      exact valid rest found
    · rw [canonicalDead lives] at found
      cases found
  obtain tuple | ⟨required,rest,pure_,array⟩ := tupleShapeCases table shape
  · rw [tuple,internGet sound.toIndexed fun _ => «Type».noConfusion]
    exact sequencesKept (internKept _ _) valid'
  · rw [array,TypeTable.array,internGet sound.toIndexed fun _ => «Type».noConfusion,sequencesOf,
      sequencesKept (internKept _ _) fun other same => valid' other (by rw [pure_,← same])]
    rw [pure_]
    simp [sequences,sequence,Lives]

end

end TypeTable

namespace TupleShape
open TypeTable (new Uniform sequence sequences sequencesOf newSound internedSequences canonicalSequences)

variable {table : TypeTable} {shape : TupleShape}

theorem indexedExact : ((∀ index element, element ∈ shape.elementTypesAt index ↔ shape.Occupies index element) ∧
    ∀ offset, ∃ elements, shape.elementTypesFromEnd offset = some elements ∧ ∀ element, element ∈ elements ↔ shape.OccupiesFromEnd offset element) ↔
      shape.Clamped ∨ shape.prefix_ = [] ∧ shape.rest = none ∧ shape.suffix = [] := by
  by_cases clamped : shape.Clamped
  · refine iff_of_true ⟨fun index element => occupiesExact clamped,fun offset => ?_⟩ (Or.inl clamped)
    obtain ⟨elements,run,mem⟩ := elementsFromEnd clamped offset
    exact ⟨elements,run,fun element => (mem element).trans ⟨endZoneOccupies clamped,occupiesEndZone⟩⟩
  rw [or_iff_right clamped]
  have noLayout : ∀ {length prefixLen}, prefixLen ∉ shape.prefixLengthsAtLength length := by
    intro length prefixLen layout
    obtain ⟨required,present,_⟩ := memPrefixLengths.mp layout
    exact clamped (le_trans required present)
  have nowhere : ∀ index element, ¬shape.Occupies index element := fun _ _ occupies => by
    obtain ⟨_,_,layout,_⟩ := occupies
    exact noLayout layout
  have nowhereFromEnd : ∀ offset element, ¬shape.OccupiesFromEnd offset element := fun _ _ occupies => by
    obtain ⟨_,_,layout,_⟩ := occupies
    exact noLayout layout
  constructor
  · intro exact_
    obtain ⟨at_,fromEnd⟩ := exact_
    have noZone : ∀ index element, ¬Zone shape index element := fun index element zone =>
      nowhere index element ((at_ index element).mp (memElementTypesAt.mpr zone))
    refine ⟨?_,?_,?_⟩
    · cases elements : shape.prefix_ with
      | nil => rfl
      | cons head tail => exact (noZone 0 head (.prefix_ (by rw [elements]; rfl))).elim
    · cases rest : shape.rest with
      | none => rfl
      | some other => exact (noZone shape.required other (.rest rest (le_refl _))).elim
    · cases elements : shape.suffix with
      | nil => rfl
      | cons head tail =>
        obtain ⟨found,run,mem⟩ := fromEnd shape.suffix.length
        rw [elementTypesFromEnd,if_neg (by simp [elements]),if_pos (le_refl _),Nat.sub_self,elements,List.getElem?_cons_zero] at run
        have some_ : [head] = found := Option.some.inj run
        exact (nowhereFromEnd _ head ((mem head).mp (some_ ▸ List.mem_singleton_self head))).elim
  · intro empty
    obtain ⟨noPrefix,noRest,noSuffix⟩ := empty
    refine ⟨fun index element => iff_of_false (fun inside => ?_) (nowhere index element),fun offset => ⟨[],?_,fun element =>
      iff_of_false List.not_mem_nil (nowhereFromEnd offset element)⟩⟩
    · cases memElementTypesAt.mp inside with
      | prefix_ found => simp [noPrefix] at found
      | rest found => simp [noRest] at found
      | suffix _ found => simp [noSuffix] at found
    · unfold elementTypesFromEnd
      rw [noPrefix,noRest,noSuffix]
      split
      · rfl
      · rename_i positive
        have none_ : 1-max shape.required offset = 0 := by omega
        simp [positive,none_]

theorem tupleShapesMean (reached : Later new table) (valid : ∀ rest, shape.rest = some rest → table.Valid rest) :
    ((∀ index element, element ∈ shape.elementTypesAt index ↔ shape.Occupies index element) ∧
      (∀ offset, ∃ elements, shape.elementTypesFromEnd offset = some elements ∧
        ∀ element, element ∈ elements ↔ shape.OccupiesFromEnd offset element) ∧
      sequencesOf (table.tupleShape shape).1 ((table.tupleShape shape).1.get (table.tupleShape shape).2) = table.sequences shape) ↔
    (shape.Clamped ∨ shape.prefix_ = [] ∧ shape.rest = none ∧ shape.suffix = []) ∧ (table.Lives shape ∨ Uniform shape) := by
  have sound := (reached.sound newSound).1
  rw [internedSequences sound valid,canonicalSequences,← and_assoc,indexedExact]

theorem tupleShapesMeanRest : let shape : TupleShape := ⟨[new.number,new.string],1,some new.boolean,[new.bigint]⟩
    ((∀ index element, element ∈ shape.elementTypesAt index ↔ shape.Occupies index element) ∧
      (∀ offset, ∃ elements, shape.elementTypesFromEnd offset = some elements ∧
        ∀ element, element ∈ elements ↔ shape.OccupiesFromEnd offset element) ∧
      sequencesOf (new.tupleShape shape).1 ((new.tupleShape shape).1.get (new.tupleShape shape).2) = new.sequences shape) ↔
    (shape.Clamped ∨ shape.prefix_ = [] ∧ shape.rest = none ∧ shape.suffix = []) ∧ (new.Lives shape ∨ Uniform shape) :=
  tupleShapesMean .refl fun _ found => Option.some.inj found ▸ (by decide)

theorem mergedSuffixOptional : ¬∀ table, Later new table → ∀ shape : TupleShape, shape.Clamped →
    sequencesOf (table.tupleShape shape).1 ((table.tupleShape shape).1.get (table.tupleShape shape).2) = table.sequences shape := by
  intro kept
  have same := kept new .refl ⟨[new.number,new.string],1,none,[new.boolean]⟩ (by decide)
  rw [internedSequences newSound fun _ found => absurd found.symm (Option.some_ne_none _),canonicalSequences] at same
  obtain ⟨_,found,_⟩ | uniform := same
  · cases found
  · obtain empty | all := uniform
    · cases empty
    · exact absurd (all new.string (by decide) new.boolean (by decide)) (by decide)

end TupleShape

end Bamts.Checker
