import Bamts.FoldTable
import Mathlib.Data.List.Pairwise

/-! What the folding tables say: no code point has two entries, targets fold to themselves, and how the spans of the ranges and the
single code points lie to each other. -/
set_option linter.all false
namespace Bamts.Regexp
open SpanClosure

namespace FoldRange

def targets (range : FoldRange) : FoldRange := ⟨range.target range.start,range.target range.stop,range.step,-range.delta⟩

def apart (a b : FoldRange) : Bool := Nat.blt a.stop b.start || Nat.blt b.stop a.start || (a.step == 2 && b.step == 2 && a.start % 2 != b.start % 2)

def outside (range : FoldRange) (value : Nat) : Bool :=
  Nat.blt value range.start || Nat.blt range.stop value || (range.step == 2 && range.start % 2 != value % 2)

def sound (range : FoldRange) : Bool :=
  Nat.ble range.start range.stop && Nat.blt 0 range.step && (range.stop-range.start) % range.step == 0 &&
    (if range.delta < 0 then Nat.ble range.delta.natAbs range.start else Nat.ble (range.stop+range.delta.toNat) 0x10ffff) && Nat.ble range.stop 0x10ffff

def spans (range : FoldRange) : List Span := [(range.start,range.stop),(range.target range.start,range.target range.stop)]

def points (range : FoldRange) : List Nat := range.sources.flatMap fun source => [source,range.target source]

end FoldRange

/-- One number with a bit for every place that the spans cover, each up to and without its end. -/
def marks (spans : List Span) : Nat := spans.foldr (fun span mask => (2^(span.2-span.1)-1) <<< span.1 ||| mask) 0

theorem marksBit (spans : List Span) (place) : (marks spans).testBit place = spans.any fun span => Nat.ble span.1 place && Nat.blt place span.2 := by
  induction spans with
  | nil => exact Nat.zero_testBit place
  | cons span rest ih =>
    have here : ((2^(span.2-span.1)-1) <<< span.1).testBit place = (Nat.ble span.1 place && Nat.blt place span.2) := by
      rw [Nat.testBit_shiftLeft,Nat.testBit_two_pow_sub_one,Bool.eq_iff_iff]
      simp only [Bool.and_eq_true,decide_eq_true_eq,Nat.ble_eq,Nat.blt_eq]
      omega
    rw [marks,List.foldr_cons,Nat.testBit_or,here,List.any_cons,← ih]
    rfl

theorem marked {spans : List Span} {span : Span} {place} (member : span ∈ spans) (low : span.1 ≤ place) (high : place < span.2) :
    (marks spans).testBit place = true := by
  rw [marksBit]
  exact List.any_eq_true.mpr ⟨span,member,by simp only [Bool.and_eq_true,Nat.ble_eq,Nat.blt_eq]; exact ⟨low,high⟩⟩

def contained (span : Span) (value : Nat) : Bool := Nat.ble span.1 value && Nat.ble value span.2

def swallows (a b : Span) : Bool := (!contained a b.1 && !contained a b.2) || (Nat.ble a.1 (b.1+1) && Nat.ble b.2 (a.2+1))

def singletonMarks : Nat := marks (unicodeSimpleFoldSingletons.flatMap fun entry => [(entry.1,entry.1+1),(entry.2,entry.2+1)])

def singletonFree (value : Nat) : Bool := !singletonMarks.testBit value

def sourceMarks : Nat := marks (unicodeSimpleFoldSingletons.map fun entry => (entry.1,entry.1+1))

def rangeMarks : Nat := marks (unicodeSimpleFoldRanges.map fun range => (range.start,range.stop+1))

def targetMarks : Nat := marks (unicodeSimpleFoldRanges.map fun range => (range.targets.start,range.targets.stop+1))

/-- The steps from one code point to the next that a span of the ranges makes. -/
def crossings : Nat := marks (unicodeSimpleFoldRanges.flatMap FoldRange.spans)

def nowhereElse (range : FoldRange) (value : Nat) : Bool :=
  singletonFree value && unicodeSimpleFoldRanges.all fun other => other == range || other.spans.all fun span => !contained span value

def lonely (range : FoldRange) (span : Span) : Bool :=
  Nat.ble span.2 (span.1+1) || ((singletonFree span.1 || nowhereElse range span.2) && (singletonFree span.2 || nowhereElse range span.1))

set_option maxRecDepth 4000

structure Tables : Prop where
  rangesSound : (unicodeSimpleFoldRanges.all FoldRange.sound) = true
  sourcesApart : unicodeSimpleFoldRanges.Pairwise fun a b => a.apart b = true
  targetsApart : unicodeSimpleFoldRanges.Pairwise fun a b => a.targets.apart b.targets = true
  targetsFixed : (unicodeSimpleFoldRanges.all fun a => unicodeSimpleFoldRanges.all fun b => a.targets.apart b) = true
  singletonsOutside : (unicodeSimpleFoldSingletons.all fun entry =>
    (!rangeMarks.testBit entry.1 || unicodeSimpleFoldRanges.all fun range => range.outside entry.1) &&
    (!rangeMarks.testBit entry.2 || unicodeSimpleFoldRanges.all fun range => range.outside entry.2) &&
    (!targetMarks.testBit entry.1 || unicodeSimpleFoldRanges.all fun range => range.targets.outside entry.1)) = true
  singletonsFixed : (unicodeSimpleFoldSingletons.all fun entry => !sourceMarks.testBit entry.2) = true
  singletonsSorted : unicodeSimpleFoldSingletons.IsChain fun a b => a.1 < b.1
  singletonsBounded : (unicodeSimpleFoldSingletons.all fun entry => Nat.ble entry.1 0x10ffff && Nat.ble entry.2 0x10ffff) = true
  spansSwallow : (unicodeSimpleFoldRanges.all fun a => a.spans.all fun span => (!crossings.testBit (span.1-2) && !crossings.testBit (span.2+1)) ||
    unicodeSimpleFoldRanges.all fun b => b.spans.all (swallows span)) = true
  endsLonely : (unicodeSimpleFoldRanges.all fun range => range.spans.all (lonely range)) = true

theorem tables : Tables where
  rangesSound := by decide +kernel
  sourcesApart := by decide +kernel
  targetsApart := by decide +kernel
  targetsFixed := by decide +kernel
  singletonsOutside := by decide +kernel
  singletonsFixed := by decide +kernel
  singletonsSorted := by decide +kernel
  singletonsBounded := by decide +kernel
  spansSwallow := by decide +kernel
  endsLonely := by decide +kernel

section
variable {range other : FoldRange} {value source : Nat} {entry : Nat × Nat} {span : Span}

structure FoldRange.Sound (range : FoldRange) : Prop where
  upright : range.start ≤ range.stop
  stepped : 0 < range.step
  whole : (range.stop-range.start) % range.step = 0
  low : range.delta < 0 → range.delta.natAbs ≤ range.start
  high : 0 ≤ range.delta → range.stop+range.delta.toNat ≤ 0x10ffff
  bounded : range.stop ≤ 0x10ffff

theorem soundRange (member : range ∈ unicodeSimpleFoldRanges) : range.Sound := by
  have checked := List.all_eq_true.mp tables.rangesSound range member
  simp only [FoldRange.sound,Bool.and_eq_true,Nat.ble_eq,Nat.blt_eq,beq_iff_eq] at checked
  obtain ⟨⟨⟨⟨upright,stepped⟩,whole⟩,shift⟩,bounded⟩ := checked
  refine ⟨upright,stepped,whole,fun low => ?_,fun high => ?_,bounded⟩
  · rw [if_pos low] at shift
    exact Nat.le_of_ble_eq_true shift
  · rw [if_neg (by omega)] at shift
    exact Nat.le_of_ble_eq_true shift

theorem hitsIff : range.hits value = true ↔ range.start ≤ value ∧ value ≤ range.stop ∧ (value-range.start) % range.step = 0 := by
  simp only [FoldRange.hits,Bool.and_eq_true,decide_eq_true_eq,and_assoc]

theorem sourceIff (sound : range.Sound) : source ∈ range.sources ↔ range.hits source = true := by
  rw [hitsIff]
  simp only [FoldRange.sources,List.mem_map,List.mem_range]
  constructor
  · rintro ⟨index,below,rfl⟩
    have most : index*range.step ≤ range.stop-range.start := (Nat.le_div_iff_mul_le sound.stepped).mp (Nat.le_of_lt_succ below)
    have upright := sound.upright
    exact ⟨Nat.le_add_right _ _,by omega,by rw [Nat.add_sub_cancel_left,Nat.mul_mod_left]⟩
  · rintro ⟨low,high,whole⟩
    refine ⟨(source-range.start)/range.step,Nat.lt_succ_of_le (Nat.div_le_div_right (Nat.sub_le_sub_right high _)),?_⟩
    rw [Nat.div_mul_cancel (Nat.dvd_of_mod_eq_zero whole)]
    omega

theorem shifted (sound : range.Sound) (low : range.start ≤ source) (high : source ≤ range.stop) :
    offsetCodePoint source range.delta = some (range.target source) ∧ (range.target source : Int) = source+range.delta := by
  have below := sound.low
  have above := sound.high
  unfold FoldRange.target offsetCodePoint
  split
  · rename_i negative
    have enough : range.delta.natAbs ≤ source := (below negative).trans low
    rw [if_pos enough]
    exact ⟨rfl,by simp only [Option.getD_some]; omega⟩
  · rename_i positive
    have fits : source+range.delta.toNat < 2^32 := by omega
    rw [if_pos fits]
    exact ⟨rfl,by simp only [Option.getD_some]; omega⟩

theorem targetInts (sound : range.Sound) : (range.target range.start : Int) = range.start+range.delta ∧ (range.target range.stop : Int) = range.stop+range.delta :=
  ⟨(shifted sound (Nat.le_refl _) sound.upright).2,(shifted sound sound.upright (Nat.le_refl _)).2⟩

theorem hitsTarget (sound : range.Sound) (hits : range.hits source = true) : range.targets.hits (range.target source) = true := by
  obtain ⟨low,high,whole⟩ := hitsIff.mp hits
  have moved := (shifted sound low high).2
  obtain ⟨first,last⟩ := targetInts sound
  rw [hitsIff]
  simp only [FoldRange.targets]
  refine ⟨by omega,by omega,?_⟩
  rw [show range.target source-range.target range.start = source-range.start by omega]
  exact whole

theorem apartHits (apart : range.apart other = true) (hits : range.hits value = true) : other.hits value = false := by
  refine Bool.of_not_eq_true fun hits' => ?_
  obtain ⟨low,high,whole⟩ := hitsIff.mp hits
  obtain ⟨low',high',whole'⟩ := hitsIff.mp hits'
  simp only [FoldRange.apart,Bool.or_eq_true,Nat.blt_eq,Bool.and_eq_true,beq_iff_eq,bne_iff_ne] at apart
  rcases apart with (before | after) | ⟨⟨two,two'⟩,parity⟩
  · omega
  · omega
  · rw [two] at whole
    rw [two'] at whole'
    omega

theorem outsideHits (outside : range.outside value = true) : range.hits value = false := by
  refine Bool.of_not_eq_true fun hits => ?_
  obtain ⟨low,high,whole⟩ := hitsIff.mp hits
  simp only [FoldRange.outside,Bool.or_eq_true,Nat.blt_eq,Bool.and_eq_true,beq_iff_eq,bne_iff_ne] at outside
  rcases outside with (before | after) | ⟨two,parity⟩
  · omega
  · omega
  · rw [two] at whole
    omega

theorem apartSymm : range.apart other = true → other.apart range = true := by
  simp only [FoldRange.apart,Bool.or_eq_true,Nat.blt_eq,Bool.and_eq_true,beq_iff_eq,bne_iff_ne]
  rintro ((before | after) | ⟨⟨two,two'⟩,parity⟩)
  · exact .inl (.inr before)
  · exact .inl (.inl after)
  · exact .inr ⟨⟨two',two⟩,parity.symm⟩

instance : Std.Symm fun a b : FoldRange => a.apart b = true := ⟨fun _ _ => apartSymm⟩
instance : Std.Symm fun a b : FoldRange => a.targets.apart b.targets = true := ⟨fun _ _ => apartSymm⟩

theorem sameRange (member : range ∈ unicodeSimpleFoldRanges) (member' : other ∈ unicodeSimpleFoldRanges) (hits : range.hits value = true)
    (hits' : other.hits value = true) : range = other := by
  by_contra differ
  have apart := tables.sourcesApart.forall member member' differ
  rw [apartHits apart hits] at hits'
  exact Bool.noConfusion hits'

theorem sameTarget (member : range ∈ unicodeSimpleFoldRanges) (member' : other ∈ unicodeSimpleFoldRanges) {source'} (hits : range.hits source = true)
    (hits' : other.hits source' = true) (same : range.target source = other.target source') : range = other := by
  by_contra differ
  have apart := tables.targetsApart.forall member member' differ
  have target := hitsTarget (soundRange member) hits
  have target' := hitsTarget (soundRange member') hits'
  rw [same] at target
  rw [apartHits apart target] at target'
  exact Bool.noConfusion target'

theorem rangeFold (member : range ∈ unicodeSimpleFoldRanges) (hits : range.hits value = true) : unicodeSimpleFold value = range.target value := by
  have found : unicodeSimpleFoldRanges.find? (FoldRange.hits · value) = some range := by
    cases answer : unicodeSimpleFoldRanges.find? (FoldRange.hits · value) with
    | none => exact absurd hits (List.find?_eq_none.mp answer range member)
    | some first =>
      have hits' : first.hits value = true := @List.find?_some _ (FoldRange.hits · value) _ _ answer
      rw [sameRange member (List.mem_of_find?_eq_some answer) hits hits']
  obtain ⟨low,high,-⟩ := hitsIff.mp hits
  rw [unicodeSimpleFold,found,Option.bind_some,(shifted (soundRange member) low high).1]
  rfl

theorem unhitFold (unhit : ∀ range ∈ unicodeSimpleFoldRanges, range.hits value = false) : unicodeSimpleFold value = (singletonTarget value).getD value := by
  have none : unicodeSimpleFoldRanges.find? (FoldRange.hits · value) = none :=
    List.find?_eq_none.mpr fun range member => by rw [unhit range member]; exact Bool.false_ne_true
  rw [unicodeSimpleFold,none]
  rfl

theorem singletonTargetMember (found : singletonTarget source = some value) : (source,value) ∈ unicodeSimpleFoldSingletons := by
  obtain ⟨entry,first,rfl⟩ := Option.map_eq_some_iff.mp found
  have key : entry.1 = source := of_decide_eq_true (@List.find?_some _ (fun entry : Nat × Nat => decide (entry.1 = source)) _ _ first)
  rw [← key]
  exact List.mem_of_find?_eq_some first

instance firstsApart : Std.Symm fun a b : Nat × Nat => a.1 ≠ b.1 := ⟨fun _ _ => Ne.symm⟩

theorem keysDistinct : unicodeSimpleFoldSingletons.Pairwise fun a b => a.1 ≠ b.1 := by
  exact (List.isChain_iff_pairwise.mp tables.singletonsSorted).imp Nat.ne_of_lt

theorem singletonSource (member : entry ∈ unicodeSimpleFoldSingletons) : singletonTarget entry.1 = some entry.2 := by
  cases found : singletonTarget entry.1 with
  | none => exact absurd (decide_eq_true rfl) (List.find?_eq_none.mp (Option.map_eq_none_iff.mp found) entry member)
  | some value =>
    have member' := singletonTargetMember found
    by_contra differ
    exact keysDistinct.forall member' member (fun same => differ (congrArg (fun entry => some entry.2) same)) rfl

theorem singletonFixed (member : entry ∈ unicodeSimpleFoldSingletons) : singletonTarget entry.2 = none := by
  cases found : singletonTarget entry.2 with
  | none => rfl
  | some value =>
    have free := List.all_eq_true.mp tables.singletonsFixed entry member
    rw [sourceMarks,marked (List.mem_map_of_mem (singletonTargetMember found)) (Nat.le_refl _) (Nat.lt_succ_self _)] at free
    exact Bool.noConfusion free

theorem outsideMarks (shape : FoldRange → FoldRange) (checked : (!(marks (unicodeSimpleFoldRanges.map fun range =>
    ((shape range).start,(shape range).stop+1))).testBit value || unicodeSimpleFoldRanges.all fun range => (shape range).outside value) = true)
    (member : range ∈ unicodeSimpleFoldRanges) : (shape range).hits value = false := by
  rcases Bool.or_eq_true_iff.mp checked with free | outside
  · refine Bool.of_not_eq_true fun hits => ?_
    obtain ⟨low,high,-⟩ := hitsIff.mp hits
    rw [marked (List.mem_map_of_mem (f := fun range => ((shape range).start,(shape range).stop+1)) member) low (Nat.lt_succ_of_le high)] at free
    exact Bool.noConfusion free
  · exact outsideHits (List.all_eq_true.mp outside range member)

theorem singletonOutside (member : entry ∈ unicodeSimpleFoldSingletons) (member' : range ∈ unicodeSimpleFoldRanges) :
    range.hits entry.1 = false ∧ range.hits entry.2 = false ∧ range.targets.hits entry.1 = false := by
  have checked := List.all_eq_true.mp tables.singletonsOutside entry member
  rw [Bool.and_eq_true,Bool.and_eq_true] at checked
  obtain ⟨⟨source,target⟩,image⟩ := checked
  exact ⟨outsideMarks id source member',outsideMarks id target member',outsideMarks FoldRange.targets image member'⟩

theorem singletonFold (member : entry ∈ unicodeSimpleFoldSingletons) : unicodeSimpleFold entry.1 = entry.2 ∧ unicodeSimpleFold entry.2 = entry.2 := by
  constructor
  · rw [unhitFold fun _ member' => (singletonOutside member member').1,singletonSource member]
    rfl
  · rw [unhitFold fun _ member' => (singletonOutside member member').2.1,singletonFixed member]
    rfl

theorem targetFold (member : range ∈ unicodeSimpleFoldRanges) (hits : range.hits source = true) :
    unicodeSimpleFold (range.target source) = range.target source := by
  have target := hitsTarget (soundRange member) hits
  have none : singletonTarget (range.target source) = none := by
    cases found : singletonTarget (range.target source) with
    | none => rfl
    | some value =>
      rw [(singletonOutside (singletonTargetMember found) member).2.2] at target
      exact Bool.noConfusion target
  rw [unhitFold fun other member' => apartHits (List.all_eq_true.mp (List.all_eq_true.mp tables.targetsFixed range member) other member') target,none]
  rfl

theorem foldCases (value) : (∃ range ∈ unicodeSimpleFoldRanges, range.hits value = true) ∨
    (value,unicodeSimpleFold value) ∈ unicodeSimpleFoldSingletons ∨ unicodeSimpleFold value = value := by
  by_cases hit : ∃ range ∈ unicodeSimpleFoldRanges, range.hits value = true
  · exact .inl hit
  · have unhit : ∀ range ∈ unicodeSimpleFoldRanges, range.hits value = false := fun range member =>
      Bool.of_not_eq_true fun hits => hit ⟨range,member,hits⟩
    rw [unhitFold unhit]
    cases found : singletonTarget value with
    | none => exact .inr (.inr rfl)
    | some target => exact .inr (.inl (singletonTargetMember found))

end

end Bamts.Regexp
