import Bamts.CheckerTuple

/-! The relation between tuple shapes. A source with a rest has sequences of every length, of which the code looks at those up to
a bound; a longer length repeats what a shorter one shows once both rests meet at some position. -/
set_option linter.all false
namespace Bamts.Checker.TupleShape

section
variable (relates : TypeId → TypeId → Bool)

def tupleLengthRelates (source target : TupleShape) (length : Nat) : Bool :=
  (source.prefixLengthsAtLength length).all fun sourcePrefixLen =>
    (target.prefixLengthsAtLength length).any fun targetPrefixLen =>
      (List.range length).all fun index =>
        match source.elementAtLayout index length sourcePrefixLen,target.elementAtLayout index length targetPrefixLen with
        | some have_,some want => relates have_ want
        | _,_ => false

def lastLength (source target : TupleShape) : Nat :=
  source.maxArity.getD (max (max (source.prefix_.length+source.suffix.length) (target.prefix_.length+target.suffix.length)) source.minArity+1)

def tupleRelates (source target : TupleShape) : Bool :=
  if source.minArity < target.minArity then false
  else
    let refused := match source.maxArity,target.maxArity with
      | some sourceMax,some targetMax => decide (sourceMax > targetMax)
      | none,some _ => true
      | _,_ => false
    if refused then false
    else (List.range' source.minArity (lastLength source target+1-source.minArity)).all (tupleLengthRelates relates source target)

end

def Admits (shape : TupleShape) (length : Nat) : Prop := shape.minArity ≤ length ∧ ∀ maximum, shape.maxArity = some maximum → length ≤ maximum

-- At this position the element of the source relates to that of the target.
def Fits (relates : TypeId → TypeId → Bool) (source target : TupleShape) (length sourcePrefixLen targetPrefixLen index : Nat) : Prop :=
  ∃ have_ want, source.elementAtLayout index length sourcePrefixLen = some have_ ∧
    target.elementAtLayout index length targetPrefixLen = some want ∧ relates have_ want = true

def Matched (relates : TypeId → TypeId → Bool) (source target : TupleShape) (length : Nat) : Prop :=
  ∀ sourcePrefixLen ∈ source.prefixLengthsAtLength length, ∃ targetPrefixLen ∈ target.prefixLengthsAtLength length,
    ∀ index < length, Fits relates source target length sourcePrefixLen targetPrefixLen index

def Covers (relates : TypeId → TypeId → Bool) (source target : TupleShape) : Prop :=
  ∀ length, source.Admits length → target.Admits length ∧ Matched relates source target length

def reach (source target : TupleShape) : Nat :=
  max source.prefix_.length target.prefix_.length+max source.suffix.length target.suffix.length+1

section
variable {relates : TypeId → TypeId → Bool} {source target shape : TupleShape} {length : Nat}

theorem lengthRelates : tupleLengthRelates relates source target length = true ↔ Matched relates source target length := by
  unfold tupleLengthRelates Matched Fits
  rw [List.all_eq_true]
  refine forall₂_congr fun sourcePrefixLen _ => ?_
  rw [List.any_eq_true]
  refine exists_congr fun targetPrefixLen => and_congr_right fun _ => ?_
  rw [List.all_eq_true]
  simp only [List.mem_range]
  refine forall₂_congr fun index _ => ?_
  split
  · rename_i have_ want left right
    simp [left,right]
  · rename_i missing
    refine iff_of_false Bool.false_ne_true fun found => ?_
    obtain ⟨have_,want,left,right,_⟩ := found
    exact missing have_ want left right

theorem admitsLayout (clamped : shape.Clamped) : shape.Admits length ↔ ∃ prefixLen, prefixLen ∈ shape.prefixLengthsAtLength length := by
  unfold Admits minArity maxArity
  constructor
  · intro admits
    obtain ⟨least,most⟩ := admits
    cases rest : shape.rest with
    | some other =>
      exact ⟨shape.required,memPrefixLengths.mpr ⟨le_refl _,clamped,least,fun none => absurd (rest.symm.trans none) (Option.some_ne_none _)⟩⟩
    | none =>
      have bound := most (shape.prefix_.length+shape.suffix.length) (by simp [rest])
      exact ⟨length-shape.suffix.length,memPrefixLengths.mpr ⟨by omega,by omega,by omega,fun _ => by omega⟩⟩
  · intro found
    obtain ⟨prefixLen,layout⟩ := found
    obtain ⟨required,present,fits,closed⟩ := memPrefixLengths.mp layout
    refine ⟨by omega,fun maximum found => ?_⟩
    split at found
    · rename_i none_
      rw [closed (Option.isNone_iff_eq_none.mp none_),← Option.some.inj found]
      omega
    · cases found

theorem elementStretch {prefixLen position index} (after : prefixLen ≤ position) (before : position+shape.suffix.length < length) :
    shape.elementAtLayout index (length+1) prefixLen = shape.elementAtLayout (if index ≤ position then index else index-1) length prefixLen := by
  unfold elementAtLayout
  simp only
  split
  · rename_i early
    rw [if_pos (show index ≤ position by omega),if_pos early]
  split
  · split
    · rw [if_pos (by omega)]
    · rw [if_neg (by omega),if_pos (by omega)]
  · rw [if_neg (show ¬index ≤ position by omega),if_neg (by omega),if_neg (by omega)]
    congr 1
    omega

theorem matchedStretch (open_ : source.rest ≠ none) (open' : target.rest ≠ none) (far : reach source target ≤ length)
    (matched : Matched relates source target length) : Matched relates source target (length+1) := by
  unfold reach at far
  intro sourcePrefixLen layout
  obtain ⟨required,present,_,_⟩ := memPrefixLengths.mp layout
  have shorter : sourcePrefixLen ∈ source.prefixLengthsAtLength length :=
    memPrefixLengths.mpr ⟨required,present,by omega,fun none => absurd none open_⟩
  obtain ⟨targetPrefixLen,layout',fits⟩ := matched sourcePrefixLen shorter
  obtain ⟨required',present',room,_⟩ := memPrefixLengths.mp layout'
  refine ⟨targetPrefixLen,memPrefixLengths.mpr ⟨required',present',by omega,fun none => absurd none open'⟩,fun index inside => ?_⟩
  unfold Fits
  rw [elementStretch (le_max_left sourcePrefixLen targetPrefixLen) (by omega),elementStretch (le_max_right sourcePrefixLen targetPrefixLen) (by omega)]
  exact fits _ (by split <;> omega)

theorem matchedBeyond (open_ : source.rest ≠ none) (open' : target.rest ≠ none) (matched : Matched relates source target (reach source target))
    (far : reach source target ≤ length) : Matched relates source target length := by
  induction length, far using Nat.le_induction with
  | base => exact matched
  | succ length far ih => exact matchedStretch open_ open' far ih

def AritiesFit (source target : TupleShape) : Prop :=
  target.minArity ≤ source.minArity ∧ ∀ maximum, target.maxArity = some maximum → ∃ most, source.maxArity = some most ∧ most ≤ maximum

theorem relatesParts : tupleRelates relates source target = true ↔ AritiesFit source target ∧
    ∀ length, source.minArity ≤ length → length ≤ lastLength source target → Matched relates source target length := by
  have looked : (List.range' source.minArity (lastLength source target+1-source.minArity)).all (tupleLengthRelates relates source target) = true ↔
      ∀ length, source.minArity ≤ length → length ≤ lastLength source target → Matched relates source target length := by
    rw [List.all_eq_true]
    simp only [List.mem_range'_1,lengthRelates]
    exact ⟨fun all length least most => all length ⟨least,by omega⟩,fun all length range => all length range.1 (by omega)⟩
  unfold tupleRelates AritiesFit
  split
  · rename_i short
    exact iff_of_false Bool.false_ne_true fun parts => absurd parts.1.1 (by omega)
  cases source.maxArity <;> cases target.maxArity <;> simp_all

theorem admitsOpen (open_ : shape.rest ≠ none) : shape.Admits length ↔ shape.minArity ≤ length := by
  unfold Admits maxArity
  refine ⟨fun admits => admits.1,fun least => ⟨least,fun maximum found => ?_⟩⟩
  rw [if_neg (by simpa using open_)] at found
  cases found

theorem admitsFit (fit : AritiesFit source target) (admits : source.Admits length) : target.Admits length := by
  refine ⟨le_trans fit.1 admits.1,fun maximum found => ?_⟩
  obtain ⟨most,found',below⟩ := fit.2 maximum found
  exact le_trans (admits.2 most found') below

theorem leastAdmitted (clamped : shape.Clamped) : shape.Admits shape.minArity := by
  unfold Clamped at clamped
  refine ⟨le_refl _,fun maximum found => ?_⟩
  unfold maxArity at found
  split at found
  · rw [← Option.some.inj found,minArity]
    omega
  · cases found

theorem fitOfAdmits (clamped : source.Clamped)
    (admits : ∀ length, source.Admits length → length ≤ lastLength source target → target.Admits length) : AritiesFit source target := by
  have least := leastAdmitted clamped
  refine ⟨?_,fun maximum found => ?_⟩
  · refine (admits _ least ?_).1
    unfold lastLength
    cases top : source.maxArity with
    | none => simp only [Option.getD_none]; omega
    | some most => exact least.2 most top
  · cases top : source.maxArity with
    | some most => exact ⟨most,rfl,(admits most ⟨least.2 most top,fun other found => by rw [top] at found; exact (Option.some.inj found).le⟩
        (by rw [lastLength,top]; rfl)).2 maximum found⟩
    | none =>
      have bounded : maximum = target.prefix_.length+target.suffix.length := by
        unfold maxArity at found
        split at found
        · exact (Option.some.inj found).symm
        · cases found
      have last : lastLength source target =
          max (max (source.prefix_.length+source.suffix.length) (target.prefix_.length+target.suffix.length)) source.minArity+1 := by
        rw [lastLength,top]
        rfl
      have beyond : source.Admits (lastLength source target) := ⟨by omega,fun other found' => by rw [top] at found'; cases found'⟩
      have bound := (admits _ beyond (le_refl _)).2 maximum found
      omega

theorem lastAdmitted (admits : source.Admits length) (beyond : lastLength source target < length) : source.rest ≠ none := by
  intro none_
  have top : source.maxArity = some (source.prefix_.length+source.suffix.length) := by simp [maxArity,none_]
  have bound := admits.2 _ top
  rw [lastLength,top] at beyond
  exact absurd beyond (by simpa using bound)

theorem matchedAdmits (clamped : source.Clamped) (clamped' : target.Clamped) (admits : source.Admits length)
    (matched : Matched relates source target length) : target.Admits length := by
  obtain ⟨prefixLen,layout⟩ := (admitsLayout clamped).mp admits
  obtain ⟨other,layout',_⟩ := matched prefixLen layout
  exact (admitsLayout clamped').mpr ⟨other,layout'⟩

theorem lookedAdmitted (least : source.minArity ≤ length) (most : length ≤ lastLength source target) : source.Admits length := by
  refine ⟨least,fun maximum found => ?_⟩
  rw [lastLength,found] at most
  exact most

theorem fitOpen (fit : AritiesFit source target) (open_ : source.rest ≠ none) : target.rest ≠ none := by
  intro none_
  obtain ⟨most,found,_⟩ := fit.2 (target.prefix_.length+target.suffix.length) (by simp [maxArity,none_])
  unfold maxArity at found
  rw [if_neg (by simpa using open_)] at found
  cases found

theorem tupleRelatesExact (clamped : source.Clamped) (clamped' : target.Clamped) :
    (tupleRelates relates source target = true ↔ Covers relates source target) ↔
      ∀ length, lastLength source target < length → length ≤ reach source target → source.Admits length →
        (∀ shorter < length, source.Admits shorter → Matched relates source target shorter) → Matched relates source target length := by
  rw [relatesParts]
  constructor
  · intro agree length beyond within admits before
    have known : ∀ shorter, source.Admits shorter → shorter ≤ lastLength source target → Matched relates source target shorter :=
      fun shorter admits' below => before shorter (lt_of_le_of_lt below beyond) admits'
    have fit := fitOfAdmits clamped fun shorter admits' below => matchedAdmits clamped clamped' admits' (known shorter admits' below)
    exact (agree.mp ⟨fit,fun shorter least most => known shorter (lookedAdmitted least most) most⟩ length admits).2
  · intro gap
    constructor
    · intro parts
      obtain ⟨fit,looked⟩ := parts
      have all : ∀ length, source.Admits length → Matched relates source target length := by
        intro length
        induction length using Nat.strong_induction_on with
        | _ length ih =>
          intro admits
          obtain near | beyond := le_or_gt length (lastLength source target)
          · exact looked length admits.1 near
          obtain within | far := le_or_gt length (reach source target)
          · exact gap length beyond within admits fun shorter below admits' => ih shorter below admits'
          have open_ := lastAdmitted admits beyond
          have reached : source.Admits (reach source target) := by
            rw [admitsOpen open_]
            unfold Clamped at clamped
            unfold reach minArity
            omega
          exact matchedBeyond open_ (fitOpen fit open_) (ih _ far reached) far.le
      exact fun length admits => ⟨admitsFit fit admits,all length admits⟩
    · intro covers
      exact ⟨fitOfAdmits clamped fun length admits _ => (covers length admits).1,
        fun length least most => (covers length (lookedAdmitted least most)).2⟩

theorem tupleRelatesExactNumbers : let a : TypeId := ⟨0⟩
    (tupleRelates (fun x y => x = y) ⟨[a],0,some a,[a]⟩ ⟨[a],0,some a,[]⟩ = true ↔ Covers (fun x y => x = y) ⟨[a],0,some a,[a]⟩ ⟨[a],0,some a,[]⟩) ↔
      ∀ length, lastLength ⟨[a],0,some a,[a]⟩ ⟨[a],0,some a,[]⟩ < length → length ≤ reach ⟨[a],0,some a,[a]⟩ ⟨[a],0,some a,[]⟩ →
        Admits ⟨[a],0,some a,[a]⟩ length → (∀ shorter < length, Admits ⟨[a],0,some a,[a]⟩ shorter →
          Matched (fun x y => x = y) ⟨[a],0,some a,[a]⟩ ⟨[a],0,some a,[]⟩ shorter) →
        Matched (fun x y => x = y) ⟨[a],0,some a,[a]⟩ ⟨[a],0,some a,[]⟩ length :=
  tupleRelatesExact (by decide) (by decide)

-- `[number, ...string[]]` against `[...number[], number | string]`: no length up to 2 puts one rest on the other.
theorem restsApart : ¬∀ relates source target, Clamped source → Clamped target →
    (tupleRelates relates source target = true ↔ Covers relates source target) := by
  intro exact_
  let number : TypeId := ⟨0⟩
  let string : TypeId := ⟨1⟩
  let either : TypeId := ⟨2⟩
  have related := (exact_ (fun a b => a = b ∨ b = either) ⟨[number],1,some string,[]⟩ ⟨[],0,some number,[either]⟩ (by decide) (by decide)).mp
    (by decide)
  have longer := lengthRelates.mpr (related 3 ⟨by decide,fun maximum found => absurd found (by simp [maxArity])⟩).2
  exact absurd longer (by decide)

end

end Bamts.Checker.TupleShape
