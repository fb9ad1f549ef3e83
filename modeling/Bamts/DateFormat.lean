import Bamts.DateReads

/-! `parse_iso` against the ECMAScript date time string format: the texts on which they differ. -/
set_option linter.all false
namespace Bamts.Date
open ByteText

def Signed (piece : Text) : Prop := piece.head? = some '+' ∨ piece.head? = some '-'

instance (piece) : Decidable (Signed piece) := by unfold Signed; infer_instance

def ZoneText.fields : ZoneText → List Text
  | .local_ => []
  | .utc => []
  | .offset _ hours minutes => [hours,minutes]

def ClockText.fields (clock : ClockText) : List Text :=
  clock.hours :: clock.minutes :: (clock.seconds.toList ++ clock.zone.fields)

def DayText.fields : DayText → List Text
  | .year => []
  | .month mm => [mm]
  | .date mm dd => [mm,dd]

/-- The fields of fixed width. -/
def IsoText.fields (iso : IsoText) : List Text :=
  iso.year :: (iso.day.fields ++ iso.clock.elim [] ClockText.fields)

/-- A fraction of the minute. -/
def ClockText.BareFraction (clock : ClockText) : Prop := clock.fraction ≠ none ∧ clock.seconds = none

/-- Past midnight by less than a millisecond. -/
def ClockText.LateFraction (clock : ClockText) : Prop :=
  clock.hour = 24 ∧ ∃ piece, clock.fraction = some piece ∧ digitsOf piece ≠ 0

/-- Accepted by the code though the format has no such text. -/
def IsoText.Deviant (iso : IsoText) : Prop :=
  (∃ piece ∈ iso.fields, Signed piece) ∨ ∃ clock, iso.clock = some clock ∧ (clock.BareFraction ∨ clock.LateFraction)

/-- A year with a clock and no month. -/
def IsoText.Undated (iso : IsoText) : Prop := iso.day = .year ∧ iso.clock ≠ none

/-- The texts of the format with the time they denote. -/
def IsoFormat (text : Text) (zone : TimeZoneRule) (value : Option Int) : Prop :=
  ∃ iso : IsoText, text = iso.text ∧ iso.Formed ∧ value = iso.instant zone

/-- The texts on which the code and the format differ. -/
def Slip (text : Text) : Prop :=
  ∃ iso : IsoText, text = iso.text ∧ (iso.Accepted ∧ iso.Deviant ∨ iso.Formed ∧ iso.Undated)

section
variable {a b c d : Text}

theorem appendSame (long : size a = size c) (same : a ++ b = c ++ d) : a = c ∧ b = d := by
  have first := takeWhole a b rfl
  rw [same,takeWhole c d long.symm] at first
  cases first
  exact ⟨rfl,List.append_cancel_left same⟩

theorem digitsSame (left : ∀ x ∈ a, isDecimal x = true) (right : ∀ x ∈ c, isDecimal x = true)
    (stops : ∀ x, b.head? = some x → isDecimal x = false) (stops' : ∀ x, d.head? = some x → isDecimal x = false)
    (same : a ++ b = c ++ d) : a = c ∧ b = d := by
  have run : ∀ {u v : Text}, (∀ x ∈ u, isDecimal x = true) → (∀ x, v.head? = some x → isDecimal x = false) →
      (u ++ v).takeWhile isDecimal = u := by
    intro u v all stop
    rw [List.takeWhile_append_of_pos all]
    cases v with
    | nil => simp
    | cons x v => simp [stop x rfl]
  have first := run left stops
  rw [same,run right stops'] at first
  cases first
  exact ⟨rfl,List.append_cancel_left same⟩

end

/-- What makes the cut of a text into pieces unique. -/
def ZoneText.Placed : ZoneText → Prop
  | .local_ => True
  | .utc => True
  | .offset sign hours _ => (sign = '+' ∨ sign = '-') ∧ size hours = 2

structure ClockText.Placed (clock : ClockText) : Prop where
  hours : size clock.hours = 2
  minutes : size clock.minutes = 2
  seconds : ∀ piece, clock.seconds = some piece → size piece = 2
  fraction : ∀ piece, clock.fraction = some piece → ∀ c ∈ piece, isDecimal c = true
  zone : clock.zone.Placed

def DayText.Placed : DayText → Prop
  | .year => True
  | .month mm => size mm = 2
  | .date mm dd => size mm = 2 ∧ size dd = 2

def YearPlaced (sign : Option Char) (year : Text) : Prop :=
  match sign with
  | none => ¬Signed year ∧ size year = 4
  | some sign => (sign = '+' ∨ sign = '-') ∧ size year = 6

structure IsoText.Placed (iso : IsoText) : Prop where
  year : YearPlaced iso.sign iso.year
  day : iso.day.Placed
  clock : ∀ clock, iso.clock = some clock → clock.Placed

theorem ZoneText.placedHead {zone : ZoneText} (placed : zone.Placed) {c} (head : zone.text.head? = some c) :
    isDecimal c = false ∧ c ≠ '.' ∧ c ≠ ':' := by
  cases zone with
  | local_ => cases head
  | utc => cases head; decide
  | offset sign hours minutes =>
    cases head
    exact (signSize placed.1).2

theorem ZoneText.unique {zone zone' : ZoneText} (placed : zone.Placed) (placed' : zone'.Placed) (same : zone.text = zone'.text) : zone = zone' := by
  have notZ : ∀ {sign : Char}, (sign = '+' ∨ sign = '-') → sign ≠ 'Z' := by
    intro sign signed
    rcases signed with rfl | rfl <;> decide
  cases zone with
  | local_ =>
    cases zone' with
    | local_ => rfl
    | utc => cases same
    | offset => cases same
  | utc =>
    cases zone' with
    | local_ => cases same
    | utc => rfl
    | offset sign hours minutes => exact absurd (List.cons.inj same).1.symm (notZ placed'.1)
  | offset sign hours minutes =>
    cases zone' with
    | local_ => cases same
    | utc => exact absurd (List.cons.inj same).1 (notZ placed.1)
    | offset sign' hours' minutes' =>
      obtain ⟨signs,rest⟩ := List.cons.inj same
      obtain ⟨first,second⟩ := appendSame (placed.2.trans placed'.2.symm) rest
      rw [signs,first,(List.cons.inj second).2]

theorem partSame {mark tail tail' piece piece'}
    (left_ : ∀ other, piece = some other → size other = 2) (right_ : ∀ other, piece' = some other → size other = 2)
    (stops : tail.head? ≠ some mark) (stops' : tail'.head? ≠ some mark)
    (same : part mark piece ++ tail = part mark piece' ++ tail') : piece = piece' ∧ tail = tail' := by
  cases piece with
  | none =>
    cases piece' with
    | none => exact ⟨rfl,same⟩
    | some other => exact absurd (congrArg List.head? same) stops
  | some piece =>
    cases piece' with
    | none => exact absurd (congrArg List.head? same).symm stops'
    | some other =>
      obtain ⟨first,second⟩ := appendSame ((left_ piece rfl).trans (right_ other rfl).symm) (List.cons.inj same).2
      exact ⟨by rw [first],second⟩

theorem ClockText.placedTail {clock : ClockText} (placed : clock.Placed) :
    (part '.' clock.fraction ++ clock.zone.text).head? ≠ some ':' := by
  intro head
  cases found : clock.fraction with
  | none =>
    rw [found] at head
    exact (ZoneText.placedHead placed.zone head).2.2 rfl
  | some piece =>
    rw [found] at head
    exact absurd head (by simp [part])

theorem ClockText.unique {clock clock' : ClockText} (placed : clock.Placed) (placed' : clock'.Placed)
    (same : clock.text = clock'.text) : clock = clock' := by
  obtain ⟨hours,same⟩ := appendSame (placed.hours.trans placed'.hours.symm) same
  obtain ⟨minutes,same⟩ := appendSame (placed.minutes.trans placed'.minutes.symm) (List.cons.inj same).2
  obtain ⟨seconds,same⟩ := partSame placed.seconds placed'.seconds (ClockText.placedTail placed) (ClockText.placedTail placed') same
  have rest : clock.fraction = clock'.fraction ∧ clock.zone.text = clock'.zone.text := by
    cases found : clock.fraction with
    | none =>
      cases found' : clock'.fraction with
      | none =>
        rw [found,found'] at same
        exact ⟨rfl,same⟩
      | some piece' =>
        rw [found,found'] at same
        exact absurd rfl (ZoneText.placedHead placed.zone (congrArg List.head? same)).2.1
    | some piece =>
      cases found' : clock'.fraction with
      | none =>
        rw [found,found'] at same
        exact absurd rfl (ZoneText.placedHead placed'.zone (congrArg List.head? same).symm).2.1
      | some piece' =>
        rw [found,found'] at same
        obtain ⟨digits,zones⟩ := digitsSame (placed.fraction piece found) (placed'.fraction piece' found')
          (fun x head => (ZoneText.placedHead placed.zone head).1)
          (fun x head => (ZoneText.placedHead placed'.zone head).1) (List.cons.inj same).2
        exact ⟨by rw [digits],zones⟩
  have zones := ZoneText.unique placed.zone placed'.zone rest.2
  cases clock
  simp only at hours minutes seconds rest zones
  rw [hours,minutes,seconds,rest.1,zones]

theorem DayText.unique {day day' : DayText} {clock clock'} (placed : day.Placed) (placed' : day'.Placed)
    (same : day.text ++ part 'T' clock = day'.text ++ part 'T' clock') : day = day' ∧ part 'T' clock = part 'T' clock' := by
  have plain : ∀ {clock : Option Text} {rest : Text}, part 'T' clock ≠ '-' :: rest := by
    intro clock rest wrong
    cases clock with
    | none => cases wrong
    | some clock => exact absurd (List.cons.inj wrong).1 (by decide)
  cases day with
  | year =>
    cases day' with
    | year => exact ⟨rfl,same⟩
    | month mm => exact absurd same plain
    | date mm dd => exact absurd same plain
  | month mm =>
    cases day' with
    | year => exact absurd same.symm plain
    | month mm' =>
      obtain ⟨months,tails⟩ := appendSame (Eq.trans placed placed'.symm) (List.cons.inj same).2
      exact ⟨by rw [months],tails⟩
    | date mm' dd' =>
      simp only [DayText.text,List.cons_append,List.append_assoc] at same
      have inner := (List.cons.inj same).2
      exact absurd (appendSame (Eq.trans placed placed'.1.symm) inner).2 plain
  | date mm dd =>
    cases day' with
    | year => exact absurd same.symm plain
    | month mm' =>
      simp only [DayText.text,List.cons_append,List.append_assoc] at same
      have inner := (List.cons.inj same).2
      exact absurd (appendSame (placed.1.trans placed'.symm) inner).2.symm plain
    | date mm' dd' =>
      simp only [DayText.text,List.cons_append,List.append_assoc] at same
      have inner := (List.cons.inj same).2
      obtain ⟨months,inner⟩ := appendSame (placed.1.trans placed'.1.symm) inner
      obtain ⟨dates,tails⟩ := appendSame (placed.2.trans placed'.2.symm) (List.cons.inj inner).2
      exact ⟨by rw [months,dates],tails⟩

theorem IsoText.unique {iso iso' : IsoText} (placed : iso.Placed) (placed' : iso'.Placed) (same : iso.text = iso'.text) :
    iso = iso' := by
  obtain ⟨sign,year,day,clock⟩ := iso
  obtain ⟨sign',year',day',clock'⟩ := iso'
  have years : sign = sign' ∧ year = year' ∧
      day.text ++ part 'T' (clock.map ClockText.text) = day'.text ++ part 'T' (clock'.map ClockText.text) := by
    have unsigned : ∀ {year : Text} {sign : Char} {rest tail : Text}, YearPlaced none year → (sign = '+' ∨ sign = '-') →
        year ++ rest ≠ sign :: tail := by
      intro year sign rest tail plain signed wrong
      cases year with
      | nil => exact absurd plain.2 (by decide)
      | cons c year =>
        have first := (List.cons.inj wrong).1
        exact plain.1 (signed.imp (fun plus => by rw [first,plus]; rfl) fun minus => by rw [first,minus]; rfl)
    cases sign with
    | none =>
      cases sign' with
      | none =>
        obtain ⟨first,rest⟩ := appendSame (placed.year.2.trans placed'.year.2.symm) same
        exact ⟨rfl,first,rest⟩
      | some sign' =>
        have plain : year ++ (day.text ++ part 'T' (clock.map ClockText.text)) =
            sign' :: (year' ++ (day'.text ++ part 'T' (clock'.map ClockText.text))) := same
        exact absurd plain (unsigned placed.year placed'.year.1)
    | some sign =>
      cases sign' with
      | none =>
        have plain : year' ++ (day'.text ++ part 'T' (clock'.map ClockText.text)) =
            sign :: (year ++ (day.text ++ part 'T' (clock.map ClockText.text))) := same.symm
        exact absurd plain (unsigned placed'.year placed.year.1)
      | some sign' =>
        obtain ⟨signs,inner⟩ := List.cons.inj same
        obtain ⟨first,rest⟩ := appendSame (placed.year.2.trans placed'.year.2.symm) inner
        exact ⟨by rw [signs],first,rest⟩
  obtain ⟨signs,years,rest⟩ := years
  obtain ⟨days,clocks⟩ : day = day' ∧ _ := DayText.unique placed.day placed'.day rest
  have last : clock = clock' := by
    cases clock with
    | none =>
      cases clock' with
      | none => rfl
      | some clock' => cases clocks
    | some clock =>
      cases clock' with
      | none => cases clocks
      | some clock' =>
        rw [ClockText.unique (placed.clock clock rfl) (placed'.clock clock' rfl) (List.cons.inj clocks).2]
  rw [signs,years,days,last]

theorem digitsUnsigned {piece} (digits : IsDigits piece) : ¬Signed piece := by
  intro signed
  rcases signed with plus | minus
  · have := digits.2 _ (List.mem_of_mem_head? plus)
    cases this
  · have := digits.2 _ (List.mem_of_mem_head? minus)
    cases this

theorem unsignedDigits {piece n} (read : signedInteger true piece = some n) (plain : ¬Signed piece) :
    IsDigits piece := by
  unfold signedInteger at read
  split at read
  · exact absurd (.inl rfl) plain
  · exact absurd (.inr rfl) plain
  · obtain ⟨m,found,_⟩ := Option.map_eq_some_iff.mp read
    rw [readDigits] at found
    split at found
    · assumption
    · cases found

section
variable {piece : Text} {width low high : Nat}

theorem digitsParsed (digits : IsDigits piece) (short : piece.length ≤ 6) :
    size piece = piece.length ∧ parseI64 piece = some (digitsOf piece : Int) ∧ fieldValue piece = digitsOf piece := by
  have below := digitsBelow digits.2
  have power : 10^piece.length ≤ 10^6 := Nat.pow_le_pow_right (by decide) short
  have read : parseI64 piece = some (digitsOf piece : Int) := parseDigits digits (by omega)
  exact ⟨digitsSize digits.2,read,by rw [fieldValue,read,Option.getD_some]⟩

theorem formedField (formed : Digits 2 low high piece) :
    Field piece ∧ fieldValue piece = digitsOf piece ∧ low ≤ digitsOf piece ∧ digitsOf piece ≤ high := by
  obtain ⟨long,digits,range⟩ := formed
  obtain ⟨sizes,read,value⟩ := digitsParsed digits (by omega)
  exact ⟨⟨sizes.trans long,by rw [read]; rfl⟩,value,range⟩

theorem fieldPlain (field : Field piece) (plain : ¬Signed piece) :
    piece.length = 2 ∧ IsDigits piece ∧ fieldValue piece = digitsOf piece := by
  have wide : parseI64 piece = signedInteger true piece := parseShort (by rw [field.1]; decide)
  have digits := unsignedDigits (wide.symm.trans (fieldRead field.2)) plain
  have long : piece.length = 2 := (digitsSize digits.2).symm.trans field.1
  obtain ⟨_,_,value⟩ := digitsParsed digits (by omega)
  exact ⟨long,digits,value⟩

end

theorem zeroDigits {text} (digits : ∀ c ∈ text, isDecimal c = true) (zero : digitsOf text = 0) :
    text = List.replicate text.length '0' := by
  induction text with
  | nil => rfl
  | cons c rest ih =>
    obtain ⟨d,_,same,value⟩ := decimalIsDigit (digits c List.mem_cons_self)
    have first : c.toNat-48 = d := by
      rw [digitOf,if_pos (digits c List.mem_cons_self)] at value
      exact Option.some.inj value
    rw [digitsOf,List.map_cons,Numeral.readCons,first] at zero
    have none_ : d = 0 := by
      rcases Nat.mul_eq_zero.mp (Nat.eq_zero_of_add_eq_zero_right zero) with none_ | power
      · exact none_
      · exact absurd power (Nat.pow_pos (by decide)).ne'
    have rest_ := ih (fun e among => digits e (List.mem_cons_of_mem _ among)) (Nat.eq_zero_of_add_eq_zero_left zero)
    rw [List.length_cons,List.replicate_succ,← rest_,same,none_]
    rfl

theorem zeroMilliseconds {digits} (zero : digitsOf digits = 0) : millisecondsOf digits = 0 := by
  have split_ : digitsOf digits = digitsOf (digits.take 3) * 10^((digits.drop 3).map fun c => c.toNat-48).length +
      digitsOf (digits.drop 3) := by
    rw [digitsOf,digitsOf,digitsOf,← Numeral.readAppend,← List.map_append,List.take_append_drop]
  have first : digitsOf (digits.take 3) = 0 := by
    have : digitsOf (digits.take 3) * 10^((digits.drop 3).map fun c => c.toNat-48).length = 0 := by omega
    rcases Nat.mul_eq_zero.mp this with none_ | none_
    · exact none_
    · exact absurd none_ (Nat.pow_pos (by decide)).ne'
  rw [millisecondsOf,first]
  simp

namespace ZoneText

theorem Formed.accepted {zone : ZoneText} (formed : zone.Formed) : zone.Accepted := by
  cases zone with
  | local_ => trivial
  | utc => trivial
  | offset sign hours minutes =>
    obtain ⟨h,hoursValue,_,hoursHigh⟩ := formedField formed.2.1
    obtain ⟨m,minutesValue,_,minutesHigh⟩ := formedField formed.2.2
    exact ⟨formed.1,h,m,by omega,by omega⟩

theorem Accepted.placed {zone : ZoneText} (accepted : zone.Accepted) : zone.Placed := by
  cases zone with
  | local_ => trivial
  | utc => trivial
  | offset sign hours minutes => exact ⟨accepted.1,accepted.2.1.1⟩

theorem Formed.unsigned {zone : ZoneText} (formed : zone.Formed) : ∀ piece ∈ zone.fields, ¬Signed piece := by
  cases zone with
  | local_ => simp [ZoneText.fields]
  | utc => simp [ZoneText.fields]
  | offset sign hours minutes =>
    simp only [ZoneText.fields,List.forall_mem_cons,List.not_mem_nil,false_implies,implies_true,and_true]
    exact ⟨digitsUnsigned formed.2.1.2.1,digitsUnsigned formed.2.2.2.1⟩

theorem Accepted.formed {zone : ZoneText} (accepted : zone.Accepted) (plain : ∀ piece ∈ zone.fields, ¬Signed piece) :
    zone.Formed := by
  cases zone with
  | local_ => trivial
  | utc => trivial
  | offset sign hours minutes =>
    obtain ⟨signed,h,m,hoursHigh,minutesHigh⟩ := accepted
    simp only [ZoneText.fields,List.forall_mem_cons,List.not_mem_nil,false_implies,implies_true,and_true] at plain
    obtain ⟨hoursLong,hoursDigits,hoursValue⟩ := fieldPlain h plain.1
    obtain ⟨minutesLong,minutesDigits,minutesValue⟩ := fieldPlain m plain.2
    exact ⟨signed,⟨hoursLong,hoursDigits,by omega,by omega⟩,⟨minutesLong,minutesDigits,by omega,by omega⟩⟩

end ZoneText

namespace ClockText

theorem Formed.values {clock : ClockText} (formed : clock.Formed) :
    clock.hour = digitsOf clock.hours ∧ clock.minute = digitsOf clock.minutes ∧
    (0 ≤ clock.second ∧ clock.second ≤ 59) ∧
    (digitsOf clock.hours = 24 → clock.second = 0 ∧ clock.millisecond = 0) := by
  refine ⟨(formedField formed.hours).2.1,(formedField formed.minutes).2.1,?_,?_⟩
  · rw [second]
    cases found : clock.seconds with
    | none => exact ⟨Int.le_refl 0,by decide⟩
    | some piece =>
      obtain ⟨_,value,_,high⟩ := formedField (formed.seconds piece found)
      rw [Option.elim_some,value]
      omega
  · intro midnight
    obtain ⟨_,seconds,fraction⟩ := formed.last midnight
    rw [second,millisecond]
    constructor
    · cases found : clock.seconds with
      | none => rfl
      | some piece =>
        obtain ⟨_,value,_⟩ := formedField (formed.seconds piece found)
        rw [Option.elim_some,value,seconds piece found]
        rfl
    · cases found : clock.fraction with
      | none => rfl
      | some piece => rw [Option.elim_some,zeroMilliseconds (fraction piece found)]

theorem Formed.accepted {clock : ClockText} (formed : clock.Formed) : clock.Accepted := by
  obtain ⟨hour,minute,second,midnight⟩ := formed.values
  have minutesHigh := formed.minutes.2.2.2
  have hoursHigh := formed.hours.2.2.2
  exact {
    hours := (formedField formed.hours).1
    minutes := (formedField formed.minutes).1
    seconds := fun piece found => (formedField (formed.seconds piece found)).1
    fraction := fun piece found => (formed.fraction piece found).1
    range := ⟨by omega,second.2,by omega⟩
    last := fun last => by
      have hours : digitsOf clock.hours = 24 := by omega
      have minutes := (formed.last hours).1
      exact ⟨by omega,midnight hours⟩
    zone := formed.zone.accepted }

theorem Accepted.placed {clock : ClockText} (accepted : clock.Accepted) : clock.Placed where
  hours := accepted.hours.1
  minutes := accepted.minutes.1
  seconds := fun piece found => (accepted.seconds piece found).1
  fraction := fun piece found => (accepted.fraction piece found).2
  zone := accepted.zone.placed

theorem memFields {clock : ClockText} {piece} :
    piece ∈ clock.fields ↔ piece = clock.hours ∨ piece = clock.minutes ∨ clock.seconds = some piece ∨ piece ∈ clock.zone.fields := by
  simp only [fields,List.mem_cons,List.mem_append,Option.mem_toList]

theorem Formed.unsigned {clock : ClockText} (formed : clock.Formed) : ∀ piece ∈ clock.fields, ¬Signed piece := by
  intro piece among
  rcases memFields.mp among with rfl | rfl | found | zone
  · exact digitsUnsigned formed.hours.2.1
  · exact digitsUnsigned formed.minutes.2.1
  · exact digitsUnsigned (formed.seconds piece found).2.1
  · exact formed.zone.unsigned piece zone

theorem Formed.plain {clock : ClockText} (formed : clock.Formed) : ¬(clock.BareFraction ∨ clock.LateFraction) := by
  intro deviant
  rcases deviant with ⟨fraction,seconds⟩ | ⟨hour,piece,found,some_⟩
  · obtain ⟨piece,found⟩ := Option.ne_none_iff_exists'.mp fraction
    exact (formed.fraction piece found).2 seconds
  · have hours : digitsOf clock.hours = 24 := by
      have := formed.values.1
      omega
    exact some_ ((formed.last hours).2.2 piece found)

theorem Accepted.formed {clock : ClockText} (accepted : clock.Accepted) (unsigned : ∀ piece ∈ clock.fields, ¬Signed piece)
    (plain : ¬(clock.BareFraction ∨ clock.LateFraction)) : clock.Formed := by
  obtain ⟨hoursLong,hoursDigits,hoursValue⟩ := fieldPlain accepted.hours (unsigned _ (memFields.mpr (.inl rfl)))
  obtain ⟨minutesLong,minutesDigits,minutesValue⟩ := fieldPlain accepted.minutes (unsigned _ (memFields.mpr (.inr (.inl rfl))))
  obtain ⟨minuteHigh,secondHigh,hourHigh⟩ := accepted.range
  have hour : clock.hour = fieldValue clock.hours := rfl
  have minute : clock.minute = fieldValue clock.minutes := rfl
  have secondsPlain : ∀ piece, clock.seconds = some piece →
      piece.length = 2 ∧ IsDigits piece ∧ clock.second = digitsOf piece := by
    intro piece found
    obtain ⟨long,digits,value⟩ := fieldPlain (accepted.seconds piece found)
      (unsigned _ (memFields.mpr (.inr (.inr (.inl found)))))
    exact ⟨long,digits,by rw [second,found,Option.elim_some,value]⟩
  exact {
    hours := ⟨hoursLong,hoursDigits,by omega,by omega⟩
    minutes := ⟨minutesLong,minutesDigits,by omega,by omega⟩
    seconds := fun piece found => by
      obtain ⟨long,digits,value⟩ := secondsPlain piece found
      exact ⟨long,digits,by omega,by omega⟩
    fraction := fun piece found => ⟨accepted.fraction piece found,fun none_ =>
      plain (.inl ⟨by rw [found]; exact Option.some_ne_none piece,none_⟩)⟩
    last := fun midnight => by
      have last : clock.hour = 24 := by omega
      obtain ⟨minutes,seconds,_⟩ := accepted.last last
      refine ⟨by omega,?_,?_⟩
      · intro piece found
        obtain ⟨_,_,value⟩ := secondsPlain piece found
        omega
      · intro piece found
        by_contra some_
        exact plain (.inr ⟨last,piece,found,some_⟩)
    zone := accepted.zone.formed fun piece zone => unsigned _ (memFields.mpr (.inr (.inr (.inr zone)))) }

end ClockText

namespace IsoText

theorem memFields {iso : IsoText} {piece} :
    piece ∈ iso.fields ↔ piece = iso.year ∨ piece ∈ iso.day.fields ∨ ∃ clock, iso.clock = some clock ∧ piece ∈ clock.fields := by
  rw [fields,List.mem_cons,List.mem_append]
  cases iso.clock with
  | none => simp
  | some clock => simp

theorem Formed.yearValue_ {iso : IsoText} (formed : iso.Formed) :
    IsDigits iso.year ∧ iso.yearValue = iso.sign.elim 1 signValue * digitsOf iso.year ∧ YearAccepted iso.sign iso.year := by
  obtain ⟨sign,year,day,clock⟩ := iso
  have shape := formed.year
  cases sign with
  | none =>
    obtain ⟨long,digits,_⟩ := shape
    have long : year.length = 4 := long
    obtain ⟨sizes,read,value⟩ := digitsParsed digits (show year.length ≤ 6 by omega)
    have plain := not_or.mp (digitsUnsigned digits)
    refine ⟨digits,?_,plain.1,plain.2,sizes.trans long,by rw [read]; rfl⟩
    rw [yearValue,value]
  | some sign =>
    obtain ⟨signed,⟨long,digits,_⟩,nonzero⟩ := shape
    have long : year.length = 6 := long
    obtain ⟨sizes,read,value⟩ := digitsParsed digits (show year.length ≤ 6 by omega)
    refine ⟨digits,?_,signed,sizes.trans long,by rw [read]; rfl,?_⟩
    · rw [yearValue,value]
    · intro both
      refine nonzero ⟨both.1,?_⟩
      rw [both.2]
      decide

theorem Formed.placed {iso : IsoText} (formed : iso.Formed) : iso.Placed := by
  obtain ⟨digits,_,year⟩ := formed.yearValue_
  obtain ⟨sign,piece,day,clock⟩ := iso
  refine ⟨?_,?_,fun clock found => (formed.clock clock found).accepted.placed⟩
  · cases sign with
    | none => exact ⟨digitsUnsigned digits,year.2.2.1⟩
    | some sign => exact ⟨year.1,year.2.1⟩
  · have shape := formed.day
    cases day with
    | year => trivial
    | month mm => exact (formedField shape).1.1
    | date mm dd => exact ⟨(formedField shape.1).1.1,(formedField shape.2).1.1⟩

theorem Accepted.placed {iso : IsoText} (accepted : iso.Accepted) : iso.Placed := by
  have year := accepted.year
  have shape := accepted.day
  obtain ⟨sign,piece,day,clock⟩ := iso
  refine ⟨?_,?_,fun clock found => (accepted.clock clock found).2.placed⟩
  · cases sign with
    | none => exact ⟨not_or.mpr ⟨year.1,year.2.1⟩,year.2.2.1⟩
    | some sign => exact ⟨year.1,year.2.1⟩
  · cases day with
    | year => trivial
    | month mm => exact (show Field mm from shape).1
    | date mm dd => exact ⟨shape.1.1,shape.2.1⟩

/-- The format's texts are accepted, but for a year directly before a clock. -/
theorem Formed.accepted {iso : IsoText} (formed : iso.Formed) (dated : ¬iso.Undated) : iso.Accepted := by
  obtain ⟨_,value,year⟩ := formed.yearValue_
  have shape := formed.day
  rw [← value] at shape
  have days := daysInMonthPositive iso.yearValue
  have ranges : iso.day.Fields ∧ (1 ≤ iso.day.monthValue ∧ iso.day.monthValue ≤ 12) ∧
      (1 ≤ iso.day.dateValue ∧ iso.day.dateValue ≤ daysInMonth iso.yearValue iso.day.monthValue) := by
    generalize iso.day = day at shape
    cases day with
    | year =>
      have := days 1
      exact ⟨trivial,⟨by decide,by decide⟩,by decide,by simp only [DayText.dateValue,DayText.monthValue]; omega⟩
    | month mm =>
      obtain ⟨field,read,low,high⟩ := formedField shape
      have := days (fieldValue mm)
      exact ⟨field,⟨by simp only [DayText.monthValue]; omega,by simp only [DayText.monthValue]; omega⟩,Int.le_refl 1,
        by simp only [DayText.dateValue,DayText.monthValue]; omega⟩
    | date mm dd =>
      obtain ⟨field,read,low,high⟩ := formedField shape.1
      obtain ⟨field',read',low',high'⟩ := formedField shape.2
      rw [← read] at high'
      refine ⟨⟨field,field'⟩,⟨?_,?_⟩,?_,?_⟩
      · simp only [DayText.monthValue]; omega
      · simp only [DayText.monthValue]; omega
      · simp only [DayText.dateValue]; omega
      · simp only [DayText.dateValue,DayText.monthValue]; omega
  exact ⟨year,ranges.1,ranges.2,fun clock found =>
    ⟨fun none_ => dated ⟨none_,by rw [found]; exact Option.some_ne_none clock⟩,(formed.clock clock found).accepted⟩⟩

theorem Formed.plain {iso : IsoText} (formed : iso.Formed) : ¬iso.Deviant := by
  intro deviant
  rcases deviant with ⟨piece,among,signed⟩ | ⟨clock,found,deviant⟩
  · rcases memFields.mp among with rfl | day | ⟨clock,found,inner⟩
    · exact digitsUnsigned formed.yearValue_.1 signed
    · have shape := formed.day
      generalize iso.day = days at shape day
      cases days with
      | year => cases day
      | month mm =>
        rw [List.mem_singleton.mp day] at signed
        exact digitsUnsigned shape.2.1 signed
      | date mm dd =>
        rcases List.mem_cons.mp day with rfl | last
        · exact digitsUnsigned shape.1.2.1 signed
        · rw [List.mem_singleton.mp last] at signed
          exact digitsUnsigned shape.2.2.1 signed
    · exact (formed.clock clock found).unsigned piece inner signed
  · exact (formed.clock clock found).plain deviant

theorem Accepted.formed {iso : IsoText} (accepted : iso.Accepted) (plain : ¬iso.Deviant) : iso.Formed := by
  have unsigned : ∀ piece ∈ iso.fields, ¬Signed piece := fun piece among signed => plain (.inl ⟨piece,among,signed⟩)
  have year := accepted.year
  have yearUnsigned := unsigned _ (memFields.mpr (.inl rfl))
  have days := daysInMonthPositive iso.yearValue iso.day.monthValue
  obtain ⟨long,read,_⟩ := yearPlaces year
  have yearDigits : IsDigits iso.year := by
    have short : size iso.year ≤ 6 := by
      generalize iso.sign = sign at year
      cases sign with
      | none => have := year.2.2.1; omega
      | some sign => have := year.2.1; omega
    have wide : parseI64 iso.year = signedInteger true iso.year := parseShort (by
      have : (10 : Int)^size iso.year ≤ 10^6 := pow_le_pow_right₀ (by decide) short
      omega)
    exact unsignedDigits (wide.symm.trans read) yearUnsigned
  have yearLong := digitsSize yearDigits.2
  have below := digitsBelow yearDigits.2
  have shape : YearFormed iso.sign iso.year := by
    generalize iso.sign = sign at year
    cases sign with
    | none =>
      have four : iso.year.length = 4 := yearLong.symm.trans year.2.2.1
      rw [four] at below
      exact ⟨four,yearDigits,Nat.zero_le _,by omega⟩
    | some sign =>
      have six : iso.year.length = 6 := yearLong.symm.trans year.2.1
      rw [six] at below
      refine ⟨year.1,⟨six,yearDigits,Nat.zero_le _,by omega⟩,?_⟩
      intro zero
      have zeros := zeroDigits yearDigits.2 zero.2
      rw [six] at zeros
      exact year.2.2.2 ⟨zero.1,zeros⟩
  have value : iso.yearValue = iso.sign.elim 1 signValue * digitsOf iso.year := by
    have short : iso.year.length ≤ 6 := by
      generalize iso.sign = sign at year
      cases sign with
      | none => have := year.2.2.1; omega
      | some sign => have := year.2.1; omega
    rw [IsoText.yearValue,(digitsParsed yearDigits short).2.2]
  refine ⟨shape,?_,fun clock found => (accepted.clock clock found).2.formed
    (fun piece inner => unsigned piece (memFields.mpr (.inr (.inr ⟨clock,found,inner⟩))))
    fun deviant => plain (.inr ⟨clock,found,deviant⟩)⟩
  rw [← value]
  have fields := accepted.day
  have range := accepted.range
  have inner : ∀ piece ∈ iso.day.fields, ¬Signed piece := fun piece among =>
    unsigned piece (memFields.mpr (.inr (.inl among)))
  generalize iso.day = day at fields range inner days
  cases day with
  | year => trivial
  | month mm =>
    obtain ⟨long,digits,read⟩ := fieldPlain fields (inner mm List.mem_cons_self)
    simp only [DayText.monthValue] at range
    exact ⟨long,digits,by omega,by omega⟩
  | date mm dd =>
    obtain ⟨long,digits,read⟩ := fieldPlain fields.1 (inner mm List.mem_cons_self)
    obtain ⟨long',digits',read'⟩ := fieldPlain fields.2 (inner dd (List.mem_cons_of_mem _ List.mem_cons_self))
    simp only [DayText.monthValue,DayText.dateValue] at range days
    rw [read] at range days
    exact ⟨⟨long,digits,by omega,by omega⟩,long',digits',by omega,by omega⟩

end IsoText

/-- Where the code reads the format: on every text but those of the two kinds. -/
theorem isoFormatRead (text : Text) (zone : TimeZoneRule) :
    (∀ value, parseIso text zone = .ok value ↔ IsoFormat text zone value) ↔ ¬Slip text := by
  constructor
  · intro reads slip
    obtain ⟨iso,rfl,⟨accepted,deviant⟩ | ⟨formed,undated⟩⟩ := slip
    · obtain ⟨iso',same,formed,_⟩ := (reads (iso.instant zone)).mp (isoReads accepted zone)
      have one := IsoText.unique accepted.placed formed.placed same
      subst one
      exact formed.plain deviant
    · obtain ⟨iso',same,accepted,_⟩ := parseIsoIff.mp ((reads (iso.instant zone)).mpr ⟨iso,rfl,formed,rfl⟩)
      have one := IsoText.unique formed.placed accepted.placed same
      subst one
      obtain ⟨clock,found⟩ := Option.ne_none_iff_exists'.mp undated.2
      exact (accepted.clock clock found).1 undated.1
  · intro plain value
    constructor
    · intro ran
      obtain ⟨iso,rfl,accepted,value_⟩ := parseIsoIff.mp ran
      exact ⟨iso,rfl,accepted.formed fun deviant => plain ⟨iso,rfl,.inl ⟨accepted,deviant⟩⟩,value_⟩
    · intro format
      obtain ⟨iso,rfl,formed,rfl⟩ := format
      exact isoReads (formed.accepted fun undated => plain ⟨iso,rfl,.inr ⟨formed,undated⟩⟩) zone

/-- A sign stands in for a digit of the month. -/
theorem isoFormatNotRead :
    ¬∀ text zone value, parseIso text zone = .ok value ↔ IsoFormat text zone value := by
  intro reads
  have read : parseIso "2020-+1".toList .utc = .ok (some 1577836800000) := by decide
  obtain ⟨iso,same,formed,_⟩ := (reads _ _ _).mp read
  have accepted : (IsoText.mk none "2020".toList (.month "+1".toList) none).Accepted :=
    ⟨by decide,by decide,by decide,(by intro clock found; cases found)⟩
  have one := IsoText.unique accepted.placed formed.placed same
  subst one
  exact absurd formed.day.2.1 (by decide)

end Bamts.Date
