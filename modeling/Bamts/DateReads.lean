import Bamts.DateGrammar

/-! `parse_iso` takes exactly the texts made of accepted pieces, and answers with their instant. -/
set_option linter.all false
namespace Bamts.Date
open ByteText Outcome

theorem orAbsentOk {α} {value : Option α} {a} : orAbsent value = .ok a ↔ value = some a := by
  cases value <;> simp [orAbsent]

theorem orPanicOk {α} {value : Option α} {a} : orPanic value = .ok a ↔ value = some a := by
  cases value <;> simp [orPanic]

theorem fieldRead {piece} (field : (parseI64 piece).isSome) : parseI64 piece = some (fieldValue piece) := by
  obtain ⟨n,read⟩ := Option.isSome_iff_exists.mp field
  rw [fieldValue,read,Option.getD_some]

theorem fieldOf {piece n} (read : parseI64 piece = some n) :
    (parseI64 piece).isSome ∧ n = fieldValue piece := by
  rw [fieldValue,read]
  exact ⟨rfl,rfl⟩

theorem dashSize : '-'.utf8Size = 1 := by decide

section
variable {text rest tail piece : Text} {cursor : Nat}

theorem takeWhole (piece tail) {n} (long : size piece = n) : takeBytes n (piece ++ tail) = some piece :=
  takeBytesIff.mpr ⟨tail,rfl,long⟩

theorem twoBytesReads (at_ : At text cursor (piece ++ tail)) (field : Field piece) :
    twoBytes text cursor = .ok (fieldValue piece) := by
  rw [twoBytes,at_.slice_ 2,takeWhole piece tail field.1]
  exact orAbsentOk.mpr (fieldRead field.2)

theorem twoBytesRead {n} (at_ : At text cursor rest) (ran : twoBytes text cursor = .ok n) :
    ∃ piece tail, rest = piece ++ tail ∧ Field piece ∧ n = fieldValue piece ∧ At text (cursor+2) tail := by
  rw [twoBytes,at_.slice_ 2] at ran
  obtain ⟨piece,found,read⟩ := bindOk.mp ran
  obtain ⟨tail,same,long⟩ := takeBytesIff.mp (orAbsentOk.mp found)
  obtain ⟨field,value⟩ := fieldOf (orAbsentOk.mp read)
  subst same
  have moved := at_.past
  rw [long] at moved
  exact ⟨piece,tail,rfl,⟨long,field⟩,value,moved⟩

theorem fieldPast (at_ : At text cursor (piece ++ tail)) (field : Field piece) : At text (cursor+2) tail := by
  have moved := at_.past
  rwa [field.1] at moved

theorem orAbsentHalts {α} {value : Option α} {halt} (h : orAbsent value = .error halt) : halt = .absent := by
  cases value with
  | none => cases h; rfl
  | some a => cases h

theorem twoBytesHalts {halt} (h : twoBytes text cursor = .error halt) : halt = .absent := by
  rcases bindError.mp h with first | ⟨piece,_,second⟩
  · exact orAbsentHalts first
  · exact orAbsentHalts second

theorem dayReads {day : DayText} (at_ : At text cursor (day.text ++ tail)) (fields : day.Fields)
    (stops : tail = [] ∨ ∃ clock, tail = 'T' :: clock) (alone : day = .year → tail = []) :
    isoDateFields text cursor = .ok (day.monthValue,day.dateValue,cursor + size day.text) := by
  cases day with
  | year =>
    have none_ : ¬ cursor < size text := by
      rw [at_.more,DayText.text,alone rfl]
      simp
    rw [isoDateFields,if_neg none_]
    rfl
  | month mm =>
    have first : charAt text cursor = some '-' := at_.char
    have some_ : cursor < size text := at_.more.mpr (List.cons_ne_nil _ _)
    have inner : At text (cursor+1) (mm ++ tail) := at_.next (by decide)
    have after := fieldPast inner fields
    have plain : charAt text (cursor+1+2) ≠ some '-' := by
      rw [after.char]
      rcases stops with rfl | ⟨clock,rfl⟩
      · simp
      · simp
    rw [isoDateFields,if_pos some_,if_neg (not_not_intro first),twoBytesReads inner fields]
    simp only [bind,Except.bind]
    rw [if_neg fun both => plain both.2,DayText.text,sizeCons,fields.1]
    rfl
  | date mm dd =>
    have first : charAt text cursor = some '-' := at_.char
    have some_ : cursor < size text := at_.more.mpr (List.cons_ne_nil _ _)
    have inner : At text (cursor+1) (mm ++ ('-' :: (dd ++ tail))) := by
      have moved : At text (cursor+1) (mm ++ '-' :: dd ++ tail) := at_.next (by decide)
      simpa using moved
    have after := fieldPast inner fields.1
    have second : charAt text (cursor+1+2) = some '-' := after.char
    have more : cursor+1+2 < size text := after.more.mpr (List.cons_ne_nil _ _)
    have last := after.next (by decide)
    rw [isoDateFields,if_pos some_,if_neg (not_not_intro first),twoBytesReads inner fields.1]
    simp only [bind,Except.bind]
    rw [if_pos ⟨more,second⟩,twoBytesReads last fields.2,DayText.text,sizeCons,sizeAppend,sizeCons,fields.1.1,fields.2.1]
    rfl

theorem dayRead {r} (at_ : At text cursor rest) (ran : isoDateFields text cursor = .ok r) :
    ∃ day : DayText, ∃ tail, rest = day.text ++ tail ∧ day.Fields ∧ (day = .year → tail = []) ∧
      r = (day.monthValue,day.dateValue,cursor + size day.text) ∧ At text (cursor + size day.text) tail := by
  rw [isoDateFields] at ran
  split at ran
  · rename_i more
    split at ran
    · cases ran
    · rename_i first
      rw [at_.char,not_not] at first
      obtain ⟨inner,rfl⟩ : ∃ inner, rest = '-' :: inner := List.head?_eq_some_iff.mp first
      obtain ⟨month,found,ran⟩ := bindOk.mp ran
      obtain ⟨mm,tail,rfl,field,rfl,after⟩ := twoBytesRead (at_.next (by decide)) found
      split at ran
      · rename_i second
        rw [show cursor+3 = cursor+1+2 by rfl,after.char] at second
        obtain ⟨inner,rfl⟩ : ∃ inner, tail = '-' :: inner := List.head?_eq_some_iff.mp second.2
        obtain ⟨date,found,ran⟩ := bindOk.mp ran
        obtain ⟨dd,tail,rfl,field',rfl,after'⟩ := twoBytesRead (after.next (by decide)) found
        cases ran
        have long : size (DayText.date mm dd).text = 3+3 := by
          simp [DayText.text,dashSize,field.1,field'.1]
        refine ⟨.date mm dd,tail,by simp [DayText.text],⟨field,field'⟩,(by intro h; cases h),?_,?_⟩
        · rw [long]; rfl
        · rw [long]; exact after'
      · cases ran
        have long : size (DayText.month mm).text = 3 := by
          simp [DayText.text,dashSize,field.1]
        refine ⟨.month mm,tail,by simp [DayText.text],field,(by intro h; cases h),?_,?_⟩
        · rw [long]; rfl
        · rw [long]; exact after
  · rename_i none_
    rw [at_.more,not_not] at none_
    subst none_
    cases ran
    exact ⟨.year,[],rfl,trivial,fun _ => rfl,rfl,at_⟩

theorem secondsReads {seconds} (at_ : At text cursor (part ':' seconds ++ tail))
    (fields : ∀ piece, seconds = some piece → Field piece) (stops : tail.head? ≠ some ':') :
    isoSeconds text cursor = .ok (seconds.elim 0 fieldValue,cursor + size (part ':' seconds)) := by
  cases seconds with
  | none =>
    have plain : charAt text cursor ≠ some ':' := by
      rw [at_.char]
      exact stops
    rw [isoSeconds,if_neg plain]
    rfl
  | some piece =>
    have field := fields piece rfl
    have mark : charAt text cursor = some ':' := at_.char
    rw [isoSeconds,if_pos mark,twoBytesReads (at_.next (by decide)) field,part,sizeCons,field.1]
    rfl

theorem secondsRead {r} (at_ : At text cursor rest) (ran : isoSeconds text cursor = .ok r) :
    ∃ seconds tail, rest = part ':' seconds ++ tail ∧ (∀ piece, seconds = some piece → Field piece) ∧
      r = (seconds.elim 0 fieldValue,cursor + size (part ':' seconds)) ∧ At text (cursor + size (part ':' seconds)) tail := by
  rw [isoSeconds] at ran
  split at ran
  · rename_i mark
    rw [at_.char] at mark
    obtain ⟨inner,rfl⟩ : ∃ inner, rest = ':' :: inner := List.head?_eq_some_iff.mp mark
    obtain ⟨second,found,ran⟩ := bindOk.mp ran
    obtain ⟨piece,tail,rfl,field,rfl,after⟩ := twoBytesRead (at_.next (by decide)) found
    cases ran
    have long : size (part ':' (some piece)) = 1+2 := by
      rw [part,sizeCons,field.1]
      rfl
    refine ⟨some piece,tail,rfl,?_,?_,?_⟩
    · intro other same
      cases same
      exact field
    · rw [long]; rfl
    · rw [long]; exact after
  · cases ran
    exact ⟨none,rest,rfl,(by intro piece none_; cases none_),rfl,at_⟩

theorem secondsHalts {halt} (h : isoSeconds text cursor = .error halt) : halt = .absent := by
  rw [isoSeconds] at h
  split at h
  · rcases bindError.mp h with first | ⟨second,_,rest⟩
    · exact twoBytesHalts first
    · cases rest
  · cases h

theorem digitsRun {digits} (at_ : At text cursor (digits ++ tail)) (all : ∀ c ∈ digits, isDecimal c = true)
    (stops : ∀ c, tail.head? = some c → isDecimal c = false) : digitsEnd text cursor = cursor + size digits := by
  have run : (digits ++ tail).takeWhile isDecimal = digits := by
    rw [List.takeWhile_append_of_pos all]
    cases tail with
    | nil => simp
    | cons c tail => simp [stops c rfl]
  rw [digitsEnd,show dropBytes cursor text = some (digits ++ tail) from at_,Option.getD_some,run,digitsSize all]

theorem millisecondsRead {digits} (all : IsDigits digits) :
    (do
      let firstThree ← cut digits 0 (min (size digits) 3)
      let read ← orAbsent (parseI64 firstThree)
      Except.ok (read * 10^(3 - size firstThree)) : Run Int) = .ok (millisecondsOf digits) := by
  have sizes := digitsSize all.2
  have few : ∀ c ∈ digits.take 3, isDecimal c = true := fun c among => all.2 c (List.mem_of_mem_take among)
  have three : IsDigits (digits.take 3) := ⟨by simpa using all.1,few⟩
  have long : size (digits.take 3) = min (size digits) 3 := by
    rw [digitsSize few,sizes,List.length_take,Nat.min_comm]
  have first : cut digits 0 (min (size digits) 3) = .ok (digits.take 3) := by
    refine orPanicOk.mpr (sliceStartIff.mpr ⟨digits.drop 3,?_,long⟩)
    exact (List.take_append_drop 3 digits).symm
  have below := digitsBelow few
  have short : (digits.take 3).length ≤ 3 := List.length_take_le 3 digits
  have power : 10^(digits.take 3).length ≤ 10^3 := Nat.pow_le_pow_right (by decide) short
  have read : parseI64 (digits.take 3) = some (digitsOf (digits.take 3) : Int) := parseDigits three (by omega)
  rw [first]
  simp only [bind,Except.bind]
  rw [read,digitsSize few]
  rfl

theorem fractionSome {digits : Text} (at_ : At text cursor ('.' :: (digits ++ tail))) (all : IsDigits digits)
    (stops : ∀ c, tail.head? = some c → isDecimal c = false) :
    isoFraction text cursor = .ok (millisecondsOf digits,cursor + size (part '.' (some digits))) := by
  have mark : charAt text cursor = some '.' := at_.char
  have inner : At text (cursor+1) (digits ++ tail) := at_.next (by decide)
  have run := digitsRun inner all.2 stops
  have positive : 0 < size digits := Nat.pos_of_ne_zero (mt sizeZero.mp all.1)
  have sliced : cut text (cursor+1) (cursor+1+size digits) = .ok digits := by
    rw [cut,inner.slice_]
    exact orPanicOk.mpr (takeWhole digits tail rfl)
  have dot : size (part '.' (some digits)) = 1 + size digits := by
    rfl
  have read := millisecondsRead all
  rw [isoFraction,if_pos mark]
  simp only [run]
  rw [if_neg (by omega),sliced]
  obtain ⟨three,found,read⟩ := bindOk.mp read
  obtain ⟨number,parsed,value⟩ := bindOk.mp read
  simp only [bind,Except.bind,found,parsed]
  rw [← Except.ok.inj value,dot,Nat.add_assoc]

theorem fractionReads {fraction} (at_ : At text cursor (part '.' fraction ++ tail)) (digits : ∀ piece, fraction = some piece → IsDigits piece)
    (stops : ∀ c, tail.head? = some c → isDecimal c = false ∧ c ≠ '.') :
    isoFraction text cursor = .ok (fraction.elim 0 millisecondsOf,cursor + size (part '.' fraction)) := by
  cases fraction with
  | none =>
    have plain : charAt text cursor ≠ some '.' := by
      rw [at_.char]
      intro mark
      exact (stops '.' mark).2 rfl
    rw [isoFraction,if_neg plain]
    rfl
  | some piece => exact fractionSome at_ (digits piece rfl) fun c head => (stops c head).1

/-- A fraction is refused without digits; its slices always fall between characters. -/
theorem fractionSteps (at_ : At text cursor rest) :
    isoFraction text cursor = .error .absent ∨
    ∃ fraction tail, rest = part '.' fraction ++ tail ∧ (∀ piece, fraction = some piece → IsDigits piece) ∧
      isoFraction text cursor = .ok (fraction.elim 0 millisecondsOf,cursor + size (part '.' fraction)) ∧
      At text (cursor + size (part '.' fraction)) tail := by
  by_cases mark : charAt text cursor = some '.'
  · have head := mark
    rw [at_.char] at head
    obtain ⟨inner,rfl⟩ : ∃ inner, rest = '.' :: inner := List.head?_eq_some_iff.mp head
    have inner_ := at_.next (by decide)
    have all : ∀ c ∈ inner.takeWhile isDecimal, isDecimal c = true := fun c among => List.mem_takeWhile_imp among
    have split_ : inner = inner.takeWhile isDecimal ++ inner.dropWhile isDecimal := List.takeWhile_append_dropWhile.symm
    by_cases none_ : inner.takeWhile isDecimal = []
    · have run : digitsEnd text (cursor+1) = cursor+1 := by
        rw [digitsEnd,show dropBytes (cursor+1) text = some inner from inner_,Option.getD_some,none_]
        rfl
      rw [isoFraction,if_pos mark]
      simp only [run,if_true]
      exact .inl trivial
    · have whole : At text cursor (part '.' (some (inner.takeWhile isDecimal)) ++ inner.dropWhile isDecimal) := by
        rw [part,List.cons_append,← split_]
        exact at_
      have digits : ∀ piece, some (inner.takeWhile isDecimal) = some piece → IsDigits piece := by
        intro piece same
        cases same
        exact ⟨none_,all⟩
      have stops : ∀ c, (inner.dropWhile isDecimal).head? = some c → isDecimal c = false := by
        intro c head
        have := List.head?_dropWhile_not isDecimal inner
        rw [head] at this
        simpa using this
      refine .inr ⟨some (inner.takeWhile isDecimal),inner.dropWhile isDecimal,?_,digits,?_,whole.past⟩
      · rw [part,List.cons_append,← split_]
      · exact fractionSome whole ⟨none_,all⟩ stops
  · exact .inr ⟨none,rest,rfl,(by intro piece none_; cases none_),by rw [isoFraction,if_neg mark]; rfl,at_⟩

end

theorem fieldParsed {piece} (field : Field piece) :
    parseI32 piece = some (fieldValue piece) ∧ (fieldValue piece).natAbs ≤ 99 := by
  have wide : parseI64 piece = signedInteger true piece := parseShort (by rw [field.1]; decide)
  have narrow : parseI32 piece = signedInteger true piece := parseShort (by rw [field.1]; decide)
  have read := fieldRead field.2
  have below := signedBelow (wide.symm.trans read)
  rw [field.1] at below
  exact ⟨narrow.trans (wide.symm.trans read),by omega⟩

theorem fieldOfI32 {piece n} (long : size piece = 2) (read : parseI32 piece = some n) :
    Field piece ∧ n = fieldValue piece := by
  have wide : parseI64 piece = signedInteger true piece := parseShort (by rw [long]; decide)
  have narrow : parseI32 piece = signedInteger true piece := parseShort (by rw [long]; decide)
  obtain ⟨field,value⟩ := fieldOf (wide.trans (narrow.symm.trans read))
  exact ⟨⟨long,field⟩,value⟩

theorem signSize {sign} (signed : sign = '+' ∨ sign = '-') : sign.utf8Size = 1 ∧ isDecimal sign = false ∧
    sign ≠ '.' ∧ sign ≠ ':' := by
  rcases signed with rfl | rfl <;> decide

theorem signedHead {text} (head : charAt text 0 = some '+' ∨ charAt text 0 = some '-') :
    ∃ sign inner, text = sign :: inner ∧ (sign = '+' ∨ sign = '-') := by
  rw [charAtStart] at head
  rcases head with plus | minus
  · obtain ⟨inner,same⟩ := List.head?_eq_some_iff.mp plus
    exact ⟨_,inner,same,.inl rfl⟩
  · obtain ⟨inner,same⟩ := List.head?_eq_some_iff.mp minus
    exact ⟨_,inner,same,.inr rfl⟩

section
variable {text hours minutes : Text} {sign : Char}

-- Where the pieces of `±HH:mm` stand.
theorem offsetPlaces (signed : sign = '+' ∨ sign = '-') (h : size hours = 2) (m : size minutes = 2) :
    size (sign :: (hours ++ ':' :: minutes)) = 6 ∧
    charAt (sign :: (hours ++ ':' :: minutes)) 3 = some ':' ∧
    cut (sign :: (hours ++ ':' :: minutes)) 1 3 = .ok hours ∧
    cut (sign :: (hours ++ ':' :: minutes)) 4 6 = .ok minutes := by
  have colon : ':'.utf8Size = 1 := by decide
  have first : At (sign :: (hours ++ ':' :: minutes)) 1 (hours ++ ':' :: minutes) :=
    (At.start _).next (signSize signed).1
  have second : At (sign :: (hours ++ ':' :: minutes)) 3 (':' :: minutes) := by
    have moved := first.past
    rwa [h] at moved
  have third : At (sign :: (hours ++ ':' :: minutes)) 4 minutes := second.next colon
  have last : takeBytes 2 minutes = some minutes := takeBytesIff.mpr ⟨[],(List.append_nil _).symm,m⟩
  refine ⟨?_,second.char,?_,?_⟩
  · simp only [sizeCons,sizeAppend,(signSize signed).1,colon,h,m]
  · exact orPanicOk.mpr ((first.slice_ 2).trans (takeWhole hours _ h))
  · exact orPanicOk.mpr ((third.slice_ 2).trans last)

theorem fieldsSame {other others : Text} (h : size hours = 2) (o : size other = 2)
    (same : hours ++ ':' :: minutes = other ++ ':' :: others) : hours = other ∧ minutes = others := by
  have first := takeWhole hours (':' :: minutes) h
  rw [same,takeWhole other _ o] at first
  cases first
  exact ⟨rfl,(List.cons.inj (List.append_cancel_left same)).2⟩

theorem offsetReads (accepted : (ZoneText.offset sign hours minutes).Accepted) :
    parseIsoOffset (ZoneText.offset sign hours minutes).text =
      .ok (signValue sign * (fieldValue hours * 3600 + fieldValue minutes * 60)) := by
  obtain ⟨signed,h,m,hoursHigh,minutesHigh⟩ := accepted
  obtain ⟨long,colon,first,second⟩ := offsetPlaces signed h.1 m.1
  rw [ZoneText.text,parseIsoOffset]
  split
  · rename_i plain
    have zero : (fieldValue "00".toList) = 0 := by decide
    have none_ : hours = "00".toList ∧ minutes = "00".toList := by
      rcases plain with utc | east | west
      · exact absurd (List.cons.inj utc).1 (by rcases signed with rfl | rfl <;> decide)
      · exact fieldsSame h.1 (by decide) (List.cons.inj east).2
      · exact fieldsSame h.1 (by decide) (List.cons.inj west).2
    rw [none_.1,none_.2,zero]
    simp
  · have head : charAt (sign :: (hours ++ ':' :: minutes)) 0 = some sign := (At.start _).char
    rw [head,if_neg]
    · simp only [first,second,bind,Except.bind,(fieldParsed h).1,(fieldParsed m).1,orAbsent]
      rw [if_neg (by omega),signValue]
      simp only [Option.some.injEq]
    · rw [long,colon,Option.some.injEq,Option.some.injEq]
      intro wrong
      rcases wrong with size_ | unsigned | colon_
      · exact size_ rfl
      · exact unsigned signed
      · exact colon_ rfl

theorem offsetRead {n} (ran : parseIsoOffset text = .ok n) (other : text ≠ ['Z']) :
    ∃ sign hours minutes, text = (ZoneText.offset sign hours minutes).text ∧
      (ZoneText.offset sign hours minutes).Accepted ∧
      n = signValue sign * (fieldValue hours * 3600 + fieldValue minutes * 60) := by
  rw [parseIsoOffset] at ran
  split at ran
  · rename_i plain
    cases ran
    rcases plain with utc | east | west
    · exact absurd utc other
    · exact ⟨'+',"00".toList,"00".toList,east,by decide,by decide⟩
    · exact ⟨'-',"00".toList,"00".toList,west,by decide,by decide⟩
  · split at ran
    · cases ran
    · rename_i shape
      obtain ⟨long,shape⟩ := not_or.mp shape
      obtain ⟨head,colon⟩ := not_or.mp shape
      rw [not_not] at long head colon
      obtain ⟨sign,inner,rfl,signed⟩ := signedHead head
      have one : At (sign :: inner) 1 inner := (At.start _).next (signSize signed).1
      obtain ⟨hours,found,ran⟩ := bindOk.mp ran
      obtain ⟨hoursValue,parsed,ran⟩ := bindOk.mp ran
      obtain ⟨minutes,found',ran⟩ := bindOk.mp ran
      obtain ⟨minutesValue,parsed',ran⟩ := bindOk.mp ran
      have first := orPanicOk.mp found
      rw [one.slice_ 2] at first
      obtain ⟨tail,rfl,hoursLong⟩ := takeBytesIff.mp first
      have three : At (sign :: (hours ++ tail)) 3 tail := by
        have moved := one.past
        rwa [hoursLong] at moved
      rw [three.char] at colon
      obtain ⟨rest,rfl⟩ := List.head?_eq_some_iff.mp colon
      have four : At (sign :: (hours ++ ':' :: rest)) 4 rest := three.next (by decide)
      have second := orPanicOk.mp found'
      rw [four.slice_ 2] at second
      obtain ⟨end_,rfl,minutesLong⟩ := takeBytesIff.mp second
      have nothing : end_ = [] := by
        refine sizeZero.mp ?_
        have one_ := (signSize signed).1
        have colon_ : ':'.utf8Size = 1 := by decide
        simp only [sizeCons,sizeAppend,hoursLong,minutesLong,one_,colon_] at long
        omega
      subst nothing
      rw [List.append_nil] at *
      obtain ⟨hoursField,rfl⟩ := fieldOfI32 hoursLong (orAbsentOk.mp parsed)
      obtain ⟨minutesField,rfl⟩ := fieldOfI32 minutesLong (orAbsentOk.mp parsed')
      split at ran
      · cases ran
      · rename_i range
        cases ran
        refine ⟨sign,hours,minutes,rfl,⟨signed,hoursField,minutesField,by omega,by omega⟩,?_⟩
        simp [signValue]

end

section
variable {text rest : Text} {cursor : Nat} {zone : TimeZoneRule}

theorem zoneHead {named : ZoneText} (accepted : named.Accepted) {c} (head : named.text.head? = some c) :
    isDecimal c = false ∧ c ≠ '.' ∧ c ≠ ':' := by
  cases named with
  | local_ => cases head
  | utc => cases head; decide
  | offset sign hours minutes =>
    cases head
    exact (signSize accepted.1).2

theorem zoneReads {named : ZoneText} (at_ : At text cursor named.text) (accepted : named.Accepted) {local_} (finite : local_.natAbs < 2^58) :
    ∃ utc, isoZone text cursor zone (some local_) = .ok utc ∧ timeClip utc = timeClip (some (named.utcTime zone local_)) := by
  cases named with
  | local_ =>
    obtain ⟨utc,run,clip⟩ := zone.checkedUtcClip finite
    refine ⟨utc,?_,clip⟩
    rw [isoZone,if_pos (at_.done.mpr rfl),utcTimeOf,run]
    rfl
  | utc =>
    have rest_ : cutFrom text cursor = .ok ['Z'] := orPanicOk.mpr at_
    have more : ¬ cursor = size text := by rw [at_.done,ZoneText.text]; simp
    refine ⟨some local_,?_,rfl⟩
    rw [isoZone,if_neg more,rest_]
    rfl
  | offset sign hours minutes =>
    have rest_ : cutFrom text cursor = .ok (ZoneText.offset sign hours minutes).text := orPanicOk.mpr at_
    have more : ¬ cursor = size text := by rw [at_.done,ZoneText.text]; simp
    have other : (ZoneText.offset sign hours minutes).text ≠ "Z".toList := by
      intro same
      have first := (List.cons.inj same).1
      rcases accepted.1 with plus | minus
      · rw [plus] at first; exact absurd first (by decide)
      · rw [minus] at first; exact absurd first (by decide)
    refine ⟨_,?_,rfl⟩
    rw [isoZone,if_neg more,rest_]
    simp only [bind,Except.bind]
    rw [if_neg other,offsetReads accepted]
    rfl

theorem zoneRead {local_ utc} (at_ : At text cursor rest) (finite : local_.natAbs < 2^58) (ran : isoZone text cursor zone (some local_) = .ok utc) :
    ∃ named : ZoneText, rest = named.text ∧ named.Accepted ∧ timeClip utc = timeClip (some (named.utcTime zone local_)) := by
  have found : ∃ named : ZoneText, rest = named.text ∧ named.Accepted := by
    rw [isoZone] at ran
    split at ran
    · rename_i done
      exact ⟨.local_,at_.done.mp done,trivial⟩
    · obtain ⟨tail,cut_,ran⟩ := bindOk.mp ran
      have same : dropBytes cursor text = some tail := orPanicOk.mp cut_
      rw [show dropBytes cursor text = some rest from at_] at same
      cases same
      split at ran
      · rename_i utc_
        exact ⟨.utc,utc_,trivial⟩
      · rename_i other
        obtain ⟨offset,parsed,_⟩ := bindOk.mp ran
        obtain ⟨sign,hours,minutes,same,accepted,_⟩ := offsetRead parsed other
        exact ⟨_,same,accepted⟩
  obtain ⟨named,rfl,accepted⟩ := found
  obtain ⟨utc',run,clip⟩ : ∃ utc, isoZone text cursor zone (some local_) = .ok utc ∧
      timeClip utc = timeClip (some (named.utcTime zone local_)) := zoneReads at_ accepted finite
  rw [run] at ran
  cases ran
  exact ⟨named,rfl,accepted,clip⟩

theorem millisecondsRange {digits} (all : IsDigits digits) : 0 ≤ millisecondsOf digits ∧ millisecondsOf digits ≤ 999 := by
  have below : digitsOf (digits.take 3) < 10^(digits.take 3).length :=
    digitsBelow fun c among => all.2 c (List.mem_of_mem_take among)
  have short : (digits.take 3).length ≤ 3 := List.length_take_le 3 digits
  rw [millisecondsOf]
  generalize (digits.take 3).length = k at below short
  interval_cases k <;> omega

namespace ClockText

def time (clock : ClockText) : Int := makeTime clock.hour clock.minute clock.second clock.millisecond

theorem timeBounded {clock : ClockText} (accepted : clock.Accepted) : clock.time.natAbs < 2^30 := by
  have hour := (fieldParsed accepted.hours).2
  have minute := (fieldParsed accepted.minutes).2
  have second : clock.second.natAbs ≤ 99 := by
    rw [ClockText.second]
    cases found : clock.seconds with
    | none => exact Nat.zero_le _
    | some piece => exact (fieldParsed (accepted.seconds piece found)).2
  have millisecond : 0 ≤ clock.millisecond ∧ clock.millisecond ≤ 999 := by
    rw [ClockText.millisecond]
    cases found : clock.fraction with
    | none => exact ⟨Int.le_refl 0,by decide⟩
    | some piece => exact millisecondsRange (accepted.fraction piece found)
  simp only [time,makeTime,ClockText.hour,ClockText.minute,msPerHour,msPerMinute,msPerSecond]
  omega

theorem tailHead {clock : ClockText} (accepted : clock.Accepted) :
    (part '.' clock.fraction ++ clock.zone.text).head? ≠ some ':' := by
  intro head
  cases found : clock.fraction with
  | none =>
    rw [found] at head
    exact (zoneHead accepted.zone head).2.2 rfl
  | some piece =>
    rw [found] at head
    exact absurd head (by simp [part])

end ClockText

theorem makeDateOfDay {midnight} (whole : midnight % msPerDay = 0) (time) :
    makeDate ((some midnight).map day) time = some (midnight + time) := by
  simp only [makeDate,Option.map_some,day,Option.some.injEq]
  rw [Int.ediv_mul_cancel_of_emod_eq_zero whole]

theorem clockReads {clock : ClockText} (at_ : At text cursor clock.text) (accepted : clock.Accepted) {midnight}
    (finite : midnight.natAbs < 2^57) (whole : midnight % msPerDay = 0) :
    isoClock text cursor zone (some midnight) =
      .ok (timeClip (some (clock.zone.utcTime zone (midnight + clock.time)))) := by
  have bounded := ClockText.timeBounded accepted
  have colonAt := fieldPast at_ accepted.hours
  have colon : charAt text (cursor+2) = some ':' := colonAt.char
  have minutesAt := colonAt.next (by decide)
  have secondsAt := fieldPast minutesAt accepted.minutes
  have fractionAt := secondsAt.past
  have zoneAt := fractionAt.past
  have seconds := secondsReads secondsAt accepted.seconds (ClockText.tailHead accepted)
  have fraction := fractionReads fractionAt accepted.fraction fun c head =>
    ⟨(zoneHead accepted.zone head).1,(zoneHead accepted.zone head).2.1⟩
  have local_ : (midnight + clock.time).natAbs < 2^58 := by omega
  obtain ⟨utc,run,clip⟩ : ∃ utc, isoZone text _ zone (some (midnight + clock.time)) = .ok utc ∧
      timeClip utc = timeClip (some (clock.zone.utcTime zone (midnight + clock.time))) := zoneReads zoneAt accepted.zone local_
  have inRange : ¬(59 < fieldValue clock.minutes ∨ 59 < clock.seconds.elim 0 fieldValue ∨ 24 < fieldValue clock.hours ∨
      fieldValue clock.hours = 24 ∧ (fieldValue clock.minutes ≠ 0 ∨ clock.seconds.elim 0 fieldValue ≠ 0 ∨
        clock.fraction.elim 0 millisecondsOf ≠ 0)) := by
    obtain ⟨minute,second,hour⟩ := accepted.range
    intro out
    rcases out with out | out | out | ⟨last,out⟩
    · exact absurd minute (by rw [ClockText.minute]; omega)
    · exact absurd second (by rw [ClockText.second]; omega)
    · exact absurd hour (by rw [ClockText.hour]; omega)
    · obtain ⟨m,s,ms⟩ := accepted.last last
      rcases out with out | out | out
      · exact out m
      · exact out s
      · exact out ms
  rw [isoClock,twoBytesReads at_ accepted.hours]
  simp only [bind,Except.bind]
  rw [if_neg (not_not_intro colon),twoBytesReads minutesAt accepted.minutes]
  simp only [seconds,fraction]
  rw [if_neg inRange,makeDateOfDay whole]
  have same : makeTime (fieldValue clock.hours) (fieldValue clock.minutes) (clock.seconds.elim 0 fieldValue)
      (clock.fraction.elim 0 millisecondsOf) = clock.time := rfl
  rw [same,run]
  simp only [clip]

theorem clockInRange {hour minute second millisecond : Int} (inRange : ¬(59 < minute ∨ 59 < second ∨ 24 < hour ∨
      hour = 24 ∧ (minute ≠ 0 ∨ second ≠ 0 ∨ millisecond ≠ 0))) :
    (minute ≤ 59 ∧ second ≤ 59 ∧ hour ≤ 24) ∧ (hour = 24 → minute = 0 ∧ second = 0 ∧ millisecond = 0) := by
  omega

/-- A clock either is refused or leaves the zone to be read, after the pieces in front of it. -/
theorem clockSteps {midnight} (at_ : At text cursor rest) (finite : midnight.natAbs < 2^57) (whole : midnight % msPerDay = 0) :
    isoClock text cursor zone (some midnight) = .error .absent ∨
    ∃ hours minutes seconds fraction tail cursor',
      rest = hours ++ ':' :: (minutes ++ (part ':' seconds ++ (part '.' fraction ++ tail))) ∧
      (∀ named, named.Accepted → (ClockText.mk hours minutes seconds fraction named).Accepted) ∧
      (midnight + (ClockText.mk hours minutes seconds fraction .local_).time).natAbs < 2^58 ∧ At text cursor' tail ∧
      isoClock text cursor zone (some midnight) =
        (isoZone text cursor' zone (some (midnight + (ClockText.mk hours minutes seconds fraction .local_).time)) >>=
          fun utc => .ok (timeClip utc)) := by
  rw [isoClock]
  cases parsed : twoBytes text cursor with
  | error halt => exact .inl (by rw [twoBytesHalts parsed]; rfl)
  | ok hour =>
    obtain ⟨hours,tail,rfl,hoursField,rfl,colonAt⟩ := twoBytesRead at_ parsed
    simp only [bind,Except.bind]
    split
    · exact .inl rfl
    rename_i colon
    rw [colonAt.char,not_not] at colon
    obtain ⟨inner,rfl⟩ := List.head?_eq_some_iff.mp colon
    cases parsed : twoBytes text (cursor+2+1) with
    | error halt => exact .inl (by rw [twoBytesHalts parsed])
    | ok minute =>
      obtain ⟨minutes,tail,rfl,minutesField,rfl,secondsAt⟩ := twoBytesRead (colonAt.next (by decide)) parsed
      cases parsed : isoSeconds text (cursor+2+1+2) with
      | error halt => exact .inl (by rw [secondsHalts parsed])
      | ok secondsRun =>
        obtain ⟨seconds,tail,rfl,secondsField,rfl,fractionAt⟩ := secondsRead secondsAt parsed
        simp only []
        rcases fractionSteps fractionAt with refused | ⟨fraction,tail,rfl,fractionDigits,run,zoneAt⟩
        · exact .inl (by rw [refused])
        · simp only [run]
          split
          · exact .inl rfl
          rename_i inRange
          have checked := clockInRange inRange
          have accepts : ∀ named, named.Accepted → (ClockText.mk hours minutes seconds fraction named).Accepted :=
            fun named accepted => ⟨hoursField,minutesField,secondsField,fractionDigits,checked.1,checked.2,accepted⟩
          have small := ClockText.timeBounded (accepts .local_ trivial)
          refine .inr ⟨hours,minutes,seconds,fraction,tail,_,rfl,accepts,by omega,zoneAt,?_⟩
          rw [makeDateOfDay whole]
          rfl

theorem clockRead {midnight value} (at_ : At text cursor rest) (finite : midnight.natAbs < 2^57)
    (whole : midnight % msPerDay = 0) (ran : isoClock text cursor zone (some midnight) = .ok value) :
    ∃ clock : ClockText, rest = clock.text ∧ clock.Accepted ∧
      value = timeClip (some (clock.zone.utcTime zone (midnight + clock.time))) := by
  have found : ∃ clock : ClockText, rest = clock.text ∧ clock.Accepted := by
    obtain refused | ⟨hours,minutes,seconds,fraction,tail,_,rfl,accepts,small,zoneAt,run⟩ : isoClock text cursor zone _ = _ ∨ _ :=
      clockSteps at_ finite whole
    · rw [refused] at ran
      cases ran
    · rw [run] at ran
      obtain ⟨utc,parsed,_⟩ := bindOk.mp ran
      obtain ⟨named,rfl,accepted,_⟩ := zoneRead zoneAt small parsed
      exact ⟨⟨hours,minutes,seconds,fraction,named⟩,rfl,accepts named accepted⟩
  obtain ⟨clock,rfl,accepted⟩ := found
  rw [clockReads at_ accepted finite whole] at ran
  exact ⟨clock,rfl,accepted,(Except.ok.inj ran).symm⟩

end

section
variable {text tail year : Text} {sign : Option Char}

theorem yearPlaces (accepted : YearAccepted sign year) :
    size (sign.toList ++ year) = (if sign = none then 4 else 7) ∧ parseI64 year = some (fieldValue year) ∧
    (fieldValue year).natAbs ≤ 999999 := by
  have range : ∀ {n : Nat}, n ≤ 6 → size year = n → (parseI64 year).isSome → (fieldValue year).natAbs ≤ 999999 := by
    intro n short long field
    have wide : parseI64 year = signedInteger true year := parseShort (by
      rw [long]
      have : (10 : Int)^n ≤ 10^6 := pow_le_pow_right₀ (by decide) short
      omega)
    have below := signedBelow (wide.symm.trans (fieldRead field))
    have power : 10^size year ≤ 10^6 := Nat.pow_le_pow_right (by decide) (by omega)
    omega
  cases sign with
  | none =>
    obtain ⟨_,_,long,field⟩ := accepted
    exact ⟨long,fieldRead field,range (by decide) long field⟩
  | some sign =>
    obtain ⟨signed,long,field,_⟩ := accepted
    refine ⟨?_,fieldRead field,range (Nat.le_refl 6) long field⟩
    rw [Option.toList_some,List.singleton_append,sizeCons,(signSize signed).1,long]
    rfl

theorem yearReads (accepted : YearAccepted sign year) :
    isoYearField (sign.toList ++ year ++ tail) =
      .ok (sign.elim 1 signValue * fieldValue year,size (sign.toList ++ year)) := by
  obtain ⟨long,read,_⟩ := yearPlaces accepted
  rw [long]
  cases sign with
  | none =>
    obtain ⟨plus,minus,long,_⟩ := accepted
    have some_ : year ≠ [] := by
      intro none_
      rw [none_] at long
      cases long
    have head : charAt (year ++ tail) 0 = year.head? := by
      rw [charAtStart,List.head?_append_of_ne_nil _ some_]
    rw [Option.toList_none,List.nil_append,isoYearField,head,if_neg (not_or.mpr ⟨plus,minus⟩),
      sliceStartIff.mpr ⟨tail,rfl,long⟩]
    simp only [bind,Except.bind,orAbsent,read,Option.elim_none,Int.one_mul,if_true]
  | some sign =>
    obtain ⟨signed,long,_,_⟩ := accepted
    have first : At (sign :: (year ++ tail)) 1 (year ++ tail) := (At.start _).next (signSize signed).1
    have head : charAt (sign :: (year ++ tail)) 0 = some sign := (At.start _).char
    rw [Option.toList_some,List.singleton_append,List.cons_append,isoYearField,head,
      if_pos (signed.imp (congrArg some) (congrArg some)),first.slice_ 6,takeWhole year tail long]
    simp only [bind,Except.bind,orAbsent,read,Option.elim_some,signValue,Option.some.injEq]
    rfl

theorem yearNotZero (accepted : YearAccepted sign year) :
    slice (sign.toList ++ year ++ tail) 0 7 ≠ some "-000000".toList := by
  cases sign with
  | none =>
    obtain ⟨_,minus,long,_⟩ := accepted
    intro same
    obtain ⟨rest,same,_⟩ := sliceStartIff.mp same
    cases year with
    | nil => cases long
    | cons c year =>
      refine minus ?_
      rw [(List.cons.inj same).1]
      rfl
  | some sign =>
    obtain ⟨signed,long,_,other⟩ := accepted
    have whole : slice ((some sign).toList ++ year ++ tail) 0 7 = some (sign :: year) := by
      refine sliceStartIff.mpr ⟨tail,rfl,?_⟩
      rw [sizeCons,(signSize signed).1,long]
    rw [whole]
    intro same
    have both := List.cons.inj (Option.some.inj same)
    exact other both

theorem yearRead {r} (ran : isoYearField text = .ok r) (zero : slice text 0 7 ≠ some "-000000".toList) :
    ∃ sign year tail, text = sign.toList ++ year ++ tail ∧ YearAccepted sign year := by
  rw [isoYearField] at ran
  split at ran
  · rename_i head
    obtain ⟨sign,inner,rfl,signed⟩ := signedHead head
    have first : At (sign :: inner) 1 inner := (At.start _).next (signSize signed).1
    obtain ⟨year,found,ran⟩ := bindOk.mp ran
    obtain ⟨magnitude,parsed,_⟩ := bindOk.mp ran
    have taken := orAbsentOk.mp found
    rw [first.slice_ 6] at taken
    obtain ⟨tail,rfl,long⟩ := takeBytesIff.mp taken
    refine ⟨some sign,year,tail,rfl,signed,long,(fieldOf (orAbsentOk.mp parsed)).1,?_⟩
    intro both
    refine zero (sliceStartIff.mpr ⟨tail,?_,by decide⟩)
    rw [both.1,both.2]
    rfl
  · rename_i head
    obtain ⟨year,found,ran⟩ := bindOk.mp ran
    obtain ⟨value,parsed,_⟩ := bindOk.mp ran
    obtain ⟨tail,rfl,long⟩ := sliceStartIff.mp (orAbsentOk.mp found)
    obtain ⟨plus,minus⟩ := not_or.mp head
    have some_ : year ≠ [] := by
      intro none_
      rw [none_] at long
      cases long
    rw [charAtStart,List.head?_append_of_ne_nil _ some_] at plus minus
    exact ⟨none,year,tail,rfl,plus,minus,long,(fieldOf (orAbsentOk.mp parsed)).1⟩

end

theorem daysBeforeBounds (year) {month} (low : 0 ≤ month) (high : month ≤ 12) :
    0 ≤ daysBefore year month ∧ daysBefore year month ≤ 366 := by
  obtain ⟨m,rfl⟩ := Int.eq_ofNat_of_zero_le low
  have below : daysBefore year (0 : Nat) ≤ daysBefore year m := daysBeforeMono year (Nat.zero_le m)
  have above : daysBefore year m ≤ daysBefore year (12 : Nat) := daysBeforeMono year (show m ≤ 12 by omega)
  have whole : daysBefore year (12 : Nat) = _ := daysBeforeYear year
  have length := yearLength year
  split at length
  · exact ⟨below,by omega⟩
  · exact ⟨below,by omega⟩

theorem midnightWhole {iso : IsoText} (year : YearAccepted iso.sign iso.year) (range : (1 ≤ iso.day.monthValue ∧ iso.day.monthValue ≤ 12) ∧
      (1 ≤ iso.day.dateValue ∧ iso.day.dateValue ≤ daysInMonth iso.yearValue iso.day.monthValue)) :
    ∃ midnight, iso.midnight = some midnight ∧ midnight.natAbs < 2^57 ∧ midnight % msPerDay = 0 := by
  obtain ⟨_,_,small⟩ := yearPlaces year
  have long := (daysInMonthPositive iso.yearValue iso.day.monthValue).2
  have years : iso.yearValue.natAbs ≤ 999999 := by
    have sign : (iso.sign.elim 1 signValue).natAbs = 1 := by
      cases iso.sign with
      | none => rfl
      | some sign => rw [Option.elim_some,signValue]; split <;> rfl
    rw [IsoText.yearValue,Int.natAbs_mul,sign,Nat.one_mul]
    exact small
  have bounds : DayBounds iso.yearValue (iso.day.monthValue-1) iso.day.dateValue := by
    refine ⟨?_,?_,?_⟩
    · rw [Int.abs_eq_natAbs]; omega
    · rw [Int.abs_eq_natAbs]; omega
    · rw [Int.abs_eq_natAbs]; omega
  have whole : (iso.day.monthValue-1)/12 = 0 := by omega
  have rest : (iso.day.monthValue-1)%12 = iso.day.monthValue-1 := by omega
  have before : 0 ≤ daysBefore iso.yearValue (iso.day.monthValue-1) ∧ daysBefore iso.yearValue (iso.day.monthValue-1) ≤ 366 :=
    daysBeforeBounds iso.yearValue (by omega) (by omega)
  have begins := dayFromYearValue iso.yearValue
  refine ⟨(dayFromYear iso.yearValue + daysBefore iso.yearValue (iso.day.monthValue-1) + iso.day.dateValue - 1)*msPerDay + 0,
    ?_,?_,?_⟩
  · rw [IsoText.midnight,makeDay,if_pos bounds,whole,rest,Int.add_zero]
    rfl
  · simp only [msPerDay]
    omega
  · simp only [msPerDay]
    omega

theorem IsoText.instantClock {iso : IsoText} {clock midnight zone} (found : iso.clock = some clock) (begins : iso.midnight = some midnight) :
    iso.instant zone = timeClip (some (clock.zone.utcTime zone (midnight + clock.time))) := by
  rw [IsoText.instant,found,begins]
  rfl

/-- Accepted pieces are read as their instant. -/
theorem isoReads {iso : IsoText} (accepted : iso.Accepted) (zone) :
    parseIso iso.text zone = .ok (iso.instant zone) := by
  obtain ⟨midnight,begins,finite,whole⟩ := midnightWhole accepted.year accepted.range
  have dayAt : At iso.text (size (iso.sign.toList ++ iso.year)) (iso.day.text ++ part 'T' (iso.clock.map ClockText.text)) :=
    dropBytesAt _ _
  have tailAt := dayAt.past
  have stops : part 'T' (iso.clock.map ClockText.text) = [] ∨ ∃ clock, part 'T' (iso.clock.map ClockText.text) = 'T' :: clock := by
    cases iso.clock with
    | none => exact .inl rfl
    | some clock => exact .inr ⟨clock.text,rfl⟩
  have alone : iso.day = .year → part 'T' (iso.clock.map ClockText.text) = [] := by
    intro year
    cases found : iso.clock with
    | none => rfl
    | some clock => exact absurd year (accepted.clock clock found).1
  have range : ¬(¬(1 ≤ iso.day.monthValue ∧ iso.day.monthValue ≤ 12) ∨
      ¬(1 ≤ iso.day.dateValue ∧ iso.day.dateValue ≤ daysInMonth iso.yearValue iso.day.monthValue)) :=
    not_or.mpr ⟨not_not_intro accepted.range.1,not_not_intro accepted.range.2⟩
  have year : isoYearField iso.text = .ok (iso.yearValue,size (iso.sign.toList ++ iso.year)) := yearReads accepted.year
  have zero : slice iso.text 0 7 ≠ some "-000000".toList := yearNotZero accepted.year
  rw [parseIso,year]
  simp only [bind,Except.bind]
  rw [if_neg zero,dayReads dayAt accepted.day stops alone]
  simp only []
  rw [if_neg range]
  cases found : iso.clock with
  | none =>
    rw [found] at tailAt
    rw [if_pos (tailAt.done.mpr rfl),IsoText.instant,found]
    rfl
  | some clock =>
    rw [found] at tailAt
    have more : ¬ size (iso.sign.toList ++ iso.year) + size iso.day.text = size iso.text := by
      rw [tailAt.done]
      exact List.cons_ne_nil _ _
    have mark : charAt iso.text (size (iso.sign.toList ++ iso.year) + size iso.day.text) = some 'T' := tailAt.char
    have clockAt : At iso.text _ clock.text := tailAt.next (by decide)
    have dateMs : makeDate (makeDay iso.yearValue (iso.day.monthValue-1) iso.day.dateValue) 0 = some midnight := begins
    rw [if_neg more,if_neg (not_not_intro mark),dateMs,clockReads clockAt (accepted.clock clock found).2 finite whole,
      IsoText.instantClock found begins]

/-- Whatever is read is made of accepted pieces. -/
theorem isoRead {text zone value} (ran : parseIso text zone = .ok value) :
    ∃ iso : IsoText, text = iso.text ∧ iso.Accepted := by
  obtain ⟨yearRun,parsed,ran⟩ := bindOk.mp ran
  split at ran
  · cases ran
  · rename_i zero
    obtain ⟨sign,year,rest,rfl,yearAccepted⟩ := yearRead parsed zero
    have same : isoYearField (sign.toList ++ year ++ rest) = _ := yearReads yearAccepted
    rw [parsed] at same
    cases same
    have dayAt : At (sign.toList ++ year ++ rest) (size (sign.toList ++ year)) rest := dropBytesAt _ _
    obtain ⟨fields,parsed,ran⟩ := bindOk.mp ran
    obtain ⟨day,tail,rfl,dayFields,alone,rfl,tailAt⟩ := dayRead dayAt parsed
    simp only [] at ran
    split at ran
    · cases ran
    · rename_i inRange
      have range : (1 ≤ day.monthValue ∧ day.monthValue ≤ 12) ∧
          (1 ≤ day.dateValue ∧ day.dateValue ≤ daysInMonth (sign.elim 1 signValue * fieldValue year) day.monthValue) :=
        ⟨not_not.mp (not_or.mp inRange).1,not_not.mp (not_or.mp inRange).2⟩
      split at ran
      · rename_i done
        have none_ := tailAt.done.mp done
        subst none_
        exact ⟨⟨sign,year,day,none⟩,rfl,yearAccepted,dayFields,range,(by intro clock some_; cases some_)⟩
      · split at ran
        · cases ran
        · rename_i mark
          rw [tailAt.char,not_not] at mark
          obtain ⟨inner,rfl⟩ := List.head?_eq_some_iff.mp mark
          obtain ⟨midnight,begins,finite,whole⟩ : ∃ midnight, (IsoText.mk sign year day none).midnight = some midnight ∧
              midnight.natAbs < 2^57 ∧ midnight % msPerDay = 0 := midnightWhole yearAccepted range
          have dateMs : makeDate (makeDay (sign.elim 1 signValue * fieldValue year) (day.monthValue-1) day.dateValue) 0 =
              some midnight := begins
          rw [dateMs] at ran
          obtain ⟨clock,rfl,accepted,_⟩ := clockRead (tailAt.next (by decide)) finite whole ran
          refine ⟨⟨sign,year,day,some clock⟩,rfl,yearAccepted,dayFields,range,?_⟩
          intro other some_
          cases some_
          exact ⟨fun year_ => List.cons_ne_nil _ _ (alone year_),accepted⟩

theorem parseIsoIff {text zone value} :
    parseIso text zone = .ok value ↔ ∃ iso : IsoText, text = iso.text ∧ iso.Accepted ∧ value = iso.instant zone := by
  constructor
  · intro ran
    obtain ⟨iso,rfl,accepted⟩ := isoRead ran
    rw [isoReads accepted] at ran
    exact ⟨iso,rfl,accepted,(Except.ok.inj ran).symm⟩
  · intro h
    obtain ⟨iso,rfl,accepted,rfl⟩ := h
    exact isoReads accepted zone

end Bamts.Date
